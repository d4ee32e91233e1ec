import Disassembly.Proofs.Table.Equivalence
import Disassembly.Proofs.Table.Legality
import Disassembly.Proofs.Text.Splitting

/-!
# Reading back what a table prints

A table prints its entries as lines of words, in the order of the opcodes.  No
word of a line can be taken for anything else: opcode bytes are the only ones
that are numbers, names hold neither blanks nor number signs, and the names of
a layout belong to no other layout.  What was printed is therefore read as the
same entries, and the order in which they come does not matter to any of the
checks.  The print in turn depends on nothing but the lookups, so that it tells
two tables apart exactly if some lookup does.
-/

namespace Disassembly

open Text (isPlain isWord isWord_iff)

/-! ## Words of a line -/

namespace Numeral

theorem isPlain_upperDigit {value : Nat} (hvalue : value < 16) :
    isPlain (upperDigit value) := by
  have hall : ∀ value < 16, isPlain (upperDigit value) := by decide
  exact hall value hvalue

theorem digit?_upperDigit {value : Nat} (hvalue : value < 16) :
    digit? 16 (upperDigit value) = some value := by
  have hall : ∀ value < 16, digit? 16 (upperDigit value) = some value := by decide
  exact hall value hvalue

theorem isWord_hexByte (byte : UInt8) : isWord (hexByte byte) := by
  have hbyte : byte.toNat < 256 := byte.toNat_lt
  have hhigh := isPlain_upperDigit (show byte.toNat / 16 < 16 by omega)
  have hlow := isPlain_upperDigit (show byte.toNat % 16 < 16 by omega)
  have hzero : isPlain '0' = true := rfl
  have hx : isPlain 'x' = true := rfl
  simp [isWord, hexByte, hhigh, hlow, hzero, hx]

/-- A printed byte is read as the same byte. -/
theorem byte?_hexByte (byte : UInt8) : byte? (hexByte byte) = some byte := by
  have hbyte : byte.toNat < 256 := byte.toNat_lt
  have hhigh := digit?_upperDigit (show byte.toNat / 16 < 16 by omega)
  have hlow := digit?_upperDigit (show byte.toNat % 16 < 16 by omega)
  have hvalue : byte.toNat / 16 * 16 + byte.toNat % 16 = byte.toNat := by omega
  have hread : read? (hexByte byte).toList = some byte.toNat := by
    simp [hexByte, read?, digits?, hhigh, hlow, hvalue]
  have hbound : byte.toNat ≤ 255 := by omega
  simp [byte?, readAtMost?, hread, hbound]

end Numeral

namespace InstructionType

/-- The names consist of characters beyond the number sign, and none of them is
taken for a second opcode byte. -/
theorem mnemonics_legible :
    ∀ name ∈ mnemonics, (name ≠ "" ∧ name.toList.all (35 < ·.toNat)) ∧
      Numeral.byte? name = none := by
  decide +kernel

theorem isWord_of_mem_mnemonics {name : String} (hname : name ∈ mnemonics) :
    isWord name := by
  obtain ⟨⟨hnonempty, hbeyond⟩, _⟩ := mnemonics_legible name hname
  refine isWord_iff.mpr ⟨by simpa using hnonempty, ?_⟩
  intro c hc
  have hcode : 35 < c.toNat := by simpa using List.all_eq_true.mp hbeyond c hc
  exact Text.isPlain_of_lt_toNat hcode

theorem byte?_of_mem_mnemonics {name : String} (hname : name ∈ mnemonics) :
    Numeral.byte? name = none :=
  (mnemonics_legible name hname).2

end InstructionType

theorem Field.isWord_name {field : Field} (hfield : field ∈ all) : isWord field.name := by
  revert field
  decide

theorem Directive.isWord_name (directive : Directive) : isWord directive.name := by
  cases directive <;> decide

theorem Layout.Known.isWord_of_mem_names {layout : Layout} (hlayout : layout.Known)
    {word : String} (hword : word ∈ layout.names) : isWord word := by
  cases layout with
  | inOrder fields =>
      obtain ⟨field, hfield, rfl⟩ := List.mem_map.mp hword
      exact Field.isWord_name (hlayout field hfield)
  | special directive =>
      rw [List.mem_singleton.mp hword]
      exact directive.isWord_name
  | unknown rule => exact hlayout.elim

/-! ## Lines -/

namespace Entry

variable {entry : Entry}

/-- The words that the entry is printed with. -/
def words (entry : Entry) : List String :=
  entry.opcode.bytes.map Numeral.hexByte ++ entry.type.name :: entry.layout.names

/-- The row that holds the entry. -/
def row (entry : Entry) : Row :=
  ⟨entry.opcode, entry.type.name, String.intercalate " " entry.layout.names⟩

/-- An entry that a row can hold. -/
structure Readable (entry : Entry) : Prop where
  named : InstructionType.ofName? entry.type.name = some entry.type
  known : entry.layout.Known
  bound : entry.Bound

theorem readable_of_ofRow {row : Row} (hrow : ofRow row = .ok entry) :
    entry.Readable := by
  obtain ⟨hdescribes, hbound⟩ := ofRow_eq_ok_iff.mp hrow
  refine ⟨?_, hdescribes.known, hbound⟩
  rw [hdescribes.name]
  exact hdescribes.type

theorem Readable.mem_mnemonics (hentry : entry.Readable) :
    entry.type.name ∈ InstructionType.mnemonics := by
  rw [← InstructionType.ofName?_isSome_iff, hentry.named]
  rfl

theorem text_eq : entry.text = String.intercalate " " entry.words := by
  have hopcode : entry.opcode.bytes.map Numeral.hexByte ≠ [] := by
    simp [Opcode.bytes]
  rw [words, String.intercalate_append_of_ne_nil hopcode (by simp), text,
    String.intercalate_cons_of_ne_nil (by simp)]
  rfl

theorem Readable.isWord_of_mem_words (hentry : entry.Readable)
    {word : String} (hword : word ∈ entry.words) : isWord word := by
  simp only [words, List.mem_append, List.mem_cons] at hword
  rcases hword with hbyte | hname | hlayout
  · obtain ⟨byte, _, rfl⟩ := List.mem_map.mp hbyte
    exact Numeral.isWord_hexByte byte
  · rw [hname]
    exact InstructionType.isWord_of_mem_mnemonics hentry.mem_mnemonics
  · exact hentry.known.isWord_of_mem_names hlayout

theorem Readable.words_text (hentry : entry.Readable) :
    Text.words entry.text = entry.words := by
  rw [text_eq]
  exact Text.words_intercalate fun word => hentry.isWord_of_mem_words

theorem Readable.notMem_text (hentry : entry.Readable)
    {c : Char} (hspace : c ≠ ' ') (hplain : ¬ isPlain c) :
    c ∉ entry.text.toList := by
  intro hc
  rw [text_eq] at hc
  have hother :=
    Text.mem_intercalate (fun word => hentry.isWord_of_mem_words) hc
  exact hother.elim hspace hplain

/-- The line of an entry is read as the row of the entry. -/
theorem Readable.ofLine?_text (hentry : entry.Readable) :
    Row.ofLine? entry.text = .ok (some entry.row) := by
  have hname : Numeral.byte? entry.type.name = none :=
    InstructionType.byte?_of_mem_mnemonics hentry.mem_mnemonics
  have hcomment : '#' ∉ entry.text.toList :=
    hentry.notMem_text (by decide) (by decide)
  unfold Row.ofLine?
  rw [Text.withoutComment_of_notMem hcomment, hentry.words_text]
  rcases entry with ⟨⟨lead, second?⟩, type, layout⟩
  cases second? with
  | none =>
      simp [words, Opcode.bytes, Numeral.byte?_hexByte, hname, row, pure,
        Except.pure]
  | some second =>
      simp [words, Opcode.bytes, Numeral.byte?_hexByte, row, pure, Except.pure]

example :
    (⟨.extended 0xFC 0x08, ⟨57⟩, .inOrder [.index .memories]⟩ : Entry).text =
      "0xFC 0x08 memory.init memidx" := by
  decide +kernel

theorem Readable.describes_row (hentry : entry.Readable) :
    entry.row.Describes entry := by
  refine ⟨rfl, hentry.named, hentry.known, ?_⟩
  rw [Row.words, row, Text.words_intercalate]
  exact fun word => hentry.known.isWord_of_mem_names

theorem Readable.ofRow_row (hentry : entry.Readable) :
    ofRow entry.row = .ok entry :=
  ofRow_eq_ok_iff.mpr ⟨hentry.describes_row, hentry.bound⟩

end Entry

/-! ## Tables -/

namespace Table

variable {table first second : Table}

theorem Accepted.readable (htable : table.Accepted)
    {entry : Entry} (hentry : entry ∈ table.entries) : entry.Readable := by
  obtain ⟨source, rows, hrows⟩ := htable.exists_rows
  obtain ⟨row, _, hrow⟩ :=
    exists_of_forall₂_of_mem (ofRows_entries hrows).flip hentry
  exact Entry.readable_of_ofRow hrow

theorem Accepted.readable_of_mem_ordered (htable : table.Accepted)
    {entry : Entry} (hentry : entry ∈ table.ordered) : entry.Readable :=
  htable.readable (htable.wellFormed.ordered_perm.mem_iff.mp hentry)

/-- The lines of the print are those of the entries. -/
theorem Accepted.lines_text (htable : table.Accepted) :
    Text.lines table.text = table.ordered.map Entry.text := by
  have hlines : ∀ line ∈ table.ordered.map Entry.text, '\n' ∉ line.toList := by
    intro line hline
    obtain ⟨entry, hentry, rfl⟩ := List.mem_map.mp hline
    exact (htable.readable_of_mem_ordered hentry).notMem_text
      (by decide) (by decide)
  rw [← Text.lines_join hlines, List.map_map]
  rfl

theorem Accepted.rows_text (htable : table.Accepted) :
    Row.ofText table.text = table.ordered.map Entry.row := by
  have hrow : ∀ entry ∈ table.ordered,
      (Row.onLine? ∘ Entry.text) entry = some entry.row := by
    intro entry hentry
    have hline := (htable.readable_of_mem_ordered hentry).ofLine?_text
    simp [Row.onLine?, hline, Except.toOption]
  rw [Row.ofText, htable.lines_text, List.filterMap_map,
    List.filterMap_congr hrow]
  exact congrFun List.filterMap_eq_map table.ordered

/-- The order of the opcodes is as good as the order of the original rows. -/
theorem Accepted.allLegal_ordered (htable : table.Accepted) :
    Row.AllLegal (table.ordered.map Entry.row) := by
  have hwellFormed := htable.wellFormed
  have hperm := hwellFormed.ordered_perm
  have hreadable {entry : Entry} (hentry : entry ∈ table.ordered) :=
    htable.readable_of_mem_ordered hentry
  refine ⟨⟨?_, ?_⟩, ?_⟩
  · intro row hrow
    obtain ⟨entry, hentry, rfl⟩ := List.mem_map.mp hrow
    exact Row.legal_iff_exists_ofRow.mpr ⟨entry, (hreadable hentry).ofRow_row⟩
  · have hapart : table.ordered.Pairwise Entry.Apart :=
      hperm.symm.pairwise hwellFormed.apart Entry.Apart.symm
    rw [List.pairwise_map]
    refine hapart.imp_of_mem ?_
    intro earlier later hearlier hlater hboth
    exact ((hreadable hearlier).describes_row.apart_iff
      (hreadable hlater).describes_row).mp hboth
  · obtain ⟨entry, hentry, htype⟩ := hwellFormed.endMapped
    refine ⟨entry.row, List.mem_map.mpr ⟨entry, hperm.mem_iff.mpr hentry, rfl⟩, ?_⟩
    rw [← htype]
    rfl

theorem eq_of_ofRow_row {entries read : List Entry}
    (hreadable : ∀ entry ∈ entries, entry.Readable)
    (hread : List.Forall₂ (fun entry other => Entry.ofRow entry.row = .ok other)
      entries read) : read = entries := by
  induction hread with
  | nil => rfl
  | cons hfirst _ ih =>
      obtain ⟨hentry, hmore⟩ := List.forall_mem_cons.mp hreadable
      rw [hentry.ofRow_row, Except.ok.injEq] at hfirst
      rw [hfirst, ih hmore]

/-- What a table printed is read as its entries in the order of their opcodes. -/
theorem Accepted.ofText_text (htable : table.Accepted) (source : String) :
    ofText source table.text = .ok ⟨source, table.ordered⟩ := by
  have hbuilt : ∃ again, ofRows source (table.ordered.map Entry.row) = .ok again :=
    exists_ofRows_iff.mpr htable.allLegal_ordered
  obtain ⟨again, hagain⟩ := hbuilt
  have hsource : again.source = source := (builtFrom_of_ofRows hagain).source
  have hentries : again.entries = table.ordered := by
    have hboth := List.forall₂_map_left_iff.mp (ofRows_entries hagain)
    exact eq_of_ofRow_row (fun entry => htable.readable_of_mem_ordered) hboth
  have hread : ∀ line ∈ Text.lines table.text,
      ∃ row?, Row.ofLine? line = .ok row? := by
    intro line hline
    rw [htable.lines_text] at hline
    obtain ⟨entry, hentry, rfl⟩ := List.mem_map.mp hline
    exact ⟨_, (htable.readable_of_mem_ordered hentry).ofLine?_text⟩
  rw [ofText_eq_ok_iff, htable.rows_text, hagain]
  refine ⟨hread, ?_⟩
  cases again
  simp_all

/-! ## Tables that nobody can tell apart -/

/-- The tables have the same lookups, sizes and prints, and decoders do the same by them. -/
structure Agrees (first second : Table) : Prop extends first.SameLookups second where
  entryOf? : ∀ type, first.entryOf? type = second.entryOf? type
  size : first.size = second.size
  text : first.text = second.text
  decodeOne : ∀ {σ : Type} [ByteSource σ] depthLimit watched (input : σ),
    (Decoder.mk first depthLimit watched).decodeOne input =
      (Decoder.mk second depthLimit watched).decodeOne input
  decodeBlock : ∀ {σ : Type} [ByteSource σ] depthLimit watched (input : σ),
    (Decoder.mk first depthLimit watched).decodeBlock input =
      (Decoder.mk second depthLimit watched).decodeBlock input

theorem Coherent.agrees_of_perm
    (hfirst : first.Coherent) (hsecond : second.Coherent)
    (hperm : first.entries.Perm second.entries) : first.Agrees second := by
  have hmem (entry : Entry) : entry ∈ first.entries ↔ entry ∈ second.entries :=
    hperm.mem_iff
  have hsame : first.SameLookups second := hfirst.sameLookups hsecond hmem
  have halike (depthLimit : Nat) (watched : Bool) :
      (Decoder.mk first depthLimit watched).Alike
        (Decoder.mk second depthLimit watched) :=
    ⟨hsame, rfl, rfl⟩
  constructor
  · exact hsame
  · exact hfirst.entryOf?_eq hsecond hmem
  · exact hperm.length_eq
  · exact hsame.text_eq
  · intro _ _ depthLimit watched input
    exact (halike depthLimit watched).decodeOne_eq input
  · intro _ _ depthLimit watched input
    exact (halike depthLimit watched).decodeBlock_eq input

theorem Accepted.exists_agrees (htable : table.Accepted) (source : String) :
    ∃ again, ofText source table.text = .ok again ∧ again.Agrees table := by
  have hread := htable.ofText_text source
  have hagain := wellFormed_of_ofText hread
  have htable' := htable.wellFormed
  exact ⟨_, hread, hagain.agrees_of_perm htable'.toCoherent htable'.ordered_perm⟩

theorem Accepted.text_eq_iff
    (hfirst : first.Accepted) (hsecond : second.Accepted) :
    first.text = second.text ↔ first.SameLookups second := by
  constructor
  · intro htext
    have hread := hfirst.ofText_text ""
    rw [htext, hsecond.ofText_text "", Except.ok.injEq, Table.mk.injEq] at hread
    have hperm : first.entries.Perm second.entries := by
      have hordered := hfirst.wellFormed.ordered_perm
      rw [← hread.2] at hordered
      exact hordered.symm.trans hsecond.wellFormed.ordered_perm
    exact (hfirst.wellFormed.agrees_of_perm hsecond.wellFormed.toCoherent
      hperm).toSameLookups
  · exact SameLookups.text_eq

/-- Nothing is lost by printing a table and reading it back, and tables are printed
alike exactly if their lookups are the same. -/
theorem printed_tables_are_read_back :
    (∀ table : Table, table.Accepted → ∀ source,
      ∃ again, ofText source table.text = .ok again ∧ again.Agrees table) ∧
    ∀ first second : Table, first.Accepted → second.Accepted →
      (first.text = second.text ↔ first.SameLookups second) := by
  constructor
  · intro table htable source
    exact htable.exists_agrees source
  · intro first second hfirst hsecond
    exact hfirst.text_eq_iff hsecond

/-- The sample, and the table of its rows in reverse. -/
theorem sample_and_reversed_sample :
    let reversed : Table := ⟨"reversed", sample.entries.reverse⟩
    (sample.Accepted ∧
      ∃ again, ofText "printed" sample.text = .ok again ∧ again.Agrees sample) ∧
    reversed.Accepted ∧ sample.SameLookups reversed ∧
      sample.text = reversed.text := by
  intro reversed
  have hreversed : reversed.Accepted := .inl ⟨"reversed", Row.sample.reverse, rfl⟩
  have hperm : sample.entries.Perm reversed.entries :=
    (List.reverse_perm sample.entries).symm
  have hsame : sample.SameLookups reversed :=
    (accepted_sample.wellFormed.agrees_of_perm hreversed.wellFormed.toCoherent
      hperm).toSameLookups
  obtain ⟨hread, hcanonical⟩ := printed_tables_are_read_back
  exact ⟨⟨accepted_sample, hread sample accepted_sample "printed"⟩, hreversed, hsame,
    (hcanonical sample reversed accepted_sample hreversed).mpr hsame⟩

end Table

end Disassembly
