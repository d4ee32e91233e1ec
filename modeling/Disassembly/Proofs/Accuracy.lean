import Disassembly.Proofs.Comparison.Blocks
import Disassembly.Proofs.Delimiting

/-!
# Errors point at the truth

An error names a position, and decoding stops at a position.  In a buffer both can
be checked: the bytes before and at these positions show what the error says.

Most errors are told from the bytes next to them.  A second `else` is told only
from the arm that it closes, which is a block of the table.  That there is such an
arm is kept track of while the decoder runs.
-/

namespace Disassembly

open Grammar

/-! ## What bytes show -/

/-- What the bytes of a buffer show of a fault that was found at a position, behind a
start and in front of a stop. -/
def DecodeFault.Shown (table : Table) (limit : Nat) (buffer : Buffer)
    (start position stop : Nat) : DecodeFault → Prop
  | .endOfInput requested =>
    stop = position ∧ (requested = 1 ∨ requested = 4 ∨ requested = 8) ∧
      buffer.size < position + requested
  | .unknownOpcode opcode =>
    stop = position + 1 ∧ buffer.bytes[position]? = some opcode ∧
      table.slot? opcode = none
  | .unknownSecondary lead opcode =>
    stop = position + 1 ∧ buffer.bytes[position]? = some opcode ∧
      start < position ∧ buffer.bytes[position - 1]? = some lead ∧
      table.slot? lead = some .extended ∧ table.extended? lead opcode = none
  | .invalidType byte role =>
    stop = position + 1 ∧ buffer.bytes[position]? = some byte ∧ ¬ role.Admits byte
  | .overlongInteger width =>
    stop = position ∧ ∃ count, (width = 32 ∧ count = 5 ∨ width = 64 ∧ count = 10) ∧
      start + count ≤ position ∧
      ∀ byte ∈ buffer.slice (position - count) position, 128 ≤ byte.toNat
  | .nestingTooDeep named => stop = position ∧ named = limit
  | .secondElse =>
    stop = position ∧ ∃ entry, table.entryOf? .otherwise = some entry ∧
      (entry.layout = .inOrder [] → start < position ∧
        buffer.bytes[position - 1]? = entry.opcode.bytes.getLast?)
  | .internal _ => False

/-- An error lies within the bytes that were read, and these show what it says. -/
structure DecodeError.Accurate (table : Table) (limit : Nat) (buffer : Buffer)
    (start : Nat) (error : DecodeError) (stop : Nat) : Prop where
  behind_start : start ≤ error.position
  before_stop : error.position ≤ stop
  within : stop ≤ buffer.size
  shown : error.fault.Shown table limit buffer start error.position stop

/-! ## Inputs in a buffer -/

/-- An input holds the bytes of a buffer from its position on. -/
structure Input.StandsIn (input : Input) (buffer : Buffer) : Prop where
  keeps : input.shortRead = .keeps
  rest : input.rest = buffer.bytes.drop input.position
  within : input.position ≤ buffer.size

namespace Input.StandsIn

variable {buffer : Buffer} {before after : Input} {bytes : List UInt8} {byte : UInt8}

theorem of_start {start : Nat} (hstart : start ≤ buffer.size) :
    Input.StandsIn ⟨.keeps, start, buffer.bytes.drop start⟩ buffer :=
  ⟨rfl, rfl, hstart⟩

theorem position_add_remaining (hbefore : before.StandsIn buffer) :
    before.position + before.remaining = buffer.size := by
  have hwithin := hbefore.within
  unfold Buffer.size at hwithin ⊢
  rw [Input.remaining, hbefore.rest, List.length_drop]
  omega

theorem consumed (hbefore : before.StandsIn buffer)
    (hbytes : before.Consumed bytes after) : after.StandsIn buffer := by
  have hremaining := hbytes.remaining
  have hposition := hbytes.position
  have hsize := hbefore.position_add_remaining
  refine ⟨hbytes.shortRead.trans hbefore.keeps, ?_, by omega⟩
  have hdrop : before.rest.drop bytes.length = after.rest := by
    rw [hbytes.rest, List.drop_left]
  rw [← hdrop, hbefore.rest, List.drop_drop, hposition]

theorem slice_eq (hbefore : before.StandsIn buffer)
    (hbytes : before.Consumed bytes after) :
    buffer.slice before.position after.position = bytes := by
  rw [Buffer.slice, List.extract_eq_take_drop, ← hbefore.rest, hbytes.rest,
    hbytes.position, Nat.add_sub_cancel_left, List.take_left]

theorem next_byte (hbefore : before.StandsIn buffer)
    (hbyte : before.Consumed [byte] after) :
    after.position = before.position + 1 ∧
      buffer.bytes[before.position]? = some byte := by
  refine ⟨hbyte.position, ?_⟩
  have hhead : before.rest[0]? = some byte := by simp [hbyte.rest]
  rwa [hbefore.rest, List.getElem?_drop] at hhead

theorem last_byte (hbefore : before.StandsIn buffer)
    (hbytes : before.Consumed (bytes ++ [byte]) after) :
    before.position < after.position ∧
      buffer.bytes[after.position - 1]? = some byte := by
  obtain ⟨middle, hfirst, hlast⟩ := hbytes.split
  obtain ⟨hposition, hbyte⟩ := (hbefore.consumed hfirst).next_byte hlast
  have hmiddle := hfirst.position
  rw [hposition, Nat.add_sub_cancel]
  exact ⟨by omega, hbyte⟩

end Input.StandsIn

/-! ## A second `else` -/

section Else

variable {table : Table} {limit level : Nat} {bytes : List UInt8}

/-- A block that is closed by `else` ends with the entry of `else`. -/
theorem Grammar.Derives.exists_else
    {content : Block} (hblock : Derives table limit level bytes (.block content))
    (hclosed : content.closedByElse) :
    ∃ entry ∈ table.entries, entry.type = .otherwise ∧ ∃ front rest values,
      Derives table limit level rest (.operands entry.layout values) ∧
        bytes = front ++ entry.opcode.bytes ++ rest := by
  generalize hphrase : Phrase.block content = phrase at hblock
  induction hblock generalizing content with
  | close hitem _ _ =>
      cases hphrase
      obtain ⟨entry, hentry, rest, values, hvalues, rfl, rfl⟩ :=
        derives_instruction_iff.mp hitem
      exact ⟨entry, hentry, of_decide_eq_true hclosed, [], rest, values, hvalues, rfl⟩
  | @next _ first _ _ tail _ _ _ _ ih =>
      cases hphrase
      have htail : tail.closedByElse := hclosed
      obtain ⟨entry, hentry, htype, front, rest, values, hvalues, rfl⟩ :=
        ih htail rfl
      exact ⟨entry, hentry, htype, first ++ front, rest, values, hvalues,
        by simp only [List.append_assoc]⟩
  | _ => cases hphrase

/-- The bytes up to an input end with an arm that was closed by `else`. -/
def ElseBehind (table : Table) (limit : Nat) (origin input : Input) : Prop :=
  ∃ bytes arm level content, origin.Consumed (bytes ++ arm) input ∧
    Derives table limit level arm (.block content) ∧ content.closedByElse

/-- Where `else` holds nothing, its opcode is what an arm that it closes ends with. -/
theorem ElseBehind.last_byte
    (htable : table.Coherent) {origin input : Input} {buffer : Buffer}
    (helse : ElseBehind table limit origin input) (horigin : origin.StandsIn buffer) :
    ∃ entry, table.entryOf? .otherwise = some entry ∧
      (entry.layout = .inOrder [] → origin.position < input.position ∧
        buffer.bytes[input.position - 1]? = entry.opcode.bytes.getLast?) := by
  obtain ⟨bytes, arm, level, content, hbytes, harm, hclosed⟩ := helse
  obtain ⟨entry, hentry, htype, front, rest, values, hvalues, rfl⟩ :=
    harm.exists_else hclosed
  refine ⟨entry, htable.entryOf?_eq_some_iff.mpr ⟨hentry, htype⟩, ?_⟩
  intro hlayout
  rw [hlayout] at hvalues
  obtain ⟨rfl, rfl⟩ := derives_noFields_iff.mp hvalues
  obtain hnil | ⟨opcode, last, hopcode⟩ :=
    List.eq_nil_or_concat entry.opcode.bytes
  · exact absurd hnil entry.opcode.bytes_ne_nil
  · rw [List.concat_eq_append] at hopcode
    rw [hopcode, List.append_nil, ← List.append_assoc, ← List.append_assoc] at hbytes
    rw [hopcode, List.getLast?_concat]
    exact horigin.last_byte hbytes

namespace Comparison

/-- A run next to itself, which remembers the arm behind a second `else`. -/
def tracing (table : Table) (limit : Nat) (origin : Input) : Comparison where
  running before other :=
    other.input = before.input ∧ ∃ bytes, origin.Consumed bytes before.input
  failed error after _ _ :=
    error.fault = .secondElse → ElseBehind table limit origin after.input
  excuses _ := False

theorem reads_tracing (origin : Input) : (tracing table limit origin).Reads where
  rest := by
    rintro before other ⟨hsame, _⟩
    rw [hsame]
  advance := by
    rintro before other ⟨hsame, bytes, hbytes⟩ count _
    exact ⟨congrArg (Input.advance · count) hsame, _,
      hbytes.append (before.input.consumed_advance count)⟩
  shortage := by
    intro before other _ count _ hfault
    cases hfault
  blame := by
    intro before other _ fault hblames count _ hfault
    exact absurd hfault hblames.2.2

theorem covers_tracing
    {decoder : Decoder} (origin : Input) (htable : decoder.table.Coherent) :
    (tracing decoder.table decoder.depthLimit origin).Covers decoder decoder Eq where
  toReads := reads_tracing origin
  entry bound := (reads_tracing origin).entry bound (.refl decoder.table)
  tellInstruction := by
    intro level other before last _ hrunning item
    simpa [tracing] using hrunning
  tellBlock := by
    intro level other before last _ hrunning content
    simpa [tracing] using hrunning
  deeper := congrArg (· + 1)
  nests := by
    rintro level _ rfl hlevel
    exact hlevel
  tooDeep := by
    rintro level _ before last rfl _ hdeep
    exact .inr ⟨hdeep, fun hfault => by cases hfault⟩
  secondElse := by
    rintro budget level before other after last content ⟨_, bytes, hbytes⟩ hbudget
      hrun hclosed _ _
    obtain ⟨arm, harm, hafter⟩ :=
      (Decoder.readsBlocks htable budget level before hbudget content after.input).mp
        ⟨after.events, hrun⟩
    exact ⟨bytes, arm, level, content, hbytes.append hafter, harm, hclosed⟩

end Comparison

end Else

/-! ## Failures in a buffer -/

section Failures

variable {table : Table} {buffer : Buffer} {limit : Nat}

/-- A failure on an input of a buffer is shown by the buffer. -/
theorem Failure.accurate
    (htable : table.Coherent) {before after : Input} {error : DecodeError}
    (hfailure : Failure table limit before error after)
    (hbefore : before.StandsIn buffer)
    (helse : error.fault = .secondElse → ElseBehind table limit before after) :
    error.Accurate table limit buffer before.position after.position := by
  cases hfailure with
  | @endOfInput bytes reached count hbytes hcount hshort =>
      have hreached := hbefore.consumed hbytes
      have hsize : buffer.size < reached.position + count := by
        rw [← hreached.position_add_remaining]
        exact Nat.add_lt_add_left hshort _
      have hkept : reached.afterShortage count = reached := by
        simp only [Input.afterShortage, hreached.keeps]
      rw [hkept]
      exact ⟨hbytes.position_le, le_rfl, hreached.within, rfl, hcount, hsize⟩
  | unknownOpcode hbytes hlead hslot =>
      have hreached := hbefore.consumed hbytes
      obtain ⟨hstop, hbyte⟩ := hreached.next_byte hlead
      exact ⟨hbytes.position_le, hlead.position_le, (hreached.consumed hlead).within,
        hstop, hbyte, hslot⟩
  | unknownSecondary hbytes hsecond hslot hnone =>
      have hreached := hbefore.consumed hbytes
      obtain ⟨hbehind, hlead⟩ := hbefore.last_byte hbytes
      obtain ⟨hstop, hbyte⟩ := hreached.next_byte hsecond
      exact ⟨hbytes.position_le, hsecond.position_le,
        (hreached.consumed hsecond).within, hstop, hbyte, hbehind, hlead, hslot, hnone⟩
  | invalidType hbytes hbyte hrole =>
      have hreached := hbefore.consumed hbytes
      obtain ⟨hstop, hnext⟩ := hreached.next_byte hbyte
      exact ⟨hbytes.position_le, hbyte.position_le, (hreached.consumed hbyte).within,
        hstop, hnext, hrole⟩
  | @overlongInteger bytes groups width after hbytes hwidth hlength hgroups =>
      obtain ⟨middle, hfirst, hlast⟩ := hbytes.split
      have hreached := hbefore.consumed hfirst
      have hslice := hreached.slice_eq hlast
      have hmiddle : after.position - groups.length = middle.position := by
        rw [hlast.position, Nat.add_sub_cancel]
      have hstart : before.position + groups.length ≤ after.position := by
        rw [hlast.position]
        exact Nat.add_le_add_right hfirst.position_le _
      have hcount :
          width = 32 ∧ groups.length = 5 ∨ width = 64 ∧ groups.length = 10 := by
        rcases hwidth with rfl | rfl
        · exact .inl ⟨rfl, hlength⟩
        · exact .inr ⟨rfl, hlength⟩
      refine ⟨hbytes.position_le, le_rfl, (hreached.consumed hlast).within, rfl,
        groups.length, hcount, hstart, ?_⟩
      rw [hmiddle, hslice]
      exact hgroups
  | nestingTooDeep hbytes =>
      exact ⟨hbytes.position_le, le_rfl, (hbefore.consumed hbytes).within, rfl, rfl⟩
  | secondElse hbytes =>
      exact ⟨hbytes.position_le, le_rfl, (hbefore.consumed hbytes).within, rfl,
        (helse rfl).last_byte htable hbefore⟩

namespace Decoder

variable {decoder : Decoder} {input : Input} {error : DecodeError}

/-- Work that fails with a second `else` has an arm behind it. -/
theorem elseBehind_of_relates
    {α : Type} {work : Decoding Input α} {least bound : Nat}
    (hwork : (Comparison.tracing decoder.table decoder.depthLimit input).Relates
      least bound work work)
    (hbound : input.remaining ≤ bound + least)
    (herror : (decoder.run work input).result = .error error)
    (hfault : error.fault = .secondElse) :
    ElseBehind decoder.table decoder.depthLimit input
      (decoder.run work input).input := by
  obtain ⟨outcome, _, hagree, ⟨hresult, hinput⟩, _⟩ :=
    hwork.exists_agree decoder decoder
      (fun _ _ => ⟨rfl, [], Input.Consumed.nil input⟩) hbound
  rw [hresult] at herror
  rw [hinput]
  cases hagree with
  | ok => cases herror
  | error hfailed =>
      cases herror
      exact hfailed hfault
  | excused hexcused => exact hexcused.elim

theorem accurate_of_decodes
    {α : Type} {decode : Input → Outcome Input α}
    {iterate : BufferIterator → Outcome BufferIterator α} (htable : decoder.table.Coherent)
    (hagree : BufferIterator.Agree iterate decode)
    (hfailure : ∀ input error, (decode input).result = .error error →
      Failure decoder.table decoder.depthLimit input error (decode input).input ∧
        (error.fault = .secondElse → ElseBehind decoder.table decoder.depthLimit
          input (decode input).input))
    {start stop : Nat} (hdecodes : buffer.Decodes iterate start (.error error) stop) :
    error.Accurate decoder.table decoder.depthLimit buffer start stop := by
  obtain ⟨hstart, herror, rfl⟩ := (Buffer.decodes_iff hagree).mp hdecodes
  obtain ⟨hfails, helse⟩ := hfailure _ error herror
  exact hfails.accurate htable (Input.StandsIn.of_start hstart) helse

end Decoder

end Failures

/-- The bytes around the position of an error show what the error says, and decoding
stops at that position or behind the byte that is to blame. -/
theorem errors_are_accurate
    (decoder : Decoder) (htable : decoder.table.Accepted) (buffer : Buffer)
    (start : Nat) :
    (∀ error stop, buffer.Decodes decoder.decodeOne start (.error error) stop →
      error.Accurate decoder.table decoder.depthLimit buffer start stop) ∧
    ∀ error stop, buffer.Decodes decoder.decodeBlock start (.error error) stop →
      error.Accurate decoder.table decoder.depthLimit buffer start stop := by
  have hcoherent := htable.wellFormed.toCoherent
  constructor
  · intro error stop hdecodes
    refine Decoder.accurate_of_decodes hcoherent
      (BufferIterator.agree_decodeOne decoder) ?_ hdecodes
    intro input other hother
    have hcovers := Comparison.covers_tracing input hcoherent
    have hblocks := hcovers.relatesBlocks le_rfl (Nat.le_refl input.remaining)
    exact ⟨Decoder.decodeOne_eq_error hcoherent hother,
      Decoder.elseBehind_of_relates (hcovers.instruction hblocks le_rfl (Eq.refl 0))
        (Nat.le_succ _) hother⟩
  · intro error stop hdecodes
    refine Decoder.accurate_of_decodes hcoherent
      (BufferIterator.agree_decodeBlock decoder) ?_ hdecodes
    intro input other hother
    have hcovers := Comparison.covers_tracing input hcoherent
    have hblocks := hcovers.relatesBlocks le_rfl (Nat.le_refl input.remaining)
    exact ⟨Decoder.decodeBlock_eq_error hcoherent hother,
      Decoder.elseBehind_of_relates (hblocks 0 0 rfl) le_rfl hother⟩

/-- A second `else` in the middle of a buffer, and a second byte that continues no
opcode. -/
theorem accurate_else_and_opcode :
    Table.sample.Accepted ∧
      (Buffer.Decodes ⟨[0xFF, 0x04, 0x40, 0x05, 0x05, 0x0B]⟩
          (Decoder.decodeOne ⟨Table.sample, 1, false⟩) 1 (.error ⟨5, .secondElse⟩) 5 ∧
        DecodeError.Accurate Table.sample 1 ⟨[0xFF, 0x04, 0x40, 0x05, 0x05, 0x0B]⟩ 1
          ⟨5, .secondElse⟩ 5) ∧
      Buffer.Decodes ⟨[0xFC, 0x09]⟩ (Decoder.decodeBlock ⟨Table.sample, 1, false⟩) 0
          (.error ⟨1, .unknownSecondary 0xFC 0x09⟩) 2 ∧
        DecodeError.Accurate Table.sample 1 ⟨[0xFC, 0x09]⟩ 0
          ⟨1, .unknownSecondary 0xFC 0x09⟩ 2 := by
  have haccurate (bytes : List UInt8) (start : Nat) :=
    errors_are_accurate ⟨Table.sample, 1, false⟩ Table.accepted_sample ⟨bytes⟩ start
  have helse : Buffer.Decodes ⟨[0xFF, 0x04, 0x40, 0x05, 0x05, 0x0B]⟩
      (Decoder.decodeOne ⟨Table.sample, 1, false⟩) 1 (.error ⟨5, .secondElse⟩) 5 :=
    ⟨_, rfl, by cbv, by cbv⟩
  have hopcode : Buffer.Decodes ⟨[0xFC, 0x09]⟩
      (Decoder.decodeBlock ⟨Table.sample, 1, false⟩) 0
      (.error ⟨1, .unknownSecondary 0xFC 0x09⟩) 2 := ⟨_, rfl, by cbv, by cbv⟩
  refine ⟨Table.accepted_sample, ⟨helse, ?_⟩, hopcode, ?_⟩
  · exact (haccurate _ 1).1 _ _ helse
  · exact (haccurate _ 0).2 _ _ hopcode

end Disassembly
