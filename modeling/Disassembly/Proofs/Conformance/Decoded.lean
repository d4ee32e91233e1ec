import Disassembly.Proofs.Conformance.Shape
import Disassembly.Proofs.Grammar.Acceptance

/-!
# Decoded trees conform to their table

Every phrase of a table stands for something that conforms to it: instructions
and blocks for trees, fields and layouts for operands that fit.  The proof
follows the derivation of the phrase.  Since decoders accept nothing but
phrases, whatever they return conforms.
-/

namespace Disassembly

open Grammar

namespace Grammar

variable {table : Table} {limit level : Nat} {bytes : List UInt8}

/-- The sequences among operands conform, one level deeper. -/
def SequencesConform
    (table : Table) (limit level : Nat) (values : List Operand) : Prop :=
  ∀ body, .instructions body ∈ values →
    level < limit ∧ Instruction.AllConform table (limit - (level + 1)) body

/-- What a phrase stands for conforms to the table. -/
def Phrase.Conforms (table : Table) (limit level : Nat) : Phrase → Prop
  | .instruction item => item.Conforms table (limit - level)
  | .operands layout values =>
    layout.Fits values ∧ SequencesConform table limit level values
  | .field kind value =>
    kind.Fits value ∧ SequencesConform table limit level [value]
  | .block content =>
    Instruction.AllConform table (limit - level) content.instructions

theorem SequencesConform.cons
    {value : Operand} {values : List Operand}
    (hvalue : SequencesConform table limit level [value])
    (hvalues : SequencesConform table limit level values) :
    SequencesConform table limit level (value :: values) := by
  intro body hbody
  rcases List.mem_cons.mp hbody with hbody | hbody
  · exact hvalue body (List.mem_singleton.mpr hbody)
  · exact hvalues body hbody

theorem sequencesConform_singleton
    {body : List Instruction} (hlevel : level + 1 ≤ limit)
    (hbody : Instruction.AllConform table (limit - (level + 1)) body) :
    SequencesConform table limit level [.instructions body] := by
  intro other hother
  obtain rfl : other = body := by simpa using hother
  exact ⟨hlevel, hbody⟩

theorem Scalar.fits {field : Field} {value : Operand}
    (hvalue : Scalar field bytes value) : field.Fits value := by
  cases hvalue with
  | u32 => exact .u32 _
  | i32 => exact .i32 _
  | i64 => exact .i64 _
  | f32 bits => exact .f32 bits
  | f64 bits => exact .f64 bits
  | index space =>
      refine .index space ?_
      rw [UInt32.toNat_toUInt64]
      exact UInt32.toNat_lt _
  | noResult => exact .blockType fun result hresult => by cases hresult
  | result htype =>
      exact .blockType fun result hresult => by
        cases hresult
        exact htype
  | referenceType htype => exact .referenceType htype
  | valueTypes _ _ htypes => exact .valueTypes htypes

theorem Scalar.sequencesConform {field : Field} {value : Operand}
    (hvalue : Scalar field bytes value) :
    SequencesConform table limit level [value] := by
  intro body hbody
  obtain rfl : .instructions body = value := by simpa using hbody
  cases hvalue

theorem Labels.ne_nil {targets : List UInt32} (htargets : Labels bytes targets) :
    targets ≠ [] := by
  rcases htargets with ⟨_, hlength, _⟩
  intro hnil
  have hpieces := congrArg List.length hnil
  simp [hlength] at hpieces

theorem Phrase.Conforms.instruction
    (htable : table.Coherent) {entry : Entry} (hentry : entry ∈ table.entries)
    {values : List Operand}
    (hvalues : (Phrase.operands entry.layout values).Conforms table limit level) :
    (Phrase.instruction ⟨entry.type, values⟩).Conforms table limit level := by
  obtain ⟨hfits, hsequences⟩ := hvalues
  apply Instruction.Throughout.of_children
  · refine htable.shaped hentry hfits ?_
    intro body hbody child hchild
    exact ((hsequences body hbody).2 child hchild).1
  · intro body hbody
    obtain ⟨hlevel, hconform⟩ := hsequences body hbody
    exact ⟨limit - (level + 1), by omega,
      fun child hchild => (hconform child hchild).2⟩

/-- Derivations carry conformance from the parts of a phrase to the whole. -/
theorem Derives.conforms
    (htable : table.Coherent) {phrase : Phrase}
    (hphrase : Derives table limit level bytes phrase) :
    phrase.Conforms table limit level := by
  induction hphrase with
  | instruction hentry _ ih => exact ih.instruction htable hentry
  | noFields => exact ⟨.inOrder .nil, fun body hbody => by cases hbody⟩
  | nextField _ _ hfirst hmore =>
      obtain ⟨hfits, hsequences⟩ := hfirst
      obtain ⟨⟨hfields⟩, hrest⟩ := hmore
      exact ⟨.inOrder (.cons hfits hfields), hsequences.cons hrest⟩
  | oneArm htype hlevel _ hfirst =>
      refine ⟨.conditional htype.fits _ _, ?_⟩
      refine htype.sequencesConform.cons ?_
      refine (sequencesConform_singleton hlevel hfirst).cons ?_
      exact sequencesConform_singleton hlevel fun item hitem => by cases hitem
  | twoArms htype hlevel _ _ hfirst hsecond =>
      refine ⟨.conditional htype.fits _ _, ?_⟩
      refine htype.sequencesConform.cons ?_
      exact (sequencesConform_singleton hlevel hfirst).cons
        (sequencesConform_singleton hlevel hsecond)
  | branchTable htargets =>
      refine ⟨.branchTable htargets.ne_nil, ?_⟩
      intro body hbody
      simp at hbody
  | scalar hvalue => exact ⟨hvalue.fits, hvalue.sequencesConform⟩
  | nested hlevel _ hcontent =>
      exact ⟨.instructions _, sequencesConform_singleton hlevel hcontent⟩
  | close => exact fun item hitem => by cases hitem
  | next _ hinner _ hitem hcontent =>
      intro item hmem
      rcases List.mem_cons.mp hmem with rfl | hmem
      · exact ⟨hinner, hitem⟩
      · exact hcontent item hmem

end Grammar

namespace Decoder

variable {decoder : Decoder} {input : Input}

theorem decodeOne_conforms
    (htable : decoder.table.Coherent) {item : Instruction}
    (hitem : (decoder.decodeOne input).result = .ok item) :
    item.Conforms decoder.table decoder.depthLimit := by
  obtain ⟨_, hderives, _⟩ := (decodeOne_eq_ok_iff htable).mp ⟨hitem, rfl⟩
  exact hderives.conforms htable

theorem decodeBlock_conforms
    (htable : decoder.table.Coherent) {content : Block}
    (hcontent : (decoder.decodeBlock input).result = .ok content) :
    Instruction.AllConform decoder.table decoder.depthLimit
      content.instructions := by
  obtain ⟨_, hderives, _⟩ := (decodeBlock_eq_ok_iff htable).mp ⟨hcontent, rfl⟩
  exact hderives.conforms htable

end Decoder

/-- A decoder with an accepted table returns trees that conform to the table, and
blocks that consist of such trees and hold no terminator. -/
theorem decoded_trees_conform
    {σ : Type} [ViewedSource σ]
    (decoder : Decoder) (htable : decoder.table.Accepted) (source : σ) :
    (∀ item, (decoder.decodeOne source).result = .ok item →
      item.Conforms decoder.table decoder.depthLimit) ∧
    ∀ content, (decoder.decodeBlock source).result = .ok content →
      Instruction.AllConform decoder.table decoder.depthLimit
        content.instructions := by
  have hcoherent := htable.wellFormed.toCoherent
  rw [decoder.result_decodeOne, decoder.result_decodeBlock]
  exact ⟨fun item hitem => Decoder.decodeOne_conforms hcoherent hitem,
    fun content hcontent => Decoder.decodeBlock_conforms hcoherent hcontent⟩

/-- A block inside an arm of a conditional, at the limit of two levels. -/
theorem decoded_arms_conform :
    Table.sample.Accepted ∧
      Instruction.Conforms Table.sample 2
        ⟨.conditional, [.blockType none,
          .instructions [⟨.block, [.blockType (some .i64),
            .instructions [⟨.branchTable, [.labels [1, 0]]⟩]]⟩],
          .instructions []]⟩ :=
  ⟨Table.accepted_sample,
    (decoded_trees_conform ⟨Table.sample, 2, false⟩ Table.accepted_sample
      (StreamSource.ofBytes [0x04, 0x40, 0x02, 0x7E, 0x0E, 0x01, 0x01, 0x00, 0x0B, 0x0B])).1 _
      (by cbv)⟩

end Disassembly
