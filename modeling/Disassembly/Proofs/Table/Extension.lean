import Disassembly.Proofs.Comparison.Blocks
import Disassembly.Proofs.Table.Lookup

/-!
# Tables with more entries

A table may grow, as long as it stays coherent.  The entries that were there are
found as before: an opcode of one byte cannot become a lead byte, and behind a
lead byte the second bytes keep their entries.  What is new are opcodes that
were unknown.

A decoder with the larger table therefore takes the same steps, up to the first
opcode that the smaller table does not know.  What the smaller table decodes is
decoded in the same way, and an input that it refuses for another reason is
refused for this reason again.
-/

namespace Disassembly

/-- A fault that blames an opcode for not being in the table. -/
inductive DecodeFault.IsUnknown : DecodeFault → Prop
  | single (opcode : UInt8) : IsUnknown (.unknownOpcode opcode)
  | extended (lead second : UInt8) : IsUnknown (.unknownSecondary lead second)

/-- What the outcome under a table tells about the outcome under a larger one. -/
structure Kept {α : Type} (smaller larger : Outcome Input α) : Prop where
  returned : ∀ value, smaller.result = .ok value →
    larger.result = .ok value ∧ larger.input = smaller.input
  refused : ∀ error, smaller.result = .error error → ¬ error.fault.IsUnknown →
    larger.result = .error error ∧ larger.input = smaller.input

namespace Table

variable {smaller larger : Table}

/-! ## Lookups -/

theorem Coherent.slot?_of_subset
    (hsmaller : smaller.Coherent) (hlarger : larger.Coherent)
    (hsubset : smaller.entries ⊆ larger.entries) {lead : UInt8} {slot : Slot}
    (hslot : smaller.slot? lead = some slot) : larger.slot? lead = some slot := by
  cases slot with
  | single entry =>
      obtain ⟨hentry, hopcode⟩ := hsmaller.slot?_eq_single_iff.mp hslot
      exact hlarger.slot?_eq_single_iff.mpr ⟨hsubset hentry, hopcode⟩
  | extended =>
      obtain ⟨entry, hentry, hlead, hlong⟩ := hsmaller.slot?_eq_extended_iff.mp hslot
      exact hlarger.slot?_eq_extended_iff.mpr ⟨entry, hsubset hentry, hlead, hlong⟩

theorem Coherent.extended?_of_subset
    (hsmaller : smaller.Coherent) (hlarger : larger.Coherent)
    (hsubset : smaller.entries ⊆ larger.entries) {lead second : UInt8} {entry : Entry}
    (hfound : smaller.extended? lead second = some entry) :
    larger.extended? lead second = some entry := by
  obtain ⟨hentry, hopcode⟩ := hsmaller.extended?_eq_some_iff.mp hfound
  exact hlarger.extended?_eq_some_iff.mpr ⟨hsubset hentry, hopcode⟩

theorem Coherent.finds_of_subset
    (hsmaller : smaller.Coherent) (hlarger : larger.Coherent)
    (hsubset : smaller.entries ⊆ larger.entries) :
    (Comparison.upTo id DecodeFault.IsUnknown).Finds smaller larger where
  slot? _ _ := hsmaller.slot?_of_subset hlarger hsubset
  extended? _ _ _ := hsmaller.extended?_of_subset hlarger hsubset
  unknown lead _ := .inr (.single lead)
  unknownSecond lead second _ := .inr (.extended lead second)

end Table

/-! ## Decoding -/

namespace Decoder

variable {smaller larger : Table}

theorem covers_largerTable
    (hsmaller : smaller.Coherent) (hlarger : larger.Coherent)
    (hsubset : smaller.entries ⊆ larger.entries) (limit : Nat) (watched : Bool) :
    (Comparison.upTo id DecodeFault.IsUnknown).Covers
      ⟨smaller, limit, watched⟩ ⟨larger, limit, watched⟩ Eq := by
  refine Comparison.covers_upTo (fun _ _ => rfl)
    (hsmaller.finds_of_subset hlarger hsubset) (congrArg (· + 1)) ?_ ?_
  · rintro level _ rfl hlevel
    exact hlevel
  · rintro level _ rfl hlevel
    exact .inr ⟨hlevel, fun _ => rfl⟩

theorem kept_of_relates
    {α : Type} {work again : Decoding Input α} {least bound : Nat} {input : Input}
    {first second : Decoder}
    (hwork : (Comparison.upTo id DecodeFault.IsUnknown).Relates least bound work again)
    (hbound : input.remaining ≤ bound + least) :
    Kept (first.run work input) (second.run again input) := by
  constructor
  · intro value hvalue
    rw [← hvalue]
    exact hwork.run_eq_of_not_excused hbound fun error herror => by simp [hvalue] at herror
  · intro error herror hknown
    rw [← herror]
    refine hwork.run_eq_of_not_excused hbound fun other hother => ?_
    rw [herror] at hother
    cases hother
    exact hknown

end Decoder

/-- Entries that are added to a table change nothing that was decoded before, and no
refusal but that of an unknown opcode. -/
theorem added_entries_keep_decodings
    {σ : Type} [ViewedSource σ]
    {smaller larger : Table} (hsmaller : smaller.Accepted) (hlarger : larger.Accepted)
    (hsubset : smaller.entries ⊆ larger.entries)
    (limit : Nat) (watched : Bool) (source : σ) :
    Kept ((Decoder.mk smaller limit watched).decodeOne source).viewed
        ((Decoder.mk larger limit watched).decodeOne source).viewed ∧
      Kept ((Decoder.mk smaller limit watched).decodeBlock source).viewed
        ((Decoder.mk larger limit watched).decodeBlock source).viewed := by
  simp only [Decoder.viewed_decodeOne, Decoder.viewed_decodeBlock]
  generalize ViewedSource.toInput source = input
  have hcovers := Decoder.covers_largerTable hsmaller.wellFormed.toCoherent
    hlarger.wellFormed.toCoherent hsubset limit watched
  have hblocks := hcovers.relatesBlocks le_rfl (Nat.le_refl input.remaining)
  constructor
  · exact Decoder.kept_of_relates (hcovers.instruction hblocks le_rfl rfl)
      (Nat.le_succ input.remaining)
  · exact Decoder.kept_of_relates (hblocks 0 0 rfl) le_rfl

/-- A second opcode behind a lead byte: a block without it, an input that is refused for
its type byte, and an input that only the larger table decodes. -/
theorem added_second_opcode :
    let larger : Table := ⟨"larger", Table.sample.entries ++
      [⟨.extended 0xFC 0x09, ⟨58⟩, .inOrder [.index .dataSegments]⟩]⟩
    let before : Decoder := ⟨Table.sample, 1, false⟩
    let after : Decoder := ⟨larger, 1, false⟩
    (Table.sample.Accepted ∧ larger.Accepted ∧
      Table.sample.entries ⊆ larger.entries) ∧
    ((after.decodeBlock (StreamSource.ofBytes [0xFC, 0x08, 0x01, 0x00, 0x0B])).result =
        .ok ⟨[⟨⟨57⟩, [.index .dataSegments 1, .index .memories 0]⟩], false⟩ ∧
      (after.decodeOne (StreamSource.ofBytes [0x02, 0x41])).result =
        .error ⟨1, .invalidType 0x41 .block⟩) ∧
    (before.decodeOne (StreamSource.ofBytes [0xFC, 0x09, 0x01])).result =
        .error ⟨1, .unknownSecondary 0xFC 0x09⟩ ∧
      (after.decodeOne (StreamSource.ofBytes [0xFC, 0x09, 0x01])).result =
        .ok ⟨⟨58⟩, [.index .dataSegments 1]⟩ := by
  intro larger before after
  have hlarger : larger.Accepted :=
    .inl ⟨"larger", Row.sample ++ [⟨.extended 0xFC 0x09, "data.drop", "dataidx"⟩], rfl⟩
  have hsubset : Table.sample.entries ⊆ larger.entries := List.subset_append_left _ _
  have hkept (bytes : List UInt8) := added_entries_keep_decodings Table.accepted_sample
    hlarger hsubset 1 false (StreamSource.ofBytes bytes)
  have hblock : (before.decodeBlock (StreamSource.ofBytes [0xFC, 0x08, 0x01, 0x00, 0x0B])).result =
      .ok ⟨[⟨⟨57⟩, [.index .dataSegments 1, .index .memories 0]⟩], false⟩ := by cbv
  have hrefused : (before.decodeOne (StreamSource.ofBytes [0x02, 0x41])).result =
      .error ⟨1, .invalidType 0x41 .block⟩ := by cbv
  have hknown : ¬ (DecodeFault.invalidType 0x41 .block).IsUnknown := by
    rintro ⟨⟩
  refine ⟨⟨Table.accepted_sample, hlarger, hsubset⟩, ⟨?_, ?_⟩, by cbv, by cbv⟩
  · exact ((hkept [0xFC, 0x08, 0x01, 0x00, 0x0B]).2.returned _ hblock).1
  · exact ((hkept [0x02, 0x41]).1.refused _ hrefused hknown).1

end Disassembly
