import Disassembly.Proofs.Table.ReadBack

/-!
# The order of rows

Rows are inserted one after the other, and each of them is checked against those
that came before.  Which of two clashing rows is blamed, and for what, depends
on their order.  That one of them is blamed does not: whether a row is legal is
a matter of the row alone, and two rows clash in either order.

Tables that were built from the same rows in different orders hold the same
entries.  They have the same lookups, sizes and prints, and decoders do the same
by them.
-/

namespace Disassembly

namespace Row

variable {rows others : List Row}

theorem Clashes.symm {first second : Row} (hclash : first.Clashes second) :
    second.Clashes first := by
  rcases hclash with hname | hopcode | ⟨hlead, hlength⟩
  · exact .inl hname.symm
  · exact .inr (.inl hopcode.symm)
  · exact .inr (.inr ⟨hlead.symm, hlength.symm⟩)

theorem AllLegal.perm (hrows : AllLegal rows) (hperm : rows.Perm others) :
    AllLegal others where
  legal row hrow := hrows.legal row (hperm.mem_iff.mpr hrow)
  apart := hperm.pairwise hrows.apart fun hapart hclash => hapart hclash.symm
  endMapped := by
    obtain ⟨row, hrow, hname⟩ := hrows.endMapped
    exact ⟨row, hperm.mem_iff.mp hrow, hname⟩

end Row

namespace Table

variable {first second : Table} {source other : String} {rows others : List Row}

theorem BuiltFrom.entries_perm
    (hfirst : first.BuiltFrom source rows) (hsecond : second.BuiltFrom other others)
    (hperm : rows.Perm others) : first.entries.Perm second.entries := by
  rw [List.perm_ext_iff_of_nodup hfirst.coherent.nodup_entries
    hsecond.coherent.nodup_entries]
  intro entry
  rw [hfirst.mem_entries_iff, hsecond.mem_entries_iff]
  simp only [hperm.mem_iff]

/-- Rows make a table in every order or in none, and nobody can tell the tables of two
orders apart. -/
theorem row_order_is_irrelevant
    {rows others : List Row} (hperm : rows.Perm others) (source other : String) :
    ((∃ table, ofRows source rows = .ok table) ↔
      ∃ table, ofRows other others = .ok table) ∧
    ∀ first second, ofRows source rows = .ok first → ofRows other others = .ok second →
      first.Agrees second := by
  constructor
  · rw [exists_ofRows_iff, exists_ofRows_iff]
    exact ⟨fun hrows => hrows.perm hperm, fun hothers => hothers.perm hperm.symm⟩
  · intro first second hrows hothers
    have hfirst := builtFrom_of_ofRows hrows
    have hsecond := builtFrom_of_ofRows hothers
    exact hfirst.coherent.agrees_of_perm hsecond.coherent
      (hfirst.entries_perm hsecond hperm)

/-- Two second opcodes behind one lead byte, in both orders, and an opcode that clashes
with a lead byte, which is refused for one reason or for the other. -/
theorem reversed_rows_agree :
    let rows : List Row := [⟨.extended 0xFC 0x09, "data.drop", "dataidx"⟩,
      ⟨.single 0x0B, "end", ""⟩, ⟨.extended 0xFC 0x08, "memory.init", "dataidx memidx"⟩]
    let clashing : List Row := [⟨.single 0x0B, "end", ""⟩, ⟨.extended 0x0B 0x00, "nop", ""⟩]
    (rows.Perm rows.reverse ∧ ∃ first second, ofRows "rows" rows = .ok first ∧
      ofRows "reversed" rows.reverse = .ok second ∧ first.Agrees second) ∧
    clashing.Perm clashing.reverse ∧
      ofRows "rows" clashing = .error ⟨"rows", 2, .leadTaken 0x0B .blockEnd⟩ ∧
      (∀ table, ofRows "reversed" clashing.reverse ≠ .ok table) ∧
      ofRows "reversed" clashing.reverse = .error ⟨"reversed", 2, .usedAsLead 0x0B⟩ := by
  intro rows clashing
  have hrows : rows.Perm rows.reverse := (List.reverse_perm rows).symm
  have hclashing : clashing.Perm clashing.reverse := (List.reverse_perm clashing).symm
  have hrefused : ofRows "rows" clashing = .error ⟨"rows", 2, .leadTaken 0x0B .blockEnd⟩ :=
    rfl
  obtain ⟨hsame, hagree⟩ := row_order_is_irrelevant hrows "rows" "reversed"
  obtain ⟨hsameClashing, _⟩ := row_order_is_irrelevant hclashing "rows" "reversed"
  obtain ⟨first, hfirst⟩ : ∃ first, ofRows "rows" rows = .ok first := ⟨_, rfl⟩
  obtain ⟨second, hsecond⟩ := hsame.mp ⟨first, hfirst⟩
  refine ⟨⟨hrows, first, second, hfirst, hsecond, hagree first second hfirst hsecond⟩,
    hclashing, hrefused, ?_, rfl⟩
  intro table htable
  obtain ⟨built, hbuilt⟩ := hsameClashing.mpr ⟨table, htable⟩
  rw [hrefused] at hbuilt
  cases hbuilt

end Table

end Disassembly
