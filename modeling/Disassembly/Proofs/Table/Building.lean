import Disassembly.Proofs.Table.Invariant

/-!
# Building tables piece by piece

Pieces are added one after the other, and the first one that does not fit is
blamed by its number.  The numbers have no influence on the table that comes
out, and what comes out is the same for a text and for the rows on its lines.
-/

namespace Disassembly

namespace Table

variable {α : Type} {add : Table → α → Except TableFault Table}
variable {table grown : Table} {source text : String} {rows : List Row}

/-! ## Numbered pieces -/

theorem numbered_append (first : UInt32) (earlier later : List α) :
    numbered first (earlier ++ later) =
      numbered first earlier ++ numbered (first + UInt32.ofNat earlier.length) later := by
  induction earlier generalizing first with
  | nil => simp [numbered]
  | cons piece earlier ih =>
      have hnumber : first + 1 + UInt32.ofNat earlier.length =
          first + UInt32.ofNat (piece :: earlier).length := by
        rw [List.length_cons, UInt32.ofNat_add, UInt32.add_assoc, UInt32.add_comm 1]
        rfl
      rw [List.cons_append, numbered, numbered, ih, hnumber, List.cons_append]

theorem addAll_append (first second : List (α × UInt32)) :
    addAll add table (first ++ second) =
      (addAll add table first).bind fun grown => addAll add grown second := by
  induction first generalizing table with
  | nil => rfl
  | cons piece first ih =>
      rw [List.cons_append, addAll, addAll]
      cases add table piece.1 with
      | ok grown => exact ih
      | error fault => rfl

theorem addAll_eq_ok_iff {pieces : List α} {first : UInt32} :
    addAll add table (numbered first pieces) = .ok grown ↔
      pieces.foldlM add table = .ok grown := by
  induction pieces generalizing table first with
  | nil => simp [numbered, addAll, pure, Except.pure]
  | cons piece pieces ih =>
      rw [numbered, List.foldlM_cons, except_bind_eq_ok_iff]
      cases hpiece : add table piece with
      | ok next => simp [addAll, hpiece, ih]
      | error fault => simp [addAll, hpiece]

/-- The piece that does not fit behind the earlier ones is blamed. -/
theorem addAll_eq_error
    {earlier later : List α} {piece : α} {middle : Table} {fault : TableFault}
    {first : UInt32} (hearlier : earlier.foldlM add table = .ok middle)
    (hpiece : add middle piece = .error fault) :
    addAll add table (numbered first (earlier ++ piece :: later)) =
      .error ⟨middle.source, first + UInt32.ofNat earlier.length, fault⟩ := by
  rw [numbered_append, addAll_append, addAll_eq_ok_iff.mpr hearlier]
  simp [numbered, addAll, hpiece, Except.bind]

theorem insertRow_eq_ok_iff {row : Row} :
    table.insertRow row = .ok grown ↔
      ∃ entry, Entry.ofRow row = .ok entry ∧ table.conflict? entry = none ∧
        grown = { table with entries := table.entries ++ [entry] } := by
  unfold insertRow
  simp only [except_bind_eq_ok_iff, insert_eq_ok_iff]

theorem finish_eq_ok_iff :
    table.finish = .ok grown ↔
      grown = table ∧ (table.entryOf? .blockEnd).isSome := by
  unfold finish
  split
  next hend => simp [hend, eq_comm]
  next hend => simp [hend]

theorem finish_addAll_eq_ok_iff {pieces : List α} {first : UInt32} :
    (do finish (← addAll add table (numbered first pieces))) = .ok grown ↔
      pieces.foldlM add table = .ok grown ∧
        (grown.entryOf? .blockEnd).isSome := by
  rw [except_bind_eq_ok_iff]
  simp only [addAll_eq_ok_iff, finish_eq_ok_iff]
  constructor
  · rintro ⟨built, hbuilt, rfl, hend⟩
    exact ⟨hbuilt, hend⟩
  · rintro ⟨hbuilt, hend⟩
    exact ⟨grown, hbuilt, rfl, hend⟩

theorem ofRows_eq_ok_iff :
    ofRows source rows = .ok table ↔
      rows.foldlM insertRow (empty source) = .ok table ∧
        (table.entryOf? .blockEnd).isSome :=
  finish_addAll_eq_ok_iff

end Table

/-! ## Rows on lines -/

namespace Row

/-- The row on a line, if the line can be read and holds one. -/
def onLine? (line : String) : Option Row :=
  (ofLine? line).toOption.join

/-- The rows on the lines of a text. -/
def ofText (text : String) : List Row :=
  (Text.lines text).filterMap onLine?

end Row

namespace Table

variable {table grown : Table} {source text : String}

theorem foldlM_addLine_eq_ok_iff {lines : List String} :
    lines.foldlM addLine table = .ok grown ↔
      (∀ line ∈ lines, ∃ row?, Row.ofLine? line = .ok row?) ∧
        (lines.filterMap Row.onLine?).foldlM insertRow table = .ok grown := by
  induction lines generalizing table with
  | nil => simp
  | cons line lines ih =>
      rw [List.foldlM_cons, except_bind_eq_ok_iff]
      cases hline : Row.ofLine? line with
      | error fault => simp [addLine, hline, bind, Except.bind]
      | ok row? =>
          cases row? with
          | none =>
              have hskip : addLine table line = .ok table := by
                simp [addLine, hline, bind, Except.bind, pure, Except.pure]
              have hrow : Row.onLine? line = none := by
                simp [Row.onLine?, hline, Except.toOption]
              simp [hskip, hrow, hline, ih]
          | some row =>
              have hinsert : addLine table line = table.insertRow row := by
                simp [addLine, hline, bind, Except.bind]
              have hrow : Row.onLine? line = some row := by
                simp [Row.onLine?, hline, Except.toOption]
              rw [hinsert, List.filterMap_cons_some hrow, List.foldlM_cons,
                except_bind_eq_ok_iff]
              constructor
              · rintro ⟨next, hnext, hlines⟩
                obtain ⟨hread, hrows⟩ := ih.mp hlines
                have hall := List.forall_mem_cons.mpr ⟨⟨_, hline⟩, hread⟩
                exact ⟨hall, next, hnext, hrows⟩
              · rintro ⟨hall, next, hnext, hrows⟩
                have hread := (List.forall_mem_cons.mp hall).2
                exact ⟨next, hnext, ih.mpr ⟨hread, hrows⟩⟩

/-- A text stands for the rows on its lines. -/
theorem ofText_eq_ok_iff :
    ofText source text = .ok table ↔
      (∀ line ∈ Text.lines text, ∃ row?, Row.ofLine? line = .ok row?) ∧
        ofRows source (Row.ofText text) = .ok table := by
  unfold ofText
  rw [finish_addAll_eq_ok_iff, foldlM_addLine_eq_ok_iff, and_assoc,
    ofRows_eq_ok_iff]
  rfl

/-- A text that breaks off gives no table. -/
theorem ofBrokenText_ne_ok (size : Nat) : ofBrokenText source text size ≠ .ok table := by
  unfold ofBrokenText
  intro hread
  obtain ⟨_, -, hthrown⟩ := except_bind_eq_ok_iff.mp hread
  cases hthrown

theorem Accepted.exists_rows (htable : table.Accepted) :
    ∃ source rows, ofRows source rows = .ok table := by
  rcases htable with hrows | ⟨source, text, htext⟩
  · exact hrows
  · exact ⟨source, Row.ofText text, (ofText_eq_ok_iff.mp htext).2⟩

end Table

end Disassembly
