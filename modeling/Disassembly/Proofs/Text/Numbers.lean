import Disassembly.Proofs.Text.Numerals

/-!
# Numbers in texts

A text is read as a number exactly if it spells the number and the number is
not beyond the bound.  The spellings are those of `Numeral.Spells`: nothing else
is read, neither a sign nor a prefix without digits nor anything behind them.

A reader may as well scan digits into a machine word, and compare what it gets
with its bound.  The width of the word makes no difference as long as the bound
fits into it, because numbers that do not fit are refused.
-/

namespace Disassembly

namespace Numeral

variable {base digit value bound bits : Nat} {c : Char} {cs : List Char} {text : String}

/-! ## Digits -/

/-- The three ranges of characters that are read as digits. -/
theorem digit?_cases (hdigit : digit? base c = some digit) :
    digit < base ∧
      ((48 ≤ c.toNat ∧ c.toNat ≤ 57 ∧ digit = c.toNat - 48) ∨
        (97 ≤ c.toNat ∧ c.toNat ≤ 102 ∧ digit = c.toNat - 87) ∨
        (65 ≤ c.toNat ∧ c.toNat ≤ 70 ∧ digit = c.toNat - 55)) := by
  have hle {first second : Char} : first ≤ second ↔ first.toNat ≤ second.toNat := Iff.rfl
  simp only [digit?, hle] at hdigit
  split_ifs at hdigit with hdecimal hbound hlower hbound hupper hbound hbound
  all_goals obtain rfl := Option.some.inj hdigit
  · exact ⟨hbound, .inl ⟨hdecimal.1, hdecimal.2, rfl⟩⟩
  · exact ⟨hbound, .inr (.inl ⟨hlower.1, hlower.2, rfl⟩)⟩
  · exact ⟨hbound, .inr (.inr ⟨hupper.1, hupper.2, rfl⟩)⟩
  · exact absurd hbound (lt_irrefl _)

theorem IsDigit.of_digit? (hdigit : digit? base c = some digit) : IsDigit base c digit := by
  have hshown : ∀ code < 103,
      (48 ≤ code → code ≤ 57 → (Char.ofNat code).toLower = Nat.digitChar (code - 48)) ∧
      (97 ≤ code → (Char.ofNat code).toLower = Nat.digitChar (code - 87)) ∧
      (65 ≤ code → code ≤ 70 → (Char.ofNat code).toLower = Nat.digitChar (code - 55)) := by
    decide +kernel
  obtain ⟨hbound, hrange⟩ := digit?_cases hdigit
  obtain ⟨hdecimal, hlower, hupper⟩ := hshown c.toNat (by omega)
  rw [Char.ofNat_toNat] at hdecimal hlower hupper
  refine ⟨hbound, ?_⟩
  rcases hrange with ⟨hfirst, hlast, rfl⟩ | ⟨hfirst, -, rfl⟩ | ⟨hfirst, hlast, rfl⟩
  · exact hdecimal hfirst hlast
  · exact hlower hfirst
  · exact hupper hfirst hlast

/-! ## Runs of digits -/

theorem exists_digits_of_foldlM {start : Nat}
    (hread : cs.foldlM (fun value c => (digit? base c).map (value * base + ·)) start =
      some value) :
    ∃ digits, List.Forall₂ (fun c digit => digit? base c = some digit) cs digits := by
  induction cs generalizing start with
  | nil => exact ⟨[], .nil⟩
  | cons c cs ih =>
      rw [List.foldlM_cons, Option.bind_eq_bind, Option.bind_eq_some_iff] at hread
      obtain ⟨next, hnext, hmore⟩ := hread
      obtain ⟨digit, hdigit, rfl⟩ := Option.map_eq_some_iff.mp hnext
      obtain ⟨digits, hdigits⟩ := ih hmore
      exact ⟨digit :: digits, .cons hdigit hdigits⟩

theorem exists_digits_of_digits? (hread : digits? base cs = some value) :
    cs ≠ [] ∧ ∃ digits, List.Forall₂ (IsDigit base) cs digits ∧
      value = Nat.ofDigits base digits.reverse := by
  have hfolded := hread
  unfold digits? at hfolded
  split_ifs at hfolded with hempty
  have hsome : cs ≠ [] := by simpa using hempty
  obtain ⟨digits, hdigits⟩ := exists_digits_of_foldlM hfolded
  rw [digits?_eq hsome hdigits] at hread
  exact ⟨hsome, digits, hdigits.imp fun _ _ => IsDigit.of_digit?,
    (Option.some.inj hread).symm⟩

/-! ## Numbers -/

/-- Exactly the spellings of a number are read as the number. -/
theorem read?_eq_some_iff : read? text.toList = some value ↔ Spells text value := by
  constructor
  · intro hread
    have hhexadecimal {x c : Char} {more : List Char} (hx : x = 'x' ∨ x = 'X')
        (htext : text.toList = '0' :: x :: c :: more)
        (hread : digits? 16 (c :: more) = some value) : Spells text value := by
      obtain ⟨hsome, digits, hdigits, rfl⟩ := exists_digits_of_digits? hread
      rw [← String.ofList_toList (s := text), htext]
      exact .hexadecimal digits hx hsome hdigits
    unfold read? at hread
    split at hread
    next htext => exact hhexadecimal (.inl rfl) htext hread
    next htext => exact hhexadecimal (.inr rfl) htext hread
    next =>
      obtain ⟨hsome, digits, hdigits, rfl⟩ := exists_digits_of_digits? hread
      rw [← String.ofList_toList (s := text)]
      exact .decimal digits hsome hdigits
  · exact Spells.read?_eq

theorem readAtMost?_eq_some_iff :
    readAtMost? bound text = some value ↔ Spells text value ∧ value ≤ bound := by
  simp [readAtMost?, Option.filter_eq_some_iff, read?_eq_some_iff]

theorem filter_readAtMost? {larger : Nat} (hle : bound ≤ larger) :
    (readAtMost? larger text).filter (· ≤ bound) = readAtMost? bound text := by
  ext value
  simp only [Option.filter_eq_some_iff, readAtMost?_eq_some_iff, decide_eq_true_eq]
  constructor
  · rintro ⟨⟨hspells, -⟩, hbound⟩
    exact ⟨hspells, hbound⟩
  · rintro ⟨hspells, hbound⟩
    exact ⟨⟨hspells, hbound.trans hle⟩, hbound⟩

/-- A byte holds the number that is read. -/
theorem map_toNat_byte? : (byte? text).map UInt8.toNat = readAtMost? 0xFF text := by
  unfold byte?
  cases hread : readAtMost? 0xFF text with
  | none => rfl
  | some value =>
      have hbound : value ≤ 0xFF := (readAtMost?_eq_some_iff.mp hread).2
      exact congrArg some (UInt8.toNat_ofNat_of_lt' (Nat.lt_succ_of_le hbound))

/-! ## Machine words -/

/-- Why a scan finds no number. -/
inductive ScanFault where
  | noDigits
  | outOfRange
deriving DecidableEq, Repr

/-- A character that stands for some digit. -/
def isSomeDigit (base : Nat) (c : Char) : Bool :=
  (digit? base c).isSome

/-- Scans the digits at the start of a text into a word.  The characters behind them are left. -/
def scan (bits base : Nat) (cs : List Char) : Except ScanFault (Nat × List Char) :=
  match digits? base (cs.takeWhile (isSomeDigit base)) with
  | none => .error .noDigits
  | some value =>
    if value < 2 ^ bits then .ok (value, cs.dropWhile (isSomeDigit base)) else .error .outOfRange

/-- The number of a scan that has left nothing. -/
def whole? : Except ScanFault (Nat × List Char) → Option Nat
  | .ok (value, []) => some value
  | .ok (_, _ :: _) => none
  | .error _ => none

/-- A prefix for hexadecimal digits, with something behind it. -/
def hasPrefix (cs : List Char) : Bool :=
  2 < cs.length && cs[0]? = some '0' && (cs[1]? = some 'x' || cs[1]? = some 'X')

/-- Reads a number through a word. -/
def readWord? (bits : Nat) (text : String) : Option Nat :=
  whole?
    (if hasPrefix text.toList then scan bits 16 (text.toList.drop 2) else scan bits 10 text.toList)

/-- A byte that is read through a word. -/
def byteOfWord? (bits : Nat) (text : String) : Option UInt8 :=
  ((readWord? bits text).filter (· ≤ 0xFF)).map UInt8.ofNat

theorem isSomeDigit_of_digits? (hread : digits? base cs = some value) :
    ∀ c ∈ cs, isSomeDigit base c := by
  unfold digits? at hread
  split_ifs at hread
  obtain ⟨digits, hdigits⟩ := exists_digits_of_foldlM hread
  clear hread ‹¬ _›
  induction hdigits with
  | nil => simp
  | cons hfirst _ ih =>
      exact List.forall_mem_cons.mpr ⟨Option.isSome_of_eq_some hfirst, ih⟩

/-- A scan is whole if all of its text are digits. -/
theorem whole?_scan : whole? (scan bits base cs) = (digits? base cs).filter (· < 2 ^ bits) := by
  by_cases hall : ∀ c ∈ cs, isSomeDigit base c
  · have hfront : cs.takeWhile (isSomeDigit base) = cs := List.takeWhile_eq_self_iff.mpr hall
    have hrest : cs.dropWhile (isSomeDigit base) = [] := List.dropWhile_eq_nil_iff.mpr hall
    unfold scan
    rw [hfront, hrest]
    cases digits? base cs with
    | none => rfl
    | some value =>
        by_cases hfits : value < 2 ^ bits
        · simp [hfits, whole?, Option.filter_some]
        · simp [hfits, whole?, Option.filter_some]
  · have hnone : digits? base cs = none :=
      Option.eq_none_iff_forall_ne_some.mpr fun value hread => hall (isSomeDigit_of_digits? hread)
    obtain ⟨c, rest, hrest⟩ := List.exists_cons_of_ne_nil
      (mt List.dropWhile_eq_nil_iff.mp hall)
    unfold scan
    rw [hrest, hnone]
    split
    next => rfl
    next value _ =>
      by_cases hfits : value < 2 ^ bits
      · rw [if_pos hfits]
        rfl
      · rw [if_neg hfits]
        rfl

theorem read?_eq :
    read? cs = if hasPrefix cs then digits? 16 (cs.drop 2) else digits? 10 cs := by
  unfold read?
  split
  next => rw [if_pos (by simp [hasPrefix])]; rfl
  next => rw [if_pos (by simp [hasPrefix])]; rfl
  next hlower hupper =>
    rw [if_neg]
    rcases cs with _ | ⟨zero, _ | ⟨x, _ | ⟨digit, more⟩⟩⟩
    · simp [hasPrefix]
    · simp [hasPrefix]
    · simp [hasPrefix]
    · intro hprefix
      obtain ⟨rfl, hx⟩ : zero = '0' ∧ (x = 'x' ∨ x = 'X') := by
        simpa [hasPrefix] using hprefix
      rcases hx with rfl | rfl
      · exact hlower digit more rfl
      · exact hupper digit more rfl

/-- What is read through a word is the number, unless the word cannot hold it. -/
theorem readWord?_eq (bits : Nat) (text : String) :
    readWord? bits text = readAtMost? (2 ^ bits - 1) text := by
  have hbound : (fun value => decide (value < 2 ^ bits)) =
      fun value => decide (value ≤ 2 ^ bits - 1) := by
    funext value
    have hpositive := Nat.two_pow_pos bits
    rw [decide_eq_decide]
    omega
  unfold readWord? readAtMost?
  rw [read?_eq, ← hbound]
  split
  next => exact whole?_scan
  next => exact whole?_scan

/-- All readers accept the same spellings.  A byte is a number of 64 bits that is not beyond 255,
and it makes no difference that the two are read through words of different widths. -/
theorem numbers_are_read_from_their_spellings (text : String) :
    (∀ value, readAtMost? 0xFFFFFFFFFFFFFFFF text = some value ↔
      Spells text value ∧ value ≤ 0xFFFFFFFFFFFFFFFF) ∧
    (∀ value, (byte? text).map UInt8.toNat = some value ↔
      readAtMost? 0xFFFFFFFFFFFFFFFF text = some value ∧ value ≤ 0xFF) ∧
    readAtMost? 0xFFFFFFFFFFFFFFFF text = readWord? 64 text ∧
    byte? text = byteOfWord? 32 text := by
  refine ⟨fun value => readAtMost?_eq_some_iff, ?_, (readWord?_eq 64 text).symm, ?_⟩
  · intro value
    have hfilter : (readAtMost? 0xFFFFFFFFFFFFFFFF text).filter (· ≤ 0xFF) =
        readAtMost? 0xFF text := filter_readAtMost? (by decide)
    rw [map_toNat_byte?, ← hfilter, Option.filter_eq_some_iff, decide_eq_true_eq]
  · have hword : readWord? 32 text = readAtMost? 0xFFFFFFFF text := readWord?_eq 32 text
    unfold byteOfWord? byte?
    rw [hword, filter_readAtMost? (by decide)]

end Numeral

end Disassembly
