import Disassembly.Numeral
import Disassembly.Proofs.Text.Splitting
import Mathlib.Data.Nat.Digits.Defs

/-!
# Spellings of numbers

A number has many spellings: decimal digits, or hexadecimal ones in either case
behind either prefix, and any number of zeros in front.  All of them are read
as the number.  The digits are listed as they are written, the most significant
one first, whereas the value of a list of digits is defined from the least
significant one on.
-/

namespace Disassembly

namespace Numeral

variable {base digit : Nat} {c : Char}

/-- A character that stands for a digit, in either case. -/
def IsDigit (base : Nat) (c : Char) (digit : Nat) : Prop :=
  digit < base ∧ c.toLower = Nat.digitChar digit

instance : Decidable (IsDigit base c digit) :=
  inferInstanceAs (Decidable (_ ∧ _))

/-- The words that stand for a number. -/
inductive Spells : String → Nat → Prop where
  | decimal {cs : List Char} (digits : List Nat) (hsome : cs ≠ [])
      (hdigits : List.Forall₂ (IsDigit 10) cs digits) :
      Spells (String.ofList cs) (Nat.ofDigits 10 digits.reverse)
  | hexadecimal {x : Char} {cs : List Char} (digits : List Nat)
      (hx : x = 'x' ∨ x = 'X') (hsome : cs ≠ [])
      (hdigits : List.Forall₂ (IsDigit 16) cs digits) :
      Spells (String.ofList ('0' :: x :: cs)) (Nat.ofDigits 16 digits.reverse)

variable {value : Nat} {cs : List Char} {digits : List Nat} {word : String}

/-! ## Single digits -/

theorem toLower_of_lt_toNat (hbeyond : 90 < c.toNat) : c.toLower = c := by
  have hother : ¬ c.val ≤ 90 := by
    rw [UInt32.le_iff_toNat_le]
    exact Nat.not_le.mpr hbeyond
  exact dif_neg fun hcapital => hother hcapital.2

theorem IsDigit.toNat_lt (hbase : base ≤ 16) (hdigit : IsDigit base c digit) :
    c.toNat < 128 := by
  have hshown : ∀ digit < 16, (Nat.digitChar digit).toNat < 128 := by decide
  have hsmall := hshown digit (hdigit.1.trans_le hbase)
  rw [← hdigit.2] at hsmall
  by_contra hlarge
  rw [toLower_of_lt_toNat (by omega)] at hsmall
  exact hlarge hsmall

/-- What holds of the digits among the characters of one byte holds of all digits. -/
theorem IsDigit.of_forall
    (hbase : base ≤ 16) (hdigit : IsDigit base c digit) (holds : Char → Nat → Prop)
    (hall : ∀ code < 128, ∀ digit < base,
      (Char.ofNat code).toLower = Nat.digitChar digit →
        holds (Char.ofNat code) digit) :
    holds c digit := by
  have hc := hall c.toNat (hdigit.toNat_lt hbase) digit hdigit.1
  rw [Char.ofNat_toNat] at hc
  exact hc hdigit.2

theorem IsDigit.digit?_ten (hdigit : IsDigit 10 c digit) :
    digit? 10 c = some digit := by
  apply hdigit.of_forall (by decide) fun c digit => digit? 10 c = some digit
  decide +kernel

theorem IsDigit.digit?_sixteen (hdigit : IsDigit 16 c digit) :
    digit? 16 c = some digit := by
  apply hdigit.of_forall (by decide) fun c digit => digit? 16 c = some digit
  decide +kernel

theorem IsDigit.isPlain (hbase : base ≤ 16) (hdigit : IsDigit base c digit) :
    Text.isPlain c := by
  have hsixteen : IsDigit 16 c digit := ⟨hdigit.1.trans_le hbase, hdigit.2⟩
  apply hsixteen.of_forall (by decide) fun c _ => Text.isPlain c
  decide +kernel

theorem IsDigit.ne_x (hdigit : IsDigit 10 c digit) : c ≠ 'x' ∧ c ≠ 'X' := by
  constructor
  · rintro rfl
    simpa [digit?] using hdigit.digit?_ten
  · rintro rfl
    simpa [digit?] using hdigit.digit?_ten

/-! ## Runs of digits -/

theorem foldlM_digits
    (hdigits : List.Forall₂ (fun c digit => digit? base c = some digit) cs digits) :
    cs.foldlM (fun value c => (digit? base c).map (value * base + ·)) value =
      some (digits.foldl (fun value digit => value * base + digit) value) := by
  induction hdigits generalizing value with
  | nil => rfl
  | cons hfirst _ ih => simp [hfirst, ih]

theorem foldl_digits :
    digits.foldl (fun value digit => value * base + digit) 0 =
      Nat.ofDigits base digits.reverse := by
  simp [Nat.ofDigits_eq_foldr, Nat.add_comm, Nat.mul_comm]

theorem digits?_eq (hsome : cs ≠ [])
    (hdigits : List.Forall₂ (fun c digit => digit? base c = some digit) cs digits) :
    digits? base cs = some (Nat.ofDigits base digits.reverse) := by
  rw [digits?, if_neg (by simpa using hsome), foldlM_digits hdigits, foldl_digits]

theorem forall_isPlain (hbase : base ≤ 16)
    (hdigits : List.Forall₂ (IsDigit base) cs digits) :
    ∀ c ∈ cs, Text.isPlain c := by
  induction hdigits with
  | nil => simp
  | cons hfirst _ ih => exact List.forall_mem_cons.mpr ⟨hfirst.isPlain hbase, ih⟩

/-! ## Words -/

namespace Spells

theorem read?_eq (hword : Spells word value) :
    read? word.toList = some value := by
  cases hword with
  | decimal digits hsome hdigits =>
      have hread := digits?_eq hsome (hdigits.imp fun _ _ => IsDigit.digit?_ten)
      rw [String.toList_ofList, ← hread]
      unfold read?
      -- Neither prefix can be mistaken for two decimal digits.
      split
      next =>
        cases hdigits with
        | cons _ hmore =>
            cases hmore with
            | cons hx _ => exact absurd rfl hx.ne_x.1
      next =>
        cases hdigits with
        | cons _ hmore =>
            cases hmore with
            | cons hx _ => exact absurd rfl hx.ne_x.2
      next => rfl
  | hexadecimal digits hx hsome hdigits =>
      have hread := digits?_eq hsome (hdigits.imp fun _ _ => IsDigit.digit?_sixteen)
      obtain ⟨c, cs, rfl⟩ := List.exists_cons_of_ne_nil hsome
      rw [String.toList_ofList, ← hread]
      rcases hx with rfl | rfl <;> rfl

/-- However a byte is written, it is read as the byte. -/
theorem byte?_eq {byte : UInt8} (hword : Spells word byte.toNat) :
    byte? word = some byte := by
  have hbound : byte.toNat ≤ 255 := Nat.lt_succ_iff.mp byte.toNat_lt
  simp [byte?, readAtMost?, hword.read?_eq, hbound]

theorem isWord (hword : Spells word value) : Text.isWord word := by
  rw [Text.isWord_iff]
  cases hword with
  | decimal digits hsome hdigits =>
      rw [String.toList_ofList]
      exact ⟨hsome, forall_isPlain (by decide) hdigits⟩
  | hexadecimal digits hx hsome hdigits =>
      have hprefix : ∀ x, x = 'x' ∨ x = 'X' → Text.isPlain x := by
        simp [Text.isPlain, Text.isBlank]
      rw [String.toList_ofList]
      refine ⟨by simp, ?_⟩
      rw [List.forall_mem_cons, List.forall_mem_cons]
      exact ⟨rfl, hprefix _ hx, forall_isPlain (by decide) hdigits⟩

end Spells

end Numeral

end Disassembly
