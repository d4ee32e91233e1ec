/-!
# Finite maps

A finite map is a list of keys with their values.  Only the value in front
counts where a key occurs twice.  Nothing depends on the order of the keys.
-/

namespace Disassembly

structure FiniteMap (κ α : Type) where
  pairs : List (κ × α)
deriving DecidableEq, Repr

namespace FiniteMap

variable {κ α : Type} [DecidableEq κ]

def empty : FiniteMap κ α := ⟨[]⟩

def find? (map : FiniteMap κ α) (key : κ) : Option α :=
  (map.pairs.find? fun pair => pair.1 = key).map Prod.snd

def contains (map : FiniteMap κ α) (key : κ) : Bool :=
  (map.find? key).isSome

/-- Adds a value under a key, unless the key has one. -/
def emplace (map : FiniteMap κ α) (key : κ) (value : α) : FiniteMap κ α :=
  if map.contains key then map else ⟨(key, value) :: map.pairs⟩

/-- Changes the value of a key, if it has one. -/
def change (map : FiniteMap κ α) (key : κ) (f : α → α) : FiniteMap κ α :=
  ⟨map.pairs.map fun pair => if pair.1 = key then (pair.1, f pair.2) else pair⟩

@[simp] theorem find?_empty (key : κ) : (empty : FiniteMap κ α).find? key = none := rfl

/-- A key that has a value keeps it. -/
@[simp] theorem find?_emplace (map : FiniteMap κ α) (key other : κ) (value : α) :
    (map.emplace key value).find? other =
      if other = key then some ((map.find? key).getD value) else map.find? other := by
  unfold emplace contains
  cases hkey : map.find? key with
  | some found =>
      rw [Option.isSome_some, if_pos rfl]
      split
      next hsame => rw [hsame, hkey, Option.getD_some]
      next => rfl
  | none =>
      rw [Option.isSome_none, if_neg Bool.false_ne_true]
      split
      next hsame => simp [find?, hsame]
      next hother => simp [find?, Ne.symm hother]

@[simp] theorem find?_change (map : FiniteMap κ α) (key other : κ) (f : α → α) :
    (map.change key f).find? other =
      if other = key then (map.find? key).map f else map.find? other := by
  have hkeys : ((fun pair : κ × α => decide (pair.1 = other)) ∘
      fun pair => if pair.1 = key then (pair.1, f pair.2) else pair) =
        fun pair => decide (pair.1 = other) := by
    funext pair
    rw [Function.comp_apply]
    split <;> rfl
  unfold change find?
  rw [List.find?_map, hkeys]
  cases hfound : map.pairs.find? fun pair => decide (pair.1 = other) with
  | none =>
      split
      next hsame => simp [← hsame, hfound]
      next => rfl
  | some pair =>
      have hpair : pair.1 = other := by simpa using List.find?_some hfound
      split
      next hsame => simp [← hsame, hfound, hpair]
      next hother => simp [hpair, hother]

end FiniteMap

end Disassembly
