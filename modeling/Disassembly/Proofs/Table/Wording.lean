import Disassembly.Table.Basic
import Mathlib.Tactic

/-!
# Words for layouts

A layout is named by the names of its fields or by the name of its directive.
Words name at most one layout, and reading them finds it.  A layout that no words
name, because of a number behind the last kind of field, the last index space or the
last rule, does not come out of reading.
-/

namespace Disassembly

theorem except_bind_eq_ok_iff
    {ε α β : Type} {first : Except ε α} {next : α → Except ε β} {result : β} :
    (first >>= next) = .ok result ↔
      ∃ value, first = .ok value ∧ next value = .ok result := by
  cases first with
  | error fault => simp [bind, Except.bind]
  | ok value => simp [bind, Except.bind]

namespace Directive

theorem ofName?_eq_some_iff {word : String} {directive : Directive} :
    ofName? word = some directive ↔ directive.name = word := by
  constructor
  · intro hfound
    simpa using List.find?_some hfound
  · intro hname
    rw [← hname]
    exact ofName?_name directive

theorem head?_name (directive : Directive) :
    directive.name.toList.head? = some '%' := by
  cases directive <;> decide

theorem head?_of_ofName? {word : String} {directive : Directive}
    (hword : ofName? word = some directive) : word.toList.head? = some '%' := by
  rw [← ofName?_eq_some_iff.mp hword]
  exact directive.head?_name

end Directive

namespace Field

theorem ofName?_eq_some_iff {word : String} {field : Field} :
    ofName? word = some field ↔ field ∈ all ∧ field.name = word := by
  constructor
  · intro hfound
    exact ⟨List.mem_of_find?_eq_some hfound, by simpa using List.find?_some hfound⟩
  · rintro ⟨hfield, rfl⟩
    exact ofName?_name hfield

theorem unknown_notMem_all (kind : UnknownKind) : unknown kind ∉ all := by
  simp [all]

theorem head?_name_ne {field : Field} (hfield : field ∈ all) :
    field.name.toList.head? ≠ some '%' := by
  revert field
  decide

theorem name_ne_directive {field : Field} (hfield : field ∈ all) (directive : Directive) :
    field.name ≠ directive.name := by
  intro hname
  have hhead := head?_name_ne hfield
  rw [hname] at hhead
  exact hhead directive.head?_name

theorem ofWord_eq_ok_iff {word : String} {field : Field} :
    ofWord word = .ok field ↔ field ∈ all ∧ field.name = word := by
  unfold ofWord
  split
  next hpercent =>
    have hother : ¬ (field ∈ all ∧ field.name = word) := by
      rintro ⟨hfield, rfl⟩
      exact head?_name_ne hfield hpercent
    split <;> simp [hother]
  next =>
    rw [← ofName?_eq_some_iff]
    cases ofName? word <;> simp

theorem mapM_ofWord_eq_ok_iff {words : List String} {fields : List Field} :
    words.mapM ofWord = .ok fields ↔
      (∀ field ∈ fields, field ∈ all) ∧ fields.map name = words := by
  induction words generalizing fields with
  | nil =>
      rw [List.map_eq_nil_iff]
      constructor
      · rintro ⟨⟩
        exact ⟨List.forall_mem_nil _, rfl⟩
      · rintro ⟨-, rfl⟩
        rfl
  | cons word words ih =>
      rw [List.mapM_cons, except_bind_eq_ok_iff]
      simp only [except_bind_eq_ok_iff, ofWord_eq_ok_iff, ih]
      simp only [pure, Except.pure, Except.ok.injEq]
      constructor
      · rintro ⟨first, ⟨hfirst, hname⟩, more, ⟨hmore, hnames⟩, rfl⟩
        exact ⟨List.forall_mem_cons.mpr ⟨hfirst, hmore⟩, by rw [List.map_cons, hname, hnames]⟩
      · rintro ⟨hfields, hnames⟩
        cases fields with
        | nil => cases hnames
        | cons first more =>
            obtain ⟨hfirst, hmore⟩ := List.forall_mem_cons.mp hfields
            rw [List.map_cons, List.cons.injEq] at hnames
            exact ⟨first, ⟨hfirst, hnames.1⟩, more, ⟨hmore, hnames.2⟩, rfl⟩

theorem exists_fields_of_words {words : List String}
    (hwords : ∀ word ∈ words, ∃ field ∈ all, field.name = word) :
    ∃ fields : List Field, (∀ field ∈ fields, field ∈ all) ∧ fields.map name = words := by
  induction words with
  | nil => exact ⟨[], List.forall_mem_nil _, rfl⟩
  | cons word words ih =>
      obtain ⟨⟨field, hfield, hname⟩, hmore⟩ := List.forall_mem_cons.mp hwords
      obtain ⟨fields, hfields, hnames⟩ := ih hmore
      refine ⟨field :: fields, List.forall_mem_cons.mpr ⟨hfield, hfields⟩, ?_⟩
      rw [List.map_cons, hname, hnames]

end Field

namespace Layout

/-- The layouts that words can name. -/
def Known : Layout → Prop
  | inOrder fields => ∀ field ∈ fields, field ∈ Field.all
  | special _ => True
  | unknown _ => False

theorem ofWords_directive (directive : Directive) :
    ofWords [directive.name] = .ok (.special directive) := by
  simp [ofWords, Directive.ofName?_name]

theorem ofWords_fields {words : List String}
    (hwords : ∀ directive : Directive, words ≠ [directive.name]) :
    ofWords words = (words.mapM Field.ofWord).map .inOrder := by
  unfold ofWords
  split
  next word =>
    cases hfound : Directive.ofName? word with
    | some directive =>
        rw [Directive.ofName?_eq_some_iff] at hfound
        exact absurd (by rw [hfound]) (hwords directive)
    | none =>
        cases hword : Field.ofWord word <;>
          simp [hword, bind, Except.bind, pure, Except.pure, Except.map]
  next => rfl

/-- Words stand for a layout exactly if they are its names and name anything at all. -/
theorem ofWords_eq_ok_iff {words : List String} {layout : Layout} :
    ofWords words = .ok layout ↔ layout.Known ∧ layout.names = words := by
  by_cases hdirective : ∃ directive : Directive, words = [directive.name]
  · obtain ⟨directive, rfl⟩ := hdirective
    rw [ofWords_directive, Except.ok.injEq]
    constructor
    · rintro rfl
      exact ⟨trivial, rfl⟩
    · rintro ⟨hknown, hnames⟩
      cases layout with
      | special other =>
          have hname : other.name = directive.name := by simpa [names] using hnames
          have hfound := Directive.ofName?_eq_some_iff.mpr hname
          rw [Directive.ofName?_name, Option.some.injEq] at hfound
          rw [hfound]
      | inOrder fields =>
          have hmem : directive.name ∈ fields.map Field.name := by
            rw [show fields.map Field.name = [directive.name] from hnames]
            exact List.mem_singleton_self _
          obtain ⟨field, hfield, hname⟩ := List.mem_map.mp hmem
          exact absurd hname (Field.name_ne_directive (hknown field hfield) directive)
      | unknown rule => exact hknown.elim
  · rw [not_exists] at hdirective
    rw [ofWords_fields hdirective]
    cases layout with
    | special directive =>
        have hother : (special directive).names ≠ words :=
          fun hnames => hdirective directive hnames.symm
        cases words.mapM Field.ofWord <;> simp [Except.map, hother]
    | inOrder fields =>
        rw [names, Known, ← Field.mapM_ofWord_eq_ok_iff]
        cases words.mapM Field.ofWord <;> simp [Except.map]
    | unknown rule =>
        cases words.mapM Field.ofWord <;> simp [Except.map, Known]

theorem names_injOn {first second : Layout} (hfirst : first.Known) (hsecond : second.Known)
    (hnames : first.names = second.names) : first = second := by
  have hread := ofWords_eq_ok_iff.mpr ⟨hfirst, hnames⟩
  rw [ofWords_eq_ok_iff.mpr ⟨hsecond, rfl⟩] at hread
  exact (Except.ok.inj hread).symm

end Layout

end Disassembly
