import Disassembly.CommandLine.Run
import Disassembly.Proofs.CommandLine.Arguments
import Disassembly.Proofs.Text.Numbers

/-!
# Groups of arguments

Arguments are read in groups: an option without a value, an option together
with its value, or the input.  A list of arguments is accepted exactly if it
splits into such groups, there is at most one input among them, and there is an
input unless the table is only dumped.

A group changes one place of the options, and only groups of the same option
change the same place.  What the options hold in the end is therefore decided
by the last group of each option, and groups of different options may change
places.
-/

namespace Disassembly

namespace CommandLine

/-- Arguments that are read together. -/
inductive Group where
  | flag (option : Flag)
  | table (path : String)
  | offset (word : String) (number : Nat)
  | depthLimit (word : String) (number : Nat)
  | input (path : String)
deriving DecidableEq, Repr

/-- The option of a group, or that it is the input. -/
inductive GroupKind where
  | flag (option : Flag)
  | setting (setting : Setting)
  | input
deriving DecidableEq, Repr

namespace Group

def arguments : Group → List String
  | flag option => [option.word]
  | table path => [Setting.table.word, path]
  | offset word _ => [Setting.offset.word, word]
  | depthLimit word _ => [Setting.depthLimit.word, word]
  | input path => [path]

def kind : Group → GroupKind
  | flag option => .flag option
  | table _ => .setting .table
  | offset _ _ => .setting .offset
  | depthLimit _ _ => .setting .depthLimit
  | input _ => .input

/-- A number is spelled in its word and not too large, and an input is a single dash or does not
start with a dash. -/
inductive Valid : Group → Prop
  | flag (option : Flag) : Valid (.flag option)
  | table (path : String) : Valid (.table path)
  | offset {word : String} {number : Nat} (hword : Numeral.Spells word number)
      (hnumber : number ≤ 0xFFFFFFFFFFFFFFFF) : Valid (.offset word number)
  | depthLimit {word : String} {number : Nat} (hword : Numeral.Spells word number)
      (hnumber : number ≤ 0xFFFFFFFF) : Valid (.depthLimit word number)
  | input {path : String} (hpath : path = "-" ∨ path.toList.head? ≠ some '-') :
      Valid (.input path)

def tablePath? : Group → Option String
  | table path => some path
  | _ => none

def offset? : Group → Option Nat
  | offset _ number => some number
  | _ => none

def depthLimit? : Group → Option Nat
  | depthLimit _ number => some number
  | _ => none

def input? : Group → Option String
  | input path => some path
  | _ => none

/-- What a group changes in options. -/
def change (options : Options) : Group → Options
  | flag option => option.set options
  | table path => { options with tablePath? := some path }
  | offset _ number => { options with offset := number }
  | depthLimit _ number => { options with depthLimit := number }
  | input path => { options with input? := some path }

/-- The inputs among groups. -/
def inputs (groups : List Group) : List String :=
  groups.filterMap input?

/-- Groups that make up a command line. -/
structure Acceptable (groups : List Group) : Prop where
  valid : ∀ group ∈ groups, group.Valid
  atMostOne : (inputs groups).length ≤ 1
  given : inputs groups ≠ [] ∨ .flag .dumpTable ∈ groups

/-- The same groups in another order, which keeps the order of groups of the same option. -/
def Reordered (groups other : List Group) : Prop :=
  ∀ kind, other.filter (·.kind = kind) = groups.filter (·.kind = kind)

end Group

/-- Options with the last value that groups have for each of them. -/
def Options.changedBy (options : Options) (groups : List Group) : Options where
  input? := (Group.inputs groups).getLast?.or options.input?
  tablePath? := (groups.filterMap Group.tablePath?).getLast?.or options.tablePath?
  offset := (groups.filterMap Group.offset?).getLast?.getD options.offset
  depthLimit := (groups.filterMap Group.depthLimit?).getLast?.getD options.depthLimit
  single := options.single || .flag .single ∈ groups
  dumpTable := options.dumpTable || .flag .dumpTable ∈ groups
  verbose := options.verbose || .flag .verbose ∈ groups

variable {options result : Options} {group : Group} {groups other : List Group}
variable {word : String} {arguments rest : List String}

/-! ## Words of options -/

theorem isInput_iff : isInput word ↔ word = "-" ∨ word.toList.head? ≠ some '-' := by
  simp [isInput]

theorem Setting.ofWord?_eq_some_iff {setting : Setting} :
    Setting.ofWord? word = some setting ↔ setting.word = word := by
  constructor
  · intro hfound
    simpa using List.find?_some hfound
  · rintro rfl
    cases setting <;> decide

theorem Flag.ofWord?_eq_some_iff {flag : Flag} :
    Flag.ofWord? word = some flag ↔ flag.word = word := by
  constructor
  · intro hfound
    simpa using List.find?_some hfound
  · rintro rfl
    cases flag <;> decide

theorem Setting.ofWord?_flag (flag : Flag) : Setting.ofWord? flag.word = none := by
  cases flag <;> decide

/-- An input is taken neither for an option nor for a call for help. -/
theorem unmistakable_of_isInput (hinput : isInput word) :
    Setting.ofWord? word = none ∧ Flag.ofWord? word = none ∧ ¬ isHelp word := by
  refine ⟨?_, ?_, ?_⟩
  · refine Option.eq_none_iff_forall_ne_some.mpr fun setting hfound => ?_
    rw [← Setting.ofWord?_eq_some_iff.mp hfound] at hinput
    revert hinput
    cases setting <;> decide
  · refine Option.eq_none_iff_forall_ne_some.mpr fun flag hfound => ?_
    rw [← Flag.ofWord?_eq_some_iff.mp hfound] at hinput
    revert hinput
    cases flag <;> decide
  · intro hhelp
    obtain rfl | rfl : word = "--help" ∨ word = "-h" := by simpa [isHelp] using hhelp
    all_goals revert hinput; decide

/-! ## Single groups -/

theorem Setting.number_eq_ok_iff (setting : Setting) {bound number : Nat} :
    Setting.number setting bound word = .ok number ↔
      Numeral.Spells word number ∧ number ≤ bound := by
  rw [← Numeral.readAtMost?_eq_some_iff]
  unfold Setting.number
  split
  next hread => simp [hread]
  next hread => simp [hread]

namespace Group

/-- A group is read on top of the options read before, unless it is a second input. -/
theorem Valid.scan_eq (hgroup : group.Valid) :
    Options.scan options (group.arguments ++ rest) =
      if group.kind = .input ∧ options.input?.isSome then .error .secondInput
      else Options.scan (group.change options) rest := by
  cases hgroup with
  | flag option =>
      have hsetting := Setting.ofWord?_flag option
      have hflag : Flag.ofWord? option.word = some option := Flag.ofWord?_eq_some_iff.mpr rfl
      simp [arguments, kind, change, Options.scan, hsetting, hflag]
  | table path =>
      have hsetting : Setting.ofWord? Setting.table.word = some .table := rfl
      simp [arguments, kind, change, Options.scan, hsetting, Setting.set]
  | @offset word number hword hnumber =>
      have hsetting : Setting.ofWord? Setting.offset.word = some .offset := rfl
      have hread := (Setting.number_eq_ok_iff .offset).mpr ⟨hword, hnumber⟩
      simp [arguments, kind, change, Options.scan, hsetting, Setting.set, hread]
  | @depthLimit word number hword hnumber =>
      have hsetting : Setting.ofWord? Setting.depthLimit.word = some .depthLimit := rfl
      have hread := (Setting.number_eq_ok_iff .depthLimit).mpr ⟨hword, hnumber⟩
      simp [arguments, kind, change, Options.scan, hsetting, Setting.set, hread]
  | @input path hpath =>
      have hinput : isInput path := isInput_iff.mpr hpath
      obtain ⟨hsetting, hflag, hhelp⟩ := unmistakable_of_isInput hinput
      simp [arguments, kind, change, Options.scan, hsetting, hflag, hhelp, hinput]

/-- A setting with a value that it takes is a group. -/
theorem exists_of_set {setting : Setting} {value : String}
    (hset : setting.set options value = .ok result) :
    ∃ group : Group, group.Valid ∧ group.arguments = [setting.word, value] := by
  cases setting with
  | table => exact ⟨.table value, .table value, rfl⟩
  | offset =>
      obtain ⟨number, hnumber, -⟩ := except_bind_eq_ok_iff.mp hset
      obtain ⟨hword, hbound⟩ := (Setting.number_eq_ok_iff _).mp hnumber
      exact ⟨.offset value number, .offset hword hbound, rfl⟩
  | depthLimit =>
      obtain ⟨number, hnumber, -⟩ := except_bind_eq_ok_iff.mp hset
      obtain ⟨hword, hbound⟩ := (Setting.number_eq_ok_iff _).mp hnumber
      exact ⟨.depthLimit value number, .depthLimit hword hbound, rfl⟩

/-! ## Lists of groups -/

/-- Arguments that are read to the end are groups. -/
theorem exists_of_scan (hscan : Options.scan options arguments = .ok result) :
    ∃ groups : List Group, (∀ group ∈ groups, group.Valid) ∧
      arguments = groups.flatMap Group.arguments := by
  have hcons {group : Group} {front rest : List String} (hgroup : group.Valid)
      (hfront : group.arguments = front)
      (hrest : ∃ groups : List Group, (∀ group ∈ groups, group.Valid) ∧
        rest = groups.flatMap Group.arguments) :
      ∃ groups : List Group, (∀ group ∈ groups, group.Valid) ∧
        front ++ rest = groups.flatMap Group.arguments := by
    obtain ⟨groups, hgroups, rfl⟩ := hrest
    exact ⟨group :: groups, List.forall_mem_cons.mpr ⟨hgroup, hgroups⟩,
      by rw [List.flatMap_cons, hfront]⟩
  fun_induction Options.scan options arguments with
  | case1 options => exact ⟨[], by simp, rfl⟩
  | case2 => cases hscan
  | case3 options argument setting hsetting value more changed hset ih =>
      obtain ⟨group, hgroup, hfront⟩ := exists_of_set hset
      rw [Setting.ofWord?_eq_some_iff.mp hsetting] at hfront
      exact hcons hgroup hfront (ih hscan)
  | case4 => cases hscan
  | case5 options argument rest hsetting flag hflag ih =>
      obtain rfl := Flag.ofWord?_eq_some_iff.mp hflag
      exact hcons (.flag flag) rfl (ih hscan)
  | case6 => cases hscan
  | case7 => cases hscan
  | case8 options argument rest hsetting hflag hhelp hinput hfirst ih =>
      exact hcons (.input (isInput_iff.mp hinput)) rfl (ih hscan)
  | case9 => cases hscan

/-- What a group changes, it changes in front of all other groups. -/
theorem changedBy_change :
    (group.change options).changedBy groups = options.changedBy (group :: groups) := by
  cases group with
  | flag option =>
      cases option <;>
        simp [change, Flag.set, Options.changedBy, inputs, input?, tablePath?, offset?, depthLimit?]
  | table path =>
      simp [change, Options.changedBy, inputs, input?, tablePath?, offset?, depthLimit?,
        List.getLast?_cons]
  | offset word number =>
      simp [change, Options.changedBy, inputs, input?, tablePath?, offset?, depthLimit?,
        List.getLast?_cons]
  | depthLimit word number =>
      simp [change, Options.changedBy, inputs, input?, tablePath?, offset?, depthLimit?,
        List.getLast?_cons]
  | input path =>
      simp [change, Options.changedBy, inputs, input?, tablePath?, offset?, depthLimit?,
        List.getLast?_cons]

/-- The number of inputs that options have after some groups. -/
def inputCount (options : Options) (groups : List Group) : Nat :=
  options.input?.toList.length + (inputs groups).length

theorem inputCount_change (hfirst : ¬ (group.kind = .input ∧ options.input?.isSome)) :
    inputCount (group.change options) groups = inputCount options (group :: groups) := by
  cases group with
  | input path =>
      have hnone : options.input? = none := by simpa [kind] using hfirst
      simp [inputCount, change, inputs, input?, hnone, Nat.add_comm]
  | flag option => cases option <;> rfl
  | table path => rfl
  | offset word number => rfl
  | depthLimit word number => rfl

theorem two_le_inputCount (groups : List Group) (hinput : group.kind = .input)
    (hgiven : options.input?.isSome) :
    2 ≤ inputCount options (group :: groups) := by
  obtain ⟨given, hgiven⟩ := Option.isSome_iff_exists.mp hgiven
  cases group with
  | input path =>
      have hinputs : inputs (.input path :: groups) = path :: inputs groups := rfl
      rw [inputCount, hinputs, hgiven, Option.toList_some, List.length_singleton, List.length_cons]
      omega
  | flag | table | offset | depthLimit => cases hinput

theorem inputCount_of_none (hnone : options.input? = none) :
    inputCount options groups = (inputs groups).length := by
  simp [inputCount, hnone]

/-- Groups are read one after the other until there are two inputs. -/
theorem scan_eq (hgroups : ∀ group ∈ groups, group.Valid) :
    Options.scan options (groups.flatMap Group.arguments) =
      if inputCount options groups ≤ 1 then .ok (options.changedBy groups)
      else .error .secondInput := by
  induction groups generalizing options with
  | nil =>
      have hcount : inputCount options [] ≤ 1 := Option.length_toList_le
      have hsame : options.changedBy [] = options := by
        simp [Options.changedBy, inputs]
      rw [if_pos hcount, hsame]
      rfl
  | cons group groups ih =>
      obtain ⟨hgroup, hgroups⟩ := List.forall_mem_cons.mp hgroups
      rw [List.flatMap_cons, hgroup.scan_eq]
      by_cases hsecond : group.kind = .input ∧ options.input?.isSome
      · have hcount := two_le_inputCount groups hsecond.1 hsecond.2
        rw [if_pos hsecond, if_neg (by omega)]
      · rw [if_neg hsecond, ih hgroups, inputCount_change hsecond, changedBy_change]

/-- The options of groups hold an input, or only dump the table, if the groups do. -/
theorem given_iff :
    (Options.changedBy {} groups).input?.isSome ∨ (Options.changedBy {} groups).dumpTable ↔
      inputs groups ≠ [] ∨ .flag .dumpTable ∈ groups := by
  simp [Options.changedBy]

theorem parse_eq_ok_iff_acceptable :
    Options.parse arguments = .ok options ↔
      ∃ groups, Acceptable groups ∧ arguments = groups.flatMap Group.arguments ∧
        options = Options.changedBy {} groups := by
  rw [Options.parse_eq_ok_iff]
  constructor
  · rintro ⟨hscan, hgiven⟩
    obtain ⟨groups, hgroups, rfl⟩ := exists_of_scan hscan
    rw [scan_eq hgroups, inputCount_of_none rfl] at hscan
    split_ifs at hscan with hone
    cases hscan
    exact ⟨groups, ⟨hgroups, hone, given_iff.mp hgiven⟩, rfl, rfl⟩
  · rintro ⟨groups, hacceptable, rfl, rfl⟩
    rw [scan_eq hacceptable.valid, inputCount_of_none rfl, if_pos hacceptable.atMostOne]
    exact ⟨rfl, given_iff.mpr hacceptable.given⟩

/-! ## Other orders -/

theorem Reordered.perm (horder : Reordered groups other) : groups.Perm other := by
  rw [List.perm_iff_count]
  intro group
  have hcount (list : List Group) :
      (list.filter (·.kind = group.kind)).count group = list.count group :=
    List.count_filter (by simp)
  rw [← hcount, ← horder, hcount]

/-- What only groups of one option have is the same in both orders. -/
theorem Reordered.filterMap_eq {α : Type} {part? : Group → Option α}
    (horder : Reordered groups other) (kind : GroupKind)
    (hpart : ∀ group, (part? group).isSome → group.kind = kind) :
    other.filterMap part? = groups.filterMap part? := by
  have honly (list : List Group) :
      (list.filter (·.kind = kind)).filterMap part? = list.filterMap part? := by
    rw [List.filterMap_filter]
    refine List.filterMap_congr fun group _ => ?_
    split
    next => rfl
    next hother =>
      rw [decide_eq_true_eq] at hother
      exact (Option.not_isSome_iff_eq_none.mp (mt (hpart group) hother)).symm
  rw [← honly, horder kind, honly]

theorem Reordered.inputs_eq (horder : Reordered groups other) : inputs other = inputs groups := by
  refine horder.filterMap_eq .input fun group hgroup => ?_
  cases group with
  | input => rfl
  | flag | table | offset | depthLimit => cases hgroup

theorem Reordered.changedBy_eq (horder : Reordered groups other) :
    options.changedBy other = options.changedBy groups := by
  have htables : other.filterMap tablePath? = groups.filterMap tablePath? := by
    refine horder.filterMap_eq (.setting .table) fun group hgroup => ?_
    cases group with
    | table => rfl
    | flag | input | offset | depthLimit => cases hgroup
  have hoffsets : other.filterMap offset? = groups.filterMap offset? := by
    refine horder.filterMap_eq (.setting .offset) fun group hgroup => ?_
    cases group with
    | offset => rfl
    | flag | input | table | depthLimit => cases hgroup
  have hlimits : other.filterMap depthLimit? = groups.filterMap depthLimit? := by
    refine horder.filterMap_eq (.setting .depthLimit) fun group hgroup => ?_
    cases group with
    | depthLimit => rfl
    | flag | input | table | offset => cases hgroup
  have hflags (option : Flag) : .flag option ∈ other ↔ .flag option ∈ groups :=
    horder.perm.mem_iff.symm
  simp only [Options.changedBy, horder.inputs_eq, htables, hoffsets, hlimits, hflags]

theorem Reordered.parse_eq (horder : Reordered groups other)
    (hgroups : ∀ group ∈ groups, group.Valid) :
    Options.parse (other.flatMap Group.arguments) =
      Options.parse (groups.flatMap Group.arguments) := by
  have hother : ∀ group ∈ other, group.Valid :=
    fun group hgroup => hgroups group (horder.perm.mem_iff.mpr hgroup)
  have hscan : Options.scan {} (other.flatMap Group.arguments) =
      Options.scan {} (groups.flatMap Group.arguments) := by
    rw [scan_eq hother, scan_eq hgroups, horder.changedBy_eq]
    unfold inputCount
    rw [horder.inputs_eq]
  unfold Options.parse
  rw [hscan]

end Group

/-- Arguments are accepted exactly if they split into acceptable groups, and the options are those
of the groups.  Groups in another order are read alike and make no difference to a run. -/
theorem arguments_are_groups_in_any_order :
    (∀ arguments options, Options.parse arguments = .ok options ↔
      ∃ groups, Group.Acceptable groups ∧ arguments = groups.flatMap Group.arguments ∧
        options = Options.changedBy {} groups) ∧
    ∀ groups other, (∀ group ∈ groups, Group.Valid group) → Group.Reordered groups other →
      Options.parse (other.flatMap Group.arguments) =
        Options.parse (groups.flatMap Group.arguments) ∧
      ∀ files piped, run (other.flatMap Group.arguments) files piped =
        run (groups.flatMap Group.arguments) files piped := by
  refine ⟨fun arguments options => Group.parse_eq_ok_iff_acceptable, ?_⟩
  intro groups other hgroups horder
  have hparse := horder.parse_eq hgroups
  refine ⟨hparse, fun files piped => ?_⟩
  unfold run
  rw [hparse]

/-- A value that looks like an option belongs to the option in front of it, and the last one of
two offsets counts. -/
theorem two_offsets_around_a_table :
    let groups : List Group :=
      [.offset "7" 7, .table "--single", .offset "0X02" 2, .input "-", .flag .verbose]
    let other : List Group :=
      [.flag .verbose, .input "-", .offset "7" 7, .offset "0X02" 2, .table "--single"]
    (∀ group ∈ groups, group.Valid) ∧ Group.Reordered groups other ∧
      Options.parse ["--offset", "7", "--table", "--single", "--offset", "0X02", "-", "--verbose"] =
        .ok ⟨some "-", some "--single", 2, 1024, false, false, true⟩ ∧
      run ["--verbose", "-", "--offset", "7", "--offset", "0X02", "--table", "--single"] =
        run ["--offset", "7", "--table", "--single", "--offset", "0X02", "-", "--verbose"] := by
  intro groups other
  have hseven : Numeral.Spells "7" 7 := .decimal [7] (by decide) (by decide)
  have htwo : Numeral.Spells "0X02" 2 := .hexadecimal [0, 2] (.inr rfl) (by decide) (by decide)
  have hvalid : ∀ group ∈ groups, group.Valid := by
    simp only [groups, List.forall_mem_cons]
    exact ⟨.offset hseven (by decide), .table _, .offset htwo (by decide), .input (.inl rfl),
      .flag _, by simp⟩
  have horder : Group.Reordered groups other := by
    intro kind
    cases kind with
    | flag option => cases option <;> rfl
    | setting setting => cases setting <;> rfl
    | input => rfl
  obtain ⟨haccepted, hreordered⟩ := arguments_are_groups_in_any_order
  refine ⟨hvalid, horder, ?_, ?_⟩
  · exact (haccepted _ _).mpr ⟨groups, ⟨hvalid, by decide, by decide⟩, rfl, rfl⟩
  · funext files piped
    exact (hreordered groups other hvalid horder).2 files piped

end CommandLine

end Disassembly
