import Disassembly.CommandLine.Options
import Disassembly.Proofs.Table.Building

/-!
# Arguments

Arguments are accepted if they can be read one after the other and if, in the
end, there is an input or the table is only dumped.

Options are read on top of each other, and each of them touches a place of its
own.  The option to log progress can therefore be set before the other arguments
are read or after them.
-/

namespace Disassembly

namespace CommandLine

variable {options : Options} {arguments : List String}

namespace Options

theorem parse_eq_ok_iff :
    parse arguments = .ok options ↔
      scan {} arguments = .ok options ∧ (options.input?.isSome ∨ options.dumpTable) := by
  unfold parse
  rw [except_bind_eq_ok_iff]
  constructor
  · rintro ⟨read, hread, hchecked⟩
    split at hchecked
    next => cases hchecked
    next hgiven =>
      cases hchecked
      refine ⟨hread, ?_⟩
      cases hinput : options.input? <;> simp_all
  · rintro ⟨hread, hgiven⟩
    refine ⟨options, hread, ?_⟩
    have hpassed : ¬ (options.input?.isNone && !options.dumpTable) := by
      cases hinput : options.input? <;> simp_all
    rw [if_neg hpassed]
    rfl

end Options

/-! ## Logging progress -/

theorem Flag.set_verbose_comm (flag : Flag) (options : Options) :
    flag.set (verbose.set options) = verbose.set (flag.set options) := by
  cases flag <;> rfl

theorem Setting.set_verbose_comm (setting : Setting) (options : Options) (value : String) :
    setting.set (Flag.verbose.set options) value =
      (setting.set options value).map Flag.verbose.set := by
  cases setting with
  | table => rfl
  | offset =>
      simp only [Setting.set]
      cases number offset 0xFFFFFFFFFFFFFFFF value <;> rfl
  | depthLimit =>
      simp only [Setting.set]
      cases number depthLimit 0xFFFFFFFF value <;> rfl

theorem Options.scan_verbose (options : Options) (arguments : List String) :
    scan (Flag.verbose.set options) arguments =
      (scan options arguments).map Flag.verbose.set := by
  fun_induction scan options arguments with
  | case1 options => rfl
  | case2 options argument setting hsetting => simp only [scan, hsetting]; rfl
  | case3 options argument setting hsetting value more changed hset ih =>
      simp only [scan, hsetting, Setting.set_verbose_comm, hset, Except.map, ih]
  | case4 options argument setting hsetting value more refusal hset =>
      simp only [scan, hsetting, Setting.set_verbose_comm, hset, Except.map]
  | case5 options argument rest hsetting flag hflag ih =>
      simp only [scan, hsetting, hflag, Flag.set_verbose_comm, ih]
  | case6 options argument rest hsetting hflag hhelp =>
      simp only [scan, hsetting, hflag]
      rw [if_pos hhelp]
      rfl
  | case7 options argument rest hsetting hflag hhelp hinput hsecond =>
      have hagain : (Flag.verbose.set options).input?.isSome := hsecond
      simp only [scan, hsetting, hflag]
      rw [if_neg hhelp, if_pos hinput, if_pos hagain]
      rfl
  | case8 options argument rest hsetting hflag hhelp hinput hfirst ih =>
      have hagain : ¬ (Flag.verbose.set options).input?.isSome := hfirst
      simp only [scan, hsetting, hflag]
      rw [if_neg hhelp, if_pos hinput, if_neg hagain]
      exact ih
  | case9 options argument rest hsetting hflag hhelp hinput =>
      simp only [scan, hsetting, hflag]
      rw [if_neg hhelp, if_neg hinput]
      rfl

theorem Options.parse_verbose (arguments : List String) :
    parse ("--verbose" :: arguments) = (parse arguments).map Flag.verbose.set := by
  have hfirst : scan {} ("--verbose" :: arguments) = scan (Flag.verbose.set {}) arguments := rfl
  unfold parse
  rw [hfirst, scan_verbose]
  cases scan {} arguments with
  | error refusal => rfl
  | ok options =>
      change (if options.input?.isNone && !options.dumpTable then _ else _) =
        Except.map Flag.verbose.set
          (if options.input?.isNone && !options.dumpTable then _ else _)
      split <;> rfl

end CommandLine

end Disassembly
