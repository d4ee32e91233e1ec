import Disassembly.Proofs.CommandLine.Report

/-!
# Runs that log their progress

A run that logs its progress is compared with the same run without a log.  The
option is read from the front of the arguments and only decides whether the
decoder is watched.  Tables and inputs do not depend on it, a decoder returns
the same with and without a watcher, and what the watcher hears is written in
front of anything else on the error output.
-/

namespace Disassembly

namespace CommandLine

/-- The response that comes behind a log. -/
def Response.behind (log : String) (response : Response) : Response :=
  { response with stderr := log ++ response.stderr }

theorem Response.behind_empty (response : Response) : response.behind "" = response := by
  unfold behind
  rw [String.empty_append]

namespace Options

variable {options : Options}

/-- The log of a disassembly that is watched. -/
def log (options : Options) (table : Table) (input : BufferIterator) : String :=
  LogStyle.render ⟨true, true⟩
    (disassemble options ⟨table, options.depthLimit, true⟩ input).events

theorem set_verbose_of_verbose (hverbose : options.verbose) :
    Flag.verbose.set options = options := by
  cases options
  simp_all [Flag.set]

theorem disassemble_unwatched
    (options : Options) (table : Table) (limit : Nat) (input : BufferIterator) :
    (disassemble options ⟨table, limit, false⟩ input).result =
        (disassemble options ⟨table, limit, true⟩ input).result ∧
      (disassemble options ⟨table, limit, false⟩ input).input.toInput =
        (disassemble options ⟨table, limit, true⟩ input).input.toInput := by
  unfold disassemble
  split
  next =>
    obtain ⟨hresult, hinput⟩ := Decoder.decodeOne_unwatched table limit input.toInput
    have hquiet := BufferIterator.agree_decodeOne ⟨table, limit, false⟩ input
    have hwatched := BufferIterator.agree_decodeOne ⟨table, limit, true⟩ input
    rw [← hquiet.result, ← hwatched.result] at hresult
    rw [← hquiet.input, ← hwatched.input] at hinput
    exact ⟨congrArg (Except.map _) hresult, hinput⟩
  next =>
    obtain ⟨hresult, hinput⟩ := Decoder.decodeBlock_unwatched table limit input.toInput
    have hquiet := BufferIterator.agree_decodeBlock ⟨table, limit, false⟩ input
    have hwatched := BufferIterator.agree_decodeBlock ⟨table, limit, true⟩ input
    rw [← hquiet.result, ← hwatched.result] at hresult
    rw [← hquiet.input, ← hwatched.input] at hinput
    exact ⟨congrArg (Except.map _) hresult, hinput⟩

theorem summary_congr
    (options : Options) {first second : BufferIterator} (hsame : first.toInput = second.toInput) :
    summary options first = summary options second := by
  have hposition : first.position = second.position := congrArg Input.position hsame
  have hremaining : first.remaining = second.remaining := by
    rw [← first.length_rest, hsame, second.length_rest]
  rw [summary, summary, hposition, hremaining]

theorem decoder_of_quiet (hquiet : ¬ options.verbose) (table : Table) :
    options.decoder table = ⟨table, options.depthLimit, false⟩ := by
  unfold decoder
  rw [Bool.eq_false_of_not_eq_true hquiet]

theorem answer_verbose
    (hquiet : ¬ options.verbose) {table : Table} (htable : table.Coherent)
    (input : BufferIterator) :
    answer (Flag.verbose.set options) table input =
      (answer options table input).behind (options.log table input) := by
  have hsilent := events_disassemble hquiet table input
  obtain ⟨hresult, hinput⟩ := disassemble_unwatched options table options.depthLimit input
  rw [← decoder_of_quiet hquiet] at hresult hinput
  have hwatched :
      disassemble (Flag.verbose.set options) ((Flag.verbose.set options).decoder table) input =
        disassemble options ⟨table, options.depthLimit, true⟩ input := rfl
  obtain ⟨error, herror, -⟩ | ⟨printout, hprintout, hcomplete, -⟩ :=
    disassemble_cases options htable input
  · rw [answer_of_error rfl herror, hsilent,
      answer_of_error hwatched (hresult.symm.trans herror)]
    exact congrArg (Response.mk 1 "") (congrArg _ (String.empty_append).symm)
  · rw [answer_of_ok rfl hprintout hcomplete, hsilent, summary_congr options hinput,
      answer_of_ok hwatched (hresult.symm.trans hprintout) hcomplete]
    exact congrArg (Response.mk 0 _) String.append_empty.symm

theorem execute_verbose (hquiet : ¬ options.verbose) (files : Files) (piped : List UInt8) :
    ∃ log, (options.dumpTable → log = "") ∧
      execute (Flag.verbose.set options) files piped =
        (execute options files piped).behind log := by
  have htables : loadTable (Flag.verbose.set options) files = loadTable options files := rfl
  have hinputs : openInput (Flag.verbose.set options) files piped =
      openInput options files piped := rfl
  have hdumps : (Flag.verbose.set options).dumpTable = options.dumpTable := rfl
  unfold execute
  rw [htables, hinputs, hdumps]
  cases hload : loadTable options files with
  | error failure => exact ⟨"", fun _ => rfl, (Response.behind_empty _).symm⟩
  | ok table =>
      by_cases hdump : options.dumpTable
      · dsimp only
        rw [if_pos hdump, if_pos hdump]
        exact ⟨"", fun _ => rfl, (Response.behind_empty _).symm⟩
      · dsimp only
        rw [if_neg hdump, if_neg hdump]
        cases openInput options files piped with
        | error failure => exact ⟨"", fun _ => rfl, (Response.behind_empty _).symm⟩
        | ok input =>
            exact ⟨options.log table input, fun hdumped => absurd hdumped hdump,
              answer_verbose hquiet (loadTable_eq_ok_iff.mp hload).coherent input⟩

end Options

/-! ## Runs -/

/-- The option to log progress puts a log in front of the error output.  The log is empty
unless something is decoded that was not logged already. -/
theorem run_verbose (arguments : List String) (files : Files) (piped : List UInt8) :
    ∃ log,
      run ("--verbose" :: arguments) files piped = (run arguments files piped).behind log ∧
      (∀ refusal, Options.parse arguments = .error refusal → log = "") ∧
      ∀ options, Options.parse arguments = .ok options →
        options.dumpTable ∨ options.verbose → log = "" := by
  unfold run
  rw [Options.parse_verbose]
  cases hparse : Options.parse arguments with
  | error refusal =>
      exact ⟨"", (Response.behind_empty _).symm, fun _ _ => rfl, fun _ _ _ => rfl⟩
  | ok options =>
      by_cases hverbose : options.verbose
      · refine ⟨"", ?_, fun _ _ => rfl, fun _ _ _ => rfl⟩
        rw [Response.behind_empty]
        exact congrArg (execute · files piped) (Options.set_verbose_of_verbose hverbose)
      · obtain ⟨log, hdump, hlog⟩ := Options.execute_verbose hverbose files piped
        refine ⟨log, hlog, fun _ hrefused => (nomatch hrefused), ?_⟩
        intro other hother hsilent
        obtain rfl := Except.ok.inj hother
        exact hdump (hsilent.resolve_right hverbose)

/-- One response is another one with a log that interferes with nothing. -/
structure OnlyLogs (arguments : List String) (plain verbose : Response) : Prop where
  exitCode : verbose.exitCode = plain.exitCode
  stdout : verbose.stdout = plain.stdout
  stderr : ∃ log, verbose.stderr = log ++ plain.stderr
  refused : ∀ refusal, Options.parse arguments = .error refusal →
    verbose.stderr = plain.stderr
  dumped : ∀ options, Options.parse arguments = .ok options → options.dumpTable →
    verbose.stderr = plain.stderr
  again : ∀ options, Options.parse arguments = .ok options → options.verbose →
    verbose.stderr = plain.stderr

theorem verbosity_does_not_interfere
    (arguments : List String) (files : Files) (piped : List UInt8) :
    OnlyLogs arguments (run arguments files piped)
      (run ("--verbose" :: arguments) files piped) := by
  obtain ⟨log, hverbose, hrefused, hsilent⟩ := run_verbose arguments files piped
  rw [hverbose]
  have hunlogged (hlog : log = "") :
      ((run arguments files piped).behind log).stderr = (run arguments files piped).stderr := by
    rw [hlog, Response.behind_empty]
  exact {
    exitCode := rfl
    stdout := rfl
    stderr := ⟨log, rfl⟩
    refused := fun refusal hparse => hunlogged (hrefused refusal hparse)
    dumped := fun options hparse hdump => hunlogged (hsilent options hparse (.inl hdump))
    again := fun options hparse hlogged => hunlogged (hsilent options hparse (.inr hlogged)) }

/-- The failure of a decoder is logged as well as reported. -/
theorem verbosity_of_failure :
    OnlyLogs ["--table", "rows", "-"]
      ⟨1, "", "Caught decoder error: Decoding error @1: " ++
        "Unexpected end of input while reading 1 byte(s)\n"⟩
      ⟨1, "", "-> Start decoding @0\n  - [0] nop\n-> Decoding failed: Decoding error @1: " ++
        "Unexpected end of input while reading 1 byte(s)\n" ++
        "Caught decoder error: Decoding error @1: " ++
        "Unexpected end of input while reading 1 byte(s)\n"⟩ := by
  convert verbosity_does_not_interfere ["--table", "rows", "-"] Files.sample [0x01] using 1
  · decide +kernel
  · decide +kernel

end CommandLine

end Disassembly
