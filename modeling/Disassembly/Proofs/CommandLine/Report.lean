import Disassembly.CommandLine.Run
import Disassembly.Proofs.CommandLine.Arguments
import Disassembly.Proofs.Conformance.Access
import Disassembly.Proofs.Watching.Silence

/-!
# What a run reports

Options ask for a table, for the bytes of an input, and for an instruction or a
block that starts at an offset.  A run fails if one of these is not to be had,
and if the options only ask for the table, it can fail for the table alone.

Everything that can fail is done before anything is written.  Decoded trees can
be printed under every table, so that no print breaks off, and a run that fails
has written nothing.  A run that succeeds has written what was decoded, and a
last line that accounts for all bytes from the offset on.
-/

namespace Disassembly

theorem Table.coherent_standard : Table.standard.Coherent := by
  unfold standard
  cases hrows : ofRows "<builtin>" Row.standard with
  | ok table => exact (wellFormed_of_ofRows hrows).toCoherent
  | error error => exact coherent_empty error.source

namespace Printout

variable {printout : Printout}

/-- What is written behind a complete print completes it again. -/
theorem fault?_append_write (hcomplete : printout.fault? = none) (line : String) :
    (printout ++ write line).fault? = none :=
  fault?_append_eq_none_iff.mpr ⟨hcomplete, rfl⟩

theorem text_append_write (hcomplete : printout.fault? = none) (line : String) :
    (printout ++ write line).text = printout.text ++ line := by
  change (append printout (write line)).text = _
  simp [append, hcomplete, text, write, String.join_append]

end Printout

namespace CommandLine

variable {options : Options} {files : Files} {piped : List UInt8}

/-! ## What options ask for -/

namespace Options

/-- The table that options ask for: the standard one, or the one in their file. -/
inductive Uses (options : Options) (files : Files) : Table → Prop
  | standard (hpath : options.tablePath? = none) : Uses options files Table.standard
  | file {path : String} {bytes : List UInt8} {table : Table}
      (hpath : options.tablePath? = some path) (hfile : files path = some ⟨bytes, none⟩)
      (htable : Table.ofText path (Text.ofBytes bytes) = .ok table) :
      Uses options files table

/-- The bytes that options ask for: what is piped in, or the bytes of a file. -/
inductive Opens (options : Options) (files : Files) (piped : List UInt8) :
    List UInt8 → Prop
  | piped (hinput : options.input? = some "-") : Opens options files piped piped
  | file {path : String} {bytes : List UInt8} (hinput : options.input? = some path)
      (hpath : path ≠ "-") (hfile : files path = some ⟨bytes, none⟩) :
      Opens options files piped bytes

/-- The decoder with the limit of the options. -/
def decoder (options : Options) (table : Table) : Decoder :=
  ⟨table, options.depthLimit, options.verbose⟩

/-- What options ask for is decoded, with its print and the input behind it. -/
inductive Decodes (options : Options) (table : Table) (input : BufferIterator) :
    String → BufferIterator → Prop
  | instruction {item : Instruction} (hsingle : options.single)
      (hitem : ((options.decoder table).decodeOne input).result = .ok item) :
      Decodes options table input (item.print 0).text
        ((options.decoder table).decodeOne input).input
  | block {content : Block} (hblock : ¬ options.single)
      (hcontent : ((options.decoder table).decodeBlock input).result = .ok content) :
      Decodes options table input
        ((Instruction.printList 0 content.instructions).text ++
          ("; terminated by '" ++ content.terminator ++ "'\n"))
        ((options.decoder table).decodeBlock input).input

/-- What options ask for cannot be decoded. -/
inductive Undecodable (options : Options) (table : Table) (input : BufferIterator) : Prop
  | instruction {error : DecodeError} (hsingle : options.single)
      (herror : ((options.decoder table).decodeOne input).result = .error error)
  | block {error : DecodeError} (hblock : ¬ options.single)
      (herror : ((options.decoder table).decodeBlock input).result = .error error)

/-- Something that options ask for is not to be had. -/
inductive Fails (options : Options) (files : Files) (piped : List UInt8) : Prop
  | table (hnone : ∀ table, ¬ options.Uses files table)
  | input (hdump : ¬ options.dumpTable) (hnone : ∀ bytes, ¬ options.Opens files piped bytes)
  | offset {bytes : List UInt8} (hdump : ¬ options.dumpTable)
      (hbytes : options.Opens files piped bytes) (hoffset : bytes.length < options.offset)
  | decoding {table : Table} {bytes : List UInt8} {input : BufferIterator}
      (hdump : ¬ options.dumpTable) (htable : options.Uses files table)
      (hbytes : options.Opens files piped bytes)
      (hinput : (Buffer.mk bytes).iterator options.offset = .ok input)
      (hundecodable : options.Undecodable table input)

/-- The texts that show what options ask for: its print, and a line that says how many
bytes were decoded from the offset on and how many are left. -/
inductive Shows (options : Options) (files : Files) (piped : List UInt8) : String → Prop
  | intro {table : Table} {bytes : List UInt8} {input after : BufferIterator}
      {text : String} {count left : Nat} (htable : options.Uses files table)
      (hbytes : options.Opens files piped bytes)
      (hinput : (Buffer.mk bytes).iterator options.offset = .ok input)
      (hdecodes : options.Decodes table input text after)
      (hcount : 1 ≤ count) (hafter : options.offset + count = after.position)
      (hleft : options.offset + count + left = bytes.length) :
      Shows options files piped (text ++ ("; decoded " ++ Numeral.decimal count ++
        " bytes, " ++ Numeral.decimal left ++ " bytes remaining\n"))

/-! ## Tables and inputs -/

variable {table : Table} {bytes : List UInt8} {input after : BufferIterator} {text : String}

theorem readTable_eq_ok_iff {path : String} {file : File} :
    readTable path file = .ok table ↔
      ∃ bytes, file = ⟨bytes, none⟩ ∧ Table.ofText path (Text.ofBytes bytes) = .ok table := by
  obtain ⟨bytes, breakdown?⟩ := file
  cases breakdown? with
  | none => simp [readTable]
  | some reason => simp [readTable, Table.ofBrokenText_ne_ok]

theorem loadTable_eq_ok_iff : loadTable options files = .ok table ↔ options.Uses files table := by
  unfold loadTable
  constructor
  · intro hload
    split at hload
    next hpath =>
      obtain rfl := Except.ok.inj hload
      exact .standard hpath
    next path hpath =>
      split at hload
      next => cases hload
      next file hfile =>
        cases hread : readTable path file with
        | error error => simp [hread, Except.mapError] at hload
        | ok built =>
            rw [hread] at hload
            obtain rfl := Except.ok.inj hload
            obtain ⟨bytes, rfl, htable⟩ := readTable_eq_ok_iff.mp hread
            exact .file hpath hfile htable
  · intro huses
    cases huses with
    | standard hpath => rw [hpath]
    | file hpath hfile htable =>
        simp only [hpath, hfile, readTable_eq_ok_iff.mpr ⟨_, rfl, htable⟩, Except.mapError]

theorem Uses.unique {other : Table} (htable : options.Uses files table)
    (hother : options.Uses files other) : table = other := by
  have hload := loadTable_eq_ok_iff.mpr htable
  rw [loadTable_eq_ok_iff.mpr hother] at hload
  exact (Except.ok.inj hload).symm

theorem Uses.coherent (htable : options.Uses files table) : table.Coherent := by
  cases htable with
  | standard => exact Table.coherent_standard
  | file _ _ htable => exact (Table.wellFormed_of_ofText htable).toCoherent

theorem Opens.unique {other : List UInt8} (hbytes : options.Opens files piped bytes)
    (hother : options.Opens files piped other) : bytes = other := by
  cases hbytes with
  | piped hinput =>
      cases hother with
      | piped => rfl
      | file hagain hpath =>
          rw [hinput] at hagain
          exact absurd (Option.some.inj hagain).symm hpath
  | file hinput hpath hfile =>
      cases hother with
      | piped hagain =>
          rw [hinput] at hagain
          exact absurd (Option.some.inj hagain) hpath
      | file hagain _ hfileAgain =>
          rw [hinput] at hagain
          obtain rfl := Option.some.inj hagain
          exact congrArg File.bytes (Option.some.inj (hfile.symm.trans hfileAgain))

theorem readInput_eq_ok_iff (hgiven : options.input?.isSome) :
    readInput options files piped = .ok bytes ↔ options.Opens files piped bytes := by
  obtain ⟨path, hpath⟩ := Option.isSome_iff_exists.mp hgiven
  unfold readInput
  rw [hpath, Option.getD_some]
  dsimp only
  constructor
  · intro hread
    split at hread
    next hdash =>
      obtain rfl := Except.ok.inj hread
      exact .piped (hpath.trans (congrArg some hdash))
    next hdash =>
      split at hread
      next => cases hread
      next file hfile =>
        obtain ⟨content, breakdown?⟩ := file
        cases breakdown? with
        | some reason => cases hread
        | none =>
            obtain rfl := Except.ok.inj hread
            exact .file hpath hdash hfile
  · intro hopens
    cases hopens with
    | piped hinput =>
        obtain rfl := Option.some.inj (hpath.symm.trans hinput)
        rw [if_pos rfl]
    | file hinput hdash hfile =>
        obtain rfl := Option.some.inj (hpath.symm.trans hinput)
        rw [if_neg hdash, hfile]

theorem openInput_eq_ok_iff (hgiven : options.input?.isSome) :
    openInput options files piped = .ok input ↔
      ∃ bytes, options.Opens files piped bytes ∧
        (Buffer.mk bytes).iterator options.offset = .ok input := by
  have hplaced (bytes : List UInt8) :
      ((Buffer.mk bytes).iterator options.offset).mapError Failure.offset = .ok input ↔
        (Buffer.mk bytes).iterator options.offset = .ok input := by
    cases (Buffer.mk bytes).iterator options.offset <;> simp [Except.mapError]
  unfold openInput
  rw [except_bind_eq_ok_iff]
  simp only [readInput_eq_ok_iff hgiven, hplaced]

/-! ## Decoding -/

theorem Undecodable.not_decodes (hundecodable : options.Undecodable table input) :
    ¬ options.Decodes table input text after := by
  intro hdecodes
  cases hundecodable with
  | instruction hsingle herror =>
      cases hdecodes with
      | instruction _ hitem => simp [herror] at hitem
      | block hblock => exact hblock hsingle
  | block hblock herror =>
      cases hdecodes with
      | instruction hsingle => exact hblock hsingle
      | block _ hcontent => simp [herror] at hcontent

/-- What was decoded are bytes behind the input. -/
theorem Decodes.exists_consumed
    (htable : table.Coherent) (hdecodes : options.Decodes table input text after) :
    ∃ bytes, 0 < bytes.length ∧ input.toInput.Consumed bytes after.toInput := by
  cases hdecodes with
  | instruction _ hitem =>
      have hagree := BufferIterator.agree_decodeOne (options.decoder table) input
      rw [hagree.result] at hitem
      obtain ⟨bytes, hderives, hbytes⟩ :=
        (Decoder.decodeOne_eq_ok_iff htable).mp ⟨hitem, hagree.input.symm⟩
      exact ⟨bytes, hderives.instruction_length_pos, hbytes⟩
  | block _ hcontent =>
      have hagree := BufferIterator.agree_decodeBlock (options.decoder table) input
      rw [hagree.result] at hcontent
      obtain ⟨bytes, hderives, hbytes⟩ :=
        (Decoder.decodeBlock_eq_ok_iff htable).mp ⟨hcontent, hagree.input.symm⟩
      exact ⟨bytes, hderives.block_length_pos, hbytes⟩

/-- A disassembly fails, or it is printed completely. -/
theorem disassemble_cases
    (options : Options) {table : Table} (htable : table.Coherent) (input : BufferIterator) :
    (∃ error,
      (disassemble options (options.decoder table) input).result = .error error ∧
        options.Undecodable table input) ∨
    ∃ printout,
      (disassemble options (options.decoder table) input).result = .ok printout ∧
        printout.fault? = none ∧
        options.Decodes table input printout.text
          (disassemble options (options.decoder table) input).input := by
  have hcoherent : (options.decoder table).table.Coherent := htable
  unfold disassemble
  by_cases hsingle : options.single
  · rw [if_pos hsingle]
    cases hresult : ((options.decoder table).decodeOne input).result with
    | error error =>
        exact .inl ⟨error, congrArg (Except.map _) hresult, .instruction hsingle hresult⟩
    | ok item =>
        have hagree := BufferIterator.agree_decodeOne (options.decoder table) input
        have hprintable :=
          (Decoder.decodeOne_conforms hcoherent (hagree.result.symm.trans hresult)).printable
        exact .inr ⟨item.print 0, congrArg (Except.map _) hresult, hprintable 0,
          .instruction hsingle hresult⟩
  · rw [if_neg hsingle]
    cases hresult : ((options.decoder table).decodeBlock input).result with
    | error error =>
        exact .inl ⟨error, congrArg (Except.map _) hresult, .block hsingle hresult⟩
    | ok content =>
        have hagree := BufferIterator.agree_decodeBlock (options.decoder table) input
        have hconforms :=
          Decoder.decodeBlock_conforms hcoherent (hagree.result.symm.trans hresult)
        have hprinted : (Instruction.printList 0 content.instructions).fault? = none :=
          Instruction.fault?_printList
            (fun child hchild => (hconforms child hchild).2.printable) 0
        have htext := Printout.text_append_write hprinted
          ("; terminated by '" ++ content.terminator ++ "'\n")
        refine .inr ⟨_, congrArg (Except.map _) hresult,
          Printout.fault?_append_write hprinted _, ?_⟩
        rw [htext]
        exact .block hsingle hresult

theorem events_disassemble
    (hquiet : ¬ options.verbose) (table : Table) (input : BufferIterator) :
    (disassemble options (options.decoder table) input).events = [] := by
  unfold disassemble
  split
  next =>
    exact (BufferIterator.agree_decodeOne _ input).events.trans
      (Decoder.events_decodeOne hquiet input.toInput)
  next =>
    exact (BufferIterator.agree_decodeBlock _ input).events.trans
      (Decoder.events_decodeBlock hquiet input.toInput)

/-! ## Answers -/

section Answers

variable {outcome : Outcome BufferIterator Printout} {printout : Printout} {error : DecodeError}

theorem answer_of_error
    (houtcome : disassemble options (options.decoder table) input = outcome)
    (herror : outcome.result = .error error) :
    answer options table input =
      ⟨1, "", LogStyle.render ⟨true, true⟩ outcome.events ++
        (Failure.decoding error).report⟩ := by
  subst houtcome
  unfold decoder at herror
  unfold answer
  simp only [herror]
  rfl

theorem answer_of_ok
    (houtcome : disassemble options (options.decoder table) input = outcome)
    (hprintout : outcome.result = .ok printout) (hcomplete : printout.fault? = none) :
    answer options table input =
      ⟨0, printout.text ++ summary options outcome.input,
        LogStyle.render ⟨true, true⟩ outcome.events⟩ := by
  subst houtcome
  unfold decoder at hprintout
  unfold answer
  simp only [hprintout, Printout.fault?_append_write hcomplete,
    Printout.text_append_write hcomplete]
  rfl

end Answers

/-! ## How options end -/

/-- What is consumed from the offset on and what is left make up all bytes. -/
theorem account_of_consumed {consumed : List UInt8}
    (hinput : (Buffer.mk bytes).iterator options.offset = .ok input)
    (hconsumed : input.toInput.Consumed consumed after.toInput) :
    options.offset + consumed.length = after.position ∧
      options.offset + consumed.length + after.remaining = bytes.length := by
  obtain ⟨hoffset, hplaced⟩ := Buffer.toInput_of_iterator hinput
  rw [hplaced] at hconsumed
  have hbehind : (bytes.drop options.offset).length =
      consumed.length + after.toInput.rest.length := hconsumed.remaining
  have hwithin : options.offset ≤ bytes.length := hoffset
  rw [List.length_drop, after.length_rest] at hbehind
  exact ⟨hconsumed.position.symm, by omega⟩

theorem summary_eq {count : Nat} (hafter : options.offset + count = after.position) :
    summary options after =
      "; decoded " ++ Numeral.decimal count ++ " bytes, " ++
        Numeral.decimal after.remaining ++ " bytes remaining\n" := by
  unfold summary
  rw [← hafter, Nat.add_sub_cancel_left]

/-- How options end that are carried out. -/
inductive Ending (options : Options) (files : Files) (piped : List UInt8) : Response → Prop
  | failed {report : String} (hfails : options.Fails files piped) :
      Ending options files piped ⟨1, "", report⟩
  | dumped {table : Table} (hdump : options.dumpTable) (htable : options.Uses files table) :
      Ending options files piped ⟨0, table.text, ""⟩
  | shown {stdout log : String} (hdump : ¬ options.dumpTable)
      (hshows : options.Shows files piped stdout) (hlog : ¬ options.verbose → log = "") :
      Ending options files piped ⟨0, stdout, log⟩

theorem ending_answer (hdump : ¬ options.dumpTable) (htable : options.Uses files table)
    (hbytes : options.Opens files piped bytes)
    (hinput : (Buffer.mk bytes).iterator options.offset = .ok input) :
    options.Ending files piped (answer options table input) := by
  obtain ⟨error, hresult, hundecodable⟩ | ⟨printout, hresult, hcomplete, hdecodes⟩ :=
    disassemble_cases options htable.coherent input
  · rw [answer_of_error rfl hresult]
    exact .failed (.decoding hdump htable hbytes hinput hundecodable)
  · obtain ⟨consumed, hcount, hconsumed⟩ := hdecodes.exists_consumed htable.coherent
    obtain ⟨hafter, hleft⟩ := account_of_consumed hinput hconsumed
    rw [answer_of_ok rfl hresult hcomplete, summary_eq hafter]
    refine .shown hdump (.intro htable hbytes hinput hdecodes hcount hafter hleft) ?_
    intro hquiet
    rw [events_disassemble hquiet]
    rfl

theorem ending_execute (hgiven : options.input?.isSome ∨ options.dumpTable)
    (files : Files) (piped : List UInt8) :
    options.Ending files piped (execute options files piped) := by
  unfold execute
  cases hload : loadTable options files with
  | error failure =>
      refine .failed (.table fun table htable => ?_)
      rw [loadTable_eq_ok_iff.mpr htable] at hload
      cases hload
  | ok table =>
      have htable := loadTable_eq_ok_iff.mp hload
      by_cases hdump : options.dumpTable
      · simp only [hdump, if_true]
        exact .dumped hdump htable
      · have hinput := hgiven.resolve_right hdump
        simp only [hdump]
        cases hopen : openInput options files piped with
        | ok input =>
            obtain ⟨bytes, hbytes, hplaced⟩ := (openInput_eq_ok_iff hinput).mp hopen
            exact ending_answer hdump htable hbytes hplaced
        | error failure =>
            by_cases hopens : ∃ bytes, options.Opens files piped bytes
            · obtain ⟨bytes, hbytes⟩ := hopens
              refine .failed (.offset hdump hbytes ?_)
              by_contra hoffset
              obtain ⟨input, hplaced, _⟩ := Buffer.exists_iterator
                ⟨bytes⟩ (Nat.le_of_not_lt hoffset)
              rw [(openInput_eq_ok_iff hinput).mpr ⟨bytes, hbytes, hplaced⟩] at hopen
              cases hopen
            · exact .failed (.input hdump fun bytes hbytes => hopens ⟨bytes, hbytes⟩)

theorem Shows.not_fails {stdout : String} (hshows : options.Shows files piped stdout) :
    ¬ options.Fails files piped := by
  obtain ⟨htable, hbytes, hinput, hdecodes, -, -, -⟩ := hshows
  intro hfails
  cases hfails with
  | table hnone => exact hnone _ htable
  | input _ hnone => exact hnone _ hbytes
  | offset _ hother hoffset =>
      obtain rfl := hbytes.unique hother
      exact absurd (Buffer.toInput_of_iterator hinput).1 (Nat.not_le_of_lt hoffset)
  | decoding _ hother hagain hplaced hundecodable =>
      obtain rfl := htable.unique hother
      obtain rfl := hbytes.unique hagain
      obtain rfl := Except.ok.inj (hinput.symm.trans hplaced)
      exact hundecodable.not_decodes hdecodes

theorem Uses.not_fails (htable : options.Uses files table) (hdump : options.dumpTable) :
    ¬ options.Fails files piped := by
  intro hfails
  cases hfails with
  | table hnone => exact hnone _ htable
  | input hshown => exact hshown hdump
  | offset hshown => exact hshown hdump
  | decoding hshown => exact hshown hdump

end Options

/-! ## Honest reports -/

/-- A response that tells truly how a run went. -/
structure HonestReport (arguments : List String) (files : Files) (piped : List UInt8)
    (response : Response) : Prop where
  refused : response.exitCode = 2 ↔ ∃ refusal, Options.parse arguments = .error refusal
  failed : response.exitCode = 1 ↔
    ∃ options, Options.parse arguments = .ok options ∧ options.Fails files piped
  succeeded : response.exitCode = 0 ↔
    ∃ options, Options.parse arguments = .ok options ∧ ¬ options.Fails files piped
  unsaid : response.exitCode ≠ 0 → response.stdout = ""
  quiet : response.exitCode = 0 → ∀ options, Options.parse arguments = .ok options →
    ¬ options.verbose → response.stderr = ""
  dumped : response.exitCode = 0 → ∀ options, Options.parse arguments = .ok options →
    options.dumpTable → ∃ table, options.Uses files table ∧ response.stdout = table.text
  shown : response.exitCode = 0 → ∀ options, Options.parse arguments = .ok options →
    ¬ options.dumpTable → options.Shows files piped response.stdout

theorem Options.Ending.honestReport {arguments : List String} {response : Response}
    (hparse : parse arguments = .ok options)
    (hending : options.Ending files piped response) :
    HonestReport arguments files piped response := by
  have hsame {other : Options} (hother : parse arguments = .ok other) : options = other :=
    Except.ok.inj (hparse.symm.trans hother)
  cases hending with
  | failed hfails =>
      have hone : (1 : UInt32) ≠ 0 := by decide
      exact {
        refused := by simp [hparse]
        failed := by simp [hparse, hfails]
        succeeded := by simp [hparse, hfails]
        unsaid := fun _ => rfl
        quiet := fun hzero => absurd hzero hone
        dumped := fun hzero => absurd hzero hone
        shown := fun hzero => absurd hzero hone }
  | dumped hdump htable =>
      have hhad : ¬ options.Fails files piped := htable.not_fails hdump
      exact {
        refused := by simp [hparse]
        failed := by simp [hparse, hhad]
        succeeded := by simp [hparse, hhad]
        unsaid := fun hcode => absurd rfl hcode
        quiet := fun _ _ _ _ => rfl
        dumped := by
          intro _ other hother _
          obtain rfl := hsame hother
          exact ⟨_, htable, rfl⟩
        shown := by
          intro _ other hother hshown
          obtain rfl := hsame hother
          exact absurd hdump hshown }
  | shown hdump hshows hlog =>
      have hhad := hshows.not_fails
      exact {
        refused := by simp [hparse]
        failed := by simp [hparse, hhad]
        succeeded := by simp [hparse, hhad]
        unsaid := fun hcode => absurd rfl hcode
        quiet := by
          intro _ other hother hquiet
          obtain rfl := hsame hother
          exact hlog hquiet
        dumped := by
          intro _ other hother hdumped
          obtain rfl := hsame hother
          exact absurd hdumped hdump
        shown := by
          intro _ other hother _
          obtain rfl := hsame hother
          exact hshows }

theorem honestReport_refused {arguments : List String} {refusal : Refusal} {report : String}
    (hparse : Options.parse arguments = .error refusal) :
    HonestReport arguments files piped ⟨2, "", report⟩ where
  refused := by simp [hparse]
  failed := by simp [hparse]
  succeeded := by simp [hparse]
  unsaid _ := rfl
  quiet hzero := absurd hzero (show (2 : UInt32) ≠ 0 by decide)
  dumped hzero := absurd hzero (show (2 : UInt32) ≠ 0 by decide)
  shown hzero := absurd hzero (show (2 : UInt32) ≠ 0 by decide)

theorem run_reports_honestly (arguments : List String) (files : Files) (piped : List UInt8) :
    HonestReport arguments files piped (run arguments files piped) := by
  unfold run
  cases hparse : Options.parse arguments with
  | ok options =>
      exact (Options.ending_execute (Options.parse_eq_ok_iff.mp hparse).2 files piped).honestReport
        hparse
  | error refusal => exact honestReport_refused hparse

/-- A single file, with a table of two rows. -/
def Files.sample : Files := fun path =>
  if path = "rows" then some ⟨Text.bytes "0x0B end\n0x01 nop\n", none⟩ else none

/-- Two bytes of three are decoded. -/
theorem reported_nop :
    HonestReport ["--table", "rows", "-"] Files.sample [0x01, 0x0B, 0x99]
      ⟨0, "nop\n; terminated by 'end'\n; decoded 2 bytes, 1 bytes remaining\n", ""⟩ := by
  convert run_reports_honestly ["--table", "rows", "-"] Files.sample [0x01, 0x0B, 0x99] using 1
  decide +kernel

end CommandLine

end Disassembly
