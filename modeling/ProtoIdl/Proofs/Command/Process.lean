import ProtoIdl.Command.Run
import ProtoIdl.Proofs.Command.Settings
import ProtoIdl.Proofs.Proper
/-!
# Files one after the other

Without `--debug`, a file that is parsed adds its text to what is printed and a line to what is
reported (`processFile_ok`), and one that is not ends the run (`process_error`). So the files in front of
the first failure are printed (`process_append`), and those behind it do not matter (`process_stop`).
-/
namespace ProtoIdl.Command

/-- The file, or the text with which the run ends. -/
def load (s : Settings) (x : Input) : Except String File :=
  match x.2 with
  | .error fault => .error (fault.message x.1)
  | .ok bytes => (parse s.options bytes x.1).mapError (·.message)

/-- What is printed of a file. -/
def output (s : Settings) (x : Input) : String :=
  ((load s x).toOption.bind fun f => (printed s x.1 f).toOption).getD ""

variable {s : Settings} {x : Input} {f : File} {text : String}

theorem load_ok_iff : load s x = .ok f ↔
    ∃ bytes, x.2 = .ok bytes ∧ parse s.options bytes x.1 = .ok f := by
  unfold load
  split
  · next fault hfault => simp [hfault]
  · next bytes hbytes =>
    cases hparse : parse s.options bytes x.1 <;> simp [hbytes, hparse, Except.mapError]

theorem load_error_iff : load s x = .error text ↔
    (∃ fault, x.2 = .error fault ∧ fault.message x.1 = text) ∨
      ∃ bytes e, x.2 = .ok bytes ∧ parse s.options bytes x.1 = .error e ∧ e.message = text := by
  unfold load
  split
  · next fault hfault => simp [hfault]
  · next bytes hbytes =>
    cases hparse : parse s.options bytes x.1 <;> simp [hbytes, hparse, Except.mapError]

/-- A file that was parsed is printed, in whatever form. -/
theorem printed_eq (h : load s x = .ok f) : printed s x.1 f = .ok (output s x) := by
  obtain ⟨bytes, -, hparse⟩ := load_ok_iff.1 h
  have hproper := parse_allProper hparse
  have hprinted : ∃ text, printed s x.1 f = .ok text := by
    obtain ⟨v, hv⟩ := f.exists_view hproper
    have houtline := View.outline_eq hproper x.1
    unfold printed
    split
    · exact ⟨_, by rw [houtline]; rfl⟩
    all_goals
      split
      · exact ⟨_, by rw [hv]⟩
      · exact ⟨_, rfl⟩
  obtain ⟨text, htext⟩ := hprinted
  rw [output, h, Except.toOption, Option.bind_some, htext]
  rfl

theorem after_eq (o : Outcome) (out err : String) :
    o.after out err = { o with out := out ++ o.out, err := err ++ o.err } := rfl

/-- Without a log, a file is printed as it was parsed. -/
theorem processFile_eq (hd : s.debug = false) {bytes : List UInt8} (hbytes : x.2 = .ok bytes) :
    processFile s x.1 x.2 = printParsed s x.1 "" (parse s.options bytes x.1) := by
  unfold processFile
  simp only [hbytes, hd, Bool.false_eq_true, ↓reduceIte, parse]

theorem processFile_ok (hd : s.debug = false) (h : load s x = .ok f) :
    processFile s x.1 x.2 = { out := output s x, err := parsedLine x.1 f } := by
  obtain ⟨bytes, hbytes, hparse⟩ := load_ok_iff.1 h
  rw [processFile_eq hd hbytes, hparse, printParsed, printed_eq h]
  simp only [String.empty_append]

/-- A file that is not parsed prints nothing. -/
theorem processFile_error (hd : s.debug = false) (h : load s x = .error text) :
    processFile s x.1 x.2 = { code := 1, err := fatal text } := by
  rcases load_error_iff.1 h with ⟨fault, hfault, rfl⟩ | ⟨bytes, e, hbytes, hparse, rfl⟩
  · unfold processFile
    simp only [hfault, hd, Bool.false_eq_true, ↓reduceIte, String.empty_append]
  · rw [processFile_eq hd hbytes, hparse, printParsed, String.empty_append]

/-! ## All files in front of one -/

theorem after_after (o : Outcome) (out out' err err' : String) :
    (o.after out' err').after out err = o.after (out ++ out') (err ++ err') := by
  simp only [Outcome.after, String.append_assoc]

/-- Files that are parsed print what they print each, and the run goes on. -/
theorem process_append (hd : s.debug = false) {before : List Input} {files : List File}
    (h : List.Forall₂ (fun x f => load s x = .ok f) before files) (rest : List Input) :
    process s (before ++ rest) = (process s rest).after (String.join (before.map (output s)))
      (String.join (List.zipWith (fun x f => parsedLine x.1 f) before files)) := by
  induction h with
  | nil => simp [Outcome.after, String.join]
  | @cons x f before files hx _ ih =>
    rw [List.cons_append, process, processFile_ok hd hx, ih, after_after, List.map_cons,
      String.join_cons, List.zipWith_cons_cons, String.join_cons]
    rfl

/-- A file that is not parsed ends the run. -/
theorem process_error (hd : s.debug = false) (h : load s x = .error text) (rest : List Input) :
    process s (x :: rest) = { code := 1, err := fatal text } := by
  rw [process, processFile_error hd h]
  rfl

/-- Files that are all parsed. -/
theorem process_all (hd : s.debug = false) {inputs : List Input} {files : List File}
    (h : List.Forall₂ (fun x f => load s x = .ok f) inputs files) :
    process s inputs = { out := String.join (inputs.map (output s))
                         err := String.join (List.zipWith (fun x f => parsedLine x.1 f) inputs files) } := by
  have happend := process_append hd h []
  rw [List.append_nil] at happend
  rw [happend, process, after_eq, String.append_empty, String.append_empty]

/-- The first file that is not parsed ends the run; what follows it does not matter. -/
theorem process_stop (hd : s.debug = false) {before : List Input} {files : List File}
    (h : List.Forall₂ (fun x f => load s x = .ok f) before files) (hx : load s x = .error text)
    (rest : List Input) :
    process s (before ++ x :: rest) =
      { code := 1
        out := String.join (before.map (output s))
        err := String.join (List.zipWith (fun x f => parsedLine x.1 f) before files) ++ fatal text } := by
  rw [process_append hd h, process_error hd hx, after_eq, String.append_empty]

/-! ## Paths -/

variable {disk : Disk} {path : String}

/-- The name under which a path is read. -/
def nameOf (path : String) : String := (Path.ofString path).render

/-- What is read at a path. -/
def input (disk : Disk) (path : String) : Input := (nameOf path, disk (nameOf path) >>= Entry.read)

/-- It can be told whether the path is that of a directory. -/
def Told (disk : Disk) (path : String) : Prop :=
  ∀ fault, disk (nameOf path) = .error fault → fault.isAbsence

/-- A path that is no directory stands for itself. -/
theorem expand_eq (htold : Told disk path)
    (h : ∀ entries, disk (nameOf path) ≠ .ok (.directory entries)) :
    expand disk path = .ok [input disk path] := by
  rw [expand, input]
  unfold Told nameOf at *
  cases hdisk : disk (Path.ofString path).render with
  | error fault => exact if_pos (htold fault hdisk)
  | ok e =>
    cases e with
    | file bytes | unreadable fault => rfl
    | directory entries => exact absurd hdisk (h entries)

/-- The files of a path are found just if it can be told what it names. -/
theorem exists_expand (htold : Told disk path) : ∃ inputs, expand disk path = .ok inputs := by
  by_cases h : ∃ entries, disk (nameOf path) = .ok (.directory entries)
  · obtain ⟨entries, hdisk⟩ := h
    rw [nameOf] at hdisk
    exact ⟨_, by rw [expand, hdisk]⟩
  · exact ⟨_, expand_eq htold (not_exists.1 h)⟩

theorem expand_error {fault : AccessFault} (hdisk : disk (nameOf path) = .error fault)
    (hfault : fault.isAbsence = false) : expand disk path = .error (fault.message (nameOf path)) := by
  rw [nameOf] at hdisk
  rw [expand, hdisk]
  exact if_neg (Bool.eq_false_iff.1 hfault)

theorem findFiles_append {paths rest : List String} {inputs : List Input}
    (h : findFiles disk paths = .ok inputs) :
    findFiles disk (paths ++ rest) = (findFiles disk rest).map (inputs ++ ·) := by
  induction paths generalizing inputs with
  | nil =>
    obtain rfl := Except.ok.inj h
    cases hrest : findFiles disk rest <;> simp [hrest, Except.map]
  | cons p paths ih =>
    rw [findFiles] at h
    obtain ⟨first, hfirst, h⟩ := exists_ok_of_bind h
    obtain ⟨others, hothers, h⟩ := exists_ok_of_bind h
    obtain rfl := Except.ok.inj h
    rw [List.cons_append, findFiles, hfirst, ih hothers]
    cases findFiles disk rest with
    | error text => rfl
    | ok more => exact congrArg Except.ok (List.append_assoc ..).symm

theorem exists_findFiles {paths : List String} (htold : ∀ p ∈ paths, Told disk p) :
    ∃ inputs, findFiles disk paths = .ok inputs := by
  induction paths with
  | nil => exact ⟨[], rfl⟩
  | cons p rest ih =>
    obtain ⟨hp, hrest⟩ := List.forall_mem_cons.1 htold
    obtain ⟨first, hfirst⟩ := exists_expand hp
    obtain ⟨inputs, hinputs⟩ := ih hrest
    exact ⟨first ++ inputs, by rw [findFiles, hfirst, hinputs]; rfl⟩

theorem findFiles_all {paths : List String} (htold : ∀ p ∈ paths, Told disk p)
    (h : ∀ p ∈ paths, ∀ entries, disk (nameOf p) ≠ .ok (.directory entries)) :
    findFiles disk paths = .ok (paths.map (input disk)) := by
  induction paths with
  | nil => rfl
  | cons p rest ih =>
    obtain ⟨hp, hrest⟩ := List.forall_mem_cons.1 h
    obtain ⟨htoldp, htoldrest⟩ := List.forall_mem_cons.1 htold
    rw [findFiles, expand_eq htoldp hp, ih htoldrest hrest]
    rfl

/-- A run over files that were found. -/
theorem runSettings_eq {inputs : List Input} (h : findFiles disk s.paths = .ok inputs)
    (hne : inputs ≠ []) :
    runSettings disk s = (process s inputs).after "" (foundLine inputs.length) := by
  obtain ⟨x, rest, rfl⟩ := List.exists_cons_of_ne_nil hne
  rw [runSettings, h]

/-- The first path of which it cannot be told what it names ends the run, before anything is printed. -/
theorem runSettings_unhandled {before after : List String} {fault : AccessFault}
    (hpaths : s.paths = before ++ path :: after) (htold : ∀ p ∈ before, Told disk p)
    (hdisk : disk (nameOf path) = .error fault) (hfault : fault.isAbsence = false) :
    runSettings disk s = { code := 1, unhandled := some (fault.message (nameOf path)) } := by
  obtain ⟨inputs, hinputs⟩ := exists_findFiles htold
  have hfind : findFiles disk s.paths = .error (fault.message (nameOf path)) := by
    rw [hpaths, findFiles_append hinputs, findFiles, expand_error hdisk hfault]
    rfl
  rw [runSettings, hfind]

theorem run_eq {arguments : List String} (h : readArguments arguments = .ok (.run s)) :
    run disk arguments = runSettings disk s := by
  rw [run, h]

theorem runSettings_all (hd : s.debug = false) {inputs : List Input} {files : List File}
    (hinputs : findFiles disk s.paths = .ok inputs) (hne : inputs ≠ [])
    (h : List.Forall₂ (fun x f => load s x = .ok f) inputs files) :
    runSettings disk s =
      { out := String.join (inputs.map (output s))
        err := foundLine inputs.length ++
          String.join (List.zipWith (fun x f => parsedLine x.1 f) inputs files) } := by
  rw [runSettings_eq hinputs hne, process_all hd h, after_eq, String.empty_append]

theorem runSettings_stop (hd : s.debug = false) {before rest : List Input} {files : List File}
    (hinputs : findFiles disk s.paths = .ok (before ++ x :: rest))
    (h : List.Forall₂ (fun x f => load s x = .ok f) before files) (hx : load s x = .error text) :
    runSettings disk s =
      { code := 1
        out := String.join (before.map (output s))
        err := foundLine (before ++ x :: rest).length ++
          (String.join (List.zipWith (fun x f => parsedLine x.1 f) before files) ++ fatal text) } := by
  rw [runSettings_eq hinputs (List.append_ne_nil_of_right_ne_nil _ (List.cons_ne_nil _ _)),
    process_stop hd h hx, after_eq, String.empty_append]

/-- What a file prints alone is what it adds to a run. -/
theorem out_single (hd : s.debug = false) (hpaths : s.paths = [path])
    (hinputs : findFiles disk [path] = .ok [input disk path])
    (h : load s (input disk path) = .ok f) :
    (runSettings disk s).out = output s (input disk path) := by
  rw [runSettings_all hd (hpaths ▸ hinputs) (List.cons_ne_nil _ _) (.cons h .nil), List.map_singleton,
    String.join_cons]
  exact String.append_empty

end ProtoIdl.Command
