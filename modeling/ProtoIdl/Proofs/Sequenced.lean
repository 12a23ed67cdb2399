import ProtoIdl.Proofs.Command.Alone
import ProtoIdl.Proofs.Command.Below
/-!
# Files in the order of the arguments

A run prints what each of its files prints alone, in order, up to the first that cannot be read or
parsed. Of that one nothing is printed but the line that ends the run, and those behind it are not
read. But before a file is read, it is asked of every path whether it is a directory. Where the disk
refuses to tell, nothing is printed at all (`long_name_unhandled`). Main statement: `run_in_order`.
-/
namespace ProtoIdl.Command

/-- What is at the path cannot be read, or is refused by the parser. The text tells why. -/
inductive Fails (disk : Disk) (s : Settings) (path : String) : String → Prop
  | unread {fault : AccessFault} (h : disk (nameOf path) >>= Entry.read = .error fault) :
    Fails disk s path (fault.message (nameOf path))
  | refused {bytes : List UInt8} {e : Failure} (h : disk (nameOf path) = .ok (.file bytes))
    (hparse : parse s.options bytes (nameOf path) = .error e) (hends : e ≠ .outOfRounds) :
    Fails disk s path e.message

/-- The path is not that of a directory, and if a file is there, parsing it ends. -/
structure Ends (disk : Disk) (s : Settings) (path : String) : Prop where
  file : ∀ entries, disk (nameOf path) ≠ .ok (.directory entries)
  ends : ∀ bytes, disk (nameOf path) = .ok (.file bytes) →
    parse s.options bytes (nameOf path) ≠ .error .outOfRounds

variable {disk : Disk} {s : Settings} {path : String} {f : File}

theorem Ends.fails (h : Ends disk s path) (hf : ¬ ∃ f, Loads disk s path f) :
    ∃ text, Fails disk s path text ∧ load s (input disk path) = .error text := by
  cases hread : disk (nameOf path) >>= Entry.read with
  | error fault => exact ⟨_, .unread hread, load_error_iff.2 (.inl ⟨fault, hread, rfl⟩)⟩
  | ok bytes =>
    have hfile : disk (nameOf path) = .ok (.file bytes) := by
      obtain ⟨e, hdisk, he⟩ := exists_ok_of_bind hread
      cases e with
      | file content => rw [hdisk, Except.ok.inj he]
      | unreadable fault => cases he
      | directory entries => cases he
    cases hparse : parse s.options bytes (nameOf path) with
    | ok f => exact absurd ⟨f, bytes, hfile, hparse⟩ hf
    | error e =>
      have hends : e ≠ .outOfRounds := fun he => h.ends bytes hfile (he ▸ hparse)
      exact ⟨_, .refused hfile hparse hends, load_error_iff.2 (.inr ⟨bytes, e, hread, hparse, rfl⟩)⟩

/-- The paths up to one are read alike on disks that agree on them, whatever is behind it. -/
theorem findFiles_split {disk' : Disk} {before after : List String} {p : String}
    (hfiles : ∀ q ∈ before ++ [p], ∀ entries, disk (nameOf q) ≠ .ok (.directory entries))
    (htold : ∀ q ∈ before ++ [p], Told disk q) (hafter : ∀ q ∈ after, Told disk' q)
    (hagree : ∀ q ∈ before ++ [p], disk' (nameOf q) = disk (nameOf q)) :
    ∃ rest, findFiles disk' (before ++ p :: after) =
      .ok (before.map (input disk) ++ input disk p :: rest) := by
  have hup : findFiles disk' (before ++ [p]) = .ok ((before ++ [p]).map (input disk)) := by
    rw [findFiles_all (fun q hq => by rw [Told, hagree q hq]; exact htold q hq)
      fun q hq => hagree q hq ▸ hfiles q hq]
    refine congrArg Except.ok (List.map_congr_left fun q hq => ?_)
    rw [input, input, hagree q hq]
  obtain ⟨rest, hrest⟩ := exists_findFiles hafter
  refine ⟨rest, ?_⟩
  rw [← List.singleton_append, ← List.append_assoc, findFiles_append hup, hrest, List.map_append]
  exact congrArg Except.ok (List.append_assoc ..)

/-- A run without `--debug` over paths of files that parsing ends on. If it can be told of all of them
that they are no directories, and all files are parsed, it prints what they print alone, in order.
Otherwise it prints this of those in front of the first that is not parsed, reports them and why that
one is not, and ends with code 1, whatever the paths behind it are and whatever can be told to be there.
If it cannot be told of some path, the run prints nothing and ends with the fault at the first such. -/
theorem run_in_order (disk : Disk) {arguments : List String} {s : Settings}
    (hs : readArguments arguments = .ok (.run s)) (hdebug : s.debug = false)
    (hends : ∀ p ∈ s.paths, Ends disk s p) :
    (∀ p, readArguments (s.alone p) = .ok (.run { s with paths := [p] })) ∧
    ((∀ p ∈ s.paths, Told disk p) →
      ((∀ p ∈ s.paths, ∃ f, Loads disk s p f) →
        ∃ files, List.Forall₂ (Loads disk s) s.paths files ∧ run disk arguments =
          { out := String.join (s.paths.map fun p => (run disk (s.alone p)).out)
            err := foundLine s.paths.length ++
              String.join (List.zipWith (fun q f => parsedLine (nameOf q) f) s.paths files) }) ∧
      ∀ before files p after, s.paths = before ++ p :: after →
        List.Forall₂ (Loads disk s) before files → (¬ ∃ f, Loads disk s p f) →
        ∃ text, Fails disk s p text ∧ run disk arguments =
          { code := 1
            out := String.join (before.map fun q => (run disk (s.alone q)).out)
            err := foundLine s.paths.length ++
              String.join (List.zipWith (fun q f => parsedLine (nameOf q) f) before files) ++
              fatal text } ∧
          ∀ disk' arguments' after',
            readArguments arguments' = .ok (.run { s with paths := before ++ p :: after' }) →
            (∀ q ∈ before ++ [p], disk' (nameOf q) = disk (nameOf q)) →
            (∀ q ∈ after', Told disk' q) →
            (run disk' arguments').code = 1 ∧ (run disk' arguments').out = (run disk arguments).out) ∧
    ∀ before p after fault, s.paths = before ++ p :: after → (∀ q ∈ before, Told disk q) →
      disk (nameOf p) = .error fault → fault.isAbsence = false →
      run disk arguments = { code := 1, unhandled := some (fault.message (nameOf p)) } := by
  have husable := usable_of_read hs
  have hfiles : ∀ p ∈ s.paths, ∀ entries, disk (nameOf p) ≠ .ok (.directory entries) :=
    fun p hp => (hends p hp).file
  have hlines (paths : List String) (files : List File) :
      List.zipWith (fun x f => parsedLine x.1 f) (paths.map (input disk)) files =
        List.zipWith (fun q f => parsedLine (nameOf q) f) paths files := List.zipWith_map_left ..
  rw [run_eq hs]
  refine ⟨husable.read_alone, fun htold => ⟨fun hall => ?_, fun before files p after hpaths hbefore hp => ?_⟩,
    fun before p after fault hpaths htold hdisk hfault =>
      runSettings_unhandled hpaths htold hdisk hfault⟩
  · obtain ⟨files, hload⟩ := exists_files hall
    refine ⟨files, hload, ?_⟩
    rw [runSettings_all hdebug (findFiles_all htold hfiles) (List.map_eq_nil_iff.not.2 husable.paths)
      (forall₂_load hload), join_alone hdebug husable hall, List.length_map, hlines]
  · have hmem : ∀ q ∈ before ++ [p], q ∈ s.paths := by
      intro q hq
      rw [hpaths, ← List.singleton_append, ← List.append_assoc]
      exact List.mem_append_left _ hq
    have hup : ∀ q ∈ before ++ [p], ∀ entries, disk (nameOf q) ≠ .ok (.directory entries) :=
      fun q hq => hfiles q (hmem q hq)
    have hknown : ∀ q ∈ before ++ [p], Told disk q := fun q hq => htold q (hmem q hq)
    have hafter : ∀ q ∈ after, Told disk q := fun q hq => htold q (by rw [hpaths]; simp [hq])
    obtain ⟨text, hfails, htext⟩ := (hends p (hmem p (by simp))).fails hp
    have hload := forall₂_load hbefore
    obtain ⟨rest, hrest⟩ := findFiles_split hup hknown hafter fun _ _ => rfl
    have hinputs := findFiles_all htold hfiles
    rw [hpaths, hrest] at hinputs
    rw [runSettings_stop hdebug (hpaths ▸ hrest) hload htext, Except.ok.inj hinputs, List.length_map, hlines,
      join_alone hdebug husable (loads_of_forall₂ hbefore)]
    refine ⟨text, hfails, ?_, fun disk' arguments' after' hs' hagree htold' => ?_⟩
    · rw [hpaths, String.append_assoc]
    · -- the settings differ in the paths behind `p` only
      obtain ⟨rest', hrest'⟩ := findFiles_split hup hknown htold' hagree
      rw [run_eq hs', runSettings_stop (s := { s with paths := before ++ p :: after' }) hdebug hrest' hload
        htext]
      exact ⟨rfl, rfl⟩

/-- The second of three files is missing. -/
theorem run_in_order_sample :
    let disk : Disk := fun name =>
      if name = "a.proto" then .ok (.file (Utf8.encode "message A \x7b\x7d".toList)) else .error .noSuchFile
    let s : Settings := { paths := ["a.proto", "b.proto", "c.proto"], format := .outline }
    readArguments ["--format", "outline", "a.proto", "b.proto", "c.proto"] = .ok (.run s) ∧
    ∃ f, Loads disk s "a.proto" f ∧ Fails disk s "b.proto" (AccessFault.noSuchFile.message "b.proto") ∧
      run disk ["--format", "outline", "a.proto", "b.proto", "c.proto"] =
        { code := 1
          out := String.join [(run disk ["--format=outline", "--", "a.proto"]).out]
          err := foundLine 3 ++ String.join [parsedLine "a.proto" f] ++
            fatal (AccessFault.noSuchFile.message "b.proto") } := by
  intro disk s
  have hs : readArguments ["--format", "outline", "a.proto", "b.proto", "c.proto"] = .ok (.run s) := rfl
  have hfile : disk (nameOf "a.proto") = .ok (.file (Utf8.encode "message A \x7b\x7d".toList)) := rfl
  have hmissing : disk (nameOf "b.proto") = .error .noSuchFile := rfl
  have hparse : (parse s.options (Utf8.encode "message A \x7b\x7d".toList) (nameOf "a.proto")).toOption.any
      (fun f => decide (f.body.length = 1)) = true := by decide +kernel
  obtain ⟨f, hf, -⟩ := exists_ok hparse
  have hdisk (p : String) : disk (nameOf p) = .ok (.file (Utf8.encode "message A \x7b\x7d".toList)) ∨
      disk (nameOf p) = .error .noSuchFile := by
    by_cases hp : nameOf p = "a.proto"
    · exact .inl (if_pos hp)
    · exact .inr (if_neg hp)
  have hends : ∀ p ∈ s.paths, Ends disk s p := by
    intro p _
    rcases hdisk p with hp | hp
    · refine ⟨by rw [hp]; nofun, fun bytes hbytes => ?_⟩
      obtain rfl : Utf8.encode _ = bytes := Entry.file.inj (Except.ok.inj (hp.symm.trans hbytes))
      exact parse_ne_outOfRounds _ _ _
    · exact ⟨by rw [hp]; nofun, by rw [hp]; nofun⟩
  have htold : ∀ p ∈ s.paths, Told disk p := by
    intro p _ fault hfault
    rcases hdisk p with hp | hp
    · cases hp.symm.trans hfault
    · obtain rfl := Except.error.inj (hp.symm.trans hfault)
      rfl
  have hno : ¬ ∃ f, Loads disk s "b.proto" f := by
    rintro ⟨g, bytes, hg, -⟩
    rw [hmissing] at hg
    cases hg
  obtain ⟨-, hread, -⟩ := run_in_order disk hs rfl hends
  obtain ⟨text, hfails, hrun, -⟩ := (hread htold).2 ["a.proto"] [f] "b.proto" ["c.proto"] rfl
    (.cons ⟨_, hfile, hf⟩ .nil) hno
  cases hfails with
  | refused h => cases hmissing.symm.trans h
  | unread h =>
    obtain rfl := Except.error.inj ((congrArg (· >>= Entry.read) hmissing).symm.trans h)
    exact ⟨hs, f, ⟨_, hfile, hf⟩, .unread (congrArg (· >>= Entry.read) hmissing), hrun⟩

/-- Of a name that is too long for any entry it cannot be told what it names. -/
theorem disk_long {t : FileTree} {entries : List (String × Entry)} {name : String}
    (hhere : t.find {} = .ok (.directory entries)) (hname : IsName name) (hup : name ≠ "..")
    (hnew : entries.lookup name = none) (hlong : 255 < name.utf8ByteSize) :
    nameOf name = name ∧ t.disk name = .error .nameTooLong := by
  have hread := Path.ofString_of_isName hname
  constructor
  · rw [nameOf, hread, Path.render, if_neg (by simp), String.empty_append, String.intercalate_singleton]
  · obtain ⟨above, hrest⟩ := Entry.follow_append hhere
    have hfind : t.find { names := [name] } = Entry.follow above (.directory entries) [name] := by
      rw [← hrest [name], FileTree.find, if_pos rfl, if_pos rfl, List.append_nil]
    rw [FileTree.disk, hread, hfind, Entry.follow.eq_def]
    simp only [hup, ↓reduceIte, Entry.child?, hnew, Entry.missing, hlong]

/-- A name that is too long ends a run before it prints what stands in front, and without a line that
tells why. -/
theorem long_name_unhandled :
    let bytes := Utf8.encode "message A \x7b\x7d".toList
    let tree : FileTree := { root := .directory [("ok.proto", .file bytes)] }
    let long := String.ofList (List.replicate 300 'a') ++ ".proto"
    let s : Settings := { paths := ["ok.proto", long] }
    readArguments ["ok.proto", long] = .ok (.run s) ∧ (∀ p ∈ s.paths, Ends tree.disk s p) ∧
    (∃ f, Loads tree.disk s "ok.proto" f) ∧ (run tree.disk (s.alone "ok.proto")).out ≠ "" ∧
    tree.disk (nameOf long) = .error .nameTooLong ∧
    run tree.disk ["ok.proto", long] =
      { code := 1, unhandled := some (AccessFault.nameTooLong.message long) } := by
  intro bytes tree long s
  have hchars : long.toList = List.replicate 300 'a' ++ ".proto".toList := by
    rw [String.toList_append, String.toList_ofList]
  have hhead : long.toList.head? = some 'a' := by
    rw [hchars]
    decide
  have hne {other : String} (h : other.toList.head? ≠ some 'a') : long ≠ other :=
    fun heq => h (heq ▸ hhead)
  have hslash : '/' ∉ long.toList := by
    rw [hchars, List.mem_append, List.mem_replicate]
    decide
  have hname : IsName long := ⟨hne (by decide), hne (by decide), hslash⟩
  have hs : readArguments ["ok.proto", long] = .ok (.run s) := by
    refine read_paths (List.cons_ne_nil _ _) (List.forall_mem_cons.2 ⟨by decide, ?_⟩)
    refine List.forall_mem_singleton.2 ?_
    rw [hhead]
    decide
  have hnew : [("ok.proto", Entry.file bytes)].lookup long = none := by
    rw [List.lookup_cons, beq_eq_false_iff_ne.2 (hne (by decide))]
    rfl
  have hlength : 255 < long.utf8ByteSize := by decide +kernel
  have hhere : tree.find {} = .ok (.directory [("ok.proto", .file bytes)]) := rfl
  obtain ⟨hspelled, hlong⟩ := disk_long hhere hname (hne (by decide)) hnew hlength
  rw [← hspelled] at hlong
  have hfile : tree.disk (nameOf "ok.proto") = .ok (.file bytes) := rfl
  have hparse : (parse s.options bytes (nameOf "ok.proto")).toOption.any
      (fun f => decide (f.body.length = 1)) = true := by decide +kernel
  obtain ⟨f, hf, -⟩ := exists_ok hparse
  have hends : ∀ p ∈ s.paths, Ends tree.disk s p := by
    refine List.forall_mem_cons.2 ⟨⟨by rw [hfile]; nofun, fun content hcontent => ?_⟩,
      List.forall_mem_singleton.2 ?_⟩
    · obtain rfl : bytes = content := Entry.file.inj (Except.ok.inj (hfile.symm.trans hcontent))
      exact parse_ne_outOfRounds _ _ _
    · exact ⟨by rw [hlong]; nofun, by rw [hlong]; nofun⟩
  have hrun : run tree.disk ["ok.proto", long] =
      { code := 1, unhandled := some (AccessFault.nameTooLong.message (nameOf long)) } := by
    rw [run_eq hs]
    have hpaths : s.paths = ["ok.proto"] ++ long :: [] := rfl
    exact runSettings_unhandled hpaths
      (List.forall_mem_singleton.2 (Loads.told ⟨_, hfile, hf⟩)) hlong rfl
  have hout : (run tree.disk (s.alone "ok.proto")).out ≠ "" := by decide +kernel
  rw [hspelled] at hrun
  exact ⟨hs, hends, ⟨f, _, hfile, hf⟩, hout, hlong, hrun⟩

end ProtoIdl.Command
