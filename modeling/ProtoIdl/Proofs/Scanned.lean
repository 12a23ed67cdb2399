import ProtoIdl.Proofs.Command.Alone
import ProtoIdl.Proofs.Command.Below
/-!
# What is found in a directory

A directory stands for all that is below it with a source name, each once and in the order of the paths
(`Entry.Found`). That may be a directory, which cannot be read: so the run succeeds just if all that is
found can be, and ends at the first that cannot otherwise. Main statement: `directory_scanned`.
-/
namespace ProtoIdl.Command

variable {t : FileTree} {e : Entry} {entries : List (String × Entry)} {d : String} {s : Settings}
  {y : String × Entry} {path : String}

open Entry (Found WellNamed sources)

/-- What is found is what its path names. -/
theorem Found.disk_eq (hd : t.find (Path.ofString d) = .ok e) (he : e.WellNamed)
    (hy : Found (Path.ofString d) e y) : nameOf y.1 = y.1 ∧ t.disk y.1 = .ok y.2 := by
  obtain ⟨names, -, hbelow, hpath⟩ := hy
  have hnames := fun n hn => (he.isName hbelow n hn).1
  have hread : Path.ofString y.1 = (Path.ofString d).descend names := by
    rw [← hpath, ((Path.ofString_isNormal d).descend hnames).ofString_render]
  constructor
  · rw [nameOf, hread, hpath]
  · rw [FileTree.disk, hread]
    exact Entry.find_below hd he hbelow

theorem findFiles_directory (hd : t.find (Path.ofString d) = .ok (.directory entries))
    (he : (Entry.directory entries).WellNamed) : findFiles t.disk [d] =
      .ok (((sources (Path.ofString d) (.directory entries)).map (·.1)).map (input t.disk)) := by
  have hdisk : t.disk (Path.ofString d).render = .ok (.directory entries) := by
    rw [FileTree.disk, (Path.ofString_isNormal d).ofString_render, hd]
  have hexpand : expand t.disk d =
      .ok (((sources (Path.ofString d) (.directory entries)).map (·.1)).map (input t.disk)) := by
    rw [expand, hdisk, List.map_map]
    refine congrArg Except.ok (List.map_congr_left fun y hy => ?_)
    obtain ⟨hname, hfile⟩ := Found.disk_eq hd he (Entry.mem_sources.1 hy)
    rw [Function.comp_apply, input, hname, hfile]
    rfl
  rw [findFiles, hexpand]
  exact congrArg Except.ok (List.append_nil _)

/-- A file that is found and can be parsed is one that a run can do. -/
theorem Found.loads (hd : t.find (Path.ofString d) = .ok e) (he : e.WellNamed) {bytes : List UInt8}
    (hy : Found (Path.ofString d) e (path, .file bytes)) {f : File}
    (hf : parse s.options bytes path = .ok f) : Loads t.disk s path f := by
  obtain ⟨hname, hfile⟩ := Found.disk_eq hd he hy
  exact ⟨bytes, by rw [hname, hfile], by rw [hname, hf]⟩

/-- What is found is reported under its path. -/
theorem zipWith_parsedLine (hd : t.find (Path.ofString d) = .ok e) (he : e.WellNamed)
    {ys : List (String × Entry)} (hys : ∀ y ∈ ys, Found (Path.ofString d) e y) (files : List File) :
    List.zipWith (fun x f => parsedLine x.1 f) ((ys.map (·.1)).map (input t.disk)) files =
      List.zipWith parsedLine (ys.map (·.1)) files := by
  have hnames : ((ys.map (·.1)).map (input t.disk)).map (·.1) = ys.map (·.1) := by
    rw [List.map_map, List.map_map]
    exact List.map_congr_left fun y hy => (Found.disk_eq hd he (hys y hy)).1
  rw [← List.zipWith_map_left, hnames]

theorem load_unread (hd : t.find (Path.ofString d) = .ok e) (he : e.WellNamed) {x : Entry}
    {fault : AccessFault} (hy : Found (Path.ofString d) e (path, x)) (hx : x.read = .error fault) :
    load s (input t.disk path) = .error (fault.message path) := by
  obtain ⟨hname, hfile⟩ := Found.disk_eq hd he hy
  refine load_error_iff.2 (.inl ⟨fault, ?_, ?_⟩)
  · rw [input, hname, hfile]
    exact hx
  · rw [input, hname]

/-- A run over a directory in which some file has a source name, and all that do can be parsed. What it
finds is all that has such a name, in the order of the paths. If these are files, it prints what they
print alone. If some cannot be read, such as a directory, it ends at the first of these, with code 1. -/
theorem directory_scanned {arguments : List String} (hs : readArguments arguments = .ok (.run s))
    (hpaths : s.paths = [d]) (hdebug : s.debug = false)
    (hd : t.find (Path.ofString d) = .ok (.directory entries))
    (hnamed : (Entry.directory entries).WellNamed)
    (hsome : ∃ path bytes, Found (Path.ofString d) (.directory entries) (path, .file bytes))
    (hparse : ∀ path bytes, Found (Path.ofString d) (.directory entries) (path, .file bytes) →
      ∃ f, parse s.options bytes path = .ok f) :
    ∃ found : List (String × Entry),
      (∀ y, y ∈ found ↔ Found (Path.ofString d) (.directory entries) y) ∧
      found.Pairwise (fun x y => x.1 < y.1) ∧
      ((∀ y ∈ found, ∃ bytes, y.2 = .file bytes) → (run t.disk arguments).code = 0 ∧
        (run t.disk arguments).out =
          String.join (found.map fun y => (run t.disk (s.alone y.1)).out)) ∧
      ∀ before path x fault after, found = before ++ (path, x) :: after →
        (∀ y ∈ before, ∃ bytes, y.2 = .file bytes) → x.read = .error fault →
          (run t.disk arguments).code = 1 ∧
          (run t.disk arguments).out =
            String.join (before.map fun y => (run t.disk (s.alone y.1)).out) ∧
          ∃ files, List.Forall₂ (Loads t.disk s) (before.map (·.1)) files ∧
            (run t.disk arguments).err = foundLine found.length ++
              String.join (List.zipWith parsedLine (before.map (·.1)) files) ++
              fatal (fault.message path) := by
  have husable := usable_of_read hs
  have hinputs : findFiles t.disk s.paths =
      .ok (((sources (Path.ofString d) (.directory entries)).map (·.1)).map (input t.disk)) := by
    rw [hpaths, findFiles_directory hd hnamed]
  have hpairwise := Entry.sources_pairwise (Path.ofString_isNormal d) hnamed
  have hmem (y : String × Entry) : y ∈ sources (Path.ofString d) (.directory entries) ↔
      Found (Path.ofString d) (.directory entries) y := Entry.mem_sources
  generalize sources (Path.ofString d) (.directory entries) = found at hinputs hpairwise hmem
  have hloads {ys : List (String × Entry)} (hsub : ys ⊆ found)
      (hfiles : ∀ y ∈ ys, ∃ bytes, y.2 = .file bytes) :
      ∀ p ∈ ys.map (·.1), ∃ f, Loads t.disk s p f := by
    refine List.forall_mem_map.2 fun y hy => ?_
    obtain ⟨bytes, hbytes⟩ := hfiles y hy
    have hfound := (hmem y).1 (hsub hy)
    rw [show y = (y.1, .file bytes) from Prod.ext rfl hbytes] at hfound
    exact (hparse y.1 bytes hfound).imp fun f hf => Found.loads hd hnamed hfound hf
  rw [run_eq hs]
  refine ⟨found, hmem, hpairwise, fun hfiles => ?_, fun before path x fault after hfound hfiles hx => ?_⟩
  · have hall := hloads (List.Subset.refl _) hfiles
    obtain ⟨files, hload⟩ := exists_files hall
    have hne : found ≠ [] := by
      obtain ⟨path, bytes, hy⟩ := hsome
      exact List.ne_nil_of_mem ((hmem _).2 hy)
    rw [runSettings_all hdebug hinputs (by simpa using hne) (forall₂_load hload)]
    refine ⟨rfl, (join_alone hdebug husable hall).symm.trans ?_⟩
    rw [List.map_map]
    rfl
  · subst hfound
    have hall := hloads (List.subset_append_left _ _) hfiles
    obtain ⟨files, hload⟩ := exists_files hall
    have hunread := (hmem (path, x)).1 (by simp)
    rw [List.map_append, List.map_cons, List.map_append, List.map_cons] at hinputs
    rw [runSettings_stop hdebug hinputs (forall₂_load hload) (load_unread hd hnamed hunread hx)]
    refine ⟨rfl, ?_, files, hload, ?_⟩
    · rw [← join_alone hdebug husable hall, List.map_map]
      rfl
    · have hbefore : ∀ y ∈ before, Found (Path.ofString d) (.directory entries) y :=
        fun y hy => (hmem y).1 (List.mem_append_left _ hy)
      rw [zipWith_parsedLine hd hnamed hbefore, String.append_assoc]
      simp only [List.length_append, List.length_map, List.length_cons]

/-- Files at two depths, and a directory of another name. The path begins at the root. -/
theorem directory_scanned_sample :
    let bytes := Utf8.encode "message A \x7b\x7d".toList
    let inner : Entry := .directory [("b", .directory [("c.proto", .file bytes)]), ("a.proto", .file bytes)]
    let tree : FileTree := { root := .directory [("r", .directory [("d", inner)])], here := ["r"] }
    readArguments ["/r/d"] = .ok (.run { paths := ["/r/d"] }) ∧ tree.find (Path.ofString "/r/d") = .ok inner ∧
    (run tree.disk ["/r/d"]).code = 0 ∧ ∃ found : List (String × Entry),
      (∀ y, y ∈ found ↔ Found (Path.ofString "/r/d") inner y) ∧ found.Pairwise (fun x y => x.1 < y.1) ∧
      (run tree.disk ["/r/d"]).out =
        String.join (found.map fun y => (run tree.disk ["--format=json", "--", y.1]).out) := by
  intro bytes inner tree
  have hs : readArguments ["/r/d"] = .ok (.run { paths := ["/r/d"] }) := rfl
  have hd : tree.find (Path.ofString "/r/d") = .ok inner := rfl
  have hsources : Entry.sourcesBelow (Path.ofString "/r/d") inner =
      [("/r/d/b/c.proto", .file bytes), ("/r/d/a.proto", .file bytes)] := rfl
  have hfound (y : String × Entry) : Found (Path.ofString "/r/d") inner y ↔ _ :=
    (Entry.mem_sourcesBelow _ _ _).symm
  rw [hsources] at hfound
  have hnamed : inner.WellNamed := by
    have hb : (Entry.directory [("c.proto", .file bytes)]).WellNamed :=
      Entry.wellNamed_directory (by simp) (by simp; decide) (by simp [Entry.wellNamed_leaf])
    exact Entry.wellNamed_directory (by simp) (by simp; decide) (by simp [hb, Entry.wellNamed_leaf])
  have ha : (parse {} bytes "/r/d/a.proto").toOption.any (fun f => f.body.length == 1) = true := by
    decide +kernel
  have hc : (parse {} bytes "/r/d/b/c.proto").toOption.any (fun f => f.body.length == 1) = true := by
    decide +kernel
  have hparse (path : String) (content : List UInt8)
      (h : Found (Path.ofString "/r/d") inner (path, .file content)) : ∃ f, parse {} content path = .ok f := by
    have hpath : path = "/r/d/b/c.proto" ∧ content = bytes ∨ path = "/r/d/a.proto" ∧ content = bytes := by
      simpa using (hfound _).1 h
    rcases hpath with ⟨rfl, rfl⟩ | ⟨rfl, rfl⟩
    · exact (exists_ok hc).imp fun _ h => h.1
    · exact (exists_ok ha).imp fun _ h => h.1
  have hsome : ∃ path content, Found (Path.ofString "/r/d") inner (path, .file content) :=
    ⟨"/r/d/a.proto", bytes, (hfound _).2 (by simp)⟩
  obtain ⟨found, hmem, hpairwise, hfiles, -⟩ := directory_scanned hs rfl rfl hd hnamed hsome hparse
  have hall : ∀ y ∈ found, ∃ content, y.2 = .file content := by
    intro y hy
    have hy := (hfound y).1 ((hmem y).1 hy)
    rcases List.mem_pair.1 hy with rfl | rfl <;> exact ⟨bytes, rfl⟩
  exact ⟨hs, hd, (hfiles hall).1, found, hmem, hpairwise, (hfiles hall).2⟩

/-- A directory with the name of a source file ends a run, though all files are parsed. -/
theorem directory_named_as_source :
    let bytes := Utf8.encode "syntax = \"proto3\";".toList
    let inner : Entry := .directory [("a.proto", .file bytes), ("x.proto", .directory [])]
    let tree : FileTree := { root := .directory [("r", .directory [("d", inner)])], here := ["r"] }
    readArguments ["d"] = .ok (.run { paths := ["d"] }) ∧ tree.find (Path.ofString "d") = .ok inner ∧
    (∀ path content, Found (Path.ofString "d") inner (path, .file content) ↔
      path = "d/a.proto" ∧ content = bytes) ∧
    (∃ f, parse {} bytes "d/a.proto" = .ok f) ∧
    (run tree.disk ["d"]).code = 1 ∧
    (run tree.disk ["d"]).err = "Found 2 proto file(s)\n" ++
      "  Parsed d/a.proto: 0 message(s), 0 enum(s), 0 service(s), 0 rpc(s)\n" ++
      "FATAL: [Errno 21] Is a directory: 'd/x.proto'\n" := by
  intro bytes inner tree
  have hsources : Entry.sourcesBelow (Path.ofString "d") inner =
      [("d/a.proto", .file bytes), ("d/x.proto", .directory [])] := rfl
  have hparse : (parse {} bytes "d/a.proto").toOption.any (fun f => f.version.isSome) = true := by
    decide +kernel
  obtain ⟨f, hf, -⟩ := exists_ok hparse
  have hrun : (run tree.disk ["d"]).code = 1 ∧ (run tree.disk ["d"]).err = "Found 2 proto file(s)\n" ++
      "  Parsed d/a.proto: 0 message(s), 0 enum(s), 0 service(s), 0 rpc(s)\n" ++
      "FATAL: [Errno 21] Is a directory: 'd/x.proto'\n" := by
    decide +kernel
  refine ⟨rfl, rfl, fun path content => ?_, ⟨f, hf⟩, hrun⟩
  rw [← Entry.mem_sourcesBelow, hsources]
  simp

end ProtoIdl.Command
