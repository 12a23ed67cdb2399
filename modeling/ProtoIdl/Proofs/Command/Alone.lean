import ProtoIdl.Proofs.Command.Process
import Mathlib.Data.List.Forall2
/-!
# What a file prints alone

`Settings.alone` asks for the same of one path. A file that is parsed adds to a run what it prints so
(`Loads.out_alone`).
-/
namespace ProtoIdl.Command

/-- The path is that of a file that is read and parsed. -/
def Loads (disk : Disk) (s : Settings) (path : String) (f : File) : Prop :=
  ∃ bytes, disk (nameOf path) = .ok (.file bytes) ∧ parse s.options bytes (nameOf path) = .ok f

/-- Arguments that ask for the same of one path. -/
def Settings.alone (s : Settings) (path : String) : List String := { s with paths := [path] }.arguments

variable {disk : Disk} {s : Settings} {path : String} {f : File}

theorem Loads.load_eq (h : Loads disk s path f) : load s (input disk path) = .ok f := by
  obtain ⟨bytes, hdisk, hparse⟩ := h
  refine load_ok_iff.2 ⟨bytes, ?_, hparse⟩
  rw [input, hdisk]
  rfl

theorem Loads.told (h : Loads disk s path f) : Told disk path := by
  obtain ⟨bytes, hdisk, -⟩ := h
  intro fault hfault
  cases hdisk.symm.trans hfault

theorem Loads.not_directory (h : Loads disk s path f) (entries : List (String × Entry)) :
    disk (nameOf path) ≠ .ok (.directory entries) := by
  obtain ⟨bytes, hdisk, -⟩ := h
  rw [hdisk]
  nofun

theorem Settings.Usable.read_alone (h : s.Usable) (path : String) :
    readArguments (s.alone path) = .ok (.run { s with paths := [path] }) :=
  read_arguments ⟨List.cons_ne_nil _ _, h.format⟩

theorem forall₂_load {paths : List String} {files : List File}
    (h : List.Forall₂ (Loads disk s) paths files) :
    List.Forall₂ (fun x f => load s x = .ok f) (paths.map (input disk)) files := by
  rw [List.forall₂_map_left_iff]
  exact h.imp fun _ _ hload => hload.load_eq

theorem exists_files {paths : List String} (h : ∀ p ∈ paths, ∃ f, Loads disk s p f) :
    ∃ files, List.Forall₂ (Loads disk s) paths files := by
  induction paths with
  | nil => exact ⟨[], .nil⟩
  | cons p rest ih =>
    obtain ⟨⟨f, hf⟩, hrest⟩ := List.forall_mem_cons.1 h
    obtain ⟨files, hfiles⟩ := ih hrest
    exact ⟨f :: files, .cons hf hfiles⟩

/-- A file that is parsed prints alone what it adds to a run. -/
theorem Loads.out_alone (hd : s.debug = false) (hs : s.Usable) (h : Loads disk s path f) :
    (run disk (s.alone path)).out = output s (input disk path) := by
  have hinputs : findFiles disk [path] = .ok [input disk path] :=
    findFiles_all (List.forall_mem_singleton.2 h.told) (List.forall_mem_singleton.2 h.not_directory)
  rw [run_eq (hs.read_alone path)]
  exact out_single hd rfl hinputs h.load_eq

theorem join_alone (hd : s.debug = false) (hs : s.Usable) {paths : List String}
    (h : ∀ p ∈ paths, ∃ f, Loads disk s p f) :
    String.join (paths.map fun p => (run disk (s.alone p)).out) =
      String.join ((paths.map (input disk)).map (output s)) := by
  rw [List.map_map]
  congr 1
  refine List.map_congr_left fun p hp => ?_
  obtain ⟨f, hf⟩ := h p hp
  exact hf.out_alone hd hs

theorem loads_of_forall₂ {paths : List String} {files : List File}
    (h : List.Forall₂ (Loads disk s) paths files) : ∀ p ∈ paths, ∃ f, Loads disk s p f := by
  induction h with
  | nil => nofun
  | cons hf _ ih => exact List.forall_mem_cons.2 ⟨⟨_, hf⟩, ih⟩

end ProtoIdl.Command
