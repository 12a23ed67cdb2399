import ProtoIdl.Command.Arguments
/-!
# Settings and the arguments that ask for them

`Settings.arguments` writes settings out, and they are read back from there (`read_arguments`). Settings
that are read, from whatever arguments, have a path, and an unordered view in the default format only
(`usable_of_read`).
-/
namespace ProtoIdl.Command

/-- Settings that a run can have. -/
structure Settings.Usable (s : Settings) : Prop where
  paths : s.paths ≠ []
  format : s.unordered = true → s.format = .json

/-- The value that names a format. -/
def Format.word : Format → String
  | .json => "json"
  | .outline => "outline"
  | .unnamed => "--"

/-- The flags without a value, each in one spelling. -/
def switches : List (String × Flag) :=
  [("--permissive", .permissive), ("--body-including-comments", .keepComments),
   ("--unordered", .unordered), ("--debug", .debug)]

/-- Whether a flag without a value is set. -/
def Settings.sets (s : Settings) : Flag → Bool
  | .permissive => s.permissive
  | .keepComments => s.keepComments
  | .unordered => s.unordered
  | .debug => s.debug
  | .help | .format => false

/-- The flags that are set. -/
def Settings.flags (s : Settings) : List (String × Flag) := switches.filter fun x => s.sets x.2

/-- Arguments that ask for settings. -/
def Settings.arguments (s : Settings) : List String :=
  ("--format=" ++ s.format.word) :: (s.flags.map (·.1) ++ "--" :: s.paths)

variable {s : Settings}

/-! ## Reading what was written -/

theorem classifyAll_cons {argument : String} {kind : ArgumentKind} {rest : List String}
    {kinds : List (String × ArgumentKind)} (hne : argument ≠ "--") (hkind : classify argument = .ok kind)
    (hrest : classifyAll rest = .ok kinds) :
    classifyAll (argument :: rest) = .ok ((argument, kind) :: kinds) := by
  rw [classifyAll, if_neg hne, hkind, hrest]
  rfl

theorem classifyAll_flags {flags : List (String × Flag)} {rest : List String}
    {kinds : List (String × ArgumentKind)}
    (hflags : ∀ x ∈ flags, x.1 ≠ "--" ∧ classify x.1 = .ok (.flag x.2 none))
    (hrest : classifyAll rest = .ok kinds) :
    classifyAll (flags.map (·.1) ++ rest) =
      .ok (flags.map (fun x => (x.1, .flag x.2 none)) ++ kinds) := by
  induction flags with
  | nil => exact hrest
  | cons x flags ih =>
    obtain ⟨⟨hne, hkind⟩, hall⟩ := List.forall_mem_cons.1 hflags
    exact classifyAll_cons hne hkind (ih hall)

theorem classifyAll_separator (paths : List String) :
    classifyAll ("--" :: paths) = .ok (("--", .separator) :: paths.map fun p => (p, .path)) := rfl

/-- A flag that is a switch is set. -/
theorem gather_flags {flags : List (String × Flag)} (hflags : ∀ x ∈ flags, x.2 ≠ .help ∧ x.2 ≠ .format)
    (rest : List (String × ArgumentKind)) (g : Gathered) :
    gather (flags.map (fun x => (x.1, .flag x.2 none)) ++ rest) g =
      gather rest (flags.foldl (fun g x => Gathered.switch x.2 g) g) := by
  induction flags generalizing g with
  | nil => rfl
  | cons x flags ih =>
    obtain ⟨⟨hhelp, hformat⟩, hall⟩ := List.forall_mem_cons.1 hflags
    obtain ⟨spelling, f⟩ := x
    rw [List.map_cons, List.cons_append, List.foldl_cons, ← ih hall]
    cases f with
    | help => exact absurd rfl hhelp
    | format => exact absurd rfl hformat
    | _ => rfl

theorem gather_paths (paths : List String) (g : Gathered) :
    gather (paths.map fun p => (p, .path)) g = (paths.foldl Gathered.addPath g).finish := by
  induction paths generalizing g with
  | nil => rfl
  | cons p rest ih => exact ih (g.addPath p)

/-- A path is taken unless a flag has ended the paths. -/
theorem addPath_eq {g : Gathered} (h : g.phase ≠ .behind) (p : String) :
    g.addPath p =
      { g with
        phase := .within
        settings := { g.settings with paths := g.settings.paths ++ [p] } } := by
  unfold Gathered.addPath
  split
  · contradiction
  · rfl

theorem foldl_addPath (p : String) (paths : List String) {g : Gathered} (h : g.phase ≠ .behind) :
    (p :: paths).foldl Gathered.addPath g =
      { g with
        phase := .within
        settings := { g.settings with paths := g.settings.paths ++ p :: paths } } := by
  induction paths generalizing p g with
  | nil => exact addPath_eq h p
  | cons q rest ih =>
    rw [List.foldl_cons, addPath_eq h, ih q (show Phase.within ≠ .behind by decide)]
    simp only [List.append_assoc, List.cons_append, List.nil_append]

theorem switches_read : ∀ x ∈ switches,
    (x.1 ≠ "--" ∧ classify x.1 = .ok (.flag x.2 none)) ∧ x.2 ≠ .help ∧ x.2 ≠ .format := by
  simp only [switches, List.forall_mem_cons]
  exact ⟨⟨⟨by decide, rfl⟩, by decide⟩, ⟨⟨by decide, rfl⟩, by decide⟩, ⟨⟨by decide, rfl⟩, by decide⟩,
    ⟨⟨by decide, rfl⟩, by decide⟩, nofun⟩

theorem format_read (f : Format) : "--format=" ++ f.word ≠ "--" ∧
    classify ("--format=" ++ f.word) = .ok (.flag .format (some f.word)) := by
  cases f <;> exact ⟨by decide, rfl⟩

theorem gather_separator {g : Gathered} (h : g.phase ≠ .behind) (rest : List (String × ArgumentKind)) :
    gather (("--", .separator) :: rest) g = gather rest g := by
  rw [gather, Gathered.addSeparator, if_neg h]

theorem gather_format (f : Format) (argument : String) (rest : List (String × ArgumentKind)) :
    gather ((argument, .flag .format (some f.word)) :: rest) {} =
      gather rest { settings := { format := f } } := by
  cases f <;> rfl

theorem foldl_switch (s : Settings) :
    s.flags.foldl (fun g x => Gathered.switch x.2 g) { settings := { format := s.format } } =
      { settings := { s with paths := [] } } := by
  obtain ⟨_, _, permissive, keepComments, unordered, debug⟩ := s
  cases permissive <;> cases keepComments <;> cases unordered <;> cases debug <;> rfl

theorem finish_eq (h : s.Usable) : Gathered.finish { settings := s, phase := .within } = .ok (.run s) := by
  have hvalid : (s.unordered && s.format != .json) = false := by
    cases hu : s.unordered with
    | false => rfl
    | true => rw [h.format hu]; rfl
  rw [Gathered.finish, hvalid]
  rfl

/-- Settings are read from the arguments that ask for them. -/
theorem read_arguments (h : s.Usable) : readArguments s.arguments = .ok (.run s) := by
  have hflags : ∀ x ∈ s.flags, _ := fun x hx => switches_read x (List.mem_filter.1 hx).1
  obtain ⟨hne, hformat⟩ := format_read s.format
  have hkinds := classifyAll_cons hne hformat
    (classifyAll_flags (fun x hx => (hflags x hx).1) (classifyAll_separator s.paths))
  obtain ⟨p, paths, hpaths⟩ := List.exists_cons_of_ne_nil h.paths
  rw [readArguments, Settings.arguments, hkinds]
  refine (gather_format s.format ("--format=" ++ s.format.word) _).trans ?_
  rw [gather_flags fun x hx => (hflags x hx).2, foldl_switch,
    gather_separator (show Phase.before ≠ .behind by decide), gather_paths, hpaths,
    foldl_addPath p paths (show Phase.before ≠ .behind by decide), ← finish_eq h]
  simp only [List.nil_append, ← hpaths]

/-- What does not look like a flag is a path. -/
theorem classify_path {argument : String} (h : argument.toList.head? ≠ some '-') :
    classify argument = .ok .path := by
  unfold classify
  cases hchars : argument.toList with
  | nil => rfl
  | cons c rest =>
    have hc : c ≠ '-' := fun hc => h (by rw [hchars, hc, List.head?_cons])
    dsimp only
    split
    · rfl
    · next heq => exact absurd (List.cons.inj heq).1 hc
    · next heq => exact absurd (List.cons.inj heq).1 hc
    · rfl

/-- Paths that do not look like flags need no others around them. -/
theorem read_paths {paths : List String} (hne : paths ≠ [])
    (h : ∀ p ∈ paths, p.toList.head? ≠ some '-') : readArguments paths = .ok (.run { paths }) := by
  have hkinds : classifyAll paths = .ok (paths.map fun p => (p, .path)) := by
    clear hne
    induction paths with
    | nil => rfl
    | cons p rest ih =>
      obtain ⟨hp, hrest⟩ := List.forall_mem_cons.1 h
      have hseparator : p ≠ "--" := by
        rintro rfl
        exact hp rfl
      exact classifyAll_cons hseparator (classify_path hp) (ih hrest)
  obtain ⟨p, rest, rfl⟩ := List.exists_cons_of_ne_nil hne
  rw [readArguments, hkinds]
  refine (gather_paths (p :: rest) {}).trans ?_
  rw [foldl_addPath p rest (show Phase.before ≠ .behind by decide)]
  rfl

/-! ## What is read is usable -/

/-- There are paths once they have begun. -/
def Gathered.Sound (g : Gathered) : Prop := g.phase ≠ .before → g.settings.paths ≠ []

namespace Gathered.Sound

variable {g g' : Gathered}

theorem close (h : g.Sound) : g.close.Sound := by
  intro hphase
  refine h fun hbefore => hphase ?_
  rw [Gathered.close, if_pos hbefore]

theorem switch (h : g.Sound) (f : Flag) : (g.switch f).Sound := by
  cases f <;> exact h.close

theorem setFormat (h : g.Sound) {value : String} (hset : g.setFormat value = .ok g') : g'.Sound := by
  unfold Gathered.setFormat at hset
  split at hset
  all_goals
    first
    | exact Except.ok.inj hset ▸ h.close
    | cases hset

theorem addPath (h : g.Sound) (p : String) : (g.addPath p).Sound := by
  unfold Gathered.addPath
  split
  · exact h
  · intro _
    simp

/-- An argument that has no use ends the paths. -/
theorem addExtra (h : g.Sound) (argument : String) : (g.close.addExtra argument).Sound := h.close

theorem addSeparator (h : g.Sound) : g.addSeparator.Sound := by
  unfold Gathered.addSeparator
  split <;> exact h

theorem finish (h : g.Sound) (hrun : g.finish = .ok (.run s)) : s.Usable := by
  unfold Gathered.finish at hrun
  split at hrun
  · cases hrun
  · next hphase =>
    split at hrun
    · cases hrun
    · split at hrun
      · cases hrun
      · next hvalid =>
        obtain rfl : g.settings = s := by injection hrun with hrun; injection hrun
        refine ⟨h hphase, fun hu => ?_⟩
        simpa [hu] using hvalid

end Gathered.Sound

theorem bundle_ne_run (value : String) : bundle value ≠ .ok (.run s) := by
  intro h
  dsimp only [bundle] at h
  split at h <;> cases h

theorem exists_ok_of_bind {ε α β : Type} {x : Except ε α} {f : α → Except ε β} {b : β}
    (h : x >>= f = .ok b) : ∃ a, x = .ok a ∧ f a = .ok b := by
  cases x with
  | error e => cases h
  | ok a => exact ⟨a, rfl, h⟩

theorem usable_of_gather {kinds : List (String × ArgumentKind)} {g : Gathered} (h : g.Sound)
    (hrun : gather kinds g = .ok (.run s)) : s.Usable := by
  fun_induction gather kinds g with
  | case1 g => exact h.finish hrun
  | case2 path rest g ih => exact ih (h.addPath path) hrun
  | case3 separator rest g ih => exact ih h.addSeparator hrun
  | case4 argument rest g ih => exact ih (h.addExtra argument) hrun
  | case5 | case6 | case10 | case11 => cases hrun
  | case7 argument rest g value => exact absurd hrun (bundle_ne_run value)
  | case8 argument value rest g ih =>
    obtain ⟨g', hset, hrun⟩ := exists_ok_of_bind hrun
    exact ih g' (h.setFormat hset) hrun
  | case9 argument value rest g ih =>
    obtain ⟨g', hset, hrun⟩ := exists_ok_of_bind hrun
    exact ih g' (h.setFormat hset) hrun
  | case12 argument f rest g _ _ _ ih => exact ih (h.switch f) hrun

/-- Whatever the arguments are, what is read from them is usable. -/
theorem usable_of_read {arguments : List String} (h : readArguments arguments = .ok (.run s)) :
    s.Usable := by
  rw [readArguments] at h
  cases hkinds : classifyAll arguments with
  | error e => rw [hkinds] at h; cases h
  | ok kinds =>
    rw [hkinds] at h
    exact usable_of_gather (show Gathered.Sound {} from fun hphase => absurd rfl hphase) h

end ProtoIdl.Command
