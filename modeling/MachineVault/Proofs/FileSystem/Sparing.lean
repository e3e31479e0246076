import MachineVault.Proofs.FileSystem

/-! What writing a file leaves alone. A step changes no file but those that its paths target, so a
replacement spares every file beside the one it replaces and the temporary one, even where it stops
half way. -/

namespace MachineVault

open FileSystem (Place)

namespace Path

/-- Where a segment leads to from a directory, if it leads anywhere. -/
def advance (place : Place) (segment : String) : Place :=
  if isIdle segment then place
  else if segment = ".." then FileSystem.above place
  else place ++ [segment]

/-- Where a path leads to, if it leads anywhere. -/
def destination (path : Path) : Place := path.foldl advance []

/-- The place of the file that a path can name. What ends without a name of its own can only be a
directory. -/
def target? (path : Path) : Option Place :=
  match path.getLast? with
  | none => none
  | some name =>
    if isIdle name || name = ".." then none else some (destination path.dropLast ++ [name])

theorem target?_snoc (front : Path) (name : String) : target? (front ++ [name]) =
    if isIdle name || name = ".." then none else some (destination front ++ [name]) := by
  rw [target?, List.getLast?_concat, List.dropLast_concat]

theorem target?_eq_none {path : Path}
    (h : ∀ name, path.getLast? = some name → isIdle name = true ∨ name = "..") :
    path.target? = none := by
  unfold target?
  cases hl : path.getLast? with
  | none => rfl
  | some name => simp [h name hl]

/-- The last segment of a path is idle, or it is left when the idle ones are cut off. -/
theorem isIdle_or_getLast?_trimEnd {path : Path} {name : String} (h : path.getLast? = some name) :
    isIdle name = true ∨ path.trimEnd.getLast? = some name := by
  rw [List.getLast?_eq_head?_reverse] at h
  obtain ⟨rest, hr⟩ := List.head?_eq_some_iff.mp h
  by_cases hi : isIdle name = true
  · exact .inl hi
  · refine .inr ?_
    rw [trimEnd, hr, List.dropWhile_cons_of_neg hi, List.getLast?_reverse, List.head?_cons]

/-- A path that has no other temporary file than itself leads to a directory. -/
theorem target?_eq_none_of_trimEnd {path : Path}
    (h : path.trimEnd.getLast? = none ∨ path.trimEnd.getLast? = some "..") :
    path.target? = none := by
  refine target?_eq_none fun name hl => ?_
  refine (isIdle_or_getLast?_trimEnd hl).imp_right fun hname => ?_
  rcases h with h | h
  · cases hname.symm.trans h
  · exact Option.some.inj (hname.symm.trans h)

/-- The temporary file of a path has the extension of such files. -/
theorem target?_temporary {path : Path} {place : Place}
    (h : path.temporary.target? = some place) : ∃ above stem,
      place = above ++ [String.ofList (stem ++ ['.', 't', 'm', 'p'])] := by
  unfold temporary at h
  split at h
  · rename_i hl
    rw [target?_eq_none_of_trimEnd (.inl hl)] at h
    cases h
  · rename_i hl
    rw [target?_eq_none_of_trimEnd (.inr hl)] at h
    cases h
  · dsimp only at h
    split at h
    · rw [target?_snoc, if_pos (by rfl)] at h
      cases h
    · rw [target?_snoc] at h
      split at h
      · cases h
      · cases h
        exact ⟨_, _, rfl⟩

end Path

namespace FileSystem

variable {fs fs' : FileSystem} {path : Path} {place : Place} {bytes : Bytes}

theorem advance_of_enter {a b : Place × Node} {segment : String} (h : fs.enter a segment = .ok b) :
    Path.advance a.1 segment = b.1 := by
  obtain ⟨start, node⟩ := a
  obtain rfl : node = .directory := directory_of_enter h
  simp only [enter] at h
  unfold Path.advance
  split at h
  · rw [if_pos ‹_›]
    exact congrArg Prod.fst (Except.ok.inj h)
  · rw [if_neg ‹_›]
    split at h
    · rw [if_pos ‹_›]
      exact congrArg Prod.fst (Except.ok.inj h)
    · rw [if_neg ‹_›]
      split at h
      · cases h
      · split at h
        · cases h
        · exact congrArg Prod.fst (Except.ok.inj h)

theorem destination_of_walk {a b : Place × Node} {segments : List String}
    (h : segments.foldlM fs.enter a = .ok b) : segments.foldl Path.advance a.1 = b.1 := by
  induction segments generalizing a with
  | nil =>
    cases h
    rfl
  | cons segment rest ih =>
    obtain ⟨c, hc, h⟩ := bind_eq_ok.mp h
    rw [List.foldl_cons, advance_of_enter hc]
    exact ih h

/-- A place that a path names is the one it targets. -/
theorem Names.target? (h : fs.Names path place) : path.target? = some place := by
  obtain ⟨-, front, name, above, rfl, rfl, hw, he⟩ := h
  -- in an empty file system nothing is found under a name of its own
  have hmissing : FileSystem.enter {} (above, .directory) name = .error .notFound := he {}
  rw [Path.target?_snoc, Path.destination, destination_of_walk hw, if_neg]
  intro hn
  rcases (Bool.or_eq_true _ _).mp hn with hi | hd
  · cases (if_pos hi).symm.trans hmissing
  · obtain rfl := of_decide_eq_true hd
    cases hmissing

/-- The paths of the files that a step changes. -/
def Step.touched : Step → List Path
  | validate _ | makeDirectory _ => []
  | truncate path | append path _ | remove path => [path]
  | rename source target => [source, target]

/-- The contents of the file that stands at a place. -/
def fileAt? (fs : FileSystem) (place : Place) : Option Bytes :=
  match fs.nodes[place]? with
  | some (.file bytes) => some bytes
  | _ => none

theorem fileAt?_eq_some :
    fs.fileAt? place = some bytes ↔ fs.nodes[place]? = some (.file bytes) := by
  unfold fileAt?
  split <;> simp_all

/-- All directories are still there, and at a place there is the same file as before, or still no
file. -/
structure Spares (place : Place) (fs fs' : FileSystem) : Prop where
  directories : KeepsDirectories fs fs'
  file : fs'.fileAt? place = fs.fileAt? place

theorem Spares.refl (place : Place) (fs : FileSystem) : Spares place fs fs := ⟨fun _ h => h, rfl⟩

theorem Spares.trans {fs'' : FileSystem} (h : Spares place fs fs') (h' : Spares place fs' fs'') :
    Spares place fs fs'' :=
  ⟨fun p hp => h'.directories p (h.directories p hp), h'.file.trans h.file⟩

theorem Spares.contents (h : Spares place fs fs') (hc : fs.contents path = .ok (place, bytes)) :
    fs'.contents path = .ok (place, bytes) := by
  obtain ⟨hnames, hnode⟩ := names_of_contents hc
  have hfile := h.file.trans (fileAt?_eq_some.mpr hnode)
  exact (hnames.of_keeps h.directories).contents (fileAt?_eq_some.mp hfile)

theorem fileAt?_of_nodes_eq (h : fs'.nodes[place]? = fs.nodes[place]?) :
    fs'.fileAt? place = fs.fileAt? place := by
  rw [fileAt?, fileAt?, h]

/-- A step spares the files that it does not touch. -/
theorem Performed.spares {step : Step} (h : fs.Performed step fs')
    (ht : ∀ path ∈ step.touched, path.target? ≠ some place) : Spares place fs fs' := by
  refine ⟨h.keepsDirectories, ?_⟩
  cases h with
  | validated | found => rfl
  | @made path place' hnode =>
    by_cases hp : place = place'
    · subst hp
      rw [fileAt?, fileAt?, hnode, put, getElem?_insert, if_pos rfl]
    · refine fileAt?_of_nodes_eq ?_
      rw [put, getElem?_insert, if_neg hp]
  | truncated hnames =>
    refine fileAt?_of_nodes_eq ?_
    rw [put, getElem?_insert, if_neg]
    rintro rfl
    exact ht _ List.mem_cons_self hnames.target?
  | appended hc =>
    refine fileAt?_of_nodes_eq ?_
    rw [put, getElem?_insert, if_neg]
    rintro rfl
    exact ht _ List.mem_cons_self (names_of_contents hc).1.target?
  | renamed hc hnames =>
    refine fileAt?_of_nodes_eq ?_
    rw [getElem?_insert, getElem?_erase, if_neg, if_neg]
    · rintro rfl
      exact ht _ List.mem_cons_self (names_of_contents hc).1.target?
    · rintro rfl
      exact ht _ (List.mem_cons_of_mem _ List.mem_cons_self) hnames.target?
  | removed hc =>
    refine fileAt?_of_nodes_eq ?_
    rw [getElem?_erase, if_neg]
    rintro rfl
    exact ht _ List.mem_cons_self (names_of_contents hc).1.target?

/-- So do any steps, up to the first that fails. -/
theorem spares_run {steps : List Step}
    (ht : ∀ step ∈ steps, ∀ path ∈ step.touched, path.target? ≠ some place) :
    Spares place fs (fs.run steps).1 := by
  induction steps generalizing fs with
  | nil => exact .refl place fs
  | cons step rest ih =>
    rw [run]
    cases hs : fs.perform step with
    | error e => exact .refl place fs
    | ok fs₁ =>
      have h := (performed hs).spares (ht step List.mem_cons_self)
      exact h.trans (ih fun s hm => ht s (List.mem_cons_of_mem _ hm))

theorem touched_writeSteps {step : Step} (hs : step ∈ writeSteps path bytes) :
    ∀ path' ∈ step.touched, path' = path := by
  rw [writeSteps, List.mem_append, List.mem_cons, List.mem_map] at hs
  rcases hs with (rfl | ⟨parent, -, rfl⟩) | hs
  · exact nofun
  · exact nofun
  · intro path' hp
    rcases List.mem_cons.mp hs with rfl | hs
    · exact List.mem_singleton.mp hp
    · rw [List.mem_singleton.mp hs] at hp
      exact List.mem_singleton.mp hp

theorem spares_write (ht : path.target? ≠ some place) : Spares place fs (fs.write path bytes).1 :=
  spares_run fun _ hs path' hp => touched_writeSteps hs path' hp ▸ ht

/-- A replacement spares every file but the one that it replaces and the temporary one. -/
theorem spares_replace (ht : path.temporary.target? ≠ some place)
    (hp : path.target? ≠ some place) : Spares place fs (fs.replace path bytes).1 := by
  refine spares_run fun step hs path' hpath => ?_
  rcases List.mem_append.mp hs with hs | hs
  · exact touched_writeSteps hs path' hpath ▸ ht
  · obtain rfl := List.mem_singleton.mp hs
    rcases List.mem_cons.mp hpath with rfl | hpath
    · exact ht
    · exact List.mem_singleton.mp hpath ▸ hp

/-- A replacement that fails has left the old file in place. -/
theorem spares_of_replace_error {e : FileError} (ht : path.temporary.target? ≠ some place)
    (h : fs.replace path bytes = (fs', .error e)) : Spares place fs fs' := by
  have hwrite : Spares place fs (fs.write path.temporary bytes).1 := spares_write ht
  rw [replace, replaceSteps, run_append] at h
  rw [write] at hwrite
  cases hw : fs.run (writeSteps path.temporary bytes) with
  | mk fs₁ outcome =>
  rw [hw] at h hwrite
  cases outcome with
  | error e' =>
    cases h
    exact hwrite
  | ok u =>
    -- only the renaming can have failed, and that does nothing then
    dsimp only [run] at h
    cases hr : fs₁.perform (.rename path.temporary path) with
    | ok fs₂ =>
      rw [hr] at h
      cases h
    | error e' =>
      rw [hr] at h
      cases h
      exact hwrite

end FileSystem

end MachineVault
