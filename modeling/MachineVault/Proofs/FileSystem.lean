import MachineVault.FileSystem.Replace
import MachineVault.Proofs.Ascending
import MachineVault.Proofs.Wire

/-! A file that has been replaced reads as its new contents. The steps on the way change files only,
so that a path whose directory exists goes on naming the same place. -/

namespace MachineVault.FileSystem

variable {fs fs' : FileSystem} {path : Path} {place : Place} {bytes : Bytes}

/-- What stands at a place, as the end of a walk. -/
def lookUp (fs : FileSystem) (place : Place) : Except FileError (Place × Node) :=
  match fs.nodes[place]? with
  | none => .error .notFound
  | some node => .ok (place, node)

/-- From a directory a segment leads to a directory, nowhere, or to what stands under its name. Only
in the last case does it matter what there is. -/
theorem enter_directory (place : Place) (segment : String) :
    (∃ goal, ∀ fs : FileSystem, fs.enter (place, .directory) segment = .ok (goal, .directory)) ∨
    (∀ fs : FileSystem, fs.enter (place, .directory) segment = .error .nameTooLong) ∨
    (∀ fs : FileSystem, fs.enter (place, .directory) segment = fs.lookUp (place ++ [segment])) := by
  by_cases hi : Path.isIdle segment = true
  · exact .inl ⟨place, fun fs => if_pos hi⟩
  · by_cases hd : segment = ".."
    · exact .inl ⟨above place, fun fs => (if_neg hi).trans (if_pos hd)⟩
    · by_cases hl : nameLimit < segment.utf8ByteSize
      · exact .inr (.inl fun fs => (if_neg hi).trans ((if_neg hd).trans (if_pos hl)))
      · exact .inr (.inr fun fs => (if_neg hi).trans ((if_neg hd).trans (if_neg hl)))

theorem lookUp_eq_ok {end' : Place × Node} :
    fs.lookUp place = .ok end' ↔ end'.1 = place ∧ fs.nodes[place]? = some end'.2 := by
  unfold lookUp
  cases fs.nodes[place]? with
  | none => simp
  | some node =>
    obtain ⟨p, n⟩ := end'
    simp [eq_comm]

/-- Only from a directory can one go on. -/
theorem directory_of_enter {a b : Place × Node} {segment : String}
    (h : fs.enter a segment = .ok b) : a.2 = .directory := by
  obtain ⟨place, node⟩ := a
  cases node with
  | directory => rfl
  | file bytes => cases h

theorem directory_of_walk {a : Place × Node} {segments : List String}
    (h : segments.foldlM fs.enter a = .ok (place, .directory)) : a.2 = .directory := by
  cases segments with
  | nil =>
    cases h
    rfl
  | cons segment rest =>
    obtain ⟨b, hb, -⟩ := bind_eq_ok.mp h
    exact directory_of_enter hb

/-- Every directory is still there. -/
def KeepsDirectories (fs fs' : FileSystem) : Prop :=
  ∀ place : Place, fs.nodes[place]? = some Node.directory → fs'.nodes[place]? = some Node.directory

theorem enter_of_keeps (hk : KeepsDirectories fs fs') {a : Place × Node} {segment : String}
    (h : fs.enter a segment = .ok (place, .directory)) :
    fs'.enter a segment = .ok (place, .directory) := by
  obtain ⟨start, node⟩ := a
  obtain rfl : node = .directory := directory_of_enter h
  rcases enter_directory start segment with ⟨goal, he⟩ | he | he
  · rw [he] at h ⊢
    exact h
  · rw [he] at h
    cases h
  · rw [he] at h ⊢
    obtain ⟨hp, hn⟩ := lookUp_eq_ok.mp h
    exact lookUp_eq_ok.mpr ⟨hp, hk _ hn⟩

/-- A walk to a directory leads through directories. -/
theorem walk_of_keeps (hk : KeepsDirectories fs fs') (segments : List String) (a : Place × Node)
    (h : segments.foldlM fs.enter a = .ok (place, .directory)) :
    segments.foldlM fs'.enter a = .ok (place, .directory) := by
  induction segments generalizing a with
  | nil => exact h
  | cons segment rest ih =>
    obtain ⟨⟨place', node⟩, hb, h⟩ := bind_eq_ok.mp h
    obtain rfl : node = .directory := directory_of_walk h
    rw [List.foldlM_cons, enter_of_keeps hk hb]
    exact ih _ h

theorem find_snoc {front : Path} {name : String} (hv : validate (front ++ [name]) = .ok ()) :
    fs.find (front ++ [name]) =
      front.foldlM fs.enter ([], .directory) >>= fun a => fs.enter a name := by
  unfold FileSystem.find
  rw [hv, List.foldlM_append]
  change (front.foldlM fs.enter ([], .directory) >>= fun a => fs.enter a name >>= pure) = _
  simp only [bind_pure]

theorem eq_nil_or_snoc (path : Path) : path = [] ∨ ∃ front name, path = front ++ [name] := by
  rcases List.eq_nil_or_concat path with h | ⟨front, name, h⟩
  · exact .inl h
  · exact .inr ⟨front, name, h.trans List.concat_eq_append⟩

/-- A path names a place in a directory that exists. -/
def Names (fs : FileSystem) (path : Path) (place : Place) : Prop :=
  validate path = .ok () ∧ ∃ front name above, path = front ++ [name] ∧ place = above ++ [name] ∧
    front.foldlM fs.enter ([], .directory) = .ok (above, .directory) ∧
    ∀ fs : FileSystem, fs.enter (above, .directory) name = fs.lookUp (above ++ [name])

theorem Names.of_keeps (h : fs.Names path place) (hk : KeepsDirectories fs fs') :
    fs'.Names path place := by
  obtain ⟨hv, front, name, above, hp, hpl, hw, he⟩ := h
  exact ⟨hv, front, name, above, hp, hpl, walk_of_keeps hk front _ hw, he⟩

/-- What stands at the place that a path names is what the path leads to. -/
theorem Names.find (h : fs.Names path place) : fs.find path = fs.lookUp place := by
  obtain ⟨hv, front, name, above, rfl, rfl, hw, he⟩ := h
  rw [find_snoc hv, hw]
  exact he fs

theorem Names.contents (h : fs.Names path place) (hn : fs.nodes[place]? = some (.file bytes)) :
    fs.contents path = .ok (place, bytes) := by
  unfold FileSystem.contents
  rw [h.find, lookUp, hn]
  rfl

theorem validate_eq_ok (hn : '\x00' ∉ path.text.toList)
    (hl : path.text.utf8ByteSize ≤ pathLimit) : validate path = .ok () := by
  rw [validate, String.contains_char_eq, if_neg (by simpa using hn), if_neg (Nat.not_lt.mpr hl)]

/-- A walk that ends at a file finds what is in it. -/
theorem contents_of_walk (hv : validate path = .ok ())
    (h : path.foldlM fs.enter ([], .directory) = .ok (place, .file bytes)) :
    fs.contents path = .ok (place, bytes) := by
  rw [contents, FileSystem.find, hv]
  exact bind_eq_ok.mpr ⟨_, h, rfl⟩

/-- What is not found had a path that could be one. -/
theorem validate_of_find (h : fs.find path = .error .notFound) : validate path = .ok () := by
  unfold FileSystem.find at h
  unfold validate at h ⊢
  split
  · rw [if_pos ‹_›] at h
    cases h
  · rw [if_neg ‹_›] at h
    split
    · rw [if_pos ‹_›] at h
      cases h
    · rfl

theorem names_of_find (h : fs.find path = .ok (place, .file bytes)) :
    fs.Names path place ∧ fs.nodes[place]? = some (.file bytes) := by
  rcases eq_nil_or_snoc path with rfl | ⟨front, name, rfl⟩
  · obtain ⟨⟨⟩, -, h⟩ := bind_eq_ok.mp h
    cases h
  · obtain ⟨⟨⟩, hv, -⟩ := bind_eq_ok.mp h
    rw [find_snoc hv] at h
    obtain ⟨⟨above, node⟩, hw, he⟩ := bind_eq_ok.mp h
    obtain rfl : node = .directory := directory_of_enter he
    rcases enter_directory above name with ⟨goal, hg⟩ | hg | hg
    · rw [hg] at he
      cases he
    · rw [hg] at he
      cases he
    · rw [hg] at he
      obtain ⟨rfl, hn⟩ := lookUp_eq_ok.mp he
      exact ⟨⟨hv, front, name, above, rfl, rfl, hw, hg⟩, hn⟩

theorem names_of_missing {above : Place} {node : Node} (h : fs.find path = .error .notFound)
    (hd : fs.find path.dropLast = .ok (above, node)) :
    fs.Names path (above ++ path.getLast?.toList) ∧
      fs.nodes[above ++ path.getLast?.toList]? = none := by
  rcases eq_nil_or_snoc path with rfl | ⟨front, name, rfl⟩
  · have hv := validate_of_find h
    rw [FileSystem.find, hv] at h
    cases h
  · have hv := validate_of_find h
    rw [List.dropLast_concat] at hd
    obtain ⟨⟨⟩, -, hw⟩ := bind_eq_ok.mp hd
    rw [find_snoc hv, hw] at h
    rw [List.getLast?_concat, Option.toList_some]
    cases node with
    | file bytes => cases h
    | directory =>
      change fs.enter (above, .directory) name = _ at h
      rcases enter_directory above name with ⟨goal, hg⟩ | hg | hg
      · rw [hg] at h
        cases h
      · rw [hg] at h
        cases h
      · refine ⟨⟨hv, front, name, above, rfl, rfl, hw, hg⟩, ?_⟩
        rw [hg, lookUp] at h
        cases hn : fs.nodes[above ++ [name]]? with
        | none => rfl
        | some node =>
          rw [hn] at h
          cases h

/-- An entry that is no directory is named by its path. -/
theorem names_of_entry {node : Option Node} (h : fs.entry path = .ok (place, node))
    (hn : node ≠ some .directory) : fs.Names path place ∧ fs.nodes[place]? = node := by
  unfold entry at h
  split at h
  · rename_i p n hf
    cases h
    cases n with
    | directory => exact absurd rfl hn
    | file bytes => exact names_of_find hf
  · rename_i hf
    obtain ⟨⟨above, n⟩, hd, h⟩ := bind_eq_ok.mp h
    cases h
    exact names_of_missing hf hd
  · cases h

theorem names_of_contents (h : fs.contents path = .ok (place, bytes)) :
    fs.Names path place ∧ fs.nodes[place]? = some (.file bytes) := by
  obtain ⟨⟨p, n⟩, hf, h⟩ := bind_eq_ok.mp h
  cases n with
  | directory => cases h
  | file b =>
    cases h
    exact names_of_find hf

/-- What a step does that does not fail. -/
inductive Performed (fs : FileSystem) : Step → FileSystem → Prop
  | validated {path : Path} : Performed fs (.validate path) fs
  | found {path : Path} : Performed fs (.makeDirectory path) fs
  | made {path : Path} {place : Place} (hnode : fs.nodes[place]? = none) :
      Performed fs (.makeDirectory path) (fs.put place .directory)
  | truncated {path : Path} {place : Place} (hnames : fs.Names path place)
      (hnode : fs.nodes[place]? ≠ some .directory) :
      Performed fs (.truncate path) (fs.put place (.file []))
  | appended {path : Path} {place : Place} {before bytes : Bytes}
      (hc : fs.contents path = .ok (place, before)) :
      Performed fs (.append path bytes) (fs.put place (.file (before ++ bytes)))
  | renamed {source target : Path} {place goal : Place} {bytes : Bytes}
      (hc : fs.contents source = .ok (place, bytes)) (hnames : fs.Names target goal)
      (hnode : fs.nodes[goal]? ≠ some .directory) :
      Performed fs (.rename source target) ⟨(fs.nodes.erase place).insert goal (.file bytes)⟩
  | removed {path : Path} {place : Place} {bytes : Bytes}
      (hc : fs.contents path = .ok (place, bytes)) :
      Performed fs (.remove path) ⟨fs.nodes.erase place⟩

/-- Goes on at an entry that is no directory. -/
theorem performed_of_entry {f : Place → FileSystem}
    (h : (do
      match ← fs.entry path with
      | (_, some .directory) => throw FileError.isADirectory
      | (place, _) => return f place) = .ok fs') :
    ∃ place, fs.Names path place ∧ fs.nodes[place]? ≠ some .directory ∧ fs' = f place := by
  obtain ⟨⟨place, node⟩, he, h⟩ := bind_eq_ok.mp h
  by_cases hn : node = some .directory
  · subst hn
    cases h
  · obtain ⟨hnames, hnode⟩ := names_of_entry he hn
    refine ⟨place, hnames, hnode ▸ hn, ?_⟩
    split at h
    · rename_i heq
      cases heq
      exact absurd rfl hn
    · rename_i heq
      cases heq
      exact (Except.ok.inj h).symm

theorem performed {step : Step} (h : fs.perform step = .ok fs') : fs.Performed step fs' := by
  cases step with
  | validate path =>
    obtain ⟨-, -, h⟩ := bind_eq_ok.mp h
    cases h
    exact .validated
  | makeDirectory path =>
    obtain ⟨⟨place, node⟩, he, h⟩ := bind_eq_ok.mp h
    rcases node with _ | (_ | bytes)
    · obtain ⟨-, hnode⟩ := names_of_entry he nofun
      cases h
      exact .made hnode
    · cases h
      exact .found
    · cases h
  | truncate path =>
    obtain ⟨place, hnames, hnode, rfl⟩ :=
      performed_of_entry (f := fun place => fs.put place (.file [])) h
    exact .truncated hnames hnode
  | append path bytes =>
    obtain ⟨⟨place, before⟩, hc, h⟩ := bind_eq_ok.mp h
    cases h
    exact .appended hc
  | rename source target =>
    obtain ⟨⟨place, bytes⟩, hc, h⟩ := bind_eq_ok.mp h
    obtain ⟨goal, hnames, hnode, rfl⟩ := performed_of_entry
      (f := fun goal => ⟨(fs.nodes.erase place).insert goal (.file bytes)⟩) h
    exact .renamed hc hnames hnode
  | remove path =>
    obtain ⟨⟨place, bytes⟩, hc, h⟩ := bind_eq_ok.mp h
    cases h
    exact .removed hc

/-- No step takes a directory away. -/
theorem Performed.keepsDirectories {step : Step} (h : fs.Performed step fs') :
    KeepsDirectories fs fs' := by
  intro place hp
  cases h with
  | validated | found => exact hp
  | made =>
    rw [put, getElem?_insert, hp, ite_self]
  | truncated _ hnode =>
    rw [put, getElem?_insert, if_neg, hp]
    rintro rfl
    exact hnode hp
  | appended hc =>
    rw [put, getElem?_insert, if_neg, hp]
    rintro rfl
    cases hp.symm.trans (names_of_contents hc).2
  | renamed hc _ hnode =>
    rw [getElem?_insert, getElem?_erase, if_neg, if_neg, hp]
    · rintro rfl
      cases hp.symm.trans (names_of_contents hc).2
    · rintro rfl
      exact hnode hp
  | removed hc =>
    rw [getElem?_erase, if_neg, hp]
    rintro rfl
    cases hp.symm.trans (names_of_contents hc).2

theorem contents_truncate (h : fs.perform (.truncate path) = .ok fs') :
    ∃ place, fs'.contents path = .ok (place, []) := by
  have hp := performed h
  have hk := hp.keepsDirectories
  cases hp with
  | @truncated _ place hnames hnode =>
    refine ⟨place, (hnames.of_keeps hk).contents ?_⟩
    rw [put, getElem?_insert, if_pos rfl]

theorem contents_append {more : Bytes} (h : fs.perform (.append path more) = .ok fs')
    (hc : fs.contents path = .ok (place, bytes)) :
    fs'.contents path = .ok (place, bytes ++ more) := by
  have hp := performed h
  have hk := hp.keepsDirectories
  cases hp with
  | appended hc' =>
    cases hc.symm.trans hc'
    refine ((names_of_contents hc).1.of_keeps hk).contents ?_
    rw [put, getElem?_insert, if_pos rfl]

theorem contents_rename {target : Path} (h : fs.perform (.rename path target) = .ok fs')
    (hc : fs.contents path = .ok (place, bytes)) :
    ∃ goal, fs'.contents target = .ok (goal, bytes) := by
  have hp := performed h
  have hk := hp.keepsDirectories
  cases hp with
  | @renamed _ _ _ goal _ hc' hnames hnode =>
    cases hc.symm.trans hc'
    refine ⟨goal, (hnames.of_keeps hk).contents ?_⟩
    rw [getElem?_insert, if_pos rfl]

theorem run_append (steps rest : List Step) : fs.run (steps ++ rest) =
    match fs.run steps with
    | (fs', .ok ()) => fs'.run rest
    | (fs', .error e) => (fs', .error e) := by
  induction steps generalizing fs with
  | nil => rfl
  | cons step steps ih =>
    rw [List.cons_append, run, run]
    cases fs.perform step with
    | ok fs₁ => exact ih
    | error e => rfl

theorem run_append_ok {steps rest : List Step} (h : fs.run (steps ++ rest) = (fs', .ok ())) :
    ∃ fs₁, fs.run steps = (fs₁, .ok ()) ∧ fs₁.run rest = (fs', .ok ()) := by
  rw [run_append] at h
  split at h
  · exact ⟨_, ‹_›, h⟩
  · cases h

theorem run_cons_ok {step : Step} {rest : List Step} (h : fs.run (step :: rest) = (fs', .ok ())) :
    ∃ fs₁, fs.perform step = .ok fs₁ ∧ fs₁.run rest = (fs', .ok ()) := by
  rw [run] at h
  cases hs : fs.perform step with
  | ok fs₁ =>
    rw [hs] at h
    exact ⟨fs₁, rfl, h⟩
  | error e =>
    rw [hs] at h
    cases h

/-- A file that has been replaced reads as its new contents. -/
theorem read_replace (h : fs.replace path bytes = (fs', .ok ())) : fs'.read path = .ok bytes := by
  unfold replace replaceSteps writeSteps at h
  rw [List.append_assoc] at h
  obtain ⟨fs₁, -, h⟩ := run_append_ok h
  obtain ⟨fs₂, htruncate, h⟩ := run_cons_ok h
  obtain ⟨fs₃, happend, h⟩ := run_cons_ok h
  obtain ⟨fs₄, hrename, h⟩ := run_cons_ok h
  cases h
  obtain ⟨place, hc⟩ := contents_truncate htruncate
  obtain ⟨goal, hc⟩ := contents_rename hrename (contents_append happend hc)
  rw [List.nil_append] at hc
  rw [read, hc]
  rfl

end MachineVault.FileSystem
