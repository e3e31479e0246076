import Mathlib.Data.List.DropRight
import MachineVault.Proofs.FileSystem.Writing

/-! Making the directories on the way to a file. Nothing but directories is added, nothing at all if
the way is there or is barred, and a path that only goes down finds nothing more than it did. -/

namespace MachineVault

namespace Path

variable {path front : Path} {place : FileSystem.Place}

/-- What follows the last name of a path is idle. -/
theorem exists_trimEnd_append (path : Path) :
    ∃ idles : List String, (∀ s ∈ idles, isIdle s = true) ∧ path = path.trimEnd ++ idles :=
  ⟨path.rtakeWhile isIdle, fun _ => List.mem_rtakeWhile_imp,
    List.rdropWhile_append_rtakeWhile.symm⟩

/-- A path has a last name that is not idle, or none at all. -/
theorem trimEnd_eq_nil_or_snoc (path : Path) : path.trimEnd = [] ∨
    ∃ name, isIdle name = false ∧ path.trimEnd = path.directory ++ [name] := by
  by_cases h : path.trimEnd = []
  · exact .inl h
  · refine .inr ⟨path.trimEnd.getLast h, ?_, (List.dropLast_concat_getLast h).symm⟩
    exact Bool.eq_false_iff.mpr (List.rdropWhile_last_not isIdle path h)

theorem directory_isPrefix (path : Path) : path.directory <+: path := by
  obtain ⟨idles, -, hpath⟩ := path.exists_trimEnd_append
  exact (List.dropLast_prefix _).trans ⟨idles, hpath.symm⟩

theorem parents_eq_prefixes (path : Path) : path.parents = path.directory.prefixes := by
  refine List.map_congr_left fun n hn => ?_
  have hlength : n + 1 ≤ path.directory.length := List.mem_range.mp hn
  obtain ⟨rest, hpath⟩ := path.directory_isPrefix
  have htake : (path.directory ++ rest).take (n + 1) = path.directory.take (n + 1) :=
    List.take_append_of_le_length hlength
  rw [← htake, hpath]

theorem isPrefix_of_mem_prefixes (h : front ∈ path.prefixes) : front <+: path := by
  obtain ⟨n, -, rfl⟩ := List.mem_map.mp h
  exact List.take_prefix _ _

theorem destination_snoc (front : Path) (segment : String) :
    destination (front ++ [segment]) = advance front.destination segment := by
  rw [destination, List.foldl_append]
  rfl

/-- The place that a path targets is where it leads to. -/
theorem destination_of_target? (h : path.target? = some place) : path.destination = place := by
  rcases FileSystem.eq_nil_or_snoc path with rfl | ⟨front, name, rfl⟩
  · cases h
  · rw [target?_snoc] at h
    split at h
    · cases h
    · rename_i hname
      rw [Bool.or_eq_true, decide_eq_true_eq, not_or] at hname
      rw [destination_snoc, advance, if_neg hname.1, if_neg hname.2]
      exact Option.some.inj h

/-- A path that only goes down, by names that there can be. -/
def Descends (path : Path) : Prop :=
  ∀ segment ∈ path, isIdle segment = true ∨ FileSystem.IsName segment

theorem Descends.destination (h : path.Descends) :
    path.destination = path.filter fun segment => !isIdle segment := by
  induction path using List.reverseRecOn with
  | nil => rfl
  | append_singleton front segment ih =>
    have hfront := ih fun s hs => h s (List.mem_append_left _ hs)
    rw [destination_snoc, hfront, List.filter_append]
    rcases h segment (List.mem_append_right _ List.mem_cons_self) with hidle | hname
    · rw [advance, if_pos hidle, List.filter_cons_of_neg (by simp [hidle])]
      exact (List.append_nil _).symm
    · rw [hname.advance, List.filter_cons_of_pos (by simp [hname.stays])]
      rfl

/-- The file of a path is further down than any directory on the way. -/
theorem Descends.target?_ne (h : path.Descends) (hf : front <+: path.directory) :
    Path.target? front ≠ some path.destination := by
  intro ht
  have hfront : Descends front :=
    fun s hs => h s ((hf.trans path.directory_isPrefix).subset hs)
  have hdest := destination_of_target? ht
  rw [hfront.destination, h.destination] at hdest
  have hshort := (hf.sublist.filter fun segment => !isIdle segment).length_le
  rcases path.trimEnd_eq_nil_or_snoc with htrim | ⟨name, hname, htrim⟩
  · rw [directory, htrim] at hf
    obtain rfl := List.prefix_nil.mp hf
    cases ht
  · obtain ⟨idles, -, hpath⟩ := path.exists_trimEnd_append
    have hlong := congrArg (fun p => (p.filter fun segment => !isIdle segment).length) hpath
    rw [htrim] at hlong
    simp [hname, ← hdest] at hlong
    omega

end Path

namespace FileSystem

variable {fs fs' fs'' : FileSystem} {path front : Path} {place : Place} {steps : List Step}

/-- Some of the directories on the way along a path have been made, and nothing else has changed. -/
def MadeAlong (path : Path) (fs fs' : FileSystem) : Prop :=
  ∀ place : Place, fs'.nodes[place]? = fs.nodes[place]? ∨
    fs.nodes[place]? = none ∧ fs'.nodes[place]? = some Node.directory ∧
      ∃ front, front <+: path ∧ Path.target? front = some place

theorem MadeAlong.refl (path : Path) (fs : FileSystem) : MadeAlong path fs fs := fun _ => .inl rfl

theorem MadeAlong.trans (h : MadeAlong path fs fs') (h' : MadeAlong path fs' fs'') :
    MadeAlong path fs fs'' := by
  intro place
  rcases h' place with hsame | ⟨hnone, hmade, hon⟩
  · rw [hsame]
    exact h place
  · rcases h place with hsame | ⟨-, hmade', -⟩
    · exact .inr ⟨hsame ▸ hnone, hmade, hon⟩
    · cases hnone.symm.trans hmade'

theorem MadeAlong.keepsDirectories (h : MadeAlong path fs fs') : KeepsDirectories fs fs' := by
  intro place hp
  rcases h place with hsame | ⟨hnone, -⟩
  · exact hsame.trans hp
  · cases hnone.symm.trans hp

/-- A directory is made where its path leads to, if nothing is there. -/
theorem performed_makeDirectory (h : fs.perform (.makeDirectory path) = .ok fs') :
    fs' = fs ∨ ∃ place, fs.Names path place ∧ fs.nodes[place]? = none ∧
      fs' = fs.put place .directory := by
  obtain ⟨⟨place, node⟩, he, h⟩ := bind_eq_ok.mp h
  rcases node with _ | (_ | bytes)
  · obtain ⟨hnames, hnode⟩ := names_of_entry he nofun
    cases h
    exact .inr ⟨place, hnames, hnode, rfl⟩
  · cases h
    exact .inl rfl
  · cases h

theorem madeAlong_makeDirectory (hf : front <+: path)
    (h : fs.perform (.makeDirectory front) = .ok fs') : MadeAlong path fs fs' := by
  rcases performed_makeDirectory h with rfl | ⟨place, hnames, hnode, rfl⟩
  · exact .refl path _
  · intro other
    by_cases ho : other = place
    · subst ho
      exact .inr ⟨hnode, nodes_put_self .., front, hf, hnames.target?⟩
    · rw [put, getElem?_insert, if_neg ho]
      exact .inl rfl

theorem madeAlong_run (h : ∀ step ∈ steps, ∃ front, front <+: path ∧ step = .makeDirectory front) :
    MadeAlong path fs (fs.run steps).1 := by
  induction steps generalizing fs with
  | nil => exact .refl path fs
  | cons step steps ih =>
    rw [List.forall_mem_cons] at h
    obtain ⟨⟨front, hf, rfl⟩, h⟩ := h
    rw [run]
    cases hs : fs.perform (.makeDirectory front) with
    | error e => exact .refl path fs
    | ok fs₁ => exact (madeAlong_makeDirectory hf hs).trans (ih h)

theorem find_eq_notFound : fs.find path = .error .notFound ↔
    validate path = .ok () ∧ path.foldlM fs.enter ([], .directory) = .error .notFound := by
  constructor
  · intro h
    have hv := validate_of_find h
    rw [FileSystem.find, hv] at h
    exact ⟨hv, h⟩
  · rintro ⟨hv, hw⟩
    rw [FileSystem.find, hv]
    exact hw

/-- What is missing on the way is missing at its end. -/
theorem walk_of_isPrefix {e : FileError} (h : front <+: path)
    (hw : front.foldlM fs.enter ([], .directory) = .error e) :
    path.foldlM fs.enter ([], .directory) = .error e := by
  obtain ⟨rest, rfl⟩ := h
  rw [List.foldlM_append, hw]
  rfl

/-- Nothing is made where the way is there, or where it is barred before anything is missing. -/
theorem run_makeDirectory_of_found (hv : validate path = .ok ())
    (hfound : fs.find path ≠ .error .notFound)
    (h : ∀ step ∈ steps, ∃ front, front <+: path ∧ step = .makeDirectory front) :
    (fs.run steps).1 = fs := by
  induction steps with
  | nil => rfl
  | cons step steps ih =>
    rw [List.forall_mem_cons] at h
    obtain ⟨⟨front, hf, rfl⟩, h⟩ := h
    have hfront : fs.find front ≠ .error .notFound := fun hn =>
      hfound (find_eq_notFound.mpr ⟨hv, walk_of_isPrefix hf (find_eq_notFound.mp hn).2⟩)
    rw [run]
    cases hs : fs.perform (.makeDirectory front) with
    | error e => rfl
    | ok fs₁ =>
      rcases performed_makeDirectory hs with rfl | ⟨place, hnames, hnode, -⟩
      · exact ih h
      · refine absurd ?_ hfront
        rw [hnames.find, lookUp, hnode]

/-- Everything is in a directory. -/
def Rooted (fs : FileSystem) : Prop :=
  ∀ (place : Place) (name : String), fs.nodes[place ++ [name]]? ≠ none →
    place.all (· = "..") = true ∨ fs.nodes[place]? = some Node.directory

theorem rooted_empty : Rooted {} := by
  intro place name h
  exact absurd Std.ExtTreeMap.getElem?_empty h

/-- The directory that a path leads to is kept, or it is one of those that are always there. -/
theorem Rooted.walk (hroot : fs.Rooted)
    (hw : path.foldlM fs.enter ([], .directory) = .ok (place, .directory)) :
    place.all (· = "..") = true ∨ fs.nodes[place]? = some .directory := by
  induction path using List.reverseRecOn generalizing place with
  | nil =>
    cases hw
    exact .inl rfl
  | append_singleton way segment ih =>
    obtain ⟨⟨start, node⟩, hway, hlast⟩ := bind_eq_ok.mp (List.foldlM_append.symm.trans hw)
    obtain rfl : node = .directory := directory_of_walk hlast
    have hstart := ih hway
    rw [walk_snoc hway] at hw
    simp only [enter] at hw
    split at hw
    · cases hw
      exact hstart
    split at hw
    · cases hw
      rw [above]
      split
      case isTrue hup => exact .inl (by simp [hup])
      case isFalse hup =>
        have hdirectory := hstart.resolve_left hup
        rcases List.eq_nil_or_concat start with rfl | ⟨init, last, rfl⟩
        · exact absurd rfl hup
        · rw [List.concat_eq_append] at hdirectory ⊢
          rw [List.dropLast_concat]
          exact hroot init last (by simp [hdirectory])
    split at hw
    · cases hw
    · obtain ⟨rfl, hnode⟩ := lookUp_eq_ok.mp hw
      exact .inr hnode

/-- A step that puts something new in place of no directory keeps everything in a directory. -/
theorem Rooted.put (hroot : fs.Rooted) (hnames : fs.Names path place)
    (hnode : fs.nodes[place]? ≠ some .directory) (node : Node) : (fs.put place node).Rooted := by
  intro other name hsome
  have hkept (h : fs.nodes[other]? = some .directory) :
      (fs.put place node).nodes[other]? = some .directory := by
    rw [FileSystem.put, getElem?_insert, if_neg, h]
    rintro rfl
    exact hnode h
  obtain ⟨-, front, last, above, -, rfl, hw, -⟩ := hnames
  rw [FileSystem.put, getElem?_insert] at hsome
  split at hsome
  case isTrue heq =>
    obtain ⟨rfl, -⟩ := List.append_inj' heq rfl
    exact (hroot.walk hw).imp_right hkept
  case isFalse => exact (hroot other name hsome).imp_right hkept

theorem Rooted.erase (hroot : fs.Rooted) (hnode : fs.nodes[place]? ≠ some .directory) :
    Rooted ⟨fs.nodes.erase place⟩ := by
  intro other name hsome
  rw [getElem?_erase] at hsome ⊢
  split at hsome
  case isTrue => exact absurd rfl hsome
  case isFalse =>
    refine (hroot other name hsome).imp_right fun h => ?_
    rw [if_neg, h]
    rintro rfl
    exact hnode h

theorem Rooted.perform {step : Step} (hroot : fs.Rooted) (h : fs.perform step = .ok fs') :
    fs'.Rooted := by
  have hfile {place : Place} {bytes : Bytes} (hn : fs.nodes[place]? = some (.file bytes)) :
      fs.nodes[place]? ≠ some .directory := by
    simp [hn]
  cases performed h with
  | validated | found => exact hroot
  | made =>
    rcases performed_makeDirectory h with heq | ⟨place, hnames, hnode, heq⟩
    · rwa [heq]
    · rw [heq]
      exact hroot.put hnames (by simp [hnode]) _
  | truncated hnames hnode => exact hroot.put hnames hnode _
  | appended hc =>
    obtain ⟨hnames, hnode⟩ := names_of_contents hc
    exact hroot.put hnames (hfile hnode) _
  | @renamed source target place goal bytes hc hnames hnode =>
    have hsource := hfile (names_of_contents hc).2
    have hkeeps := (Performed.removed hc).keepsDirectories
    refine (hroot.erase hsource).put (hnames.of_keeps hkeeps) ?_ _
    rw [getElem?_erase]
    split
    · simp
    · exact hnode
  | removed hc => exact hroot.erase (hfile (names_of_contents hc).2)

/-- A run keeps everything in a directory, as it is in an empty file system. -/
theorem rooted_run (hroot : fs.Rooted) (steps : List Step) : (fs.run steps).1.Rooted := by
  induction steps generalizing fs with
  | nil => exact hroot
  | cons step steps ih =>
    rw [run]
    cases hs : fs.perform step with
    | error e => exact hroot
    | ok fs₁ => exact ih (hroot.perform hs)

theorem lookUp_eq_notFound : fs.lookUp place = .error .notFound ↔ fs.nodes[place]? = none := by
  unfold lookUp
  cases fs.nodes[place]? <;> simp

theorem MadeAlong.lookUp (h : MadeAlong path fs fs') (hnone : fs.nodes[place]? = none) :
    fs'.lookUp place = .error .notFound ∨
      fs'.lookUp place = .ok (place, .directory) ∧ fs'.nodes[place]? = some .directory := by
  rcases h place with hsame | ⟨-, hmade, -⟩
  · exact .inl (lookUp_eq_notFound.mpr (hsame.trans hnone))
  · exact .inr ⟨lookUp_eq_ok.mpr ⟨rfl, hmade⟩, hmade⟩

/-- Below what is missing there is nothing. -/
theorem Rooted.nodes_below (hroot : fs.Rooted) (hdown : path.Descends)
    (hne : path.destination ≠ []) (hnone : fs.nodes[path.destination]? = none) (segment : String) :
    fs.nodes[path.destination ++ [segment]]? = none := by
  by_contra hsome
  rcases hroot _ _ hsome with hup | hdirectory
  · obtain ⟨name, rest, hdest⟩ := List.exists_cons_of_ne_nil hne
    have hmem : name ∈ path.destination := hdest ▸ List.mem_cons_self
    have hdots : name = ".." := of_decide_eq_true (List.all_eq_true.mp hup name hmem)
    rw [hdown.destination, List.mem_filter] at hmem
    rcases hdown name hmem.1 with hidle | hname
    · simp [hidle] at hmem
    · exact hname.descends hdots
  · cases hnone.symm.trans hdirectory

/-- A path that only goes down and finds nothing still leads nowhere, or to a directory that has
been made. -/
theorem MadeAlong.walk (h : MadeAlong front fs fs') (hroot : fs.Rooted) (hdown : path.Descends)
    (hmiss : path.foldlM fs.enter ([], .directory) = .error .notFound) :
    fs.nodes[path.destination]? = none ∧ path.destination ≠ [] ∧
      (path.foldlM fs'.enter ([], .directory) = .error .notFound ∨
        path.foldlM fs'.enter ([], .directory) = .ok (path.destination, .directory) ∧
          fs'.nodes[path.destination]? = some .directory) := by
  induction path using List.reverseRecOn with
  | nil => cases hmiss
  | append_singleton way segment ih =>
    have hway : Path.Descends way := fun s hs => hdown s (List.mem_append_left _ hs)
    have hsegment := hdown segment (List.mem_append_right _ List.mem_cons_self)
    rw [Path.destination_snoc]
    cases hw : way.foldlM fs.enter ([], .directory) with
    | error e =>
      rw [List.foldlM_append, hw] at hmiss
      obtain rfl : e = .notFound := Except.error.inj hmiss
      obtain ⟨hnone, hne, hlater⟩ := ih hway hw
      rcases hsegment with hidle | hname
      · rw [Path.advance, if_pos hidle]
        refine ⟨hnone, hne, hlater.imp (walk_of_isPrefix (List.prefix_append _ _)) ?_⟩
        rintro ⟨hwalk, hmade⟩
        exact ⟨(walk_snoc hwalk segment).trans (if_pos hidle), hmade⟩
      · have hbelow := hroot.nodes_below hway hne hnone segment
        rw [hname.advance]
        refine ⟨hbelow, by simp, ?_⟩
        rcases hlater with hmiss' | ⟨hwalk, -⟩
        · exact .inl (walk_of_isPrefix (List.prefix_append _ _) hmiss')
        · rw [hname.walk hwalk]
          exact h.lookUp hbelow
    | ok end' =>
      obtain ⟨place, node⟩ := end'
      obtain rfl : Path.destination way = place := destination_of_walk hw
      cases node with
      | file bytes =>
        rw [List.foldlM_append, hw] at hmiss
        cases hmiss
      | directory =>
        rw [walk_snoc hw] at hmiss
        rcases hsegment with hidle | hname
        · cases hmiss.symm.trans (if_pos hidle)
        · rw [hname.enter] at hmiss
          have hnone := lookUp_eq_notFound.mp hmiss
          rw [hname.advance, hname.walk (walk_of_keeps h.keepsDirectories way _ hw)]
          exact ⟨hnone, by simp, h.lookUp hnone⟩

/-- Making directories on the way to the file of a path that only goes down shows nothing there. -/
theorem MadeAlong.find (h : MadeAlong path.directory fs fs') (hroot : fs.Rooted)
    (hdown : path.Descends) (hmiss : fs.find path.directory = .error .notFound) :
    fs'.find path = fs.find path := by
  have hwalk := walk_of_isPrefix path.directory_isPrefix (find_eq_notFound.mp hmiss).2
  obtain ⟨hnone, -, hmiss' | ⟨-, hmade⟩⟩ := h.walk hroot hdown hwalk
  · rw [FileSystem.find, FileSystem.find, hwalk, hmiss']
  · rcases h path.destination with hsame | ⟨-, -, front, hf, ht⟩
    · cases hmade.symm.trans (hsame.trans hnone)
    · exact absurd ht (hdown.target?_ne hf)

end FileSystem

end MachineVault
