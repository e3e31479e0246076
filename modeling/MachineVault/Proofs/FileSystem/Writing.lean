import Mathlib.Data.List.Induction
import MachineVault.Proofs.FileSystem.Sparing

/-! When a file can be replaced. Where no file stands in the way of a directory and no directory in
the way of a file, the directories are made that are missing, and every step goes through. -/

namespace MachineVault

namespace Path

theorem text_nil : text [] = "" := String.intercalate_nil

theorem text_snoc {front : Path} (h : front ≠ []) (name : String) :
    text (front ++ [name]) = front.text ++ "/" ++ name := by
  rw [text, String.intercalate_append_of_ne_nil h (List.cons_ne_nil _ _),
    String.intercalate_singleton]
  rfl

theorem text_singleton (name : String) : text [name] = name := String.intercalate_singleton

/-- A name that is not idle is the last one of a path. -/
theorem trimEnd_snoc (front : Path) {name : String} (h : isIdle name = false) :
    trimEnd (front ++ [name]) = front ++ [name] := by
  rw [trimEnd, List.reverse_append, List.reverse_singleton, List.singleton_append,
    List.dropWhile_cons_of_neg (by simp [h]), List.reverse_cons, List.reverse_reverse]

theorem directory_snoc (front : Path) {name : String} (h : isIdle name = false) :
    directory (front ++ [name]) = front := by
  rw [directory, trimEnd_snoc front h, List.dropLast_concat]

/-- The ways from the root to a directory and to those that it is in, outermost first. -/
def prefixes (path : Path) : List Path := (List.range path.length).map fun n => path.take (n + 1)

theorem prefixes_snoc (front : Path) (name : String) :
    prefixes (front ++ [name]) = front.prefixes ++ [front ++ [name]] := by
  rw [prefixes, List.length_append, List.length_singleton, List.range_succ, List.map_append,
    List.map_singleton, List.take_of_length_le (by simp), prefixes]
  congr 1
  refine List.map_congr_left fun n hn => ?_
  rw [List.take_append_of_le_length (List.mem_range.mp hn)]

theorem parents_snoc (front : Path) {name : String} (h : isIdle name = false) :
    parents (front ++ [name]) = front.prefixes := by
  rw [parents, directory_snoc front h, prefixes]
  refine List.map_congr_left fun n hn => ?_
  rw [List.take_append_of_le_length (List.mem_range.mp hn)]

end Path

namespace FileSystem

variable {fs fs' : FileSystem} {front path : Path} {name : String} {base place : Place}
  {bytes : Bytes}

theorem validate_eq_ok_iff :
    validate path = .ok () ↔ '\x00' ∉ path.text.toList ∧ path.text.utf8ByteSize ≤ pathLimit := by
  refine ⟨fun h => ?_, fun h => validate_eq_ok h.1 h.2⟩
  unfold validate at h
  rw [String.contains_char_eq] at h
  split at h
  · cases h
  · rename_i hn
    split at h
    · cases h
    · exact ⟨by simpa using hn, Nat.not_lt.mp ‹_›⟩

/-- What leads to a path that can be one can be one. -/
theorem validate_front (h : validate (front ++ [name]) = .ok ()) : validate front = .ok () := by
  by_cases hf : front = []
  · subst hf
    refine validate_eq_ok ?_ ?_ <;> rw [Path.text_nil]
    · exact List.not_mem_nil
    · exact Nat.zero_le _
  · rw [validate_eq_ok_iff, Path.text_snoc hf, String.toList_append, String.toList_append,
      List.mem_append, List.mem_append, String.utf8ByteSize_append, String.utf8ByteSize_append] at h
    exact validate_eq_ok (fun hn => h.1 (.inl (.inl hn))) (by omega)

/-- So can a path to a name beside it that is no longer. -/
theorem validate_beside {name' : String} (h : validate (front ++ [name]) = .ok ())
    (hn : '\x00' ∉ name'.toList) (hl : name'.utf8ByteSize ≤ name.utf8ByteSize) :
    validate (front ++ [name']) = .ok () := by
  rw [validate_eq_ok_iff] at h ⊢
  by_cases hf : front = []
  · subst hf
    rw [List.nil_append, Path.text_singleton] at h ⊢
    exact ⟨hn, Nat.le_trans hl h.2⟩
  · rw [Path.text_snoc hf, String.toList_append, String.utf8ByteSize_append] at h ⊢
    rw [List.mem_append] at h ⊢
    exact ⟨fun hm => hm.elim (fun hm => h.1 (.inl hm)) hn, by omega⟩

/-- A segment that files and directories can have for a name. -/
structure IsName (segment : String) : Prop where
  stays : Path.isIdle segment = false
  descends : segment ≠ ".."
  fits : segment.utf8ByteSize ≤ nameLimit

theorem isName_of_mem_snoc {names : List String} (hnames : ∀ name ∈ names, IsName name)
    (hname : IsName name) : ∀ n ∈ names ++ [name], IsName n := by
  intro n hm
  rcases List.mem_append.mp hm with hm | hm
  · exact hnames n hm
  · exact List.mem_singleton.mp hm ▸ hname

theorem IsName.enter (h : IsName name) (place : Place) (fs : FileSystem) :
    fs.enter (place, .directory) name = fs.lookUp (place ++ [name]) := by
  have hi : ¬Path.isIdle name = true := by simp [h.stays]
  exact (if_neg hi).trans ((if_neg h.descends).trans (if_neg (Nat.not_lt.mpr h.fits)))

theorem walk_snoc {a : Place × Node} (h : front.foldlM fs.enter a = .ok (place, .directory))
    (name : String) : (front ++ [name]).foldlM fs.enter a = fs.enter (place, .directory) name := by
  rw [List.foldlM_append, h]
  exact bind_pure (fs.enter (place, .directory) name)

/-- From a directory, a name leads to what is kept under it. -/
theorem IsName.walk (h : IsName name)
    (hw : front.foldlM fs.enter ([], .directory) = .ok (place, .directory)) :
    (front ++ [name]).foldlM fs.enter ([], .directory) = fs.lookUp (place ++ [name]) := by
  rw [walk_snoc hw, h.enter]

theorem IsName.advance (h : IsName name) (place : Place) :
    Path.advance place name = place ++ [name] := by
  rw [Path.advance, if_neg (by simp [h.stays]), if_neg h.descends]

theorem foldl_advance {names : List String} (hnames : ∀ name ∈ names, IsName name) (place : Place) :
    names.foldl Path.advance place = place ++ names := by
  induction names generalizing place with
  | nil => exact (List.append_nil place).symm
  | cons name rest ih =>
    rw [List.foldl_cons, (hnames name List.mem_cons_self).advance,
      ih (fun n hn => hnames n (List.mem_cons_of_mem _ hn)), List.append_assoc,
      List.singleton_append]

theorem IsName.names (h : IsName name) (hv : validate (front ++ [name]) = .ok ())
    (hw : front.foldlM fs.enter ([], .directory) = .ok (place, .directory)) :
    fs.Names (front ++ [name]) (place ++ [name]) :=
  ⟨hv, front, name, place, rfl, rfl, hw, h.enter place⟩

theorem Names.entry (h : fs.Names path place) : fs.entry path = .ok (place, fs.nodes[place]?) := by
  obtain ⟨hv, front, name, above, rfl, rfl, hw, he⟩ := id h
  rw [FileSystem.entry, h.find, lookUp]
  cases fs.nodes[above ++ [name]]? with
  | some node => rfl
  | none =>
    have hfront : fs.find front = .ok (above, .directory) := by
      rw [FileSystem.find, validate_front hv]
      exact hw
    dsimp only
    rw [List.dropLast_concat, hfront, List.getLast?_concat]
    rfl

theorem nodes_put_self (fs : FileSystem) (place : Place) (node : Node) :
    (fs.put place node).nodes[place]? = some node := by
  rw [put, getElem?_insert, if_pos rfl]

theorem run_cons_of_perform {step : Step} (h : fs.perform step = .ok fs') (rest : List Step) :
    fs.run (step :: rest) = fs'.run rest := by
  rw [run, h]

theorem run_append_of_run {steps : List Step} (h : fs.run steps = (fs', .ok ()))
    (rest : List Step) : fs.run (steps ++ rest) = fs'.run rest := by
  rw [run_append, h]

/-- What goes on at an entry that is no directory goes on at the place that a path names. -/
theorem bind_entry (f : Place → FileSystem) (h : fs.Names path place)
    (hn : fs.nodes[place]? ≠ some .directory) :
    (do
      match ← fs.entry path with
      | (_, some .directory) => throw FileError.isADirectory
      | (place, _) => return f place) = .ok (f place) := by
  refine bind_eq_ok.mpr ⟨_, h.entry, ?_⟩
  cases hnode : fs.nodes[place]? with
  | none => rfl
  | some node =>
    cases node with
    | directory => exact absurd hnode hn
    | file => rfl

theorem perform_truncate (h : fs.Names path place) (hn : fs.nodes[place]? ≠ some .directory) :
    fs.perform (.truncate path) = .ok (fs.put place (.file [])) :=
  bind_entry (fun place => fs.put place (.file [])) h hn

theorem perform_append {before : Bytes} (h : fs.Names path place)
    (hn : fs.nodes[place]? = some (.file before)) (bytes : Bytes) :
    fs.perform (.append path bytes) = .ok (fs.put place (.file (before ++ bytes))) :=
  bind_eq_ok.mpr ⟨_, h.contents hn, rfl⟩

theorem perform_rename {target : Path} {goal : Place} (h : fs.Names path place)
    (hn : fs.nodes[place]? = some (.file bytes)) (ht : fs.Names target goal)
    (hg : fs.nodes[goal]? ≠ some .directory) :
    fs.perform (.rename path target) = .ok ⟨(fs.nodes.erase place).insert goal (.file bytes)⟩ :=
  bind_eq_ok.mpr ⟨_, h.contents hn,
    bind_entry (fun goal => ⟨(fs.nodes.erase place).insert goal (.file bytes)⟩) ht hg⟩

/-- Directories that are there are found to be. -/
theorem run_makeDirectory_of_walk (hv : validate path = .ok ())
    (hw : path.foldlM fs.enter ([], .directory) = .ok (place, .directory)) :
    fs.run (path.prefixes.map .makeDirectory) = (fs, .ok ()) := by
  induction path using List.reverseRecOn generalizing place with
  | nil => rfl
  | append_singleton front name ih =>
    have hfound : fs.find (front ++ [name]) = .ok (place, .directory) := by
      rw [FileSystem.find, hv]
      exact hw
    have hstep : fs.perform (.makeDirectory (front ++ [name])) = .ok fs := by
      refine bind_eq_ok.mpr ⟨(place, some .directory), ?_, rfl⟩
      rw [FileSystem.entry, hfound]
    rw [List.foldlM_append] at hw
    obtain ⟨⟨above, node⟩, hw, hlast⟩ := bind_eq_ok.mp hw
    obtain rfl : node = .directory := directory_of_walk hlast
    rw [Path.prefixes_snoc, List.map_append, run_append_of_run (ih (validate_front hv) hw),
      List.map_singleton, run_cons_of_perform hstep]
    rfl

/-- Below a directory that a path leads to, there are directories down to a certain depth, and files
only right below that. -/
structure Clear (fs : FileSystem) (front : Path) (base : Place) (depth : Nat) : Prop where
  walk : front.foldlM fs.enter ([], .directory) = .ok (base, .directory)
  level : ∀ {names : List String} {node : Node}, names ≠ [] → (∀ name ∈ names, IsName name) →
    fs.nodes[base ++ names]? = some node → (node = .directory ↔ names.length ≤ depth)

namespace Clear

variable {depth : Nat} {names : List String} {step : Step}

/-- A step keeps this that puts a node where it belongs. -/
theorem performed (h : fs.Clear front base depth) (hp : fs.perform step = .ok fs') {node : Node}
    (hself : fs'.nodes[base ++ names]? = some node)
    (hnode : node = .directory ↔ names.length ≤ depth)
    (hother : ∀ place, place ≠ base ++ names → fs'.nodes[place]? = fs.nodes[place]? ∨
      fs'.nodes[place]? = none) : fs'.Clear front base depth where
  walk := walk_of_keeps (FileSystem.performed hp).keepsDirectories front _ h.walk
  level {names' node'} hne hnames hn := by
    by_cases heq : names' = names
    · subst heq
      cases hself.symm.trans hn
      exact hnode
    · rcases hother (base ++ names') fun h => heq (List.append_cancel_left h) with hsame | hnone
      · exact h.level hne hnames (hsame ▸ hn)
      · cases hnone.symm.trans hn

theorem put (h : fs.Clear front base depth) {node : Node}
    (hp : fs.perform step = .ok (fs.put (base ++ names) node))
    (hnode : node = .directory ↔ names.length ≤ depth) :
    (fs.put (base ++ names) node).Clear front base depth := by
  refine h.performed hp (nodes_put_self ..) hnode fun place hne => .inl ?_
  rw [FileSystem.put, getElem?_insert, if_neg hne]

/-- At the depth of files there is no directory. -/
theorem notDirectory (h : fs.Clear front base depth) (hnames : ∀ name ∈ names, IsName name)
    (hl : names.length = depth + 1) : fs.nodes[base ++ names]? ≠ some .directory := by
  intro hn
  have hne : names ≠ [] := List.ne_nil_of_length_eq_add_one hl
  have := (h.level hne hnames hn).mp rfl
  omega

/-- Names go down from the directory that a path leads to. -/
theorem destination_append (h : fs.Clear front base depth) (hnames : ∀ name ∈ names, IsName name) :
    Path.destination (front ++ names) = base ++ names := by
  rw [Path.destination, List.foldl_append, destination_of_walk h.walk, foldl_advance hnames]

/-- Going down by names leads to a directory or nowhere. -/
theorem walk_names (h : fs.Clear front base depth) (hnames : ∀ name ∈ names, IsName name)
    (hl : names.length ≤ depth) :
    (front ++ names).foldlM fs.enter ([], .directory) = .ok (base ++ names, .directory) ∨
      (front ++ names).foldlM fs.enter ([], .directory) = .error .notFound := by
  induction names using List.reverseRecOn with
  | nil => exact .inl (by simpa using h.walk)
  | append_singleton names name ih =>
    have hname := hnames name (List.mem_append_right _ List.mem_cons_self)
    have hl' : names.length ≤ depth := by
      rw [List.length_append] at hl
      omega
    rw [← List.append_assoc]
    rcases ih (fun n hn => hnames n (List.mem_append_left _ hn)) hl' with hw | hw
    · rw [hname.walk hw, lookUp, List.append_assoc]
      cases hn : fs.nodes[base ++ (names ++ [name])]? with
      | none => exact .inr rfl
      | some node =>
        obtain rfl := (h.level (by simp) hnames hn).mpr hl
        exact .inl rfl
    · rw [List.foldlM_append, hw]
      exact .inr rfl

/-- Where there is no file, none is found. -/
theorem find_of_fileAt?_eq_none (h : fs.Clear front base depth)
    (hnames : ∀ name ∈ names, IsName name) (hl : names.length = depth) (hname : IsName name)
    (hv : validate (front ++ names ++ [name]) = .ok ())
    (hn : fs.fileAt? (base ++ names ++ [name]) = none) :
    fs.find (front ++ names ++ [name]) = .error .notFound := by
  rw [find_snoc hv]
  rcases h.walk_names hnames (Nat.le_of_eq hl) with hw | hw
  · rw [hw]
    change fs.enter (base ++ names, .directory) name = _
    rw [hname.enter, lookUp]
    cases hnode : fs.nodes[base ++ names ++ [name]]? with
    | none => rfl
    | some node =>
      cases node with
      | directory =>
        rw [List.append_assoc] at hnode
        refine absurd hnode (h.notDirectory (isName_of_mem_snoc hnames hname) ?_)
        rw [List.length_append, hl, List.length_singleton]
      | file bytes =>
        rw [fileAt?, hnode] at hn
        cases hn
  · rw [hw]
    rfl

/-- Missing directories are made where no file stands in the way. -/
theorem makeDirectories (h : fs.Clear front base depth) (hnames : ∀ name ∈ names, IsName name)
    (hl : names.length ≤ depth) (hv : validate (front ++ names) = .ok ()) :
    ∃ fs', fs.run ((front ++ names).prefixes.map .makeDirectory) = (fs', .ok ()) ∧
      fs'.Clear front base depth ∧
      (front ++ names).foldlM fs'.enter ([], .directory) = .ok (base ++ names, .directory) := by
  induction names using List.reverseRecOn with
  | nil =>
    rw [List.append_nil, List.append_nil] at *
    exact ⟨fs, run_makeDirectory_of_walk hv h.walk, h, h.walk⟩
  | append_singleton names name ih =>
    rw [← List.append_assoc] at hv
    have hname := hnames name (List.mem_append_right _ List.mem_cons_self)
    have hl' : names.length ≤ depth := by
      rw [List.length_append] at hl
      omega
    obtain ⟨fs₁, hrun, hclear, hw⟩ :=
      ih (fun n hn => hnames n (List.mem_append_left _ hn)) hl' (validate_front hv)
    have hentry := (hname.names hv hw).entry
    rw [← List.append_assoc, Path.prefixes_snoc, List.map_append, run_append_of_run hrun,
      List.map_singleton]
    rw [List.append_assoc base] at hentry
    -- the innermost directory is made, unless it is there; a file cannot be
    cases hn : fs₁.nodes[base ++ (names ++ [name])]? with
    | none =>
      have hstep : fs₁.perform (.makeDirectory (front ++ names ++ [name])) =
          .ok (fs₁.put (base ++ (names ++ [name])) .directory) := by
        refine bind_eq_ok.mpr ⟨_, hentry, ?_⟩
        rw [hn]
        rfl
      have hkeeps := (FileSystem.performed hstep).keepsDirectories
      refine ⟨_, run_cons_of_perform hstep [], hclear.put hstep (iff_of_true rfl hl), ?_⟩
      rw [hname.walk (walk_of_keeps hkeeps _ _ hw), lookUp, List.append_assoc, nodes_put_self]
    | some node =>
      obtain rfl := (hclear.level (by simp) hnames hn).mpr hl
      have hstep : fs₁.perform (.makeDirectory (front ++ names ++ [name])) = .ok fs₁ := by
        refine bind_eq_ok.mpr ⟨_, hentry, ?_⟩
        rw [hn]
        rfl
      refine ⟨fs₁, run_cons_of_perform hstep [], hclear, ?_⟩
      rw [hname.walk hw, lookUp, List.append_assoc, hn]

/-- A file can be written where no file stands in the way of its directory. -/
theorem write (h : fs.Clear front base depth) (hnames : ∀ name ∈ names, IsName name)
    (hl : names.length = depth) (hname : IsName name)
    (hv : validate (front ++ names ++ [name]) = .ok ()) (bytes : Bytes) :
    ∃ fs', fs.write (front ++ names ++ [name]) bytes = (fs', .ok ()) ∧
      fs'.Clear front base depth ∧
      (front ++ names).foldlM fs'.enter ([], .directory) = .ok (base ++ names, .directory) ∧
      fs'.nodes[base ++ (names ++ [name])]? = some (.file bytes) := by
  obtain ⟨fs₁, hrun, hclear, hw⟩ :=
    makeDirectories h hnames (Nat.le_of_eq hl) (validate_front hv)
  have hdeep : (names ++ [name]).length = depth + 1 := by
    rw [List.length_append, hl]
    rfl
  have hfile (b : Bytes) : Node.file b = .directory ↔ (names ++ [name]).length ≤ depth :=
    iff_of_false nofun (by rw [hdeep]; exact Nat.not_succ_le_self depth)
  -- the path goes on naming the place, since no step takes a directory away
  have hnamed := hname.names hv hw
  rw [List.append_assoc base] at hnamed
  have htruncate :=
    perform_truncate hnamed (hclear.notDirectory (isName_of_mem_snoc hnames hname) hdeep)
  have hkeeps := (FileSystem.performed htruncate).keepsDirectories
  have happend := perform_append (hnamed.of_keeps hkeeps) (nodes_put_self ..) bytes
  have hkeeps' := (FileSystem.performed happend).keepsDirectories
  refine ⟨_, ?_, (hclear.put htruncate (hfile _)).put happend (hfile _),
    walk_of_keeps hkeeps' _ _ (walk_of_keeps hkeeps _ _ hw), nodes_put_self ..⟩
  have hvalidate : fs.perform (.validate (front ++ names)) = .ok fs :=
    bind_eq_ok.mpr ⟨(), validate_front hv, rfl⟩
  rw [FileSystem.write, writeSteps, Path.directory_snoc _ hname.stays,
    Path.parents_snoc _ hname.stays, List.cons_append, run_cons_of_perform hvalidate,
    run_append_of_run hrun, run_cons_of_perform htruncate, run_cons_of_perform happend]
  rfl

/-- It can be replaced if its temporary file can be written. -/
theorem replace {temporary : String} (h : fs.Clear front base depth)
    (hnames : ∀ name ∈ names, IsName name) (hl : names.length = depth) (hname : IsName name)
    (htemporary : IsName temporary)
    (hpath : (front ++ names ++ [name]).temporary = front ++ names ++ [temporary])
    (hv : validate (front ++ names ++ [name]) = .ok ())
    (hvt : validate (front ++ names ++ [temporary]) = .ok ()) (bytes : Bytes) :
    ∃ fs', fs.replace (front ++ names ++ [name]) bytes = (fs', .ok ()) ∧
      fs'.Clear front base depth := by
  obtain ⟨fs₁, hwrite, hclear, hw, hnode⟩ := h.write hnames hl htemporary hvt bytes
  have hdeep : (names ++ [name]).length = depth + 1 := by
    rw [List.length_append, hl]
    rfl
  have hsource := htemporary.names hvt hw
  have htarget := hname.names hv hw
  rw [List.append_assoc base] at hsource htarget
  have hrename := perform_rename hsource hnode htarget
    (hclear.notDirectory (isName_of_mem_snoc hnames hname) hdeep)
  have hself : ((fs₁.nodes.erase (base ++ (names ++ [temporary]))).insert
      (base ++ (names ++ [name])) (.file bytes))[base ++ (names ++ [name])]? =
        some (.file bytes) := by
    rw [getElem?_insert, if_pos rfl]
  refine ⟨_, ?_, hclear.performed hrename hself (iff_of_false nofun ?_) fun place hp => ?_⟩
  · rw [FileSystem.write] at hwrite
    rw [FileSystem.replace, replaceSteps, hpath, run_append_of_run hwrite,
      run_cons_of_perform hrename]
    rfl
  · rw [hdeep]
    exact Nat.not_succ_le_self depth
  · rw [getElem?_insert, if_neg hp, getElem?_erase]
    split
    · exact .inr rfl
    · exact .inl rfl

end Clear

end FileSystem

end MachineVault
