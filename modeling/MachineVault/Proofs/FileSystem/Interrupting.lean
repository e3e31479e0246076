import MachineVault.Proofs.FileSystem.Making

/-! Replacing a file and being cut off. Whatever has been done by then, the path reads as before or
as the new contents, unless its temporary file is the file itself: that is written in place, and any
part of it can be read. -/

namespace MachineVault

namespace Path

variable {path : Path} {place : FileSystem.Place}

theorem isIdle_temporary (stem : List Char) :
    isIdle (String.ofList (stem ++ ['.', 't', 'm', 'p'])) = false := by
  rw [isIdle, Bool.or_eq_false_iff, decide_eq_false_iff_not, decide_eq_false_iff_not]
  constructor <;> intro h <;> simpa using congrArg (·.toList.length) h

/-- The temporary file lies beside the last name of its path. No file can be what stands for it
where there is none. -/
theorem temporary_cases (path : Path) : path.temporary.directory = path.directory ∧
    (path.temporary.target? = none ∨ ∃ name temporary,
      path.trimEnd = path.directory ++ [name] ∧
      path.temporary = path.directory ++ [temporary]) := by
  unfold temporary
  split
  case h_1 hlast => exact ⟨rfl, .inl (target?_eq_none_of_trimEnd (.inl hlast))⟩
  case h_2 hlast => exact ⟨rfl, .inl (target?_eq_none_of_trimEnd (.inr hlast))⟩
  case h_3 name _ hlast =>
    dsimp only
    split
    · exact ⟨directory_snoc _ rfl, .inl (by rw [target?_snoc, if_pos (by rfl)])⟩
    · refine ⟨directory_snoc _ (isIdle_temporary _), .inr ⟨name, _, ?_, rfl⟩⟩
      rcases path.trimEnd_eq_nil_or_snoc with htrim | ⟨last, -, htrim⟩
      · rw [htrim] at hlast
        cases hlast
      · rw [htrim, List.getLast?_concat] at hlast
        rw [htrim, Option.some.inj hlast]

end Path

namespace FileSystem

variable {fs fs' fs₀ : FileSystem} {path front : Path} {place : Place} {bytes part : Bytes}
  {steps done : List Step}

/-- What has been done of a run that was cut off: some of its steps, and where the cut was in the
middle of writing, a part of that. -/
inductive CutOff : (done steps : List Step) → Prop
  | before (steps : List Step) : CutOff [] steps
  | within {path : Path} {part bytes : Bytes} (steps : List Step) (h : part <+: bytes) :
    CutOff [.append path part] (.append path bytes :: steps)
  | behind {done steps : List Step} (step : Step) (h : CutOff done steps) :
    CutOff (step :: done) (step :: steps)

/-- What can be read at a path when its replacement has been cut off. -/
inductive Finds (fs : FileSystem) (path : Path) (bytes : Bytes) :
    Except FileError (Option Bytes) → Prop
  | old : Finds fs path bytes (fs.readOptional path)
  | new : Finds fs path bytes (.ok (some bytes))
  /-- A path that goes up again, or on by a name that is too long, gives another answer as soon as
  the directory in front of that has been made. No file has changed. -/
  | uncovered {fs₀ : FileSystem} (hmiss : fs.find path.directory = .error .notFound)
    (hmade : MadeAlong path.directory fs fs₀) (hstray : fs.Rooted → ¬path.Descends) :
    Finds fs path bytes (fs₀.readOptional path)
  /-- A path whose temporary file is the file itself is written in place. -/
  | part {part : Bytes} (hown : path.temporary = path) (hpart : part <+: bytes) :
    Finds fs path bytes (.ok (some part))
  /-- So is one that goes on behind its name. It leads on from a file then. -/
  | blocked (hown : path.temporary = path.trimEnd) (hidle : path.trimEnd ≠ path) :
    Finds fs path bytes (.error .notADirectory)

theorem readOptional_of_contents (h : fs.contents path = .ok (place, bytes)) :
    fs.readOptional path = .ok (some bytes) := by
  rw [readOptional, read, h]
  rfl

/-- What can be read is told by what is found. -/
theorem readOptional_of_find (h : fs'.find path = fs.find path) :
    fs'.readOptional path = fs.readOptional path := by
  rw [readOptional, readOptional, read, read, contents, contents, h]

theorem readOptional_of_error {e : FileError} (h : fs.find path = .error e) (he : e ≠ .notFound) :
    fs.readOptional path = .error e := by
  rw [readOptional, read, contents, h]
  cases e <;> first | rfl | exact absurd rfl he

/-- The directories on the way to a file may have been made, as far as they were missing. -/
structure Prepared (path : Path) (fs fs₀ : FileSystem) : Prop where
  made : MadeAlong path.directory fs fs₀
  found : fs.find path.directory ≠ .error .notFound → fs₀ = fs

theorem Prepared.finds (h : Prepared path fs fs₀) :
    Finds fs path bytes (fs₀.readOptional path) := by
  by_cases hmiss : fs.find path.directory = .error .notFound
  · by_cases hplain : fs.Rooted ∧ path.Descends
    · rw [readOptional_of_find (h.made.find hplain.1 hplain.2 hmiss)]
      exact .old
    · exact .uncovered hmiss h.made fun hroot hdown => hplain ⟨hroot, hdown⟩
  · rw [h.found hmiss]
    exact .old

/-- A file that is being written at a place, and nothing else has changed. -/
structure Draft (path : Path) (place : Place) (part : Bytes) (fs₀ fs' : FileSystem) : Prop where
  names : fs₀.Names path place
  directories : KeepsDirectories fs₀ fs'
  file : fs'.nodes[place]? = some (.file part)
  beside : ∀ other : Place, other ≠ place → fs'.nodes[other]? = fs₀.nodes[other]?

theorem draft_truncate (h : fs₀.perform (.truncate path) = .ok fs') :
    ∃ place, Draft path place [] fs₀ fs' := by
  have hp := performed h
  have hk := hp.keepsDirectories
  cases hp with
  | @truncated _ place hnames hnode =>
    refine ⟨place, hnames, hk, nodes_put_self .., fun other ho => ?_⟩
    rw [put, getElem?_insert, if_neg ho]

/-- What is being written can be written further. -/
theorem Draft.append (h : Draft path place part fs₀ fs) (more : Bytes) :
    ∃ fs', fs.perform (.append path more) = .ok fs' ∧ Draft path place (part ++ more) fs₀ fs' := by
  have hstep := perform_append (h.names.of_keeps h.directories) h.file more
  have hk := (performed hstep).keepsDirectories
  refine ⟨_, hstep, h.names, fun p hp => hk p (h.directories p hp), nodes_put_self .., ?_⟩
  intro other ho
  rw [put, getElem?_insert, if_neg ho]
  exact h.beside other ho

theorem Draft.contents (h : Draft path place part fs₀ fs') :
    fs'.contents path = .ok (place, part) :=
  (h.names.of_keeps h.directories).contents h.file

theorem walk_idles {idles : List String} (h : ∀ s ∈ idles, Path.isIdle s = true)
    (a : Place × Node) : idles.foldlM fs.enter a = idles.foldlM fs'.enter a := by
  induction idles generalizing a with
  | nil => rfl
  | cons segment rest ih =>
    rw [List.forall_mem_cons] at h
    have hsegment : fs.enter a segment = fs'.enter a segment := by
      obtain ⟨place, node⟩ := a
      cases node with
      | file bytes => rfl
      | directory => exact (if_pos h.1).trans (if_pos h.1).symm
    rw [List.foldlM_cons, List.foldlM_cons, hsegment]
    exact congrArg _ (funext fun b => ih h.2 b)

/-- What a path leads to is told by the directory that it goes to and what is kept there under the
last name. -/
theorem find_of_beside {name : String} {idles : List String}
    (hidles : ∀ s ∈ idles, Path.isIdle s = true) (hk : KeepsDirectories fs fs')
    (hw : front.foldlM fs.enter ([], .directory) = .ok (place, .directory))
    (hnode : fs'.nodes[place ++ [name]]? = fs.nodes[place ++ [name]]?) :
    fs'.find (front ++ name :: idles) = fs.find (front ++ name :: idles) := by
  have hname : fs'.enter (place, .directory) name = fs.enter (place, .directory) name := by
    rcases enter_directory place name with ⟨goal, he⟩ | he | he
    · rw [he, he]
    · rw [he, he]
    · rw [he, he, lookUp, lookUp, hnode]
  have hbehind (a : Place × Node) : idles.foldlM fs'.enter a = idles.foldlM fs.enter a :=
    walk_idles hidles a
  rw [FileSystem.find, FileSystem.find, List.foldlM_append, List.foldlM_append,
    walk_of_keeps hk front _ hw, hw]
  change (validate _ >>= fun _ => fs'.enter (place, .directory) name >>= fun a =>
    idles.foldlM fs'.enter a) = _
  rw [hname]
  simp only [hbehind]
  rfl

/-- Behind a file there is nothing. -/
theorem find_behind_file (hv : validate path = .ok ())
    (hw : path.trimEnd.foldlM fs.enter ([], .directory) = .ok (place, .file bytes))
    (hidle : path.trimEnd ≠ path) : fs.find path = .error .notADirectory := by
  obtain ⟨idles, -, hpath⟩ := path.exists_trimEnd_append
  cases idles with
  | nil => exact absurd (hpath.trans (List.append_nil _)).symm hidle
  | cons segment rest =>
    have hwalk : (path.trimEnd ++ segment :: rest).foldlM fs.enter ([], .directory) =
        .error .notADirectory := by
      rw [List.foldlM_append, hw]
      rfl
    rw [FileSystem.find, hv]
    exact (congrArg (·.foldlM fs.enter ([], .directory)) hpath).trans hwalk

theorem Draft.walk (h : Draft path place part fs₀ fs') :
    path.foldlM fs'.enter ([], .directory) = .ok (place, .file part) := by
  obtain ⟨hv, -⟩ := h.names
  have hfind := (h.names.of_keeps h.directories).find
  rw [FileSystem.find, hv] at hfind
  exact hfind.trans (lookUp_eq_ok.mpr ⟨rfl, h.file⟩)

/-- A path leads where it did while a temporary file beside its own file is written. -/
theorem Draft.find_of_ne (h : Draft path.temporary place part fs₀ fs')
    (hne : path.temporary ≠ path.trimEnd) : fs'.find path = fs₀.find path := by
  obtain ⟨-, hnone | ⟨name, temporary, htrim, htemporary⟩⟩ := path.temporary_cases
  · cases hnone.symm.trans h.names.target?
  obtain ⟨-, front, last, above, hfront, rfl, hw, -⟩ := h.names
  obtain ⟨rfl, hlast⟩ := List.append_inj' (htemporary.symm.trans hfront) rfl
  obtain rfl : temporary = last := List.singleton_inj.mp hlast
  have hname : name ≠ temporary := by
    rintro rfl
    exact hne (htemporary.trans htrim.symm)
  have hnode := h.beside (above ++ [name]) (by simpa using hname)
  obtain ⟨idles, hidles, hpath⟩ := path.exists_trimEnd_append
  rw [htrim, List.append_assoc, List.singleton_append] at hpath
  rw [hpath]
  exact find_of_beside hidles h.directories hw hnode

/-- A file that is written in place shows what has been written of it, or a path that leads on from
it fails, if it does not fail for what it is. -/
theorem Draft.finds_of_own (h : Draft path.temporary place part fs₀ fs')
    (hown : path.temporary = path.trimEnd) (hpart : part <+: bytes) :
    Finds fs path bytes (fs'.readOptional path) := by
  by_cases hidle : path.trimEnd = path
  · have hself := hown.trans hidle
    have hcontents := h.contents
    rw [hself] at hcontents
    rw [readOptional_of_contents hcontents]
    exact .part hself hpart
  · cases hv : validate path with
    | error e =>
      have hfind : fs'.find path = fs.find path := by
        rw [FileSystem.find, FileSystem.find, hv]
        rfl
      rw [readOptional_of_find hfind]
      exact .old
    | ok =>
      rw [readOptional_of_error (find_behind_file hv (hown ▸ h.walk) hidle) (by decide)]
      exact .blocked hown hidle

theorem Draft.finds (h : Draft path.temporary place part fs₀ fs') (hprepared : Prepared path fs fs₀)
    (hpart : part <+: bytes) : Finds fs path bytes (fs'.readOptional path) := by
  by_cases hown : path.temporary = path.trimEnd
  · exact h.finds_of_own hown hpart
  · rw [readOptional_of_find (h.find_of_ne hown)]
    exact hprepared.finds

theorem cutOff_append {first second : List Step} (h : CutOff done (first ++ second)) :
    CutOff done first ∨ ∃ rest, done = first ++ rest ∧ CutOff rest second := by
  induction first generalizing done with
  | nil => exact .inr ⟨done, rfl, h⟩
  | cons step first ih =>
    cases h with
    | before => exact .inl (.before _)
    | within _ h => exact .inl (.within _ h)
    | behind _ h =>
      rcases ih h with h | ⟨rest, rfl, hrest⟩
      · exact .inl (.behind step h)
      · exact .inr ⟨rest, rfl, hrest⟩

theorem CutOff.append (first : List Step) {rest second : List Step} (h : CutOff rest second) :
    CutOff (first ++ rest) (first ++ second) := by
  induction first with
  | nil => exact h
  | cons step first ih => exact .behind step ih

theorem CutOff.refl (steps : List Step) : CutOff steps steps := by
  induction steps with
  | nil => exact .before []
  | cons step steps ih => exact .behind step ih

/-- The steps that make the directories on the way to a file. -/
def directorySteps (path : Path) : List Step :=
  .validate path.directory :: path.parents.map .makeDirectory

theorem replaceSteps_eq (path : Path) (bytes : Bytes) : replaceSteps path bytes =
    directorySteps path ++ [.truncate path.temporary, .append path.temporary bytes,
      .rename path.temporary path] := by
  rw [directorySteps, Path.parents_eq_prefixes, ← path.temporary_cases.1,
    ← Path.parents_eq_prefixes, replaceSteps, writeSteps]
  simp

theorem cutOff_makeDirectory {ways : List Path} (h : CutOff done (ways.map .makeDirectory)) :
    ∀ step ∈ done, ∃ front ∈ ways, step = .makeDirectory front := by
  induction ways generalizing done with
  | nil =>
    cases h
    exact nofun
  | cons way ways ih =>
    cases h with
    | before => exact nofun
    | behind _ h =>
      refine List.forall_mem_cons.mpr ⟨⟨way, List.mem_cons_self, rfl⟩, fun step hs => ?_⟩
      obtain ⟨front, hf, hstep⟩ := ih h step hs
      exact ⟨front, List.mem_cons_of_mem _ hf, hstep⟩

theorem prepared_of_cutOff (h : CutOff done (directorySteps path)) :
    Prepared path fs (fs.run done).1 := by
  cases h with
  | before => exact ⟨.refl _ fs, fun _ => rfl⟩
  | @behind done _ _ h =>
    have hways : ∀ step ∈ done, ∃ front, front <+: path.directory ∧
        step = .makeDirectory front := by
      intro step hs
      rw [Path.parents_eq_prefixes] at h
      obtain ⟨front, hf, hstep⟩ := cutOff_makeDirectory h step hs
      exact ⟨front, Path.isPrefix_of_mem_prefixes hf, hstep⟩
    rw [run]
    cases hv : validate path.directory with
    | error e =>
      have hstep : fs.perform (.validate path.directory) = .error e := by
        rw [perform, hv]
        rfl
      rw [hstep]
      exact ⟨.refl _ fs, fun _ => rfl⟩
    | ok =>
      have hstep : fs.perform (.validate path.directory) = .ok fs := by
        rw [perform, hv]
        rfl
      rw [hstep]
      exact ⟨madeAlong_run hways, fun hfound => run_makeDirectory_of_found hv hfound hways⟩

/-- From the prepared directories on, the draft is written and takes the place of the file. -/
theorem Prepared.finds_of_cutOff (h : Prepared path fs fs₀)
    (hdone : CutOff done [.truncate path.temporary, .append path.temporary bytes,
      .rename path.temporary path]) :
    Finds fs path bytes ((fs₀.run done).1.readOptional path) := by
  cases hdone with
  | before => exact h.finds
  | behind _ hdone =>
  rw [run]
  cases htruncate : fs₀.perform (.truncate path.temporary) with
  | error e => exact h.finds
  | ok fs₁ =>
  obtain ⟨place, hdraft⟩ := draft_truncate htruncate
  cases hdone with
  | before => exact hdraft.finds h List.nil_prefix
  | @within _ part _ _ hpart =>
    obtain ⟨fs₂, happend, hdraft⟩ := hdraft.append part
    dsimp only
    rw [run_cons_of_perform happend]
    exact hdraft.finds h hpart
  | behind _ hdone =>
  obtain ⟨fs₂, happend, hdraft⟩ := hdraft.append bytes
  dsimp only
  rw [run_cons_of_perform happend]
  cases hdone with
  | before => exact hdraft.finds h (List.prefix_refl _)
  | behind _ hdone =>
  cases hdone
  rw [run]
  cases hrename : fs₂.perform (.rename path.temporary path) with
  | error e => exact hdraft.finds h (List.prefix_refl _)
  | ok fs₃ =>
    obtain ⟨goal, hc⟩ := contents_rename hrename hdraft.contents
    exact readOptional_of_contents hc ▸ .new

theorem finds_of_cutOff (h : CutOff done (replaceSteps path bytes)) :
    Finds fs path bytes ((fs.run done).1.readOptional path) := by
  rw [replaceSteps_eq] at h
  rcases cutOff_append h with h | ⟨rest, rfl, hrest⟩
  · exact (prepared_of_cutOff h).finds
  · have hprepared : Prepared path fs (fs.run (directorySteps path)).1 :=
      prepared_of_cutOff (.refl _)
    rw [run_append]
    split
    case h_1 fs₀ hrun =>
      rw [hrun] at hprepared
      exact hprepared.finds_of_cutOff hrest
    case h_2 fs₀ e hrun =>
      rw [hrun] at hprepared
      exact hprepared.finds

/-- Once the file of a path can be written, any part of it can have been written. -/
theorem exists_draft_of_write (h : (fs.write path bytes).2 = .ok ()) : ∃ fs₀ fs₁ place,
    fs.run (directorySteps path) = (fs₀, .ok ()) ∧ fs₀.perform (.truncate path) = .ok fs₁ ∧
      Draft path place [] fs₀ fs₁ := by
  have hrun : fs.run (directorySteps path ++ [.truncate path, .append path bytes]) =
      ((fs.write path bytes).1, .ok ()) := Prod.ext rfl h
  obtain ⟨fs₀, hdirectories, hrun⟩ := run_append_ok hrun
  obtain ⟨fs₁, htruncate, -⟩ := run_cons_ok hrun
  obtain ⟨place, hdraft⟩ := draft_truncate htruncate
  exact ⟨fs₀, fs₁, place, hdirectories, htruncate, hdraft⟩

/-- A replacement that is cut off anywhere leaves the old state of a path or the new one to be read,
and the new one if it went through. But where the temporary file is the file itself, every part of
the new contents is left by some cut, or the path leads on from a file and can be read no more. -/
theorem replace_cutOff (fs : FileSystem) (path : Path) (bytes : Bytes) :
    (∀ done, CutOff done (replaceSteps path bytes) →
      Finds fs path bytes ((fs.run done).1.readOptional path)) ∧
    (∀ fs', fs.replace path bytes = (fs', .ok ()) →
      fs'.readOptional path = .ok (some bytes)) ∧
    (path.temporary = path → (fs.write path bytes).2 = .ok () → ∀ part, part <+: bytes →
      ∃ done, CutOff done (replaceSteps path bytes) ∧
        (fs.run done).1.readOptional path = .ok (some part)) ∧
    (path.temporary = path.trimEnd → path.trimEnd ≠ path → validate path = .ok () →
      (fs.write path.trimEnd bytes).2 = .ok () →
      ∃ fs', fs.replace path bytes = (fs', .error .notADirectory) ∧
        fs'.readOptional path = .error .notADirectory) := by
  refine ⟨fun done => finds_of_cutOff, fun fs' h => ?_, fun hown h part hpart => ?_,
    fun hown hidle hv h => ?_⟩
  · rw [readOptional, read_replace h]
  · obtain ⟨fs₀, fs₁, place, hdirectories, htruncate, hdraft⟩ := exists_draft_of_write h
    obtain ⟨fs₂, happend, hdraft⟩ := hdraft.append part
    refine ⟨directorySteps path ++ [.truncate path, .append path part], ?_, ?_⟩
    · rw [replaceSteps_eq, hown]
      exact .append _ (.behind _ (.within _ hpart))
    · rw [run_append_of_run hdirectories, run_cons_of_perform htruncate,
        run_cons_of_perform happend]
      exact readOptional_of_contents hdraft.contents
  · obtain ⟨fs₀, fs₁, place, hdirectories, htruncate, hdraft⟩ := exists_draft_of_write h
    obtain ⟨fs₂, happend, hdraft⟩ := hdraft.append bytes
    have hfind := find_behind_file hv hdraft.walk hidle
    refine ⟨fs₂, ?_, readOptional_of_error hfind (by decide)⟩
    have hwrite : fs.run (writeSteps path.trimEnd bytes) = (fs₂, .ok ()) := by
      change fs.run (directorySteps path.trimEnd ++ [_, _]) = _
      rw [run_append_of_run hdirectories, run_cons_of_perform htruncate,
        run_cons_of_perform happend]
      rfl
    have hentry : fs₂.entry path = .error .notADirectory := by
      rw [FileSystem.entry, hfind]
    have hrename : fs₂.perform (.rename path.trimEnd path) = .error .notADirectory := by
      rw [perform, hdraft.contents]
      change (fs₂.entry path >>= _) = _
      rw [hentry]
      rfl
    rw [FileSystem.replace, replaceSteps, hown, run_append_of_run hwrite, run, hrename]

/-- Beside other files a file can always be written. -/
theorem write_of_flat {name : String} (hflat : ∀ place : Place, fs.nodes[place]? ≠ some .directory)
    (hname : IsName name) (hv : validate [name] = .ok ()) : (fs.write [name] bytes).2 = .ok () := by
  have hclear : fs.Clear [] [] 0 := by
    refine ⟨rfl, fun hne _ hn => iff_of_false (fun h => hflat _ (h ▸ hn)) ?_⟩
    exact fun h => hne (List.length_eq_zero_iff.mp (Nat.le_zero.mp h))
  obtain ⟨fs', hwrite, -⟩ := hclear.write (fun _ h => absurd h List.not_mem_nil) rfl hname hv bytes
  exact congrArg Prod.snd hwrite

theorem isName_tmpFile : IsName "b.tmp" := ⟨rfl, by decide, by decide⟩

theorem torn_tmpFile :
    (∃ done, CutOff done (replaceSteps ["b.tmp"] [3, 4]) ∧
      ((({} : FileSystem).put ["b.tmp"] (.file [1, 2])).run done).1.readOptional ["b.tmp"] =
        .ok (some [3])) ∧
    ({} : FileSystem).find ["b.tmp", ""] = .error .notFound ∧
    ∃ fs', ({} : FileSystem).replace ["b.tmp", ""] [3, 4] = (fs', .error .notADirectory) ∧
      fs'.readOptional ["b.tmp", ""] = .error .notADirectory := by
  have hvalid : validate ["b.tmp"] = .ok () := validate_eq_ok (by decide) (by decide)
  have hvalid' : validate ["b.tmp", ""] = .ok () := validate_eq_ok (by decide) (by decide)
  have hempty (place : Place) : ({} : FileSystem).nodes[place]? ≠ some .directory := by simp
  have hflat (place : Place) :
      (({} : FileSystem).put ["b.tmp"] (.file [1, 2])).nodes[place]? ≠ some .directory := by
    rw [put, getElem?_insert]
    split
    · simp
    · exact hempty place
  refine ⟨(replace_cutOff _ _ _).2.2.1 (by decide) (write_of_flat hflat isName_tmpFile hvalid) [3]
    (by decide), find_eq_notFound.mpr ⟨hvalid', rfl⟩, ?_⟩
  exact (replace_cutOff _ _ _).2.2.2 (by decide) (by decide) hvalid'
    (write_of_flat hempty isName_tmpFile hvalid)

end FileSystem

end MachineVault
