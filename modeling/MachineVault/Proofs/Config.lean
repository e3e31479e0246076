import MachineVault.Config
import MachineVault.Proofs.Toml.StringForm

/-! The file of the settings. What is written is a document of one line for each setting, and such a
document is read as the table of its lines, so the settings come back as they were, or are refused
for what they were refused for before. -/

namespace MachineVault

namespace Toml

variable {name : String} {value : Value} {written text cs rest : List Char} {c d : Char}
  {pairs : List (String × Value)} {root entries : Entries}

/-! Values -/

/-- A way to write a value in front of a line end. -/
structure Writes (written : List Char) (value : Value) : Prop where
  read : ∀ rest, readValue nestingLimit (written ++ '\n' :: rest) = some (value, '\n' :: rest)
  front : ∃ c, written.head? = some c ∧ isBlank c = false
  clean : '\r' ∉ written

theorem head?_writeString (s : String) :
    (writeString s).head? = some '"' ∨ (writeString s).head? = some '\'' := by
  rw [writeString]
  cases StringForm.for s.toList with
  | basic multiline => cases multiline <;> exact .inl rfl
  | literal multiline => cases multiline <;> exact .inr rfl

theorem readValue_of_quote {n : Nat} (h : cs.head? = some '"' ∨ cs.head? = some '\'') :
    readValue n cs = (readString cs).map (Prod.map Value.string id) := by
  cases cs with
  | nil => simp at h
  | cons c cs =>
    rcases h with h | h <;> cases h <;> rw [readValue]

theorem writes_string (s : String) : Writes (writeString s) (.string s) where
  read rest := by
    have hhead : (writeString s ++ '\n' :: rest).head? = some '"' ∨
        (writeString s ++ '\n' :: rest).head? = some '\'' := by
      rcases head?_writeString s with h | h <;> simp [h]
    rw [readValue_of_quote hhead, readString_writeString (by simp) (by simp)]
    rfl
  front := by
    rcases head?_writeString s with h | h <;> exact ⟨_, h, rfl⟩
  clean h := by
    rcases writeString_clean _ h with hplain | hline
    · cases hplain
    · cases hline

theorem writes_flag (b : Bool) : Writes (Config.flagText b).toList (.boolean b) where
  read rest := by cases b <;> rfl
  front := by cases b <;> exact ⟨_, rfl, rfl⟩
  clean := by cases b <;> decide

/-! Lines -/

/-- A name that is a key without quotes. -/
def IsBareKey (name : String) : Prop := name.toList ≠ [] ∧ name.toList.all isKeyChar = true

instance : DecidablePred IsBareKey := fun _ => inferInstanceAs (Decidable (_ ∧ _))

theorem ne_of_isKeyChar (h : isKeyChar c = true) (hd : isKeyChar d = false) : c ≠ d :=
  fun he => by simp [he, hd] at h

theorem cons_ne_of_isKeyChar (h : isKeyChar c = true) (hd : isKeyChar d = false) :
    c :: cs ≠ d :: rest :=
  fun he => ne_of_isKeyChar h hd (List.cons.inj he).1

theorem isBlank_of_isKeyChar (h : isKeyChar c = true) : isBlank c = false := by
  simp [isBlank, ne_of_isKeyChar h (d := ' ') rfl, ne_of_isKeyChar h (d := '\t') rfl]

theorem skipBlanks_of_head (h : cs.head? = some c) (hc : isBlank c = false) :
    skipBlanks cs = cs := by
  cases cs with
  | nil => rfl
  | cons d cs =>
    cases h
    rw [skipBlanks, List.dropWhile_cons_of_neg (by simp [hc])]

/-- A bare key starts with a character that nothing else in front of a line starts with. -/
theorem IsBareKey.exists_cons (h : IsBareKey name) :
    ∃ c tail, name.toList = c :: tail ∧ isKeyChar c = true := by
  obtain ⟨c, tail, hname⟩ := List.exists_cons_of_ne_nil h.1
  exact ⟨c, tail, hname, List.all_eq_true.mp h.2 c (hname ▸ List.mem_cons_self)⟩

theorem readKeyPart_append (h : IsBareKey name) :
    readKeyPart (name.toList ++ ' ' :: rest) = some (name, ' ' :: rest) := by
  obtain ⟨c, tail, hname, hc⟩ := h.exists_cons
  have hall : ∀ c ∈ name.toList, isKeyChar c = true := List.all_eq_true.mp h.2
  have hpart : (name.toList ++ ' ' :: rest).takeWhile isKeyChar = c :: tail := by
    rw [List.takeWhile_append_of_pos hall, hname, List.takeWhile_cons_of_neg (by decide),
      List.append_nil]
  have hbehind : (name.toList ++ ' ' :: rest).dropWhile isKeyChar = ' ' :: rest := by
    rw [List.dropWhile_append_of_pos hall, List.dropWhile_cons_of_neg (by decide)]
  rw [readKeyPart.eq_3, hpart, hbehind]
  · change some (String.ofList (c :: tail), ' ' :: rest) = _
    rw [← hname, String.ofList_toList]
  · rw [hname]
    exact fun _ => cons_ne_of_isKeyChar hc rfl
  · rw [hname]
    exact fun _ => cons_ne_of_isKeyChar hc rfl

theorem readKey_append (h : IsBareKey name) :
    readKey (name.toList ++ ' ' :: '=' :: rest) = some (⟨[], name⟩, '=' :: rest) := by
  obtain ⟨c, tail, hname, hc⟩ := h.exists_cons
  have hfront : skipBlanks (name.toList ++ ' ' :: '=' :: rest) =
      name.toList ++ ' ' :: '=' :: rest :=
    skipBlanks_of_head (c := c) (by simp [hname]) (isBlank_of_isKeyChar hc)
  have hparts : readKeyParts nestingLimit (name.toList ++ ' ' :: '=' :: rest) =
      some ([name], '=' :: rest) := by
    rw [nestingLimit, readKeyParts, hfront, readKeyPart_append h]
    rfl
  rw [readKey, hparts]
  rfl

/-- The expression of a line. -/
def pairExpression (pair : String × Value) : Expression := .pair ⟨[], pair.1⟩ pair.2

theorem tomlLine_append :
    Config.tomlLine name written ++ rest =
      name.toList ++ ' ' :: '=' :: ' ' :: (written ++ '\n' :: rest) := by
  simp [Config.tomlLine]

/-- Behind the value the line ends, so the next line is what is left. -/
theorem readExpression_line (hname : IsBareKey name) (hvalue : Writes written value) :
    readExpression (Config.tomlLine name written ++ rest) =
      some (pairExpression (name, value), rest) := by
  obtain ⟨c, tail, hcons, hc⟩ := hname.exists_cons
  obtain ⟨d, hd, hblank⟩ := hvalue.front
  have hvalueFront : skipBlanks (' ' :: (written ++ '\n' :: rest)) = written ++ '\n' :: rest := by
    refine Eq.trans ?_ (skipBlanks_of_head (c := d) (by simp [hd]) hblank)
    rfl
  have hpair : readPair (readValue nestingLimit)
      (name.toList ++ ' ' :: '=' :: ' ' :: (written ++ '\n' :: rest)) =
        some ((⟨[], name⟩, value), '\n' :: rest) := by
    simp [readPair, readKey_append hname, hvalueFront, hvalue.read]
  rw [tomlLine_append, readExpression.eq_3, hpair]
  · rfl
  · rw [hcons]
    exact fun _ => cons_ne_of_isKeyChar hc rfl
  · rw [hcons]
    exact fun _ => cons_ne_of_isKeyChar hc rfl

/-- A text of lines, one for each pair of a name and a value. -/
inductive Spells : List Char → List (String × Value) → Prop
  | nil : Spells [] []
  | line {name : String} {value : Value} {written text : List Char} {pairs : List (String × Value)}
    (hname : IsBareKey name) (hvalue : Writes written value) (hrest : Spells text pairs) :
    Spells (Config.tomlLine name written ++ text) ((name, value) :: pairs)

theorem skipLines_of_head (h : cs.head? = some c) (hc : isKeyChar c = true) :
    skipLines cs = cs := by
  cases cs with
  | nil => cases h
  | cons d cs =>
    cases h
    rw [skipLines, skipLinesUpTo, skipBlanks_of_head rfl (isBlank_of_isKeyChar hc),
      skipComment.eq_2 _ fun _ => cons_ne_of_isKeyChar hc rfl]
    split
    case h_1 hcs => exact absurd hcs (cons_ne_of_isKeyChar hc rfl)
    case h_2 => rfl

theorem Spells.readExpressions {n : Nat} (h : Spells text pairs) (hn : pairs.length < n) :
    Toml.readExpressions n text = some (pairs.map pairExpression) := by
  induction h generalizing n with
  | nil =>
    obtain ⟨n, rfl⟩ := Nat.exists_eq_add_one_of_ne_zero (Nat.ne_of_gt hn)
    rfl
  | @line name value written text pairs hname hvalue hrest ih =>
    obtain ⟨n, rfl⟩ := Nat.exists_eq_add_one_of_ne_zero (Nat.ne_zero_of_lt hn)
    obtain ⟨c, tail, hcons, hc⟩ := hname.exists_cons
    have hhead : (Config.tomlLine name written ++ text).head? = some c := by
      simp [tomlLine_append, hcons]
    have hread : readExpression (Config.tomlLine name written ++ text) =
        some (pairExpression (name, value), text) := readExpression_line hname hvalue
    rw [Toml.readExpressions, skipLines_of_head hhead hc]
    split
    case h_1 hnil => simp [hnil] at hhead
    case h_2 =>
      rw [hread, Option.bind_eq_bind, Option.bind_some]
      dsimp only
      rw [ih (Nat.lt_of_succ_lt_succ hn)]
      rfl

theorem Spells.length_le (h : Spells text pairs) : pairs.length ≤ text.length := by
  induction h with
  | nil => exact Nat.le_refl 0
  | line hname hvalue hrest ih =>
    simp only [Config.tomlLine, List.length_append, List.length_cons]
    omega

theorem joinLineEnds_of_clean (h : '\r' ∉ cs) : joinLineEnds cs = cs := by
  induction cs with
  | nil => rfl
  | cons c cs ih =>
    rw [joinLineEnds.eq_2, ih fun hcs => h (List.mem_cons_of_mem c hcs)]
    exact fun tail hc => absurd (hc ▸ List.mem_cons_self) h

theorem Spells.clean (h : Spells text pairs) : '\r' ∉ text := by
  induction h with
  | nil => exact List.not_mem_nil
  | @line name value written text pairs hname hvalue hrest ih =>
    have hkey (h : '\r' ∈ name.toList) : False :=
      ne_of_isKeyChar (List.all_eq_true.mp hname.2 _ h) (d := '\r') rfl rfl
    simpa [tomlLine_append, ih, hvalue.clean] using hkey

theorem Spells.dropByteOrderMark (h : Spells text pairs) : Toml.dropByteOrderMark text = text := by
  cases h with
  | nil => rfl
  | @line name value written text pairs hname hvalue hrest =>
    obtain ⟨c, tail, hcons, hc⟩ := hname.exists_cons
    rw [tomlLine_append, hcons]
    exact dropByteOrderMark.eq_2 _ fun _ => cons_ne_of_isKeyChar hc rfl

theorem Spells.expressions? (h : Spells text pairs) :
    Toml.expressions? (String.ofList text) = some (pairs.map pairExpression) := by
  rw [Toml.expressions?, String.toList_ofList, h.dropByteOrderMark, joinLineEnds_of_clean h.clean]
  exact h.readExpressions (Nat.lt_succ_of_le h.length_le)

/-! The table of the lines -/

theorem lookup_filter (entries : Entries) {name other : String} (h : other ≠ name) :
    (entries.filter (·.1 ≠ name)).lookup other = entries.lookup other := by
  induction entries with
  | nil => rfl
  | cons entry entries ih =>
    by_cases hentry : entry.1 = name
    · have hother : (other == entry.1) = false := beq_eq_false_iff_ne.mpr (hentry ▸ h)
      rw [List.filter_cons_of_neg (by simp [hentry]), ih, List.lookup_cons, hother]
    · rw [List.filter_cons_of_pos (by simp [hentry]), List.lookup_cons, List.lookup_cons, ih]

theorem lookup_set (entries : Entries) (name : String) (node : Node) (other : String) :
    (entries.set name node).lookup other =
      if other = name then some node else entries.lookup other := by
  rw [Entries.set, List.lookup_cons]
  split
  case h_1 h => rw [if_pos (eq_of_beq h)]
  case h_2 h => rw [if_neg (ne_of_beq_false h), lookup_filter entries (ne_of_beq_false h)]

theorem add_pairExpression (pair : String × Value) (h : root.lookup pair.1 = none) :
    Reading.add ⟨root, []⟩ (pairExpression pair) = some ⟨root.set pair.1 (.value pair.2), []⟩ := by
  simp [Reading.add, pairExpression, Entries.modify, Entries.addValue, h]

/-- Lines with names of their own make a table in which each value is under its name. -/
theorem foldlM_add (hnodup : (pairs.map Prod.fst).Nodup)
    (hfree : ∀ pair ∈ pairs, root.lookup pair.1 = none) :
    ∃ entries : Entries,
      (pairs.map pairExpression).foldlM Reading.add ⟨root, []⟩ = some ⟨entries, []⟩ ∧
        ∀ name, entries.lookup name =
          ((pairs.lookup name).map Node.value).or (root.lookup name) := by
  induction pairs generalizing root with
  | nil => exact ⟨root, rfl, fun name => rfl⟩
  | cons pair pairs ih =>
    obtain ⟨hout, hnodup⟩ := List.nodup_cons.mp hnodup
    rw [List.forall_mem_cons] at hfree
    have hlater : ∀ other ∈ pairs, (root.set pair.1 (.value pair.2)).lookup other.1 = none := by
      intro other hother
      have hne : other.1 ≠ pair.1 := fun he => hout (he ▸ List.mem_map_of_mem hother)
      rw [lookup_set, if_neg hne, hfree.2 other hother]
    obtain ⟨entries, hfold, hlookup⟩ := ih hnodup hlater
    refine ⟨entries, ?_, fun name => ?_⟩
    · rw [List.map_cons, List.foldlM_cons, add_pairExpression pair hfree.1]
      exact hfold
    · rw [hlookup, lookup_set, List.lookup_cons]
      by_cases hname : name = pair.1
      · have hlast : pairs.lookup name = none := List.lookup_eq_none_iff.mpr fun other hother =>
          bne_iff_ne.mpr fun he => hout (hname ▸ he ▸ List.mem_map_of_mem hother)
        rw [if_pos hname, hlast, beq_iff_eq.mpr hname]
        rfl
      · rw [if_neg hname, beq_eq_false_iff_ne.mpr hname]

theorem Spells.parse? (h : Spells text pairs) (hnodup : (pairs.map Prod.fst).Nodup) :
    ∃ entries, Toml.parse? (String.ofList text) = some entries ∧
      ∀ name, entries.lookup name = (pairs.lookup name).map Node.value := by
  have hfree : ∀ pair ∈ pairs, List.lookup pair.1 ([] : Entries) = none := fun _ _ => rfl
  obtain ⟨entries, hfold, hlookup⟩ := foldlM_add hnodup hfree
  refine ⟨entries, ?_, fun name => (hlookup name).trans Option.or_none⟩
  rw [Toml.parse?, h.expressions?, Option.bind_eq_bind, Option.bind_some]
  exact congrArg (·.bind fun reading => some reading.root) hfold

end Toml

namespace Config

/-- The lines of the settings. -/
def pairs (c : Config) : List (String × Toml.Value) :=
  [("index_tag", .string c.indexTag), ("data_tag", .string c.dataTag),
    ("verify_consistency_on_load", .boolean c.verifyOnLoad),
    ("preserve_unknown_records", .boolean c.preserveUnknown),
    ("log_flush_counts", .boolean c.logFlushCounts)]

theorem spells_pairs (c : Config) : Toml.Spells c.toToml.toList c.pairs := by
  have h : Toml.Spells _ c.pairs :=
    .line (by decide) (Toml.writes_string _) <| .line (by decide) (Toml.writes_string _) <|
      .line (by decide) (Toml.writes_flag _) <| .line (by decide) (Toml.writes_flag _) <|
        .line (by decide) (Toml.writes_flag _) .nil
  simpa [toToml] using h

/-- The text parses, and every setting is found under its name. -/
theorem bind_ofEntries?_toToml (c : Config) : (Toml.parse? c.toToml).bind ofEntries? = some c := by
  have hnames : (c.pairs.map Prod.fst).Nodup := by simp [pairs]
  obtain ⟨entries, hparse, hlookup⟩ := (spells_pairs c).parse? hnames
  rw [String.ofList_toList] at hparse
  rw [hparse, Option.bind_some]
  simp [ofEntries?, hlookup, pairs, List.lookup_cons, textOr, flagOr]

/-- Settings that are written are read back as they were if they are valid, and else refused with
the error that they had before, from the text as well as from the file. -/
theorem ofToml_toToml (c : Config) :
    ofToml c.toToml = c.validate.map (fun _ => c) ∧
      ofFile (some (Text.encode c.toToml)) = c.validate.map fun _ => c := by
  have htext : ofToml c.toToml = c.validate.map fun _ => c := by
    rw [ofToml, bind_ofEntries?_toToml]
    rfl
  refine ⟨htext, ?_⟩
  rw [ofFile, Option.bind_some, Text.decode?_encode]
  exact htext

end Config

end MachineVault
