import MachineVault.Toml.StringForm

/-! Strings in TOML documents. In whatever form a string is written, it is read back as it was: the
runs of quotes inside it are too short for a delimiter, a run at its end still belongs to it, and
every escape stands for the one character that it was written for. -/

namespace MachineVault.Toml

variable {multiline : Bool} {quote c d : Char} {run : Nat} {text done cs rest tail : List Char}

theorem takeWhile_eq_nil (h : rest.head? ≠ some quote) : rest.takeWhile (· = quote) = [] := by
  cases rest with
  | nil => rfl
  | cons d rest =>
    have hd : d ≠ quote := fun he => h (he ▸ rfl)
    simp [hd]

theorem takeWhile_replicate_append (n : Nat) (h : rest.head? ≠ some quote) :
    (List.replicate n quote ++ rest).takeWhile (· = quote) = List.replicate n quote := by
  rw [List.takeWhile_append_of_pos (by simp), takeWhile_eq_nil h, List.append_nil]

theorem closing?_multiline : closing? true quote cs =
    if min 5 (cs.takeWhile (· = quote)).length < 3 then none
    else some (List.replicate (min 5 (cs.takeWhile (· = quote)).length - 3) quote,
      cs.drop (min 5 (cs.takeWhile (· = quote)).length)) := rfl

theorem closing?_cons_of_ne (h : d ≠ quote) : closing? multiline quote (d :: tail) = none := by
  simp [closing?, h]

/-- A text without long runs of quotes is closed by the delimiter, and before that only where
nothing but quotes of its own stands in front of the delimiter. -/
theorem closing?_append (hrun : (text.takeWhile (· = quote)).length < quoteLimit multiline)
    (hrest : rest.head? ≠ some quote) :
    closing? multiline quote (text ++ (delimiter multiline quote ++ rest)) =
      if text.all (· = quote) then some (text, rest) else none := by
  cases multiline with
  | false =>
    cases text with
    | nil => simp [closing?, delimiter]
    | cons d text =>
      have hd : d ≠ quote := by
        rintro rfl
        simp [quoteLimit] at hrun
      simp [closing?, hd]
  | true =>
    simp only [quoteLimit, if_true] at hrun
    by_cases hall : text.all (· = quote) = true
    · obtain ⟨n, rfl⟩ : ∃ n, text = List.replicate n quote :=
        ⟨text.length, List.eq_replicate_iff.mpr
          ⟨rfl, fun d hd => of_decide_eq_true (List.all_eq_true.mp hall d hd)⟩⟩
      have hn : n < 3 := by simpa using hrun
      have hjoin : List.replicate n quote ++ (delimiter true quote ++ rest) =
          List.replicate (n + 3) quote ++ rest := by
        rw [← List.append_assoc, delimiter, if_pos rfl, List.replicate_append_replicate]
      have hmin : min 5 (n + 3) = n + 3 := by omega
      rw [if_pos hall, hjoin, closing?_multiline, takeWhile_replicate_append _ hrest,
        List.length_replicate, hmin, if_neg (by omega), Nat.add_sub_cancel]
      simp
    · have hlength : (text.takeWhile (· = quote)).length ≠ text.length := fun h =>
        hall ((List.takeWhile_prefix _).eq_of_length h ▸ List.all_takeWhile)
      rw [if_neg hall, closing?_multiline, List.takeWhile_append, if_neg hlength,
        if_pos (by omega)]

/-! Literal strings -/

/-- A text that can stand between the delimiters of a literal string as it is. -/
structure IsLiteral (multiline : Bool) (text : List Char) : Prop where
  plain : ∀ c ∈ text, isPlain c = true ∨ multiline = true ∧ c = '\n'
  runs : ∀ suffix, suffix <:+ text →
    (suffix.takeWhile (· = '\'')).length < quoteLimit multiline

theorem IsLiteral.of_cons (h : IsLiteral multiline (c :: text)) : IsLiteral multiline text :=
  ⟨fun d hd => h.plain d (List.mem_cons_of_mem c hd),
    fun suffix hs => h.runs suffix (hs.trans (List.suffix_cons c text))⟩

theorem readLiteral_of_closing {quotes : List Char}
    (h : closing? multiline '\'' cs = some (quotes, rest)) :
    readLiteral multiline done cs = some (String.ofList (done.reverse ++ quotes), rest) := by
  unfold readLiteral
  rw [h]

theorem readLiteral_cons (h : closing? multiline '\'' (c :: cs) = none)
    (hc : isPlain c = true ∨ multiline = true ∧ c = '\n') :
    readLiteral multiline done (c :: cs) = readLiteral multiline (c :: done) cs := by
  have hc' : (isPlain c || (multiline && decide (c = '\n'))) = true := by simpa using hc
  rw [readLiteral.eq_def, h]
  simp only [hc', if_true]

theorem readLiteral_append (h : IsLiteral multiline text) (hrest : rest.head? ≠ some '\'') :
    readLiteral multiline done (text ++ (delimiter multiline '\'' ++ rest)) =
      some (String.ofList (done.reverse ++ text), rest) := by
  have hclosing := closing?_append (h.runs text (List.suffix_refl _)) hrest
  induction text generalizing done with
  | nil => exact readLiteral_of_closing hclosing
  | cons c text ih =>
    by_cases hall : (c :: text).all (· = '\'') = true
    · rw [if_pos hall] at hclosing
      exact readLiteral_of_closing hclosing
    · rw [if_neg hall] at hclosing
      rw [List.cons_append] at hclosing ⊢
      rw [readLiteral_cons hclosing (h.plain c List.mem_cons_self), ih h.of_cons
        (closing?_append (h.of_cons.runs text (List.suffix_refl _)) hrest)]
      simp

theorem takeWhile_of_not_hasTriple (h : hasTriple quote cs = false) :
    ∀ suffix, suffix <:+ cs → (suffix.takeWhile (· = quote)).length < 3 := by
  induction cs using hasTriple.induct with
  | case1 a b c cs ih =>
    rw [hasTriple, Bool.or_eq_false_iff] at h
    intro suffix hs
    rcases List.suffix_cons_iff.mp hs with rfl | hs
    · have hdiffer := h.1
      simp only [List.takeWhile_cons, decide_eq_true_eq]
      grind
    · exact ih h.2 suffix hs
  | case2 cs hshort =>
    intro suffix hs
    have hcs : cs.length < 3 := by
      match cs, hshort with
      | [], _ | [_], _ | [_, _], _ => simp
      | a :: b :: c :: cs, hshort => exact absurd rfl (hshort a b c cs)
    have hle := (List.takeWhile_prefix (decide <| · = quote) (l := suffix)).length_le
    have := hs.length_le
    omega

/-! Basic strings -/

theorem hexDigit_mod (n : Nat) : Text.hexDigit (n % 16) = Text.hexDigit n := by
  simp [Text.hexDigit]

theorem hexValue?_hexDigit_toUpper {n : Nat} :
    Text.hexValue? (Text.hexDigit n).toUpper = some (n % 16) := by
  have hall : ∀ n < 16, Text.hexValue? (Text.hexDigit n).toUpper = some n := by decide
  rw [← hexDigit_mod, hall _ (Nat.mod_lt _ (by decide))]

theorem isPlain_hexDigit_toUpper {n : Nat} : isPlain (Text.hexDigit n).toUpper = true := by
  have hall : ∀ n < 16, isPlain (Text.hexDigit n).toUpper = true := by decide
  rw [← hexDigit_mod]
  exact hall _ (Nat.mod_lt _ (by decide))

theorem scalar?_toNat : scalar? c.toNat = some c := by
  have hc : c.toNat.isValidChar := c.valid
  rw [scalar?, if_pos hc, Char.ofNat_toNat]

theorem readBasic_cons (h : closing? multiline '"' (d :: tail) = none) (hb : d ≠ '\\')
    (hplain : isPlain d = true ∨ multiline = true ∧ d = '\n') :
    readBasic multiline .text done (d :: tail) = readBasic multiline .text (d :: done) tail := by
  have hd' : (isPlain d || (multiline && decide (d = '\n'))) = true := by simpa using hplain
  rw [readBasic, h]
  · simp [hb, hd']
  all_goals simp

theorem readBasic_backslash :
    readBasic multiline .text done ('\\' :: tail) = readBasic multiline .escape done tail := by
  rw [readBasic, closing?_cons_of_ne (by decide)]
  · simp
  all_goals simp

theorem readBasic_escaped (h : escaped? d = some c) :
    readBasic multiline .text done ('\\' :: d :: tail) =
      readBasic multiline .text (c :: done) tail := by
  rw [readBasic_backslash, readBasic, h]

/-- Control codes are numbers of one byte, so the first two of their digits are zeros. -/
theorem readBasic_number (hc : c.toNat < 256) :
    readBasic multiline .text done ('\\' :: 'u' :: '0' :: '0' ::
        (Text.hexDigit (c.toNat / 16)).toUpper :: (Text.hexDigit c.toNat).toUpper :: tail) =
      readBasic multiline .text (c :: done) tail := by
  have hzero : Text.hexValue? '0' = some 0 := by decide
  have hvalue : c.toNat / 16 % 16 * 16 + c.toNat % 16 = c.toNat := by omega
  have hu : escaped? 'u' = none := rfl
  rw [readBasic_backslash, readBasic, hu]
  simp [readBasic, hzero, hexValue?_hexDigit_toUpper, hvalue, scalar?_toNat]

/-- What is written for a character: itself, one that stands for it behind a backslash, or its
number. -/
inductive Escaped (multiline : Bool) (c : Char) : List Char → Prop
  | self (hb : c ≠ '\\') (hplain : isPlain c = true ∨ multiline = true ∧ c = '\n') :
    Escaped multiline c [c]
  | short {d : Char} (hd : isPlain d = true) (h : escaped? d = some c) :
    Escaped multiline c ['\\', d]
  | number (hc : c.toNat < 256) : Escaped multiline c ['\\', 'u', '0', '0',
      (Text.hexDigit (c.toNat / 16)).toUpper, (Text.hexDigit c.toNat).toUpper]

theorem escaped_escapeChar (multiline : Bool) (c : Char) :
    Escaped multiline c (escapeChar multiline c) := by
  unfold escapeChar
  split
  case h_6 =>
    cases multiline with
    | false => exact .short rfl rfl
    | true => exact .self (by decide) (.inr ⟨rfl, rfl⟩)
  case h_7 hback _ =>
    split
    case isTrue hplain => exact .self hback (.inl hplain)
    case isFalse hplain =>
      simp only [isPlain, Bool.or_eq_true, Bool.and_eq_true, decide_eq_true_eq] at hplain
      exact .number (by omega)
  all_goals exact .short rfl rfl

theorem Escaped.eq_cons (h : Escaped multiline c text) (hc : c ≠ '"') :
    ∃ d tail, text = d :: tail ∧ d ≠ '"' := by
  cases h with
  | self => exact ⟨c, [], rfl, hc⟩
  | short | number => exact ⟨_, _, rfl, by decide⟩

theorem Escaped.readBasic (h : Escaped multiline c text) (hc : c ≠ '"') :
    readBasic multiline .text done (text ++ tail) =
      readBasic multiline .text (c :: done) tail := by
  cases h with
  | self hb hplain => exact readBasic_cons (closing?_cons_of_ne hc) hb hplain
  | short _ h => exact readBasic_escaped h
  | number hc => exact readBasic_number hc

/-- What is written needs no escapes itself, and only line ends are written as line ends. -/
theorem Escaped.clean (h : Escaped multiline c text) (hd : d ∈ text) :
    isPlain d = true ∨ d = '\n' ∧ c = '\n' := by
  cases h with
  | self _ hplain =>
    obtain rfl := List.mem_singleton.mp hd
    exact hplain.imp_right fun h => ⟨h.2, h.2⟩
  | short hplain =>
    simp only [List.mem_cons, List.not_mem_nil, or_false] at hd
    rcases hd with rfl | rfl
    · exact .inl rfl
    · exact .inl hplain
  | number =>
    simp only [List.mem_cons, List.not_mem_nil, or_false] at hd
    rcases hd with rfl | rfl | rfl | rfl | rfl | rfl
    all_goals first | exact .inl isPlain_hexDigit_toUpper | exact .inl rfl

/-- Of a run of quotes that goes on from `run` quotes in front, less than a delimiter is left. -/
theorem takeWhile_escapeText (hrun : run < quoteLimit multiline) :
    run + ((escapeText multiline run cs).takeWhile (· = '"')).length < quoteLimit multiline := by
  induction cs generalizing run with
  | nil => simpa [escapeText] using hrun
  | cons c cs ih =>
    rw [escapeText]
    split
    · split
      · simpa using hrun
      · have := ih (show run + 1 < quoteLimit multiline by omega)
        simp only [List.takeWhile_cons, decide_true, if_true, List.length_cons]
        omega
    case isFalse hc =>
      obtain ⟨d, tail, hesc, hd⟩ := (escaped_escapeChar multiline c).eq_cons hc
      simpa [hesc, hd] using hrun

/-- Nothing is escaped in a text that is written as nothing but quotes. -/
theorem escapeText_eq_self (h : (escapeText multiline run cs).all (· = '"') = true) :
    escapeText multiline run cs = cs := by
  induction cs generalizing run with
  | nil => rfl
  | cons c cs ih =>
    rw [escapeText] at h ⊢
    split at h
    case isTrue hc =>
      rw [if_pos hc]
      split at h
      · simp at h
      case isFalse hlimit =>
        rw [if_neg hlimit, ih (by simpa using h), hc]
    case isFalse hc =>
      obtain ⟨d, tail, hesc, hd⟩ := (escaped_escapeChar multiline c).eq_cons hc
      simp [hesc, hd] at h

theorem readBasic_of_closing {quotes : List Char}
    (h : closing? multiline '"' cs = some (quotes, rest)) :
    readBasic multiline .text done cs = some (String.ofList (done.reverse ++ quotes), rest) := by
  cases cs with
  | nil => cases multiline <;> simp [closing?] at h
  | cons c cs =>
    rw [readBasic, h]
    all_goals simp

theorem readBasic_escapeText (hrun : run < quoteLimit multiline) (hrest : rest.head? ≠ some '"') :
    readBasic multiline .text done
        (escapeText multiline run cs ++ (delimiter multiline '"' ++ rest)) =
      some (String.ofList (done.reverse ++ cs), rest) := by
  -- the reader has met the `run` quotes in front, so a delimiter cannot begin with them
  have hclosing {run cs} (hrun : run < quoteLimit multiline) :
      closing? multiline '"' (escapeText multiline run cs ++ (delimiter multiline '"' ++ rest)) =
        if (escapeText multiline run cs).all (· = '"') then some (escapeText multiline run cs, rest)
        else none :=
    closing?_append (Nat.lt_of_le_of_lt (Nat.le_add_left _ run) (takeWhile_escapeText hrun)) hrest
  have hlimit : 0 < quoteLimit multiline := Nat.zero_lt_of_lt hrun
  induction cs generalizing run done with
  | nil => exact readBasic_of_closing (hclosing hrun)
  | cons c cs ih =>
    have hnext : done.reverse ++ c :: cs = (c :: done).reverse ++ cs := by simp
    by_cases hall : (escapeText multiline run (c :: cs)).all (· = '"') = true
    · rw [readBasic_of_closing ((hclosing hrun).trans (if_pos hall)), escapeText_eq_self hall]
    have hopen := (hclosing hrun).trans (if_neg hall)
    rw [hnext]
    rw [escapeText] at hopen ⊢
    by_cases hc : c = '"'
    · subst hc
      rw [if_pos rfl] at hopen ⊢
      by_cases hfull : run + 1 = quoteLimit multiline
      · rw [if_pos hfull, List.cons_append, List.cons_append, readBasic_escaped rfl, ih hlimit]
      · rw [if_neg hfull, List.cons_append] at hopen ⊢
        rw [readBasic_cons hopen (by decide) (.inl rfl), ih (by omega)]
    · rw [if_neg hc, List.append_assoc, (escaped_escapeChar multiline c).readBasic hc, ih hlimit]

/-! All forms -/

theorem mem_escapeText (h : d ∈ escapeText multiline run cs) :
    isPlain d = true ∨ d = '\n' ∧ '\n' ∈ cs := by
  induction cs generalizing run with
  | nil => cases h
  | cons c cs ih =>
    have hlater {run} (h : d ∈ escapeText multiline run cs) :
        isPlain d = true ∨ d = '\n' ∧ '\n' ∈ c :: cs :=
      (ih h).imp_right (And.imp_right (List.mem_cons_of_mem c))
    rw [escapeText] at h
    split at h
    · split at h
      · rcases List.mem_cons.mp h with rfl | h
        · exact .inl rfl
        rcases List.mem_cons.mp h with rfl | h
        · exact .inl rfl
        exact hlater h
      · rcases List.mem_cons.mp h with rfl | h
        · exact .inl rfl
        exact hlater h
    · rcases List.mem_append.mp h with h | h
      · have hclean := (escaped_escapeChar multiline c).clean h
        exact hclean.imp_right fun ⟨hd, hc⟩ => ⟨hd, hc ▸ List.mem_cons_self⟩
      · exact hlater h

/-- The line end in front of a text of several lines is dropped, and no other one. -/
theorem dropLineEnd_lead (htext : '\n' ∈ text → '\n' ∈ cs) (hquote : quote ≠ '\n') :
    dropLineEnd ((if cs.contains '\n' then ['\n'] else []) ++
        (text ++ (delimiter true quote ++ rest))) =
      text ++ (delimiter true quote ++ rest) := by
  split
  case isTrue => rfl
  case isFalse hcs =>
    rw [List.contains_iff_mem] at hcs
    rw [List.nil_append, dropLineEnd.eq_2]
    intro tail h
    cases text with
    | nil => exact hquote (List.cons.inj h).1
    | cons d text =>
      obtain rfl : d = '\n' := (List.cons.inj h).1
      exact hcs (htext List.mem_cons_self)

theorem append_delimiter_ne (hrun : (text.takeWhile (· = quote)).length < quoteLimit false)
    (hrest : rest.head? ≠ some quote) :
    text ++ (delimiter false quote ++ rest) ≠ quote :: quote :: tail := by
  intro h
  cases text with
  | nil =>
    obtain rfl : rest = quote :: tail := (List.cons.inj h).2
    exact hrest rfl
  | cons d text =>
    obtain rfl : d = quote := (List.cons.inj h).1
    simp [quoteLimit] at hrun

theorem StringForm.literal_of_for (h : StringForm.for cs = .literal multiline) :
    IsLiteral multiline cs := by
  simp only [StringForm.for] at h
  split at h
  · cases h
  split at h
  case isTrue hfacts =>
    cases h
    have ⟨⟨hclean, hline⟩, hquote⟩ : ((∀ c ∈ cs, isPlain c = true ∨ c = '\n') ∧ '\n' ∉ cs) ∧
        '\'' ∉ cs := by simpa using hfacts
    refine ⟨fun c hc => .inl ((hclean c hc).resolve_right fun h => hline (h ▸ hc)),
      fun suffix hs => ?_⟩
    rw [takeWhile_eq_nil fun hhead => hquote (hs.subset (List.mem_of_mem_head? hhead))]
    exact Nat.one_pos
  split at h
  · cases h
  split at h
  case isTrue hfacts =>
    cases h
    have ⟨hclean, hruns⟩ : (∀ c ∈ cs, isPlain c = true ∨ c = '\n') ∧
        hasTriple '\'' cs = false := by simpa using hfacts
    exact ⟨fun c hc => (hclean c hc).imp_right (⟨rfl, ·⟩), takeWhile_of_not_hasTriple hruns⟩
  · cases h

/-- No other control codes than tabs and line ends are written. -/
theorem writeString_clean {s : String} : ∀ c ∈ writeString s, isPlain c = true ∨ c = '\n' := by
  have hdelimiter {multiline quote} (hquote : isPlain quote = true) :
      ∀ c ∈ delimiter multiline quote, isPlain c = true ∨ c = '\n' :=
    fun c h => .inl (List.eq_of_mem_replicate h ▸ hquote)
  have hlead : ∀ c ∈ if s.toList.contains '\n' then ['\n'] else [],
      isPlain c = true ∨ c = '\n' := by
    split <;> simp
  have hescaped {multiline} : ∀ c ∈ escapeText multiline 0 s.toList,
      isPlain c = true ∨ c = '\n' := fun c h => (mem_escapeText h).imp_right And.left
  rw [writeString]
  cases hform : StringForm.for s.toList with
  | basic multiline =>
    have hquotes {multiline} : ∀ c ∈ delimiter multiline '"', isPlain c = true ∨ c = '\n' :=
      hdelimiter rfl
    cases multiline <;> simp only [List.forall_mem_append]
    · exact ⟨⟨hquotes, hescaped⟩, hquotes⟩
    · exact ⟨⟨⟨hquotes, hlead⟩, hescaped⟩, hquotes⟩
  | literal multiline =>
    have hquotes {multiline} : ∀ c ∈ delimiter multiline '\'', isPlain c = true ∨ c = '\n' :=
      hdelimiter rfl
    have htext : ∀ c ∈ s.toList, isPlain c = true ∨ c = '\n' :=
      fun c h => ((StringForm.literal_of_for hform).plain c h).imp_right And.right
    cases multiline <;> simp only [List.forall_mem_append]
    · exact ⟨⟨hquotes, htext⟩, hquotes⟩
    · exact ⟨⟨⟨hquotes, hlead⟩, htext⟩, hquotes⟩

theorem readString_basic (h : ∀ tail, cs ≠ '"' :: '"' :: tail) :
    readString (delimiter false '"' ++ cs) = readBasic false .text [] cs :=
  readString.eq_2 cs h

theorem readString_basicLines :
    readString (delimiter true '"' ++ cs) = readBasic true .text [] (dropLineEnd cs) := rfl

theorem readString_literal (h : ∀ tail, cs ≠ '\'' :: '\'' :: tail) :
    readString (delimiter false '\'' ++ cs) = readLiteral false [] cs :=
  readString.eq_4 cs h

theorem readString_literalLines :
    readString (delimiter true '\'' ++ cs) = readLiteral true [] (dropLineEnd cs) := rfl

/-- A string is read back as it was written, whatever stands behind it, if only no quote does. -/
theorem readString_writeString {s : String} (hbasic : rest.head? ≠ some '"')
    (hliteral : rest.head? ≠ some '\'') : readString (writeString s ++ rest) = some (s, rest) := by
  have hs : some (String.ofList ([].reverse ++ s.toList), rest) = some (s, rest) := by simp
  rw [writeString]
  cases hform : StringForm.for s.toList with
  | basic multiline =>
    cases multiline with
    | false =>
      simp only [List.append_assoc]
      have hrun : ((escapeText false 0 s.toList).takeWhile (· = '"')).length < quoteLimit false :=
        Nat.lt_of_le_of_lt (Nat.le_add_left _ 0) (takeWhile_escapeText Nat.one_pos)
      rw [readString_basic fun tail => append_delimiter_ne hrun hbasic,
        readBasic_escapeText Nat.one_pos hbasic, hs]
    | true =>
      simp only [List.append_assoc]
      have hlead (h : '\n' ∈ escapeText true 0 s.toList) : '\n' ∈ s.toList := by
        simpa [isPlain] using mem_escapeText h
      rw [readString_basicLines, dropLineEnd_lead hlead (by decide),
        readBasic_escapeText (Nat.succ_pos 2) hbasic, hs]
  | literal multiline =>
    have htext := StringForm.literal_of_for hform
    cases multiline with
    | false =>
      simp only [List.append_assoc]
      have hrun := htext.runs _ (List.suffix_refl _)
      rw [readString_literal fun tail => append_delimiter_ne hrun hliteral,
        readLiteral_append htext hliteral, hs]
    | true =>
      simp only [List.append_assoc]
      rw [readString_literalLines, dropLineEnd_lead id (by decide),
        readLiteral_append htext hliteral, hs]

end MachineVault.Toml
