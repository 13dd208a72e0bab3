import FunCompiler.Proofs.Source.Lexing

/-!
What scanning a text does, one lemma for each of its parts. A token is read from
the beginning of a text together with one character behind it, which tells where
it ends (`read?_eq_some_iff`); blanks and comments before it are skipped
(`Layout`). `Scans` is a stretch of reading, from one place in a text to a later
one: every run of `readAll` is such a stretch, up to the end of the text or the
first fault (`scans_readAll`).

What has been read of a text does not depend on what follows, as long as it
follows with the same character or a line feed (`Scans.exists_consumed`).
-/

namespace FunCompiler.Source

/-! ### Tokens -/

namespace Token

/-- A name is an identifier, and a number is written in digits. -/
def isWellFormed : Token → Bool
  | .name text => isIdentifier text
  | .number digits => isNumeral digits
  | _ => true

/-- A name or a number goes no further than the text before `rest`, and so does a keyword
but for `fun`, which may run into the word behind it. -/
def EndsBefore (rest : List Char) : Token → Prop
  | .name _ => Stops isNamePart rest
  | .number _ => Stops Char.isDigit rest
  | .keyword k => k = .function ∨ Stops isNamePart rest
  | .mark _ => True
  | .operator _ => True

end Token

theorem Keyword.text_of_ofText? {word : String} {k : Keyword} (h : Keyword.ofText? word = some k) :
    k.text = word := by
  unfold Keyword.ofText? at h
  simpa using List.find?_some h

theorem text_wordToken (place : Place) (word : String) : (wordToken place word).text = word := by
  unfold wordToken
  split
  · rename_i k hk
    split
    · exact Keyword.text_of_ofText? hk
    · rfl
  · rfl

theorem behind?_eq_some_iff {word cs rest : List Char} :
    behind? word cs = some rest ↔ cs = word ++ rest := by
  induction word generalizing cs with
  | nil => simp [behind?]
  | cons w ws ih =>
      cases cs with
      | nil => simp [behind?]
      | cons c cs =>
          by_cases hw : w = c
          · simp [behind?, hw, ih]
          · simp [behind?, hw, Ne.symm hw]

theorem behind?_eq_none_iff {word cs : List Char} : behind? word cs = none ↔ ¬ word <+: cs := by
  rw [Option.eq_none_iff_forall_ne_some]
  refine ⟨fun h hbegins => ?_, fun h rest hrest => h ?_⟩
  · obtain ⟨rest, rfl⟩ := hbegins
    exact h rest (behind?_eq_some_iff.2 rfl)
  · exact ⟨rest, (behind?_eq_some_iff.1 hrest).symm⟩

theorem readSpelled?_eq_some_iff {tokens : List Token} {cs rest : List Char} {t : Token} :
    readSpelled? tokens cs = some (t, rest) ↔
      cs = t.text.toList ++ rest ∧ ∃ before after, tokens = before ++ t :: after ∧
        ∀ u ∈ before, ¬ u.text.toList <+: cs := by
  simp only [readSpelled?, List.findSome?_eq_some_iff, Option.map_eq_some_iff,
    Option.map_eq_none_iff, behind?_eq_some_iff, behind?_eq_none_iff, Prod.mk.injEq]
  constructor
  · rintro ⟨before, _, after, htokens, ⟨rest, hcs, rfl, rfl⟩, hbefore⟩
    exact ⟨hcs, before, after, htokens, hbefore⟩
  · rintro ⟨hcs, before, after, htokens, hbefore⟩
    exact ⟨before, t, after, htokens, ⟨rest, hcs, rfl, rfl⟩, hbefore⟩

theorem readSpelled?_eq_none_iff {tokens : List Token} {cs : List Char} :
    readSpelled? tokens cs = none ↔ ∀ t ∈ tokens, ¬ t.text.toList <+: cs := by
  simp only [readSpelled?, List.findSome?_eq_none_iff, Option.map_eq_none_iff, behind?_eq_none_iff]

/-- At a place, the token is read from a text that goes on with `rest` behind it. -/
inductive Token.ScannedAt (place : Place) : Token → List Char → Prop
  | number {digits : String} {rest : List Char} (numeral : isNumeral digits = true)
      (admits : place.admits (.number digits) = true) (ends : Stops Char.isDigit rest) :
      ScannedAt place (.number digits) rest
  | word {word : String} {rest : List Char} (identifier : isIdentifier word = true)
      (admits : place.admitsNames = true) (ends : Stops isNamePart rest) :
      ScannedAt place (wordToken place word) rest
  | spelled {t : Token} {before after : List Token} {rest : List Char}
      (list : place.spelled = before ++ t :: after)
      (first : ∀ u ∈ before, ¬ u.text.toList <+: t.text.toList ++ rest) :
      ScannedAt place t rest

/-- A blank, or what begins a comment: no token holds such a character. -/
def isDivider (c : Char) : Bool := isBlank c || c == '#'

namespace Place

variable {place : Place} {t : Token}

theorem fixed_of_mem_spelled (h : t ∈ place.spelled) :
    t = .keyword .function ∨ t ∈ Token.symbols := by
  revert t
  cases place <;> decide

/-- Where tokens of fixed spelling are tried, none begins as a number or a word would. -/
theorem starts_of_mem_spelled (h : t ∈ place.spelled) :
    ∀ c ∈ t.text.toList.head?,
      c.isDigit = false ∧ (isNameStart c && place.admitsNames) = false := by
  have hall : (place.spelled.all fun t => t.text.toList.head?.all fun c =>
      !c.isDigit && !(isNameStart c && place.admitsNames)) = true := by
    cases place <;> rfl
  intro c hc
  have hstarts := (Option.all_eq_true _ _).1 (List.all_eq_true.1 hall t h) c hc
  rwa [Bool.and_eq_true, Bool.not_eq_true', Bool.not_eq_true'] at hstarts

theorem not_isDivider_of_mem_spelled (h : t ∈ place.spelled) :
    ∀ c ∈ t.text.toList, isDivider c = false := by
  have hall : (place.spelled.all fun t => t.text.toList.all fun c => !isDivider c) = true := by
    cases place <;> rfl
  intro c hc
  have hdivider := List.all_eq_true.1 (List.all_eq_true.1 hall t h) c hc
  rwa [Bool.not_eq_true'] at hdivider

theorem not_isBlank_of_mem_spelled (h : t ∈ place.spelled) :
    ∀ c ∈ t.text.toList, isBlank c = false := by
  intro c hc
  exact (Bool.or_eq_false_iff.1 (not_isDivider_of_mem_spelled h c hc)).1

/-- A keyword is the only token that is tried where it is spelled out. -/
theorem length_of_mem_spelled (h : t ∈ place.spelled) :
    t.text.toList.length ≤ 2 ∨ place.spelled.length = 1 := by
  revert t
  cases place <;> decide

end Place

theorem read?_eq_readSpelled? {place : Place} {c : Char} (hdigit : c.isDigit = false)
    (hname : (isNameStart c && place.admitsNames) = false) (cs : List Char) :
    read? place (c :: cs) = readSpelled? place.spelled (c :: cs) := by
  simp only [read?, hdigit, hname, Bool.false_eq_true, if_false]

theorem read?_spelled {place : Place} {t : Token} (h : t ∈ place.spelled) (rest : List Char) :
    read? place (t.text.toList ++ rest) = readSpelled? place.spelled (t.text.toList ++ rest) := by
  obtain ⟨c, cs, htext⟩ := List.exists_cons_of_length_pos (text_ne_empty_of_mem_spelled h)
  obtain ⟨hdigit, hname⟩ := Place.starts_of_mem_spelled h c (by rw [htext]; rfl)
  rw [htext, List.cons_append, read?_eq_readSpelled? hdigit hname]

theorem read?_eq_some_iff {place : Place} {cs rest : List Char} {t : Token} :
    read? place cs = some (t, rest) ↔ cs = t.text.toList ++ rest ∧ t.ScannedAt place rest := by
  constructor
  · intro h
    cases cs with
    | nil => cases h
    | cons c cs =>
        simp only [read?] at h
        split at h
        · rename_i hc
          split at h
          · rename_i hadmits
            cases h
            refine ⟨?_, .number ?_ hadmits (stops_dropWhile _ _)⟩
            · simp [Token.text, List.takeWhile_append_dropWhile]
            · rw [isNumeral, String.toList_ofList, List.takeWhile_cons_of_pos hc]
              exact Bool.and_eq_true_iff.2 ⟨hc, List.all_takeWhile⟩
          · cases h
        · split at h
          · rename_i hc
            cases h
            rw [Bool.and_eq_true] at hc
            refine ⟨?_, .word ?_ hc.2 (stops_dropWhile _ _)⟩
            · simp [text_wordToken, List.takeWhile_append_dropWhile]
            · rw [isIdentifier, String.toList_ofList,
                List.takeWhile_cons_of_pos (isNamePart_of_isNameStart hc.1)]
              exact Bool.and_eq_true_iff.2 ⟨hc.1, List.all_takeWhile⟩
          · obtain ⟨hcs, before, after, hlist, hfirst⟩ := readSpelled?_eq_some_iff.1 h
            exact ⟨hcs, .spelled hlist (hcs ▸ hfirst)⟩
  · rintro ⟨rfl, hscan⟩
    cases hscan with
    | number numeral admits ends => exact (read?_numeral numeral ends).trans (if_pos admits)
    | word identifier admits ends =>
        rw [text_wordToken]
        exact read?_identifier identifier admits ends
    | @spelled _ before after _ list first =>
        rw [read?_spelled (by rw [list]; simp)]
        exact readSpelled?_eq_some_iff.2 ⟨rfl, before, after, list, first⟩

/-- One text goes on as the other does, or with a blank. -/
def Resumes (rest rest' : List Char) : Prop :=
  rest'.head? = rest.head? ∨ ∃ c ∈ rest'.head?, isBlank c = true

theorem stops_of_resumes {p : Char → Bool} {rest rest' : List Char} (h : Stops p rest)
    (hblank : ∀ c, isBlank c = true → p c = false) (hrest : Resumes rest rest') :
    Stops p rest' := by
  intro c hc
  rcases hrest with heq | ⟨d, hd, hdblank⟩
  · exact h c (heq ▸ hc)
  · cases Option.mem_unique hc hd
    exact hblank c hdblank

/-- A word that is found in a text is found before the first character that it does not
hold. -/
theorem prefix_of_not_mem {word text more : List Char} {b : Char} (hword : b ∉ word)
    (h : word <+: text ++ b :: more) : word <+: text := by
  rcases List.prefix_or_prefix_of_prefix h (List.prefix_append text (b :: more)) with
    hshort | ⟨behind, rfl⟩
  · exact hshort
  · cases behind with
    | nil => simp
    | cons c behind =>
        rw [List.prefix_append_right_inj, List.cons_prefix_cons] at h
        obtain ⟨rfl, -⟩ := h
        exact absurd (by simp) hword

/-- A word without blanks that is found in a text is found before its first blank. -/
theorem prefix_of_blank {word text more : List Char} {b : Char}
    (hword : ∀ c ∈ word, isBlank c = false) (hb : isBlank b = true)
    (h : word <+: text ++ b :: more) : word <+: text := by
  apply prefix_of_not_mem _ h
  intro hmem
  rw [hword b hmem] at hb
  cases hb

/-- Whether a word is found that goes one character behind the text at most depends on that
character only. -/
theorem prefix_of_resumes {word text rest rest' : List Char} (hrest : Resumes rest rest')
    (hword : ∀ c ∈ word, isBlank c = false) (hlength : word.length ≤ text.length + 1)
    (h : word <+: text ++ rest') : word <+: text ++ rest := by
  rcases hrest with heq | ⟨b, hb, hblank⟩
  · rcases List.prefix_or_prefix_of_prefix h (List.prefix_append text rest') with
      hshort | ⟨behind, rfl⟩
    · exact hshort.trans (List.prefix_append text rest)
    · rw [List.prefix_append_right_inj] at h ⊢
      match behind, h with
      | [], _ => exact List.nil_prefix
      | [c], ⟨more, hmore⟩ =>
          rw [← hmore] at heq
          obtain ⟨tail, rfl⟩ := List.head?_eq_some_iff.1 heq.symm
          exact ⟨tail, rfl⟩
      | c :: d :: behind, _ => simp at hlength
  · obtain ⟨more, rfl⟩ := List.head?_eq_some_iff.1 hb
    exact (prefix_of_blank hword hblank h).trans (List.prefix_append text rest)

theorem isNamePart_of_isBlank {c : Char} (h : isBlank c = true) : isNamePart c = false := by
  rw [Bool.eq_false_iff]
  intro hpart
  rw [(not_layout_of_isNamePart hpart).2] at h
  cases h

theorem isDigit_of_isBlank {c : Char} (h : isBlank c = true) : c.isDigit = false := by
  have hpart := isNamePart_of_isBlank h
  simp only [isNamePart, Char.isAlphanum, Bool.or_eq_false_iff] at hpart
  exact hpart.1.2

theorem isNamePart_of_isDivider {c : Char} (h : isDivider c = true) : isNamePart c = false := by
  rcases Bool.or_eq_true_iff.1 h with hblank | hhash
  · exact isNamePart_of_isBlank hblank
  · rw [beq_iff_eq.1 hhash]
    rfl

theorem isDigit_of_isDivider {c : Char} (h : isDivider c = true) : c.isDigit = false := by
  rcases Bool.or_eq_true_iff.1 h with hblank | hhash
  · exact isDigit_of_isBlank hblank
  · rw [beq_iff_eq.1 hhash]
    rfl

namespace Token

theorem isWellFormed_of_mem_symbols {t : Token} (h : t ∈ symbols) : t.isWellFormed = true := by
  revert t
  decide

theorem isWellFormed_wordToken {place : Place} {word : String} (h : isIdentifier word = true) :
    (wordToken place word).isWellFormed = true := by
  unfold wordToken
  split
  · split
    · rfl
    · exact h
  · exact h

theorem endsBefore_wordToken {place : Place} {word : String} {rest : List Char}
    (h : Stops isNamePart rest) : (wordToken place word).EndsBefore rest := by
  unfold wordToken
  split
  · split
    · exact .inr h
    · exact h
  · exact h

namespace ScannedAt

variable {place : Place} {t : Token} {rest rest' : List Char}

theorem isWellFormed (h : t.ScannedAt place rest) : t.isWellFormed = true := by
  cases h with
  | number numeral _ _ => exact numeral
  | word identifier _ _ => exact isWellFormed_wordToken identifier
  | spelled list _ =>
      have hmem : t ∈ place.spelled := by simp [list]
      rcases Place.fixed_of_mem_spelled hmem with rfl | hsymbol
      · rfl
      · exact isWellFormed_of_mem_symbols hsymbol

theorem endsBefore (h : t.ScannedAt place rest) : t.EndsBefore rest := by
  cases h with
  | number _ _ ends => exact ends
  | word _ _ ends => exact endsBefore_wordToken ends
  | spelled list _ =>
      have hmem : t ∈ place.spelled := by simp [list]
      rcases Place.fixed_of_mem_spelled hmem with rfl | hsymbol
      · exact .inl rfl
      · cases t with
        | mark m => trivial
        | operator op => trivial
        | _ => simp [symbols, Mark.all] at hsymbol

/-- Where a token ends is settled by the character behind it. -/
theorem resume (h : t.ScannedAt place rest) (hrest : Resumes rest rest') :
    t.ScannedAt place rest' := by
  cases h with
  | number numeral admits ends =>
      exact .number numeral admits (stops_of_resumes ends (fun _ => isDigit_of_isBlank) hrest)
  | word identifier admits ends =>
      exact .word identifier admits (stops_of_resumes ends (fun _ => isNamePart_of_isBlank) hrest)
  | @spelled _ before after _ list first =>
      refine .spelled list fun u hu hbegins => first u hu ?_
      have hmem : u ∈ place.spelled := by simp [list, hu]
      have htmem : t ∈ place.spelled := by simp [list]
      have hpos := text_ne_empty_of_mem_spelled htmem
      rcases Place.length_of_mem_spelled hmem with hshort | honly
      · exact prefix_of_resumes hrest (Place.not_isBlank_of_mem_spelled hmem) (by omega) hbegins
      · have hlong := List.length_pos_of_mem hu
        simp only [list, List.length_append, List.length_cons] at honly
        omega

/-- A token ends before a divider, whatever stood behind it. -/
theorem divide (h : t.ScannedAt place rest) {d : Char} (hd : isDivider d = true)
    (more : List Char) : t.ScannedAt place (d :: more) := by
  cases h with
  | number numeral admits _ =>
      exact .number numeral admits (stops_cons (isDigit_of_isDivider hd) more)
  | word identifier admits _ =>
      exact .word identifier admits (stops_cons (isNamePart_of_isDivider hd) more)
  | @spelled _ before after _ list first =>
      refine .spelled list fun u hu hbegins => first u hu ?_
      have hmem : u ∈ place.spelled := by simp [list, hu]
      have hword : d ∉ u.text.toList := by
        intro hin
        rw [Place.not_isDivider_of_mem_spelled hmem d hin] at hd
        cases hd
      exact (prefix_of_not_mem hword hbegins).trans (List.prefix_append ..)

theorem exists_cons (h : t.ScannedAt place rest) : ∃ c cs, t.text.toList = c :: cs := by
  refine List.exists_cons_of_length_pos ?_
  have hlength := length_lt_of_read? (read?_eq_some_iff.2 ⟨rfl, h⟩)
  rw [List.length_append] at hlength
  omega

end ScannedAt

end Token

/-! ### Layout -/

/-- Blanks and comments, in front of `rest`. A comment ends at the end of its line. -/
inductive Layout : List Char → (rest : List Char) → Prop
  | nil {rest : List Char} : Layout [] rest
  | blank {c : Char} {cs rest : List Char} (blank : isBlank c = true) (behind : Layout cs rest) :
      Layout (c :: cs) rest
  | comment {text cs rest : List Char} (line : ∀ c ∈ text, c ≠ '\n')
      (ends : Stops (· != '\n') (cs ++ rest)) (behind : Layout cs rest) :
      Layout ('#' :: (text ++ cs)) rest

/-- One text goes on as the other does, or with a new line. -/
def Continues (rest rest' : List Char) : Prop :=
  rest'.head? = rest.head? ∨ rest'.head? = some '\n'

namespace Continues

variable {rest rest' : List Char}

theorem resumes (h : Continues rest rest') : Resumes rest rest' :=
  h.imp_right fun hline => ⟨'\n', hline, rfl⟩

theorem append (h : Continues rest rest') (text : List Char) :
    Continues (text ++ rest) (text ++ rest') := by
  cases text with
  | nil => exact h
  | cons c text => exact .inl rfl

end Continues

theorem Layout.of_continues {cs rest rest' : List Char} (h : Layout cs rest)
    (hrest : Continues rest rest') : Layout cs rest' := by
  induction h with
  | nil => exact .nil
  | blank hblank _ ih => exact .blank hblank (ih hrest)
  | comment line ends _ ih =>
      refine .comment line (fun c hc => ?_) (ih hrest)
      rcases hrest.append _ with heq | hline
      · exact ends c (heq ▸ hc)
      · cases Option.mem_unique hc hline
        rfl

theorem Position.advance_append (p : Position) (cs ds : List Char) :
    p.advance (cs ++ ds) = (p.advance cs).advance ds :=
  List.foldl_append

theorem skipComment_append (p : Position) {text cs : List Char} (h : ∀ c ∈ text, c ≠ '\n') :
    skipComment p (text ++ cs) = skipComment (p.advance text) cs := by
  induction text generalizing p with
  | nil => rfl
  | cons c text ih =>
      rw [List.forall_mem_cons] at h
      rw [List.cons_append, skipComment, if_neg h.1]
      exact ih (p.next c) h.2

theorem skipComment_of_stops (p : Position) {cs : List Char} (h : Stops (· != '\n') cs) :
    skipComment p cs = skipLayout p cs := by
  cases cs with
  | nil => rfl
  | cons c cs =>
      obtain rfl : c = '\n' := by simpa using h c rfl
      rfl

/-- Layout is skipped, and the position moves on behind it. -/
theorem skipLayout_append {lay rest : List Char} (h : Layout lay rest) (p : Position) :
    skipLayout p (lay ++ rest) = skipLayout (p.advance lay) rest := by
  induction h generalizing p with
  | nil => rfl
  | @blank c cs rest hblank _ ih =>
      have hhash : c ≠ '#' := by
        rintro rfl
        cases hblank
      rw [List.cons_append, skipLayout, if_neg hhash, if_pos hblank]
      exact ih (p.next c)
  | @comment text cs rest line ends _ ih =>
      rw [List.cons_append, skipLayout, if_pos rfl, List.append_assoc, skipComment_append _ line,
        skipComment_of_stops _ ends, ih]
      exact congrArg (skipLayout · rest) (Position.advance_append _ _ _).symm

theorem skipLayout_of_not_layout {c : Char} (hhash : c ≠ '#') (hblank : isBlank c = false)
    (p : Position) (cs : List Char) : skipLayout p (c :: cs) = ⟨p, c :: cs⟩ := by
  rw [skipLayout, if_neg hhash, if_neg (Bool.eq_false_iff.1 hblank)]

mutual

/-- What is skipped is layout, and neither a blank nor a comment stands behind it. -/
theorem exists_skipLayout (p : Position) (cs : List Char) :
    ∃ lay, cs = lay ++ (skipLayout p cs).rest ∧ Layout lay (skipLayout p cs).rest ∧
      (skipLayout p cs).position = p.advance lay ∧
      ∀ c ∈ (skipLayout p cs).rest.head?, c ≠ '#' ∧ isBlank c = false := by
  cases cs with
  | nil => exact ⟨[], rfl, .nil, rfl, nofun⟩
  | cons c cs =>
      rw [skipLayout]
      split
      · rename_i hhash
        subst hhash
        obtain ⟨text, lay, hcs, hline, hends, hlay, hposition, hrest⟩ :=
          exists_skipComment (p.next '#') cs
        refine ⟨'#' :: (text ++ lay), ?_, .comment hline hends hlay, hposition, hrest⟩
        rw [List.cons_append, ← hcs]
      · split
        · rename_i hblank
          obtain ⟨lay, hcs, hlay, hposition, hrest⟩ := exists_skipLayout (p.next c) cs
          refine ⟨c :: lay, ?_, .blank hblank hlay, hposition, hrest⟩
          rw [List.cons_append, ← hcs]
        · rename_i hhash hblank
          refine ⟨[], rfl, .nil, rfl, ?_⟩
          rintro d ⟨⟩
          exact ⟨hhash, Bool.eq_false_iff.2 hblank⟩

theorem exists_skipComment (p : Position) (cs : List Char) :
    ∃ text lay, cs = text ++ lay ++ (skipComment p cs).rest ∧ (∀ c ∈ text, c ≠ '\n') ∧
      Stops (· != '\n') (lay ++ (skipComment p cs).rest) ∧ Layout lay (skipComment p cs).rest ∧
      (skipComment p cs).position = p.advance (text ++ lay) ∧
      ∀ c ∈ (skipComment p cs).rest.head?, c ≠ '#' ∧ isBlank c = false := by
  cases cs with
  | nil => exact ⟨[], [], rfl, nofun, nofun, .nil, rfl, nofun⟩
  | cons c cs =>
      rw [skipComment]
      split
      · rename_i hline
        obtain ⟨lay, hcs, hlay, hposition, hrest⟩ := exists_skipLayout (p.next c) cs
        refine ⟨[], c :: lay, ?_, nofun, ?_, .blank (hline ▸ rfl) hlay, hposition, hrest⟩
        · rw [List.nil_append, List.cons_append, ← hcs]
        · rintro d ⟨⟩
          simp [hline]
      · rename_i hline
        obtain ⟨text, lay, hcs, hlines, hends, hlay, hposition, hrest⟩ :=
          exists_skipComment (p.next c) cs
        refine ⟨c :: text, lay, ?_, List.forall_mem_cons.2 ⟨hline, hlines⟩, hends, hlay, hposition,
          hrest⟩
        rw [List.cons_append, List.cons_append, ← hcs]

end

/-! ### Stretches of a text -/

/-- Reading goes from one place in a text to a later one, and takes in the lexemes between
them. -/
inductive Scans : Reading → Cursor → List Lexeme → Reading → Cursor → Prop
  | refl (r : Reading) (cursor : Cursor) : Scans r cursor [] r cursor
  | cons {r next r' : Reading} {cursor cursor' : Cursor} {position : Position}
      {cs rest : List Char} {token : Token} {lexemes : List Lexeme}
      (skip : skipLayout cursor.position cursor.rest = ⟨position, cs⟩)
      (read : read? r.place cs = some (token, rest)) (step : r.step token = some next)
      (tail : Scans next ⟨position.advance token.text.toList, rest⟩ lexemes r' cursor') :
      Scans r cursor (⟨token, position⟩ :: lexemes) r' cursor'

/-- The text ends, and so may the program. -/
structure Finishes (r : Reading) (cursor : Cursor) (p : Program) : Prop where
  ends : (skipLayout cursor.position cursor.rest).rest = []
  finish : r.finish? = some p

/-- What the next token is blamed for, and where it stands. -/
inductive Faults (r : Reading) (cursor : Cursor) : Unexpected → Position → Prop
  | ended {position : Position} (ends : (skipLayout cursor.position cursor.rest).rest = [])
      (finish : r.finish? = none) : Faults r cursor .endOfInput position
  | unread {position : Position} {c : Char} {cs : List Char}
      (skip : skipLayout cursor.position cursor.rest = ⟨position, c :: cs⟩)
      (read : read? r.place (c :: cs) = none) : Faults r cursor (blame c cs) position
  | misplaced {position : Position} {cs rest : List Char} {token : Token}
      (skip : skipLayout cursor.position cursor.rest = ⟨position, cs⟩)
      (read : read? r.place cs = some (token, rest)) (step : r.step token = none) :
      Faults r cursor (.token token.text) position

/-- The lexemes of a text up to its end or its first fault. -/
def lexemesFrom (r : Reading) (cursor : Cursor) : List Lexeme :=
  match _token : read? r.place (skipLayout cursor.position cursor.rest).rest with
  | none => []
  | some (token, rest) =>
    match r.step token with
    | none => []
    | some next =>
      let position := (skipLayout cursor.position cursor.rest).position
      ⟨token, position⟩ :: lexemesFrom next ⟨position.advance token.text.toList, rest⟩
termination_by cursor.rest.length
decreasing_by
  exact Nat.lt_of_lt_of_le (length_lt_of_read? _token) (length_skipLayout_le ..)

theorem lexemesFrom_of_read?_none {r : Reading} {cursor : Cursor} {position : Position}
    {cs : List Char} (hskip : skipLayout cursor.position cursor.rest = ⟨position, cs⟩)
    (hread : read? r.place cs = none) : lexemesFrom r cursor = [] := by
  rw [lexemesFrom]
  split
  · rfl
  · simp_all

theorem lexemesFrom_of_step_none {r : Reading} {cursor : Cursor} {position : Position}
    {cs rest : List Char} {token : Token}
    (hskip : skipLayout cursor.position cursor.rest = ⟨position, cs⟩)
    (hread : read? r.place cs = some (token, rest)) (hstep : r.step token = none) :
    lexemesFrom r cursor = [] := by
  rw [lexemesFrom]
  split
  · rfl
  · simp_all

theorem lexemesFrom_cons {r next : Reading} {cursor : Cursor} {position : Position}
    {cs rest : List Char} {token : Token}
    (hskip : skipLayout cursor.position cursor.rest = ⟨position, cs⟩)
    (hread : read? r.place cs = some (token, rest)) (hstep : r.step token = some next) :
    lexemesFrom r cursor =
      ⟨token, position⟩ :: lexemesFrom next ⟨position.advance token.text.toList, rest⟩ := by
  rw [lexemesFrom]
  split
  · simp_all
  · simp_all

/-- Reading a whole text goes from its beginning to its end or to its first fault. -/
theorem scans_readAll (r : Reading) (last : Position) (cursor : Cursor) :
    ∃ r' cursor', Scans r cursor (lexemesFrom r cursor) r' cursor' ∧
      ((∃ p, readAll r last cursor = .ok (lexemesFrom r cursor, p) ∧ Finishes r' cursor' p) ∨
        ∃ what position, readAll r last cursor = .error (.unexpected what position) ∧
          Faults r' cursor' what position) := by
  fun_induction readAll r last cursor with
  | case1 r last cursor position hskip p hfinish =>
      rw [lexemesFrom_of_read?_none hskip rfl]
      exact ⟨r, cursor, .refl r cursor, .inl ⟨p, rfl, by rw [hskip], hfinish⟩⟩
  | case2 r last cursor position hskip hfinish =>
      rw [lexemesFrom_of_read?_none hskip rfl]
      exact ⟨r, cursor, .refl r cursor, .inr ⟨_, _, rfl, .ended (by rw [hskip]) hfinish⟩⟩
  | case3 r last cursor position c cs hskip hread =>
      rw [lexemesFrom_of_read?_none hskip hread]
      exact ⟨r, cursor, .refl r cursor, .inr ⟨_, _, rfl, .unread hskip hread⟩⟩
  | case4 r last cursor position c cs hskip token rest hread hstep =>
      rw [lexemesFrom_of_step_none hskip hread hstep]
      exact ⟨r, cursor, .refl r cursor, .inr ⟨_, _, rfl, .misplaced hskip hread hstep⟩⟩
  | case5 r last cursor position c cs hskip token rest hread next hstep lexemes p hall ih =>
      rw [lexemesFrom_cons hskip hread hstep]
      obtain ⟨r', cursor', hscans, ⟨p, hok, hfinishes⟩ | ⟨what, fault, herror, -⟩⟩ := ih
      · rw [hall] at hok
        cases hok
        exact ⟨r', cursor', .cons hskip hread hstep hscans, .inl ⟨p, rfl, hfinishes⟩⟩
      · rw [hall] at herror
        cases herror
  | case6 r last cursor position c cs hskip token rest hread next hstep e hall ih =>
      rw [lexemesFrom_cons hskip hread hstep]
      obtain ⟨r', cursor', hscans, ⟨p, hok, -⟩ | ⟨what, fault, herror, hfaults⟩⟩ := ih
      · rw [hall] at hok
        cases hok
      · rw [hall] at herror
        cases herror
        exact ⟨r', cursor', .cons hskip hread hstep hscans, .inr ⟨what, fault, rfl, hfaults⟩⟩

namespace Scans

variable {r r' : Reading} {cursor cursor' : Cursor} {lexemes : List Lexeme}

theorem readAll_eq (h : Scans r cursor lexemes r' cursor') (last : Position) :
    ∃ last', readAll r last cursor =
      (readAll r' last' cursor').map fun all => (lexemes ++ all.1, all.2) := by
  induction h generalizing last with
  | refl r cursor =>
      refine ⟨last, ?_⟩
      cases readAll r last cursor <;> rfl
  | @cons r next r' cursor cursor' position cs rest token lexemes skip read step _ ih =>
      obtain ⟨last', hall⟩ := ih position
      refine ⟨last', ?_⟩
      rw [readAll_cons skip read step, hall]
      cases readAll r' last' cursor' <;> rfl

/-- A stretch stands at the beginning of its text, and is read in the same way from every
text that begins so and goes on with the same character or a new line. -/
theorem exists_consumed (h : Scans r cursor lexemes r' cursor') :
    ∃ text, cursor.rest = text ++ cursor'.rest ∧
      cursor'.position = cursor.position.advance text ∧
      ∀ rest, Continues cursor'.rest rest →
        Scans r ⟨cursor.position, text ++ rest⟩ lexemes r' ⟨cursor'.position, rest⟩ := by
  induction h with
  | refl r cursor => exact ⟨[], rfl, rfl, fun rest _ => .refl r _⟩
  | @cons r next r' cursor cursor' position cs rest token lexemes skip read step _ ih =>
      obtain ⟨text, hrest, hposition, hscans⟩ := ih
      obtain ⟨lay, hlay, hlayout, hadvance, hstarts⟩ :=
        exists_skipLayout cursor.position cursor.rest
      obtain ⟨hcs, hscanned⟩ := read?_eq_some_iff.1 read
      obtain ⟨c, word, hword⟩ := hscanned.exists_cons
      rw [skip] at hlay hlayout hadvance hstarts
      dsimp only at hrest hposition hlay hlayout hadvance hstarts
      refine ⟨lay ++ (token.text.toList ++ text), ?_, ?_, fun more hmore => ?_⟩
      · rw [hlay, hcs, hrest]
        simp only [List.append_assoc]
      · rw [hposition, hadvance, Position.advance_append, Position.advance_append]
      · have hcontinues : Continues rest (text ++ more) := hrest ▸ hmore.append text
        have hskip : skipLayout cursor.position (lay ++ (token.text.toList ++ text ++ more)) =
            ⟨position, token.text.toList ++ text ++ more⟩ := by
          have hlayout' : Layout lay (token.text.toList ++ text ++ more) := by
            refine hlayout.of_continues (.inl ?_)
            rw [hcs, hword]
            rfl
          obtain ⟨hhash, hblank⟩ := hstarts c (by rw [hcs, hword]; rfl)
          rw [skipLayout_append hlayout', ← hadvance, hword]
          exact skipLayout_of_not_layout hhash hblank position _
        have hread : read? r.place (token.text.toList ++ text ++ more) =
            some (token, text ++ more) :=
          read?_eq_some_iff.2 ⟨List.append_assoc .., hscanned.resume hcontinues.resumes⟩
        rw [List.append_assoc]
        exact .cons hskip hread step (hscans more hmore)

end Scans

end FunCompiler.Source
