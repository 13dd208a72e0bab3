import FunCompiler.Proofs.Source.Soundness

/-!
Layout between tokens. A text is its lexemes with stretches of blanks and comments
before, between and behind them (`Spread`). Which stretches they are does not
matter as long as none is empty and every comment ends its line: a token was
recognised by what stands behind it, and a blank or a comment ends every token
at least as early as anything else does (`Token.ScannedAt.divide`). So each token
is read again in the same state, and the same program comes out.
-/

namespace FunCompiler.Source

/-- One blank, or one comment with the line feed that ends it. -/
inductive IsSpacer : List Char → Prop
  | blank {c : Char} (blank : isBlank c = true) : IsSpacer [c]
  | comment {text : List Char} (line : ∀ c ∈ text, c ≠ '\n') :
      IsSpacer ('#' :: (text ++ ['\n']))

/-- One or more spacers. -/
def IsSpacing (lay : List Char) : Prop :=
  ∃ spacers, spacers ≠ [] ∧ (∀ spacer ∈ spacers, IsSpacer spacer) ∧ spacers.flatten = lay

theorem IsSpacer.starts {lay : List Char} (h : IsSpacer lay) :
    ∃ d more, lay = d :: more ∧ isDivider d = true := by
  cases h with
  | @blank c blank => exact ⟨c, [], rfl, by simp [isDivider, blank]⟩
  | @comment text line => exact ⟨'#', text ++ ['\n'], rfl, rfl⟩

theorem IsSpacer.layout {lay cs rest : List Char} (h : IsSpacer lay) (hcs : Layout cs rest) :
    Layout (lay ++ cs) rest := by
  cases h with
  | blank blank => exact .blank blank hcs
  | @comment text line =>
      have hline : Layout ('\n' :: cs) rest := .blank rfl hcs
      have hcomment := Layout.comment line (stops_cons rfl (cs ++ rest)) hline
      rwa [List.cons_append, List.append_assoc]

namespace IsSpacing

variable {lay : List Char}

theorem starts (h : IsSpacing lay) : ∃ d more, lay = d :: more ∧ isDivider d = true := by
  obtain ⟨spacers, hne, hall, rfl⟩ := h
  obtain ⟨spacer, spacers, rfl⟩ := List.exists_cons_of_ne_nil hne
  obtain ⟨d, more, rfl, hd⟩ := (hall spacer (List.mem_cons_self ..)).starts
  exact ⟨d, more ++ spacers.flatten, rfl, hd⟩

/-- Spacing is layout whatever stands behind it. -/
theorem layout (h : IsSpacing lay) (rest : List Char) : Layout lay rest := by
  obtain ⟨spacers, -, hall, rfl⟩ := h
  induction spacers with
  | nil => exact .nil
  | cons spacer spacers ih =>
      rw [List.forall_mem_cons] at hall
      exact hall.1.layout (ih hall.2)

end IsSpacing

/-- Layout in front of some text is layout by itself. -/
theorem Layout.alone {lay rest : List Char} (h : Layout lay rest) : Layout lay [] := by
  induction h with
  | nil => exact .nil
  | blank blank _ ih => exact .blank blank ih
  | @comment text cs rest line ends _ ih =>
      apply Layout.comment line _ ih
      cases cs with
      | nil => nofun
      | cons c cs => exact ends

/-- Tokens, each with the stretch of text before it, and the stretch behind the last. -/
structure Spread where
  words : List (List Char × Token)
  last : List Char

namespace Spread

def tokens (t : Spread) : List Token := t.words.map Prod.snd

def stretches (t : Spread) : List (List Char) := t.words.map Prod.fst ++ [t.last]

/-- The text of words, one behind another. -/
def charsOf (words : List (List Char × Token)) : List Char :=
  words.flatMap fun word => word.1 ++ word.2.text.toList

def text (t : Spread) : String := String.ofList (charsOf t.words ++ t.last)

/-- The tokens of words that begin at the position, each with its own position. -/
def lexemesOf : Position → List (List Char × Token) → List Lexeme
  | _, [] => []
  | p, (lay, token) :: words =>
    ⟨token, p.advance lay⟩ :: lexemesOf ((p.advance lay).advance token.text.toList) words

def lexemes (t : Spread) : List Lexeme := lexemesOf .start t.words

theorem charsOf_cons (lay : List Char) (token : Token) (words : List (List Char × Token)) :
    charsOf ((lay, token) :: words) = lay ++ (token.text.toList ++ charsOf words) := by
  simp [charsOf]

theorem lexemesOf_append (p : Position) (words others : List (List Char × Token)) :
    lexemesOf p (words ++ others) =
      lexemesOf p words ++ lexemesOf (p.advance (charsOf words)) others := by
  induction words generalizing p with
  | nil => rfl
  | cons word words ih =>
      obtain ⟨lay, token⟩ := word
      rw [List.cons_append, lexemesOf, lexemesOf, ih, charsOf_cons]
      simp only [Position.advance_append, List.cons_append]

theorem map_token_lexemesOf (p : Position) (words : List (List Char × Token)) :
    (lexemesOf p words).map Lexeme.token = words.map Prod.snd := by
  induction words generalizing p with
  | nil => rfl
  | cons word words ih => simp [lexemesOf, ih]

theorem map_token_lexemes (t : Spread) : t.lexemes.map Lexeme.token = t.tokens :=
  map_token_lexemesOf .start t.words

/-- Whether a literal is at fault does not depend on where it stands. -/
theorem findSome?_fault?_eq_none_iff (t : Spread) :
    t.lexemes.findSome? Lexeme.fault? = none ↔ ∀ token ∈ t.tokens, ¬ token.IsExcessive := by
  rw [← t.map_token_lexemes, List.forall_mem_map, List.findSome?_eq_none_iff]
  simp only [Lexeme.fault?_eq_none_iff]

end Spread

/-! ### The stretches of a text -/

/-- What is read is made of words: the stretches between the lexemes are layout. -/
theorem Scans.exists_words {r r' : Reading} {cursor cursor' : Cursor} {lexemes : List Lexeme}
    (h : Scans r cursor lexemes r' cursor') :
    ∃ words, cursor.rest = Spread.charsOf words ++ cursor'.rest ∧
      lexemes = Spread.lexemesOf cursor.position words ∧
      ∀ word ∈ words, Layout word.1 [] := by
  induction h with
  | refl r cursor => exact ⟨[], rfl, rfl, nofun⟩
  | @cons r next r' cursor cursor' position cs rest token lexemes skip read step _ ih =>
      obtain ⟨words, hrest, hlexemes, hwords⟩ := ih
      obtain ⟨lay, hlay, hlayout, hadvance, -⟩ := exists_skipLayout cursor.position cursor.rest
      rw [skip] at hlay hlayout hadvance
      dsimp only at hrest hlexemes hlay hadvance
      refine ⟨(lay, token) :: words, ?_, ?_, ?_⟩
      · rw [hlay, (read?_eq_some_iff.1 read).1, hrest, Spread.charsOf_cons]
        simp only [List.append_assoc]
      · rw [Spread.lexemesOf, ← hadvance, ← hlexemes]
      · exact List.forall_mem_cons.2 ⟨hlayout.alone, hwords⟩

/-- A text that is read to its end is its lexemes with layout around them. -/
theorem Scans.exists_spread {s : String} {r : Reading} {cursor : Cursor} {lexemes : List Lexeme}
    {p : Program} (h : Scans .start ⟨.start, s.toList⟩ lexemes r cursor)
    (hfinishes : Finishes r cursor p) :
    ∃ t : Spread, t.text = s ∧ t.lexemes = lexemes ∧ ∀ lay ∈ t.stretches, Layout lay [] := by
  obtain ⟨words, htext, hlexemes, hwords⟩ := h.exists_words
  obtain ⟨last, hlast, hlayout, -, -⟩ := exists_skipLayout cursor.position cursor.rest
  rw [hfinishes.ends] at hlast hlayout
  rw [List.append_nil] at hlast
  dsimp only at htext
  refine ⟨⟨words, last⟩, ?_, hlexemes.symm, ?_⟩
  · rw [Spread.text, ← hlast, ← htext, String.ofList_toList]
  · rw [Spread.stretches, List.forall_mem_append, List.forall_mem_map]
    exact ⟨hwords, by simpa using hlayout⟩

/-! ### Other stretches -/

/-- Behind a token that is followed by spacing stands a divider. -/
theorem Spread.starts_behind {words : List (List Char × Token)} {last : List Char}
    (hwords : ∀ word ∈ words, IsSpacing word.1) (hlast : IsSpacing last) :
    ∃ d more, charsOf words ++ last = d :: more ∧ isDivider d = true := by
  cases words with
  | nil => exact hlast.starts
  | cons word words =>
      obtain ⟨lay, token⟩ := word
      obtain ⟨d, more, hlay, hd⟩ := (hwords _ (List.mem_cons_self ..)).starts
      refine ⟨d, more ++ (token.text.toList ++ charsOf words) ++ last, ?_, hd⟩
      rw [charsOf_cons, show lay = d :: more from hlay]
      rfl

/-- The tokens of a stretch of reading are read in the same states with other spacing around
them. -/
theorem Scans.respace {r r' : Reading} {cursor cursor' : Cursor} {lexemes : List Lexeme}
    (h : Scans r cursor lexemes r' cursor') {words : List (List Char × Token)} {last : List Char}
    (htokens : words.map Prod.snd = lexemes.map Lexeme.token)
    (hwords : ∀ word ∈ words, IsSpacing word.1) (hlast : IsSpacing last) (position : Position) :
    ∃ position', Scans r ⟨position, Spread.charsOf words ++ last⟩
      (Spread.lexemesOf position words) r' ⟨position', last⟩ := by
  induction h generalizing words position with
  | refl r cursor =>
      rw [List.map_nil, List.map_eq_nil_iff] at htokens
      subst htokens
      exact ⟨position, .refl r _⟩
  | @cons r next r' cursor cursor' start cs rest token lexemes skip read step _ ih =>
      obtain ⟨⟨lay, token'⟩, words, rfl, htoken, hbehind⟩ := List.map_eq_cons_iff.1 htokens
      obtain rfl : token' = token := htoken
      rw [List.forall_mem_cons] at hwords
      -- the token begins with neither a blank nor a comment, so the new layout ends before it
      obtain ⟨-, -, -, -, hstarts⟩ := exists_skipLayout cursor.position cursor.rest
      obtain ⟨rfl, hscanned⟩ := read?_eq_some_iff.1 read
      obtain ⟨c, word, hword⟩ := hscanned.exists_cons
      rw [skip, hword] at hstarts
      obtain ⟨hhash, hblank⟩ := hstarts c rfl
      obtain ⟨d, more, hdivider, hd⟩ := Spread.starts_behind hwords.2 hlast
      have hskip : skipLayout position (Spread.charsOf ((lay, token') :: words) ++ last) =
          ⟨position.advance lay, token'.text.toList ++ (Spread.charsOf words ++ last)⟩ := by
        rw [Spread.charsOf_cons, List.append_assoc, skipLayout_append (hwords.1.layout _), hword,
          List.append_assoc]
        exact skipLayout_of_not_layout hhash hblank _ _
      have hread : read? r.place (token'.text.toList ++ (Spread.charsOf words ++ last)) =
          some (token', Spread.charsOf words ++ last) := by
        apply read?_eq_some_iff.2
        rw [hdivider]
        exact ⟨rfl, hscanned.divide hd more⟩
      obtain ⟨position', hscans⟩ := ih hbehind hwords.2
        ((position.advance lay).advance token'.text.toList)
      exact ⟨position', .cons hskip hread step hscans⟩

/-- The text ends behind any spacing. -/
theorem Finishes.respace {r : Reading} {cursor : Cursor} {p : Program} (h : Finishes r cursor p)
    {last : List Char} (hlast : IsSpacing last) (position : Position) :
    Finishes r ⟨position, last⟩ p where
  ends := by
    have hskip := skipLayout_append (hlast.layout []) position
    rw [List.append_nil] at hskip
    rw [hskip]
    rfl
  finish := h.finish

theorem Scans.readAll_of_finishes {r r' : Reading} {cursor cursor' : Cursor}
    {lexemes : List Lexeme} {p : Program} (h : Scans r cursor lexemes r' cursor')
    (hfinishes : Finishes r' cursor' p) (last : Position) :
    readAll r last cursor = .ok (lexemes, p) := by
  obtain ⟨last', hall⟩ := h.readAll_eq last
  have hskip : skipLayout cursor'.position cursor'.rest =
      ⟨(skipLayout cursor'.position cursor'.rest).position, []⟩ := by
    rw [← hfinishes.ends]
  rw [hall, readAll_nil hskip hfinishes.finish]
  simp [Except.map]

/-! ### Whole texts -/

/-- Literals are judged once a text has been read. -/
theorem parse_of_readAll_ok {s : String} {lexemes : List Lexeme} {p : Program}
    (h : readAll .start .start ⟨.start, s.toList⟩ = .ok (lexemes, p)) :
    parse s = (lexemes.findSome? Lexeme.fault?).elim (.ok p) .error := by
  cases hfault : lexemes.findSome? Lexeme.fault? with
  | none => simp only [parse, h, hfault, Option.elim_none]
  | some fault => simp only [parse, h, hfault, Option.elim_some]

/-- An accepted text is its lexemes with layout before, between and behind them, and with any
spacing in place of each of these stretches the same lexemes are read, and the same program. -/
theorem parse_respaced {s : String} {p : Program} (h : parse s = .ok p) :
    ∃ old : Spread, old.text = s ∧
      readAll .start .start ⟨.start, s.toList⟩ = .ok (old.lexemes, p) ∧
      (∀ lay ∈ old.stretches, Layout lay []) ∧
      ∀ new : Spread, new.tokens = old.tokens → (∀ lay ∈ new.stretches, IsSpacing lay) →
        readAll .start .start ⟨.start, new.text.toList⟩ = .ok (new.lexemes, p) ∧
        parse new.text = .ok p := by
  obtain ⟨lexemes, r, cursor, hscans, hfinishes, hfaults⟩ := exists_of_parse_ok h
  obtain ⟨old, htext, rfl, hlayout⟩ := hscans.exists_spread hfinishes
  refine ⟨old, htext, hscans.readAll_of_finishes hfinishes .start, hlayout,
    fun new htokens hspacing => ?_⟩
  rw [Spread.stretches, List.forall_mem_append, List.forall_mem_map,
    List.forall_mem_singleton] at hspacing
  have hsame : new.tokens = old.lexemes.map Lexeme.token := by
    rw [htokens, old.map_token_lexemes]
  obtain ⟨position, hnew⟩ := hscans.respace hsame hspacing.1 hspacing.2 .start
  have hall : readAll .start .start ⟨.start, new.text.toList⟩ = .ok (new.lexemes, p) := by
    rw [Spread.text, String.toList_ofList]
    exact hnew.readAll_of_finishes (hfinishes.respace hspacing.2 position) .start
  have hnone : new.lexemes.findSome? Lexeme.fault? = none := by
    rw [new.findSome?_fault?_eq_none_iff, htokens, ← old.findSome?_fault?_eq_none_iff]
    exact List.findSome?_eq_none_iff.2 hfaults
  refine ⟨hall, ?_⟩
  rw [parse_of_readAll_ok hall, hnone, Option.elim_none]

/-- A keyword and a literal that run into the names behind them, and a comment at the very end. -/
def adjacentTokens : String := "funmain(x)\x7bif x==1x=02\x7d#end"

/-- The same tokens with a form feed and a comment around each of them. -/
def distantTokens : Spread where
  words := [.keyword .function, .name "main", .mark .openParen, .name "x", .mark .closeParen,
    .mark .openBrace, .keyword .branch, .name "x", .operator .eq, .number "1", .name "x",
    .mark .becomes, .number "02", .mark .closeBrace].map ("\x0c# else \"\n".toList, ·)
  last := "\x0c# else \"\n".toList

theorem adjacentTokens_respaced :
    ∃ p, parse adjacentTokens = .ok p ∧
      p.unparse = "fun main ( x ) \x7b if x == 1 x = 2 \x7d" ∧ parse distantTokens.text = .ok p := by
  have hunparse : (parse adjacentTokens).toOption.map Program.unparse =
      some "fun main ( x ) \x7b if x == 1 x = 2 \x7d" := by
    decide +kernel
  have hlexed : (readAll .start .start ⟨.start, adjacentTokens.toList⟩).toOption.map
      (fun all => all.1.map Lexeme.token) = some distantTokens.tokens := by
    decide +kernel
  have hspacing : IsSpacing "\x0c# else \"\n".toList := by
    refine ⟨[['\x0c'], '#' :: (" else \"".toList ++ ['\n'])], nofun, ?_, rfl⟩
    rw [List.forall_mem_cons, List.forall_mem_singleton]
    exact ⟨.blank rfl, .comment (by simp)⟩
  cases hparse : parse adjacentTokens with
  | error e =>
      rw [hparse] at hunparse
      cases hunparse
  | ok p =>
      rw [hparse] at hunparse
      obtain ⟨old, -, hread, -, hrespaced⟩ := parse_respaced hparse
      rw [hread] at hlexed
      have htokens : distantTokens.tokens = old.tokens :=
        (Option.some.inj hlexed).symm.trans old.map_token_lexemes
      refine ⟨p, rfl, Option.some.inj hunparse, (hrespaced distantTokens htokens ?_).2⟩
      simpa [Spread.stretches, distantTokens] using hspacing

end FunCompiler.Source
