import FunCompiler.Source.Parser
import FunCompiler.Source.Unparse
import FunCompiler.Proofs.Runs

/-!
Reading back tokens that are divided by single spaces. A token with a space or
the end of the text behind it is read as itself wherever it may stand, with one
exception: a name that spells a keyword is read as the keyword where that may
stand (`Token.ReadAt`). A reading that takes a list of tokens in, each of them
read as itself, therefore reads the text of the list (`readAll_of_takes`).
-/

namespace FunCompiler.Source

/-- An ASCII letter or underscore, then letters, digits and underscores. -/
def isIdentifier (s : String) : Bool :=
  match s.toList with
  | [] => false
  | c :: cs => isNameStart c && cs.all isNamePart

/-! ### Where a token ends -/

/-- The text is at its end or goes on with a space. -/
def Divided (rest : List Char) : Prop := rest = [] ∨ ∃ more, rest = ' ' :: more

theorem Divided.stops {p : Char → Bool} {rest : List Char} (h : Divided rest)
    (hspace : p ' ' = false) : Stops p rest := by
  rcases h with rfl | ⟨more, rfl⟩
  · nofun
  · exact stops_cons hspace more

/-- At a place, the text of a token is read as the token if the token ends there, is
not skipped as layout, and is not faulty as a literal. -/
structure Token.ReadAt (place : Place) (t : Token) : Prop where
  starts : ∃ c cs, t.text.toList = c :: cs ∧ c ≠ '#' ∧ isBlank c = false
  read : ∀ rest, Divided rest → read? place (t.text.toList ++ rest) = some (t, rest)
  faultless : ∀ position, Lexeme.fault? ⟨t, position⟩ = none

/-! ### Words -/

theorem isDigit_eq_false_of_isNameStart {c : Char} (h : isNameStart c = true) :
    c.isDigit = false := by
  rw [Bool.eq_false_iff]
  intro hdigit
  obtain ⟨-, hhigh⟩ := Bool.and_eq_true_iff.1 hdigit
  have hle : c.val ≤ 57 := of_decide_eq_true hhigh
  rcases Bool.or_eq_true_iff.1 h with halpha | hunderscore
  · rcases Bool.or_eq_true_iff.1 halpha with hupper | hlower
    · have hlow : 65 ≤ c.val := (of_decide_eq_true hupper).1
      exact absurd (UInt32.le_trans hlow hle) (by decide)
    · have hlow : 97 ≤ c.val := of_decide_eq_true (Bool.and_eq_true_iff.1 hlower).1
      exact absurd (UInt32.le_trans hlow hle) (by decide)
  · rw [beq_iff_eq.1 hunderscore] at hle
    exact absurd hle (by decide)

theorem not_layout_of_isNamePart {c : Char} (h : isNamePart c = true) :
    c ≠ '#' ∧ isBlank c = false := by
  refine ⟨?_, ?_⟩
  · rintro rfl
    cases h
  · rw [Bool.eq_false_iff]
    intro hblank
    simp only [isBlank, Bool.or_eq_true, beq_iff_eq] at hblank
    rcases hblank with (((rfl | rfl) | rfl) | rfl) | rfl <;> cases h

theorem exists_of_isIdentifier {word : String} (h : isIdentifier word = true) :
    ∃ c cs, word.toList = c :: cs ∧ isNameStart c = true ∧
      ∀ d ∈ word.toList, isNamePart d = true := by
  unfold isIdentifier at h
  split at h
  · cases h
  · rename_i c cs hlist
    rw [Bool.and_eq_true, List.all_eq_true] at h
    refine ⟨c, cs, hlist, h.1, fun d hd => ?_⟩
    rw [hlist] at hd
    rcases List.mem_cons.1 hd with rfl | hd
    · exact isNamePart_of_isNameStart h.1
    · exact h.2 d hd

theorem read?_identifier {place : Place} {word : String} {rest : List Char}
    (hword : isIdentifier word = true) (hplace : place.admitsNames = true)
    (hrest : Stops isNamePart rest) :
    read? place (word.toList ++ rest) = some (wordToken place word, rest) := by
  obtain ⟨c, cs, hlist, hstart, hparts⟩ := exists_of_isIdentifier hword
  have htake := takeWhile_append_stops hparts hrest
  have hdrop := dropWhile_append_stops hparts hrest
  rw [hlist, List.cons_append] at htake hdrop ⊢
  simp only [read?, isDigit_eq_false_of_isNameStart hstart, hstart, hplace, htake, hdrop,
    Bool.false_eq_true, if_false, Bool.and_self, if_true]
  rw [← hlist, String.ofList_toList]

theorem starts_of_isIdentifier {word : String} (h : isIdentifier word = true) :
    ∃ c cs, word.toList = c :: cs ∧ c ≠ '#' ∧ isBlank c = false := by
  obtain ⟨c, cs, hlist, hstart, -⟩ := exists_of_isIdentifier h
  exact ⟨c, cs, hlist, not_layout_of_isNamePart (isNamePart_of_isNameStart hstart)⟩

/-- A name is read as itself where it spells no keyword that may stand there. -/
theorem readAt_name {place : Place} {name : String} (hname : isIdentifier name = true)
    (hplace : place.admitsNames = true)
    (hkeyword : ∀ k, Keyword.ofText? name = some k → place.admits (.keyword k) = false) :
    (Token.name name).ReadAt place where
  starts := starts_of_isIdentifier hname
  read rest hrest := by
    rw [Token.text, read?_identifier hname hplace (hrest.stops rfl), wordToken]
    cases hk : Keyword.ofText? name with
    | none => rfl
    | some k =>
        dsimp only
        rw [hkeyword k hk]
        rfl
  faultless _ := rfl

theorem isIdentifier_keyword (k : Keyword) : isIdentifier k.text = true := by
  cases k <;> rfl

theorem readAt_keyword {place : Place} {k : Keyword} (hplace : place.admitsNames = true)
    (hk : place.admits (.keyword k) = true) : (Token.keyword k).ReadAt place where
  starts := starts_of_isIdentifier (isIdentifier_keyword k)
  read rest hrest := by
    have hspells : Keyword.ofText? k.text = some k := by
      cases k <;> rfl
    rw [Token.text, read?_identifier (isIdentifier_keyword k) hplace (hrest.stops rfl), wordToken,
      hspells]
    dsimp only
    rw [hk]
    rfl
  faultless _ := rfl

/-! ### Numbers and symbols -/

theorem ofDigitChars_toString (n : Nat) : Nat.ofDigitChars 10 (toString n).toList 0 = n := by
  rw [Nat.toString_eq_ofList_toDigits, String.toList_ofList, Nat.ofDigitChars_ten_toDigits]

/-- The text is of one or more digits. -/
def isNumeral (s : String) : Bool :=
  match s.toList with
  | [] => false
  | c :: cs => c.isDigit && cs.all Char.isDigit

theorem exists_of_isNumeral {digits : String} (h : isNumeral digits = true) :
    ∃ c cs, digits.toList = c :: cs ∧ ∀ d ∈ digits.toList, d.isDigit = true := by
  unfold isNumeral at h
  split at h
  · cases h
  · rename_i c cs hlist
    refine ⟨c, cs, hlist, ?_⟩
    rw [hlist]
    exact List.all_eq_true.1 h

theorem isNumeral_toString (n : Nat) : isNumeral (toString n) = true := by
  have hdigits : ∀ c ∈ (toString n).toList, c.isDigit = true := by
    intro c hc
    rw [Nat.toString_eq_ofList_toDigits, String.toList_ofList] at hc
    exact isDigit_toDigits n c hc
  obtain ⟨c, cs, hlist⟩ : ∃ c cs, (toString n).toList = c :: cs := by
    refine List.exists_cons_of_ne_nil ?_
    rw [Nat.toString_eq_ofList_toDigits, String.toList_ofList]
    exact Nat.toDigits_ne_nil
  rw [isNumeral, hlist]
  exact List.all_eq_true.2 (hlist ▸ hdigits)

theorem read?_numeral {place : Place} {digits : String} {rest : List Char}
    (hdigits : isNumeral digits = true) (hrest : Stops Char.isDigit rest) :
    read? place (digits.toList ++ rest) =
      if place.admits (.number digits) then some (.number digits, rest) else none := by
  obtain ⟨c, cs, hlist, hall⟩ := exists_of_isNumeral hdigits
  have hc : c.isDigit = true := hall c (by rw [hlist]; exact List.mem_cons_self ..)
  have htake := takeWhile_append_stops hall hrest
  have hdrop := dropWhile_append_stops hall hrest
  have htext : String.ofList (c :: cs) = digits := by rw [← hlist, String.ofList_toList]
  rw [hlist, List.cons_append] at htake hdrop ⊢
  simp only [read?, hc, htake, hdrop, htext, if_true]

theorem starts_of_isNumeral {digits : String} (h : isNumeral digits = true) :
    ∃ c cs, digits.toList = c :: cs ∧ c ≠ '#' ∧ isBlank c = false := by
  obtain ⟨c, cs, hlist, hall⟩ := exists_of_isNumeral h
  have hc : c.isDigit = true := hall c (by rw [hlist]; exact List.mem_cons_self ..)
  refine ⟨c, cs, hlist, not_layout_of_isNamePart ?_⟩
  simp [isNamePart, Char.isAlphanum, hc]

theorem readAt_number {place : Place} {n : Nat} (hn : n < wordCount)
    (hplace : ∀ digits, place.admits (.number digits) = true) :
    (Token.number (toString n)).ReadAt place where
  starts := starts_of_isNumeral (isNumeral_toString n)
  read rest hrest :=
    (read?_numeral (isNumeral_toString n) (hrest.stops rfl)).trans (if_pos (hplace _))
  faultless position := by
    have hlength : ¬ maxLiteralLength < (toString n).length := by
      have hfits : n < 10 ^ 20 := Nat.lt_trans hn (by decide)
      have hle := (Nat.length_repr_le_iff (by decide)).2 hfits
      rw [Nat.not_lt]
      exact Nat.le_trans hle (by decide)
    have hvalue : ¬ wordCount ≤ Nat.ofDigitChars 10 (toString n).toList 0 := by
      rw [ofDigitChars_toString]
      exact Nat.not_le.2 hn
    simp only [Lexeme.fault?, if_neg hlength, if_neg hvalue]

theorem readAt_symbol {place : Place} {t : Token} (ht : t ∈ Token.symbols)
    (hplace : place.admits t = true) : t.ReadAt place := by
  simp only [Token.symbols, Mark.all, List.map_cons, List.map_nil, List.cons_append, List.nil_append,
    List.mem_cons, List.not_mem_nil, or_false] at ht
  refine ⟨?_, fun rest hrest => ?_, fun position => ?_⟩
  · rcases ht with rfl | rfl | rfl | rfl | rfl | rfl | rfl | rfl | rfl | rfl | rfl | rfl <;>
      exact ⟨_, _, rfl, by decide, rfl⟩
  · rcases hrest with rfl | ⟨more, rfl⟩ <;>
    rcases ht with rfl | rfl | rfl | rfl | rfl | rfl | rfl | rfl | rfl | rfl | rfl | rfl <;>
    cases place <;> first | rfl | cases hplace
  · rcases ht with rfl | rfl | rfl | rfl | rfl | rfl | rfl | rfl | rfl | rfl | rfl | rfl <;> rfl

theorem readAt_operator {place : Place} {op : Operator}
    (h : place.admits (.operator op) = true) : (Token.operator op).ReadAt place := by
  refine readAt_symbol ?_ h
  cases op <;> decide

theorem readAt_mark {place : Place} {m : Mark} (h : place.admits (.mark m) = true) :
    (Token.mark m).ReadAt place := by
  refine readAt_symbol ?_ h
  cases m <;> decide

/-! ### Whole texts -/

/-- The text of tokens, each with a space before it. -/
def trailing (ts : List Token) : List Char := ts.flatMap fun t => ' ' :: t.text.toList

theorem divided_trailing (ts : List Token) : Divided (trailing ts) := by
  cases ts with
  | nil => exact .inl rfl
  | cons t ts => exact .inr ⟨_, rfl⟩

theorem toList_intercalate_text (ts : List Token) :
    (" ".intercalate (ts.map Token.text)).toList = (trailing ts).tail := by
  induction ts with
  | nil => rfl
  | cons t ts ih =>
      cases ts with
      | nil => simp [trailing]
      | cons u ts =>
          rw [List.map_cons] at ih
          rw [List.map_cons, List.map_cons, String.intercalate_cons_cons, String.toList_append,
            String.toList_append, ih]
          simp [trailing]

/-- A reading takes tokens in one by one, and each is read as itself where it stands. -/
inductive Takes : Reading → List Token → Reading → Prop
  | nil (r : Reading) : Takes r [] r
  | cons {r next r' : Reading} {t : Token} {ts : List Token} (hread : t.ReadAt r.place)
      (hstep : r.step t = some next) (rest : Takes next ts r') : Takes r (t :: ts) r'

namespace Takes

variable {r r' r'' : Reading} {t : Token} {ts us : List Token}

theorem single (hread : t.ReadAt r.place) (hstep : r.step t = some r') : Takes r [t] r' :=
  .cons hread hstep (.nil r')

theorem append (h : Takes r ts r') (h' : Takes r' us r'') : Takes r (ts ++ us) r'' := by
  induction h with
  | nil r => exact h'
  | cons hread hstep _ ih => exact .cons hread hstep (ih h')

end Takes

theorem skipLayout_tail_trailing {r r' : Reading} {ts : List Token} (h : Takes r ts r')
    (position : Position) :
    skipLayout position (trailing ts).tail = ⟨position, (trailing ts).tail⟩ := by
  cases h with
  | nil => rfl
  | @cons _ _ _ t ts hread _ _ =>
      obtain ⟨c, cs, hlist, hhash, hblank⟩ := hread.starts
      rw [trailing, List.flatMap_cons, hlist, List.cons_append, List.tail_cons, List.cons_append,
        skipLayout, if_neg hhash, if_neg (Bool.eq_false_iff.1 hblank)]

theorem skipLayout_trailing {r r' : Reading} {ts : List Token} (h : Takes r ts r')
    (position : Position) :
    ∃ position', skipLayout position (trailing ts) = ⟨position', (trailing ts).tail⟩ := by
  cases ts with
  | nil => exact ⟨position, rfl⟩
  | cons t ts => exact ⟨position.next ' ', skipLayout_tail_trailing h (position.next ' ')⟩

theorem readAll_nil {reading : Reading} {last position : Position} {cursor : Cursor} {p : Program}
    (hskip : skipLayout cursor.position cursor.rest = ⟨position, []⟩)
    (hfinish : reading.finish? = some p) : readAll reading last cursor = .ok ([], p) := by
  rw [readAll]
  split
  · rw [hfinish]
  · rename_i hskip'
    rw [hskip] at hskip'
    cases hskip'

theorem readAll_cons {reading next : Reading} {last position : Position} {cursor : Cursor}
    {cs rest : List Char} {token : Token}
    (hskip : skipLayout cursor.position cursor.rest = ⟨position, cs⟩)
    (hread : read? reading.place cs = some (token, rest))
    (hstep : reading.step token = some next) :
    readAll reading last cursor =
      (readAll next position ⟨position.advance token.text.toList, rest⟩).map fun all =>
        (⟨token, position⟩ :: all.1, all.2) := by
  rw [readAll]
  split
  · rename_i hskip'
    rw [hskip] at hskip'
    cases hskip'
    cases hread
  · rename_i hskip'
    rw [hskip] at hskip'
    cases hskip'
    split
    · rename_i hread'
      rw [hread] at hread'
      cases hread'
    · rename_i hread'
      rw [hread] at hread'
      cases hread'
      rw [hstep]
      dsimp only
      split
      · rename_i hall
        rw [hall]
        rfl
      · rename_i hall
        rw [hall]
        rfl

/-- A reading that takes tokens in reads their text, and no literal is at fault. -/
theorem readAll_of_takes {r r' : Reading} {ts : List Token} {p : Program} (h : Takes r ts r')
    (hfinish : r'.finish? = some p) {last position : Position} {cursor : Cursor}
    (hskip : skipLayout cursor.position cursor.rest = ⟨position, (trailing ts).tail⟩) :
    ∃ lexemes, readAll r last cursor = .ok (lexemes, p) ∧ lexemes.findSome? Lexeme.fault? = none := by
  induction h generalizing last position cursor with
  | nil r => exact ⟨[], readAll_nil hskip hfinish, rfl⟩
  | @cons r next r' t ts hread hstep rest ih =>
      obtain ⟨c, cs, hlist, -⟩ := hread.starts
      have htext : (trailing (t :: ts)).tail = c :: (cs ++ trailing ts) := by
        simp [trailing, hlist]
      have htoken : read? r.place (c :: (cs ++ trailing ts)) = some (t, trailing ts) := by
        rw [← List.cons_append, ← hlist]
        exact hread.read _ (divided_trailing ts)
      obtain ⟨position', hskip'⟩ :=
        skipLayout_trailing rest (position.advance t.text.toList)
      obtain ⟨lexemes, hall, hfaults⟩ : ∃ lexemes,
          readAll next position ⟨position.advance t.text.toList, trailing ts⟩ =
            .ok (lexemes, p) ∧ lexemes.findSome? Lexeme.fault? = none := ih hfinish hskip'
      rw [htext] at hskip
      refine ⟨⟨t, position⟩ :: lexemes, ?_, ?_⟩
      · rw [readAll_cons hskip htoken hstep, hall]
        rfl
      · rw [List.findSome?_cons, hread.faultless]
        exact hfaults

end FunCompiler.Source
