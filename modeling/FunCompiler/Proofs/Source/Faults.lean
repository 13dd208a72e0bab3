import FunCompiler.Proofs.Source.Completion
import FunCompiler.Proofs.Source.Scanning

/-!
Where a syntax error is reported. The text before the reported position can be
completed to one that parses, so nothing in it is at fault; the token or the
character that is named there cannot stand behind it, whatever follows. Literals
are judged apart from this: a text with a literal that is too long or too large
parses in no way.
-/

namespace FunCompiler.Source

/-- The text is that of a program. -/
def Accepted (s : String) : Prop := ∃ p, parse s = .ok p

/-- The lexemes of a text up to its end or its first fault. -/
def lexemes (s : String) : List Lexeme := lexemesFrom .start ⟨.start, s.toList⟩

/-! ### Positions -/

/-- Lines and columns are counted from one, and a line feed ends its line. -/
def Position.behind (text : List Char) : Position :=
  ⟨1 + text.count '\n', 1 + (text.reverse.takeWhile (· != '\n')).length⟩

theorem Position.advance_start (text : List Char) :
    Position.start.advance text = Position.behind text := by
  rw [← text.reverse_reverse]
  generalize text.reverse = back
  induction back with
  | nil => rfl
  | cons c back ih =>
      rw [List.reverse_cons, advance_append, ih]
      by_cases hc : c = '\n'
      · simp [behind, advance, next, hc, Nat.add_assoc]
      · simp [behind, advance, next, hc, Nat.add_assoc]

/-! ### What stands before a fault -/

/-- A stretch and the layout behind it stand before the rest of the text. They are read in
the same way if the text goes on with the same character or a new line. -/
theorem Scans.exists_before {r r' : Reading} {start position : Position} {text rest : List Char}
    {cursor : Cursor} {lexemes : List Lexeme} (h : Scans r ⟨start, text⟩ lexemes r' cursor)
    (hskip : skipLayout cursor.position cursor.rest = ⟨position, rest⟩) :
    ∃ before, text = before ++ rest ∧ position = start.advance before ∧
      (∀ c ∈ rest.head?, c ≠ '#' ∧ isBlank c = false) ∧
      ∀ rest', Continues rest rest' → ∃ cursor',
        Scans r ⟨start, before ++ rest'⟩ lexemes r' cursor' ∧
        skipLayout cursor'.position cursor'.rest = skipLayout position rest' := by
  obtain ⟨word, htext, hposition, hscans⟩ := h.exists_consumed
  obtain ⟨lay, hlay, hlayout, hadvance, hstarts⟩ := exists_skipLayout cursor.position cursor.rest
  rw [hskip] at hlay hlayout hadvance hstarts
  dsimp only at htext hposition hlay hlayout hadvance hstarts
  refine ⟨word ++ lay, ?_, ?_, hstarts, fun rest' hrest' => ?_⟩
  · rw [htext, hlay, List.append_assoc]
  · rw [hadvance, hposition, Position.advance_append]
  · have hcontinues : Continues cursor.rest (lay ++ rest') := hlay ▸ hrest'.append lay
    refine ⟨⟨cursor.position, lay ++ rest'⟩, ?_, ?_⟩
    · rw [List.append_assoc]
      exact hscans _ hcontinues
    · rw [skipLayout_append (hlayout.of_continues hrest'), ← hadvance]

theorem Scans.accepted {s : String} {r r' : Reading} {cursor : Cursor} {position : Position}
    {lexemes : List Lexeme} {ts : List Token} {p : Program}
    (h : Scans .start ⟨.start, s.toList⟩ lexemes r cursor)
    (hfaults : ∀ l ∈ lexemes, l.fault? = none) (htakes : Takes r ts r')
    (hfinish : r'.finish? = some p)
    (hskip : skipLayout cursor.position cursor.rest = ⟨position, (trailing ts).tail⟩) :
    Accepted s := by
  obtain ⟨last, hall⟩ := h.readAll_eq .start
  obtain ⟨more, hmore, hnone⟩ : ∃ more, readAll r last cursor = .ok (more, p) ∧
      more.findSome? Lexeme.fault? = none := readAll_of_takes htakes hfinish hskip
  rw [hmore] at hall
  refine ⟨p, ?_⟩
  simp only [parse, hall, Except.map]
  rw [List.findSome?_append, List.findSome?_eq_none_iff.2 hfaults, hnone]
  rfl

theorem Faults.readAll_eq {r : Reading} {cursor : Cursor} {what : Unexpected} {position : Position}
    (h : Faults r cursor what position) (last : Position) :
    ∃ e, readAll r last cursor = .error e := by
  rw [readAll]
  cases h with
  | ended ends finish =>
      split
      · rw [finish]
        exact ⟨_, rfl⟩
      · rename_i hskip
        rw [hskip] at ends
        cases ends
  | unread skip read =>
      split
      · rename_i hskip
        rw [skip] at hskip
        cases hskip
      · rename_i hskip
        rw [skip] at hskip
        cases hskip
        split
        · exact ⟨_, rfl⟩
        · rename_i hread
          rw [read] at hread
          cases hread
  | misplaced skip read step =>
      split
      · rename_i hskip
        rw [skip] at hskip
        cases hskip
        cases read
      · rename_i hskip
        rw [skip] at hskip
        cases hskip
        split
        · exact ⟨_, rfl⟩
        · rename_i hread
          rw [read] at hread
          cases hread
          rw [step]
          exact ⟨_, rfl⟩

theorem Scans.not_accepted {s : String} {r : Reading} {cursor : Cursor} {position : Position}
    {lexemes : List Lexeme} {what : Unexpected}
    (h : Scans .start ⟨.start, s.toList⟩ lexemes r cursor)
    (hfaults : Faults r cursor what position) : ¬ Accepted s := by
  rintro ⟨p, hp⟩
  obtain ⟨last, hall⟩ := h.readAll_eq .start
  obtain ⟨e, herror⟩ := hfaults.readAll_eq last
  rw [herror] at hall
  simp only [parse, hall, Except.map] at hp
  cases hp

theorem Lexeme.fault?_ne_unexpected (l : Lexeme) (what : Unexpected) (position : Position) :
    l.fault? ≠ some (.unexpected what position) := by
  unfold fault?
  split
  · split
    · nofun
    · split <;> nofun
  · nofun

theorem faults_of_parse_error {s : String} {what : Unexpected} {position : Position}
    (h : parse s = .error (.unexpected what position)) :
    ∃ r cursor, Scans .start ⟨.start, s.toList⟩ (lexemes s) r cursor ∧
      Faults r cursor what position := by
  obtain ⟨r, cursor, hscans, ⟨p, hok, -⟩ | ⟨what', position', herror, hfaults⟩⟩ :=
    scans_readAll .start .start ⟨.start, s.toList⟩
  · simp only [parse, hok] at h
    split at h
    · rename_i hfault
      cases h
      obtain ⟨l, -, hl⟩ := List.exists_of_findSome?_eq_some hfault
      exact absurd hl (l.fault?_ne_unexpected what position)
    · cases h
  · simp only [parse, herror] at h
    cases h
    exact ⟨r, cursor, hscans, hfaults⟩

/-! ### What cannot stand at a fault -/

/-- A token that is no number and no word where it stands is not read there with a blank
behind it, if it was not read with other text behind it. -/
theorem read?_spelled_none {place : Place} {c b : Char} {cs rest more : List Char}
    (hdigit : c.isDigit = false) (hname : (isNameStart c && place.admitsNames) = false)
    (hnone : read? place (c :: cs ++ rest) = none) (hb : isBlank b = true) :
    read? place (c :: cs ++ b :: more) = none := by
  rw [List.cons_append, read?_eq_readSpelled? hdigit hname, readSpelled?_eq_none_iff] at *
  intro u hu hbegins
  have hshort : u.text.toList <+: c :: cs :=
    prefix_of_blank (Place.not_isBlank_of_mem_spelled hu) hb hbegins
  exact hnone u hu (hshort.trans (List.prefix_append (c :: cs) rest))

/-- The token that is blamed for not being read where it stands is not read there with a
blank behind it. -/
theorem read?_none_of_blank {place : Place} {t : Token} {rest more : List Char} {b : Char}
    (hscanned : t.ScannedAt .anywhere rest) (hnone : read? place (t.text.toList ++ rest) = none)
    (hb : isBlank b = true) : read? place (t.text.toList ++ b :: more) = none := by
  cases hscanned with
  | @number digits _ numeral _ ends =>
      have hstops : Stops Char.isDigit (b :: more) := stops_cons (isDigit_of_isBlank hb) more
      rw [Token.text, read?_numeral numeral ends] at hnone
      rw [Token.text, read?_numeral numeral hstops]
      by_cases hplace : place.admits (.number digits) = true
      · rw [if_pos hplace] at hnone
        cases hnone
      · exact if_neg hplace
  | @word word _ identifier _ ends =>
      rw [text_wordToken] at hnone ⊢
      obtain ⟨c, cs, hlist, hstart, -⟩ := exists_of_isIdentifier identifier
      have hplace : place.admitsNames = false := by
        rw [Bool.eq_false_iff]
        intro hadmits
        rw [read?_identifier identifier hadmits ends] at hnone
        cases hnone
      rw [hlist] at hnone ⊢
      exact read?_spelled_none (isDigit_eq_false_of_isNameStart hstart) (by simp [hplace]) hnone hb
  | @spelled _ before after _ list first =>
      have hmem : t ∈ Place.anywhere.spelled := by simp [list]
      obtain ⟨c, cs, hlist⟩ := List.exists_cons_of_length_pos (text_ne_empty_of_mem_spelled hmem)
      obtain ⟨hdigit, hname⟩ := Place.starts_of_mem_spelled hmem c (by rw [hlist]; rfl)
      have hstart : isNameStart c = false := by simpa [Place.admitsNames, Place.admits] using hname
      rw [hlist] at hnone ⊢
      exact read?_spelled_none hdigit (by simp [hstart]) hnone hb

theorem Token.exists_symbol_head {t : Token} (h : t ∈ symbols) :
    ∃ u ∈ symbols, u.text.toList = t.text.toList.take 1 := by
  revert t
  decide

/-- No token begins with a character that is blamed by itself. -/
theorem read?_none_of_character {c : Char} {cs : List Char}
    (hnone : read? .anywhere (c :: cs) = none) (place : Place) (more : List Char) :
    read? place (c :: more) = none := by
  have hdigit : c.isDigit = false := by
    rw [Bool.eq_false_iff]
    intro hc
    simp [read?, hc, Place.admits] at hnone
  have hstart : isNameStart c = false := by
    rw [Bool.eq_false_iff]
    intro hc
    simp [read?, hdigit, hc, Place.admitsNames, Place.admits] at hnone
  rw [read?_eq_readSpelled? hdigit (by simp [hstart]), readSpelled?_eq_none_iff] at *
  intro u hu hbegins
  rcases Place.fixed_of_mem_spelled hu with rfl | hsymbol
  · obtain rfl : 'f' = c := (List.cons_prefix_cons.1 hbegins).1
    cases hstart
  · obtain ⟨v, hv, htext⟩ := Token.exists_symbol_head hsymbol
    refine hnone v ((by decide : ∀ t ∈ Token.symbols, t ∈ Place.anywhere.spelled) v hv) ?_
    obtain ⟨d, ds, hlist⟩ := List.exists_cons_of_length_pos (text_ne_empty_of_mem_spelled hu)
    rw [hlist] at hbegins htext
    rw [htext, (List.cons_prefix_cons.1 hbegins).1]
    exact ⟨cs, rfl⟩

/-! ### The first fault -/

/-- The text before a fault ends at its position, and can be completed unless one of its
literals is at fault. -/
structure StandsBefore (before s : String) (position : Position) : Prop where
  position : position = .behind before.toList
  completes : (∀ l ∈ lexemes s, l.fault? = none) → ∃ more, Accepted (before ++ more)

/-- No token that is read at the beginning of the text can be taken in. -/
def Reading.Refuses (r : Reading) (cs : List Char) : Prop :=
  ∀ t rest, read? r.place cs = some (t, rest) → r.step t = none

theorem Reading.Refuses.faults {r : Reading} {cursor : Cursor} {position : Position} {c : Char}
    {cs : List Char} (h : r.Refuses (c :: cs))
    (hskip : skipLayout cursor.position cursor.rest = ⟨position, c :: cs⟩) :
    ∃ what, Faults r cursor what position := by
  cases hread : read? r.place (c :: cs) with
  | none => exact ⟨_, .unread hskip hread⟩
  | some read =>
      obtain ⟨t, rest⟩ := read
      exact ⟨_, .misplaced hskip hread (h t rest hread)⟩

/-- What stands before a fault can be completed. It is read in the same way if other text
follows that begins with the same character, so that text is not refused if the whole is
accepted. -/
theorem Scans.exists_standsBefore {s : String} {r : Reading} {cursor : Cursor} {position : Position}
    {rest : List Char} (h : Scans .start ⟨.start, s.toList⟩ (lexemes s) r cursor)
    (hskip : skipLayout cursor.position cursor.rest = ⟨position, rest⟩) :
    ∃ before : String, s = before ++ String.ofList rest ∧ StandsBefore before s position ∧
      ∀ c ∈ rest.head?, ∀ more, r.Refuses (c :: more) →
        ¬ Accepted (before ++ String.ofList (c :: more)) := by
  obtain ⟨before, htext, hposition, hstarts, hscans⟩ := h.exists_before hskip
  refine ⟨String.ofList before, ?_, ⟨?_, fun hfaults => ?_⟩, fun c hc more hrefuses => ?_⟩
  · rw [← String.ofList_append, ← htext, String.ofList_toList]
  · rw [String.toList_ofList, hposition, Position.advance_start]
  · -- the text before may end inside a comment, which the line feed closes
    obtain ⟨ts, r', p, htakes, hfinish⟩ := r.completable
    obtain ⟨cursor', hscans', hskip'⟩ := hscans ('\n' :: trailing ts) (.inr rfl)
    obtain ⟨position', htrailing⟩ := skipLayout_trailing htakes (position.next '\n')
    refine ⟨String.ofList ('\n' :: trailing ts), ?_⟩
    rw [← String.ofList_append]
    rw [← String.toList_ofList (l := before ++ '\n' :: trailing ts)] at hscans'
    exact hscans'.accepted hfaults htakes hfinish (hskip'.trans htrailing)
  · obtain ⟨cursor', hscans', hskip'⟩ := hscans (c :: more) (.inl hc.symm)
    obtain ⟨hhash, hblank⟩ := hstarts c hc
    rw [skipLayout_of_not_layout hhash hblank] at hskip'
    obtain ⟨what, hfaults⟩ := hrefuses.faults hskip'
    rw [← String.ofList_append]
    rw [← String.toList_ofList (l := before ++ c :: more)] at hscans'
    exact hscans'.not_accepted hfaults

/-- The first thing in a text that cannot stand where it does. The text before it can be
completed; with the token and a blank behind it, or with the character, it cannot. A text
that ends too soon can be completed itself. -/
def Unexpected.IsFirstFault (s : String) (position : Position) : Unexpected → Prop
  | .token text =>
    ∃ before after, s = before ++ text ++ after ∧ StandsBefore before s position ∧
      ∀ blank more, isBlank blank = true →
        ¬ Accepted (before ++ text ++ String.ofList (blank :: more))
  | .character c =>
    ∃ before after, s = before ++ String.ofList (c :: after) ∧ StandsBefore before s position ∧
      ∀ more, ¬ Accepted (before ++ String.ofList (c :: more))
  | .endOfInput => (∀ l ∈ lexemes s, l.fault? = none) → ∃ more, Accepted (s ++ more)

theorem isFirstFault_token {s before : String} {r : Reading} {position : Position} {t : Token}
    {rest : List Char} (htext : s = before ++ String.ofList (t.text.toList ++ rest))
    (hbefore : StandsBefore before s position)
    (hrefused : ∀ c ∈ (t.text.toList ++ rest).head?, ∀ more, r.Refuses (c :: more) →
      ¬ Accepted (before ++ String.ofList (c :: more)))
    (hempty : t.text.toList ≠ [])
    (hblank : ∀ b more, isBlank b = true → r.Refuses (t.text.toList ++ b :: more)) :
    (Unexpected.token t.text).IsFirstFault s position := by
  refine ⟨before, String.ofList rest, ?_, hbefore, fun b more hb => ?_⟩
  · rw [htext, String.ofList_append, String.ofList_toList, String.append_assoc]
  · obtain ⟨c, cs, hlist⟩ := List.exists_cons_of_ne_nil hempty
    have hrefuses := hblank b more hb
    have hnot : ¬ Accepted (before ++ String.ofList (t.text.toList ++ b :: more)) := by
      rw [hlist] at hrefused hrefuses ⊢
      exact hrefused c rfl _ hrefuses
    rwa [String.ofList_append, String.ofList_toList, ← String.append_assoc] at hnot

theorem unexpected_at_first_fault {s : String} {what : Unexpected} {position : Position}
    (h : parse s = .error (.unexpected what position)) : what.IsFirstFault s position := by
  obtain ⟨r, cursor, hscans, hfaults⟩ := faults_of_parse_error h
  cases hfaults with
  | ended ends finish =>
      obtain ⟨before, htext, hbefore, -⟩ := hscans.exists_standsBefore rfl
      rw [ends, String.ofList_nil, String.append_empty] at htext
      exact htext ▸ hbefore.completes
  | @unread _ c cs skip read =>
      obtain ⟨before, htext, hbefore, hrefused⟩ := hscans.exists_standsBefore skip
      -- nothing is read here, so the text is read once more as if it could stand anywhere
      unfold blame
      cases hblame : read? .anywhere (c :: cs) with
      | some found =>
          obtain ⟨t, rest⟩ := found
          obtain ⟨hcs, hscanned⟩ := read?_eq_some_iff.1 hblame
          obtain ⟨d, ds, hlist⟩ := hscanned.exists_cons
          rw [hcs] at htext hrefused read
          refine isFirstFault_token htext hbefore hrefused (by simp [hlist]) fun b more hb => ?_
          intro u rest' hread
          rw [read?_none_of_blank hscanned read hb] at hread
          cases hread
      | none =>
          refine ⟨before, cs, htext, hbefore, fun more => hrefused c rfl more ?_⟩
          intro t rest hread
          rw [read?_none_of_character hblame] at hread
          cases hread
  | @misplaced _ _ rest t skip read step =>
      obtain ⟨before, htext, hbefore, hrefused⟩ := hscans.exists_standsBefore skip
      obtain ⟨rfl, hscanned⟩ := read?_eq_some_iff.1 read
      obtain ⟨d, ds, hlist⟩ := hscanned.exists_cons
      refine isFirstFault_token htext hbefore hrefused (by simp [hlist]) fun b more hb => ?_
      intro u rest' hread
      have hresumes : Resumes rest (b :: more) := .inr ⟨b, rfl, hb⟩
      rw [read?_eq_some_iff.2 ⟨rfl, hscanned.resume hresumes⟩] at hread
      cases hread
      exact step

/-- The error that a text is rejected with. Programs are not compared to find it. -/
def error? (s : String) : Option ParseError :=
  match parse s with
  | .ok _ => none
  | .error e => some e

theorem parse_of_error? {s : String} {e : ParseError} (h : error? s = some e) :
    parse s = .error e := by
  unfold error? at h
  split at h
  · cases h
  · rename_i hparse
    cases h
    exact hparse

/-- A brace inside an open parenthesis, a character of no token, and a text that ends inside
a comment: each is the first fault, and what was read can be completed. -/
theorem open_group_first_fault :
    (parse "fun f(x) \x7b\nx = (2 \x7d" = .error (.unexpected (.token "\x7d") ⟨2, 8⟩) ∧
      (Unexpected.token "\x7d").IsFirstFault "fun f(x) \x7b\nx = (2 \x7d" ⟨2, 8⟩) ∧
    (parse "fun f() print 3-4" = .error (.unexpected (.character '-') ⟨1, 16⟩) ∧
      (Unexpected.character '-').IsFirstFault "fun f() print 3-4" ⟨1, 16⟩) ∧
    (parse "fun f() print (1 #" = .error (.unexpected .endOfInput ⟨1, 16⟩) ∧
      (∀ l ∈ lexemes "fun f() print (1 #", l.fault? = none) ∧
      ∃ more, Accepted ("fun f() print (1 #" ++ more)) := by
  have htoken : parse "fun f(x) \x7b\nx = (2 \x7d" =
      .error (.unexpected (.token "\x7d") ⟨2, 8⟩) := parse_of_error? (by decide +kernel)
  have hcharacter : parse "fun f() print 3-4" = .error (.unexpected (.character '-') ⟨1, 16⟩) :=
    parse_of_error? (by decide +kernel)
  have hend : parse "fun f() print (1 #" = .error (.unexpected .endOfInput ⟨1, 16⟩) :=
    parse_of_error? (by decide +kernel)
  have hlexemes : ∀ l ∈ lexemes "fun f() print (1 #", l.fault? = none := by
    decide +kernel
  exact ⟨⟨htoken, unexpected_at_first_fault htoken⟩,
    ⟨hcharacter, unexpected_at_first_fault hcharacter⟩,
    ⟨hend, hlexemes, unexpected_at_first_fault hend hlexemes⟩⟩

end FunCompiler.Source
