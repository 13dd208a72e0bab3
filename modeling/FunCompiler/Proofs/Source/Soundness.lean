import FunCompiler.Proofs.Source.Grammar
import FunCompiler.Proofs.Source.Scanning

/-!
What parsing accepts. A text that is parsed is layout and tokens with nothing left
over (`Splits`), the tokens follow the grammar, and the program is the tree that
the grammar builds from them. The program keeps what the tokens promise: names
are identifiers and literals fit in a word. Of the two trees that the grammar may
build around an `else`, it is the one that gives it to the nearest conditional.
-/

namespace FunCompiler

open Source

/-- What a node read from a text satisfies: names are identifiers, a literal fits in a word,
and no `else` could belong to a conditional at the end of the branch before it. -/
def Node.isReadable : Node → Bool
  | .function f => isIdentifier f.name && f.formals.all isIdentifier
  | .stmt (.assign target _) => isIdentifier target
  | .stmt (.ifElse _ yes _) => !yes.endsOpen
  | .expr (.var name) => isIdentifier name
  | .expr (.call callee _) => isIdentifier callee
  | .expr (.lit value) => decide (0 ≤ value ∧ value < wordCount)
  | _ => true

theorem Expr.walkAll_append (es fs : List Expr) :
    Expr.walkAll (es ++ fs) = Expr.walkAll es ++ Expr.walkAll fs := by
  induction es with
  | nil => rfl
  | cons e es ih => rw [List.cons_append, Expr.walkAll, Expr.walkAll, ih, List.append_assoc]

theorem Stmt.walkAll_append (ss us : List Stmt) :
    Stmt.walkAll (ss ++ us) = Stmt.walkAll ss ++ Stmt.walkAll us := by
  induction ss with
  | nil => rfl
  | cons s ss ih => rw [List.cons_append, Stmt.walkAll, Stmt.walkAll, ih, List.append_assoc]

namespace Source

/-- The text is layout and the texts of the tokens, in order. -/
inductive Splits : List Char → List Token → Prop
  | done {lay : List Char} (layout : Layout lay []) : Splits lay []
  | token {lay rest : List Char} {t : Token} {ts : List Token}
      (layout : Layout lay (t.text.toList ++ rest)) (wellFormed : t.isWellFormed = true)
      (ends : t.EndsBefore rest) (behind : Splits rest ts) :
      Splits (lay ++ (t.text.toList ++ rest)) (t :: ts)

/-! ### What the tokens promise -/

/-- A name is an identifier, and a number fits in a word. -/
def Token.isSound : Token → Bool
  | .name text => isIdentifier text
  | .number digits => decide (Nat.ofDigitChars 10 digits.toList 0 < wordCount)
  | _ => true

/-- Every node of the tree is readable. -/
def Phrase.isReadable : Phrase → Bool
  | .expr _ e => e.walk.all Node.isReadable
  | .actuals es => (Expr.walkAll es).all Node.isReadable
  | .stmt s => s.walk.all Node.isReadable
  | .stmts ss => (Stmt.walkAll ss).all Node.isReadable
  | .formals names => names.all isIdentifier
  | .functions fs => (fs.flatMap Function.walk).all Node.isReadable

theorem DerivesNearest.isReadable {ts : List Token} {phrase : Phrase} (h : DerivesNearest ts phrase)
    (hts : ts.all Token.isSound = true) : phrase.isReadable = true := by
  induction h with
    simp only [List.all_cons, List.all_append, List.all_nil, Bool.and_eq_true, Phrase.isReadable,
      Expr.walk, Stmt.walk, Function.walk, Expr.walkAll_append, Stmt.walkAll_append,
      Expr.walkAll, Stmt.walkAll, List.flatMap_append, List.flatMap_cons, List.flatMap_nil] at *
  | literal digits => simpa [Node.isReadable, Token.isSound] using hts
  | var name => exact ⟨hts.1, trivial⟩
  | call callee _ ih => exact ⟨hts.1, ih hts.2.2.1⟩
  | group _ ih => exact ih hts.2.1
  | operation op _ _ first second => exact ⟨⟨rfl, first hts.1⟩, second hts.2.2⟩
  | tighter _ ih => exact ih hts
  | firstActual _ ih => exact ⟨ih hts, trivial⟩
  | nextActual _ _ _ before next => exact ⟨before hts.1, next hts.2.2, trivial⟩
  | assign target _ value => exact ⟨hts.1, value hts.2.2⟩
  | print _ value => exact ⟨rfl, value hts.2⟩
  | ret _ value => exact ⟨rfl, value hts.2⟩
  | ifThen _ _ test first => exact ⟨⟨rfl, test hts.2.1⟩, first hts.2.2⟩
  | ifElse _ _ ends _ test first second =>
      exact ⟨⟨⟨by simp [Node.isReadable, ends], test hts.2.1.1⟩, first hts.2.1.2⟩, second hts.2.2.2⟩
  | loop _ _ test inner => exact ⟨⟨rfl, test hts.2.1⟩, inner hts.2.2⟩
  | block _ body => exact ⟨rfl, body hts.2.1⟩
  | nextStmt _ _ before next => exact ⟨before hts.1, next hts.2, trivial⟩
  | firstFormal name => exact ⟨hts.1, trivial⟩
  | nextFormal name _ _ before => exact ⟨before hts.1, hts.2.2.1, trivial⟩
  | nextFunction name _ _ _ before params inner =>
      refine ⟨before hts.1, ⟨?_, inner hts.2.2.2.2.2.2⟩, trivial⟩
      exact Bool.and_eq_true_iff.2 ⟨hts.2.2.1, params hts.2.2.2.2.1⟩

/-! ### Accepted texts -/

theorem Splits.isWellFormed {text : List Char} {ts : List Token} (h : Splits text ts) :
    ∀ t ∈ ts, t.isWellFormed = true := by
  induction h with
  | done _ => nofun
  | token _ wellFormed _ _ ih => exact List.forall_mem_cons.2 ⟨wellFormed, ih⟩

/-- A literal with too many digits, or one that does not fit in a word. -/
def Token.IsExcessive : Token → Prop
  | .number digits =>
    maxLiteralLength < digits.length ∨ wordCount ≤ Nat.ofDigitChars 10 digits.toList 0
  | _ => False

/-- Whether a lexeme is at fault depends on its token only. -/
theorem Lexeme.fault?_eq_none_iff (l : Lexeme) : l.fault? = none ↔ ¬ l.token.IsExcessive := by
  obtain ⟨token, position⟩ := l
  cases token with
  | number digits =>
      simp only [Lexeme.fault?, Token.IsExcessive]
      split
      · simp_all
      · split <;> simp_all
  | _ => simp [Lexeme.fault?, Token.IsExcessive]

theorem Lexeme.isSound {l : Lexeme} (hwell : l.token.isWellFormed = true)
    (hfault : l.fault? = none) : l.token.isSound = true := by
  rw [Lexeme.fault?_eq_none_iff] at hfault
  obtain ⟨token, position⟩ := l
  cases token with
  | name text => exact hwell
  | number digits => exact decide_eq_true (Nat.not_le.1 (not_or.1 hfault).2)
  | _ => rfl

namespace Scans

variable {r r' : Reading} {cursor cursor' : Cursor} {lexemes : List Lexeme} {ts : List Token}

theorem consumed (h : Scans r cursor lexemes r' cursor') (hr : r.Consumed ts) :
    r'.Consumed (ts ++ lexemes.map Lexeme.token) := by
  induction h generalizing ts with
  | refl => simpa using hr
  | cons _ _ step _ ih => simpa using ih (hr.step step)

theorem splits (h : Scans r cursor lexemes r' cursor') (hrest : Splits cursor'.rest ts) :
    Splits cursor.rest (lexemes.map Lexeme.token ++ ts) := by
  induction h with
  | refl => exact hrest
  | @cons r next r' cursor cursor' position cs rest token lexemes skip read step _ ih =>
      obtain ⟨lay, hlay, hlayout, -, -⟩ := exists_skipLayout cursor.position cursor.rest
      obtain ⟨hcs, hscanned⟩ := read?_eq_some_iff.1 read
      rw [skip, hcs] at hlay hlayout
      rw [hlay]
      exact .token hlayout hscanned.isWellFormed hscanned.endsBefore (ih hrest)

end Scans

theorem Finishes.splits {r : Reading} {cursor : Cursor} {p : Program} (h : Finishes r cursor p) :
    Splits cursor.rest [] := by
  obtain ⟨lay, hlay, hlayout, -, -⟩ := exists_skipLayout cursor.position cursor.rest
  rw [h.ends] at hlay hlayout
  rw [hlay, List.append_nil]
  exact .done hlayout

theorem exists_of_parse_ok {s : String} {p : Program} (h : parse s = .ok p) :
    ∃ lexemes r cursor, Scans .start ⟨.start, s.toList⟩ lexemes r cursor ∧ Finishes r cursor p ∧
      ∀ l ∈ lexemes, l.fault? = none := by
  obtain ⟨r, cursor, hscans, ⟨q, hok, hfinishes⟩ | ⟨what, position, herror, -⟩⟩ :=
    scans_readAll .start .start ⟨.start, s.toList⟩
  · simp only [parse, hok] at h
    split at h
    · cases h
    · rename_i hfaults
      cases h
      exact ⟨_, r, cursor, hscans, hfinishes, List.findSome?_eq_none_iff.1 hfaults⟩
  · simp only [parse, herror] at h
    cases h

/-- An accepted text is layout and tokens, its program is built from a derivation of all
the tokens, and every node of the program is readable. -/
theorem parse_sound {s : String} {p : Program} (h : parse s = .ok p) :
    ∃ ts, Splits s.toList ts ∧ Derives (fun _ => True) ts (.functions p.functions) ∧
      ∀ node ∈ p.walk, node.isReadable = true := by
  obtain ⟨lexemes, r, cursor, hscans, hfinishes, hfaults⟩ := exists_of_parse_ok h
  have hsplits := hscans.splits hfinishes.splits
  rw [List.append_nil] at hsplits
  have hderives : DerivesNearest (lexemes.map Lexeme.token) (.functions p.functions) :=
    (hscans.consumed .start).finish? hfinishes.finish
  have hsound : (lexemes.map Lexeme.token).all Token.isSound = true := by
    rw [List.all_map, List.all_eq_true]
    intro l hl
    exact Lexeme.isSound (hsplits.isWellFormed _ (List.mem_map_of_mem hl)) (hfaults l hl)
  refine ⟨_, hsplits, hderives.grammar, fun node hnode => ?_⟩
  rcases List.mem_cons.1 hnode with rfl | hnode
  · rfl
  · exact List.all_eq_true.1 (DerivesNearest.isReadable hderives hsound) node hnode

/-- A keyword that runs into a name, names that spell keywords, a call with a comment inside
it, and an `else` that two conditionals could take. -/
def nearestElse : String :=
  "funmain(if, x) if if < 3 while x if x print 0018446744073709551615 else # the nearest\n" ++
  "return main # its actuals\n ((x), (1 + 2) * 3)"

theorem nearestElse_sound :
    ∃ p ts, parse nearestElse = .ok p ∧
      p.unparse = "fun main ( if , x ) if if < 3 while x if x print 18446744073709551615 else " ++
        "return main ( x , ( 1 + 2 ) * 3 )" ∧
      Splits nearestElse.toList ts ∧ Derives (fun _ => True) ts (.functions p.functions) ∧
      ∀ node ∈ p.walk, node.isReadable = true := by
  have hunparse : (parse nearestElse).toOption.map Program.unparse =
      some ("fun main ( if , x ) if if < 3 while x if x print 18446744073709551615 else " ++
        "return main ( x , ( 1 + 2 ) * 3 )") := by
    decide +kernel
  cases hparse : parse nearestElse with
  | error e =>
      rw [hparse] at hunparse
      cases hunparse
  | ok p =>
      rw [hparse] at hunparse
      obtain ⟨ts, hts⟩ := parse_sound hparse
      exact ⟨p, ts, rfl, Option.some.inj hunparse, hts⟩

end Source

end FunCompiler
