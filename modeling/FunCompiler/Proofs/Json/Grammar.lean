import FunCompiler.Json.Reader
import FunCompiler.Proofs.Runs

/-!
The grammar of JSON, and that the reader reads every text of it. The grammar
says which texts stand for a value (`IsText`): blanks may surround every token,
strings hold no bare control character, numbers have no needless zero in front,
and there is no number that is not finite. A text stands for at most one value,
the one that the reader gives (`parse?_of_isText`).
-/

namespace FunCompiler.Json

/-! ### Strings -/

/-- The letters that may follow a backslash, with the characters they stand for. -/
def escapes : List (Char × Char) :=
  [('"', '"'), ('\\', '\\'), ('/', '/'), ('b', '\x08'), ('f', '\x0c'), ('n', '\n'), ('r', '\r'),
    ('t', '\t')]

def IsHighHalf (u : Nat) : Prop := 0xd800 ≤ u ∧ u ≤ 0xdbff

def IsLowHalf (u : Nat) : Prop := 0xdc00 ≤ u ∧ u ≤ 0xdfff

/-- The text between quotes spells the characters. -/
inductive Spells : List Char → List Char → Prop
  | nil : Spells [] []
  | plain {c : Char} {text cs : List Char} (printable : 0x20 ≤ c.toNat) (quote : c ≠ '"')
      (backslash : c ≠ '\\') (behind : Spells text cs) : Spells (c :: text) (c :: cs)
  | escape {letter c : Char} {text cs : List Char} (escape : (letter, c) ∈ escapes)
      (behind : Spells text cs) : Spells ('\\' :: letter :: text) (c :: cs)
  | unicode {h₁ h₂ h₃ h₄ c : Char} {text cs : List Char}
      (number : hexNumber? [h₁, h₂, h₃, h₄] = some c.toNat) (behind : Spells text cs) :
      Spells ('\\' :: 'u' :: h₁ :: h₂ :: h₃ :: h₄ :: text) (c :: cs)
  | pair {h₁ h₂ h₃ h₄ l₁ l₂ l₃ l₄ c : Char} {u v : Nat} {text cs : List Char}
      (high : hexNumber? [h₁, h₂, h₃, h₄] = some u) (isHigh : IsHighHalf u)
      (low : hexNumber? [l₁, l₂, l₃, l₄] = some v) (isLow : IsLowHalf v)
      (joined : c.toNat = 0x10000 + (u - 0xd800) * 0x400 + (v - 0xdc00))
      (behind : Spells text cs) :
      Spells ('\\' :: 'u' :: h₁ :: h₂ :: h₃ :: h₄ :: '\\' :: 'u' :: l₁ :: l₂ :: l₃ :: l₄ :: text)
        (c :: cs)

/-- The text is the string in quotes. -/
def IsString (text : List Char) (s : String) : Prop :=
  ∃ body, text = '"' :: body ++ ['"'] ∧ Spells body s.toList

theorem unescape?_of_mem_escapes {letter c : Char} (h : (letter, c) ∈ escapes) :
    unescape? letter = some c.toNat ∧ letter ≠ 'u' := by
  have hall : ∀ e ∈ escapes, unescape? e.1 = some e.2.toNat ∧ e.1 ≠ 'u' := by decide
  exact hall _ h

theorem readUnits_escape {letter : Char} (hletter : letter ≠ 'u') (rest : List Char) :
    readUnits ('\\' :: letter :: rest) = consUnit (unescape? letter) (readUnits rest) := by
  rw [readUnits]
  rintro h₁ h₂ h₃ h₄ behind rfl
  exact absurd rfl hletter

theorem readUnits_plain {c : Char} (hprintable : 0x20 ≤ c.toNat) (hquote : c ≠ '"')
    (hbackslash : c ≠ '\\') (rest : List Char) :
    readUnits (c :: rest) = consUnit (some c.toNat) (readUnits rest) := by
  rw [readUnits, if_neg (Nat.not_lt.2 hprintable)]
  all_goals simp [hquote, hbackslash]

theorem joinUnits_cons_toNat (c : Char) (units : List Nat) :
    joinUnits (c.toNat :: units) = (joinUnits units).map (c :: ·) := by
  have hwhole : c.toNat < 0xd800 ∨ 0xdfff < c.toNat := c.valid.imp_right And.left
  cases units with
  | nil =>
      simp only [joinUnits]
      rw [if_neg (by omega), Char.ofNat_toNat]
      rfl
  | cons v units =>
      rw [joinUnits, if_neg (by omega), if_neg (by omega), Char.ofNat_toNat]
      rfl

theorem Spells.readUnits_eq {text cs : List Char} (h : Spells text cs) (rest : List Char) :
    ∃ units, readUnits (text ++ '"' :: rest) = some (units, rest) ∧ joinUnits units = some cs := by
  induction h with
  | nil => exact ⟨[], rfl, rfl⟩
  | @plain c text cs printable quote backslash _ ih =>
      obtain ⟨units, hread, hjoin⟩ := ih
      refine ⟨c.toNat :: units, ?_, ?_⟩
      · rw [List.cons_append, readUnits_plain printable quote backslash, hread]
        rfl
      · rw [joinUnits_cons_toNat, hjoin]
        rfl
  | @escape letter c text cs escape _ ih =>
      obtain ⟨units, hread, hjoin⟩ := ih
      obtain ⟨hunescape, hletter⟩ := unescape?_of_mem_escapes escape
      refine ⟨c.toNat :: units, ?_, ?_⟩
      · rw [List.cons_append, List.cons_append, readUnits_escape hletter, hread, hunescape]
        rfl
      · rw [joinUnits_cons_toNat, hjoin]
        rfl
  | @unicode h₁ h₂ h₃ h₄ c text cs number _ ih =>
      obtain ⟨units, hread, hjoin⟩ := ih
      refine ⟨c.toNat :: units, ?_, ?_⟩
      · simp only [List.cons_append, readUnits, number, hread, consUnit]
      · rw [joinUnits_cons_toNat, hjoin]
        rfl
  | @pair h₁ h₂ h₃ h₄ l₁ l₂ l₃ l₄ c u v text cs high isHigh low isLow joined _ ih =>
      obtain ⟨units, hread, hjoin⟩ := ih
      refine ⟨u :: v :: units, ?_, ?_⟩
      · simp only [List.cons_append, readUnits, high, low, hread, consUnit]
      · unfold IsHighHalf at isHigh
        unfold IsLowHalf at isLow
        rw [joinUnits, if_pos isHigh, if_pos isLow, hjoin, ← joined, Char.ofNat_toNat]
        rfl

/-! ### Numbers -/

/-- One digit or more. -/
def IsDigits (ds : List Char) : Prop := ds ≠ [] ∧ ∀ c ∈ ds, c.isDigit = true

/-- The digits before the point: a zero stands alone. -/
def IsWhole (ds : List Char) : Prop := IsDigits ds ∧ (ds.head? = some '0' → ds = ['0'])

/-- The text is a point with these digits behind it, or nothing. -/
inductive IsFraction : List Char → List Char → Prop
  | absent : IsFraction [] []
  | digits {ds : List Char} (digits : IsDigits ds) : IsFraction ('.' :: ds) ds

/-- The text is that exponent, or nothing. -/
inductive IsExponent : List Char → Option Int → Prop
  | absent : IsExponent [] none
  | unsigned {e : Char} {ds : List Char} (letter : e = 'e' ∨ e = 'E') (digits : IsDigits ds) :
      IsExponent (e :: ds) (some (Nat.ofDigitChars 10 ds 0))
  | plus {e : Char} {ds : List Char} (letter : e = 'e' ∨ e = 'E') (digits : IsDigits ds) :
      IsExponent (e :: '+' :: ds) (some (Nat.ofDigitChars 10 ds 0))
  | minus {e : Char} {ds : List Char} (letter : e = 'e' ∨ e = 'E') (digits : IsDigits ds) :
      IsExponent (e :: '-' :: ds) (some (-Nat.ofDigitChars 10 ds 0))

def minusSign (negative : Bool) : List Char := if negative then ['-'] else []

def signed (negative : Bool) (size : Nat) : Int := if negative then -size else size

/-- An integer if there is neither fraction nor exponent, and else a decimal. -/
def numberOf (value : Int) (fraction : List Char) (exponent : Option Int) : Json :=
  match fraction, exponent with
  | [], none => .integer value
  | _, _ => .decimal ⟨value, exponent.getD 0 - fraction.length⟩

/-- The text is a number. -/
inductive IsNumber : List Char → Json → Prop
  | mk (negative : Bool) {whole fractionText fraction exponentText : List Char}
      {exponent : Option Int} (isWhole : IsWhole whole)
      (isFraction : IsFraction fractionText fraction)
      (isExponent : IsExponent exponentText exponent) :
      IsNumber (minusSign negative ++ whole ++ fractionText ++ exponentText)
        (numberOf (signed negative (Nat.ofDigitChars 10 (whole ++ fraction) 0)) fraction exponent)

/-- The character behind a number would be taken for a part of it. -/
def continuesNumber (c : Char) : Bool := c.isDigit || c == '.' || c == 'e' || c == 'E'

theorem IsDigits.isDigit_head {ds rest cs : List Char} {c : Char} (hds : IsDigits ds)
    (h : ds ++ rest = c :: cs) : c.isDigit = true := by
  cases ds with
  | nil => exact absurd rfl hds.1
  | cons d ds =>
      obtain ⟨rfl, -⟩ := List.cons.inj h
      exact hds.2 d (by simp)

theorem readDigits_append {ds rest : List Char} (hds : IsDigits ds)
    (hrest : Stops Char.isDigit rest) : readDigits (ds ++ rest) = some (ds, rest) := by
  rw [readDigits, takeWhile_append_stops hds.2 hrest, dropWhile_append_stops hds.2 hrest]
  split
  · exact absurd rfl hds.1
  · rfl

theorem readWhole_append {ds rest : List Char} (hds : IsWhole ds)
    (hrest : Stops Char.isDigit rest) : readWhole (ds ++ rest) = some (ds, rest) := by
  rw [readWhole, readDigits_append hds.1 hrest]
  split
  · rename_i heq
    cases heq
    cases hds.2 rfl
  · rfl

theorem IsFraction.readFraction_eq {text ds rest : List Char} (h : IsFraction text ds)
    (hdigit : Stops Char.isDigit rest) (hpoint : Stops (· == '.') rest) :
    readFraction (text ++ rest) = some (ds, rest) := by
  cases h with
  | absent =>
      rw [List.nil_append, readFraction]
      rintro behind rfl
      cases hpoint '.' rfl
  | digits digits =>
      rw [List.cons_append, readFraction, readDigits_append digits hdigit]

theorem isDigit_of_continuesNumber (c : Char) (h : continuesNumber c = false) :
    c.isDigit = false := by
  simp only [continuesNumber, Bool.or_eq_false_iff] at h
  exact h.1.1.1

theorem IsExponent.readExponent_eq {text rest : List Char} {exponent : Option Int}
    (h : IsExponent text exponent) (hrest : Stops continuesNumber rest) :
    readExponent (text ++ rest) = some (exponent, rest) := by
  have hdigit : Stops Char.isDigit rest := hrest.mono isDigit_of_continuesNumber
  cases h with
  | absent =>
      cases rest with
      | nil => rfl
      | cons c rest =>
          have hc := hrest c rfl
          simp [continuesNumber] at hc
          simp [readExponent, hc]
  | @unsigned e ds letter digits =>
      rw [List.cons_append, readExponent, if_pos letter, readDigits_append digits hdigit,
        Option.map_some]
      · intro behind heq
        cases digits.isDigit_head heq
      · intro behind heq
        cases digits.isDigit_head heq
  | plus letter digits =>
      rw [List.cons_append, List.cons_append, readExponent, if_pos letter]
      simp only [readDigits_append digits hdigit, Option.map_some]
  | minus letter digits =>
      rw [List.cons_append, List.cons_append, readExponent, if_pos letter]
      simp only [readDigits_append digits hdigit, Option.map_some]

theorem IsExponent.stops {text rest : List Char} {exponent : Option Int}
    (h : IsExponent text exponent) (hrest : Stops continuesNumber rest) :
    Stops (fun c => c.isDigit || c == '.') (text ++ rest) := by
  have hletter : ∀ e : Char, e = 'e' ∨ e = 'E' → (e.isDigit || e == '.') = false := by
    rintro e (rfl | rfl) <;> rfl
  cases h with
  | absent => exact hrest.mono fun c hc => by simp_all [continuesNumber]
  | unsigned letter _ | plus letter _ | minus letter _ =>
      exact stops_cons (hletter _ letter) _

theorem IsFraction.stops {text ds rest : List Char} (h : IsFraction text ds)
    (hrest : Stops Char.isDigit rest) : Stops Char.isDigit (text ++ rest) := by
  cases h with
  | absent => exact hrest
  | digits _ => exact stops_cons rfl _

theorem readUnsigned_eq {negative : Bool} {whole fractionText fraction exponentText : List Char}
    {exponent : Option Int} {rest : List Char} (hwhole : IsWhole whole)
    (hfraction : IsFraction fractionText fraction) (hexponent : IsExponent exponentText exponent)
    (hrest : Stops continuesNumber rest) :
    readUnsigned negative (whole ++ (fractionText ++ (exponentText ++ rest))) =
      some (.scalar (numberOf (signed negative (Nat.ofDigitChars 10 (whole ++ fraction) 0))
        fraction exponent), rest) := by
  have hstops := hexponent.stops hrest
  have hdigit : Stops Char.isDigit (exponentText ++ rest) := hstops.mono fun c hc => by simp_all
  have hpoint : Stops (· == '.') (exponentText ++ rest) := hstops.mono fun c hc => by simp_all
  simp only [readUnsigned, readWhole_append hwhole (hfraction.stops hdigit),
    hfraction.readFraction_eq hdigit hpoint, hexponent.readExponent_eq hrest, Option.bind_eq_bind,
    Option.bind_some]
  cases fraction <;> cases exponent <;> rfl

theorem IsNumber.readNumber_eq {text rest : List Char} {j : Json} (h : IsNumber text j)
    (hrest : Stops continuesNumber rest) : readNumber (text ++ rest) = some (.scalar j, rest) := by
  obtain ⟨negative, isWhole, isFraction, isExponent⟩ := h
  simp only [List.append_assoc]
  cases negative with
  | true => exact readUnsigned_eq isWhole isFraction isExponent hrest
  | false =>
      rw [minusSign, if_neg Bool.false_ne_true, List.nil_append, readNumber,
        readUnsigned_eq isWhole isFraction isExponent hrest]
      intro behind heq
      cases isWhole.1.isDigit_head heq

/-! ### Tokens -/

/-- The text begins with the token, and `rest` is the text behind it. -/
def Begins (text : List Char) (token : Token) (rest : List Char) : Prop :=
  ∃ c cs, text = c :: cs ∧ isBlank c = false ∧ readToken c cs = some (token, rest)

theorem readToken_digit {c : Char} (hc : c.isDigit = true) (rest : List Char) :
    readToken c rest = readNumber (c :: rest) := by
  rw [readToken]
  all_goals
    intros
    subst_vars
    cases hc

theorem readToken_minus {c : Char} (hc : c.isDigit = true) (rest : List Char) :
    readToken '-' (c :: rest) = readNumber ('-' :: c :: rest) := by
  have hinfinity : c ≠ 'I' := by
    rintro rfl
    cases hc
  rw [readToken]
  all_goals simp [hinfinity]

theorem isBlank_of_isDigit {c : Char} (hc : c.isDigit = true) : isBlank c = false := by
  cases hblank : isBlank c with
  | false => rfl
  | true =>
      simp only [isBlank, Bool.or_eq_true, beq_iff_eq] at hblank
      obtain ((rfl | rfl) | rfl) | rfl := hblank <;> cases hc

theorem IsNumber.begins {text rest : List Char} {j : Json} (h : IsNumber text j)
    (hrest : Stops continuesNumber rest) : Begins (text ++ rest) (.scalar j) rest := by
  have hread := h.readNumber_eq hrest
  obtain ⟨negative, isWhole, isFraction, isExponent⟩ := h
  obtain ⟨d, ds, rfl⟩ := List.exists_cons_of_ne_nil isWhole.1.1
  have hd := isWhole.1.2 d (by simp)
  cases negative with
  | true => exact ⟨'-', _, rfl, rfl, (readToken_minus hd _).trans hread⟩
  | false => exact ⟨d, _, rfl, isBlank_of_isDigit hd, (readToken_digit hd _).trans hread⟩

theorem IsString.begins {text : List Char} {s : String} (h : IsString text s) (rest : List Char) :
    Begins (text ++ rest) (.scalar (.string s)) rest := by
  obtain ⟨body, rfl, hspells⟩ := h
  obtain ⟨units, hread, hjoin⟩ := hspells.readUnits_eq rest
  refine ⟨'"', body ++ '"' :: rest, by simp, rfl, ?_⟩
  simp [readToken, readString, hread, hjoin]

namespace Reading

/-- The value that the reading comes to when it takes in the rest of a text. -/
def run (r : Reading) (text : List Char) : Option Json := do
  let tokens ← tokens text
  let reading ← tokens.foldlM step r
  reading.finish?

theorem run_blank (r : Reading) {c : Char} (hc : isBlank c = true) (rest : List Char) :
    r.run (c :: rest) = r.run rest := by
  rw [run, run, tokens, if_pos hc]

theorem run_token {r r' : Reading} {text rest : List Char} {token : Token}
    (htext : Begins text token rest) (hstep : r.step token = some r') :
    r.run text = r'.run rest := by
  obtain ⟨c, cs, rfl, hblank, hread⟩ := htext
  have htokens : tokens (c :: cs) = (tokens rest).map (token :: ·) := by
    rw [tokens, if_neg (by simp [hblank])]
    split <;> simp_all
  rw [run, run, htokens]
  cases tokens rest with
  | none => rfl
  | some ts => simp [hstep]

/-- The reading is where the first token of a value may stand. -/
def Expects (r : Reading) (frames : List Frame) : Prop :=
  ∀ token next, begin? frames token = some next → r.step token = some next

/-- The reading is where a key may stand, behind the given members. -/
def ExpectsKey (r : Reading) (frames : List Frame) (before : List (String × Json)) : Prop :=
  ∀ key, r.step (.scalar (.string key)) = some (.afterKey frames before key)

theorem expects_value (frames : List Frame) : (value frames).Expects frames := fun _ _ h => h

theorem expects_firstItem (frames : List Frame) :
    (firstItem frames).Expects (.array [] :: frames) := by
  intro token next h
  cases token with
  | closeBracket => cases h
  | _ => exact h

theorem expectsKey_firstKey (frames : List Frame) : (firstKey frames).ExpectsKey frames [] :=
  fun _ => rfl

theorem expectsKey_nextKey (frames : List Frame) (before : List (String × Json)) :
    (nextKey frames before).ExpectsKey frames before := fun _ => rfl

end Reading

/-! ### Values -/

def IsBlanks (cs : List Char) : Prop := ∀ c ∈ cs, isBlank c = true

/-- What a stretch of text may stand for. -/
inductive Part where
  | value (j : Json)
  /-- A value with blanks around it. -/
  | element (j : Json)
  | elements (js : List Json)
  | member (key : String) (j : Json)
  | members (ms : List (String × Json))

/-- The text stands for the part. -/
inductive Denotes : List Char → Part → Prop
  | null : Denotes "null".toList (.value .null)
  | true : Denotes "true".toList (.value (.bool true))
  | false : Denotes "false".toList (.value (.bool false))
  | number {text : List Char} {j : Json} (number : IsNumber text j) : Denotes text (.value j)
  | string {text : List Char} {s : String} (string : IsString text s) :
      Denotes text (.value (.string s))
  | emptyArray {blanks : List Char} (isBlanks : IsBlanks blanks) :
      Denotes ('[' :: blanks ++ [']']) (.value (.array []))
  | array {text : List Char} {js : List Json} (elements : Denotes text (.elements js)) :
      Denotes ('[' :: text ++ [']']) (.value (.array js))
  | emptyObject {blanks : List Char} (isBlanks : IsBlanks blanks) :
      Denotes ('\x7b' :: blanks ++ ['\x7d']) (.value (.object []))
  | object {text : List Char} {ms : List (String × Json)} (members : Denotes text (.members ms)) :
      Denotes ('\x7b' :: text ++ ['\x7d']) (.value (.object ms))
  | element {before text behind : List Char} {j : Json} (isBefore : IsBlanks before)
      (value : Denotes text (.value j)) (isBehind : IsBlanks behind) :
      Denotes (before ++ text ++ behind) (.element j)
  | lastElement {text : List Char} {j : Json} (element : Denotes text (.element j)) :
      Denotes text (.elements [j])
  | elements {text more : List Char} {j : Json} {js : List Json}
      (element : Denotes text (.element j)) (elements : Denotes more (.elements js)) :
      Denotes (text ++ ',' :: more) (.elements (j :: js))
  | member {before keyText behind text : List Char} {key : String} {j : Json}
      (isBefore : IsBlanks before) (isKey : IsString keyText key) (isBehind : IsBlanks behind)
      (element : Denotes text (.element j)) :
      Denotes (before ++ keyText ++ behind ++ ':' :: text) (.member key j)
  | lastMember {text : List Char} {key : String} {j : Json}
      (member : Denotes text (.member key j)) : Denotes text (.members [(key, j)])
  | members {text more : List Char} {key : String} {j : Json} {ms : List (String × Json)}
      (member : Denotes text (.member key j)) (members : Denotes more (.members ms)) :
      Denotes (text ++ ',' :: more) (.members ((key, j) :: ms))

/-- The text is JSON and stands for the value. -/
def IsText (text : String) (j : Json) : Prop := Denotes text.toList (.element j)

theorem IsBlanks.stops {blanks rest : List Char} (h : IsBlanks blanks)
    (hrest : Stops continuesNumber rest) : Stops continuesNumber (blanks ++ rest) := by
  cases blanks with
  | nil => exact hrest
  | cons b blanks =>
      refine stops_cons ?_ _
      have hb := h b (by simp)
      simp only [isBlank, Bool.or_eq_true, beq_iff_eq] at hb
      obtain ((rfl | rfl) | rfl) | rfl := hb <;> rfl

theorem IsBlanks.run_eq {blanks : List Char} (h : IsBlanks blanks) (r : Reading)
    (rest : List Char) : r.run (blanks ++ rest) = r.run rest := by
  induction blanks with
  | nil => rfl
  | cons c blanks ih =>
      rw [List.cons_append, r.run_blank (h c (by simp)),
        ih fun d hd => h d (by simp [hd])]

/-- What taking in a text that stands for the part does to a reading. -/
def Part.ReadFrom (text : List Char) : Part → Prop
  | .value j | .element j => ∀ (r : Reading) frames rest, r.Expects frames →
      Stops continuesNumber rest → r.run (text ++ rest) = (Reading.afterValue frames j).run rest
  | .elements js => ∀ (r : Reading) frames before rest, r.Expects (.array before :: frames) →
      r.run (text ++ ']' :: rest) = (Reading.afterValue frames (.array (before ++ js))).run rest
  | .member key j => ∀ (r : Reading) frames before rest, r.ExpectsKey frames before →
      Stops continuesNumber rest →
      r.run (text ++ rest) = (Reading.afterValue (.object before key :: frames) j).run rest
  | .members ms => ∀ (r : Reading) frames before rest, r.ExpectsKey frames before →
      r.run (text ++ '\x7d' :: rest) = (Reading.afterValue frames (.object (before ++ ms))).run rest

theorem readFrom_scalar {text : List Char} {j : Json}
    (h : ∀ rest, Stops continuesNumber rest → Begins (text ++ rest) (.scalar j) rest) :
    (Part.value j).ReadFrom text := by
  intro r frames rest hr hrest
  exact Reading.run_token (h rest hrest) (hr _ _ rfl)

theorem Denotes.readFrom {text : List Char} {part : Part} (h : Denotes text part) :
    part.ReadFrom text := by
  -- what follows is arbitrary, up to a character that would prolong a number
  induction h with
  | null => exact readFrom_scalar fun rest _ => ⟨'n', _, rfl, rfl, rfl⟩
  | true => exact readFrom_scalar fun rest _ => ⟨'t', _, rfl, rfl, rfl⟩
  | false => exact readFrom_scalar fun rest _ => ⟨'f', _, rfl, rfl, rfl⟩
  | number number => exact readFrom_scalar fun rest hrest => number.begins hrest
  | string string => exact readFrom_scalar fun rest _ => string.begins rest
  | emptyArray isBlanks =>
      intro r frames rest hr _
      have hopen := hr .openBracket _ rfl
      rw [List.append_assoc, List.cons_append, Reading.run_token ⟨'[', _, rfl, rfl, rfl⟩ hopen,
        isBlanks.run_eq]
      exact Reading.run_token ⟨']', _, rfl, rfl, rfl⟩ rfl
  | array _ ih =>
      intro r frames rest hr _
      have hopen := hr .openBracket _ rfl
      rw [List.append_assoc, List.cons_append, Reading.run_token ⟨'[', _, rfl, rfl, rfl⟩ hopen]
      exact ih _ frames [] rest (Reading.expects_firstItem frames)
  | emptyObject isBlanks =>
      intro r frames rest hr _
      have hopen := hr .openBrace _ rfl
      rw [List.append_assoc, List.cons_append, Reading.run_token ⟨'\x7b', _, rfl, rfl, rfl⟩ hopen,
        isBlanks.run_eq]
      exact Reading.run_token ⟨'\x7d', _, rfl, rfl, rfl⟩ rfl
  | object _ ih =>
      intro r frames rest hr _
      have hopen := hr .openBrace _ rfl
      rw [List.append_assoc, List.cons_append, Reading.run_token ⟨'\x7b', _, rfl, rfl, rfl⟩ hopen]
      exact ih _ frames [] rest (Reading.expectsKey_firstKey frames)
  | element isBefore _ isBehind ih =>
      intro r frames rest hr hrest
      rw [List.append_assoc, List.append_assoc, isBefore.run_eq,
        ih r frames _ hr (isBehind.stops hrest), isBehind.run_eq]
  | lastElement _ ih =>
      intro r frames before rest hr
      rw [ih r _ _ hr (stops_cons rfl _)]
      exact Reading.run_token ⟨']', _, rfl, rfl, rfl⟩ rfl
  | elements _ _ ihElement ihElements =>
      intro r frames before rest hr
      rw [List.append_assoc, List.cons_append, ihElement r _ _ hr (stops_cons rfl _),
        Reading.run_token ⟨',', _, rfl, rfl, rfl⟩ rfl,
        ihElements _ frames _ rest (Reading.expects_value _), List.append_assoc]
      rfl
  | member isBefore isKey isBehind _ ih =>
      intro r frames before rest hr hrest
      rw [List.append_assoc, List.append_assoc, List.append_assoc, isBefore.run_eq,
        Reading.run_token (isKey.begins _) (hr _), isBehind.run_eq, List.cons_append,
        Reading.run_token ⟨':', _, rfl, rfl, rfl⟩ rfl, ih _ _ rest (Reading.expects_value _) hrest]
  | lastMember _ ih =>
      intro r frames before rest hr
      rw [ih r _ _ _ hr (stops_cons rfl _)]
      exact Reading.run_token ⟨'\x7d', _, rfl, rfl, rfl⟩ rfl
  | members _ _ ihMember ihMembers =>
      intro r frames before rest hr
      rw [List.append_assoc, List.cons_append, ihMember r _ _ _ hr (stops_cons rfl _),
        Reading.run_token ⟨',', _, rfl, rfl, rfl⟩ rfl,
        ihMembers _ frames _ rest (Reading.expectsKey_nextKey frames _), List.append_assoc]
      rfl

/-- The reader reads every JSON text as the value that it stands for. -/
theorem parse?_of_isText {text : String} {j : Json} (h : IsText text j) :
    parse? text = some j := by
  have hrun := h.readFrom (.value []) [] [] (Reading.expects_value []) nofun
  rw [List.append_nil] at hrun
  calc parse? text = (Reading.afterValue [] j).run [] := hrun
    _ = some j := by simp [Reading.run, tokens, Reading.finish?]

end FunCompiler.Json
