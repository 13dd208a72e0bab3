import FunCompiler.Json

/-!
Reading JSON. The text is cut into tokens, and the tokens are taken in one by
one by a stack of the arrays and objects that are still open.
-/

namespace FunCompiler.Json

inductive Token where
  | openBracket
  | closeBracket
  | openBrace
  | closeBrace
  | comma
  | colon
  /-- Null, a truth value, a number or a string. -/
  | scalar (value : Json)
  deriving Repr, BEq

/-! ### Strings -/

def hexValue? (c : Char) : Option Nat :=
  if '0' ≤ c ∧ c ≤ '9' then some (c.toNat - 48)
  else if 'a' ≤ c ∧ c ≤ 'f' then some (c.toNat - 87)
  else if 'A' ≤ c ∧ c ≤ 'F' then some (c.toNat - 55)
  else none

def hexNumber? (cs : List Char) : Option Nat :=
  cs.foldlM (fun n c => (hexValue? c).map (16 * n + ·)) 0

/-- The character that a backslash and this letter stand for. -/
def unescape? (c : Char) : Option Nat :=
  if c = '"' ∨ c = '\\' ∨ c = '/' then some c.toNat
  else if c = 'b' then some 8
  else if c = 't' then some 9
  else if c = 'n' then some 10
  else if c = 'f' then some 12
  else if c = 'r' then some 13
  else none

/-- Puts a unit before the units read behind it, if both could be read. -/
def consUnit : Option Nat → Option (List Nat × List Char) → Option (List Nat × List Char)
  | some unit, some (units, rest) => some (unit :: units, rest)
  | _, _ => none

/-- The code units of a string up to its closing quote, and the text behind it.
A unit is a code point, or half of one where two escapes are needed for it. -/
def readUnits : List Char → Option (List Nat × List Char)
  | [] => none
  | '"' :: rest => some ([], rest)
  | '\\' :: 'u' :: a :: b :: c :: d :: rest => consUnit (hexNumber? [a, b, c, d]) (readUnits rest)
  | '\\' :: c :: rest => consUnit (unescape? c) (readUnits rest)
  | c :: rest => if c.toNat < 0x20 then none else consUnit (some c.toNat) (readUnits rest)

/-- Joins the two halves of each code point that was written in two escapes. -/
def joinUnits : List Nat → Option (List Char)
  | [] => some []
  | [u] => if 0xd800 ≤ u ∧ u ≤ 0xdfff then none else some [Char.ofNat u]
  | u :: v :: rest =>
    if 0xd800 ≤ u ∧ u ≤ 0xdbff then
      if 0xdc00 ≤ v ∧ v ≤ 0xdfff then
        (Char.ofNat (0x10000 + (u - 0xd800) * 0x400 + (v - 0xdc00)) :: ·) <$> joinUnits rest
      else none
    else if 0xdc00 ≤ u ∧ u ≤ 0xdfff then none
    else (Char.ofNat u :: ·) <$> joinUnits (v :: rest)

def readString (cs : List Char) : Option (Token × List Char) := do
  let (units, rest) ← readUnits cs
  let chars ← joinUnits units
  return (.scalar (.string (String.ofList chars)), rest)

/-! ### Numbers -/

/-- The digits at the beginning of a text, at least one. -/
def readDigits (cs : List Char) : Option (List Char × List Char) :=
  match cs.takeWhile Char.isDigit with
  | [] => none
  | digits => some (digits, cs.dropWhile Char.isDigit)

/-- The digits before the point: a zero stands alone. -/
def readWhole (cs : List Char) : Option (List Char × List Char) :=
  match readDigits cs with
  | some ('0' :: _ :: _, _) => none
  | result => result

/-- The digits behind the point, none if there is no point. -/
def readFraction : List Char → Option (List Char × List Char)
  | '.' :: rest => readDigits rest
  | cs => some ([], cs)

/-- The exponent, if there is one. -/
def readExponent : List Char → Option (Option Int × List Char)
  | c :: rest =>
    if c = 'e' ∨ c = 'E' then
      match rest with
      | '-' :: rest => (readDigits rest).map fun (ds, rest) => (some (-Nat.ofDigitChars 10 ds 0), rest)
      | '+' :: rest => (readDigits rest).map fun (ds, rest) => (some (Nat.ofDigitChars 10 ds 0), rest)
      | rest => (readDigits rest).map fun (ds, rest) => (some (Nat.ofDigitChars 10 ds 0), rest)
    else some (none, c :: rest)
  | [] => some (none, [])

/-- A number behind its sign. -/
def readUnsigned (negative : Bool) (cs : List Char) : Option (Token × List Char) := do
  let (whole, rest) ← readWhole cs
  let (fraction, rest) ← readFraction rest
  let (exponent, rest) ← readExponent rest
  let size : Int := Nat.ofDigitChars 10 (whole ++ fraction) 0
  let value := if negative then -size else size
  match fraction, exponent with
  | [], none => return (.scalar (.integer value), rest)
  | _, _ => return (.scalar (.decimal ⟨value, exponent.getD 0 - fraction.length⟩), rest)

def readNumber : List Char → Option (Token × List Char)
  | '-' :: rest => readUnsigned true rest
  | cs => readUnsigned false cs

/-! ### Tokens -/

/-- One token at the beginning of a text that starts with no blank. -/
def readToken (c : Char) (rest : List Char) : Option (Token × List Char) :=
  match c, rest with
  | '[', rest => some (.openBracket, rest)
  | ']', rest => some (.closeBracket, rest)
  | '\x7b', rest => some (.openBrace, rest)
  | '\x7d', rest => some (.closeBrace, rest)
  | ',', rest => some (.comma, rest)
  | ':', rest => some (.colon, rest)
  | '"', rest => readString rest
  | 'n', 'u' :: 'l' :: 'l' :: rest => some (.scalar .null, rest)
  | 't', 'r' :: 'u' :: 'e' :: rest => some (.scalar (.bool true), rest)
  | 'f', 'a' :: 'l' :: 's' :: 'e' :: rest => some (.scalar (.bool false), rest)
  | 'N', 'a' :: 'N' :: rest => some (.scalar (.nonFinite .nan), rest)
  | 'I', 'n' :: 'f' :: 'i' :: 'n' :: 'i' :: 't' :: 'y' :: rest =>
    some (.scalar (.nonFinite .infinity), rest)
  | '-', 'I' :: 'n' :: 'f' :: 'i' :: 'n' :: 'i' :: 't' :: 'y' :: rest =>
    some (.scalar (.nonFinite .negativeInfinity), rest)
  | c, rest => readNumber (c :: rest)

def isBlank (c : Char) : Bool := c == ' ' || c == '\t' || c == '\n' || c == '\r'

/-! ### Every token uses up text -/

theorem exists_of_consUnit {unit : Option Nat} {read : Option (List Nat × List Char)}
    {units : List Nat} {rest : List Char} (h : consUnit unit read = some (units, rest)) :
    ∃ units', read = some (units', rest) := by
  unfold consUnit at h
  split at h <;> simp_all

theorem length_le_of_readUnits {cs rest : List Char} {units : List Nat}
    (h : readUnits cs = some (units, rest)) : rest.length ≤ cs.length := by
  fun_induction readUnits cs generalizing units rest with
  | case1 => simp at h
  | case2 => simp_all
  | case3 a b c d cs ih =>
    obtain ⟨units', h⟩ := exists_of_consUnit h
    have := ih h
    simp only [List.length_cons]
    omega
  | case4 c cs _ ih =>
    obtain ⟨units', h⟩ := exists_of_consUnit h
    have := ih h
    simp only [List.length_cons]
    omega
  | case5 => simp at h
  | case6 c cs _ _ _ _ ih =>
    obtain ⟨units', h⟩ := exists_of_consUnit h
    have := ih h
    simp only [List.length_cons]
    omega

theorem length_lt_of_readDigits {cs digits rest : List Char}
    (h : readDigits cs = some (digits, rest)) : rest.length < cs.length := by
  cases cs with
  | nil => simp [readDigits] at h
  | cons c cs =>
    have := (List.dropWhile_sublist Char.isDigit (l := cs)).length_le
    by_cases hc : c.isDigit
    · simp [readDigits, hc] at h
      rw [← h.2]
      simp
      omega
    · simp [readDigits, hc] at h

theorem length_lt_of_readWhole {cs digits rest : List Char}
    (h : readWhole cs = some (digits, rest)) : rest.length < cs.length := by
  unfold readWhole at h
  split at h
  · simp at h
  · exact length_lt_of_readDigits h

theorem length_le_of_readFraction {cs digits rest : List Char}
    (h : readFraction cs = some (digits, rest)) : rest.length ≤ cs.length := by
  unfold readFraction at h
  split at h
  · have := length_lt_of_readDigits h
    simp
    omega
  · simp at h
    simp [h.2]

theorem length_le_of_readExponent {cs rest : List Char} {exponent : Option Int}
    (h : readExponent cs = some (exponent, rest)) : rest.length ≤ cs.length := by
  unfold readExponent at h
  split at h
  · split at h
    · split at h <;>
      · obtain ⟨⟨digits, rest'⟩, hd, heq⟩ := Option.map_eq_some_iff.1 h
        have := length_lt_of_readDigits hd
        simp only [Prod.mk.injEq] at heq
        simp [← heq.2]
        omega
    · simp at h
      simp [← h.2]
  · simp at h
    simp [h.2]

theorem length_lt_of_readUnsigned {negative : Bool} {cs rest : List Char} {t : Token}
    (h : readUnsigned negative cs = some (t, rest)) : rest.length < cs.length := by
  simp only [readUnsigned, Option.bind_eq_bind, Option.bind_eq_some_iff] at h
  obtain ⟨⟨whole, r₁⟩, h₁, ⟨fraction, r₂⟩, h₂, ⟨exponent, r₃⟩, h₃, h⟩ := h
  have whole_lt := length_lt_of_readWhole h₁
  have fraction_le := length_le_of_readFraction h₂
  have exponent_le := length_le_of_readExponent h₃
  have hrest : r₃ = rest := by
    split at h <;> simp at h <;> exact h.2
  simp only at fraction_le exponent_le
  rw [← hrest]
  omega

theorem length_lt_of_readNumber {cs rest : List Char} {t : Token}
    (h : readNumber cs = some (t, rest)) : rest.length < cs.length := by
  unfold readNumber at h
  split at h
  · have := length_lt_of_readUnsigned h
    simp
    omega
  · exact length_lt_of_readUnsigned h

theorem length_le_of_readToken {c : Char} {cs rest : List Char} {t : Token}
    (h : readToken c cs = some (t, rest)) : rest.length ≤ cs.length := by
  unfold readToken at h
  split at h
  all_goals try (simp at h; simp [← h.2]; done)
  · simp only [readString, Option.bind_eq_bind, Option.bind_eq_some_iff] at h
    obtain ⟨⟨units, r⟩, h₁, chars, h₂, h⟩ := h
    simp at h
    rw [← h.2]
    exact length_le_of_readUnits h₁
  all_goals try (simp at h; simp [← h.2]; omega)
  · have := length_lt_of_readNumber h
    simp at this
    omega

/-! ### Values -/

def tokens : List Char → Option (List Token)
  | [] => some []
  | c :: cs =>
    if isBlank c then tokens cs
    else
      match _token : readToken c cs with
      | none => none
      | some (token, rest) => (tokens rest).map (token :: ·)
termination_by cs => cs.length
decreasing_by
  · simp
  · have := length_le_of_readToken _token
    simp
    omega

/-- An array or object that is still open, with what it holds so far. -/
inductive Frame where
  | array (before : List Json)
  | object (before : List (String × Json)) (key : String)
  deriving Repr

/-- A value part way through its tokens, inside the open arrays and objects. -/
inductive Reading where
  | value (frames : List Frame)
  | firstItem (frames : List Frame)
  | firstKey (frames : List Frame)
  | nextKey (frames : List Frame) (before : List (String × Json))
  | afterKey (frames : List Frame) (before : List (String × Json)) (key : String)
  | afterValue (frames : List Frame) (value : Json)
  deriving Repr

namespace Reading

/-- The first token of a value. -/
def begin? (frames : List Frame) : Token → Option Reading
  | .scalar v => some (.afterValue frames v)
  | .openBracket => some (.firstItem frames)
  | .openBrace => some (.firstKey frames)
  | _ => none

def step : Reading → Token → Option Reading
  | .value frames, token => begin? frames token
  | .firstItem frames, .closeBracket => some (.afterValue frames (.array []))
  | .firstItem frames, token => begin? (.array [] :: frames) token
  | .firstKey frames, .closeBrace => some (.afterValue frames (.object []))
  | .firstKey frames, .scalar (.string key) => some (.afterKey frames [] key)
  | .nextKey frames before, .scalar (.string key) => some (.afterKey frames before key)
  | .afterKey frames before key, .colon => some (.value (.object before key :: frames))
  | .afterValue (.array before :: frames) v, .comma => some (.value (.array (before ++ [v]) :: frames))
  | .afterValue (.array before :: frames) v, .closeBracket =>
    some (.afterValue frames (.array (before ++ [v])))
  | .afterValue (.object before key :: frames) v, .comma =>
    some (.nextKey frames (before ++ [(key, v)]))
  | .afterValue (.object before key :: frames) v, .closeBrace =>
    some (.afterValue frames (.object (before ++ [(key, v)])))
  | _, _ => none

def finish? : Reading → Option Json
  | .afterValue [] v => some v
  | _ => none

end Reading

/-- The value that a text is, if it is one. -/
def parse? (text : String) : Option Json := do
  let tokens ← tokens text.toList
  let reading ← tokens.foldlM Reading.step (.value [])
  reading.finish?

end FunCompiler.Json
