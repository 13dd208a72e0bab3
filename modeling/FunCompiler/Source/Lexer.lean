import FunCompiler.Source.Token

/-!
Reading one token at a place. Between tokens, blanks and comments are skipped;
a comment runs from `#` to the end of its line. Names and numbers are read as
far as they go, symbols two characters before one.
-/

namespace FunCompiler.Source

/-- A place in the text, both numbers counted from one. -/
structure Position where
  line : Nat
  column : Nat
  deriving DecidableEq, Repr

namespace Position

def start : Position := ⟨1, 1⟩

/-- The position behind a character. Only a line feed begins a new line. -/
def next (p : Position) (c : Char) : Position :=
  if c = '\n' then ⟨p.line + 1, 1⟩ else ⟨p.line, p.column + 1⟩

def advance (p : Position) (cs : List Char) : Position := cs.foldl next p

end Position

/-- The text still to be read, and where it begins. -/
structure Cursor where
  position : Position
  rest : List Char
  deriving DecidableEq, Repr

def isBlank (c : Char) : Bool :=
  c == ' ' || c == '\t' || c == '\x0c' || c == '\r' || c == '\n'

def isNameStart (c : Char) : Bool := c.isAlpha || c == '_'

def isNamePart (c : Char) : Bool := c.isAlphanum || c == '_'

mutual

/-- Skips blanks and comments. -/
def skipLayout (p : Position) : List Char → Cursor
  | [] => ⟨p, []⟩
  | c :: cs =>
    if c = '#' then skipComment (p.next c) cs
    else if isBlank c then skipLayout (p.next c) cs
    else ⟨p, c :: cs⟩

/-- Skips the rest of a comment, and the layout behind it. -/
def skipComment (p : Position) : List Char → Cursor
  | [] => ⟨p, []⟩
  | c :: cs => if c = '\n' then skipLayout (p.next c) cs else skipComment (p.next c) cs

end

/-- What stands behind `word` at the beginning of the text. -/
def behind? : (word : List Char) → List Char → Option (List Char)
  | [], cs => some cs
  | _ :: _, [] => none
  | w :: ws, c :: cs => if w = c then behind? ws cs else none

/-- The first token of the list that is spelled at the beginning of the text. -/
def readSpelled? (tokens : List Token) (cs : List Char) : Option (Token × List Char) :=
  tokens.findSome? fun t => (behind? t.text.toList cs).map (t, ·)

/-- A word is the keyword it spells where that keyword may stand, else a name. -/
def wordToken (place : Place) (word : String) : Token :=
  match Keyword.ofText? word with
  | some k => if place.admits (.keyword k) then .keyword k else .name word
  | none => .name word

def read? (place : Place) (cs : List Char) : Option (Token × List Char) :=
  match cs with
  | [] => none
  | c :: _ =>
    if c.isDigit then
      let token := Token.number (String.ofList (cs.takeWhile Char.isDigit))
      if place.admits token then some (token, cs.dropWhile Char.isDigit) else none
    else if isNameStart c && place.admitsNames then
      some (wordToken place (String.ofList (cs.takeWhile isNamePart)), cs.dropWhile isNamePart)
    else readSpelled? place.spelled cs

theorem length_of_behind? {word cs rest : List Char} (h : behind? word cs = some rest) :
    cs.length = word.length + rest.length := by
  induction word generalizing cs with
  | nil => simp_all [behind?]
  | cons w ws ih =>
    cases cs with
    | nil => simp [behind?] at h
    | cons c cs =>
      simp only [behind?] at h
      split at h
      · simp [ih h]; omega
      · simp at h

theorem length_dropWhile_lt {p : Char → Bool} {c : Char} {cs : List Char} (h : p c = true) :
    ((c :: cs).dropWhile p).length < (c :: cs).length := by
  have := (List.dropWhile_sublist p (l := cs)).length_le
  simp [h]
  omega

theorem isNamePart_of_isNameStart {c : Char} (h : isNameStart c = true) : isNamePart c = true := by
  simp only [isNameStart, isNamePart, Char.isAlphanum, Bool.or_eq_true] at *
  exact h.imp_left Or.inl

theorem text_ne_empty_of_mem_spelled {place : Place} {t : Token} (h : t ∈ place.spelled) :
    0 < t.text.toList.length := by
  simp only [Place.spelled, List.mem_filter, List.mem_append] at h
  obtain ⟨h | h, -⟩ := h
  · split at h
    · simp at h
    · simp only [Keyword.all, List.map_cons, List.map_nil, List.mem_cons, List.not_mem_nil] at h
      rcases h with rfl | rfl | rfl | rfl | rfl | rfl | h <;> first | decide | simp at h
  · simp only [Token.symbols, Mark.all, List.map_cons, List.map_nil, List.mem_append, List.mem_cons,
      List.not_mem_nil] at h
    rcases h with (rfl | rfl | rfl | rfl | rfl | rfl | h) | (rfl | rfl | rfl | rfl | rfl | rfl | h)
      <;> first | decide | simp at h

/-- Reading a token uses up text. -/
theorem length_lt_of_read? {place : Place} {cs rest : List Char} {t : Token}
    (h : read? place cs = some (t, rest)) : rest.length < cs.length := by
  cases cs with
  | nil => simp [read?] at h
  | cons c cs =>
    simp only [read?] at h
    split at h
    · rename_i hd
      split at h
      · simp only [Option.some.injEq, Prod.mk.injEq] at h
        rw [← h.2]
        exact length_dropWhile_lt hd
      · simp at h
    · split at h
      · rename_i hw
        simp only [Option.some.injEq, Prod.mk.injEq] at h
        simp only [Bool.and_eq_true] at hw
        rw [← h.2]
        exact length_dropWhile_lt (isNamePart_of_isNameStart hw.1)
      · obtain ⟨t', hmem, ht'⟩ := List.exists_of_findSome?_eq_some h
        obtain ⟨r, hr, heq⟩ := Option.map_eq_some_iff.1 ht'
        have hlen := length_of_behind? hr
        have hpos := text_ne_empty_of_mem_spelled hmem
        simp only [Prod.mk.injEq] at heq
        rw [← heq.2]
        omega

mutual

theorem length_skipLayout_le (p : Position) (cs : List Char) :
    (skipLayout p cs).rest.length ≤ cs.length := by
  cases cs with
  | nil => simp [skipLayout]
  | cons c cs =>
    have h₁ := length_skipLayout_le (p.next c) cs
    have h₂ := length_skipComment_le (p.next c) cs
    simp only [skipLayout]
    split
    · simp; omega
    · split
      · simp; omega
      · simp

theorem length_skipComment_le (p : Position) (cs : List Char) :
    (skipComment p cs).rest.length ≤ cs.length := by
  cases cs with
  | nil => simp [skipComment]
  | cons c cs =>
    have h₁ := length_skipLayout_le (p.next c) cs
    have h₂ := length_skipComment_le (p.next c) cs
    simp only [skipComment]
    split <;> simp <;> omega

end

end FunCompiler.Source
