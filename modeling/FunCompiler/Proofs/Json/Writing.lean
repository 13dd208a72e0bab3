import FunCompiler.Json.Writer
import FunCompiler.Proofs.Json.Grammar

/-!
Written values are JSON. The text of a value whose numbers are all finite
belongs to the grammar and stands for that value (`isText_text`), so reading it
gives the value back.
-/

namespace FunCompiler.Json

/-! ### Strings -/

theorem hexValue?_digitChar {d : Nat} (h : d < 16) : hexValue? (Nat.digitChar d) = some d := by
  have hall : ∀ d < 16, hexValue? (Nat.digitChar d) = some d := by decide
  exact hall d h

theorem hexNumber?_hexDigits (width n : Nat) (h : n < Nat.pow 16 width) :
    hexNumber? (Text.hexDigits width n) = some n := by
  induction width generalizing n with
  | zero =>
      obtain rfl : n = 0 := Nat.lt_one_iff.1 h
      rfl
  | succ width ih =>
      have hfront : n / 16 < Nat.pow 16 width := Nat.div_lt_of_lt_mul (by rwa [Nat.mul_comm])
      have hback := hexValue?_digitChar (Nat.mod_lt n (by decide : 16 > 0))
      have hread := ih (n / 16) hfront
      rw [hexNumber?] at hread ⊢
      rw [Text.hexDigits, List.foldlM_append, hread]
      simp only [Option.bind_eq_bind, Option.bind_some, List.foldlM_cons, hback, Option.map_some,
        List.foldlM_nil, Nat.div_add_mod]
      rfl

theorem spells_escapeChar (c : Char) {text cs : List Char} (h : Spells text cs) :
    Spells (escapeChar c ++ text) (c :: cs) := by
  unfold escapeChar
  -- seven characters have an escape of their own
  iterate 7
    split
    · subst c
      exact .escape (by decide) h
  split
  · rename_i hcontrol
    exact .unicode (hexNumber?_hexDigits 4 c.toNat (Nat.lt_trans hcontrol (by decide))) h
  · rename_i hquote hbackslash _ _ _ _ _ hprintable
    exact .plain (Nat.not_lt.1 hprintable) hquote hbackslash h

theorem isString_writeString (s : String) : IsString (writeString s) s := by
  refine ⟨s.toList.flatMap escapeChar, rfl, ?_⟩
  induction s.toList with
  | nil => exact .nil
  | cons c cs ih =>
      rw [List.flatMap_cons]
      exact spells_escapeChar c ih

/-! ### Numbers -/

theorem isWhole_toDigits (n : Nat) : IsWhole (Nat.toDigits 10 n) := by
  refine ⟨⟨Nat.toDigits_ne_nil, isDigit_toDigits n⟩, fun hzero => ?_⟩
  obtain ⟨ds, hlist⟩ := List.head?_eq_some_iff.1 hzero
  rw [hlist, (toDigits_zero_cons hlist).2]

theorem writeInt_eq (n : Int) :
    writeInt n = minusSign (decide (n < 0)) ++ Nat.toDigits 10 n.natAbs := by
  rw [writeInt, Int.toString_eq_repr, Int.repr_eq_if]
  by_cases hn : n < 0
  · rw [if_neg (by omega), String.toList_append, Nat.toList_repr, minusSign,
      if_pos (decide_eq_true hn), show (-n).toNat = n.natAbs by omega]
    rfl
  · rw [if_pos (by omega), Nat.toList_repr, minusSign, if_neg (by simpa using hn),
      show n.toNat = n.natAbs by omega]
    rfl

theorem signed_natAbs (n : Int) : signed (decide (n < 0)) n.natAbs = n := by
  simp only [signed, decide_eq_true_eq]
  split <;> omega

theorem isExponent_signed (negative : Bool) (n : Nat) :
    IsExponent ('e' :: (minusSign negative ++ Nat.toDigits 10 n)) (some (signed negative n)) := by
  have hdigits := (isWhole_toDigits n).1
  cases negative with
  | true =>
      have hexponent := IsExponent.minus (.inl rfl) hdigits
      rwa [Nat.ofDigitChars_ten_toDigits] at hexponent
  | false =>
      have hexponent := IsExponent.unsigned (.inl rfl) hdigits
      rwa [Nat.ofDigitChars_ten_toDigits] at hexponent

theorem isExponent_writeInt (n : Int) : IsExponent ('e' :: writeInt n) (some n) := by
  have hexponent := isExponent_signed (decide (n < 0)) n.natAbs
  rwa [← writeInt_eq, signed_natAbs] at hexponent

theorem isNumber_writeInt (n : Int) : IsNumber (writeInt n) (.integer n) := by
  have hnumber := IsNumber.mk (decide (n < 0)) (isWhole_toDigits n.natAbs) .absent .absent
  simpa only [List.append_nil, Nat.ofDigitChars_ten_toDigits, signed_natAbs, numberOf,
    ← writeInt_eq] using hnumber

theorem isNumber_writeDecimal (d : Decimal) :
    IsNumber (writeInt d.mantissa ++ 'e' :: writeInt d.exponent) (.decimal d) := by
  have hnumber := IsNumber.mk (decide (d.mantissa < 0)) (isWhole_toDigits d.mantissa.natAbs)
    .absent (isExponent_writeInt d.exponent)
  simpa [Nat.ofDigitChars_ten_toDigits, signed_natAbs, numberOf, ← writeInt_eq] using hnumber

/-! ### Values -/

mutual

/-- Every number of the value is finite. -/
def Finite : Json → Prop
  | .nonFinite _ => False
  | .array items => AllFinite items
  | .object members => MembersFinite members
  | _ => True

def AllFinite : List Json → Prop
  | [] => True
  | item :: items => item.Finite ∧ AllFinite items

def MembersFinite : List (String × Json) → Prop
  | [] => True
  | (_, value) :: members => value.Finite ∧ MembersFinite members

end

theorem isBlanks_newline (level : Nat) : IsBlanks (newline level) := by
  simp [IsBlanks, newline, isBlank]

theorem isBlanks_nil : IsBlanks [] := nofun

theorem denotes_member (level : Nat) (key : String) {text : List Char} {value : Json}
    (hvalue : Denotes text (.value value)) (behind : List Char) (hbehind : IsBlanks behind) :
    Denotes (newline level ++ writeString key ++ ':' :: ' ' :: text ++ behind)
      (.member key value) := by
  have hblank : IsBlanks [' '] := by simp [IsBlanks, isBlank]
  simpa using Denotes.member (isBlanks_newline level) (isString_writeString key) isBlanks_nil
    (.element hblank hvalue hbehind)

mutual

theorem denotes_write (level : Nat) : ∀ j : Json, j.Finite → Denotes (j.write level) (.value j)
  | .null, _ => by
      rw [write]
      exact .null
  | .bool true, _ => by
      rw [write]
      exact .true
  | .bool false, _ => by
      rw [write]
      exact .false
  | .integer n, _ => by
      rw [write]
      exact .number (isNumber_writeInt n)
  | .decimal d, _ => by
      rw [write]
      exact .number (isNumber_writeDecimal d)
  | .nonFinite _, h => by
      rw [Finite] at h
      exact h.elim
  | .string s, _ => by
      rw [write]
      exact .string (isString_writeString s)
  | .array [], _ => by
      rw [write]
      exact .emptyArray isBlanks_nil
  | .array (item :: items), h => by
      rw [Finite, AllFinite] at h
      rw [write]
      have hitem := denotes_write (level + 1) item h.1
      simpa using Denotes.array (denotes_items (level + 1) level hitem items h.2)
  | .object [], _ => by
      rw [write]
      exact .emptyObject isBlanks_nil
  | .object ((key, value) :: members), h => by
      rw [Finite, MembersFinite] at h
      rw [write]
      have hmember := denotes_member (level + 1) key (denotes_write (level + 1) value h.1)
      simpa using Denotes.object (denotes_members (level + 1) level hmember members h.2)

/-- The first of the items has been written. -/
theorem denotes_items (level outer : Nat) {text : List Char} {item : Json}
    (hitem : Denotes text (.value item)) : ∀ items : List Json, AllFinite items →
      Denotes (newline level ++ text ++ writeItems level items ++ newline outer)
        (.elements (item :: items))
  | [], _ => by
      rw [writeItems, List.append_nil]
      exact .lastElement (.element (isBlanks_newline level) hitem (isBlanks_newline outer))
  | next :: items, h => by
      rw [AllFinite] at h
      rw [writeItems]
      have helement := Denotes.element (isBlanks_newline level) hitem isBlanks_nil
      have hnext := denotes_write level next h.1
      simpa using helement.elements (denotes_items level outer hnext items h.2)

/-- The first of the members has been written, up to the blanks behind it. -/
theorem denotes_members (level outer : Nat) {text : List Char} {key : String} {value : Json}
    (hmember : ∀ behind, IsBlanks behind → Denotes (text ++ behind) (.member key value)) :
    ∀ members : List (String × Json), MembersFinite members →
      Denotes (text ++ writeMembers level members ++ newline outer)
        (.members ((key, value) :: members))
  | [], _ => by
      rw [writeMembers, List.append_nil]
      exact .lastMember (hmember _ (isBlanks_newline outer))
  | (nextKey, next) :: members, h => by
      rw [MembersFinite] at h
      rw [writeMembers]
      have hnext := denotes_member level nextKey (denotes_write level next h.1)
      simpa using (hmember [] isBlanks_nil).members
        (denotes_members level outer hnext members h.2)

end

/-- Every value with finite numbers is written as JSON that stands for it. -/
theorem isText_text {j : Json} (h : j.Finite) : IsText j.text j := by
  rw [IsText, text, String.toList_ofList]
  simpa using Denotes.element isBlanks_nil (denotes_write 0 j h) isBlanks_nil

end FunCompiler.Json
