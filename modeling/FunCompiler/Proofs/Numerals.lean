import FunCompiler.Text.Numeral

/-!
Which texts are numerals. A numeral has its significant digits in groups that single
underscores divide. What stands around them does not count: blanks at both ends, a
sign, zeros in front with underscores among them, and a point with zeros behind it.
The grammar is stated without the reader, and the reader accepts the texts of the
grammar and no others, each with its value.

A text that begins with too many digits is refused whatever it goes on with.
-/

namespace FunCompiler.Text

/-- Digits in groups with one underscore between two groups, and the digits alone. -/
inductive Grouped : List Char → List Char → Prop
  | digit {c : Char} (digit : c.isDigit = true) : Grouped [c] [c]
  | next {c : Char} {text digits : List Char} (digit : c.isDigit = true)
      (behind : Grouped text digits) : Grouped (c :: text) (c :: digits)
  | group {c : Char} {text digits : List Char} (digit : c.isDigit = true)
      (behind : Grouped text digits) : Grouped (c :: '_' :: text) (c :: digits)

/-- Significant digits: no zero stands in front of another digit. There may be 4300 of them. -/
def IsPlain (digits : List Char) : Prop :=
  digits = ['0'] ∨ digits.head? ≠ some '0' ∧ digits.length ≤ 4300

/-- Nothing, or a zero with zeros and underscores in any order behind it. -/
inductive LeadingZeros : List Char → Prop
  | none : LeadingZeros []
  | zeros {cs : List Char} (all : ∀ c ∈ cs, c = '0' ∨ c = '_') : LeadingZeros ('0' :: cs)

/-- Nothing, or a point and at least one zero. -/
inductive ZeroFraction : List Char → Prop
  | none : ZeroFraction []
  | zeros (count : Nat) : ZeroFraction ('.' :: List.replicate (count + 1) '0')

/-- What stands in front of the digits, and whether it makes the number negative. A minus sign
stands in front of the leading zeros or right behind them, where an underscore may follow it. -/
inductive Front : Bool → List Char → Prop
  | positive {sign zeros : List Char} (signs : sign = [] ∨ sign = ['+'])
      (leading : LeadingZeros zeros) : Front false (sign ++ zeros)
  | minus {zeros : List Char} (leading : LeadingZeros zeros) : Front true ('-' :: zeros)
  | minusBehind {sign zeros more : List Char} (signs : sign = [] ∨ sign = ['+'])
      (leading : LeadingZeros zeros) (nonempty : zeros ≠ []) (rest : more = [] ∨ more = ['_']) :
      Front true (sign ++ (zeros ++ '-' :: more))

/-- A numeral with no blanks around it. -/
inductive Signed : List Char → Int → Prop
  | mk {negative : Bool} {front text fraction digits : List Char} (sign : Front negative front)
      (grouped : Grouped text digits) (plain : IsPlain digits) (tail : ZeroFraction fraction) :
      Signed (front ++ (text ++ fraction))
        (if negative then -(Nat.ofDigitChars 10 digits 0 : Int) else Nat.ofDigitChars 10 digits 0)

/-- The code points of white space. -/
def whiteSpace : List Nat :=
  [0x9, 0xa, 0xb, 0xc, 0xd, 0x20, 0x85, 0xa0, 0x1680, 0x2000, 0x2001, 0x2002, 0x2003, 0x2004,
    0x2005, 0x2006, 0x2007, 0x2008, 0x2009, 0x200a, 0x2028, 0x2029, 0x202f, 0x205f, 0x3000]

/-- The text is a numeral and stands for the integer. -/
inductive Numeral : List Char → Int → Prop
  | mk {before body behind : List Char} {n : Int} (blank : ∀ c ∈ before, c.toNat ∈ whiteSpace)
      (signed : Signed body n) (blankBehind : ∀ c ∈ behind, c.toNat ∈ whiteSpace) :
      Numeral (before ++ (body ++ behind)) n

/-- The text begins with more than 4300 digits that no zero leads, perhaps behind a minus
sign. -/
def TooLong (text : List Char) : Prop :=
  ∃ sign digits rest, text = sign ++ digits ++ rest ∧ (sign = [] ∨ sign = ['-']) ∧
    (∀ c ∈ digits, c.isDigit = true) ∧ digits.head? ≠ some '0' ∧ 4300 < digits.length

/-! ### Digits -/

theorem plainNatural?_eq_some {cs : List Char} (hne : cs ≠ [])
    (hdigits : ∀ c ∈ cs, c.isDigit = true) (hplain : IsPlain cs) :
    plainNatural? cs = some (Nat.ofDigitChars 10 cs 0) := by
  rcases hplain with rfl | ⟨hlead, hlength⟩
  · rfl
  · unfold plainNatural?
    split
    · exact absurd rfl hne
    · exact absurd rfl hlead
    · exact absurd rfl hlead
    · rw [if_pos]
      exact Bool.and_eq_true_iff.2 ⟨List.all_eq_true.2 hdigits, decide_eq_true hlength⟩

theorem of_plainNatural?_eq_some {cs : List Char} {n : Nat} (h : plainNatural? cs = some n) :
    (∀ c ∈ cs, c.isDigit = true) ∧ IsPlain cs ∧ n = Nat.ofDigitChars 10 cs 0 := by
  unfold plainNatural? at h
  split at h
  · cases h
  · cases h
    exact ⟨by simp, .inl rfl, rfl⟩
  · cases h
  · rename_i hlead
    split at h
    · rename_i hall
      cases h
      obtain ⟨hdigits, hlength⟩ := Bool.and_eq_true_iff.1 hall
      refine ⟨List.all_eq_true.1 hdigits, .inr ⟨?_, of_decide_eq_true hlength⟩, rfl⟩
      intro hhead
      obtain ⟨rest, hrest⟩ := List.head?_eq_some_iff.1 hhead
      exact hlead rest hrest
    · cases h

theorem isDigit_ne {c d : Char} (hc : c.isDigit = true) (hd : d.isDigit = false) : c ≠ d := by
  rintro rfl
  rw [hc] at hd
  cases hd

theorem joinGroups?_cons {c d : Char} {cs digits : List Char} (hc : c ≠ '_') (hd : d ≠ '_')
    (h : joinGroups? (d :: cs) = some digits) :
    joinGroups? (c :: d :: cs) = some (c :: digits) := by
  rw [joinGroups?, if_neg hc, h]
  · rfl
  · simp
  · rintro _ ⟨rfl⟩
    exact hd rfl

/-- A first character is kept, with the underscore behind it left out. -/
theorem of_joinGroups?_cons {c : Char} {text digits : List Char}
    (h : joinGroups? text = some (c :: digits)) (hne : digits ≠ []) :
    ∃ more rest, (more = [] ∨ more = ['_']) ∧ text = c :: (more ++ rest) ∧
      joinGroups? rest = some digits := by
  unfold joinGroups? at h
  split at h
  · cases h
  · split at h
    · cases h
    · cases h
      exact absurd rfl hne
  · split at h
    · cases h
    · obtain ⟨ds, hds, heq⟩ := Option.map_eq_some_iff.1 h
      cases heq
      exact ⟨['_'], _, .inr rfl, rfl, hds⟩
  · split at h
    · cases h
    · obtain ⟨ds, hds, heq⟩ := Option.map_eq_some_iff.1 h
      cases heq
      exact ⟨[], _, .inl rfl, rfl, hds⟩

namespace Grouped

variable {text digits : List Char}

theorem isDigit (h : Grouped text digits) : ∀ c ∈ digits, c.isDigit = true := by
  induction h with
  | digit digit => simpa using digit
  | next digit _ ih => exact List.forall_mem_cons.2 ⟨digit, ih⟩
  | group digit _ ih => exact List.forall_mem_cons.2 ⟨digit, ih⟩

theorem starts (h : Grouped text digits) :
    ∃ c cs ds, text = c :: cs ∧ digits = c :: ds ∧ c.isDigit = true := by
  cases h with
  | digit digit => exact ⟨_, _, _, rfl, rfl, digit⟩
  | next digit _ => exact ⟨_, _, _, rfl, rfl, digit⟩
  | group digit _ => exact ⟨_, _, _, rfl, rfl, digit⟩

theorem joinGroups?_eq (h : Grouped text digits) : joinGroups? text = some digits := by
  induction h with
  | digit digit => rw [joinGroups?, if_neg (isDigit_ne digit rfl)]
  | next digit behind ih =>
      obtain ⟨d, ds, _, rfl, -, hd⟩ := behind.starts
      exact joinGroups?_cons (isDigit_ne digit rfl) (isDigit_ne hd rfl) ih
  | group digit behind ih =>
      rw [joinGroups?, if_neg (isDigit_ne digit rfl), ih]
      rfl

theorem of_joinGroups? (h : joinGroups? text = some digits)
    (hdigits : ∀ c ∈ digits, c.isDigit = true) : Grouped text digits := by
  fun_induction joinGroups? text generalizing digits with
  | case1 | case2 | case4 | case6 => cases h
  | case3 c _ =>
      cases h
      exact .digit (hdigits c (List.mem_singleton_self c))
  | case5 c cs _ ih =>
      obtain ⟨ds, hds, rfl⟩ := Option.map_eq_some_iff.1 h
      obtain ⟨hc, hrest⟩ := List.forall_mem_cons.1 hdigits
      exact .group hc (ih hds hrest)
  | case7 c cs _ _ _ ih =>
      obtain ⟨ds, hds, rfl⟩ := Option.map_eq_some_iff.1 h
      obtain ⟨hc, hrest⟩ := List.forall_mem_cons.1 hdigits
      exact .next hc (ih hds hrest)

/-- A grouped text is made of digits and underscores. -/
theorem chars (h : Grouped text digits) : ∀ c ∈ text, c.isDigit = true ∨ c = '_' := by
  induction h with
  | digit digit => simpa using .inl digit
  | next digit _ ih => exact List.forall_mem_cons.2 ⟨.inl digit, ih⟩
  | group digit _ ih =>
      exact List.forall_mem_cons.2 ⟨.inl digit, List.forall_mem_cons.2 ⟨.inr rfl, ih⟩⟩

theorem point_not_mem (h : Grouped text digits) : '.' ∉ text := by
  intro hmem
  rcases h.chars _ hmem with hdigit | heq
  · cases hdigit
  · cases heq

/-- The last character is a digit. -/
theorem ends (h : Grouped text digits) : ∃ cs c, text = cs ++ [c] ∧ c.isDigit = true := by
  induction h with
  | @digit c digit => exact ⟨[], c, rfl, digit⟩
  | @next c _ _ _ _ ih =>
      obtain ⟨cs, d, rfl, hd⟩ := ih
      exact ⟨c :: cs, d, rfl, hd⟩
  | @group c _ _ _ _ ih =>
      obtain ⟨cs, d, rfl, hd⟩ := ih
      exact ⟨c :: '_' :: cs, d, rfl, hd⟩

end Grouped

/-! ### Zeros around the digits -/

theorem dropZeroFraction_append {text fraction : List Char} (htext : '.' ∉ text)
    (h : ZeroFraction fraction) : dropZeroFraction (text ++ fraction) = text := by
  have hplain : ∀ c ∈ text, decide (c ≠ '.') = true := by
    intro c hc
    exact decide_eq_true fun heq => htext (heq ▸ hc)
  unfold dropZeroFraction
  cases h with
  | none =>
      rw [List.dropWhile_append_of_pos hplain]
      exact List.append_nil text
  | zeros count =>
      rw [List.dropWhile_append_of_pos hplain, List.takeWhile_append_of_pos hplain,
        List.replicate_succ]
      simp

theorem exists_dropZeroFraction (cs : List Char) :
    ∃ fraction, ZeroFraction fraction ∧ cs = dropZeroFraction cs ++ fraction := by
  have hsplit := List.takeWhile_append_dropWhile (p := (· ≠ '.')) (l := cs)
  have hpoint := List.head?_dropWhile_not (· ≠ '.') cs
  unfold dropZeroFraction
  split
  · rename_i c zero zeros hdrop
    split
    · rename_i hall
      rw [hdrop] at hsplit hpoint
      obtain rfl : c = '.' := by simpa using hpoint
      have hzeros : zero :: zeros = List.replicate (zeros.length + 1) '0' := by
        refine List.eq_replicate_of_mem fun d hd => ?_
        exact of_decide_eq_true (List.all_eq_true.1 hall d hd)
      exact ⟨'.' :: zero :: zeros, hzeros ▸ .zeros _, hsplit.symm⟩
    · exact ⟨[], .none, (List.append_nil _).symm⟩
  · exact ⟨[], .none, (List.append_nil _).symm⟩

theorem dropZeros?_append (last : Char) {zeros : List Char} (h : ∀ c ∈ zeros, c = '0' ∨ c = '_')
    (rest : List Char) : dropZeros? last (zeros ++ rest) = dropZeros? (zeros.getLastD last) rest := by
  induction zeros generalizing last with
  | nil => rfl
  | cons c cs ih =>
      obtain ⟨hc, hcs⟩ := List.forall_mem_cons.1 h
      rw [List.cons_append, dropZeros?, if_pos hc, ih c hcs, List.getLastD_cons]

/-- Significant digits that begin with a zero are that zero. -/
theorem Grouped.eq_zero {cs digits : List Char} (h : Grouped ('0' :: cs) digits)
    (hplain : IsPlain digits) : cs = [] := by
  obtain ⟨c, _, ds, heq, rfl, -⟩ := h.starts
  cases heq
  rcases hplain with hzero | ⟨hlead, -⟩
  · cases hzero
    cases h with
    | digit _ => rfl
    | next _ behind | group _ behind =>
        obtain ⟨_, _, _, _, hds, _⟩ := behind.starts
        cases hds
  · exact absurd rfl hlead

/-- Behind the zeros the digits are left as they are, a zero alone with them. -/
theorem dropZeros?_digits (last : Char) {text digits fraction : List Char}
    (hgrouped : Grouped text digits) (hplain : IsPlain digits) (hfraction : ZeroFraction fraction) :
    dropZeros? last (text ++ fraction) = some (text ++ fraction) := by
  obtain ⟨c, cs, ds, rfl, rfl, hc⟩ := hgrouped.starts
  by_cases hzero : c = '0'
  · subst hzero
    obtain rfl := hgrouped.eq_zero hplain
    cases hfraction with
    | none => rfl
    | zeros count => rfl
  · have hskip : ¬ (c = '0' ∨ c = '_') := not_or.2 ⟨hzero, isDigit_ne hc rfl⟩
    rw [List.cons_append, dropZeros?, if_neg hskip, if_neg (isDigit_ne hc rfl), if_pos (.inl hc)]

theorem dropLeadingZeros?_zeros {zeros : List Char} (h : ∀ c ∈ zeros, c = '0' ∨ c = '_')
    (rest : List Char) :
    dropLeadingZeros? ('0' :: (zeros ++ rest)) = dropZeros? (zeros.getLastD '0') rest := by
  rw [dropLeadingZeros?, if_pos rfl, dropZeros?_append '0' h]

theorem dropLeadingZeros?_digits {zeros text digits fraction : List Char}
    (hzeros : LeadingZeros zeros) (hgrouped : Grouped text digits) (hplain : IsPlain digits)
    (hfraction : ZeroFraction fraction) :
    dropLeadingZeros? (zeros ++ (text ++ fraction)) = some (text ++ fraction) := by
  cases hzeros with
  | none =>
      have hdrop := fun last => dropZeros?_digits last hgrouped hplain hfraction
      obtain ⟨c, cs, _, rfl, -, hc⟩ := hgrouped.starts
      rw [List.nil_append, List.cons_append, dropLeadingZeros?]
      split
      · rename_i hzero
        subst hzero
        exact hdrop '0'
      · rfl
  | zeros all =>
      rw [List.cons_append, dropLeadingZeros?_zeros all]
      exact dropZeros?_digits _ hgrouped hplain hfraction

theorem of_dropZeros? {last : Char} {cs rest : List Char} (hlast : last = '0' ∨ last = '_')
    (h : dropZeros? last cs = some rest) :
    ∃ zeros, (∀ c ∈ zeros, c = '0' ∨ c = '_') ∧ last :: cs = zeros ++ rest ∧
      (rest.head? = some '-' → zeros ≠ []) := by
  have hsign : some last ≠ some '-' := by
    rcases hlast with rfl | rfl <;> simp
  induction cs generalizing last with
  | nil =>
      cases h
      exact ⟨[], List.forall_mem_nil _, rfl, fun h => absurd h hsign⟩
  | cons c cs ih =>
      rw [dropZeros?] at h
      split at h
      · rename_i hc
        have hnext : some c ≠ some '-' := by
          rcases hc with rfl | rfl <;> simp
        obtain ⟨zeros, hzeros, hsplit, -⟩ := ih hc h hnext
        exact ⟨last :: zeros, List.forall_mem_cons.2 ⟨hlast, hzeros⟩, congrArg (last :: ·) hsplit,
          fun _ => List.cons_ne_nil _ _⟩
      · split at h
        · cases h
          exact ⟨[], List.forall_mem_nil _, rfl, fun h => absurd h hsign⟩
        · split at h
          · cases h
            exact ⟨[last], by simpa using hlast, rfl, fun _ => List.cons_ne_nil _ _⟩
          · cases h

/-- What the leading zeros leave is the end of the text. A minus sign comes first only behind
leading zeros. -/
theorem of_dropLeadingZeros? {cs rest : List Char} (h : dropLeadingZeros? cs = some rest) :
    ∃ zeros, LeadingZeros zeros ∧ cs = zeros ++ rest ∧ (rest.head? = some '-' → zeros ≠ []) := by
  cases cs with
  | nil => cases h
  | cons c cs =>
      rw [dropLeadingZeros?] at h
      split at h
      · rename_i hc
        subst hc
        obtain ⟨zeros, hzeros, hsplit, hminus⟩ := of_dropZeros? (.inl rfl) h
        refine ⟨zeros, ?_, hsplit, hminus⟩
        cases zeros with
        | nil => exact .none
        | cons d zeros =>
            cases hsplit
            exact .zeros (List.forall_mem_cons.1 hzeros).2
      · split at h
        · rename_i hdigit
          cases h
          refine ⟨[], .none, rfl, fun hhead => ?_⟩
          cases Option.some.inj hhead
          cases hdigit
        · cases h

/-! ### What counts of a numeral -/

theorem significant?_digits {zeros text digits fraction : List Char} (hzeros : LeadingZeros zeros)
    (hgrouped : Grouped text digits) (hplain : IsPlain digits) (hfraction : ZeroFraction fraction) :
    significant? (zeros ++ (text ++ fraction)) = some digits := by
  rw [significant?, dropLeadingZeros?_digits hzeros hgrouped hplain hfraction, Option.bind_some,
    dropZeroFraction_append hgrouped.point_not_mem hfraction, hgrouped.joinGroups?_eq]

theorem significant?_minus {zeros more text digits fraction : List Char}
    (hzeros : LeadingZeros zeros) (hne : zeros ≠ []) (hmore : more = [] ∨ more = ['_'])
    (hgrouped : Grouped text digits) (hfraction : ZeroFraction fraction) :
    significant? (zeros ++ '-' :: (more ++ (text ++ fraction))) = some ('-' :: digits) := by
  have hpoint : '.' ∉ '-' :: (more ++ text) := by
    have htext := hgrouped.point_not_mem
    rcases hmore with rfl | rfl <;> simpa using htext
  have hjoin : joinGroups? ('-' :: (more ++ text)) = some ('-' :: digits) := by
    rcases hmore with rfl | rfl
    · obtain ⟨d, ds, _, rfl, -, hd⟩ := hgrouped.starts
      exact joinGroups?_cons (by decide) (isDigit_ne hd rfl) hgrouped.joinGroups?_eq
    · rw [List.singleton_append, joinGroups?, if_neg (by decide), hgrouped.joinGroups?_eq]
      rfl
  have hdrop : dropLeadingZeros? (zeros ++ '-' :: (more ++ (text ++ fraction))) =
      some ('-' :: (more ++ text) ++ fraction) := by
    cases hzeros with
    | none => exact absurd rfl hne
    | zeros all =>
        rw [List.cons_append, dropLeadingZeros?_zeros all, List.cons_append, List.append_assoc]
        rfl
  rw [significant?, hdrop, Option.bind_some, dropZeroFraction_append hpoint hfraction, hjoin]

theorem of_significant? {cs digits : List Char} (h : significant? cs = some digits) :
    ∃ zeros text fraction, LeadingZeros zeros ∧ ZeroFraction fraction ∧
      cs = zeros ++ (text ++ fraction) ∧ joinGroups? text = some digits ∧
      (text.head? = some '-' → zeros ≠ []) := by
  obtain ⟨rest, hdrop, hjoin⟩ := Option.bind_eq_some_iff.1 h
  obtain ⟨zeros, hzeros, rfl, hminus⟩ := of_dropLeadingZeros? hdrop
  obtain ⟨fraction, hfraction, hrest⟩ := exists_dropZeroFraction rest
  refine ⟨zeros, _, fraction, hzeros, hfraction, congrArg (zeros ++ ·) hrest, hjoin, ?_⟩
  intro hhead
  apply hminus
  rw [hrest, List.head?_append, hhead]
  rfl

/-! ### Signs -/

theorem plainInteger?_of_ne {cs : List Char} (h : cs.head? ≠ some '-') :
    plainInteger? cs = (plainNatural? cs).map Int.ofNat := by
  unfold plainInteger?
  split
  · exact absurd rfl h
  · rfl

theorem Grouped.plainNatural?_eq {text digits : List Char} (h : Grouped text digits)
    (hplain : IsPlain digits) : plainNatural? digits = some (Nat.ofDigitChars 10 digits 0) := by
  obtain ⟨_, _, _, -, hdigits, -⟩ := h.starts
  exact plainNatural?_eq_some (hdigits ▸ List.cons_ne_nil _ _) h.isDigit hplain

theorem Signed.of_minus {body digits : List Char} {n : Int} (h : significant? body = some digits)
    (hn : plainInteger? ('-' :: digits) = some n) : Signed ('-' :: body) n := by
  obtain ⟨zeros, text, fraction, hzeros, hfraction, rfl, hjoin, -⟩ := of_significant? h
  rw [plainInteger?] at hn
  obtain ⟨m, hm, rfl⟩ := Option.map_eq_some_iff.1 hn
  obtain ⟨hdigits, hplain, rfl⟩ := of_plainNatural?_eq_some hm
  exact .mk (.minus hzeros) (Grouped.of_joinGroups? hjoin hdigits) hplain hfraction

theorem Signed.of_unsigned {sign body digits : List Char} {n : Int}
    (hsign : sign = [] ∨ sign = ['+']) (h : significant? body = some digits)
    (hn : plainInteger? digits = some n) : Signed (sign ++ body) n := by
  obtain ⟨zeros, text, fraction, hzeros, hfraction, rfl, hjoin, hminus⟩ := of_significant? h
  by_cases hhead : digits.head? = some '-'
  · obtain ⟨digits, rfl⟩ := List.head?_eq_some_iff.1 hhead
    rw [plainInteger?] at hn
    obtain ⟨m, hm, rfl⟩ := Option.map_eq_some_iff.1 hn
    obtain ⟨hdigits, hplain, rfl⟩ := of_plainNatural?_eq_some hm
    have hne : digits ≠ [] := by
      rintro rfl
      cases hm
    obtain ⟨more, rest, hmore, rfl, hrest⟩ := of_joinGroups?_cons hjoin hne
    have hsigned := Signed.mk (.minusBehind hsign hzeros (hminus rfl) hmore)
      (Grouped.of_joinGroups? hrest hdigits) hplain hfraction
    simpa using hsigned
  · rw [plainInteger?_of_ne hhead] at hn
    obtain ⟨m, hm, rfl⟩ := Option.map_eq_some_iff.1 hn
    obtain ⟨hdigits, hplain, rfl⟩ := of_plainNatural?_eq_some hm
    have hsigned := Signed.mk (.positive hsign hzeros) (Grouped.of_joinGroups? hjoin hdigits) hplain
      hfraction
    simpa using hsigned

theorem of_integer?_eq_some {cs : List Char} {n : Int} (h : integer? cs = some n) :
    Signed (trim cs) n := by
  unfold integer? at h
  split at h
  · rename_i body htrim
    obtain ⟨digits, hdigits, hn⟩ := Option.bind_eq_some_iff.1 h
    rw [htrim]
    exact Signed.of_unsigned (.inr rfl) hdigits hn
  · rename_i body htrim
    obtain ⟨digits, hdigits, hn⟩ := Option.bind_eq_some_iff.1 h
    rw [htrim]
    exact Signed.of_minus hdigits hn
  · obtain ⟨digits, hdigits, hn⟩ := Option.bind_eq_some_iff.1 h
    exact Signed.of_unsigned (.inl rfl) hdigits hn

/-! ### Numerals are read -/

theorem LeadingZeros.starts {zeros text digits : List Char} (hzeros : LeadingZeros zeros)
    (hgrouped : Grouped text digits) (rest : List Char) :
    ∃ c cs, zeros ++ (text ++ rest) = c :: cs ∧ c.isDigit = true := by
  cases hzeros with
  | none =>
      obtain ⟨c, cs, _, rfl, -, hc⟩ := hgrouped.starts
      exact ⟨c, _, rfl, hc⟩
  | zeros all => exact ⟨'0', _, rfl, rfl⟩

theorem ZeroFraction.ends {text digits fraction : List Char} (hgrouped : Grouped text digits)
    (h : ZeroFraction fraction) : ∃ cs c, text ++ fraction = cs ++ [c] ∧ c.isDigit = true := by
  cases h with
  | none => simpa using hgrouped.ends
  | zeros count =>
      refine ⟨text ++ '.' :: List.replicate count '0', '0', ?_, rfl⟩
      rw [List.replicate_succ', List.append_assoc, List.cons_append]

namespace Signed

variable {cs sign body : List Char} {n : Int}

theorem starts (h : Signed body n) :
    ∃ c cs, body = c :: cs ∧ (c = '+' ∨ c = '-' ∨ c.isDigit = true) := by
  obtain ⟨hfront, hgrouped, -, -⟩ := h
  cases hfront with
  | positive signs leading =>
      obtain ⟨c, cs, heq, hc⟩ := leading.starts hgrouped _
      rcases signs with rfl | rfl
      · exact ⟨c, cs, heq, .inr (.inr hc)⟩
      · exact ⟨'+', _, rfl, .inl rfl⟩
  | minus leading => exact ⟨'-', _, rfl, .inr (.inl rfl)⟩
  | minusBehind signs leading nonempty _ =>
      rcases signs with rfl | rfl
      · cases leading with
        | none => exact absurd rfl nonempty
        | zeros all => exact ⟨'0', _, rfl, .inr (.inr rfl)⟩
      · exact ⟨'+', _, rfl, .inl rfl⟩

theorem ends (h : Signed body n) : ∃ cs c, body = cs ++ [c] ∧ c.isDigit = true := by
  obtain ⟨hfront, hgrouped, -, htail⟩ := h
  obtain ⟨cs, c, heq, hc⟩ := htail.ends hgrouped
  exact ⟨_, c, by rw [heq, ← List.append_assoc], hc⟩

end Signed

theorem integer?_of_trim {cs sign body : List Char} (hsign : sign = [] ∨ sign = ['+'])
    (hbody : ∃ c rest, body = c :: rest ∧ c.isDigit = true) (htrim : trim cs = sign ++ body) :
    integer? cs = (significant? body).bind plainInteger? := by
  obtain ⟨c, rest, rfl, hc⟩ := hbody
  unfold integer?
  rcases hsign with rfl | rfl
  · rw [htrim, List.nil_append]
    split
    · rename_i heq
      cases heq
      cases hc
    · rename_i heq
      cases heq
      cases hc
    · rfl
  · rw [htrim]
    rfl

theorem Signed.integer?_eq {cs body : List Char} {n : Int} (h : Signed body n)
    (htrim : trim cs = body) : integer? cs = some n := by
  obtain ⟨hfront, hgrouped, hplain, htail⟩ := h
  rename_i negative front text fraction digits
  have hnatural := hgrouped.plainNatural?_eq hplain
  have hminus : plainInteger? ('-' :: digits) = some (-(Nat.ofDigitChars 10 digits 0 : Int)) := by
    rw [plainInteger?, hnatural]
    rfl
  cases hfront with
  | positive signs leading =>
      have hhead : digits.head? ≠ some '-' := by
        obtain ⟨c, _, _, -, rfl, hc⟩ := hgrouped.starts
        exact fun heq => isDigit_ne hc rfl (Option.some.inj heq)
      rw [List.append_assoc] at htrim
      rw [integer?_of_trim signs (leading.starts hgrouped _) htrim,
        significant?_digits leading hgrouped hplain htail, Option.bind_some,
        plainInteger?_of_ne hhead, hnatural]
      rfl
  | minus leading =>
      unfold integer?
      rw [htrim]
      show (significant? (_ ++ _)).bind _ = _
      rw [significant?_digits leading hgrouped hplain htail, Option.bind_some, hminus]
      rfl
  | minusBehind signs leading nonempty rest =>
      rename_i zeros more
      have hbody : ∃ c cs, zeros ++ '-' :: (more ++ (text ++ fraction)) = c :: cs ∧
          c.isDigit = true := by
        cases leading with
        | none => exact absurd rfl nonempty
        | zeros all => exact ⟨'0', _, rfl, rfl⟩
      rw [List.append_assoc, List.append_assoc, List.cons_append] at htrim
      rw [integer?_of_trim signs hbody htrim,
        significant?_minus leading nonempty rest hgrouped htail, Option.bind_some, hminus]
      rfl

/-! ### Blanks -/

theorem isBlank_iff (c : Char) : isBlank c = true ↔ c.toNat ∈ whiteSpace := by
  simp only [isBlank, whiteSpace, Bool.or_eq_true, Bool.and_eq_true, decide_eq_true_eq, beq_iff_eq,
    List.mem_cons, List.not_mem_nil, or_false]
  omega

theorem not_isBlank_of_isDigit {c : Char} (h : c.isDigit = true) : isBlank c = false := by
  have hdigit : 48 ≤ c.toNat ∧ c.toNat ≤ 57 := by
    simpa [Char.isDigit, UInt32.le_iff_toNat_le] using h
  simp only [isBlank, Bool.or_eq_false_iff, Bool.and_eq_false_iff, decide_eq_false_iff_not,
    beq_eq_false_iff_ne]
  omega

/-- A text is its trimmed part with white space around it. -/
theorem exists_trim (cs : List Char) : ∃ before behind, cs = before ++ (trim cs ++ behind) ∧
    (∀ c ∈ before, c.toNat ∈ whiteSpace) ∧ ∀ c ∈ behind, c.toNat ∈ whiteSpace := by
  have hblank {text : List Char} (c : Char) (hc : c ∈ text.takeWhile isBlank) :
      c.toNat ∈ whiteSpace := (isBlank_iff c).1 (List.all_eq_true.1 List.all_takeWhile c hc)
  have hfirst := List.takeWhile_append_dropWhile (p := isBlank) (l := cs)
  have hlast := List.takeWhile_append_dropWhile (p := isBlank) (l := (cs.dropWhile isBlank).reverse)
  refine ⟨cs.takeWhile isBlank, ((cs.dropWhile isBlank).reverse.takeWhile isBlank).reverse, ?_,
    hblank, fun c hc => hblank c (List.mem_reverse.1 hc)⟩
  rw [trim, ← List.reverse_append, hlast, List.reverse_reverse, hfirst]

theorem dropWhile_of_head {c : Char} (hc : isBlank c = false) (cs : List Char) :
    (c :: cs).dropWhile isBlank = c :: cs := by
  rw [List.dropWhile_cons_of_neg]
  rw [hc]
  exact Bool.false_ne_true

theorem trim_append {before body behind : List Char} (hbefore : ∀ c ∈ before, c.toNat ∈ whiteSpace)
    (hbehind : ∀ c ∈ behind, c.toNat ∈ whiteSpace)
    (hfirst : ∃ c cs, body = c :: cs ∧ isBlank c = false)
    (hlast : ∃ cs c, body = cs ++ [c] ∧ isBlank c = false) :
    trim (before ++ (body ++ behind)) = body := by
  have hbefore' : ∀ c ∈ before, isBlank c = true := fun c hc => (isBlank_iff c).2 (hbefore c hc)
  have hbehind' : ∀ c ∈ behind.reverse, isBlank c = true := fun c hc =>
    (isBlank_iff c).2 (hbehind c (List.mem_reverse.1 hc))
  have hfront : (body ++ behind).dropWhile isBlank = body ++ behind := by
    obtain ⟨c, cs, rfl, hc⟩ := hfirst
    exact dropWhile_of_head hc _
  have hback : body.reverse.dropWhile isBlank = body.reverse := by
    obtain ⟨cs, c, rfl, hc⟩ := hlast
    rw [List.reverse_append]
    exact dropWhile_of_head hc _
  rw [trim, List.dropWhile_append_of_pos hbefore', hfront, List.reverse_append,
    List.dropWhile_append_of_pos hbehind', hback, List.reverse_reverse]

/-! ### The reader decides -/

theorem integer?_eq_some_iff {cs : List Char} {n : Int} : integer? cs = some n ↔ Numeral cs n := by
  constructor
  · intro h
    obtain ⟨before, behind, hcs, hbefore, hbehind⟩ := exists_trim cs
    rw [hcs]
    exact .mk hbefore (of_integer?_eq_some h) hbehind
  · rintro ⟨hbefore, hsigned, hbehind⟩
    refine hsigned.integer?_eq (trim_append hbefore hbehind ?_ ?_)
    · obtain ⟨c, cs, heq, hc⟩ := hsigned.starts
      refine ⟨c, cs, heq, ?_⟩
      rcases hc with rfl | rfl | hc
      · decide
      · decide
      · exact not_isBlank_of_isDigit hc
    · obtain ⟨cs, c, heq, hc⟩ := hsigned.ends
      exact ⟨cs, c, heq, not_isBlank_of_isDigit hc⟩

theorem exists_minus (cs : List Char) : ∃ sign, (sign = [] ∨ sign = ['-']) ∧
    cs = sign ++ (if cs.head? = some '-' then cs.tail else cs) := by
  split
  · rename_i hhead
    obtain ⟨rest, rfl⟩ := List.head?_eq_some_iff.1 hhead
    exact ⟨['-'], .inr rfl, rfl⟩
  · exact ⟨[], .inl rfl, rfl⟩

theorem isTooLong_iff {cs : List Char} : isTooLong cs = true ↔ TooLong cs := by
  unfold isTooLong
  simp only [Bool.and_eq_true, bne_iff_ne, decide_eq_true_eq]
  constructor
  · rintro ⟨hlead, hlength⟩
    obtain ⟨sign, hsign, hcs⟩ := exists_minus cs
    generalize (if cs.head? = some '-' then cs.tail else cs) = body at hlead hlength hcs
    refine ⟨sign, body.takeWhile Char.isDigit, body.dropWhile Char.isDigit, ?_, hsign,
      List.all_eq_true.1 List.all_takeWhile, hlead, hlength⟩
    rw [List.append_assoc, List.takeWhile_append_dropWhile, hcs]
  · rintro ⟨sign, digits, rest, rfl, hsign, hdigits, hlead, hlength⟩
    obtain ⟨c, ds, rfl⟩ := List.exists_cons_of_length_pos (Nat.zero_lt_of_lt hlength)
    have hbody : (if (sign ++ c :: ds ++ rest).head? = some '-' then (sign ++ c :: ds ++ rest).tail
        else sign ++ c :: ds ++ rest) = c :: ds ++ rest := by
      rcases hsign with rfl | rfl
      · exact if_neg fun heq => isDigit_ne (hdigits c List.mem_cons_self) rfl (Option.some.inj heq)
      · rfl
    rw [hbody, List.takeWhile_append_of_pos hdigits]
    refine ⟨hlead, Nat.lt_of_lt_of_le hlength ?_⟩
    rw [List.length_append]
    exact Nat.le_add_right ..

theorem readInteger_eq_ok_iff {s : String} {n : Int} :
    readInteger s = .ok n ↔ ¬ TooLong s.toList ∧ Numeral s.toList n := by
  rw [← isTooLong_iff, ← integer?_eq_some_iff, readInteger]
  cases isTooLong s.toList <;> cases integer? s.toList <;> simp

theorem readInteger_eq_tooLong_iff {s : String} :
    readInteger s = .error .tooLong ↔ TooLong s.toList := by
  rw [← isTooLong_iff, readInteger]
  cases isTooLong s.toList <;> cases integer? s.toList <;> simp

theorem readInteger_eq_malformed_iff {s : String} :
    readInteger s = .error .malformed ↔ ¬ TooLong s.toList ∧ ∀ n, ¬ Numeral s.toList n := by
  simp only [← isTooLong_iff, ← integer?_eq_some_iff, readInteger]
  cases isTooLong s.toList <;> cases integer? s.toList <;> simp

end FunCompiler.Text
