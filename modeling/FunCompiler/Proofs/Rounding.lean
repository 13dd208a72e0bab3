import Mathlib.Algebra.Order.Field.Power
import Mathlib.Algebra.Order.Floor.Semifield
import Mathlib.Data.Rat.Floor
import Mathlib.Tactic.Linarith
import Mathlib.Tactic.Positivity
import FunCompiler.Json.Decimal

/-!
The binary number nearest to a decimal. A binary number has 53 bits and an exponent
that is not less than -1074; each is written in one form only. A number is rounded to
the nearest of them, and of two that are equally near to the one with an even
significand (`Nearest`). There is always one such number and never two, and reading a
decimal as an integer finds it.

The significand that the nearest number has is found in two steps: the binade of the
value fixes the unit, and the value is rounded to a multiple of the unit. Numbers with
a smaller unit lie below the binade, so none of them is nearer.
-/

namespace FunCompiler

/-- The number `significand * 2 ^ exponent`. The first of its 53 bits is set, unless
its exponent is the least one. -/
structure Binary where
  significand : ℕ
  exponent : ℤ
  bits : significand < 2 ^ 53
  least : -1074 ≤ exponent
  normal : 2 ^ 52 ≤ significand ∨ exponent = -1074

namespace Binary

def value (b : Binary) : ℚ := b.significand * 2 ^ b.exponent

theorem two_zpow_pos (e : ℤ) : (0 : ℚ) < 2 ^ e := zpow_pos two_pos e

theorem two_zpow_le {e f : ℤ} (h : e ≤ f) : (2 : ℚ) ^ e ≤ 2 ^ f :=
  zpow_le_zpow_right₀ one_le_two h

theorem two_zpow_add_nat (e : ℤ) (k : ℕ) : (2 : ℚ) ^ (e + k) = 2 ^ k * 2 ^ e := by
  rw [zpow_add₀ two_ne_zero, zpow_natCast, mul_comm]

theorem value_nonneg (b : Binary) : 0 ≤ b.value :=
  mul_nonneg (Nat.cast_nonneg _) (two_zpow_pos _).le

theorem value_lt (b : Binary) : b.value < 2 ^ (b.exponent + 53) := by
  have hbits : (b.significand : ℚ) < 2 ^ 53 := by exact_mod_cast b.bits
  calc b.value
    _ < 2 ^ 53 * 2 ^ b.exponent := mul_lt_mul_of_pos_right hbits (two_zpow_pos _)
    _ = 2 ^ (b.exponent + 53) := (two_zpow_add_nat b.exponent 53).symm

theorem le_value {b : Binary} (h : b.exponent ≠ -1074) : 2 ^ (b.exponent + 52) ≤ b.value := by
  have hnormal : (2 ^ 52 : ℚ) ≤ b.significand := by exact_mod_cast b.normal.resolve_right h
  calc (2 : ℚ) ^ (b.exponent + 52)
    _ = 2 ^ 52 * 2 ^ b.exponent := two_zpow_add_nat b.exponent 52
    _ ≤ b.value := mul_le_mul_of_nonneg_right hnormal (two_zpow_pos _).le

/-- A number with a smaller exponent lies below the next binade. -/
theorem value_lt_of_exponent_lt {c : Binary} {e : ℤ} (h : c.exponent < e) :
    c.value < 2 ^ (e + 52) :=
  c.value_lt.trans_le (two_zpow_le (by omega))

/-- A number is a multiple of every unit that is not larger than its own. -/
theorem value_eq_mul {b : Binary} {e : ℤ} (h : e ≤ b.exponent) :
    ∃ k : ℕ, b.value = k * 2 ^ e := by
  obtain ⟨k, hk⟩ := Int.le.dest h
  refine ⟨b.significand * 2 ^ k, ?_⟩
  rw [value, ← hk, two_zpow_add_nat, Nat.cast_mul, Nat.cast_pow, Nat.cast_ofNat, mul_assoc]

theorem value_lt_value_of_exponent_lt {b c : Binary} (h : b.exponent < c.exponent) :
    b.value < c.value := by
  have hleast := b.least
  exact (value_lt_of_exponent_lt h).trans_le (le_value (by omega))

/-- Each number has one form. -/
theorem value_injective : Function.Injective value := by
  intro b c h
  have hexponent : b.exponent = c.exponent := by
    rcases lt_trichotomy b.exponent c.exponent with hlt | heq | hgt
    · exact absurd h (value_lt_value_of_exponent_lt hlt).ne
    · exact heq
    · exact absurd h (value_lt_value_of_exponent_lt hgt).ne'
  have hsignificand : b.significand = c.significand := by
    rw [value, value, hexponent] at h
    exact_mod_cast mul_right_cancel₀ (two_zpow_pos _).ne' h
  obtain ⟨m, e, _, _, _⟩ := b
  obtain ⟨n, f, _, _, _⟩ := c
  cases hexponent
  cases hsignificand
  rfl

/-- The next larger number is at least one unit away. -/
theorem value_add_unit_le {b c : Binary} (h : b.value < c.value) :
    b.value + 2 ^ b.exponent ≤ c.value := by
  have hexponent : b.exponent ≤ c.exponent := by
    by_contra hlt
    exact absurd (value_lt_value_of_exponent_lt (not_le.1 hlt)) h.not_gt
  obtain ⟨k, hk⟩ := value_eq_mul hexponent
  have hunit := two_zpow_pos b.exponent
  rw [hk, value, mul_lt_mul_iff_left₀ hunit, Nat.cast_lt] at h
  have hsucc : (b.significand + 1 : ℚ) ≤ k := by exact_mod_cast h
  calc b.value + 2 ^ b.exponent
    _ = (b.significand + 1) * 2 ^ b.exponent := by rw [value]; ring
    _ ≤ k * 2 ^ b.exponent := mul_le_mul_of_nonneg_right hsucc hunit.le
    _ = c.value := hk.symm

/-- The number with the next significand, which is odd. -/
def next (b : Binary) (h : Even b.significand) : Binary where
  significand := b.significand + 1
  exponent := b.exponent
  bits := by
    have hbits := b.bits
    obtain ⟨k, hk⟩ := h
    omega
  least := b.least
  normal := b.normal.imp_left fun hnormal => by omega

theorem value_next (b : Binary) (h : Even b.significand) :
    (b.next h).value = b.value + 2 ^ b.exponent := by
  rw [value, value, next, Nat.cast_add, Nat.cast_one]
  ring

end Binary

/-- No number is nearer to `v`, and one that is equally near is given up only for an even
significand. -/
structure Nearest (v : ℚ) (b : Binary) : Prop where
  nearest : ∀ c : Binary, |v - b.value| ≤ |v - c.value|
  even : ∀ c : Binary, c ≠ b → |v - c.value| = |v - b.value| → Even b.significand

namespace Nearest

open Binary

variable {v : ℚ} {b c : Binary}

/-- Between two numbers with even significands there is one with an odd significand, which is
nearer to all that lies halfway between them. -/
theorem not_value_lt (hb : Nearest v b) (hc : Nearest v c) : ¬ b.value < c.value := by
  intro hlt
  have hdistance : |v - c.value| = |v - b.value| := le_antisymm (hc.nearest b) (hb.nearest c)
  have hbeven : Even b.significand := hb.even c (fun h => hlt.ne (h ▸ rfl)) hdistance
  have hceven : Even c.significand := hc.even b (fun h => hlt.ne (h ▸ rfl)) hdistance.symm
  have hmiddle : v - b.value = c.value - v := by
    rcases abs_eq_abs.1 hdistance with h | h <;> linarith
  have hnext := value_next b hbeven
  have hunit := two_zpow_pos b.exponent
  have hle : (b.next hbeven).value ≤ c.value := hnext ▸ value_add_unit_le hlt
  have hne : (b.next hbeven).value ≠ c.value := by
    intro heq
    rw [← value_injective heq] at hceven
    exact Nat.even_add_one.1 hceven hbeven
  have hnearer : |v - (b.next hbeven).value| < |v - b.value| := by
    rw [abs_of_pos (by linarith : 0 < v - b.value), abs_lt]
    constructor <;> linarith [lt_of_le_of_ne hle hne]
  exact absurd (hb.nearest _) hnearer.not_ge

theorem unique (hb : Nearest v b) (hc : Nearest v c) : b = c :=
  value_injective (le_antisymm (not_lt.1 (hc.not_value_lt hb)) (not_lt.1 (hb.not_value_lt hc)))

end Nearest

/-! ### Rounding to a multiple of a unit -/

section Unit

variable {v u : ℚ} {m : ℕ}

theorem abs_sub_multiple_le (hu : 0 < u) (hm : |v - m * u| ≤ u / 2) (k : ℕ) :
    |v - m * u| ≤ |v - k * u| ∧ (k ≠ m → |v - k * u| = |v - m * u| → |v - m * u| = u / 2) := by
  by_cases hk : k = m
  · rw [hk]
    exact ⟨le_rfl, fun h => absurd rfl h⟩
  · have hapart : (1 : ℚ) ≤ |(m : ℚ) - k| := by
      have hint : (1 : ℤ) ≤ |(m : ℤ) - k| := Int.one_le_abs (by omega)
      exact_mod_cast hint
    have hfar : u ≤ |v - k * u| + |v - m * u| := by
      calc u
        _ ≤ |(m : ℚ) - k| * u := le_mul_of_one_le_left hu.le hapart
        _ = |(v - k * u) - (v - m * u)| := by
          rw [← abs_of_pos hu, ← abs_mul, abs_of_pos hu]
          ring_nf
        _ ≤ |v - k * u| + |v - m * u| := abs_sub _ _
    exact ⟨by linarith, fun _ heq => by linarith⟩

end Unit

/-- A significand of 53 bits, or the power of two above them, has a form. -/
theorem Binary.exists_value_eq {m : ℕ} {e : ℤ} (hleast : -1074 ≤ e) (hm : m ≤ 2 ^ 53)
    (hnormal : 2 ^ 52 ≤ m ∨ e = -1074) :
    ∃ b : Binary, b.value = m * 2 ^ e ∧ (Even m → Even b.significand) := by
  rcases hm.lt_or_eq with hlt | rfl
  · exact ⟨⟨m, e, hlt, hleast, hnormal⟩, rfl, id⟩
  · refine ⟨⟨2 ^ 52, e + 1, by norm_num, by omega, .inl le_rfl⟩, ?_, fun _ => ⟨2 ^ 51, by norm_num⟩⟩
    have hcarry := two_zpow_add_nat e 1
    rw [Nat.cast_one] at hcarry
    rw [value, hcarry]
    push_cast
    ring

/-- A number is a multiple of the unit, or it lies below the binade and farther away than the
multiple that a value of the binade is rounded to. -/
theorem Binary.multiple_or_farther {v : ℚ} {e : ℤ} {m : ℕ}
    (hbinade : 2 ^ 52 * 2 ^ e ≤ v ∨ e = -1074) (hm : |v - m * 2 ^ e| ≤ 2 ^ e / 2) (c : Binary) :
    (∃ k : ℕ, c.value = k * 2 ^ e) ∨ |v - m * 2 ^ e| < |v - c.value| := by
  rcases le_or_gt e c.exponent with hle | hlt
  · exact .inl (value_eq_mul hle)
  · have hbelow := value_lt_of_exponent_lt hlt
    have hleast := c.least
    have hin : (2 ^ 52 : ℚ) * 2 ^ e ≤ v := hbinade.resolve_right (by omega)
    have hnear := (abs_sub_multiple_le (two_zpow_pos e) hm (2 ^ 52)).1
    rw [show (2 : ℚ) ^ (e + 52) = 2 ^ 52 * 2 ^ e from two_zpow_add_nat e 52] at hbelow
    rw [Nat.cast_pow, Nat.cast_ofNat, abs_of_nonneg (sub_nonneg.2 hin)] at hnear
    refine .inr (hnear.trans_lt ?_)
    rw [abs_of_pos (by linarith)]
    linarith

/-- The multiple of the unit `2 ^ e` that a value of the binade is rounded to is the nearest
number. -/
theorem exists_nearest_of_rounded {v : ℚ} {e : ℤ} {m : ℕ} (hleast : -1074 ≤ e)
    (hv : v < 2 ^ 53 * 2 ^ e) (hbinade : 2 ^ 52 * 2 ^ e ≤ v ∨ e = -1074)
    (hm : |v - m * 2 ^ e| ≤ 2 ^ e / 2) (heven : |v - m * 2 ^ e| = 2 ^ e / 2 → Even m) :
    ∃ b, Nearest v b ∧ b.value = m * 2 ^ e := by
  have hunit := Binary.two_zpow_pos e
  have hbounds := abs_le.1 hm
  have hupper : m ≤ 2 ^ 53 := by
    have hlt : (m : ℚ) * 2 ^ e < (2 ^ 53 + 1) * 2 ^ e := by linarith
    have hnat : (m : ℚ) < 2 ^ 53 + 1 := lt_of_mul_lt_mul_right hlt hunit.le
    exact Nat.lt_succ_iff.1 (by exact_mod_cast hnat)
  have hlower : 2 ^ 52 ≤ m ∨ e = -1074 := by
    refine hbinade.imp_left fun hle => ?_
    have hlt : (2 ^ 52 : ℚ) * 2 ^ e < (m + 1) * 2 ^ e := by linarith
    have hnat : (2 ^ 52 : ℚ) < m + 1 := lt_of_mul_lt_mul_right hlt hunit.le
    exact Nat.lt_succ_iff.1 (by exact_mod_cast hnat)
  obtain ⟨b, hvalue, hb⟩ := Binary.exists_value_eq hleast hupper hlower
  refine ⟨b, ⟨fun c => ?_, fun c hne heq => ?_⟩, hvalue⟩
  · rw [hvalue]
    obtain ⟨k, hk⟩ | hlt := c.multiple_or_farther hbinade hm
    · rw [hk]
      exact (abs_sub_multiple_le hunit hm k).1
    · exact hlt.le
  · rw [hvalue] at heq
    obtain ⟨k, hk⟩ | hlt := c.multiple_or_farther hbinade hm
    · rw [hk] at heq
      refine hb (heven ((abs_sub_multiple_le hunit hm k).2 ?_ heq))
      rintro rfl
      exact hne (Binary.value_injective (hk.trans hvalue.symm))
    · exact absurd heq hlt.ne'

/-! ### The number that is computed -/

namespace Decimal

/-- Rounding goes to a nearest integer, and from halfway between two to the even one. -/
theorem roundDiv_near (n : ℕ) {d : ℕ} (hd : 0 < d) :
    |(n : ℚ) / d - roundDiv n d| ≤ 1 / 2 ∧
      (|(n : ℚ) / d - roundDiv n d| = 1 / 2 → Even (roundDiv n d)) := by
  have hpos : (0 : ℚ) < d := by exact_mod_cast hd
  have hdiv : (n : ℚ) / d = (n / d : ℕ) + (n % d : ℕ) / d := by
    have hsplit : (n : ℚ) = d * (n / d : ℕ) + (n % d : ℕ) := by
      exact_mod_cast (Nat.div_add_mod n d).symm
    rw [hsplit, add_div, mul_div_cancel_left₀ _ hpos.ne']
  have hnonneg : (0 : ℚ) ≤ (n % d : ℕ) / d := by positivity
  have hlt : ((n % d : ℕ) : ℚ) / d < 1 := by
    rw [div_lt_one hpos, Nat.cast_lt]
    exact Nat.mod_lt n hd
  rw [hdiv]
  unfold roundDiv
  dsimp only
  split
  · rename_i hbelow
    have hhalf : ((n % d : ℕ) : ℚ) / d < 1 / 2 := by
      rw [div_lt_div_iff₀ hpos two_pos, one_mul, mul_comm]
      exact_mod_cast hbelow
    rw [add_sub_cancel_left, abs_of_nonneg hnonneg]
    exact ⟨hhalf.le, fun h => absurd h hhalf.ne⟩
  · split
    · rename_i habove
      have hhalf : 1 / 2 < ((n % d : ℕ) : ℚ) / d := by
        rw [div_lt_div_iff₀ two_pos hpos, one_mul, mul_comm]
        exact_mod_cast habove
      rw [Nat.cast_add, Nat.cast_one, add_sub_add_left_eq_sub, abs_of_neg (by linarith)]
      exact ⟨by linarith, fun h => absurd h (by linarith)⟩
    · rename_i hbelow habove
      have hhalf : ((n % d : ℕ) : ℚ) / d = 1 / 2 := by
        rw [div_eq_div_iff hpos.ne' two_ne_zero, one_mul, mul_comm]
        exact_mod_cast (by omega : 2 * (n % d) = d)
      rw [hhalf, Nat.cast_add, add_sub_add_left_eq_sub]
      refine ⟨?_, fun _ => ?_⟩
      · rcases Nat.mod_two_eq_zero_or_one (n / d) with h | h <;> rw [h] <;> norm_num
      · exact Nat.even_iff.2 (by omega)

/-- Shifts by the two halves of an exponent divide by the power of two. -/
theorem shifted_div (n d : ℕ) (e : ℤ) :
    ((n <<< (-e).toNat : ℕ) : ℚ) / (d <<< e.toNat : ℕ) = n / d / 2 ^ e := by
  obtain ⟨k, rfl | rfl⟩ := Int.eq_nat_or_neg e
  · simp [Nat.shiftLeft_eq, div_div]
  · simp [Nat.shiftLeft_eq]
    ring

theorem log2_bounds {n : ℕ} (hn : 0 < n) :
    (2 : ℚ) ^ (n.log2 : ℤ) ≤ n ∧ (n : ℚ) < 2 ^ (n.log2 + 1 : ℤ) := by
  have hle : 2 ^ n.log2 ≤ n := Nat.log2_self_le hn.ne'
  have hlt : n < 2 ^ (n.log2 + 1) := Nat.lt_log2_self
  exact ⟨by exact_mod_cast hle, by exact_mod_cast hlt⟩

/-- A quotient lies in the binade of its exponent. -/
theorem binaryExponent_bounds {n d : ℕ} (hn : 0 < n) (hd : 0 < d) :
    2 ^ binaryExponent n d ≤ (n : ℚ) / d ∧ (n : ℚ) / d < 2 ^ (binaryExponent n d + 1) := by
  have hpos : (0 : ℚ) < d := by exact_mod_cast hd
  obtain ⟨hn₁, hn₂⟩ := log2_bounds hn
  obtain ⟨hd₁, hd₂⟩ := log2_bounds hd
  generalize he : (n.log2 : ℤ) - d.log2 = e
  have hupper : (n : ℚ) / d < 2 ^ (e + 1) := by
    rw [div_lt_iff₀ hpos]
    calc (n : ℚ)
      _ < 2 ^ (n.log2 + 1 : ℤ) := hn₂
      _ = 2 ^ (e + 1) * 2 ^ (d.log2 : ℤ) := by
        rw [← zpow_add₀ two_ne_zero]
        congr 1
        omega
      _ ≤ 2 ^ (e + 1) * d := mul_le_mul_of_nonneg_left hd₁ (Binary.two_zpow_pos _).le
  have hlower : 2 ^ (e - 1) < (n : ℚ) / d := by
    rw [lt_div_iff₀ hpos]
    calc (2 : ℚ) ^ (e - 1) * d
      _ < 2 ^ (e - 1) * 2 ^ (d.log2 + 1 : ℤ) := mul_lt_mul_of_pos_left hd₂ (Binary.two_zpow_pos _)
      _ = 2 ^ (n.log2 : ℤ) := by
        rw [← zpow_add₀ two_ne_zero]
        congr 1
        omega
      _ ≤ n := hn₁
  -- the shifted numbers are compared where the logarithms leave two binades
  have hcompare : n <<< (-e).toNat < d <<< e.toNat ↔ (n : ℚ) / d < 2 ^ e := by
    have hshifted : (0 : ℚ) < (d <<< e.toNat : ℕ) := by
      rw [Nat.shiftLeft_eq]
      positivity
    rw [← div_lt_one (Binary.two_zpow_pos e), ← shifted_div, div_lt_one hshifted, Nat.cast_lt]
  unfold binaryExponent
  simp only [he]
  split
  · rename_i hlt
    exact ⟨hlower.le, by simpa using hcompare.1 hlt⟩
  · rename_i hge
    exact ⟨not_lt.1 (mt hcompare.2 hge), hupper⟩

/-- Rounding the shifted quotient is rounding the quotient to a multiple of `2 ^ e`. -/
theorem roundDiv_shifted_near (n : ℕ) {d : ℕ} (hd : 0 < d) (e : ℤ) :
    |(n : ℚ) / d - roundDiv (n <<< (-e).toNat) (d <<< e.toNat) * 2 ^ e| ≤ 2 ^ e / 2 ∧
      (|(n : ℚ) / d - roundDiv (n <<< (-e).toNat) (d <<< e.toNat) * 2 ^ e| = 2 ^ e / 2 →
        Even (roundDiv (n <<< (-e).toNat) (d <<< e.toNat))) := by
  have hunit := Binary.two_zpow_pos e
  have hshifted : 0 < d <<< e.toNat := by
    rw [Nat.shiftLeft_eq]
    positivity
  obtain ⟨hnear, heven⟩ := roundDiv_near (n <<< (-e).toNat) hshifted
  generalize roundDiv (n <<< (-e).toNat) (d <<< e.toNat) = m at hnear heven ⊢
  have hscale : |(n : ℚ) / d - m * 2 ^ e| =
      |((n <<< (-e).toNat : ℕ) : ℚ) / (d <<< e.toNat : ℕ) - m| * 2 ^ e := by
    rw [shifted_div, ← abs_of_pos hunit, ← abs_mul, abs_of_pos hunit, sub_mul,
      div_mul_cancel₀ _ hunit.ne']
  rw [hscale]
  refine ⟨?_, fun htie => heven (mul_right_cancel₀ hunit.ne' (htie.trans (by ring)))⟩
  linarith [mul_le_mul_of_nonneg_right hnear hunit.le]

theorem nearest_zero : ∃ b, Nearest 0 b ∧ b.value = 0 := by
  refine ⟨⟨0, -1074, by norm_num, le_rfl, .inr rfl⟩, ⟨fun c => ?_, fun _ _ _ => ⟨0, rfl⟩⟩, ?_⟩
  · simpa [Binary.value] using c.value_nonneg
  · simp [Binary.value]

/-- The number that is computed is the nearest one. -/
theorem nearest_spec (n : ℕ) {d : ℕ} (hd : 0 < d) :
    ∃ b, Nearest (n / d) b ∧ b.value = (nearest n d).1 * 2 ^ (nearest n d).2 := by
  unfold nearest
  split
  · rename_i hn
    simpa [hn] using nearest_zero
  · rename_i hn
    obtain ⟨hlower, hupper⟩ := binaryExponent_bounds (Nat.pos_of_ne_zero hn) hd
    dsimp only
    generalize he : max (binaryExponent n d - 52) (-1074) = e
    obtain ⟨hnear, heven⟩ := roundDiv_shifted_near n hd e
    refine exists_nearest_of_rounded (by omega) ?_ ?_ hnear heven
    · calc (n : ℚ) / d
        _ < 2 ^ (binaryExponent n d + 1) := hupper
        _ ≤ 2 ^ (e + (53 : ℕ)) := Binary.two_zpow_le (by omega)
        _ = 2 ^ 53 * 2 ^ e := Binary.two_zpow_add_nat e 53
    · rcases le_or_gt e (-1074) with hle | hlt
      · exact .inr (by omega)
      · left
        calc (2 : ℚ) ^ 52 * 2 ^ e
          _ = 2 ^ (e + (52 : ℕ)) := (Binary.two_zpow_add_nat e 52).symm
          _ ≤ 2 ^ binaryExponent n d := Binary.two_zpow_le (by omega)
          _ ≤ n / d := hlower

/-! ### Decimals as integers -/

def value (d : Decimal) : ℚ := d.mantissa * 10 ^ d.exponent

theorem abs_value (d : Decimal) :
    |d.value| = (d.mantissa.natAbs * Nat.pow 10 d.exponent.toNat : ℕ) /
      (Nat.pow 10 (-d.exponent).toNat : ℕ) := by
  obtain ⟨mantissa, exponent⟩ := d
  obtain ⟨k, rfl | rfl⟩ := Int.eq_nat_or_neg exponent
  · simp [value, abs_mul, Nat.cast_natAbs]
  · simp [value, abs_mul, Nat.cast_natAbs, div_eq_mul_inv]

/-- The whole part of `m * 2 ^ e`, and when it is all of it. -/
theorem whole_part (m : ℕ) (e : ℤ) :
    (m / 2 ^ (-e).toNat) <<< e.toNat = ⌊(m : ℚ) * 2 ^ e⌋₊ ∧
      (m % 2 ^ (-e).toNat = 0 ↔ ∃ n : ℕ, (m : ℚ) * 2 ^ e = n) := by
  obtain ⟨k, rfl | rfl⟩ := Int.eq_nat_or_neg e
  · have hvalue : (m : ℚ) * 2 ^ (k : ℤ) = (m * 2 ^ k : ℕ) := by
      rw [zpow_natCast, Nat.cast_mul, Nat.cast_pow, Nat.cast_ofNat]
    rw [hvalue, Nat.floor_natCast]
    refine ⟨?_, fun _ => ⟨_, rfl⟩, fun _ => ?_⟩
    · simp [Nat.shiftLeft_eq]
    · simp [Nat.mod_one]
  · have hvalue : (m : ℚ) * 2 ^ (-(k : ℤ)) = m / (2 ^ k : ℕ) := by
      rw [zpow_neg, zpow_natCast, Nat.cast_pow, Nat.cast_ofNat, div_eq_mul_inv]
    have hpos : ((2 ^ k : ℕ) : ℚ) ≠ 0 := by positivity
    rw [hvalue, neg_neg, Int.toNat_natCast]
    refine ⟨?_, fun hmod => ?_, ?_⟩
    · rw [Nat.floor_div_natCast, Nat.floor_natCast]
      simp
    · obtain ⟨n, rfl⟩ := Nat.dvd_of_mod_eq_zero hmod
      exact ⟨n, by rw [Nat.cast_mul, mul_div_cancel_left₀ _ hpos]⟩
    · rintro ⟨n, hn⟩
      rw [div_eq_iff hpos] at hn
      have hnat : m = n * 2 ^ k := by exact_mod_cast hn
      rw [hnat, Nat.mul_mod_left]

/-- The number nearest to the decimal is of size `q`. -/
def Rounds (d : Decimal) (q : ℚ) : Prop := ∃ b, Nearest |d.value| b ∧ b.value = q

theorem rounds_nearest (d : Decimal) : ∃ m e,
    nearest (d.mantissa.natAbs * Nat.pow 10 d.exponent.toNat) (Nat.pow 10 (-d.exponent).toNat) =
      (m, e) ∧ d.Rounds (m * 2 ^ e) := by
  have hpos : 0 < Nat.pow 10 (-d.exponent).toNat := Nat.pow_pos (by decide)
  obtain ⟨b, hnearest, hvalue⟩ :=
    nearest_spec (d.mantissa.natAbs * Nat.pow 10 d.exponent.toNat) hpos
  rw [← abs_value] at hnearest
  exact ⟨_, _, rfl, b, hnearest, hvalue⟩

theorem Rounds.unique {d : Decimal} {q r : ℚ} (hq : d.Rounds q) (hr : d.Rounds r) : q = r := by
  obtain ⟨b, hb, rfl⟩ := hq
  obtain ⟨c, hc, rfl⟩ := hr
  rw [hb.unique hc]

/-- A decimal is read off the whole part of its nearest number, and what is left behind the
whole part. -/
theorem Rounds.toInt_eq {d : Decimal} {q : ℚ} (h : d.Rounds q) :
    ∃ rest : ℕ, (rest = 0 ↔ ∃ n : ℕ, q = n) ∧
      d.toInt =
        if 2 ^ 1024 ≤ ⌊q⌋₊ then .error .notFinite
        else if rest ≠ 0 then .error .fraction
        else if 2 ^ 63 ≤ ⌊q⌋₊ then .error .tooLarge
        else .ok (d.mantissa.sign * ⌊q⌋₊) := by
  obtain ⟨m, e, hnearest, hrounds⟩ := d.rounds_nearest
  obtain ⟨hwhole, hrest⟩ := whole_part m e
  rw [h.unique hrounds]
  refine ⟨m % 2 ^ (-e).toNat, hrest, ?_⟩
  rw [toInt, hnearest]
  -- no power of two is to be evaluated
  generalize 1024 = k
  simp only [Nat.one_shiftLeft, hwhole]

theorem le_floor_iff {q : ℚ} (k : ℕ) : 2 ^ k ≤ ⌊q⌋₊ ↔ 2 ^ k ≤ q := by
  rw [Nat.le_floor_iff' (Nat.two_pow_pos k).ne', Nat.cast_pow, Nat.cast_ofNat]

variable {d : Decimal} {q : ℚ} {n : ℕ}

theorem toInt_eq_notFinite (h : d.Rounds q) (hq : 2 ^ 1024 ≤ q) : d.toInt = .error .notFinite := by
  obtain ⟨rest, -, heq⟩ := h.toInt_eq
  rw [heq, if_pos ((le_floor_iff 1024).2 hq)]

theorem toInt_eq_fraction (h : d.Rounds q) (hfinite : q < 2 ^ 1024) (hq : ∀ n : ℕ, q ≠ n) :
    d.toInt = .error .fraction := by
  obtain ⟨rest, hzero, heq⟩ := h.toInt_eq
  have hrest : rest ≠ 0 := fun hrest => (hzero.1 hrest).elim hq
  rw [heq, if_neg (mt (le_floor_iff 1024).1 hfinite.not_ge), if_pos hrest]

theorem toInt_eq_tooLarge (h : d.Rounds n) (hfinite : (n : ℚ) < 2 ^ 1024) (hn : 2 ^ 63 ≤ n) :
    d.toInt = .error .tooLarge := by
  obtain ⟨rest, hzero, heq⟩ := h.toInt_eq
  have hrest : rest = 0 := hzero.2 ⟨n, rfl⟩
  rw [heq, if_neg (mt (le_floor_iff 1024).1 hfinite.not_ge), if_neg (not_not.2 hrest),
    Nat.floor_natCast, if_pos hn]

theorem toInt_eq_ok (h : d.Rounds n) (hn : n < 2 ^ 63) : d.toInt = .ok (d.mantissa.sign * n) := by
  obtain ⟨rest, hzero, heq⟩ := h.toInt_eq
  have hrest : rest = 0 := hzero.2 ⟨n, rfl⟩
  have hfinite : (n : ℚ) < 2 ^ 1024 := by
    have hsmall : (n : ℚ) < 2 ^ 63 := by exact_mod_cast hn
    exact hsmall.trans (pow_lt_pow_right₀ one_lt_two (by norm_num))
  rw [heq, if_neg (mt (le_floor_iff 1024).1 hfinite.not_ge), if_neg (not_not.2 hrest),
    Nat.floor_natCast, if_neg hn.not_ge]

/-- A decimal is not finite, not whole, too large, or an integer. -/
theorem rounds_cases (d : Decimal) : ∃ q, d.Rounds q ∧
    (2 ^ 1024 ≤ q ∨ (q < 2 ^ 1024 ∧ ∀ n : ℕ, q ≠ n) ∨
      ∃ n : ℕ, q = n ∧ ((q < 2 ^ 1024 ∧ 2 ^ 63 ≤ n) ∨ n < 2 ^ 63)) := by
  obtain ⟨m, e, -, hrounds⟩ := d.rounds_nearest
  generalize (m : ℚ) * 2 ^ e = q at hrounds
  refine ⟨q, hrounds, ?_⟩
  rcases le_or_gt (2 ^ 1024) q with hq | hq
  · exact .inl hq
  · by_cases hwhole : ∃ n : ℕ, q = n
    · obtain ⟨n, hn⟩ := hwhole
      exact .inr (.inr ⟨n, hn, (le_or_gt (2 ^ 63) n).imp_left fun hle => ⟨hq, hle⟩⟩)
    · exact .inr (.inl ⟨hq, not_exists.1 hwhole⟩)

end Decimal

end FunCompiler
