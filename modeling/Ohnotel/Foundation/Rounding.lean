/-
# Rounding whole numbers

A number is rounded to the nearest number of so many binary digits and, if two are equally
near, to the one that is even at its last digit.  Whether two numbers are rounded apart
can be told without rounding them: there is the middle between two neighbours that one is
below and the other is not.
-/

import Mathlib.Algebra.Order.Ring.Int
import Mathlib.Algebra.Order.Group.Int
import Mathlib.Data.List.Chain
import Mathlib.Tactic.Ring
import Mathlib.Tactic.Linarith

namespace Foundation

/-- How many of the last binary digits of a number are rounded off. -/
def excess (digits n : Nat) : Nat := n.log2 + 1 - digits

/-- The nearest number of so many binary digits, the even one of two. -/
def roundNat (digits n : Nat) : Nat :=
  let step := 2 ^ excess digits n
  if 2 * (n % step) < step ∨ 2 * (n % step) = step ∧ n / step % 2 = 0 then n / step * step
  else (n / step + 1) * step

/-- Round a number, the same way on both sides of zero. -/
def roundEven (digits : Nat) (n : Int) : Int := n.sign * roundNat digits n.natAbs

/-- `q * 2 ^ e` and `(q + 1) * 2 ^ e` have so many binary digits, and no number between
them has. -/
structure Neighbours (digits : Nat) (q : Int) (e : Nat) : Prop where
  close : e = 0 ∨ 2 ^ (digits - 1) ≤ q ∨ q < -2 ^ (digits - 1)
  lower : -2 ^ digits ≤ q
  upper : q < 2 ^ digits

/-- A number is nearer to `q * 2 ^ e` than to `(q + 1) * 2 ^ e`, or as near and `q` is
even. -/
def Below (q : Int) (e : Nat) (n : Int) : Prop :=
  2 * n < (2 * q + 1) * 2 ^ e ∨ 2 * n = (2 * q + 1) * 2 ^ e ∧ q % 2 = 0

instance (q : Int) (e : Nat) (n : Int) : Decidable (Below q e n) :=
  inferInstanceAs (Decidable (_ ∨ _))

/-- Between two neighbours is a middle that one number is below and the other is not. -/
def Separated (digits : Nat) (first second : Int) : Prop :=
  ∃ q e, Neighbours digits q e ∧ Below q e first ∧ ¬ Below q e second

variable {digits : Nat}

/-! ## Numbers that are not negative -/

theorem div_excess_lt (n : Nat) : n / 2 ^ excess digits n < 2 ^ digits := by
  rw [Nat.div_lt_iff_lt_mul (Nat.two_pow_pos _), ← Nat.pow_add]
  apply Nat.lt_log2_self.trans_le
  apply Nat.pow_le_pow_right Nat.two_pos
  rw [excess]
  omega

theorem le_div_excess (hdigits : 0 < digits) {n : Nat} (hn : excess digits n ≠ 0) :
    2 ^ (digits - 1) ≤ n / 2 ^ excess digits n := by
  rw [Nat.le_div_iff_mul_le (Nat.two_pow_pos _), ← Nat.pow_add]
  have hne : n ≠ 0 := by
    intro hzero
    rw [hzero, excess, Nat.log2_zero] at hn
    omega
  rw [show digits - 1 + excess digits n = n.log2 by rw [excess] at hn ⊢; omega]
  exact Nat.log2_self_le hne

theorem div_mul_le_roundNat (n : Nat) :
    n / 2 ^ excess digits n * 2 ^ excess digits n ≤ roundNat digits n := by
  rw [roundNat]
  split
  · exact le_rfl
  · exact Nat.mul_le_mul_right _ (Nat.le_succ _)

theorem roundNat_le_div_succ_mul (n : Nat) :
    roundNat digits n ≤ (n / 2 ^ excess digits n + 1) * 2 ^ excess digits n := by
  rw [roundNat]
  split
  · exact Nat.mul_le_mul_right _ (Nat.le_succ _)
  · exact le_rfl

/-- On the side of its own neighbours where a number is rounded to. -/
theorem below_div_iff (n : Nat) {e : Nat} :
    Below (n / 2 ^ e : Nat) e n ↔
      2 * (n % 2 ^ e) < 2 ^ e ∨ 2 * (n % 2 ^ e) = 2 ^ e ∧ n / 2 ^ e % 2 = 0 := by
  have hn := Nat.div_add_mod' n (2 ^ e)
  have hmiddle : (2 * ((n / 2 ^ e : Nat) : Int) + 1) * 2 ^ e =
      ((2 * (n / 2 ^ e * 2 ^ e) + 2 ^ e : Nat) : Int) := by
    push_cast
    ring
  rw [Below, hmiddle]
  omega

/-- A number is rounded to one of two neighbours, or away from both. -/
def RoundedBy (digits q e n : Nat) : Prop :=
  (Below q e n → roundNat digits n ≤ q * 2 ^ e) ∧
    (¬ Below q e n → (q + 1) * 2 ^ e ≤ roundNat digits n)

/-- The number is beyond the two neighbours. -/
theorem roundedBy_of_le {q e n : Nat}
    (hle : (q + 1) * 2 ^ e ≤ n / 2 ^ excess digits n * 2 ^ excess digits n) :
    RoundedBy digits q e n := by
  refine ⟨fun hbelow => ?_, fun _ => hle.trans (div_mul_le_roundNat n)⟩
  have hn := Nat.div_mul_le_self n (2 ^ excess digits n)
  have hpos := Nat.two_pow_pos e
  have hmiddle : (2 * (q : Int) + 1) * 2 ^ e < 2 * n := by
    zify at hle hn hpos
    nlinarith
  rw [Below] at hbelow
  omega

/-- The number comes before the two neighbours. -/
theorem roundedBy_of_ge {q e n : Nat}
    (hle : (n / 2 ^ excess digits n + 1) * 2 ^ excess digits n ≤ q * 2 ^ e) :
    RoundedBy digits q e n := by
  refine ⟨fun _ => (roundNat_le_div_succ_mul n).trans hle, fun hnot => ?_⟩
  have hn := Nat.lt_div_mul_add (a := n) (Nat.two_pow_pos (excess digits n))
  have hpos := Nat.two_pow_pos e
  have hmiddle : 2 * (n : Int) < (2 * (q : Int) + 1) * 2 ^ e := by
    zify at hle hn hpos
    nlinarith
  exact absurd (.inl hmiddle) hnot

theorem roundedBy_excess (q n : Nat) : RoundedBy digits q (excess digits n) n := by
  rcases lt_trichotomy q (n / 2 ^ excess digits n) with hlt | rfl | hlt
  · exact roundedBy_of_le (Nat.mul_le_mul_right _ hlt)
  · rw [RoundedBy, below_div_iff, roundNat]
    exact ⟨fun hbelow => (if_pos hbelow).le, fun hnot => (if_neg hnot).ge⟩
  · exact roundedBy_of_ge (Nat.mul_le_mul_right _ hlt)

/-- What is below a middle is not rounded beyond the lower neighbour, and what is not is
rounded no less than to the upper one. -/
theorem roundedBy_of_neighbours (hdigits : 0 < digits) {q e : Nat}
    (hclose : e = 0 ∨ 2 ^ (digits - 1) ≤ q) (hq : q < 2 ^ digits) (n : Nat) :
    RoundedBy digits q e n := by
  have hpow : 2 ^ digits = 2 * 2 ^ (digits - 1) := by
    rw [← Nat.pow_succ', Nat.succ_eq_add_one, Nat.sub_add_cancel hdigits]
  rcases lt_trichotomy e (excess digits n) with hlt | rfl | hlt
  · apply roundedBy_of_le
    calc (q + 1) * 2 ^ e ≤ 2 ^ digits * 2 ^ e := Nat.mul_le_mul_right _ hq
      _ = 2 ^ (digits - 1) * 2 ^ (e + 1) := by rw [hpow]; ring
      _ ≤ n / 2 ^ excess digits n * 2 ^ excess digits n :=
          Nat.mul_le_mul (le_div_excess hdigits (by omega))
            (Nat.pow_le_pow_right Nat.two_pos hlt)
  · exact roundedBy_excess q n
  · apply roundedBy_of_ge
    calc (n / 2 ^ excess digits n + 1) * 2 ^ excess digits n
        ≤ 2 ^ digits * 2 ^ excess digits n := Nat.mul_le_mul_right _ (div_excess_lt n)
      _ = 2 ^ (digits - 1) * 2 ^ (excess digits n + 1) := by rw [hpow]; ring
      _ ≤ q * 2 ^ e :=
          Nat.mul_le_mul (hclose.resolve_left (by omega))
            (Nat.pow_le_pow_right Nat.two_pos hlt)

/-- A number is rounded to the lower one of two neighbours. -/
theorem exists_roundNat_eq (hdigits : 0 < digits) (n : Nat) :
    ∃ q e, (e = 0 ∨ 2 ^ (digits - 1) ≤ q) ∧ q < 2 ^ digits ∧ roundNat digits n = q * 2 ^ e := by
  have hbound : n / 2 ^ excess digits n < 2 ^ digits := div_excess_lt n
  have hclose : excess digits n = 0 ∨ 2 ^ (digits - 1) ≤ n / 2 ^ excess digits n :=
    (eq_or_ne _ _).imp_right (le_div_excess hdigits)
  rw [roundNat]
  split
  · exact ⟨_, _, hclose, hbound, rfl⟩
  · rcases Nat.lt_or_eq_of_le (Nat.succ_le_of_lt hbound) with hlt | heq
    · exact ⟨_, _, hclose.imp_right fun h => h.trans (Nat.le_succ _), hlt, rfl⟩
    · refine ⟨2 ^ (digits - 1), excess digits n + 1, .inr le_rfl,
        Nat.pow_lt_pow_right Nat.one_lt_two (by omega), ?_⟩
      rw [← Nat.succ_eq_add_one, heq, ← Nat.pow_add, ← Nat.pow_add]
      congr 1
      omega

/-! ## Both sides of zero -/

theorem roundEven_natCast (n : Nat) : roundEven digits n = roundNat digits n := by
  cases n with
  | zero => simp [roundEven, roundNat]
  | succ n =>
      have hsign : ((n + 1 : Nat) : Int).sign = 1 := Int.sign_eq_one_of_pos (by omega)
      rw [roundEven, hsign, one_mul, Int.natAbs_natCast]

theorem roundEven_neg (n : Int) : roundEven digits (-n) = -roundEven digits n := by
  rw [roundEven, roundEven, Int.sign_neg, Int.natAbs_neg, neg_mul]

/-- Mirrored at zero, the upper neighbour is the lower one. -/
theorem below_neg_iff {q : Int} {e : Nat} {n : Int} :
    Below (-(q + 1)) e (-n) ↔ ¬ Below q e n := by
  have hmiddle : (2 * -(q + 1) + 1) * 2 ^ e = -((2 * q + 1) * 2 ^ e) := by ring
  rw [Below, Below, hmiddle]
  omega

theorem Neighbours.neg {q : Int} {e : Nat} (h : Neighbours digits q e) :
    Neighbours digits (-(q + 1)) e where
  close := by
    have := h.close
    omega
  lower := by
    have := h.upper
    omega
  upper := by
    have := h.lower
    omega

theorem roundEven_natCast_of_neighbours (hdigits : 0 < digits) {q : Int} {e : Nat}
    (h : Neighbours digits q e) (n : Nat) :
    (Below q e n → roundEven digits n ≤ q * 2 ^ e) ∧
      (¬ Below q e n → (q + 1) * 2 ^ e ≤ roundEven digits n) := by
  rw [roundEven_natCast]
  rcases lt_or_ge q 0 with hneg | hnonneg
  · have hpos : (0 : Int) < 2 ^ e := by positivity
    have hnot : ¬ Below q e n := by
      have : (2 * q + 1) * 2 ^ e < 0 := by nlinarith
      rw [Below]
      omega
    refine ⟨fun hbelow => absurd hbelow hnot, fun _ => ?_⟩
    have : (q + 1) * 2 ^ e ≤ 0 := by nlinarith
    omega
  · lift q to Nat using hnonneg
    obtain ⟨hclose, _, hupper⟩ := h
    have hclose' : e = 0 ∨ 2 ^ (digits - 1) ≤ q := by
      have := Nat.two_pow_pos (digits - 1)
      zify at *
      omega
    have hrounded := roundedBy_of_neighbours hdigits hclose' (by exact_mod_cast hupper) n
    rw [RoundedBy] at hrounded
    exact_mod_cast hrounded

theorem roundEven_of_neighbours (hdigits : 0 < digits) {q : Int} {e : Nat}
    (h : Neighbours digits q e) (n : Int) :
    (Below q e n → roundEven digits n ≤ q * 2 ^ e) ∧
      (¬ Below q e n → (q + 1) * 2 ^ e ≤ roundEven digits n) := by
  rcases le_total 0 n with hn | hn
  · lift n to Nat using hn
    exact roundEven_natCast_of_neighbours hdigits h n
  · obtain ⟨m, rfl⟩ := Int.exists_eq_neg_ofNat hn
    have hmirror := roundEven_natCast_of_neighbours hdigits h.neg m
    have hswap := below_neg_iff (q := q) (e := e) (n := -(m : Int))
    rw [neg_neg] at hswap
    rw [roundEven_neg]
    constructor
    · intro hbelow
      have := hmirror.2 fun habove => hswap.mp habove hbelow
      linarith
    · intro hnot
      have := hmirror.1 (hswap.mpr hnot)
      linarith

/-! ## Rounding apart -/

theorem roundEven_lt_of_separated (hdigits : 0 < digits) {first second : Int}
    (h : Separated digits first second) : roundEven digits first < roundEven digits second := by
  obtain ⟨q, e, hneighbours, hfirst, hsecond⟩ := h
  have hpos : (0 : Int) < 2 ^ e := by positivity
  calc roundEven digits first ≤ q * 2 ^ e :=
        (roundEven_of_neighbours hdigits hneighbours first).1 hfirst
    _ < (q + 1) * 2 ^ e := by linarith
    _ ≤ roundEven digits second :=
        (roundEven_of_neighbours hdigits hneighbours second).2 hsecond

theorem Separated.neg {first second : Int} (h : Separated digits first second) :
    Separated digits (-second) (-first) := by
  obtain ⟨q, e, hneighbours, hfirst, hsecond⟩ := h
  exact ⟨-(q + 1), e, hneighbours.neg, below_neg_iff.mpr hsecond,
    fun hbelow => below_neg_iff.mp hbelow hfirst⟩

theorem separated_of_roundEven_lt_nonneg (hdigits : 0 < digits) {first : Nat} {second : Int}
    (h : roundEven digits first < roundEven digits second) :
    Separated digits first second := by
  obtain ⟨q, e, hclose, hq, hround⟩ := exists_roundNat_eq hdigits first
  have hneighbours : Neighbours digits q e := by
    constructor
    · exact hclose.imp_right fun hle => .inl (by exact_mod_cast hle)
    · have : (0 : Int) < 2 ^ digits := by positivity
      omega
    · exact_mod_cast hq
  have hfirst : roundEven digits first = q * 2 ^ e := by
    rw [roundEven_natCast, hround]
    push_cast
    rfl
  have hpos : (0 : Int) < 2 ^ e := by positivity
  refine ⟨q, e, hneighbours, ?_, fun hbelow => ?_⟩
  · by_contra hnot
    have := (roundEven_of_neighbours hdigits hneighbours first).2 hnot
    linarith
  · have := (roundEven_of_neighbours hdigits hneighbours second).1 hbelow
    linarith

/-- The middle right above zero is between numbers on its two sides. -/
theorem separated_of_signs {first second : Int} (hfirst : first ≤ 0) (hsecond : 0 < second) :
    Separated digits first second := by
  have hpos : (0 : Int) < 2 ^ digits := by positivity
  refine ⟨0, 0, ⟨.inl rfl, by omega, hpos⟩, ?_, ?_⟩
  · rw [Below]
    omega
  · rw [Below]
    omega

/-- Numbers are rounded to different ones, in their order, exactly if they are separated. -/
theorem roundEven_lt_iff (hdigits : 0 < digits) {first second : Int} :
    roundEven digits first < roundEven digits second ↔ Separated digits first second := by
  refine ⟨fun h => ?_, roundEven_lt_of_separated hdigits⟩
  rcases le_total 0 first with hfirst | hfirst
  · lift first to Nat using hfirst
    exact separated_of_roundEven_lt_nonneg hdigits h
  · rcases lt_or_ge 0 second with hsecond | hsecond
    · exact separated_of_signs hfirst hsecond
    · obtain ⟨mirrored, rfl⟩ := Int.exists_eq_neg_ofNat hsecond
      have hmirrored : roundEven digits mirrored < roundEven digits (-first) := by
        rw [roundEven_neg] at h ⊢
        omega
      simpa using (separated_of_roundEven_lt_nonneg hdigits hmirrored).neg

theorem Below.anti {q : Int} {e : Nat} {first second : Int} (hle : first ≤ second)
    (h : Below q e second) : Below q e first := by
  rw [Below] at h ⊢
  omega

theorem roundEven_mono (hdigits : 0 < digits) {first second : Int} (hle : first ≤ second) :
    roundEven digits first ≤ roundEven digits second := by
  by_contra hlt
  obtain ⟨q, e, _, hsecond, hfirst⟩ := (roundEven_lt_iff hdigits).mp (not_le.mp hlt)
  exact hfirst (hsecond.anti hle)

/-! ## Lists -/

/-- Numbers stay in increasing order when they are rounded, exactly if each is separated
from the next. -/
theorem pairwise_roundEven_iff (hdigits : 0 < digits) {values : List Int} :
    (values.map (roundEven digits)).Pairwise (· < ·) ↔ values.IsChain (Separated digits) := by
  rw [← List.isChain_iff_pairwise, List.isChain_map]
  simp only [roundEven_lt_iff hdigits]

/-- Increasing numbers are rounded to different ones exactly if each is separated from the
next. -/
theorem nodup_roundEven_iff (hdigits : 0 < digits) {values : List Int}
    (hvalues : values.Pairwise (· < ·)) :
    (values.map (roundEven digits)).Nodup ↔ values.IsChain (Separated digits) := by
  rw [← pairwise_roundEven_iff hdigits]
  have hmono : (values.map (roundEven digits)).Pairwise (· ≤ ·) :=
    List.pairwise_map.mpr (hvalues.imp fun hlt => roundEven_mono hdigits hlt.le)
  constructor
  · intro hnodup
    exact (hmono.and hnodup).imp fun h => lt_of_le_of_ne h.1 h.2
  · intro hlt
    exact hlt.imp ne_of_lt

example : Separated 2 (-4) (-3) ∧ ¬ Separated 2 4 5 := by
  rw [← roundEven_lt_iff (by decide), ← roundEven_lt_iff (by decide)]
  decide

end Foundation
