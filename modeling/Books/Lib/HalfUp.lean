import Mathlib.Algebra.Order.Field.Rat
import Mathlib.Algebra.Order.Ring.Abs
import Mathlib.Algebra.Order.Ring.Int
import Mathlib.Order.Lattice
import Mathlib.Tactic.Linarith
import Mathlib.Tactic.Ring

/-!
# 一桁ずつの四捨五入

十進の数を、下の桁から一桁ずつ四捨五入して短くする。一度に四捨五入した値とは、一致するとは限らない。長くするときは、限りに届くまで一桁ずつ
伸ばす。
-/

namespace Books.Lib

variable {n m : Nat}

/-- 一番下の桁の四捨五入。 -/
def roundDigit (m : Nat) : Nat := m / 10 + if 5 ≤ m % 10 then 1 else 0

/-- 下の `n` 桁を、一桁ずつ四捨五入する。 -/
def roundDigits : Nat → Nat → Nat
  | 0, m => m
  | n + 1, m => roundDigits n (roundDigit m)

/-- `5` を `n` 個並べた数。 -/
def fives : Nat → Nat
  | 0 => 0
  | n + 1 => 10 * fives n + 5

theorem roundDigit_eq (m : Nat) : roundDigit m = (m + 5) / 10 := by
  rw [roundDigit]
  split <;> omega

theorem fives_eq (n : Nat) : 9 * fives n + 5 = 5 * 10 ^ n := by
  induction n with
  | zero => rfl
  | succ n ih =>
      rw [fives, Nat.pow_succ]
      omega

/-- 一桁ずつの四捨五入は、`5` の並びを足して切り捨てるのと同じである。 -/
theorem roundDigits_eq (n m : Nat) : roundDigits n m = (m + fives n) / 10 ^ n := by
  induction n generalizing m with
  | zero => simp [roundDigits, fives]
  | succ n ih =>
      have hsum : (m + 5) / 10 + fives n = (m + fives (n + 1)) / 10 := by
        rw [fives]
        omega
      rw [roundDigits, ih, roundDigit_eq, hsum, Nat.div_div_eq_div_mul, ← Nat.pow_succ']

/-- 切り上げるのは、落とす部分が `44…4` を超えるときである。 -/
theorem roundDigits_cases (n m : Nat) :
    roundDigits n m = m / 10 ^ n + if 4 * (10 ^ n - 1) < 9 * (m % 10 ^ n) then 1 else 0 := by
  have hp : 0 < 10 ^ n := Nat.pow_pos (by decide)
  have hr : m % 10 ^ n < 10 ^ n := Nat.mod_lt m hp
  have h5 := fives_eq n
  rw [roundDigits_eq]
  conv_lhs => rw [← Nat.div_add_mod m (10 ^ n), Nat.add_assoc, Nat.mul_add_div hp]
  congr 1
  split
  · exact Nat.div_eq_of_lt_le (by omega) (by omega)
  · exact Nat.div_eq_of_lt (by omega)

theorem roundDigits_zero (n : Nat) : roundDigits n 0 = 0 := by
  induction n with
  | zero => rfl
  | succ n ih => exact ih

theorem roundDigits_le (n m : Nat) : roundDigits n m ≤ max m 1 := by
  rw [roundDigits_cases]
  rcases Nat.eq_zero_or_pos n with rfl | hn
  · simp [Nat.mod_one]
  · have hdiv : m / 10 ^ n ≤ m / 10 := Nat.div_le_div_left (Nat.le_self_pow hn.ne' 10) (by decide)
    split <;> omega

theorem roundDigits_eq_zero (n m : Nat) : roundDigits n m = 0 ↔ 9 * m ≤ 4 * (10 ^ n - 1) ∨ m = 0 := by
  have hp : 0 < 10 ^ n := Nat.pow_pos (by decide)
  rw [roundDigits_cases]
  constructor
  · intro h
    have hlt : m < 10 ^ n := (Nat.div_eq_zero_iff_lt hp).1 (Nat.eq_zero_of_add_eq_zero_right h)
    rw [Nat.mod_eq_of_lt hlt, Nat.div_eq_of_lt hlt] at h
    split at h <;> omega
  · rintro (h | rfl)
    · have hlt : m < 10 ^ n := by omega
      rw [Nat.mod_eq_of_lt hlt, Nat.div_eq_of_lt hlt, if_neg (show ¬ 4 * (10 ^ n - 1) < 9 * m by omega)]
    · simp

theorem roundDigits_near_iff (n m : Nat) :
    |(roundDigits n m * 10 ^ n : ℚ) - m| ≤ 1 / 2 * 10 ^ n ↔
      10 ^ n ≤ 2 * (m % 10 ^ n) ∨ 9 * (m % 10 ^ n) ≤ 4 * (10 ^ n - 1) := by
  have hr : m % 10 ^ n < 10 ^ n := Nat.mod_lt m (Nat.pow_pos (by decide))
  have hm : (m : ℚ) = (10 ^ n : ℕ) * (m / 10 ^ n : ℕ) + (m % 10 ^ n : ℕ) := by exact_mod_cast (Nat.div_add_mod m (10 ^ n)).symm
  have hrq : ((m % 10 ^ n : ℕ) : ℚ) < (10 ^ n : ℕ) := by exact_mod_cast hr
  have h0 : (0 : ℚ) ≤ (m % 10 ^ n : ℕ) := Nat.cast_nonneg _
  rw [roundDigits_cases]
  by_cases hup : 4 * (10 ^ n - 1) < 9 * (m % 10 ^ n)
  · have herr : (((m / 10 ^ n + 1 : ℕ) : ℚ) * 10 ^ n - m) = (10 ^ n : ℕ) - (m % 10 ^ n : ℕ) := by
      rw [hm]
      push_cast
      ring
    have hhalf : ((10 ^ n : ℕ) : ℚ) - (m % 10 ^ n : ℕ) ≤ 1 / 2 * (10 ^ n : ℕ) ↔ 10 ^ n ≤ 2 * (m % 10 ^ n) := by
      rw [← Nat.cast_le (α := ℚ)]
      push_cast
      constructor <;> intro h <;> linarith
    rw [if_pos hup, herr, abs_of_nonneg (by linarith)]
    rw [Nat.cast_pow, Nat.cast_ofNat] at hhalf ⊢
    rw [hhalf]
    omega
  · have herr : (((m / 10 ^ n + 0 : ℕ) : ℚ) * 10 ^ n - m) = -((m % 10 ^ n : ℕ) : ℚ) := by
      rw [hm]
      push_cast
      ring
    have hhalf : ((m % 10 ^ n : ℕ) : ℚ) ≤ 1 / 2 * 10 ^ n := by
      have h2 : 2 * (m % 10 ^ n) ≤ 10 ^ n := by omega
      have h2q : (2 : ℚ) * (m % 10 ^ n : ℕ) ≤ 10 ^ n := by exact_mod_cast h2
      linarith
    rw [if_neg hup, herr, abs_neg, abs_of_nonneg h0]
    exact iff_of_true hhalf (Or.inr (Nat.le_of_not_lt hup))

/-! ## 桁を伸ばす -/

/-- 限り `t` に届くまで、多くとも `n` 桁伸ばす。 -/
def stretch (t : Nat) : Nat → Nat → Int → Nat × Int
  | 0, m, ex => (m, ex)
  | n + 1, m, ex => if m < t then stretch t n (m * 10) (ex - 1) else (m, ex)

/-- 伸ばす桁の数 `k` は、限りに届くか、`n` に達するまでの数である。 -/
theorem stretch_spec (t n m : Nat) (ex : Int) :
    ∃ k ≤ n, stretch t n m ex = (m * 10 ^ k, ex - k) ∧ (k = n ∨ t ≤ m * 10 ^ k) ∧ (k = 0 ∨ m * 10 ^ k < 10 * t) := by
  induction n generalizing m ex with
  | zero => exact ⟨0, Nat.le_refl 0, by simp [stretch], Or.inl rfl, Or.inl rfl⟩
  | succ n ih =>
      rw [stretch]
      split
      · rename_i hlt
        obtain ⟨k, hk, heq, hstop, hfit⟩ := ih (m * 10) (ex - 1)
        have hpow : m * 10 * 10 ^ k = m * 10 ^ (k + 1) := by rw [Nat.pow_succ', Nat.mul_assoc]
        have hexpo : ex - 1 - (k : Int) = ex - (k + 1 : Nat) := by
          push_cast
          ring
        rw [hpow] at heq hstop hfit
        refine ⟨k + 1, Nat.succ_le_succ hk, by rw [heq, hexpo], hstop.imp (congrArg (· + 1)) id, Or.inr ?_⟩
        rcases hfit with rfl | hfit
        · omega
        · exact hfit
      · rename_i hge
        exact ⟨0, Nat.zero_le _, by simp, Or.inr (by simpa using hge), Or.inl rfl⟩

/-- 伸ばし終えた回数は、収まる回数より小さくない。 -/
theorem stretch_stops {a j k k' : Nat} (h : 10 ^ j ≤ a * 10 ^ k) (hfit : k' = 0 ∨ a * 10 ^ k' < 10 ^ (j + 1)) : k' ≤ k := by
  by_contra hlt
  have hpow : a * 10 ^ (k + 1) ≤ a * 10 ^ k' := Nat.mul_le_mul_left a (Nat.pow_le_pow_right (by decide) (by omega))
  rw [Nat.pow_succ, ← Nat.mul_assoc] at hpow
  rw [Nat.pow_succ] at hfit
  rcases hfit with rfl | hfit <;> omega

end Books.Lib
