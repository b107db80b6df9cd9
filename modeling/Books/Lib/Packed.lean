import Mathlib.Data.Nat.Digits.Lemmas
import Mathlib.Order.Lattice
import Mathlib.Algebra.Order.Ring.Int

/-!
# 桁の写し替え

自然数を基数 `p` の桁に分け、桁ごとに `f` を当てて、基数 `q` の桁として並べ直す。詰めた十進（基数 16 の桁に 0 から 9 を置いた
語）と、十進の数との行き来は、この写し替えである。
-/

namespace Books.Lib

variable {f g : Nat → Nat} {p q r b k l n i : Nat} {P Q : Nat → Prop}

/-- `n` の基数 `p` での下 `k` 桁に `f` を当てて、基数 `q` の桁として並べた数。 -/
def recode (f : Nat → Nat) (p q : Nat) : Nat → Nat → Nat
  | 0, _ => 0
  | k + 1, n => f (n % p) + q * recode f p q k (n / p)

/-- 基数 `p` での下 `k` 桁が、どれも `P` を満たす。 -/
def Digits (P : Nat → Prop) (p k n : Nat) : Prop := ∀ i, i < k → P (n / p ^ i % p)

instance [DecidablePred P] : Decidable (Digits P p k n) := inferInstanceAs (Decidable (∀ i, i < k → P (n / p ^ i % p)))

@[simp] theorem recode_zero : recode f p q 0 n = 0 := rfl

theorem recode_succ : recode f p q (k + 1) n = f (n % p) + q * recode f p q k (n / p) := rfl

/-! ## 桁の条件 -/

theorem Digits.imp (h : Digits P p k n) (hPQ : ∀ d, P d → Q d) : Digits Q p k n := fun i hi => hPQ _ (h i hi)

theorem Digits.mono (h : Digits P p k n) (hl : l ≤ k) : Digits P p l n := fun i hi => h i (by omega)

theorem Digits.head (h : Digits P p (k + 1) n) : P (n % p) := by simpa using h 0 (Nat.succ_pos k)

theorem Digits.shift (h : Digits P p (l + k) n) : Digits P p k (n / p ^ l) := by
  intro i hi
  rw [Nat.div_div_eq_div_mul, ← Nat.pow_add]
  exact h (l + i) (by omega)

theorem Digits.tail (h : Digits P p (k + 1) n) : Digits P p k (n / p) := by
  rw [Nat.add_comm] at h
  simpa using h.shift

theorem Digits.cons (h0 : P (n % p)) (h : Digits P p k (n / p)) : Digits P p (k + 1) n := by
  intro i hi
  cases i with
  | zero => simpa using h0
  | succ i =>
      rw [Nat.pow_succ', ← Nat.div_div_eq_div_mul]
      exact h i (by omega)

theorem digits_lt (hp : 0 < p) (hb : p ≤ b) (k n : Nat) : Digits (· < b) p k n :=
  fun _ _ => Nat.lt_of_lt_of_le (Nat.mod_lt _ hp) hb

theorem digits_zero (h0 : P 0) (p k : Nat) : Digits P p k 0 := by
  intro i _
  rwa [Nat.zero_div, Nat.zero_mod]

/-- 足りない桁は 0 である。 -/
theorem digits_succ (h : Digits P p k n) (h0 : P 0) (hn : n < p ^ k) : Digits P p (k + 1) n := by
  intro i hi
  rcases Nat.lt_succ_iff_lt_or_eq.1 hi with hi | rfl
  · exact h i hi
  · rwa [Nat.div_eq_of_lt hn, Nat.zero_mod]

/-- 下の桁を残しても、その桁は変わらない。 -/
theorem mod_pow_digit (n : Nat) (hi : i < k) : n % p ^ k / p ^ i % p = n / p ^ i % p := by
  obtain ⟨j, rfl⟩ : ∃ j, k = i + (j + 1) := ⟨k - i - 1, by omega⟩
  rw [Nat.pow_add, Nat.mod_mul_right_div_self, Nat.mod_mod_of_dvd _ (dvd_pow_self p (Nat.succ_ne_zero j))]

theorem digits_group (hl : 0 < l) : Digits P p (l * k) n ↔ Digits (Digits P p l) (p ^ l) k n := by
  have hdig : ∀ i j, j < l → n / (p ^ l) ^ i % p ^ l / p ^ j % p = n / p ^ (l * i + j) % p := by
    intro i j hj
    rw [mod_pow_digit _ hj, ← Nat.pow_mul, Nat.div_div_eq_div_mul, ← Nat.pow_add]
  constructor
  · intro h i hi j hj
    have hle : l * i + j < l * k := calc
      l * i + j < l * i + l := Nat.add_lt_add_left hj _
      _ = l * (i + 1) := (Nat.mul_succ l i).symm
      _ ≤ l * k := Nat.mul_le_mul_left l hi
    rw [hdig i j hj]
    exact h _ hle
  · intro h i hi
    have hj : i % l < l := Nat.mod_lt i hl
    have hd := h (i / l) (Nat.div_lt_of_lt_mul hi) (i % l) hj
    rwa [hdig _ _ hj, Nat.div_add_mod] at hd

/-! ## 写し替えの計算 -/

theorem recode_congr (h : Digits (fun d => f d = g d) p k n) : recode f p q k n = recode g p q k n := by
  induction k generalizing n with
  | zero => rfl
  | succ k ih =>
      have h0 : f (n % p) = g (n % p) := h.head
      rw [recode_succ, recode_succ, h0, ih h.tail]

theorem recode_add (l : Nat) :
    recode f p q (l + k) n = recode f p q l n + q ^ l * recode f p q k (n / p ^ l) := by
  induction l generalizing n with
  | zero => simp
  | succ l ih =>
      rw [show l + 1 + k = l + k + 1 by omega, recode_succ, recode_succ, ih, Nat.div_div_eq_div_mul,
        Nat.pow_succ' (m := q), ← Nat.pow_succ']
      ring

/-- 一番上の桁を分ける。 -/
theorem recode_snoc (k n : Nat) :
    recode f p q (k + 1) n = recode f p q k n + q ^ k * f (n / p ^ k % p) := by
  rw [recode_add, recode_succ, recode_zero, Nat.mul_zero, Nat.add_zero]

/-- 基数を変えない写し替えは、下の桁を残すだけである。 -/
theorem recode_self (p k n : Nat) : recode id p p k n = n % p ^ k := by
  induction k generalizing n with
  | zero => simp [Nat.mod_one]
  | succ k ih => rw [recode_succ, ih, id, Nat.pow_succ', Nat.mod_mul]

theorem recode_lt (h : Digits (fun d => f d < q) p k n) : recode f p q k n < q ^ k := by
  induction k generalizing n with
  | zero => simp
  | succ k ih =>
      have h0 : f (n % p) < q := h.head
      rw [recode_succ, Nat.pow_succ']
      calc f (n % p) + q * recode f p q k (n / p)
          < q + q * recode f p q k (n / p) := Nat.add_lt_add_right h0 _
        _ = q * (recode f p q k (n / p) + 1) := by rw [Nat.mul_add, Nat.mul_one, Nat.add_comm]
        _ ≤ q * q ^ k := Nat.mul_le_mul_left q (ih h.tail)

theorem recode_mod (h : f (n % p) < q) : recode f p q (k + 1) n % q = f (n % p) := by
  rw [recode_succ, Nat.add_mul_mod_self_left, Nat.mod_eq_of_lt h]

theorem recode_div (h : f (n % p) < q) : recode f p q (k + 1) n / q = recode f p q k (n / p) := by
  rw [recode_succ, Nat.add_mul_div_left _ _ (by omega), Nat.div_eq_of_lt h, Nat.zero_add]

/-- 桁が収まっていれば、写し替えは続けて行える。 -/
theorem recode_comp (h : Digits (fun d => f d < q) p k n) :
    recode g q r k (recode f p q k n) = recode (g ∘ f) p r k n := by
  induction k generalizing n with
  | zero => rfl
  | succ k ih => rw [recode_succ (f := g), recode_mod h.head, recode_div h.head, ih h.tail, recode_succ, Function.comp_apply]

theorem recode_digit (h : Digits (fun d => f d < q) p k n) (hi : i < k) :
    recode f p q k n / q ^ i % q = f (n / p ^ i % p) := by
  induction k generalizing n i with
  | zero => omega
  | succ k ih =>
      cases i with
      | zero => rw [Nat.pow_zero, Nat.div_one, recode_mod h.head, Nat.pow_zero, Nat.div_one]
      | succ i =>
          rw [Nat.pow_succ', ← Nat.div_div_eq_div_mul, recode_div h.head, ih h.tail (by omega), Nat.div_div_eq_div_mul,
            ← Nat.pow_succ']

theorem recode_zero_right (hf : f 0 = 0) (k : Nat) : recode f p q k 0 = 0 := by
  induction k with
  | zero => rfl
  | succ k ih => rw [recode_succ, Nat.zero_mod, Nat.zero_div, hf, ih, Nat.mul_zero]

/-- 桁の足りない数では、上の桁を見なくてよい。 -/
theorem recode_of_lt (hf : f 0 = 0) (hn : n < p ^ k) (hl : k ≤ l) : recode f p q l n = recode f p q k n := by
  obtain ⟨j, rfl⟩ := Nat.exists_eq_add_of_le hl
  rw [recode_add, Nat.div_eq_of_lt hn, recode_zero_right hf, Nat.mul_zero, Nat.add_zero]

/-- 見ない桁は、値に関わらない。 -/
theorem recode_pow_mod (k n : Nat) : recode f p q k (n % p ^ k) = recode f p q k n := by
  induction k generalizing n with
  | zero => rfl
  | succ k ih =>
      have h0 : n % p ^ (k + 1) % p = n % p := Nat.mod_mod_of_dvd n ⟨p ^ k, Nat.pow_succ'⟩
      have h1 : n % p ^ (k + 1) / p = n / p % p ^ k := by rw [Nat.pow_succ', Nat.mod_mul_right_div_self]
      rw [recode_succ, recode_succ, h0, h1, ih]

theorem recode_group (l k : Nat) : recode f p q (l * k) n = recode (recode f p q l) (p ^ l) (q ^ l) k n := by
  induction k generalizing n with
  | zero => rfl
  | succ k ih => rw [Nat.mul_succ, Nat.add_comm, recode_add, ih, recode_succ, recode_pow_mod]

/-! ## 下に空けた桁と、一番下の桁の増減 -/

theorem shl_mod (a k : Nat) : a * p ^ k % p ^ k = 0 := Nat.mul_mod_left a (p ^ k)

theorem digits_shl (h0 : P 0) (hp : 0 < p) (h : Digits P p k n) (l : Nat) : Digits P p (l + k) (n * p ^ l) := by
  induction l with
  | zero => simpa using h
  | succ l ih =>
      have hmod : n * p ^ (l + 1) % p = 0 := by rw [Nat.pow_succ, ← Nat.mul_assoc, Nat.mul_mod_left]
      have hdiv : n * p ^ (l + 1) / p = n * p ^ l := by rw [Nat.pow_succ, ← Nat.mul_assoc, Nat.mul_div_cancel _ hp]
      rw [show l + 1 + k = l + k + 1 by omega]
      exact Digits.cons (by rwa [hmod]) (by rwa [hdiv])

theorem recode_shl (hf : f 0 = 0) (hp : 0 < p) (l : Nat) : recode f p q (l + k) (n * p ^ l) = q ^ l * recode f p q k n := by
  rw [recode_add, ← recode_pow_mod l, shl_mod, recode_zero_right hf, Nat.zero_add, Nat.mul_div_cancel _ (Nat.pow_pos hp)]

/-- 桁上がりのない足し算は、一番下の桁だけを変える。 -/
theorem bump_mod {d : Nat} (h : n % p + d < p) : (n + d) % p = n % p + d ∧ (n + d) / p = n / p := by
  have hp : 0 < p := by omega
  have hn : n + d = n % p + d + p * (n / p) := by rw [Nat.add_right_comm, Nat.mod_add_div]
  constructor
  · rw [hn, Nat.add_mul_mod_self_left, Nat.mod_eq_of_lt h]
  · rw [hn, Nat.add_mul_div_left _ _ hp, Nat.div_eq_of_lt h, Nat.zero_add]

theorem digits_bump {d : Nat} (h : n % p + d < p) (h0 : P (n % p + d)) (hn : Digits P p (k + 1) n) :
    Digits P p (k + 1) (n + d) := by
  obtain ⟨hm, hd⟩ := bump_mod h
  exact Digits.cons (by rwa [hm]) (by rw [hd]; exact hn.tail)

theorem recode_bump {d : Nat} (h : n % p + d < p) : recode id p q (k + 1) (n + d) = recode id p q (k + 1) n + d := by
  obtain ⟨hm, hd⟩ := bump_mod h
  rw [recode_succ, recode_succ, hm, hd, id, id]
  omega

theorem drop_mod (h : 0 < n % p) : (n - 1) % p = n % p - 1 ∧ (n - 1) / p = n / p := by
  have hle : n % p ≤ n := Nat.mod_le n p
  rcases Nat.eq_zero_or_pos p with rfl | hp
  · simp
  · have hlt := Nat.mod_lt n hp
    have hb := bump_mod (p := p) (n := p * (n / p)) (d := n % p - 1) (by rw [Nat.mul_mod_right]; omega)
    have hn : p * (n / p) + (n % p - 1) = n - 1 := by
      have := Nat.div_add_mod n p
      omega
    rw [hn, Nat.mul_mod_right, Nat.zero_add, Nat.mul_div_cancel_left _ hp] at hb
    exact hb

theorem digits_drop (h : 0 < n % p) (h0 : P (n % p - 1)) (hn : Digits P p (k + 1) n) : Digits P p (k + 1) (n - 1) := by
  obtain ⟨hm, hd⟩ := drop_mod h
  exact Digits.cons (by rwa [hm]) (by rw [hd]; exact hn.tail)

theorem recode_drop (h : 0 < n % p) : recode id p q (k + 1) (n - 1) + 1 = recode id p q (k + 1) n := by
  obtain ⟨hm, hd⟩ := drop_mod h
  rw [recode_succ, recode_succ, hm, hd, id, id]
  omega

theorem digits_pow_mod (hp : 0 < p) (h0 : P 0) (hn : Digits P p k n) (j : Nat) : Digits P p k (n % p ^ j) := by
  intro i hi
  rcases Nat.lt_or_ge i j with hij | hij
  · rw [mod_pow_digit n hij]
    exact hn i hi
  · have hlt : n % p ^ j < p ^ i := Nat.lt_of_lt_of_le (Nat.mod_lt _ (Nat.pow_pos hp)) (Nat.pow_le_pow_right hp hij)
    rw [Nat.div_eq_of_lt hlt, Nat.zero_mod]
    exact h0

/-! ## 詰めた十進と十進の数 -/

theorem recode_inv (h : Digits (· < q) p k n) : recode id q p k (recode id p q k n) = n % p ^ k := by
  have hc : recode id q p k (recode id p q k n) = recode (id ∘ id) p p k n := recode_comp h
  rw [hc, Function.comp_id, recode_self]

theorem digits_recode (hp : 0 < p) (hb : p ≤ b) (hq : p ≤ q) : Digits (· < b) q k (recode id p q k n) := by
  intro i hi
  have hd : recode id p q k n / q ^ i % q = n / p ^ i % p := recode_digit (f := id) (digits_lt hp hq k n) hi
  rw [hd]
  exact Nat.lt_of_lt_of_le (Nat.mod_lt _ hp) hb

theorem recode_eq_zero (h : Digits (· < q) p k n) (hn : n < p ^ k) : recode id p q k n = 0 ↔ n = 0 := by
  constructor
  · intro h0
    have hinv := recode_inv h
    rwa [h0, recode_zero_right rfl, Nat.mod_eq_of_lt hn, eq_comm] at hinv
  · rintro rfl
    exact recode_zero_right rfl k

/-- 写し替えは、大小の境目を保つ。 -/
theorem recode_lt_iff (h : Digits (· < q) p k n) (hn : n < p ^ k) (hpq : q ≤ p) (hq : 0 < q) (hl : l ≤ k) :
    recode id p q k n < q ^ l ↔ n < p ^ l := by
  constructor
  · intro hlt
    have hinv := recode_inv h
    rw [Nat.mod_eq_of_lt hn, recode_of_lt rfl hlt hl] at hinv
    rw [← hinv]
    exact recode_lt (digits_lt hq hpq l _)
  · intro hlt
    rw [recode_of_lt rfl hlt hl]
    exact recode_lt (h.mono hl)

/-- 写し替えは、桁の数を保つ。 -/
theorem recode_digits_length (h : Digits (· < q) p k n) (hn : n < p ^ k) (hpq : q ≤ p) (hq : 1 < q) :
    (Nat.digits q (recode id p q k n)).length = (Nat.digits p n).length := by
  have hiff : ∀ l, (Nat.digits q (recode id p q k n)).length ≤ l ↔ (Nat.digits p n).length ≤ l := by
    intro l
    rw [Nat.digits_length_le_iff hq, Nat.digits_length_le_iff (by omega)]
    rcases Nat.le_total l k with hl | hl
    · exact recode_lt_iff h hn hpq (by omega) hl
    · exact iff_of_true (Nat.lt_of_lt_of_le (recode_lt h) (Nat.pow_le_pow_right (by omega) hl))
        (Nat.lt_of_lt_of_le hn (Nat.pow_le_pow_right (by omega) hl))
  exact Nat.le_antisymm ((hiff _).mpr (Nat.le_refl _)) ((hiff _).mp (Nat.le_refl _))

/-- 上の桁を落とすと、値は少なくとも `q ^ l` だけ減る。 -/
theorem recode_mod_add_le (h : Digits (· < q) p k n) (hn : n < p ^ k) (hl : l ≤ k) (hp : 0 < p) (hge : p ^ l ≤ n) :
    recode id p q k (n % p ^ l) + q ^ l ≤ recode id p q k n := by
  obtain ⟨j, rfl⟩ := Nat.exists_eq_add_of_le hl
  have hpl : 0 < p ^ l := Nat.pow_pos hp
  have hlow : recode id p q (l + j) (n % p ^ l) = recode id p q l n := by
    rw [recode_of_lt rfl (Nat.mod_lt n hpl) hl, recode_pow_mod]
  have hhigh : 0 < recode id p q j (n / p ^ l) := by
    have hdiv : n / p ^ l < p ^ j := Nat.div_lt_of_lt_mul (by rwa [← Nat.pow_add])
    refine Nat.pos_of_ne_zero fun h0 => ?_
    have hz := (recode_eq_zero h.shift hdiv).1 h0
    have hpos := Nat.div_pos hge hpl
    omega
  rw [hlow, recode_add]
  exact Nat.add_le_add_left (Nat.le_mul_of_pos_right (q ^ l) hhigh) _

end Books.Lib
