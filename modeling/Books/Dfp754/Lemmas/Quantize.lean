import Books.Lib.HalfUp
import Books.Dfp754.Lemmas.Mirror
import Mathlib.Tactic.FieldSimp

/-!
# `quantizebid64` と `quantizebid32`
-/

namespace Books.Dfp754

open Books.Lib

variable {w p n : Nat} {bias : Int} {lim x r : BitVec w}

/-! ## 仮数の繰り返し -/

theorem truncBid_toNat (hw : 4 ≤ w) (n : Nat) (m : BitVec w) : (truncBid n m).toNat = roundDigits n m.toNat := by
  have h16 := two_pow_le hw
  have h10 : (10 : BitVec w).toNat = 10 := toNat_lit (d := 10) (by omega)
  have h5 : (5 : BitVec w).toNat = 5 := toNat_lit (d := 5) (by omega)
  induction n generalizing m with
  | zero => rfl
  | succ n ih =>
      have hle : (5 : BitVec w) ≤ m % 10 ↔ 5 ≤ m.toNat % 10 := by
        rw [BitVec.le_def, h5, BitVec.toNat_umod, h10]
      have hstep : (m / 10 + if 5 ≤ m % 10 then 1 else 0).toNat = roundDigit m.toNat := by
        have h1 : (1 : BitVec w).toNat = 1 := toNat_lit (d := 1) (by omega)
        have hlt := m.isLt
        rw [BitVec.toNat_add, BitVec.toNat_udiv, h10, roundDigit]
        by_cases h : 5 ≤ m.toNat % 10
        · rw [if_pos (hle.2 h), if_pos h, h1, Nat.mod_eq_of_lt (by omega)]
        · rw [if_neg (mt hle.1 h), if_neg h, show (0 : BitVec w).toNat = 0 from BitVec.toNat_zero, Nat.mod_eq_of_lt (by omega)]
      rw [truncBid, ih, hstep, roundDigits]

/-- 伸ばす繰り返しは、桁あふれしない。 -/
theorem expandBid_eq (hlim : lim.toNat * 10 ≤ 2 ^ w) (hw : 4 ≤ w) (n : Nat) (m : BitVec w) (ex : Int) :
    ((expandBid lim n m ex).1.toNat, (expandBid lim n m ex).2) = stretch lim.toNat n m.toNat ex := by
  induction n generalizing m ex with
  | zero => rfl
  | succ n ih =>
      have h10 : (10 : BitVec w).toNat = 10 := toNat_lit (d := 10) (by have := two_pow_le hw; omega)
      rw [expandBid, stretch]
      by_cases h : m < lim
      · have hlt : m.toNat < lim.toNat := h
        have hm : (m * 10).toNat = m.toNat * 10 := by rw [BitVec.toNat_mul, h10, Nat.mod_eq_of_lt (by omega)]
        rw [if_pos h, if_pos hlt, ih, hm]
      · have hge : ¬ m.toNat < lim.toNat := h
        rw [if_neg h, if_neg hge]

/-! ## 有限の数 -/

theorem coef_lt (p : Nat) (bias : Int) (x : BitVec w) : (bidDec p bias x).coef < 2 ^ p + 2 ^ (p - 2) := by
  have hlo := fld_lt x 0 p
  have hhi := fld_lt x 0 (p - 2)
  rw [bidDec]
  split
  · exact Nat.add_lt_add_left hhi _
  · exact Nat.lt_add_right _ hlo

theorem expo_nonneg (p : Nat) (bias : Int) (x : BitVec w) : 0 ≤ (bidDec p bias x).expo + bias := by
  rw [bidDec]
  split <;> simp

theorem finite_expo (bias : Int) (hw : p + 3 ≤ w) (hp : 2 ≤ p) (hx : BidFinite x) :
    (bidDec p bias x).expo + bias < 3 * 2 ^ (w - 3 - p) := by
  have hcomb : fld x (w - 5) 4 = fld x (w - 5) 2 + 2 ^ 2 * fld x (w - 5 + 2) 2 := fld_add x (w - 5) 2 2
  have hfin : fld x (w - 5) 4 ≠ 15 := hx
  have htop := fld_lt x (w - 5) 2
  have hflag := fld_lt x (w - 3) 2
  rw [show w - 5 + 2 = w - 3 by omega] at hcomb
  rw [bidDec]
  split
  · rename_i hl
    have hsplit := fld_add x (p - 2) (w - 3 - p) 2
    have hlow := fld_lt x (p - 2) (w - 3 - p)
    rw [show w - 3 - p + 2 = w - 1 - p by omega, show p - 2 + (w - 3 - p) = w - 5 by omega] at hsplit
    have hle : fld x (w - 5) 2 ≤ 2 := by omega
    have hmul := Nat.mul_le_mul_left (2 ^ (w - 3 - p)) hle
    have hlt : fld x (p - 2) (w - 1 - p) < 3 * 2 ^ (w - 3 - p) := by omega
    rw [sub_add_cancel]
    exact_mod_cast hlt
  · rename_i hl
    have hsplit := fld_add x p (w - 3 - p) 2
    have hlow := fld_lt x p (w - 3 - p)
    rw [show w - 3 - p + 2 = w - 1 - p by omega, show p + (w - 3 - p) = w - 3 by omega] at hsplit
    have hle : fld x (w - 3) 2 ≤ 2 := by omega
    have hmul := Nat.mul_le_mul_left (2 ^ (w - 3 - p)) hle
    have hlt : fld x p (w - 1 - p) < 3 * 2 ^ (w - 3 - p) := by omega
    rw [sub_add_cancel]
    exact_mod_cast hlt

theorem signBits_bit (hw : 0 < w) (x : BitVec w) : (BitVec.ofInt w (signBits x)).getLsbD 0 = x.msb := by
  have hs : IsSign (signBits x) := by
    rw [signBits_eq]
    split
    · exact Or.inr (Or.inr rfl)
    · exact Or.inl rfl
  rw [sign_bit hw hs, signBits_eq]
  cases x.msb <;> rfl

/-! ## 揃えた数 -/

/-- 揃えた数は、切り詰めるときは一桁ずつ四捨五入した値であり、そうでなければ `k` 桁伸ばした値である。 -/
theorem quantizeBid_dec (hp : 3 ≤ p) (hw : p + 3 ≤ w) (hlim : lim.toNat * 10 ≤ 2 ^ p + 2 ^ (p - 2))
    (hx : (bidDec p bias x).expo + bias < 3 * 2 ^ (w - 3 - p)) (hr : (bidDec p bias r).expo + bias < 3 * 2 ^ (w - 3 - p))
    (hx0 : x ≠ 0) (hr0 : r ≠ 0) :
    ∃ k ≤ (max (bidDec p bias x).expo (bidDec p bias r).expo - (bidDec p bias r).expo).toNat,
      bidDec p bias (quantizeBid p bias lim x r) = ⟨(bidDec p bias x).neg,
        roundDigits ((bidDec p bias r).expo - (bidDec p bias x).expo).toNat (bidDec p bias x).coef * 10 ^ k,
        max (bidDec p bias x).expo (bidDec p bias r).expo - k⟩ ∧
      (k = (max (bidDec p bias x).expo (bidDec p bias r).expo - (bidDec p bias r).expo).toNat ∨
        lim.toNat ≤ roundDigits ((bidDec p bias r).expo - (bidDec p bias x).expo).toNat (bidDec p bias x).coef * 10 ^ k) ∧
      (k = 0 ∨
        roundDigits ((bidDec p bias r).expo - (bidDec p bias x).expo).toNat (bidDec p bias x).coef * 10 ^ k <
          10 * lim.toNat) := by
  have hxlo := expo_nonneg p bias x
  have hrlo := expo_nonneg p bias r
  have hcoef := coef_lt p bias x
  have hpw : (2 : Nat) ^ p + 2 ^ (p - 2) ≤ 2 ^ w := by
    have h1 : (2 : Nat) ^ (p - 2) ≤ 2 ^ p := Nat.pow_le_pow_right (by decide) (by omega)
    have h2 : (2 : Nat) ^ (p + 1) ≤ 2 ^ w := Nat.pow_le_pow_right (by decide) (by omega)
    rw [Nat.pow_succ] at h2
    omega
  rw [quantizeBid, quantexpBid_eq hw hx0, quantexpBid_eq hw hr0]
  generalize (bidDec p bias x).expo = ex at *
  generalize (bidDec p bias r).expo = er at *
  obtain ⟨k, hk, hloop, hstop, hfit⟩ :=
    stretch_spec lim.toNat (max ex er - er).toNat (truncBid (er - ex).toNat (mantBid p x)).toNat (max ex er)
  rw [← expandBid_eq (by omega) (by omega), Prod.mk.injEq] at hloop
  obtain ⟨hmant, hexpo⟩ := hloop
  have htrunc : (truncBid (er - ex).toNat (mantBid p x)).toNat = roundDigits (er - ex).toNat (bidDec p bias x).coef := by
    have hmb : (mantBid p x).toNat = (bidDec p bias x).coef := mantBid_eq (by omega) hw
    rw [truncBid_toNat (by omega), hmb]
  rw [htrunc] at hmant hstop hfit
  refine ⟨k, hk, ?_, hstop, hfit⟩
  have hround := roundDigits_le (er - ex).toNat (bidDec p bias x).coef
  have hm : (expandBid lim (max ex er - er).toNat (truncBid (er - ex).toNat (mantBid p x)) (max ex er)).1.toNat <
      2 ^ p + 2 ^ (p - 2) := by
    have h1 : 1 < 2 ^ p := Nat.one_lt_two_pow (by omega)
    have h2 : 0 < 2 ^ (p - 2) := Nat.two_pow_pos (p - 2)
    rw [hmant]
    rcases hfit with rfl | hfit
    · rw [Nat.pow_zero, Nat.mul_one]
      omega
    · omega
  have hpos : (3 : Int) * 2 ^ (w - 3 - p) ≤ 2 ^ w := by
    have h3 : 3 * 2 ^ (w - 3 - p) ≤ 2 ^ 2 * 2 ^ (w - 3 - p) := Nat.mul_le_mul_right _ (by decide)
    rw [← Nat.pow_add] at h3
    exact_mod_cast Nat.le_trans h3 (Nat.pow_le_pow_right (by decide) (by omega))
  have hex : ((BitVec.ofInt w (max ex er - k + bias)).toNat : Int) = max ex er - k + bias :=
    ofInt_toNat (by omega) (by omega)
  rw [bidDec_assemble (by omega) hw hm (by rw [hexpo]; exact_mod_cast (by omega : ((BitVec.ofInt w (max ex er - k + bias)).toNat : Int) < 3 * 2 ^ (w - 3 - p))),
    hmant, hexpo, hex, signBits_bit (by omega), bidDec_neg, add_sub_cancel_right]

/-! ## 誤差と指数 -/

section Quantised

variable {X R Y : Dec} {k nd : Nat}

theorem shorten_near_iff (h : X.expo < R.expo)
    (hY : Y = ⟨X.neg, roundDigits (R.expo - X.expo).toNat X.coef, R.expo⟩) :
    |Y.mag - X.mag| ≤ 1 / 2 * 10 ^ R.expo ↔ RoundsOnce X R := by
  have hp : (0 : ℚ) < 10 ^ X.expo := zpow_pos (by norm_num) _
  have hn : (10 : ℚ) ^ R.expo = 10 ^ (R.expo - X.expo).toNat * 10 ^ X.expo := by
    rw [← zpow_natCast, ← zpow_add₀ (by norm_num), Int.toNat_of_nonneg (by omega), sub_add_cancel]
  have herr : Y.mag - X.mag =
      (roundDigits (R.expo - X.expo).toNat X.coef * 10 ^ (R.expo - X.expo).toNat - X.coef) * 10 ^ X.expo := by
    rw [hY, Dec.mag, Dec.mag, hn]
    ring
  rw [RoundsOnce, ← roundDigits_near_iff, herr, hn, abs_mul, abs_of_pos hp, ← mul_assoc, mul_le_mul_iff_left₀ hp]

theorem extend_least (h : R.expo ≤ X.expo) (hk : k ≤ (X.expo - R.expo).toNat)
    (hY : Y = ⟨X.neg, X.coef * 10 ^ k, X.expo - k⟩) (hstop : k = (X.expo - R.expo).toNat ∨ 10 ^ nd ≤ X.coef * 10 ^ k)
    (hfit : k = 0 ∨ X.coef * 10 ^ k < 10 ^ (nd + 1)) :
    Y.mag = X.mag ∧ IsLeast {e | R.expo ≤ e ∧ e ≤ X.expo ∧
      (e = X.expo ∨ X.coef * 10 ^ (X.expo - e).toNat < 10 ^ (nd + 1))} Y.expo := by
  subst hY
  refine ⟨?_, ⟨?_, ?_, ?_⟩, ?_⟩
  · rw [Dec.mag, Dec.mag, zpow_sub₀ (by norm_num), zpow_natCast]
    push_cast
    field_simp
  · show R.expo ≤ X.expo - k
    omega
  · show X.expo - k ≤ X.expo
    omega
  · show X.expo - k = X.expo ∨ X.coef * 10 ^ (X.expo - (X.expo - k)).toNat < 10 ^ (nd + 1)
    rw [sub_sub_cancel, Int.toNat_natCast]
    exact hfit.imp (fun h0 => by rw [h0]; simp) id
  · rintro e ⟨hlo, hhi, he⟩
    show X.expo - k ≤ e
    by_contra hlt
    rcases hstop with hk' | hge
    · omega
    · -- もう一桁伸ばせるなら、繰り返しは続いていた。
      have hpow : X.coef * 10 ^ (k + 1) ≤ X.coef * 10 ^ (X.expo - e).toNat :=
        Nat.mul_le_mul_left _ (Nat.pow_le_pow_right (by decide) (by omega))
      rw [Nat.pow_succ, ← Nat.mul_assoc] at hpow
      rw [Nat.pow_succ] at he
      omega

/-- 一桁ずつ四捨五入し、`k` 桁伸ばした数が、正しく揃えた数である条件。 -/
theorem quantised_iff (hk : k ≤ (max X.expo R.expo - R.expo).toNat)
    (hY : Y = ⟨X.neg, roundDigits (R.expo - X.expo).toNat X.coef * 10 ^ k, max X.expo R.expo - k⟩)
    (hstop : k = (max X.expo R.expo - R.expo).toNat ∨
      10 ^ nd ≤ roundDigits (R.expo - X.expo).toNat X.coef * 10 ^ k)
    (hfit : k = 0 ∨ roundDigits (R.expo - X.expo).toNat X.coef * 10 ^ k < 10 ^ (nd + 1)) :
    Quantised (nd + 1) X R Y ↔ RoundsOnce X R := by
  rcases lt_or_ge X.expo R.expo with h | h
  · have hmax : max X.expo R.expo = R.expo := max_eq_right h.le
    have hk0 : k = 0 := by
      rw [hmax] at hk
      omega
    rw [hmax, hk0, Nat.pow_zero, Nat.mul_one, Nat.cast_zero, sub_zero] at hY
    have hnear := shorten_near_iff h hY
    constructor
    · intro hq
      exact hnear.1 (hq.shorten h).2
    · intro hr
      exact ⟨by rw [hY], fun _ => ⟨by rw [hY], hnear.2 hr⟩, fun hle => absurd hle (by omega)⟩
  · have hmax : max X.expo R.expo = X.expo := max_eq_left h
    have hn : (R.expo - X.expo).toNat = 0 := by omega
    have honce : RoundsOnce X R := by
      rw [RoundsOnce, hn]
      simp [Nat.mod_one]
    rw [hmax] at hk hY hstop
    rw [hn, roundDigits] at hY hstop hfit
    exact iff_of_true ⟨by rw [hY], fun hlt => absurd hlt (by omega), fun _ => extend_least h hk hY hstop hfit⟩ honce

end Quantised

theorem quantizeBid_iff {nd : Nat} (hp : 3 ≤ p) (hw : p + 3 ≤ w) (hlim : lim.toNat = 10 ^ nd) (hfit : 10 ^ nd * 10 ≤ 2 ^ p + 2 ^ (p - 2))
    (hx : BidFinite x) (hr : BidFinite r) (hx0 : x ≠ 0) (hr0 : r ≠ 0) :
    Quantised (nd + 1) (bidDec p bias x) (bidDec p bias r) (bidDec p bias (quantizeBid p bias lim x r)) ↔
      RoundsOnce (bidDec p bias x) (bidDec p bias r) := by
  obtain ⟨k, hk, hY, hstop, hlt⟩ := quantizeBid_dec hp hw (by rw [hlim]; exact hfit) (finite_expo bias hw (by omega) hx)
    (finite_expo bias hw (by omega) hr) hx0 hr0
  rw [hlim] at hstop hlt
  exact quantised_iff hk hY hstop (by rwa [Nat.pow_succ'])

end Books.Dfp754
