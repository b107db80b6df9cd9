import Books.Dfp754.Lemmas.DpdTostr
import Books.Dfp754.Lemmas.Quantize

/-!
# 指数の付け替え

指数の欄だけを書き換え、ほかの欄を残すことを、二つの形のそれぞれで述べる。
-/

namespace Books.Dfp754

open Books.Lib

variable {w p k c d a lo len m : Nat} {o : Join} {bias n : Int} {x y : BitVec w}

/-- 組合せの欄の上の二ビットが立つのは、指数が上限に届くときに限る。 -/
theorem top_ne_three (h : fld y a (m + 2) < 3 * 2 ^ m) : fld y (a + m) 2 ≠ 3 := by
  intro h3
  have hadd := fld_add y a m 2
  rw [h3] at hadd
  omega

theorem msb_congr (h : fld y (w - 1) 1 = fld x (w - 1) 1) : y.msb = x.msb := by
  rw [BitVec.msb_eq_getLsbD_last, BitVec.msb_eq_getLsbD_last]
  exact getLsbD_of_fld h Nat.one_pos

/-! ## 二進の仮数を持つ形 -/

theorem flipBid_in (h : a + len ≤ w) (h0 : 0 ≤ (fld x a len : Int) + n) (h1 : (fld x a len : Int) + n < 2 ^ len) :
    (fld (x ^^^ flipBid a len x n) a len : Int) = fld x a len + n := by
  have hshr : fld (x >>> a) 0 len = fld x a len := by rw [fld_shr, Nat.zero_add]
  have hx : fld x a len = fld ((x >>> a) &&& mask len) 0 len := by
    rw [fld_mask_in (by omega) (by omega), hshr]
  have hz : fld (flipBid a len x n) a len =
      fld (((x >>> a) &&& mask len) ^^^ (((x >>> a) &&& mask len) + BitVec.ofInt w n)) 0 len := by
    rw [flipBid, fld_shl (Nat.le_refl a) h, Nat.sub_self, fld_mask_in (by omega) (by omega)]
  rw [fld_xor_flip hx hz, fld_add_ofInt (by omega), ← hx]
  exact Int.emod_eq_of_lt h0 h1

theorem flipBid_out (h : lo + len ≤ a ∨ a + m ≤ lo) (hw : lo + len ≤ w) :
    fld (x ^^^ flipBid a m x n) lo len = fld x lo len := by
  refine fld_xor_left ?_
  rw [flipBid]
  rcases h with h | h
  · exact fld_shl_low h
  · rw [fld_shl (by omega) hw, fld_mask_out (by omega)]

/-- 指数が範囲に収まれば、指数だけが `n` 大きくなる。 -/
theorem scalbnBid_dec (hp : 2 ≤ p) (hw : p + 3 ≤ w) (h0 : 0 ≤ (bidDec p bias x).expo + n + bias)
    (h1 : (bidDec p bias x).expo + n + bias < 3 * 2 ^ (w - 3 - p)) :
    bidDec p bias (scalbnBid p x n) = { bidDec p bias x with expo := (bidDec p bias x).expo + n } := by
  have hlen : w - 1 - p = w - 3 - p + 2 := by omega
  have hpow : (2 : Int) ^ (w - 1 - p) = 4 * 2 ^ (w - 3 - p) := by rw [hlen, pow_add]; ring
  have hpos : (0 : Int) < 2 ^ (w - 3 - p) := by positivity
  by_cases hl : fld x (w - 3) 2 = 3
  · rw [scalbnBid, if_pos ((long_iff (by omega)).mpr hl)]
    rw [bidDec, if_pos hl] at h0 h1
    simp only at h0 h1
    have hexpo : (fld (x ^^^ flipBid (p - 2) (w - 1 - p) x n) (p - 2) (w - 1 - p) : Int) = _ :=
      flipBid_in (by omega) (by omega) (by omega)
    have hmark : fld (x ^^^ flipBid (p - 2) (w - 1 - p) x n) (w - 3) 2 = fld x (w - 3) 2 :=
      flipBid_out (by omega) (by omega)
    have hcoef : fld (x ^^^ flipBid (p - 2) (w - 1 - p) x n) 0 (p - 2) = fld x 0 (p - 2) :=
      flipBid_out (by omega) (by omega)
    have hmsb : (x ^^^ flipBid (p - 2) (w - 1 - p) x n).msb = x.msb := msb_congr (flipBid_out (by omega) (by omega))
    rw [bidDec, if_pos (hmark.trans hl), bidDec, if_pos hl, hcoef, hmsb, hexpo]
    simp only [Dec.mk.injEq, true_and]
    omega
  · rw [scalbnBid, if_neg (fun h => hl ((long_iff (by omega)).mp h))]
    rw [bidDec, if_neg hl] at h0 h1
    simp only at h0 h1
    have hexpo : (fld (x ^^^ flipBid p (w - 1 - p) x n) p (w - 1 - p) : Int) = _ :=
      flipBid_in (by omega) (by omega) (by omega)
    have hcoef : fld (x ^^^ flipBid p (w - 1 - p) x n) 0 p = fld x 0 p := flipBid_out (by omega) (by omega)
    have hmsb : (x ^^^ flipBid p (w - 1 - p) x n).msb = x.msb := msb_congr (flipBid_out (by omega) (by omega))
    have hmark : fld (x ^^^ flipBid p (w - 1 - p) x n) (w - 3) 2 ≠ 3 := by
      have htop : fld (x ^^^ flipBid p (w - 1 - p) x n) p (w - 3 - p + 2) < 3 * 2 ^ (w - 3 - p) := by
        rw [← hlen]
        zify
        rw [hexpo]
        omega
      have h3 := top_ne_three htop
      rwa [show p + (w - 3 - p) = w - 3 by omega] at h3
    rw [bidDec, if_neg hmark, bidDec, if_neg hl, hcoef, hmsb, hexpo]
    simp only [Dec.mk.injEq, true_and]
    omega

theorem scalbnBid_iff (hp : 2 ≤ p) (hw : p + 3 ≤ w) :
    (BidFinite (scalbnBid p x n) ∧
      bidDec p bias (scalbnBid p x n) = { bidDec p bias x with expo := (bidDec p bias x).expo + n }) ↔
    0 ≤ (bidDec p bias x).expo + n + bias ∧ (bidDec p bias x).expo + n + bias < 3 * 2 ^ (w - 3 - p) := by
  constructor
  · rintro ⟨hfin, hdec⟩
    have hexpo : (bidDec p bias (scalbnBid p x n)).expo = (bidDec p bias x).expo + n := by rw [hdec]
    rw [← hexpo]
    exact ⟨expo_nonneg p bias _, finite_expo bias hw hp hfin⟩
  · rintro ⟨h0, h1⟩
    have hdec := scalbnBid_dec hp hw h0 h1
    exact ⟨finite_of_expo hw hp (by rw [hdec]; exact h1), hdec⟩

/-! ## 三桁ずつ詰めた形 -/

/-- 離れて置かれた指数の二つの欄が表す値。 -/
def dpdBiased (k c d : Nat) (x : BitVec w) : Nat := fld x (10 * k + c + d) 2 * 2 ^ c + fld x (10 * k) c

theorem flipDpd_in (hw : 10 * k + c + d + 2 ≤ w) (h0 : 0 ≤ (dpdBiased k c d x : Int) + n)
    (h1 : (dpdBiased k c d x : Int) + n < 2 ^ (c + 2)) :
    (dpdBiased k c d (x ^^^ flipDpd o k c d x n) : Int) = dpdBiased k c d x + n := by
  let u : BitVec w := ((x >>> (10 * k)) &&& mask c) ^^^ ((x >>> (10 * k + d)) &&& (3#w <<< c))
  have hpair : fld (((x >>> (10 * k + d)) &&& (3#w <<< c)) <<< 0) 0 c = 0 := high_out (Or.inl (by omega))
  have hpair' : fld (((x >>> (10 * k + d)) &&& (3#w <<< c)) <<< 0) (c + 0) 2 = _ := high_in (by omega)
  rw [BitVec.shiftLeft_zero] at hpair
  rw [BitVec.shiftLeft_zero, Nat.add_zero] at hpair'
  have hlow : fld x (10 * k) c = fld u 0 c := by
    rw [show fld u 0 c = fld ((x >>> (10 * k)) &&& mask c) 0 c from fld_xor_left hpair,
      fld_mask_in (by omega) (by omega), fld_shr, Nat.zero_add]
  have htop : fld x (10 * k + c + d) 2 = fld u c 2 := by
    rw [show fld u c 2 = fld ((x >>> (10 * k + d)) &&& (3#w <<< c)) c 2 from
      fld_xor_right (fld_mask_out (Nat.le_refl c)), hpair', fld_shr]
    congr 1
    omega
  have hflip : flipDpd o k c d x n = o.app ((u ^^^ (u + BitVec.ofInt w n)) &&& mask c)
      (((u ^^^ (u + BitVec.ofInt w n)) &&& (3#w <<< c)) <<< d) <<< (10 * k) := rfl
  have hzlow : fld (flipDpd o k c d x n) (10 * k) c = fld (u ^^^ (u + BitVec.ofInt w n)) 0 c := by
    rw [hflip, fld_shl (Nat.le_refl _) (by omega), Nat.sub_self, o.fld_left (high_out (by omega)),
      fld_mask_in (by omega) (by omega)]
  have hztop : fld (flipDpd o k c d x n) (10 * k + c + d) 2 = fld (u ^^^ (u + BitVec.ofInt w n)) c 2 := by
    rw [hflip, fld_shl (by omega) (by omega), show 10 * k + c + d - 10 * k = c + d by omega,
      o.fld_right (fld_mask_out (by omega)), high_in (by omega)]
  have hsplit : ∀ z : BitVec w, fld z c 2 * 2 ^ c + fld z 0 c = fld z 0 (c + 2) := by
    intro z
    rw [fld_add z 0 c 2, Nat.zero_add, Nat.mul_comm, Nat.add_comm]
  have hold : dpdBiased k c d x = fld u 0 (c + 2) := by rw [dpdBiased, htop, hlow, hsplit]
  rw [dpdBiased, fld_xor_flip htop hztop, fld_xor_flip hlow hzlow, hsplit, fld_add_ofInt (by omega), ← hold]
  exact Int.emod_eq_of_lt h0 h1

theorem flipDpd_out (h : lo + len ≤ 10 * k ∨ (10 * k + c ≤ lo ∧ lo + len ≤ 10 * k + c + d) ∨ 10 * k + c + d + 2 ≤ lo)
    (hw : lo + len ≤ w) : fld (x ^^^ flipDpd o k c d x n) lo len = fld x lo len := by
  refine fld_xor_left ?_
  rw [flipDpd]
  rcases h with h | h
  · exact fld_shl_low h
  · rw [fld_shl (by omega) hw, o.fld_left (high_out (by omega)), fld_mask_out (by omega)]

theorem recode_low (h : fld y 0 (10 * k) = fld x 0 (10 * k)) :
    recode decletVal 1024 1000 k y.toNat = recode decletVal 1024 1000 k x.toNat := by
  have hmod : y.toNat % 1024 ^ k = x.toNat % 1024 ^ k := by
    rw [fld_eq, fld_eq, Nat.pow_zero, Nat.div_one, Nat.div_one, Nat.pow_mul] at h
    exact h
  rw [← recode_pow_mod k y.toNat, hmod, recode_pow_mod]

theorem comb_split (x : BitVec w) (t : Nat) : fld x t 5 = fld x t 1 + 2 * fld x (t + 1) 2 + 8 * fld x (t + 3) 2 ∧
    fld x t 3 = fld x t 1 + 2 * fld x (t + 1) 2 := by
  have h3 : fld x t 3 = fld x t 1 + 2 ^ 1 * fld x (t + 1) 2 := fld_add x t 1 2
  have h5 : fld x t 5 = fld x t 3 + 2 ^ 3 * fld x (t + 3) 2 := fld_add x t 3 2
  omega

theorem dpdDec_long (hl : fld x (10 * k + c + 3) 2 = 3) : dpdDec k c bias x =
    ⟨x.msb, (8 + fld x (10 * k + c) 1) * 1000 ^ k + recode decletVal 1024 1000 k x.toNat, dpdBiased k c 1 x - bias⟩ := by
  obtain ⟨hcomb, -⟩ := comb_split x (10 * k + c)
  have hbit := fld_lt x (10 * k + c) 1
  have htop := fld_lt x (10 * k + c + 1) 2
  have hlead : leadOf (fld x (10 * k + c) 5) = 8 + fld x (10 * k + c) 1 := by
    rw [leadOf, if_pos (by omega)]
    omega
  have hexp : topOf (fld x (10 * k + c) 5) = fld x (10 * k + c + 1) 2 := by
    rw [topOf, if_pos (by omega)]
    omega
  rw [dpdDec, dpdBiased]
  simp only [hlead, hexp]

theorem dpdDec_short (hl : fld x (10 * k + c + 3) 2 ≠ 3) : dpdDec k c bias x =
    ⟨x.msb, fld x (10 * k + c) 3 * 1000 ^ k + recode decletVal 1024 1000 k x.toNat, dpdBiased k c 3 x - bias⟩ := by
  obtain ⟨hcomb, hlow⟩ := comb_split x (10 * k + c)
  have hbit := fld_lt x (10 * k + c) 1
  have htop := fld_lt x (10 * k + c + 1) 2
  have hlead : leadOf (fld x (10 * k + c) 5) = fld x (10 * k + c) 3 := by
    rw [leadOf, if_neg (by omega)]
    omega
  have hexp : topOf (fld x (10 * k + c) 5) = fld x (10 * k + c + 3) 2 := by
    rw [topOf, if_neg (by omega)]
    omega
  rw [dpdDec, dpdBiased]
  simp only [hlead, hexp]

theorem dpdBiased_lt_iff (d : Nat) : dpdBiased k c d x < 3 * 2 ^ c ↔ fld x (10 * k + c + d) 2 ≠ 3 := by
  have htop := fld_lt x (10 * k + c + d) 2
  have hlow := fld_lt x (10 * k) c
  rw [dpdBiased]
  constructor
  · intro h h3
    rw [h3] at h
    omega
  · intro h
    have hmul := Nat.mul_le_mul_right (2 ^ c) (show fld x (10 * k + c + d) 2 ≤ 2 by omega)
    omega

/-- 指数が範囲に収まれば、指数だけが `n` 大きくなる。 -/
theorem scalbnDpd_dec (hw : w = 10 * k + c + 6) (h0 : 0 ≤ (dpdDec k c bias x).expo + n + bias)
    (h1 : (dpdDec k c bias x).expo + n + bias < 3 * 2 ^ c) :
    dpdDec k c bias (scalbnDpd o k c x n) = { dpdDec k c bias x with expo := (dpdDec k c bias x).expo + n } := by
  have hpow : (2 : Int) ^ (c + 2) = 4 * 2 ^ c := by rw [pow_add]; ring
  have hpos : (0 : Int) < 2 ^ c := by positivity
  have hmark : w - 3 = 10 * k + c + 3 := by omega
  have hlong : x &&& (3#w <<< (w - 3)) = 3#w <<< (w - 3) ↔ fld x (10 * k + c + 3) 2 = 3 := by
    rw [long_iff (by omega), hmark]
  by_cases hl : fld x (10 * k + c + 3) 2 = 3
  · rw [scalbnDpd, if_pos (hlong.mpr hl)]
    rw [dpdDec_long hl] at h0 h1
    simp only at h0 h1
    have hexpo : (dpdBiased k c 1 (x ^^^ flipDpd o k c 1 x n) : Int) = _ := flipDpd_in (by omega) (by omega) (by omega)
    have hm : fld (x ^^^ flipDpd o k c 1 x n) (10 * k + c + 3) 2 = fld x (10 * k + c + 3) 2 :=
      flipDpd_out (by omega) (by omega)
    have hlead : fld (x ^^^ flipDpd o k c 1 x n) (10 * k + c) 1 = fld x (10 * k + c) 1 :=
      flipDpd_out (by omega) (by omega)
    have hmsb : (x ^^^ flipDpd o k c 1 x n).msb = x.msb := msb_congr (flipDpd_out (by omega) (by omega))
    rw [dpdDec_long (hm.trans hl), dpdDec_long hl, hlead, hmsb, hexpo, recode_low (flipDpd_out (by omega) (by omega))]
    simp only [Dec.mk.injEq, true_and]
    omega
  · rw [scalbnDpd, if_neg (fun h => hl (hlong.mp h))]
    rw [dpdDec_short hl] at h0 h1
    simp only at h0 h1
    have hexpo : (dpdBiased k c 3 (x ^^^ flipDpd o k c 3 x n) : Int) = _ := flipDpd_in (by omega) (by omega) (by omega)
    have hlead : fld (x ^^^ flipDpd o k c 3 x n) (10 * k + c) 3 = fld x (10 * k + c) 3 :=
      flipDpd_out (by omega) (by omega)
    have hmsb : (x ^^^ flipDpd o k c 3 x n).msb = x.msb := msb_congr (flipDpd_out (by omega) (by omega))
    have hlt : dpdBiased k c 3 (x ^^^ flipDpd o k c 3 x n) < 3 * 2 ^ c := by
      zify
      rw [hexpo]
      omega
    have hm := (dpdBiased_lt_iff 3).mp hlt
    rw [dpdDec_short hm, dpdDec_short hl, hlead, hmsb, hexpo, recode_low (flipDpd_out (by omega) (by omega))]
    simp only [Dec.mk.injEq, true_and]
    omega

theorem dpd_finite_expo (hw : w = 10 * k + c + 6) (hx : BidFinite x) : (dpdDec k c bias x).expo + bias < 3 * 2 ^ c := by
  have hadd : fld x (w - 5) 4 = fld x (w - 5) 2 + 2 ^ 2 * fld x (w - 5 + 2) 2 := fld_add x (w - 5) 2 2
  rw [BidFinite, hadd, show w - 5 = 10 * k + c + 1 by omega, show 10 * k + c + 1 + 2 = 10 * k + c + 3 by omega] at hx
  by_cases hl : fld x (10 * k + c + 3) 2 = 3
  · have hlt := (dpdBiased_lt_iff 1).mpr (show fld x (10 * k + c + 1) 2 ≠ 3 by omega)
    rw [dpdDec_long hl, sub_add_cancel]
    exact_mod_cast hlt
  · have hlt := (dpdBiased_lt_iff 3).mpr hl
    rw [dpdDec_short hl, sub_add_cancel]
    exact_mod_cast hlt

theorem scalbnDpd_iff (hw : w = 10 * k + c + 6) :
    (BidFinite (scalbnDpd o k c x n) ∧
      dpdDec k c bias (scalbnDpd o k c x n) = { dpdDec k c bias x with expo := (dpdDec k c bias x).expo + n }) ↔
    0 ≤ (dpdDec k c bias x).expo + n + bias ∧ (dpdDec k c bias x).expo + n + bias < 3 * 2 ^ c := by
  constructor
  · rintro ⟨hfin, hdec⟩
    have hexpo : (dpdDec k c bias (scalbnDpd o k c x n)).expo = (dpdDec k c bias x).expo + n := by rw [hdec]
    rw [← hexpo]
    refine ⟨?_, dpd_finite_expo hw hfin⟩
    rw [dpdDec, sub_add_cancel]
    exact Int.natCast_nonneg _
  · rintro ⟨h0, h1⟩
    have hdec := scalbnDpd_dec (o := o) hw h0 h1
    exact ⟨dpd_finite hw (by rw [hdec]; exact h1), hdec⟩

end Books.Dfp754
