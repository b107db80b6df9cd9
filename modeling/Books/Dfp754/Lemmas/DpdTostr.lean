import Books.Dfp754.Lemmas.QuantizeAlike
import Books.Dfp754.Lemmas.Tostr

/-!
# 三桁ずつ詰めた形を書く文字列

二つの語が同じ十進小数を表し、指数が正しく読まれるならば、`bcd64tostr` に渡す仮数・指数・符号は等しい。
-/

namespace Books.Dfp754

open Books.Lib

variable {w k c p j l n : Nat} {bias : Int} {bsz : Nat}

/-! ## 仮数 -/

theorem decletVal_table : ∀ n < 1024, decletVal n = 0 → n = 0 := by
  decide +kernel

theorem declets_eq_zero_iff : recode decletVal 1024 1000 k n = 0 ↔ n % 1024 ^ k = 0 := by
  induction k generalizing n with
  | zero => simp [Nat.mod_one]
  | succ k ih =>
      have hlow : decletVal (n % 1024) = 0 ↔ n % 1024 = 0 :=
        ⟨decletVal_table _ (Nat.mod_lt _ (by decide)), fun h => by rw [h]; rfl⟩
      rw [recode_succ, Nat.pow_succ', Nat.mod_mul, Nat.add_eq_zero_iff, Nat.add_eq_zero_iff, hlow, Nat.mul_eq_zero,
        Nat.mul_eq_zero, ih]
      simp only [OfNat.ofNat_ne_zero, false_or]

theorem dpdDec_coef_eq (x : BitVec w) : (dpdDec k c bias x).coef =
    leadOf (combOf k c x) * 1000 ^ k + recode decletVal 1024 1000 k x.toNat := rfl

/-- 取り出した仮数が 0 であるのは、表す数の仮数が 0 のときに限る。 -/
theorem mantDpd_eq_zero_iff (hw : w = 10 * k + c + 6) (x : BitVec w) :
    mantDpd k c x = 0 ↔ (dpdDec k c bias x).coef = 0 := by
  have hlow : fld x 0 (10 * k) = x.toNat % 1024 ^ k := by
    rw [fld_eq, Nat.pow_zero, Nat.div_one, Nat.pow_mul]
  have hlead : ∀ b : Nat, 0 < b → (leadOf (combOf k c x) * b = 0 ↔ leadOf (combOf k c x) = 0) := by
    intro b hb
    rw [Nat.mul_eq_zero, or_iff_left (by omega)]
  have hz : (0 : BitVec w).toNat = 0 := BitVec.toNat_zero
  rw [← BitVec.toNat_inj, hz, mantDpd_toNat hw, dpdDec_coef_eq, Nat.add_eq_zero_iff, Nat.add_eq_zero_iff,
    hlead _ (Nat.two_pow_pos _), hlead _ (Nat.pow_pos (by decide)), declets_eq_zero_iff, hlow]

/-- 先頭の桁 `l` を加えた詰めた十進。 -/
theorem bcd_cons (hl : l < 10) (hd : Digits (· < 10) 16 j n) (hn : n < 16 ^ j) :
    Digits (· < 10) 16 (j + 1) (l * 16 ^ j + n) ∧
      recode id 16 10 (j + 1) (l * 16 ^ j + n) = l * 10 ^ j + recode id 16 10 j n := by
  have hmod : (l * 16 ^ j + n) % 16 ^ j = n := by
    rw [Nat.mul_comm, Nat.mul_add_mod, Nat.mod_eq_of_lt hn]
  have hdiv : (l * 16 ^ j + n) / 16 ^ j = l := by
    rw [Nat.mul_comm, Nat.mul_add_div (Nat.pow_pos (by decide)), Nat.div_eq_of_lt hn, Nat.add_zero]
  constructor
  · intro i hi
    rcases Nat.lt_succ_iff_lt_or_eq.mp hi with hi | rfl
    · have hdig := hd i hi
      rw [← hmod, mod_pow_digit _ hi] at hdig
      exact hdig
    · rw [hdiv]
      omega
  · rw [recode_snoc, hdiv, Nat.mod_eq_of_lt (by omega), ← recode_pow_mod, hmod, id]
    ring

/-- 詰めた十進 `m` は、その値の十進の桁を並べたものである。 -/
theorem bcd_of_value {m : Nat} (hd : Digits (· < 10) 16 j m) (hm : m < 16 ^ j) : recode id 10 16 j (recode id 16 10 j m) = m := by
  rw [recode_inv hd, Nat.mod_eq_of_lt hm]

theorem bcdDpd64_bcd (x : BitVec 64) : (bcdDpd64 x).toNat = recode id 10 16 16 (dpdDec 5 8 398 x).coef := by
  have hlow := unpack_lt 5 x.toNat
  obtain ⟨hd, hv⟩ := bcd_cons (j := 15) (leadOf_lt (combOf 5 8 x)) (unpack_bcd 5 x.toNat) hlow
  have hrec : recode id 16 10 15 (recode unpackVal 1024 4096 5 x.toNat) = recode decletVal 1024 1000 5 x.toNat :=
    unpack_recode 5 x.toNat
  rw [← bcdDpd64_toNat] at hd hv
  rw [dpdDec_coef, ← hrec, ← hv]
  exact (bcd_of_value hd (bcdDpd64 x).isLt).symm

/-- 取り出した仮数は、係数の七桁である。 -/
theorem bcdDpd32_spec (x : BitVec 32) : Digits (· < 10) 16 7 (bcdDpd32 x).toNat ∧ (bcdDpd32 x).toNat < 16 ^ 7 ∧
    recode id 16 10 7 (bcdDpd32 x).toNat = (dpdDec 2 6 101 x).coef := by
  have hlow := unpack_lt 2 x.toNat
  have hl := leadOf_lt (combOf 2 6 x)
  obtain ⟨hd, hv⟩ := bcd_cons (j := 6) hl (unpack_bcd 2 x.toNat) hlow
  have hrec : recode id 16 10 6 (recode unpackVal 1024 4096 2 x.toNat) = recode decletVal 1024 1000 2 x.toNat :=
    unpack_recode 2 x.toNat
  have hlt : (bcdDpd32 x).toNat < 16 ^ 7 := by
    rw [bcdDpd32_toNat]
    omega
  rw [← bcdDpd32_toNat] at hd hv
  refine ⟨hd, hlt, ?_⟩
  rw [hv, hrec]
  rfl

theorem bcdDpd32_bcd (x : BitVec 32) : (bcdDpd32 x).toNat = recode id 10 16 7 (dpdDec 2 6 101 x).coef := by
  obtain ⟨hd, hlt, hcoef⟩ := bcdDpd32_spec x
  rw [← hcoef]
  exact (bcd_of_value hd hlt).symm

theorem rebcdLoop_bcd (m : BitVec 64) : (rebcdLoop 16 m 0).toNat = recode id 10 16 16 m.toNat := by
  have h := rebcd_toNat (K := 15) (f := rebcdLoop) (g := fun m v => (v >>> 4) ^^^ ((m % 10) <<< (64 - 4))) (by decide)
    (fun _ _ => rfl) (fun _ _ _ => rfl) (fun m v _ => rebcd_step m v) (Nat.le_refl 16) m 0 (by decide)
  rw [h]
  simp

theorem rebcdLoop32_bcd (m : BitVec 32) : (rebcdLoop32 7 m 0).toNat = recode id 10 16 7 m.toNat := by
  have h := rebcd_toNat (K := 6) (f := rebcdLoop32) (g := fun m v => (v ^^^ ((m % 10) <<< 28)) >>> 4) (by decide)
    (fun _ _ => rfl) (fun _ _ _ => rfl) rebcd_step32 (Nat.le_refl 7) m 0 (by decide)
  rw [h]
  simp

/-! ## 指数と符号 -/

theorem quantexpdpd32_eq {x : BitVec 32} (hx : (dpdDec 2 6 101 x).expo ≠ -101) :
    quantexpdpd32 x = (dpdDec 2 6 101 x).expo := by
  have hexpo : (dpdDec 2 6 101 x).expo = (topOf (combOf 2 6 x) * 2 ^ 6 + fld x (10 * 2) 6 : Nat) - 101 := rfl
  have hhead : x >>> (10 * 2) ≠ 0 := by
    intro h0
    obtain ⟨hc, hcomb, _⟩ := (head_eq_zero (k := 2) (c := 6) rfl).1 h0
    rw [hexpo, hc, hcomb] at hx
    exact hx (by decide)
  by_cases hl : combOf 2 6 x / 8 = 3
  · exact quantexpDpd_big (k := 2) (c := 6) rfl hhead hl
  · exact quantexpDpd_small (k := 2) (c := 6) rfl hhead hl

theorem ne_zero_of_expo {x : BitVec w} (hx : (bidDec p bias x).expo ≠ -bias) : x ≠ 0 := by
  rintro rfl
  exact hx (by simp [bidDec, fld_eq])

/-- 指数が範囲に収まるのは、有限の数である。 -/
theorem dpd_finite (hw : w = 10 * k + c + 6) {x : BitVec w} (h : (dpdDec k c bias x).expo + bias < 3 * 2 ^ c) : BidFinite x := by
  intro hfin
  have hcomb : combOf k c x = fld x (10 * k + c) 1 + 2 ^ 1 * fld x (10 * k + c + 1) 4 := fld_add x (10 * k + c) 1 4
  rw [show w - 5 = 10 * k + c + 1 by omega] at hfin
  have hbit := fld_lt x (10 * k + c) 1
  have htop : topOf (combOf k c x) = 3 := by
    rw [topOf, hcomb, hfin]
    split <;> omega
  have hexpo : (dpdDec k c bias x).expo + bias = (topOf (combOf k c x) * 2 ^ c + fld x (10 * k) c : Nat) := sub_add_cancel _ _
  rw [hexpo, htop] at h
  exact absurd h (by push_cast; omega)

/-- 符号と、仮数が 0 であるかどうかは、表す数で決まる。 -/
theorem sign_alike (hw : w = 10 * k + c + 6) {x y : BitVec w} (hp : 2 ≤ p) (hpw : p + 3 ≤ w)
    (h : bidDec p bias x = dpdDec k c bias y) :
    (if mantBid p x ≠ 0 then signBits x else 0) = if mantDpd k c y ≠ 0 then signBits y else 0 := by
  have hneg : x.msb = y.msb := by
    have hn := congrArg Dec.neg h
    rw [bidDec_neg] at hn
    exact hn
  have hz : (0 : BitVec w).toNat = 0 := BitVec.toNat_zero
  have hzero : mantBid p x = 0 ↔ mantDpd k c y = 0 := by
    have hx : (mantBid p x).toNat = (bidDec p bias x).coef := mantBid_eq hp hpw
    have hy : mantDpd k c y = 0 ↔ (dpdDec k c bias y).coef = 0 := mantDpd_eq_zero_iff hw y
    rw [hy, ← h, ← hx, ← BitVec.toNat_inj, hz]
  rw [signBits_eq, signBits_eq, hneg]
  exact if_congr (not_congr hzero) rfl rfl

/-! ## 文字列 -/

theorem dpd64tostr_eq (x : BitVec 64) :
    dpd64tostr bsz x = bcd64tostr bsz ⟨bcdDpd64 x, quantexpdpd64 x, if mantDpd64 x ≠ 0 then signBits x else 0⟩ := by
  rw [dpd64tostr]
  by_cases h0 : mantDpd64 x = 0
  · have hb : bcdDpd64 x = 0 := by
      rw [bcdDpd64, h0]
      decide
    rw [if_neg (not_not_intro h0), if_neg (not_not_intro h0), h0, hb]
  · rw [if_pos h0, if_pos h0]

theorem dpd32tostr_eq (x : BitVec 32) :
    dpd32tostr bsz x = bcd32tostr bsz (bcdDpd32 x) (quantexpdpd32 x) (if mantDpd32 x ≠ 0 then signBits x else 0) := by
  rw [dpd32tostr]
  by_cases h0 : mantDpd32 x = 0
  · have hb : bcdDpd32 x = 0 := by
      rw [bcdDpd32, h0]
      decide
    rw [if_neg (not_not_intro h0), if_neg (not_not_intro h0), h0, hb]
  · rw [if_pos h0, if_pos h0]

/-- 同じ数を表す二つの語は、指数が正しく読まれれば、同じ文字列になる。 -/
theorem tostr64_alike {x y : BitVec 64} {d : Dec} (hx : bidDec 53 398 x = d) (hy : dpdDec 5 8 398 y = d) (hlo : -398 < d.expo)
    (hhi : d.expo ≤ 369) (hexpo : dpdExpo d = d.expo) : d64tostrDpd bsz y = d64tostr bsz x := by
  have hxe : (bidDec 53 398 x).expo + 398 < 3 * 2 ^ (64 - 3 - 53) := by rw [hx]; omega
  have hye : (dpdDec 5 8 398 y).expo + 398 < 3 * 2 ^ 8 := by rw [hy]; omega
  have hxfin : BidFinite x := finite_of_expo (by decide) (by decide) hxe
  have hyfin : BidFinite y := dpd_finite rfl hye
  have hmant : bcdDpd64 y = rebcdLoop 16 (mantBid64 x) 0 := by
    have hcoef : (mantBid64 x).toNat = (bidDec 53 398 x).coef := mantBid_eq (by decide) (by decide)
    refine BitVec.eq_of_toNat_eq ?_
    rw [bcdDpd64_bcd, rebcdLoop_bcd, hcoef, hx, hy]
  have hq : quantexpdpd64 y = quantexpbid64 x := by
    have hxlo : (bidDec 53 398 x).expo ≠ -398 := by rw [hx]; omega
    have hne : x ≠ 0 := ne_zero_of_expo hxlo
    have hread : quantexpbid64 x = d.expo := (quantexpBid_eq (by decide) hne).trans (congrArg Dec.expo hx)
    rw [hread, quantexpdpd64_eq (by rw [hy]; omega), hy, hexpo]
  have hs : (if mantBid64 x ≠ 0 then signBits x else 0) = if mantDpd64 y ≠ 0 then signBits y else 0 :=
    sign_alike (k := 5) (c := 8) (p := 53) rfl (by decide) (by decide) (hx.trans hy.symm)
  have htext : dpd64tostr bsz y = bid64tostr bsz x := by
    rw [dpd64tostr_eq, hmant, hq, ← hs, bid64tostr]
  rw [d64tostrDpd, d64tostr, (special64 hyfin).1, (special64 hyfin).2, (special64 hxfin).1, (special64 hxfin).2, htext]
  rfl

theorem tostr32_alike {x y : BitVec 32} {d : Dec} (hx : bidDec 23 101 x = d) (hy : dpdDec 2 6 101 y = d) (hlo : -101 < d.expo)
    (hhi : d.expo ≤ 90) : d32tostrDpd bsz y = d32tostr bsz x := by
  have hxe : (bidDec 23 101 x).expo + 101 < 3 * 2 ^ (32 - 3 - 23) := by rw [hx]; omega
  have hye : (dpdDec 2 6 101 y).expo + 101 < 3 * 2 ^ 6 := by rw [hy]; omega
  have hxfin : BidFinite x := finite_of_expo (by decide) (by decide) hxe
  have hyfin : BidFinite y := dpd_finite rfl hye
  have hmant : bcdDpd32 y = rebcdLoop32 7 (mantBid32 x) 0 := by
    have hcoef : (mantBid32 x).toNat = (bidDec 23 101 x).coef := mantBid_eq (by decide) (by decide)
    refine BitVec.eq_of_toNat_eq ?_
    rw [bcdDpd32_bcd, rebcdLoop32_bcd, hcoef, hx, hy]
  have hq : quantexpdpd32 y = quantexpbid32 x := by
    have hxlo : (bidDec 23 101 x).expo ≠ -101 := by rw [hx]; omega
    have hne : x ≠ 0 := ne_zero_of_expo hxlo
    have hread : quantexpbid32 x = d.expo := (quantexpBid_eq (by decide) hne).trans (congrArg Dec.expo hx)
    rw [hread, quantexpdpd32_eq (by rw [hy]; omega), hy]
  have hs : (if mantBid32 x ≠ 0 then signBits x else 0) = if mantDpd32 y ≠ 0 then signBits y else 0 :=
    sign_alike (k := 2) (c := 6) (p := 23) rfl (by decide) (by decide) (hx.trans hy.symm)
  have htext : dpd32tostr bsz y = bid32tostr bsz x := by
    rw [dpd32tostr_eq, hmant, hq, ← hs, bid32tostr]
  rw [d32tostrDpd, d32tostr, (special32 hyfin).1, (special32 hyfin).2, (special32 hxfin).1, (special32 hxfin).2, htext]
  rfl

end Books.Dfp754
