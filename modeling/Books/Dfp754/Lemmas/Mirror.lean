import Books.Dfp754.Lemmas.Bid

/-!
# 詰めた十進から二進の仮数へ
-/

namespace Books.Dfp754

open Books.Lib

variable {w : Nat}

/-! ## 桁の並びの反転 -/

/-- `s` ビットの塊を隣と入れ替えたときの、元のビットの位置。 -/
def swapPos (s j : Nat) : Nat := if j / s % 2 = 0 then j + s else j - s

theorem getLsbD_swapHalves {s : Nat} {hi lo : BitVec w} (hs : 0 < s)
    (hhi : ∀ j, j < w → hi.getLsbD j = decide (j / s % 2 = 1)) (hlo : ∀ j, j < w → lo.getLsbD j = decide (j / s % 2 = 0))
    (x : BitVec w) {j : Nat} (hj : j < w) : (swapHalves s hi lo x).getLsbD j = x.getLsbD (swapPos s j) := by
  have hup : (s + j) / s = j / s + 1 := by rw [Nat.add_comm, Nat.add_div_right j hs]
  have hright : ((x &&& hi) >>> s).getLsbD j = (x.getLsbD (s + j) && decide (j / s % 2 = 0)) := by
    rw [BitVec.getLsbD_ushiftRight, BitVec.getLsbD_and]
    by_cases hw : s + j < w
    · rw [hhi _ hw, hup]
      congr 1
      exact decide_eq_decide.2 (by omega)
    · rw [BitVec.getLsbD_of_ge x _ (by omega), Bool.false_and, Bool.false_and]
  have hleft : ((x &&& lo) <<< s).getLsbD j = (x.getLsbD (j - s) && decide (j / s % 2 = 1)) := by
    rw [BitVec.getLsbD_shiftLeft, BitVec.getLsbD_and, hlo _ (by omega)]
    by_cases hjs : j < s
    · rw [Nat.div_eq_of_lt hjs]
      simp [hjs]
    · have hdown : j / s = (j - s) / s + 1 := by rw [← Nat.add_div_right _ hs, Nat.sub_add_cancel (by omega)]
      rw [hdown]
      simp only [hj, hjs, decide_true, decide_false, Bool.not_false, Bool.and_true, Bool.true_and]
      congr 1
      exact decide_eq_decide.2 (by omega)
  rw [swapHalves, BitVec.getLsbD_xor, hright, hleft, swapPos]
  rcases Nat.mod_two_eq_zero_or_one (j / s) with h | h
  · rw [if_pos h, h, Nat.add_comm j s]
    simp
  · rw [if_neg (by omega), h]
    simp

theorem getLsbD_mirror64 (x : BitVec 64) {j : Nat} (hj : j < 64) :
    (mirror64 x).getLsbD j = x.getLsbD (60 - 4 * (j / 4) + j % 4) := by
  have hstep : ∀ j, j < 64 → swapPos 4 j < 64 ∧ swapPos 8 j < 64 ∧ swapPos 16 j < 64 := by decide
  have hpos : ∀ j, j < 64 → swapPos 32 (swapPos 16 (swapPos 8 (swapPos 4 j))) = 60 - 4 * (j / 4) + j % 4 := by decide
  have h4 := (hstep j hj).1
  have h8 := (hstep _ h4).2.1
  have h16 := (hstep _ h8).2.2
  rw [mirror64, getLsbD_swapHalves (by decide) (by decide) (by decide) _ hj,
    getLsbD_swapHalves (by decide) (by decide) (by decide) _ h4,
    getLsbD_swapHalves (by decide) (by decide) (by decide) _ h8,
    getLsbD_swapHalves (by decide) (by decide) (by decide) _ h16, hpos j hj]

theorem getLsbD_mirror32 (x : BitVec 32) {j : Nat} (hj : j < 32) :
    (mirror32 x).getLsbD j = x.getLsbD (28 - 4 * (j / 4) + j % 4) := by
  have hstep : ∀ j, j < 32 → swapPos 4 j < 32 ∧ swapPos 8 j < 32 := by decide
  have hpos : ∀ j, j < 32 → swapPos 16 (swapPos 8 (swapPos 4 j)) = 28 - 4 * (j / 4) + j % 4 := by decide
  have h4 := (hstep j hj).1
  have h8 := (hstep _ h4).2
  rw [mirror32, getLsbD_swapHalves (by decide) (by decide) (by decide) _ hj,
    getLsbD_swapHalves (by decide) (by decide) (by decide) _ h4,
    getLsbD_swapHalves (by decide) (by decide) (by decide) _ h8, hpos j hj]

theorem nibble_eq (x : BitVec w) (i : Nat) : fld x (4 * i) 4 = x.toNat / 16 ^ i % 16 := by
  rw [fld_eq, Nat.pow_mul]
  rfl

theorem mirror64_nibble (x : BitVec 64) {i : Nat} (hi : i < 15) :
    fld (mirror64 x >>> 4) (4 * i) 4 = x.toNat / 16 ^ (14 - i) % 16 := by
  rw [fld_shr, ← nibble_eq]
  refine fld_congr (fun j hj => ?_)
  rw [getLsbD_mirror64 x (by omega)]
  congr 1
  omega

theorem mirror32_nibble (x : BitVec 32) {i : Nat} (hi : i < 7) :
    fld (mirror32 x >>> 4) (4 * i) 4 = x.toNat / 16 ^ (6 - i) % 16 := by
  rw [fld_shr, ← nibble_eq]
  refine fld_congr (fun j hj => ?_)
  rw [getLsbD_mirror32 x (by omega)]
  congr 1
  omega

/-! ## 基数の変換 -/

/-- 上の桁から順に読む繰り返しは、十進の数を作る。 -/
theorem bidLoop_toNat (hw : 4 ≤ w) {n i : Nat} {v m : BitVec w}
    (hv : ∀ j, j < i → fld v (4 * j) 4 = n / 16 ^ (i - 1 - j) % 16) :
    (bidLoop i v m).toNat = (m.toNat * 10 ^ i + recode id 16 10 i n) % 2 ^ w := by
  induction i generalizing v m with
  | zero => rw [bidLoop, recode_zero, Nat.pow_zero, Nat.mul_one, Nat.add_zero, Nat.mod_eq_of_lt m.isLt]
  | succ i ih =>
      have h16 : (2 : Nat) ^ 4 ≤ 2 ^ w := Nat.pow_le_pow_right (by decide) hw
      have hd : (v &&& 0xf).toNat = n / 16 ^ i % 16 := by
        have h0 := hv 0 (Nat.succ_pos i)
        rw [Nat.mul_zero, show i + 1 - 1 - 0 = i by omega] at h0
        rw [← h0]
        exact toNat_mask 4 hw
      have h10 : (10 : BitVec w).toNat = 10 := by
        show (BitVec.ofNat w 10).toNat = 10
        rw [BitVec.toNat_ofNat, Nat.mod_eq_of_lt (by omega)]
      have hshift : ∀ j, j < i → fld (v >>> 4) (4 * j) 4 = n / 16 ^ (i - 1 - j) % 16 := by
        intro j hj
        rw [fld_shr, show 4 * j + 4 = 4 * (j + 1) by omega, hv (j + 1) (by omega),
          show i + 1 - 1 - (j + 1) = i - 1 - j by omega]
      have hstep : (m.toNat * 10 % 2 ^ w + n / 16 ^ i % 16) % 2 ^ w ≡ m.toNat * 10 + n / 16 ^ i % 16 [MOD 2 ^ w] :=
        (Nat.mod_modEq _ _).trans ((Nat.mod_modEq _ _).add_right _)
      calc (bidLoop (i + 1) v m).toNat
          = ((m.toNat * 10 % 2 ^ w + n / 16 ^ i % 16) % 2 ^ w * 10 ^ i + recode id 16 10 i n) % 2 ^ w := by
            rw [bidLoop, ih hshift, BitVec.toNat_add, BitVec.toNat_mul, h10, hd]
        _ = ((m.toNat * 10 + n / 16 ^ i % 16) * 10 ^ i + recode id 16 10 i n) % 2 ^ w :=
            (hstep.mul_right _).add_right _
        _ = (m.toNat * 10 ^ (i + 1) + recode id 16 10 (i + 1) n) % 2 ^ w := by
            rw [recode_snoc, id, Nat.pow_succ']
            congr 1
            ring

theorem bidLoop_recode (hw : 4 ≤ w) {n i : Nat} {v : BitVec w} (hn : Digits (· < 10) 16 i n) (hi : 10 ^ i ≤ 2 ^ w)
    (hv : ∀ j, j < i → fld v (4 * j) 4 = n / 16 ^ (i - 1 - j) % 16) :
    (bidLoop i v 0).toNat = recode id 16 10 i n := by
  have hlt : recode id 16 10 i n < 2 ^ w := Nat.lt_of_lt_of_le (recode_lt hn) hi
  rw [bidLoop_toNat hw hv, show (0 : BitVec w).toNat = 0 from BitVec.toNat_zero, Nat.zero_mul, Nat.zero_add,
    Nat.mod_eq_of_lt hlt]

/-! ## 組み立て -/

theorem sign_bit (hw : 0 < w) {s : Int} (hs : IsSign s) : (BitVec.ofInt w s).getLsbD 0 = decide (s ≠ 0) := by
  rcases hs with rfl | rfl | rfl
  · simp
  · simp [BitVec.ofInt_ofNat, hw]
  · rw [ofInt_neg_one]
    simp [hw]

/-- `bcd64tobid` が表す十進小数は、下の 15 桁の仮数を持つ。 -/
theorem bcd64tobid_dec {b : Bcd 64} (hm : Digits (· < 10) 16 15 b.mant.toNat) (hlo : -398 ≤ b.expo) (hhi : b.expo ≤ 369)
    (hs : IsSign b.sign) :
    bidDec 53 398 (bcd64tobid b) = ⟨decide (b.sign ≠ 0), recode id 16 10 15 b.mant.toNat, b.expo⟩ := by
  have hloop : (bidLoop 15 (mirror64 b.mant >>> 4) 0).toNat = recode id 16 10 15 b.mant.toNat :=
    bidLoop_recode (by decide) hm (by decide) (fun j hj => mirror64_nibble b.mant hj)
  have hlt : recode id 16 10 15 b.mant.toNat < 10 ^ 15 := recode_lt hm
  have hex : ((BitVec.ofInt 64 (b.expo + 398)).toNat : Int) = b.expo + 398 := ofInt_toNat (by omega) (by omega)
  rw [bcd64tobid, assembleBid64, bidDec_assemble (by decide) (by decide) (by omega) (by omega), hloop, hex,
    sign_bit (by decide) hs]
  simp

theorem bcd32tobid_dec {b : Bcd 32} (hm : Digits (· < 10) 16 7 b.mant.toNat) (hlo : -101 ≤ b.expo) (hhi : b.expo ≤ 90)
    (hs : IsSign b.sign) :
    bidDec 23 101 (bcd32tobid b) = ⟨decide (b.sign ≠ 0), recode id 16 10 7 b.mant.toNat, b.expo⟩ := by
  have hloop : (bidLoop 7 (mirror32 b.mant >>> 4) 0).toNat = recode id 16 10 7 b.mant.toNat :=
    bidLoop_recode (by decide) hm (by decide) (fun j hj => mirror32_nibble b.mant hj)
  have hlt : recode id 16 10 7 b.mant.toNat < 10 ^ 7 := recode_lt hm
  have hex : ((BitVec.ofInt 32 (b.expo + 101)).toNat : Int) = b.expo + 101 := ofInt_toNat (by omega) (by omega)
  rw [bcd32tobid, assembleBid32, bidDec_assemble (by decide) (by decide) (by omega) (by omega), hloop, hex,
    sign_bit (by decide) hs]
  simp

end Books.Dfp754
