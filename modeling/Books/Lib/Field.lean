import Mathlib.Data.Nat.Bitwise
import Mathlib.Order.Lattice
import Mathlib.Algebra.Order.Ring.Int
import Mathlib.Tactic.Positivity

/-!
# 語のビット欄

固定長の語 `x` の、下から `lo` 番目のビットから始まる長さ `len` の欄を、自然数 `fld x lo len` として読む。語を欄ごとに
組み立てる演算（左へのずらしと、重ならない欄の `^`・`|`）の後で、各欄に何が入っているかを述べる。
-/

namespace Books.Lib

variable {w n lo lo' len k j : Nat} {x y : BitVec w}

/-- 下から `lo` 番目のビットから始まる、長さ `len` の欄。 -/
def fld (x : BitVec w) (lo len : Nat) : Nat := (x.extractLsb' lo len).toNat

theorem fld_eq (x : BitVec w) (lo len : Nat) : fld x lo len = x.toNat / 2 ^ lo % 2 ^ len := by
  rw [fld, BitVec.extractLsb'_toNat, Nat.shiftRight_eq_div_pow]

theorem fld_lt (x : BitVec w) (lo len : Nat) : fld x lo len < 2 ^ len := (x.extractLsb' lo len).isLt

/-! ## ビットごとの比較 -/

theorem fld_congr {v : Nat} {y : BitVec v} (h : ∀ j, j < len → x.getLsbD (lo + j) = y.getLsbD (lo' + j)) :
    fld x lo len = fld y lo' len := by
  refine congrArg BitVec.toNat (BitVec.eq_of_getLsbD_eq (fun j hj => ?_))
  rw [BitVec.getLsbD_extractLsb', BitVec.getLsbD_extractLsb', h j hj]

theorem fld_eq_zero (h : ∀ j, j < len → x.getLsbD (lo + j) = false) : fld x lo len = 0 := by
  have h0 : fld x lo len = fld (0#w) lo len := fld_congr (fun j hj => by rw [h j hj, BitVec.getLsbD_zero])
  rw [h0, fld, BitVec.extractLsb'_zero, BitVec.toNat_ofNat, Nat.zero_mod]

/-- 欄に収まる数は、その欄だけの語である。 -/
theorem fld_of_lt (h : x.toNat < 2 ^ len) : fld x 0 len = x.toNat := by
  rw [fld_eq, Nat.pow_zero, Nat.div_one, Nat.mod_eq_of_lt h]

theorem fld_high (h : x.toNat < 2 ^ lo) : fld x lo len = 0 := by
  rw [fld_eq, Nat.div_eq_of_lt h, Nat.zero_mod]

theorem fld_add (x : BitVec w) (lo m len : Nat) : fld x lo (m + len) = fld x lo m + 2 ^ m * fld x (lo + m) len := by
  simp only [fld_eq]
  rw [Nat.pow_add, Nat.mod_mul, Nat.pow_add, Nat.div_div_eq_div_mul]

/-! ## ずらした語 -/

theorem fld_shl_low (h : lo + len ≤ k) : fld (x <<< k) lo len = 0 :=
  fld_eq_zero (fun j hj => by rw [BitVec.getLsbD_shiftLeft]; simp [show lo + j < k by omega])

theorem fld_shl (h : k ≤ lo) (hw : lo + len ≤ w) : fld (x <<< k) lo len = fld x (lo - k) len := by
  refine fld_congr (fun j hj => ?_)
  rw [BitVec.getLsbD_shiftLeft, show lo - k + j = lo + j - k by omega]
  simp [show ¬ lo + j < k by omega, show lo + j < w by omega]

theorem fld_shr (x : BitVec w) (k lo len : Nat) : fld (x >>> k) lo len = fld x (lo + k) len :=
  fld_congr (fun j _ => by rw [BitVec.getLsbD_ushiftRight, show k + (lo + j) = lo + k + j by omega])

theorem fld_setWidth (h : lo + len ≤ n) : fld (x.setWidth n) lo len = fld x lo len :=
  fld_congr (fun j hj => by rw [BitVec.getLsbD_setWidth]; simp [show lo + j < n by omega])

/-- 桁あふれのない左へのずらしは、掛け算である。 -/
theorem toNat_shl (h : x.toNat * 2 ^ k < 2 ^ w) : (x <<< k).toNat = x.toNat * 2 ^ k := by
  rw [BitVec.toNat_shiftLeft, Nat.shiftLeft_eq, Nat.mod_eq_of_lt h]

theorem toNat_shr (x : BitVec w) (k : Nat) : (x >>> k).toNat = x.toNat / 2 ^ k := by
  rw [BitVec.toNat_ushiftRight, Nat.shiftRight_eq_div_pow]

/-! ## 下のビットを残すマスク -/

/-- 下の `n` ビット。 -/
def mask (n : Nat) : BitVec w := BitVec.ofNat w (2 ^ n - 1)

example : (mask 53 : BitVec 64) = 0x1fffffffffffff#64 := by decide

theorem getLsbD_mask (k : Nat) : (mask k : BitVec w).getLsbD j = (decide (j < w) && decide (j < k)) := by
  rw [mask, BitVec.getLsbD_ofNat, Nat.testBit_two_pow_sub_one]

theorem toNat_mask (k : Nat) (h : k ≤ w) : (x &&& mask k).toNat = fld x 0 k := by
  have hk : 2 ^ k ≤ 2 ^ w := Nat.pow_le_pow_right (by decide) h
  have hp : 0 < 2 ^ k := Nat.two_pow_pos k
  rw [BitVec.toNat_and, mask, BitVec.toNat_ofNat, Nat.mod_eq_of_lt (by omega), Nat.and_two_pow_sub_one_eq_mod, fld_eq,
    Nat.pow_zero, Nat.div_one]

theorem toNat_nibble (hw : 4 ≤ w) (x : BitVec w) : (x &&& 0xf).toNat = x.toNat % 16 := by
  refine (toNat_mask 4 hw).trans ?_
  rw [fld_eq, Nat.pow_zero, Nat.div_one]
  rfl

theorem getLsbD_ones (n k : Nat) :
    ((mask n : BitVec w) <<< k).getLsbD j = (decide (j < w) && decide (k ≤ j) && decide (j < k + n)) := by
  rw [BitVec.getLsbD_shiftLeft, getLsbD_mask, Bool.eq_iff_iff]
  simp only [Bool.and_eq_true, Bool.not_eq_true', decide_eq_true_eq, decide_eq_false_iff_not]
  omega

theorem fld_and_ones (h : ∀ j, j < len → y.getLsbD (lo + j) = true) : fld (x &&& y) lo len = fld x lo len :=
  fld_congr (fun j hj => by rw [BitVec.getLsbD_and, h j hj, Bool.and_true])

theorem fld_and_zeros (h : ∀ j, j < len → y.getLsbD (lo + j) = false) : fld (x &&& y) lo len = 0 :=
  fld_eq_zero (fun j hj => by rw [BitVec.getLsbD_and, h j hj, Bool.and_false])

theorem fld_mask_in (hk : k ≤ w) (h : lo + len ≤ k) : fld (x &&& mask k) lo len = fld x lo len :=
  fld_and_ones (fun j hj => by rw [getLsbD_mask]; simp [show lo + j < w by omega, show lo + j < k by omega])

theorem fld_mask_out (h : k ≤ lo) : fld (x &&& mask k) lo len = 0 :=
  fld_and_zeros (fun j _ => by rw [getLsbD_mask]; simp [show ¬ lo + j < k by omega])

theorem getLsbD_of_fld {v : Nat} {y : BitVec v} (h : fld x lo len = fld y lo' len) (hj : j < len) :
    x.getLsbD (lo + j) = y.getLsbD (lo' + j) := by
  have he : x.extractLsb' lo len = y.extractLsb' lo' len := BitVec.eq_of_toNat_eq h
  have hb := congrArg (fun z => BitVec.getLsbD z j) he
  simpa [BitVec.getLsbD_extractLsb', hj] using hb

theorem fld_ones (n k : Nat) (h : k + n ≤ w) : fld ((mask n : BitVec w) <<< k) k n = 2 ^ n - 1 := by
  have hn : (2 : Nat) ^ n ≤ 2 ^ w := Nat.pow_le_pow_right (by decide) (by omega)
  have hp : 0 < 2 ^ n := Nat.two_pow_pos n
  have hv : (mask n : BitVec w).toNat = 2 ^ n - 1 := by
    rw [mask, BitVec.toNat_ofNat, Nat.mod_eq_of_lt (by omega)]
  rw [fld_shl (Nat.le_refl k) h, Nat.sub_self, fld_of_lt (by omega), hv]

theorem and_ones_eq_iff (n k : Nat) (h : k + n ≤ w) :
    x &&& ((mask n : BitVec w) <<< k) = mask n <<< k ↔ fld x k n = 2 ^ n - 1 := by
  have hin : ∀ j, j < n → ((mask n : BitVec w) <<< k).getLsbD (k + j) = true := by
    intro j hj
    rw [getLsbD_ones]
    simp [show k + j < w by omega, show j < n by omega]
  constructor
  · intro he
    rw [← fld_ones n k h, ← he, fld_and_ones hin]
  · intro hf
    refine BitVec.eq_of_getLsbD_eq (fun j hj => ?_)
    rw [BitVec.getLsbD_and]
    by_cases hr : k ≤ j ∧ j < k + n
    · have hb := getLsbD_of_fld (hf.trans (fld_ones n k h).symm) (j := j - k) (by omega)
      rw [show k + (j - k) = j by omega] at hb
      rw [hb, Bool.and_self]
    · rw [getLsbD_ones, show (decide (j < w) && decide (k ≤ j) && decide (j < k + n)) = false by
        simp only [Bool.and_eq_false_iff, decide_eq_false_iff_not]; omega, Bool.and_false]

/-- 語を、境目 `k` の上と下に分ける。 -/
theorem toNat_split (x : BitVec w) (h : k ≤ w) : x.toNat = fld x 0 k + 2 ^ k * fld x k (w - k) := by
  have hadd := fld_add x 0 k (w - k)
  rwa [show k + (w - k) = w by omega, fld_of_lt x.isLt, Nat.zero_add] at hadd

theorem toNat_and_ones (n k : Nat) (h : k + n ≤ w) : (x &&& (mask n <<< k)).toNat = 2 ^ k * fld x k n := by
  have hlow : fld (x &&& (mask n <<< k)) 0 k = 0 :=
    fld_and_zeros (fun j hj => by rw [getLsbD_ones]; simp [show ¬ k ≤ j by omega])
  have hmid : fld (x &&& (mask n <<< k)) k n = fld x k n :=
    fld_and_ones (fun j hj => by rw [getLsbD_ones]; simp [show k + j < w by omega, show j < n by omega])
  have hhigh : fld (x &&& (mask n <<< k)) (k + n) (w - k - n) = 0 :=
    fld_and_zeros (fun j hj => by rw [getLsbD_ones]; simp [show ¬ k + n + j < k + n by omega])
  have hadd := fld_add (x &&& (mask n <<< k)) k n (w - k - n)
  rw [show n + (w - k - n) = w - k by omega, hmid, hhigh] at hadd
  rw [toNat_split _ (show k ≤ w by omega), hlow, hadd, Nat.mul_zero, Nat.add_zero, Nat.zero_add]

theorem ofNat_mul_two_pow (a k : Nat) : BitVec.ofNat w (a * 2 ^ k) = BitVec.ofNat w a <<< k := by
  refine BitVec.eq_of_toNat_eq ?_
  rw [BitVec.toNat_shiftLeft, BitVec.toNat_ofNat, BitVec.toNat_ofNat, Nat.shiftLeft_eq, Nat.mod_mul_mod]

/-! ## 整数から作る語 -/

theorem ofInt_toNat {e : Int} (h0 : 0 ≤ e) (h : e < 2 ^ w) : ((BitVec.ofInt w e).toNat : Int) = e := by
  rw [BitVec.toNat_ofInt, Int.toNat_of_nonneg (Int.emod_nonneg _ (by positivity))]
  push_cast
  exact Int.emod_eq_of_lt h0 h

theorem ofInt_neg_one : BitVec.ofInt w (-1) = BitVec.allOnes w := by
  rw [BitVec.ofInt_neg, show BitVec.ofInt w 1 = 1#w from BitVec.ofInt_ofNat .., BitVec.neg_one_eq_allOnes]

theorem toNat_lit {d : Nat} (h : d < 2 ^ w) : (BitVec.ofNat w d).toNat = d := by
  rw [BitVec.toNat_ofNat, Nat.mod_eq_of_lt h]

theorem two_pow_le (h : k ≤ w) : (2 : Nat) ^ k ≤ 2 ^ w := Nat.pow_le_pow_right (by decide) h

/-! ## 符号のビット -/

theorem fld_msb (x : BitVec w) : fld x (w - 1) 1 = x.msb.toNat := by
  rw [BitVec.msb_eq_getLsbD_last, fld, BitVec.extractLsb'_toNat, Nat.shiftRight_eq_div_pow, Nat.pow_one, BitVec.getLsbD,
    Nat.testBit_eq_decide_div_mod_eq]
  rcases Nat.mod_two_eq_zero_or_one (x.toNat / 2 ^ (w - 1)) with h | h <;> simp [h]

/-! ## 重ならない欄 -/

/-- 重ならない欄を合わせる演算。 -/
inductive Join where
  | xor
  | or
deriving DecidableEq

def Join.app : Join → BitVec w → BitVec w → BitVec w
  | .xor, x, y => x ^^^ y
  | .or, x, y => x ||| y

namespace Join

theorem getLsbD (o : Join) (x y : BitVec w) (j : Nat) :
    (o.app x y).getLsbD j = if o = .xor then (x.getLsbD j ^^ y.getLsbD j) else (x.getLsbD j || y.getLsbD j) := by
  cases o with
  | xor => rw [app, BitVec.getLsbD_xor]; rfl
  | or => rw [app, BitVec.getLsbD_or]; rfl

/-- 相手の欄が空なら、欄はそのまま残る。 -/
theorem fld_left (o : Join) (h : fld y lo len = 0) : fld (o.app x y) lo len = fld x lo len := by
  have hz : y.extractLsb' lo len = 0 := BitVec.eq_of_toNat_eq (by simpa [fld] using h)
  cases o with
  | xor => rw [app, fld, fld, BitVec.extractLsb'_xor, hz]; simp
  | or => rw [app, fld, fld, BitVec.extractLsb'_or, hz]; simp

theorem fld_right (o : Join) (h : fld x lo len = 0) : fld (o.app x y) lo len = fld y lo len := by
  have hz : x.extractLsb' lo len = 0 := BitVec.eq_of_toNat_eq (by simpa [fld] using h)
  cases o with
  | xor => rw [app, fld, fld, BitVec.extractLsb'_xor, hz]; simp
  | or => rw [app, fld, fld, BitVec.extractLsb'_or, hz]; simp

/-- 欄が境目 `k` の上と下に分かれているなら、合わせた語は和になる。 -/
theorem toNat_eq (o : Join) (hx : fld x 0 k = 0) (hy : y.toNat < 2 ^ k) : (o.app x y).toNat = x.toNat + y.toNat := by
  by_cases hkw : k ≤ w
  · have hlow : fld (o.app x y) 0 k = y.toNat := by rw [o.fld_right hx, fld_of_lt hy]
    have hhigh : fld (o.app x y) k (w - k) = fld x k (w - k) := o.fld_left (fld_high hy)
    rw [toNat_split (o.app x y) hkw, toNat_split x hkw, hlow, hhigh, hx]
    omega
  · have hx0 : x = 0#w := by
      refine BitVec.eq_of_toNat_eq ?_
      have hlt : x.toNat < 2 ^ k := Nat.lt_of_lt_of_le x.isLt (Nat.pow_le_pow_right (by decide) (by omega))
      rw [← fld_of_lt hlt, hx, BitVec.toNat_ofNat, Nat.zero_mod]
    subst hx0
    cases o <;> simp [app]

end Join

theorem fld_xor_left (h : fld y lo len = 0) : fld (x ^^^ y) lo len = fld x lo len := Join.fld_left .xor h

theorem fld_xor_right (h : fld x lo len = 0) : fld (x ^^^ y) lo len = fld y lo len := Join.fld_right .xor h

/-- 欄の今の値との差を xor すると、欄は新しい値になる。 -/
theorem fld_xor_flip {u v z : BitVec w} (hx : fld x lo len = fld u lo' len) (hz : fld z lo len = fld (u ^^^ v) lo' len) :
    fld (x ^^^ z) lo len = fld v lo' len := by
  refine fld_congr (fun j hj => ?_)
  rw [BitVec.getLsbD_xor, getLsbD_of_fld hx hj, getLsbD_of_fld hz hj, BitVec.getLsbD_xor, ← Bool.xor_assoc, Bool.xor_self,
    Bool.false_xor]

/-- 下の欄での、整数の足し算。 -/
theorem fld_add_ofInt (h : len ≤ w) (u : BitVec w) (e : Int) :
    (fld (u + BitVec.ofInt w e) 0 len : Int) = (fld u 0 len + e) % 2 ^ len := by
  have hdvd : (2 : Int) ^ len ∣ 2 ^ w := pow_dvd_pow 2 h
  rw [fld_eq, fld_eq, Nat.pow_zero, Nat.div_one, Nat.div_one, BitVec.toNat_add, Nat.mod_mod_of_dvd _ (pow_dvd_pow 2 h)]
  push_cast
  rw [BitVec.toNat_ofInt, Int.toNat_of_nonneg (Int.emod_nonneg _ (by positivity))]
  push_cast
  rw [Int.emod_add_emod, Int.add_emod, Int.emod_emod_of_dvd _ hdvd, ← Int.add_emod]

/-- 下の桁が空いた語は、倍数である。 -/
theorem fld_low_eq_zero (h : 2 ^ k ∣ x.toNat) : fld x 0 k = 0 := by
  rw [fld_eq, Nat.pow_zero, Nat.div_one]
  exact Nat.mod_eq_zero_of_dvd h

end Books.Lib
