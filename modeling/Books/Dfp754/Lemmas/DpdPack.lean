import Books.Dfp754.Lemmas.Declet
import Books.Dfp754.Lemmas.Mirror

/-!
# 三桁ずつ詰めた語の欄
-/

namespace Books.Dfp754

open Books.Lib

variable {w k c pos lo len : Nat} {o : Join} {m u : BitVec w}

/-! ## 三桁の組 -/

theorem declet_toNat (hw : 12 ≤ w) (hm : Digits (· < 10) 16 (3 * (k + 1)) m.toNat) :
    ((packDeclet ((m &&& 0xfff).setWidth 32)).setWidth w).toNat = packVal (m.toNat % 4096) ∧
      packVal (m.toNat % 4096) < 1024 := by
  have hlt : packVal (m.toNat % 4096) < 1024 := packVal_digits hm |>.head
  have h12 : (2 : Nat) ^ 12 ≤ 2 ^ w := Nat.pow_le_pow_right (by decide) hw
  have hlow : (m &&& 0xfff).toNat = m.toNat % 4096 := by
    refine (toNat_mask 12 hw).trans ?_
    rw [fld_eq, Nat.pow_zero, Nat.div_one]
    rfl
  have hin : ((m &&& 0xfff).setWidth 32).toNat = m.toNat % 4096 := by
    rw [BitVec.toNat_setWidth, hlow, Nat.mod_eq_of_lt (Nat.lt_trans (Nat.mod_lt _ (by decide)) (by decide))]
  have hout : (packDeclet ((m &&& 0xfff).setWidth 32)).toNat = packVal (m.toNat % 4096) := by
    rw [packDeclet_toNat, hin]
  refine ⟨?_, hlt⟩
  rw [BitVec.toNat_setWidth, hout, Nat.mod_eq_of_lt (by omega)]

theorem packDeclets_fst : (packDeclets o k pos m u).1 = m >>> (12 * k) := by
  induction k generalizing pos m u with
  | zero => rw [packDeclets, Nat.mul_zero, BitVec.ushiftRight_zero]
  | succ k ih => rw [packDeclets, ih, ← BitVec.shiftRight_add, Nat.mul_succ, Nat.add_comm]

theorem packDeclets_frame (hw : 12 ≤ w) (hm : Digits (· < 10) 16 (3 * k) m.toNat) (hlen : lo + len ≤ w)
    (hout : lo + len ≤ pos ∨ pos + 10 * k ≤ lo) : fld (packDeclets o k pos m u).2 lo len = fld u lo len := by
  induction k generalizing pos m u with
  | zero => rfl
  | succ k ih =>
      obtain ⟨hval, hlt⟩ := declet_toNat hw hm
      have hm' : Digits (· < 10) 16 (3 * k) (m >>> 12).toNat := by
        rw [toNat_shr]
        exact (show Digits (· < 10) 16 (3 + 3 * k) m.toNat by rwa [Nat.add_comm, ← Nat.mul_succ]).shift
      rw [packDeclets, ih hm' (by omega)]
      refine o.fld_left ?_
      rcases hout with h | h
      · exact fld_shl_low h
      · rw [fld_shl (by omega) hlen]
        have hpow : (2 : Nat) ^ 10 ≤ 2 ^ (lo - pos) := Nat.pow_le_pow_right (by decide) (by omega)
        exact fld_high (Nat.lt_of_lt_of_le (hval.trans_lt hlt) hpow)

theorem packDeclets_value (hw : 12 ≤ w) (hm : Digits (· < 10) 16 (3 * k) m.toNat) (hpos : pos + 10 * k ≤ w)
    (hu : ∀ lo len, pos ≤ lo → lo + len ≤ pos + 10 * k → fld u lo len = 0) :
    fld (packDeclets o k pos m u).2 pos (10 * k) = recode packVal 4096 1024 k m.toNat := by
  induction k generalizing pos m u with
  | zero => rw [Nat.mul_zero, recode_zero]; exact fld_eq_zero (fun j hj => by omega)
  | succ k ih =>
      obtain ⟨hval, hlt⟩ := declet_toNat hw hm
      have hm' : Digits (· < 10) 16 (3 * k) (m >>> 12).toNat := by
        rw [toNat_shr]
        exact (show Digits (· < 10) 16 (3 + 3 * k) m.toNat by rwa [Nat.add_comm, ← Nat.mul_succ]).shift
      have hlow : ∀ u' : BitVec w, fld (packDeclets o k (pos + 10) (m >>> 12) u').2 pos 10 = fld u' pos 10 :=
        fun u' => packDeclets_frame hw hm' (by omega) (Or.inl (Nat.le_refl _))
      have hhigh : ∀ lo len, pos + 10 ≤ lo → lo + len ≤ pos + 10 + 10 * k →
          fld (o.app u ((packDeclet ((m &&& 0xfff).setWidth 32)).setWidth w <<< pos)) lo len = 0 := by
        intro lo len h1 h2
        rw [o.fld_right (hu lo len (by omega) (by omega)), fld_shl (by omega) (by omega)]
        have hpow : (2 : Nat) ^ 10 ≤ 2 ^ (lo - pos) := Nat.pow_le_pow_right (by decide) (by omega)
        exact fld_high (Nat.lt_of_lt_of_le (hval.trans_lt hlt) hpow)
      rw [packDeclets, Nat.mul_succ, Nat.add_comm (10 * k), fld_add, hlow, ih hm' (by omega) hhigh,
        o.fld_right (hu pos 10 (Nat.le_refl _) (by omega)), fld_shl (Nat.le_refl _) (by omega), Nat.sub_self,
        fld_of_lt (hval.trans_lt hlt), hval, toNat_shr, recode_succ]
      rfl

/-! ## 指数のビットの並べ替え -/

variable {rex : BitVec 32}

theorem high_out {v n : Nat} {z : BitVec v} (h : lo + len ≤ c + n ∨ c + n + 2 ≤ lo) :
    fld ((z &&& (3#v <<< c)) <<< n) lo len = 0 := by
  refine fld_eq_zero (fun j hj => ?_)
  rw [BitVec.getLsbD_shiftLeft, BitVec.getLsbD_and, show (3#v) = mask 2 from rfl, getLsbD_ones]
  simp only [Bool.and_eq_false_iff, Bool.not_eq_false', decide_eq_true_eq, decide_eq_false_iff_not]
  omega

theorem high_in {v n : Nat} {z : BitVec v} (h : c + n + 2 ≤ v) : fld ((z &&& (3#v <<< c)) <<< n) (c + n) 2 = fld z c 2 := by
  rw [fld_shl (by omega) h, Nat.add_sub_cancel]
  refine fld_and_ones (fun j hj => ?_)
  rw [show (3#v) = mask 2 from rfl, getLsbD_ones]
  simp only [Bool.and_eq_true, decide_eq_true_eq]
  omega

theorem spread_low (hc : c + 5 ≤ 32) (big : Bool) : fld (spreadExpo o c big rex) 0 c = fld rex 0 c := by
  cases big with
  | false =>
      rw [spreadExpo, if_neg (by decide), o.fld_right (high_out (by omega)), fld_mask_in (by omega) (by omega)]
  | true =>
      rw [spreadExpo, if_pos rfl, o.fld_left (fld_shl_low (by omega)), o.fld_right (high_out (by omega)),
        fld_mask_in (by omega) (by omega)]

theorem spread_high (big : Bool) (hlo : c + 5 ≤ lo) (hlen : lo + len ≤ 32) : fld (spreadExpo o c big rex) lo len = 0 := by
  cases big with
  | false => rw [spreadExpo, if_neg (by decide), o.fld_left (fld_mask_out (by omega)), high_out (by omega)]
  | true =>
      have hflag : fld (3#32 <<< (c + 3)) lo len = 0 := by
        rw [fld_shl (by omega) hlen]
        refine fld_high (Nat.lt_of_lt_of_le (show (3#32).toNat < 2 ^ 2 by decide) ?_)
        exact Nat.pow_le_pow_right (by decide) (by omega)
      rw [spreadExpo, if_pos rfl, o.fld_left hflag, o.fld_left (fld_mask_out (by omega)), high_out (by omega)]

theorem spread_small (rex : BitVec 32) (hc : c + 5 ≤ 32) :
    fld (spreadExpo o c false rex) c 3 = 0 ∧ fld (spreadExpo o c false rex) (c + 3) 2 = fld rex c 2 := by
  rw [spreadExpo, if_neg (by decide)]
  constructor
  · rw [o.fld_left (fld_mask_out (by omega)), high_out (by omega)]
  · rw [o.fld_left (fld_mask_out (by omega)), high_in (by omega)]

/-- 先頭の桁が 8 以上なら、印が一番上にあり、上の二ビットはその下にある。 -/
theorem spread_big (rex : BitVec 32) (hc : c + 5 ≤ 32) :
    fld (spreadExpo o c true rex) c 1 = 0 ∧ fld (spreadExpo o c true rex) (c + 1) 2 = fld rex c 2 ∧
      fld (spreadExpo o c true rex) (c + 3) 2 = 3 := by
  rw [spreadExpo, if_pos rfl]
  refine ⟨?_, ?_, ?_⟩
  · rw [o.fld_left (fld_shl_low (by omega)), o.fld_left (fld_mask_out (by omega)), high_out (by omega)]
  · rw [o.fld_left (fld_shl_low (by omega)), o.fld_left (fld_mask_out (by omega)), high_in (by omega)]
  · have hrest : fld (o.app ((rex &&& (3#32 <<< c)) <<< 1) (rex &&& mask c)) (c + 3) 2 = 0 := by
      rw [o.fld_left (fld_mask_out (by omega)), high_out (by omega)]
    rw [o.fld_right hrest]
    exact fld_ones 2 (c + 3) (by omega)

end Books.Dfp754
