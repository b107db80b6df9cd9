import Books.Dfp754.Lemmas.Parse

/-!
# 詰めた十進の丸め
-/

namespace Books.Dfp754

open Books.Lib

variable {w N m t sh fuel : Nat} {roff : Int} {mant : BitVec w}

/-! ## 送られる桁 -/

/-- 下から続く桁 `s` の数。`N` 桁まで数える。 -/
def trail (s : Nat) : Nat → Nat → Nat
  | 0, _ => 0
  | N + 1, m => if m % 16 = s then trail s N (m / 16) + 1 else 0

theorem trail_le (s N m : Nat) : trail s N m ≤ N := by
  induction N generalizing m with
  | zero => exact Nat.le_refl 0
  | succ N ih =>
      rw [trail]
      split
      · exact Nat.succ_le_succ (ih _)
      · exact Nat.zero_le _

theorem trail_digit {s i : Nat} (h : i < trail s N m) : m / 16 ^ i % 16 = s := by
  induction N generalizing m i with
  | zero => exact absurd h (Nat.not_lt_zero i)
  | succ N ih =>
      rw [trail] at h
      split at h
      · rename_i hs
        cases i with
        | zero => simpa using hs
        | succ i =>
            rw [Nat.pow_succ', ← Nat.div_div_eq_div_mul]
            exact ih (by omega)
      · exact absurd h (Nat.not_lt_zero i)

theorem trail_stop {s : Nat} (h : trail s N m < N) : m / 16 ^ trail s N m % 16 ≠ s := by
  induction N generalizing m with
  | zero => exact absurd h (Nat.not_lt_zero _)
  | succ N ih =>
      rw [trail] at h ⊢
      split
      · rename_i hs
        rw [if_pos hs] at h
        rw [Nat.pow_succ', ← Nat.div_div_eq_div_mul]
        exact ih (by omega)
      · rename_i hs
        simpa using hs

theorem eq_zero_of_trail (ht : trail 0 N m = N) (hm : m < 16 ^ N) : m = 0 := by
  induction N generalizing m with
  | zero => simpa using hm
  | succ N ih =>
      rw [trail] at ht
      split at ht
      · have hdiv : m / 16 = 0 := ih (Nat.succ.inj ht) (Nat.div_lt_of_lt_mul (by rwa [← Nat.pow_succ']))
        omega
      · exact absurd ht (Nat.succ_ne_zero N).symm

/-! ## 繰り返し -/

/-- 丸めの向きと、そこで次の桁へ送られる桁。 -/
def Carry (roff : Int) (s : Nat) : Prop := roff = 1 ∧ s = 9 ∨ roff = -1 ∧ s = 0

/-- 丸めた桁の値。送られない桁では一つだけ増減し、送られる桁では 9 を超える。 -/
theorem rounded_toNat (hw : 5 ≤ w) {s : Nat} (hc : Carry roff s) (hd : mant.toNat % 16 < 10) :
    if mant.toNat % 16 = s then 9 < ((mant &&& 0xf) + BitVec.ofInt w roff).toNat
    else (((mant &&& 0xf) + BitVec.ofInt w roff).toNat : Int) = (mant.toNat % 16 : Nat) + roff := by
  have h := two_pow_le hw
  have hn := toNat_nibble (by omega) mant
  rcases hc with ⟨rfl, rfl⟩ | ⟨rfl, rfl⟩
  · have h1 : (BitVec.ofInt w 1).toNat = 1 := by
      rw [show BitVec.ofInt w 1 = 1#w from BitVec.ofInt_ofNat .., toNat_lit (by omega)]
    rw [BitVec.toNat_add, hn, h1, Nat.mod_eq_of_lt (show mant.toNat % 16 + 1 < 2 ^ w by omega)]
    split <;> omega
  · rw [BitVec.toNat_add, hn, ofInt_neg_one, BitVec.toNat_allOnes]
    split
    · rename_i h0
      rw [h0, Nat.zero_add, Nat.mod_eq_of_lt (show 2 ^ w - 1 < 2 ^ w by omega)]
      omega
    · rename_i h0
      rw [show mant.toNat % 16 + (2 ^ w - 1) = mant.toNat % 16 - 1 + 2 ^ w by omega, Nat.add_mod_right,
        Nat.mod_eq_of_lt (show mant.toNat % 16 - 1 < 2 ^ w by omega)]
      omega

/-- 繰り返しは、送られる桁の上で続き、そうでない桁で止まる。 -/
theorem nine_lt_iff (hw : 5 ≤ w) {s : Nat} (hc : Carry roff s) (hd : mant.toNat % 16 < 10) :
    9 < (mant &&& 0xf) + BitVec.ofInt w roff ↔ mant.toNat % 16 = s := by
  have h := two_pow_le hw
  have h9 : (9 : BitVec w).toNat = 9 := toNat_lit (d := 9) (by omega)
  have hr := rounded_toNat hw hc hd
  rw [BitVec.lt_def, h9]
  split at hr
  · rename_i hs
    exact ⟨fun _ => hs, fun _ => hr⟩
  · rename_i hs
    refine ⟨fun hlt => ?_, fun h => absurd h hs⟩
    rcases hc with ⟨rfl, rfl⟩ | ⟨rfl, rfl⟩ <;> omega

/-- 送られる桁が `t` 個続いた所で止まる。 -/
theorem roundLoop_eq (hw : 5 ≤ w) {s : Nat} (hc : Carry roff s) (hd : Digits (· < 10) 16 (t + 1) mant.toNat)
    (hs : ∀ i, i < t → mant.toNat / 16 ^ i % 16 = s) (ht : mant.toNat / 16 ^ t % 16 ≠ s) :
    roundLoop roff fuel mant sh =
      if t < fuel then
        some (mant >>> (4 * t), ((mant >>> (4 * t)) &&& 0xf) + BitVec.ofInt w roff, sh + 4 * t)
      else none := by
  induction t generalizing fuel mant sh with
  | zero =>
      rw [Nat.pow_zero, Nat.div_one] at ht
      cases fuel with
      | zero => rfl
      | succ fuel =>
          rw [roundLoop, if_neg (fun h => ht ((nine_lt_iff hw hc hd.head).1 h)), if_pos (Nat.succ_pos _)]
          simp
  | succ t ih =>
      have h0 : mant.toNat % 16 = s := by simpa using hs 0 (Nat.succ_pos t)
      have hshift : (mant >>> 4).toNat = mant.toNat / 16 := toNat_shr mant 4
      have hdiv : ∀ i, (mant >>> 4).toNat / 16 ^ i = mant.toNat / 16 ^ (i + 1) := by
        intro i
        rw [hshift, Nat.div_div_eq_div_mul, ← Nat.pow_succ']
      cases fuel with
      | zero => rfl
      | succ fuel =>
          rw [roundLoop, if_pos ((nine_lt_iff hw hc hd.head).2 h0),
            ih (by rw [hshift]; exact hd.tail) (fun i hi => by rw [hdiv]; exact hs (i + 1) (by omega)) (by rw [hdiv]; exact ht),
            ← BitVec.shiftRight_add, show 4 + 4 * t = 4 * (t + 1) by omega, show sh + 4 + 4 * t = sh + 4 * (t + 1) by omega]
          simp only [Nat.add_lt_add_iff_right]

/-- 空の仮数を減らす繰り返しは、終わらない。 -/
theorem roundLoop_zero (hw : 5 ≤ w) (fuel sh : Nat) : roundLoop (-1) fuel (0 : BitVec w) sh = none := by
  have h0 : (0 : BitVec w).toNat = 0 := BitVec.toNat_zero
  induction fuel generalizing sh with
  | zero => rfl
  | succ fuel ih =>
      have hlt : 9 < ((0 : BitVec w) &&& 0xf) + BitVec.ofInt w (-1) :=
        (nine_lt_iff hw (Or.inr ⟨rfl, rfl⟩) (by rw [h0]; decide)).2 (by rw [h0])
      rw [roundLoop, if_pos hlt, show (0 : BitVec w) >>> 4 = 0 from BitVec.zero_ushiftRight ..]
      exact ih _

end Books.Dfp754
