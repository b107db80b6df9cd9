import Books.Dfp754.Spec

/-!
# 二進の仮数を持つ形
-/

namespace Books.Dfp754

open Books.Lib

variable {w p : Nat} {bias : Int} {x y m ex s : BitVec w}

/-! ## 符号 -/

theorem signBits_eq : signBits x = if x.msb then -1 else 0 := by
  have hlo := BitVec.le_toInt x
  have hhi := BitVec.toInt_lt (x := x)
  have hpos : (0 : Int) < 2 ^ (w - 1) := Int.pow_pos (by decide)
  rw [signBits, BitVec.toInt_sshiftRight, Int.shiftRight_eq_div_pow, BitVec.msb_eq_toInt]
  push_cast
  by_cases h : x.toInt < 0
  · have hge : -1 ≤ x.toInt / 2 ^ (w - 1) := Int.le_ediv_of_mul_le hpos (by omega)
    have hlt : x.toInt / 2 ^ (w - 1) < 0 := Int.ediv_neg_of_neg_of_pos h hpos
    simp only [h, decide_true, if_true]
    omega
  · rw [Int.ediv_eq_zero_of_lt (by omega) hhi]
    simp [h]

theorem msb_of_fld (h : fld x (w - 1) 1 = fld s 0 1) : x.msb = s.getLsbD 0 := by
  rw [BitVec.msb_eq_getLsbD_last]
  exact getLsbD_of_fld h Nat.one_pos

/-! ## 読み取り -/

theorem long_iff (hw : 3 ≤ w) : x &&& (3#w <<< (w - 3)) = 3#w <<< (w - 3) ↔ fld x (w - 3) 2 = 3 :=
  and_ones_eq_iff 2 (w - 3) (by omega)

theorem mantBid_eq (hp : 2 ≤ p) (hw : p + 3 ≤ w) : (mantBid p x).toNat = (bidDec p bias x).coef := by
  have h4 : (4#w <<< (p - 2)).toNat = 2 ^ p := by
    have h4v : (4#w).toNat = 4 := by
      have : (2 : Nat) ^ 3 ≤ 2 ^ w := Nat.pow_le_pow_right (by decide) (by omega)
      rw [BitVec.toNat_ofNat, Nat.mod_eq_of_lt (by omega)]
    have hpow : 4 * 2 ^ (p - 2) = 2 ^ p := by
      rw [show (4 : Nat) = 2 ^ 2 from rfl, ← Nat.pow_add, show 2 + (p - 2) = p by omega]
    have hlt : (2 : Nat) ^ p < 2 ^ w := Nat.pow_lt_pow_right (by decide) (by omega)
    rw [toNat_shl (by rw [h4v, hpow]; exact hlt), h4v, hpow]
  rw [mantBid, bidDec]
  by_cases hl : fld x (w - 3) 2 = 3
  · have hmask : (x &&& mask (p - 2)).toNat = fld x 0 (p - 2) := toNat_mask (p - 2) (by omega)
    have hlow : fld (4#w <<< (p - 2)) 0 (p - 2) = 0 := fld_shl_low (by omega)
    rw [if_pos ((long_iff (by omega)).2 hl), if_pos hl]
    refine (Join.toNat_eq .xor hlow (by rw [hmask]; exact fld_lt x 0 (p - 2))).trans ?_
    rw [h4, hmask]
  · rw [if_neg (fun h => hl ((long_iff (by omega)).1 h)), if_neg hl]
    exact toNat_mask p (by omega)

theorem bidDec_neg (p : Nat) (bias : Int) (x : BitVec w) : (bidDec p bias x).neg = x.msb := by
  rw [bidDec]
  split <;> rfl

theorem quantexpBid_eq (hw : p + 3 ≤ w) (hx : x ≠ 0) : quantexpBid p bias x = (bidDec p bias x).expo := by
  have hmask : ∀ k, ((x >>> k) &&& mask (w - 1 - p)).toNat = fld x k (w - 1 - p) := by
    intro k
    rw [toNat_mask _ (by omega), fld_shr, Nat.zero_add]
  rw [quantexpBid, bidDec, if_neg hx]
  by_cases hl : fld x (w - 3) 2 = 3
  · rw [if_neg (not_not_intro ((long_iff (by omega)).2 hl)), if_pos hl, hmask]
  · rw [if_pos (fun h => hl ((long_iff (by omega)).1 h)), if_neg hl, hmask]

/-! ## 組み立て -/

theorem bit_eq_zero (hw : p < w) : m &&& (1#w <<< p) = 0 ↔ m.getLsbD p = false := by
  have hand : m &&& (1#w <<< p) = if m.getLsbD p then BitVec.twoPow w p else 0#w := BitVec.and_twoPow m p
  have hne : BitVec.twoPow w p ≠ 0#w := by
    intro h
    have h1 := congrArg (fun z => BitVec.getLsbD z p) h
    simp [hw] at h1
  rw [hand]
  cases m.getLsbD p <;> simp [hne]

theorem assemble_short (hw : p < w) (hm : m.toNat < 2 ^ p) :
    assemble p m ex s = (s <<< (w - 1) ^^^ (ex <<< p)) ^^^ (m &&& mask p) := by
  have hbit : m.getLsbD p = false := Nat.testBit_lt_two_pow hm
  rw [assemble, if_neg (not_not_intro ((bit_eq_zero hw).2 hbit))]

theorem assemble_long (hw : p < w) (hlo : 2 ^ p ≤ m.toNat) (hhi : m.toNat < 2 ^ (p + 1)) :
    assemble p m ex s = (s <<< (w - 1) ^^^ ((3#w <<< (w - 3)) ^^^ (ex <<< (p - 2)))) ^^^ (m &&& mask (p - 2)) := by
  have hbit : ¬ m.getLsbD p = false := by
    have hdiv : m.toNat / 2 ^ p = 1 := by
      rw [Nat.pow_succ] at hhi
      exact Nat.div_eq_of_lt_le (by omega) (by omega)
    rw [BitVec.getLsbD, Nat.testBit_eq_decide_div_mod_eq, hdiv]
    decide
  rw [assemble, if_pos (fun h => hbit ((bit_eq_zero hw).1 h)), ← BitVec.xor_assoc]

section
variable {e : BitVec w} {a lo len : Nat}

theorem word_low (ha : a < w) (he : fld e 0 a = 0) :
    fld ((s <<< (w - 1) ^^^ e) ^^^ (m &&& mask a)) 0 a = fld m 0 a := by
  rw [fld_xor_right, fld_mask_in (by omega) (by omega)]
  rw [fld_xor_right (fld_shl_low (by omega)), he]

theorem word_mid (hlo : a ≤ lo) (hlen : lo + len ≤ w - 1) :
    fld ((s <<< (w - 1) ^^^ e) ^^^ (m &&& mask a)) lo len = fld e lo len := by
  rw [fld_xor_left (fld_mask_out hlo), fld_xor_right (fld_shl_low hlen)]

theorem word_msb (ha : a < w) (he : fld e (w - 1) 1 = 0) :
    ((s <<< (w - 1) ^^^ e) ^^^ (m &&& mask a)).msb = s.getLsbD 0 := by
  refine msb_of_fld ?_
  rw [fld_xor_left (fld_mask_out (by omega)), fld_xor_left he, fld_shl (Nat.le_refl _) (by omega), Nat.sub_self]

end

/-- 組み立てた語が表す十進小数。 -/
theorem bidDec_assemble (hp : 2 ≤ p) (hw : p + 3 ≤ w) (hm : m.toNat < 2 ^ p + 2 ^ (p - 2))
    (hex : ex.toNat < 3 * 2 ^ (w - 3 - p)) :
    bidDec p bias (assemble p m ex s) = ⟨s.getLsbD 0, m.toNat, ex.toNat - bias⟩ := by
  have hexlt : ex.toNat < 2 ^ (w - 1 - p) := by
    rw [show w - 1 - p = w - 3 - p + 2 by omega, Nat.pow_add]
    omega
  rcases Nat.lt_or_ge m.toNat (2 ^ p) with hs | hl
  · have hexp : fld (ex <<< p) p (w - 1 - p) = ex.toNat := by
      rw [fld_shl (Nat.le_refl p) (by omega), Nat.sub_self, fld_of_lt hexlt]
    have htop : fld (ex <<< p) (w - 3) 2 ≠ 3 := by
      have hdiv : ex.toNat / 2 ^ (w - 3 - p) < 3 := Nat.div_lt_of_lt_mul (by rwa [Nat.mul_comm])
      rw [fld_shl (by omega) (by omega), fld_eq, Nat.mod_eq_of_lt (Nat.lt_trans hdiv (by decide))]
      exact Nat.ne_of_lt hdiv
    have hmsb : fld (ex <<< p) (w - 1) 1 = 0 := by
      rw [fld_shl (by omega) (by omega), fld_high hexlt]
    rw [assemble_short (by omega) hs, bidDec, word_mid (by omega) (by omega), if_neg htop,
      word_low (by omega) (fld_shl_low (by omega)), word_mid (Nat.le_refl p) (by omega), hexp,
      word_msb (by omega) hmsb, fld_of_lt hs]
  · have hhi : m.toNat < 2 ^ (p + 1) := by
      have : (2 : Nat) ^ (p - 2) ≤ 2 ^ p := Nat.pow_le_pow_right (by decide) (by omega)
      rw [Nat.pow_succ]
      omega
    have hexp : fld ((3#w <<< (w - 3)) ^^^ (ex <<< (p - 2))) (p - 2) (w - 1 - p) = ex.toNat := by
      rw [fld_xor_right (fld_shl_low (by omega)), fld_shl (Nat.le_refl _) (by omega), Nat.sub_self, fld_of_lt hexlt]
    have htop : fld ((3#w <<< (w - 3)) ^^^ (ex <<< (p - 2))) (w - 3) 2 = 3 := by
      have hz : fld (ex <<< (p - 2)) (w - 3) 2 = 0 := by
        rw [fld_shl (by omega) (by omega), show w - 3 - (p - 2) = w - 1 - p by omega, fld_high hexlt]
      rw [fld_xor_left hz]
      exact fld_ones 2 (w - 3) (by omega)
    have hmsb : fld ((3#w <<< (w - 3)) ^^^ (ex <<< (p - 2))) (w - 1) 1 = 0 := by
      have h3 : fld (3#w <<< (w - 3)) (w - 1) 1 = 0 :=
        fld_eq_zero (fun j hj => by rw [show (3#w) = mask 2 from rfl, getLsbD_ones]; simp; omega)
      rw [fld_xor_right h3, fld_shl (by omega) (by omega)]
      exact fld_high (Nat.lt_of_lt_of_le hexlt (Nat.pow_le_pow_right (by decide) (by omega)))
    have hlow : fld m 0 (p - 2) = m.toNat - 2 ^ p := by
      have hpow : 2 ^ p = 4 * 2 ^ (p - 2) := by
        rw [show (4 : Nat) = 2 ^ 2 from rfl, ← Nat.pow_add, show 2 + (p - 2) = p by omega]
      rw [fld_eq, Nat.pow_zero, Nat.div_one]
      obtain ⟨d, hd⟩ : ∃ d, m.toNat = d + 4 * 2 ^ (p - 2) := ⟨m.toNat - 2 ^ p, by omega⟩
      rw [hd, Nat.add_mul_mod_self_right, Nat.mod_eq_of_lt (by omega)]
      omega
    have hz : fld ((3#w <<< (w - 3)) ^^^ (ex <<< (p - 2))) 0 (p - 2) = 0 := by
      rw [fld_xor_right (fld_shl_low (by omega)), fld_shl_low (by omega)]
    rw [assemble_long (by omega) hl hhi, bidDec, word_mid (by omega) (by omega), if_pos htop,
      word_low (by omega) hz, word_mid (Nat.le_refl _) (by omega), hexp, word_msb (by omega) hmsb, hlow,
      Nat.add_sub_of_le hl]

theorem assemble_ne_zero (hp : 2 ≤ p) (hw : p + 3 ≤ w) (hm : m.toNat < 2 ^ p + 2 ^ (p - 2))
    (hex : ex.toNat < 3 * 2 ^ (w - 3 - p)) (hs : s = 0 ∨ s = 1) (hne : ¬ (m = 0 ∧ ex = 0 ∧ s = 0)) : assemble p m ex s ≠ 0 := by
  intro h0
  have hdec : bidDec p 0 (assemble p m ex s) = ⟨s.getLsbD 0, m.toNat, ex.toNat - 0⟩ := bidDec_assemble hp hw hm hex
  have hz : bidDec p 0 (0 : BitVec w) = ⟨false, 0, 0⟩ := by simp [bidDec, fld_eq]
  rw [h0, hz, Dec.mk.injEq] at hdec
  obtain ⟨hneg, hmant, hexpo⟩ := hdec
  have h00 : (0 : BitVec w).toNat = 0 := BitVec.toNat_zero
  have hm0 : m = 0 := BitVec.eq_of_toNat_eq (by omega)
  have hex0 : ex = 0 := BitVec.eq_of_toNat_eq (by omega)
  have hs0 : s = 0 := by
    refine hs.resolve_right (fun h1 => ?_)
    rw [h1] at hneg
    simp [show w ≠ 0 by omega] at hneg
  exact hne ⟨hm0, hex0, hs0⟩

/-- 組み立てた語からは、仮数・指数・符号が読み戻される。 -/
theorem assemble_reads_back (hp : 2 ≤ p) (hw : p + 3 ≤ w) (hm : m.toNat < 2 ^ p + 2 ^ (p - 2))
    (hex : ex.toNat < 3 * 2 ^ (w - 3 - p)) (hs : s = 0 ∨ s = 1) (hne : ¬ (m = 0 ∧ ex = 0 ∧ s = 0)) :
    mantBid p (assemble p m ex s) = m ∧ quantexpBid p bias (assemble p m ex s) = ex.toNat - bias ∧
      (assemble p m ex s).msb = decide (s = 1) ∧ signBits (assemble p m ex s) = -s.toNat := by
  have hdec : bidDec p bias (assemble p m ex s) = ⟨s.getLsbD 0, m.toNat, ex.toNat - bias⟩ := bidDec_assemble hp hw hm hex
  have hx := assemble_ne_zero hp hw hm hex hs hne
  have hmant : (mantBid p (assemble p m ex s)).toNat = (bidDec p bias (assemble p m ex s)).coef := mantBid_eq hp hw
  have hquant : quantexpBid p bias (assemble p m ex s) = (bidDec p bias (assemble p m ex s)).expo := quantexpBid_eq hw hx
  have hsign := signBits_eq (x := assemble p m ex s)
  have hmsb : (assemble p m ex s).msb = s.getLsbD 0 := by rw [← bidDec_neg p bias, hdec]
  have hw0 : w ≠ 0 := by omega
  have hone : (1 : BitVec w).toNat = 1 := toNat_lit (d := 1) (Nat.one_lt_two_pow hw0)
  rw [hdec] at hmant hquant
  rw [hmsb] at hsign ⊢
  refine ⟨BitVec.eq_of_toNat_eq hmant, hquant, ?_, ?_⟩
  · rcases hs with rfl | rfl
    · simpa using hw0
    · simpa using Nat.pos_of_ne_zero hw0
  · rw [hsign]
    rcases hs with rfl | rfl
    · simp
    · rw [hone]
      simp [Nat.pos_of_ne_zero hw0]

/-! ## 一意性 -/

/-- 十進小数は、その符号の語を定める。 -/
theorem bidDec_inj (hp : 2 ≤ p) (hw : p + 3 ≤ w) (h : bidDec p bias x = bidDec p bias y) : x = y := by
  have hsplit : ∀ (z : BitVec w) a, a < w →
      z.toNat = fld z 0 a + 2 ^ a * (fld z a (w - 1 - a) + 2 ^ (w - 1 - a) * z.msb.toNat) := by
    intro z a ha
    have h1 := fld_add z 0 a (w - 1 - a + 1)
    have h2 := fld_add z a (w - 1 - a) 1
    rw [show a + (w - 1 - a + 1) = w by omega, fld_of_lt z.isLt, Nat.zero_add] at h1
    rw [show a + (w - 1 - a) = w - 1 by omega, fld_msb] at h2
    rw [h1, h2]
  have hword : ∀ a, a < w → x.msb = y.msb → fld x 0 a = fld y 0 a → fld x a (w - 1 - a) = fld y a (w - 1 - a) → x = y := by
    intro a ha hm h0 h1
    refine BitVec.eq_of_toNat_eq ?_
    rw [hsplit x a ha, hsplit y a ha, hm, h0, h1]
  have hlong : ∀ z : BitVec w, fld z (p - 2) (w - 1 - (p - 2)) =
      fld z (p - 2) (w - 1 - p) + 2 ^ (w - 1 - p) * fld z (w - 3) 2 := by
    intro z
    have h1 := fld_add z (p - 2) (w - 1 - p) 2
    rwa [show w - 1 - p + 2 = w - 1 - (p - 2) by omega, show p - 2 + (w - 1 - p) = w - 3 by omega] at h1
  by_cases hx : fld x (w - 3) 2 = 3
  · by_cases hy : fld y (w - 3) 2 = 3
    · rw [bidDec, bidDec, if_pos hx, if_pos hy, Dec.mk.injEq] at h
      obtain ⟨hm, hc, he⟩ := h
      refine hword (p - 2) (by omega) hm (by omega) ?_
      rw [hlong, hlong, hx, hy, show fld x (p - 2) (w - 1 - p) = fld y (p - 2) (w - 1 - p) by omega]
    · have hlt := fld_lt y 0 p
      rw [bidDec, bidDec, if_pos hx, if_neg hy, Dec.mk.injEq] at h
      omega
  · by_cases hy : fld y (w - 3) 2 = 3
    · have hlt := fld_lt x 0 p
      rw [bidDec, bidDec, if_neg hx, if_pos hy, Dec.mk.injEq] at h
      omega
    · rw [bidDec, bidDec, if_neg hx, if_neg hy, Dec.mk.injEq] at h
      obtain ⟨hm, hc, he⟩ := h
      exact hword p (by omega) hm hc (by omega)

end Books.Dfp754
