import Books.Dfp754.Lemmas.DpdRead

/-!
# 三桁ずつ詰めた語の読み戻し
-/

namespace Books.Dfp754

open Books.Lib

variable {w k c : Nat} {bias : Int} {o : Join} {b : Bcd w} {x : BitVec w}

/-! ## 三桁の組より上のビット -/

theorem head_eq_zero (hw : w = 10 * k + c + 6) :
    x >>> (10 * k) = 0 ↔ fld x (10 * k) c = 0 ∧ combOf k c x = 0 ∧ x.msb = false := by
  have hsplit : (x >>> (10 * k)).toNat = fld x (10 * k) c + 2 ^ c * (combOf k c x + 2 ^ 5 * x.msb.toNat) := by
    have h1 := fld_add x (10 * k) c (5 + 1)
    have h2 := fld_add x (10 * k + c) 5 1
    rw [show 10 * k + c + 5 = w - 1 by omega, fld_msb] at h2
    rw [h2, fld_eq x (10 * k), Nat.mod_eq_of_lt] at h1
    · rw [toNat_shr, h1, combOf]
    · refine Nat.div_lt_of_lt_mul ?_
      rw [← Nat.pow_add, show 10 * k + (c + (5 + 1)) = w by omega]
      exact x.isLt
  rw [← BitVec.toNat_inj, hsplit, show (0 : BitVec w).toNat = 0 from BitVec.toNat_zero]
  cases x.msb <;> simp

namespace DpdIn

theorem head_blank (h : DpdIn k c bias b) : bcdtodpd o k c bias b >>> (10 * k) = 0 ↔ BlankHead k bias b := by
  rw [head_eq_zero h.width, h.cont_fld, h.msb, combOf]
  have hdiv := Nat.div_add_mod (biased bias b) (2 ^ c)
  have hpos : 2 ^ c ≠ 0 := (Nat.two_pow_pos c).ne'
  rw [BlankHead, decide_eq_false_iff_not, not_not]
  by_cases hl : 8 ≤ leadDigit k b
  · rw [h.comb_big hl]
    omega
  · rw [h.comb_small (by omega)]
    constructor
    · rintro ⟨hm, hc, hs⟩
      have hd : biased bias b / 2 ^ c = 0 := by omega
      rw [hm, hd] at hdiv
      exact ⟨hs, by omega, by omega⟩
    · rintro ⟨hs, hl0, he⟩
      rw [he, hl0]
      simp [hs]

theorem unpack_low (h : DpdIn k c bias b) :
    recode unpackVal 1024 4096 k (bcdtodpd o k c bias b).toNat = b.mant.toNat % 4096 ^ k := by
  have hf := h.low (o := o)
  rw [fld_eq, Nat.pow_zero, Nat.div_one, Nat.pow_mul] at hf
  rw [← unpackVal_pack h.digits, ← hf]
  exact (recode_pow_mod (p := 1024) k _).symm

/-- 先頭の桁は、9 までなら読み戻される。 -/
theorem lead_back (h : DpdIn k c bias b) (hl : leadDigit k b < 10) :
    leadOf (combOf k c (bcdtodpd o k c bias b)) = leadDigit k b := by
  rw [combOf, (h.lead_top (o := o)).1]
  split <;> omega

theorem top_back (h : DpdIn k c bias b) :
    topOf (combOf k c (bcdtodpd o k c bias b)) * 2 ^ c + fld (bcdtodpd o k c bias b) (10 * k) c = biased bias b := by
  rw [combOf, (h.lead_top (o := o)).2, h.cont_fld, Nat.mul_comm, Nat.div_add_mod]

theorem expo_back (h : DpdIn k c bias b) : (biased bias b : Int) - bias = b.expo := by
  have hlo := h.expo_lo
  rw [biased]
  omega

theorem long_back (h : DpdIn k c bias b) :
    combOf k c (bcdtodpd o k c bias b) / 8 = 3 ↔ 8 ≤ leadDigit k b := by
  have htop : biased bias b / 2 ^ c < 3 := Nat.div_lt_of_lt_mul (by rw [Nat.mul_comm]; exact h.biased_lt)
  by_cases hl : 8 ≤ leadDigit k b
  · rw [combOf, h.comb_big hl]
    omega
  · rw [combOf, h.comb_small (by omega)]
    omega

theorem sign_back (h : DpdIn k c bias b) : signBits (bcdtodpd o k c bias b) = 0 ↔ b.sign = 0 := by
  rw [signBits_eq, h.msb]
  by_cases hs : b.sign = 0 <;> simp [hs]

theorem quantexp_back (h : DpdIn k c bias b) (hb : ¬ BlankHead k bias b) :
    quantexpDpd k c (c + 1) bias (bcdtodpd o k c bias b) = b.expo := by
  have hx : bcdtodpd o k c bias b >>> (10 * k) ≠ 0 := fun h0 => hb (h.head_blank.1 h0)
  by_cases hl : combOf k c (bcdtodpd o k c bias b) / 8 = 3
  · rw [quantexpDpd_big h.width hx hl, h.top_back, h.expo_back]
  · rw [quantexpDpd_small h.width hx hl, h.top_back, h.expo_back]

theorem quantexp_blank (h : DpdIn k c bias b) {ms : Nat} (hb : BlankHead k bias b) :
    quantexpDpd k c ms bias (bcdtodpd o k c bias b) = 0 := by
  simp only [quantexpDpd]
  rw [if_pos (h.head_blank.2 hb)]

end DpdIn

/-! ## 二つの長さの読み戻し -/

theorem mixed_value : ∀ f, f < 4 → ∀ l, l < 256 →
    128 * f ||| l = 256 * (f / 2) + 128 * max (f % 2) (l / 128) + l % 128 := by
  decide +kernel

/-- `bcd64todpd` に渡せる、16 桁の詰めた十進。 -/
theorem dpdIn64 {b : Bcd 64} (hm : Digits (· < 10) 16 16 b.mant.toNat) (hlo : -398 ≤ b.expo) (hhi : b.expo ≤ 369)
    (hs : IsSign b.sign) : DpdIn 5 8 398 b ∧ leadDigit 5 b < 10 := by
  have hl : leadDigit 5 b < 10 := by
    have h15 := hm 15 (by decide)
    have hlt := b.mant.isLt
    rw [leadDigit]
    omega
  exact ⟨⟨rfl, by decide, by decide, hm.mono (by decide), fun h8 => by omega, by omega, by omega, hs⟩, hl⟩

theorem dpdIn32 {b : Bcd 32} (hm : Digits (· < 10) 16 7 b.mant.toNat) (hlt : b.mant.toNat < 16 ^ 7) (hlo : -101 ≤ b.expo)
    (hhi : b.expo ≤ 90) (hs : IsSign b.sign) : DpdIn 2 6 101 b ∧ leadDigit 2 b < 10 := by
  have hl : leadDigit 2 b < 10 := by
    have h6 := hm 6 (by decide)
    rw [leadDigit]
    omega
  exact ⟨⟨rfl, by decide, by decide, hm.mono (by decide), fun h8 => by omega, by omega, by omega, hs⟩, hl⟩

theorem mant_back64 {b : Bcd 64} (h : DpdIn 5 8 398 b) (hl : leadDigit 5 b < 10) : bcdDpd64 (bcd64todpd b) = b.mant := by
  have hlead := h.lead_back (o := .xor) hl
  have hlow := h.unpack_low (o := .xor)
  refine BitVec.eq_of_toNat_eq ?_
  rw [bcdDpd64_toNat, bcd64todpd, hlead, hlow, leadDigit]
  omega

theorem mant_back32 {b : Bcd 32} (h : DpdIn 2 6 101 b) (hl : leadDigit 2 b < 10) : bcdDpd32 (bcd32todpd b) = b.mant := by
  have hlead := h.lead_back (o := .or) hl
  have hlow := h.unpack_low (o := .or)
  refine BitVec.eq_of_toNat_eq ?_
  rw [bcdDpd32_toNat, bcd32todpd, hlead, hlow, leadDigit]
  omega

/-- 印のある形の `quantexpdpd64`。指数の上の一ビットを落とし、先頭の桁のビットを混ぜる。 -/
theorem quantexp64_long {b : Bcd 64} (h : DpdIn 5 8 398 b) (hl : 8 ≤ leadDigit 5 b) :
    quantexpdpd64 (bcd64todpd b) =
      (256 * (biased 398 b / 256 % 2) + 128 * max (leadDigit 5 b % 2) (biased 398 b % 256 / 128) + biased 398 b % 128 : Nat) -
        398 := by
  have hnb : ¬ BlankHead 5 398 b := fun hb => by have := hb.2.1; omega
  have hx : bcd64todpd b >>> (10 * 5) ≠ 0 := fun h0 => hnb (h.head_blank.1 h0)
  have hcomb : combOf 5 8 (bcd64todpd b) % 4 = leadDigit 5 b % 2 + 2 * (biased 398 b / 256 % 2) := by
    have hc := h.comb_big (o := .xor) hl
    rw [combOf, bcd64todpd, hc]
    omega
  have hcont : fld (bcd64todpd b) (10 * 5) 8 = biased 398 b % 256 := h.cont_fld
  have hlong : combOf 5 8 (bcd64todpd b) / 8 = 3 := h.long_back.2 hl
  have hread : quantexpdpd64 (bcd64todpd b) =
      (128 * (combOf 5 8 (bcd64todpd b) % 4) ||| fld (bcd64todpd b) (10 * 5) 8 : Nat) - 398 :=
    quantexpDpd_mixed rfl (by decide) hx hlong
  rw [hread, hcomb, hcont, mixed_value _ (by omega) _ (Nat.mod_lt _ (by decide))]
  omega

/-- `quantexpdpd64` が指数を読み戻すのは、ちょうど次の場合である。 -/
theorem quantexp64_back {b : Bcd 64} (h : DpdIn 5 8 398 b) (hl : leadDigit 5 b < 10) :
    quantexpdpd64 (bcd64todpd b) = b.expo ↔ ¬ BlankHead 5 398 b ∧
      (leadDigit 5 b < 8 ∨ b.expo < 114 ∧ (leadDigit 5 b = 8 ∨ 128 ≤ biased 398 b % 256)) := by
  have hlo := h.expo_lo
  have hhi := h.expo_hi
  have hbias : (biased 398 b : Int) = b.expo + 398 := Int.toNat_of_nonneg hlo
  by_cases hb : BlankHead 5 398 b
  · have hread : quantexpdpd64 (bcd64todpd b) = 0 := h.quantexp_blank hb
    have he := hb.2.2
    simp only [hread, hb, not_true_eq_false, false_and, iff_false]
    omega
  · by_cases h8 : 8 ≤ leadDigit 5 b
    · rw [quantexp64_long h h8]
      simp only [hb, not_false_eq_true, true_and]
      omega
    · have hx : bcd64todpd b >>> (10 * 5) ≠ 0 := fun h0 => hb (h.head_blank.1 h0)
      have hshort : combOf 5 8 (bcd64todpd b) / 8 ≠ 3 := fun h3 => h8 (h.long_back.1 h3)
      have hread : quantexpdpd64 (bcd64todpd b) =
          (topOf (combOf 5 8 (bcd64todpd b)) * 2 ^ 8 + fld (bcd64todpd b) (10 * 5) 8 : Nat) - 398 :=
        quantexpDpd_small rfl hx hshort
      have htop : topOf (combOf 5 8 (bcd64todpd b)) * 2 ^ 8 + fld (bcd64todpd b) (10 * 5) 8 = biased 398 b := h.top_back
      rw [hread, htop, h.expo_back]
      simp only [hb, not_false_eq_true, true_and, true_iff]
      omega

/-- `quantexpdpd32` が指数を読み戻すのは、語の頭が空でない場合である。 -/
theorem quantexp32_back {b : Bcd 32} (h : DpdIn 2 6 101 b) :
    quantexpdpd32 (bcd32todpd b) = b.expo ↔ ¬ BlankHead 2 101 b := by
  have hlo := h.expo_lo
  have hbias : (biased 101 b : Int) = b.expo + 101 := Int.toNat_of_nonneg hlo
  by_cases hb : BlankHead 2 101 b
  · have hread : quantexpdpd32 (bcd32todpd b) = 0 := h.quantexp_blank hb
    have he := hb.2.2
    simp only [hread, hb, not_true_eq_false, iff_false]
    omega
  · have hread : quantexpdpd32 (bcd32todpd b) = b.expo := h.quantexp_back hb
    simp only [hread, hb, not_false_eq_true]

end Books.Dfp754
