import Books.Dfp754.Lemmas.DpdPack

/-!
# 三桁ずつ詰めた形
-/

namespace Books.Dfp754

open Books.Lib

variable {w k c : Nat} {bias : Int} {o : Join} {b : Bcd w} {x : BitVec w}

/-- 三桁ずつ詰めた形に収まる、詰めた十進。 -/
structure DpdIn (k c : Nat) (bias : Int) (b : Bcd w) : Prop where
  width : w = 10 * k + c + 6
  pos : 0 < k
  cont : c + 6 ≤ 32
  digits : Digits (· < 10) 16 (3 * k) b.mant.toNat
  lead : 8 ≤ leadDigit k b → leadDigit k b % 8 < 2
  expo_lo : 0 ≤ b.expo + bias
  expo_hi : b.expo + bias < 3 * 2 ^ c
  sign : IsSign b.sign

namespace DpdIn

theorem expo (h : DpdIn k c bias b) : (BitVec.ofInt 32 (b.expo + bias)).toNat = biased bias b := by
  have hlt : (2 : Int) ^ (c + 2) ≤ 2 ^ 32 := pow_le_pow_right₀ (by decide) (by have := h.cont; omega)
  have hi := h.expo_hi
  have hpos : (0 : Int) < 2 ^ c := by positivity
  have hv := ofInt_toNat (w := 32) h.expo_lo (by rw [pow_add] at hlt; omega)
  rw [biased]
  omega

theorem biased_lt (h : DpdIn k c bias b) : biased bias b < 3 * 2 ^ c := by
  have hi := h.expo_hi
  have hlo := h.expo_lo
  rw [biased]
  zify
  rw [Int.toNat_of_nonneg hlo]
  exact hi

theorem rest (u : BitVec w) : (packDeclets o k 0 b.mant u).1.toNat = leadDigit k b := by
  rw [packDeclets_fst, toNat_shr, Nat.pow_mul, leadDigit]

theorem big_iff (h : DpdIn k c bias b) (u : BitVec w) :
    decide (8 ≤ (packDeclets o k 0 b.mant u).1) = decide (8 ≤ leadDigit k b) := by
  have h8 : (8 : BitVec w).toNat = 8 := by
    have : (2 : Nat) ^ 4 ≤ 2 ^ w := Nat.pow_le_pow_right (by decide) (by have := h.width; omega)
    show (BitVec.ofNat w 8).toNat = 8
    rw [BitVec.toNat_ofNat, Nat.mod_eq_of_lt (by omega)]
  rw [decide_eq_decide, BitVec.le_def, h8, rest]

/-! ## 組み立てた語の欄 -/

theorem word (h : DpdIn k c bias b) : bcdtodpd o k c bias b =
    o.app (o.app (packDeclets o k 0 b.mant (BitVec.ofInt w b.sign <<< (w - 1))).2
      ((spreadExpo o c (decide (8 ≤ leadDigit k b)) (BitVec.ofInt 32 (b.expo + bias))).setWidth w <<< (10 * k)))
      (((packDeclets o k 0 b.mant (BitVec.ofInt w b.sign <<< (w - 1))).1 &&& 0x7) <<< (10 * k + c)) := by
  rw [bcdtodpd, h.big_iff]

variable {lo len : Nat}

/-- 三桁の組の上では、符号だけがある。 -/
theorem declets_high (h : DpdIn k c bias b) (hlo : 10 * k ≤ lo) (hlen : lo + len ≤ w) :
    fld (packDeclets o k 0 b.mant (BitVec.ofInt w b.sign <<< (w - 1))).2 lo len =
      fld (BitVec.ofInt w b.sign <<< (w - 1)) lo len :=
  packDeclets_frame (by have := h.width; have := h.pos; omega) h.digits hlen (Or.inr (by omega))

theorem expo_fld (big : Bool) {rex : BitVec 32} (hlo : 10 * k ≤ lo) (hlen : lo + len ≤ w) :
    fld ((spreadExpo o c big rex).setWidth w <<< (10 * k)) lo len = fld (spreadExpo o c big rex) (lo - 10 * k) len := by
  rw [fld_shl hlo hlen, fld_setWidth (by omega)]

theorem lead_fld (h : DpdIn k c bias b) (u : BitVec w) {i n : Nat} (hlen : i + n ≤ 3) :
    fld (((packDeclets o k 0 b.mant u).1 &&& 0x7) <<< (10 * k + c)) (10 * k + c + i) n =
      leadDigit k b / 2 ^ i % 2 ^ n := by
  have hw := h.width
  rw [fld_shl (by omega) (by omega), Nat.add_sub_cancel_left]
  refine (fld_mask_in (k := 3) (by omega) (by omega)).trans ?_
  rw [fld_eq, rest]

theorem lead_high (u : BitVec w) (hlo : 10 * k + c + 3 ≤ lo) (hlen : lo + len ≤ w) :
    fld (((packDeclets o k 0 b.mant u).1 &&& 0x7) <<< (10 * k + c)) lo len = 0 := by
  rw [fld_shl (by omega) hlen]
  exact fld_mask_out (k := 3) (by omega)

theorem low (h : DpdIn k c bias b) :
    fld (bcdtodpd o k c bias b) 0 (10 * k) = recode packVal 4096 1024 k b.mant.toNat := by
  have hw := h.width
  rw [h.word, o.fld_left (fld_shl_low (by omega)), o.fld_left (fld_shl_low (by omega))]
  exact packDeclets_value (by have := h.pos; omega) h.digits (by omega) (fun lo len _ hl => fld_shl_low (by omega))

theorem cont_fld (h : DpdIn k c bias b) : fld (bcdtodpd o k c bias b) (10 * k) c = biased bias b % 2 ^ c := by
  have hw := h.width
  rw [h.word, o.fld_left (fld_shl_low (by omega)), o.fld_right, expo_fld _ (Nat.le_refl _) (by omega), Nat.sub_self,
    spread_low (by have := h.cont; omega), fld_eq, h.expo, Nat.pow_zero, Nat.div_one]
  rw [h.declets_high (Nat.le_refl _) (by omega), fld_shl_low (by omega)]

theorem msb (h : DpdIn k c bias b) : (bcdtodpd o k c bias b).msb = decide (b.sign ≠ 0) := by
  have hw := h.width
  have hc := h.cont
  rw [← sign_bit (w := w) (by omega) h.sign]
  refine msb_of_fld ?_
  rw [h.word, o.fld_left (lead_high _ (by omega) (by omega)), o.fld_left, h.declets_high (by omega) (by omega),
    fld_shl (Nat.le_refl _) (by omega), Nat.sub_self]
  rw [expo_fld _ (by omega) (by omega), spread_high _ (by omega) (by omega)]

/-- 並べ替えた指数。 -/
def rex (o : Join) (k c : Nat) (bias : Int) (b : Bcd w) : BitVec 32 :=
  spreadExpo o c (decide (8 ≤ leadDigit k b)) (BitVec.ofInt 32 (b.expo + bias))

/-- 組合せの欄のうち、先頭の桁を置かない所には、指数がある。 -/
theorem comb_expo (h : DpdIn k c bias b) {i n : Nat} (hi : i + n ≤ 5)
    (hl : 3 ≤ i ∨ i + n ≤ 3 ∧ leadDigit k b / 2 ^ i % 2 ^ n = 0) :
    fld (bcdtodpd o k c bias b) (10 * k + c + i) n = fld (rex o k c bias b) (c + i) n := by
  have hw := h.width
  have hc := h.cont
  have hlead : fld (((packDeclets o k 0 b.mant (BitVec.ofInt w b.sign <<< (w - 1))).1 &&& 0x7) <<< (10 * k + c))
      (10 * k + c + i) n = 0 := by
    rcases hl with hl | ⟨hin, hl⟩
    · exact lead_high _ (by omega) (by omega)
    · rw [h.lead_fld _ hin, hl]
  rw [h.word, o.fld_left hlead, o.fld_right, expo_fld _ (by omega) (by omega),
    show 10 * k + c + i - 10 * k = c + i by omega, rex]
  rw [h.declets_high (by omega) (by omega), fld_shl_low (by omega)]

/-- 組合せの欄のうち、指数を置かない所には、先頭の桁がある。 -/
theorem comb_lead (h : DpdIn k c bias b) {i n : Nat} (hi : i + n ≤ 3) (hr : fld (rex o k c bias b) (c + i) n = 0) :
    fld (bcdtodpd o k c bias b) (10 * k + c + i) n = leadDigit k b / 2 ^ i % 2 ^ n := by
  have hw := h.width
  have hc := h.cont
  rw [h.word, o.fld_right, h.lead_fld _ hi]
  rw [o.fld_right, expo_fld _ (by omega) (by omega), show 10 * k + c + i - 10 * k = c + i by omega]
  · exact hr
  · rw [h.declets_high (by omega) (by omega), fld_shl_low (by omega)]

theorem rex_top (h : DpdIn k c bias b) : fld (BitVec.ofInt 32 (b.expo + bias)) c 2 = biased bias b / 2 ^ c := by
  rw [fld_eq, h.expo, Nat.mod_eq_of_lt]
  exact Nat.lt_trans (Nat.div_lt_of_lt_mul (by rw [Nat.mul_comm]; exact h.biased_lt)) (by decide)

/-- 組合せの欄。先頭の桁が 8 以上なら、印と指数の上の二ビットの下に、先頭の桁の一ビットがある。 -/
theorem comb_big (h : DpdIn k c bias b) (hl : 8 ≤ leadDigit k b) :
    fld (bcdtodpd o k c bias b) (10 * k + c) 5 = leadDigit k b % 2 + 2 * (biased bias b / 2 ^ c) + 24 := by
  have hc := h.cont
  obtain ⟨h0, h1, h3⟩ := spread_big (o := o) (c := c) (BitVec.ofInt 32 (b.expo + bias)) (by omega)
  have hlead := h.lead hl
  have hrex : rex o k c bias b = spreadExpo o c true (BitVec.ofInt 32 (b.expo + bias)) := by rw [rex, decide_eq_true hl]
  have hT := h.comb_lead (o := o) (i := 0) (n := 1) (by omega) (by rw [hrex]; exact h0)
  have hE := h.comb_expo (o := o) (i := 1) (n := 2) (by omega) (Or.inr ⟨by omega, by omega⟩)
  have hF := h.comb_expo (o := o) (i := 3) (n := 2) (by omega) (Or.inl (by omega))
  rw [hrex, h1, h.rex_top] at hE
  rw [hrex, h3] at hF
  rw [Nat.add_zero, Nat.pow_zero, Nat.div_one, Nat.pow_one] at hT
  rw [show (5 : Nat) = 1 + (2 + 2) from rfl, fld_add, fld_add, hT, hE, Nat.add_assoc (10 * k + c), hF]
  omega

theorem comb_small (h : DpdIn k c bias b) (hl : leadDigit k b < 8) :
    fld (bcdtodpd o k c bias b) (10 * k + c) 5 = leadDigit k b + 8 * (biased bias b / 2 ^ c) := by
  have hc := h.cont
  obtain ⟨h0, h3⟩ := spread_small (o := o) (c := c) (BitVec.ofInt 32 (b.expo + bias)) (by omega)
  have hrex : rex o k c bias b = spreadExpo o c false (BitVec.ofInt 32 (b.expo + bias)) := by
    rw [rex, decide_eq_false (by omega)]
  have hT := h.comb_lead (o := o) (i := 0) (n := 3) (by omega) (by rw [hrex]; exact h0)
  have hE := h.comb_expo (o := o) (i := 3) (n := 2) (by omega) (Or.inl (by omega))
  rw [hrex, h3, h.rex_top] at hE
  rw [Nat.add_zero, Nat.pow_zero, Nat.div_one] at hT
  rw [show (5 : Nat) = 3 + 2 from rfl, fld_add, hT, hE]
  omega

theorem lead_top (h : DpdIn k c bias b) :
    leadOf (fld (bcdtodpd o k c bias b) (10 * k + c) 5) = (if 8 ≤ leadDigit k b then 8 + leadDigit k b % 2 else leadDigit k b) ∧
      topOf (fld (bcdtodpd o k c bias b) (10 * k + c) 5) = biased bias b / 2 ^ c := by
  have htop : biased bias b / 2 ^ c < 3 := Nat.div_lt_of_lt_mul (by rw [Nat.mul_comm]; exact h.biased_lt)
  by_cases hl : 8 ≤ leadDigit k b
  · rw [h.comb_big hl, if_pos hl, leadOf, topOf]
    generalize biased bias b / 2 ^ c = e at htop
    split <;> omega
  · rw [h.comb_small (by omega), if_neg hl, leadOf, topOf]
    generalize biased bias b / 2 ^ c = e at htop
    split <;> omega

theorem dec (h : DpdIn k c bias b) : dpdDec k c bias (bcdtodpd o k c bias b) =
    ⟨decide (b.sign ≠ 0),
      (if 8 ≤ leadDigit k b then 8 + leadDigit k b % 2 else leadDigit k b) * 1000 ^ k + recode id 16 10 (3 * k) b.mant.toNat,
      b.expo⟩ := by
  obtain ⟨hlead, htop⟩ := h.lead_top (o := o)
  have hlow : recode decletVal 1024 1000 k (bcdtodpd o k c bias b).toNat = recode id 16 10 (3 * k) b.mant.toNat := by
    have hf := h.low (o := o)
    rw [fld_eq, Nat.pow_zero, Nat.div_one, Nat.pow_mul] at hf
    rw [← decletVal_pack h.digits, ← hf]
    exact (recode_pow_mod (p := 1024) k _).symm
  have hexpo : ((biased bias b / 2 ^ c * 2 ^ c + biased bias b % 2 ^ c : Nat) : Int) - bias = b.expo := by
    have hlo := h.expo_lo
    rw [Nat.mul_comm, Nat.div_add_mod, biased]
    omega
  simp only [dpdDec]
  rw [hlead, htop, hlow, h.cont_fld, h.msb, hexpo]

end DpdIn

end Books.Dfp754
