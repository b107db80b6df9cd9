import Books.Dfp754.Lemmas.Dpd

/-!
# 三桁ずつ詰めた形の読み取り
-/

namespace Books.Dfp754

open Books.Lib

variable {w k c : Nat} {bias : Int} {o : Join} {x : BitVec w}

/-! ## 組合せの欄 -/

/-- 組合せの欄。 -/
def combOf (k c : Nat) (x : BitVec w) : Nat := fld x (10 * k + c) 5

theorem combOf_split (k c : Nat) (x : BitVec w) :
    combOf k c x = fld x (10 * k + c) 3 + 8 * fld x (10 * k + c + 3) 2 := fld_add x (10 * k + c) 3 2

theorem comb_long (k c : Nat) (x : BitVec w) : combOf k c x / 8 = fld x (10 * k + c + 3) 2 := by
  have h3 := fld_lt x (10 * k + c) 3
  rw [combOf_split]
  omega

theorem comb_low (k c : Nat) (x : BitVec w) : combOf k c x % 8 = fld x (10 * k + c) 3 := by
  have h3 := fld_lt x (10 * k + c) 3
  rw [combOf_split]
  omega

theorem comb_bit (k c : Nat) (x : BitVec w) : combOf k c x % 2 = fld x (10 * k + c) 1 := by
  have h1 := fld_lt x (10 * k + c) 1
  rw [combOf, show (5 : Nat) = 1 + 4 from rfl, fld_add]
  omega

theorem comb_mid (k c : Nat) (x : BitVec w) : combOf k c x / 2 % 4 = fld x (10 * k + c + 1) 2 := by
  have h1 := fld_lt x (10 * k + c) 1
  have h2 := fld_lt x (10 * k + c + 1) 2
  rw [combOf, show (5 : Nat) = 1 + (2 + 2) from rfl, fld_add, fld_add]
  omega

/-! ## 仮数 -/

theorem lit_shl {a n d : Nat} (h : a * 2 ^ n = d) : BitVec.ofNat w d = BitVec.ofNat w a <<< n := by
  rw [← h, ofNat_mul_two_pow]

theorem lead_shl (hw : w = 10 * k + c + 6) {d : BitVec w} (hd : d.toNat < 16) :
    ((x &&& mask (10 * k)) ^^^ (d <<< (10 * k))).toNat = d.toNat * 2 ^ (10 * k) + fld x 0 (10 * k) := by
  have hmask : (x &&& mask (10 * k)).toNat = fld x 0 (10 * k) := toNat_mask (10 * k) (by omega)
  have hlt : d.toNat * 2 ^ (10 * k) < 2 ^ w := by
    have h16 : (16 : Nat) * 2 ^ (10 * k) ≤ 2 ^ w := by
      rw [show (16 : Nat) = 2 ^ 4 from rfl, ← Nat.pow_add]
      exact Nat.pow_le_pow_right (by decide) (by omega)
    exact Nat.lt_of_lt_of_le (Nat.mul_lt_mul_of_pos_right hd (Nat.two_pow_pos _)) h16
  have hlow : fld (d <<< (10 * k)) 0 (10 * k) = 0 := fld_shl_low (by omega)
  rw [BitVec.xor_comm]
  refine (Join.toNat_eq .xor hlow (by rw [hmask]; exact fld_lt x 0 (10 * k))).trans ?_
  rw [toNat_shl hlt, hmask]

theorem mantDpd_toNat (hw : w = 10 * k + c + 6) :
    (mantDpd k c x).toNat = leadOf (combOf k c x) * 2 ^ (10 * k) + fld x 0 (10 * k) := by
  have hflag : (x >>> (10 * k + c)) &&& 0b11000 = 0b11000 ↔ combOf k c x / 8 = 3 := by
    have h24 : (0b11000 : BitVec w) = mask 2 <<< 3 := lit_shl (a := 3) (n := 3) rfl
    rw [h24, and_ones_eq_iff 2 3 (by omega), fld_shr, comb_long, Nat.add_comm 3]
    rfl
  have hbit : ((x >>> (10 * k + c)) &&& 0b1).toNat = combOf k c x % 2 := by
    refine (toNat_mask 1 (by omega)).trans ?_
    rw [fld_shr, Nat.zero_add, comb_bit]
  have hthree : ((x >>> (10 * k + c)) &&& 0b111).toNat = combOf k c x % 8 := by
    refine (toNat_mask 3 (by omega)).trans ?_
    rw [fld_shr, Nat.zero_add, comb_low]
  simp only [mantDpd]
  by_cases hl : combOf k c x / 8 = 3
  · have hlead : (((x >>> (10 * k + c)) &&& 0b1) ||| 0b1000).toNat = 8 + combOf k c x % 2 := by
      have h8 : (0b1000 : BitVec w) = 1#w <<< 3 := lit_shl (a := 1) (n := 3) rfl
      have h8v : (0b1000 : BitVec w).toNat = 8 := by
        have : (2 : Nat) ^ 4 ≤ 2 ^ w := Nat.pow_le_pow_right (by decide) (by omega)
        show (BitVec.ofNat w 8).toNat = 8
        rw [BitVec.toNat_ofNat, Nat.mod_eq_of_lt (by omega)]
      rw [BitVec.or_comm]
      refine (Join.toNat_eq (k := 3) .or (by rw [h8]; exact fld_shl_low (by omega)) (by rw [hbit]; omega)).trans ?_
      rw [h8v, hbit]
    rw [if_pos (hflag.2 hl), lead_shl hw (by rw [hlead]; omega), hlead, leadOf, if_pos hl]
  · rw [if_neg (fun h => hl (hflag.1 h)), lead_shl hw (by rw [hthree]; omega), hthree, leadOf, if_neg hl]

/-! ## 指数 -/

theorem expo_flag (hw : w = 10 * k + c + 6) :
    (x >>> (10 * k)) &&& (3#w <<< (c + 3)) = 3#w <<< (c + 3) ↔ combOf k c x / 8 = 3 := by
  refine (and_ones_eq_iff 2 (c + 3) (by omega)).trans ?_
  rw [fld_shr, comb_long, show c + 3 + 10 * k = 10 * k + c + 3 by omega]
  rfl

theorem expo_join (hw : w = 10 * k + c + 6) {i : Nat} (hi : i ≤ 3) :
    ((((x >>> (10 * k)) &&& (3#w <<< (c + i))) >>> i) ||| ((x >>> (10 * k)) &&& mask c)).toNat =
      fld x (10 * k + c + i) 2 * 2 ^ c + fld x (10 * k) c := by
  have hlow : ((x >>> (10 * k)) &&& mask c).toNat = fld x (10 * k) c := by
    rw [toNat_mask c (by omega), fld_shr, Nat.zero_add]
  have hhigh : (((x >>> (10 * k)) &&& (3#w <<< (c + i))) >>> i).toNat = fld x (10 * k + c + i) 2 * 2 ^ c := by
    rw [toNat_shr, show (3#w) = mask 2 from rfl, toNat_and_ones 2 (c + i) (by omega), fld_shr, Nat.pow_add, Nat.mul_right_comm,
      Nat.mul_div_cancel _ (Nat.two_pow_pos i), Nat.mul_comm, show c + i + 10 * k = 10 * k + c + i by omega]
  have hz : fld (((x >>> (10 * k)) &&& (3#w <<< (c + i))) >>> i) 0 c = 0 :=
    fld_low_eq_zero (by rw [hhigh]; exact Nat.dvd_mul_left _ _)
  refine (Join.toNat_eq .or hz (by rw [hlow]; exact fld_lt x (10 * k) c)).trans ?_
  rw [hhigh, hlow]

theorem quantexpDpd_small {ms : Nat} (hw : w = 10 * k + c + 6) (hx : x >>> (10 * k) ≠ 0) (hl : combOf k c x / 8 ≠ 3) :
    quantexpDpd k c ms bias x = (topOf (combOf k c x) * 2 ^ c + fld x (10 * k) c : Nat) - bias := by
  simp only [quantexpDpd]
  rw [if_neg hx, if_pos (fun h => hl ((expo_flag hw).1 h)), expo_join hw (Nat.le_refl 3), topOf, if_neg hl, comb_long]

/-- 印のある形の指数。上の二ビットを正しく選べば、指数が読める。 -/
theorem quantexpDpd_big (hw : w = 10 * k + c + 6) (hx : x >>> (10 * k) ≠ 0) (hl : combOf k c x / 8 = 3) :
    quantexpDpd k c (c + 1) bias x = (topOf (combOf k c x) * 2 ^ c + fld x (10 * k) c : Nat) - bias := by
  simp only [quantexpDpd]
  rw [if_neg hx, if_neg (not_not_intro ((expo_flag hw).2 hl)), expo_join hw (by omega), topOf, if_pos hl, comb_mid]

/-- 印のある形で、上の二ビットを一つ下から取ると、先頭の桁のビットが指数に混ざる。 -/
theorem quantexpDpd_mixed (hw : w = 10 * k + c + 6) (hc : 0 < c) (hx : x >>> (10 * k) ≠ 0) (hl : combOf k c x / 8 = 3) :
    quantexpDpd k c c bias x = (2 ^ (c - 1) * (combOf k c x % 4) ||| fld x (10 * k) c : Nat) - bias := by
  have hlow : ((x >>> (10 * k)) &&& mask c).toNat = fld x (10 * k) c := by
    rw [toNat_mask c (by omega), fld_shr, Nat.zero_add]
  have hcomb : combOf k c x % 4 = fld x (10 * k + c) 2 := by
    have h2 := fld_lt x (10 * k + c) 2
    rw [combOf, show (5 : Nat) = 2 + 3 from rfl, fld_add]
    omega
  have hpow : (2 : Nat) ^ c = 2 ^ (c - 1) * 2 := by rw [← Nat.pow_succ, show (c - 1).succ = c by omega]
  have hhigh : (((x >>> (10 * k)) &&& (3#w <<< c)) >>> 1).toNat = 2 ^ (c - 1) * (combOf k c x % 4) := by
    rw [toNat_shr, show (3#w) = mask 2 from rfl, toNat_and_ones 2 c (by omega), fld_shr, hcomb, hpow, Nat.pow_one,
      Nat.mul_right_comm, Nat.mul_div_cancel _ (by decide), Nat.add_comm c]
  simp only [quantexpDpd]
  rw [if_neg hx, if_neg (not_not_intro ((expo_flag hw).2 hl)), BitVec.toNat_or, hhigh, hlow]

/-! ## 三桁の組を開く -/

theorem decletAt_toNat (hw : 12 ≤ w) (m : BitVec w) (i : Nat) :
    (decletAt m (10 * i)).toNat = unpackVal (m.toNat / 1024 ^ i % 1024) ∧ unpackVal (m.toNat / 1024 ^ i % 1024) < 2 ^ 12 := by
  have hlt : unpackVal (m.toNat / 1024 ^ i % 1024) < 2 ^ 12 := unpackVal_lt (Nat.mod_lt _ (by decide))
  have h12 : (2 : Nat) ^ 12 ≤ 2 ^ w := Nat.pow_le_pow_right (by decide) hw
  have hlow : ((m >>> (10 * i)) &&& 0x3ff).toNat = m.toNat / 1024 ^ i % 1024 := by
    refine (toNat_mask 10 (by omega)).trans ?_
    rw [fld_shr, fld_eq, Nat.zero_add, Nat.pow_mul]
    rfl
  have hin : (((m >>> (10 * i)) &&& 0x3ff).setWidth 32).toNat = m.toNat / 1024 ^ i % 1024 := by
    rw [BitVec.toNat_setWidth, hlow, Nat.mod_eq_of_lt (Nat.lt_trans (Nat.mod_lt _ (by decide)) (by decide))]
  refine ⟨?_, hlt⟩
  rw [decletAt, BitVec.toNat_setWidth, unpackDeclet_toNat, hin, Nat.mod_eq_of_lt (by omega)]

theorem join_declet (hw : 12 ≤ w) (m : BitVec w) (i : Nat) {b : BitVec w} (hb : 2 ^ 12 ∣ b.toNat) :
    (o.app b (decletAt m (10 * i))).toNat = b.toNat + unpackVal (m.toNat / 1024 ^ i % 1024) := by
  obtain ⟨hval, hlt⟩ := decletAt_toNat hw m i
  rw [o.toNat_eq (fld_low_eq_zero hb) (by rw [hval]; exact hlt), hval]

theorem unpackDeclets_toNat (hw : 12 ≤ w) (m : BitVec w) {j : Nat} {b : BitVec w} (hb : 2 ^ 12 ∣ b.toNat) :
    (unpackDeclets o m j b).toNat = (b.toNat * 4096 ^ j + recode unpackVal 1024 4096 (j + 1) m.toNat) % 2 ^ w := by
  induction j generalizing b with
  | zero =>
      have h0 := join_declet (o := o) hw m 0 hb
      rw [Nat.mul_zero] at h0
      have hlt := (o.app b (decletAt m 0)).isLt
      rw [h0] at hlt
      simp only [Nat.pow_zero, Nat.div_one] at h0 hlt
      rw [unpackDeclets, h0, recode_succ, recode_zero, Nat.mul_zero, Nat.add_zero, Nat.pow_zero, Nat.mul_one,
        Nat.mod_eq_of_lt hlt]
  | succ j ih =>
      have hj := join_declet (o := o) hw m (j + 1) hb
      have hshl : (o.app b (decletAt m (10 * (j + 1))) <<< 12).toNat =
          (b.toNat + unpackVal (m.toNat / 1024 ^ (j + 1) % 1024)) * 2 ^ 12 % 2 ^ w := by
        rw [BitVec.toNat_shiftLeft, Nat.shiftLeft_eq, hj]
      have hdvd : 2 ^ 12 ∣ (o.app b (decletAt m (10 * (j + 1))) <<< 12).toNat := by
        rw [hshl]
        exact (Nat.dvd_mod_iff (Nat.pow_dvd_pow 2 hw)).2 (Nat.dvd_mul_left _ _)
      rw [unpackDeclets, ih hdvd, hshl, recode_snoc (j + 1)]
      refine ((((Nat.mod_modEq _ _).mul_right (4096 ^ j)).add_right _).trans ?_ : _ ≡ _ [MOD 2 ^ w])
      rw [Nat.pow_succ 4096 j]
      exact congrArg (· % 2 ^ w) (by ring)

/-! ## 二つの長さの読み取り -/

theorem leadOf_lt (n : Nat) : leadOf n < 10 := by
  rw [leadOf]
  split <;> omega

theorem mantDpd_low (hw : w = 10 * k + c + 6) (x : BitVec w) :
    recode unpackVal 1024 4096 k (mantDpd k c x).toNat = recode unpackVal 1024 4096 k x.toNat := by
  have hmod : (mantDpd k c x).toNat % 1024 ^ k = x.toNat % 1024 ^ k := by
    rw [mantDpd_toNat hw, fld_eq, Nat.pow_zero, Nat.div_one, Nat.pow_mul, Nat.mul_comm]
    exact (Nat.mul_add_mod _ _ _).trans (Nat.mod_mod _ _)
  rw [← recode_pow_mod k (mantDpd k c x).toNat, hmod, recode_pow_mod]

theorem mantDpd_lead (hw : w = 10 * k + c + 6) (x : BitVec w) :
    (mantDpd k c x).toNat / 2 ^ (10 * k) = leadOf (combOf k c x) := by
  have hlt := fld_lt x 0 (10 * k)
  rw [mantDpd_toNat hw, Nat.mul_comm, Nat.mul_add_div (Nat.two_pow_pos _), Nat.div_eq_of_lt hlt, Nat.add_zero]

theorem mantDpd_top (hw : w = 10 * k + c + 6) (x : BitVec w) {n : Nat} (hn : n ≤ 10 * k) :
    ((mantDpd k c x &&& (mask 4 <<< (10 * k))) >>> n).toNat = leadOf (combOf k c x) * 2 ^ (10 * k - n) := by
  have hlead : fld (mantDpd k c x) (10 * k) 4 = leadOf (combOf k c x) := by
    have hlt := leadOf_lt (combOf k c x)
    rw [fld_eq, mantDpd_lead hw, Nat.mod_eq_of_lt (by omega)]
  have hpow : (2 : Nat) ^ (10 * k) = 2 ^ (10 * k - n) * 2 ^ n := by rw [← Nat.pow_add, Nat.sub_add_cancel hn]
  rw [toNat_shr, toNat_and_ones 4 (10 * k) (by omega), hlead, hpow, Nat.mul_right_comm,
    Nat.mul_div_cancel _ (Nat.two_pow_pos n), Nat.mul_comm]

theorem bcdDpd64_toNat (x : BitVec 64) :
    (bcdDpd64 x).toNat = leadOf (combOf 5 8 x) * 16 ^ 15 + recode unpackVal 1024 4096 5 x.toNat := by
  have hlt := leadOf_lt (combOf 5 8 x)
  have hrec := unpack_lt 5 x.toNat
  have hlead : (mantDpd64 x >>> 50).toNat = leadOf (combOf 5 8 x) := by
    rw [toNat_shr]
    exact mantDpd_lead (k := 5) (c := 8) rfl x
  have hshl : ((mantDpd64 x >>> 50) <<< 12).toNat = leadOf (combOf 5 8 x) * 2 ^ 12 := by
    rw [toNat_shl (by rw [hlead]; omega), hlead]
  have hlow : recode unpackVal 1024 4096 (4 + 1) (mantDpd64 x).toNat = recode unpackVal 1024 4096 5 x.toNat :=
    mantDpd_low (k := 5) (c := 8) rfl x
  rw [bcdDpd64, unpackDeclets_toNat (by decide) _ (by rw [hshl]; exact Nat.dvd_mul_left _ _), hshl, hlow]
  omega

theorem bcdDpd32_toNat (x : BitVec 32) :
    (bcdDpd32 x).toNat = leadOf (combOf 2 6 x) * 16 ^ 6 + recode unpackVal 1024 4096 2 x.toNat := by
  have hlt := leadOf_lt (combOf 2 6 x)
  have hrec := unpack_lt 2 x.toNat
  have htop : ((mantDpd32 x &&& 0xf00000) >>> 8).toNat = leadOf (combOf 2 6 x) * 2 ^ 12 := by
    rw [show (0xf00000 : BitVec 32) = mask 4 <<< (10 * 2) by decide]
    exact mantDpd_top (k := 2) (c := 6) rfl x (by decide)
  have hlow : recode unpackVal 1024 4096 (1 + 1) (mantDpd32 x).toNat = recode unpackVal 1024 4096 2 x.toNat :=
    mantDpd_low (k := 2) (c := 6) rfl x
  rw [bcdDpd32, unpackDeclets_toNat (by decide) _ (by rw [htop]; exact Nat.dvd_mul_left _ _), htop, hlow]
  omega

/-- `quantizedpd64` が取り出す仮数には、先頭の桁がない。 -/
theorem quantizeBcd64_toNat (x : BitVec 64) :
    (unpackDeclets .xor (mantDpd64 x) 4 ((mantDpd64 x &&& 0x3c000000000000) >>> 8)).toNat =
      recode unpackVal 1024 4096 5 x.toNat := by
  have hrec := unpack_lt 5 x.toNat
  have htop : ((mantDpd64 x &&& 0x3c000000000000) >>> 8).toNat = leadOf (combOf 5 8 x) * 2 ^ 42 := by
    rw [show (0x3c000000000000 : BitVec 64) = mask 4 <<< (10 * 5) by decide]
    exact mantDpd_top (k := 5) (c := 8) rfl x (by decide)
  have hdvd : 2 ^ 12 ∣ leadOf (combOf 5 8 x) * 2 ^ 42 := Dvd.dvd.mul_left (Nat.pow_dvd_pow 2 (by decide)) _
  have hlow : recode unpackVal 1024 4096 (4 + 1) (mantDpd64 x).toNat = recode unpackVal 1024 4096 5 x.toNat :=
    mantDpd_low (k := 5) (c := 8) rfl x
  rw [unpackDeclets_toNat (by decide) _ (by rw [htop]; exact hdvd), htop, hlow]
  omega

end Books.Dfp754
