import Books.Lib.HalfUp
import Books.Dfp754.Lemmas.DpdBack

/-!
# `quantizedpd64`

詰めた十進の切り詰めでは、一番下の桁が 10 になりうる。繰り上げを先へ送らなくても、値は一桁ずつの四捨五入に一致する。
-/

namespace Books.Dfp754

open Books.Lib

variable {w K L b n : Nat} {lim m : BitVec w}

/-! ## 繰り上げを残した桁 -/

/-- 一番下の桁だけが 10 になりうる、詰めた十進。 -/
structure Loose (K b : Nat) : Prop where
  low : b % 16 ≤ 10
  rest : Digits (· < 10) 16 K (b / 16)
  top : b < 16 ^ (K + 1)

theorem Loose.of_digits (h : Digits (· < 10) 16 (K + 1) b) (hb : b < 16 ^ (K + 1)) : Loose K b :=
  ⟨Nat.le_of_lt h.head, h.tail, hb⟩

theorem Loose.shift (h : Loose (K + 1) b) {e : Nat} (he : e ≤ 1) :
    Loose (K + 1) (b / 16 + e) ∧
      recode id 16 10 (K + 2) (b / 16 + e) = recode id 16 10 (K + 1) (b / 16) + e := by
  have htop : b / 16 < 16 ^ (K + 1) := Nat.div_lt_of_lt_mul (by rw [← Nat.pow_succ']; exact h.top)
  have hhead : b / 16 % 16 < 10 := h.rest.head
  obtain ⟨hmod, hdiv⟩ := bump_mod (p := 16) (n := b / 16) (d := e) (by omega)
  have hlt : b / 16 / 16 < 16 ^ K := Nat.div_lt_of_lt_mul (by rwa [← Nat.pow_succ'])
  refine ⟨⟨by omega, ?_, ?_⟩, ?_⟩
  · rw [hdiv]
    exact digits_succ h.rest.tail (by decide) hlt
  · rw [Nat.pow_succ]
    omega
  · rw [recode_bump (by omega), recode_of_lt rfl htop (Nat.le_succ (K + 1))]

/-- 桁を落としたときの値は、四捨五入した値である。 -/
theorem Loose.round (h : Loose (K + 1) b) :
    recode id 16 10 (K + 1) (b / 16) + (if 5 ≤ b % 16 then 1 else 0) = roundDigit (recode id 16 10 (K + 2) b) := by
  have hlow := h.low
  have hval : recode id 16 10 (K + 2) b = b % 16 + 10 * recode id 16 10 (K + 1) (b / 16) := recode_succ
  rw [hval, roundDigit_eq]
  split <;> omega

/-! ## 切り詰め -/

theorem trunc_step (hw : w = 4 * (K + 2)) (m : BitVec w) :
    ((m >>> 4) + if 5 ≤ m &&& 0xf then 1 else 0).toNat = m.toNat / 16 + if 5 ≤ m.toNat % 16 then 1 else 0 := by
  have h16 := two_pow_le (show 4 ≤ w by omega)
  have hlow : (m &&& 0xf).toNat = m.toNat % 16 := toNat_nibble (by omega) m
  have h5 : (5 : BitVec w).toNat = 5 := toNat_lit (d := 5) (by omega)
  have h1 : (1 : BitVec w).toNat = 1 := toNat_lit (d := 1) (by omega)
  have hle : (5 : BitVec w) ≤ m &&& 0xf ↔ 5 ≤ m.toNat % 16 := by rw [BitVec.le_def, h5, hlow]
  have hshr : (m >>> 4).toNat = m.toNat / 16 := toNat_shr m 4
  have hlt := m.isLt
  rw [BitVec.toNat_add, hshr]
  by_cases h : 5 ≤ m.toNat % 16
  · rw [if_pos (hle.2 h), if_pos h, h1, Nat.mod_eq_of_lt (by omega)]
  · rw [if_neg (mt hle.1 h), if_neg h, show (0 : BitVec w).toNat = 0 from BitVec.toNat_zero, Nat.mod_eq_of_lt (by omega)]

theorem truncDpd_spec (hw : w = 4 * (K + 2)) (n : Nat) (h : Loose (K + 1) m.toNat) :
    Loose (K + 1) (truncDpd n m).toNat ∧
      recode id 16 10 (K + 2) (truncDpd n m).toNat = roundDigits n (recode id 16 10 (K + 2) m.toNat) := by
  induction n generalizing m with
  | zero => exact ⟨h, rfl⟩
  | succ n ih =>
      have he : (if 5 ≤ m.toNat % 16 then 1 else 0) ≤ 1 := by split <;> decide
      obtain ⟨hloose, hval⟩ := h.shift he
      rw [← trunc_step hw] at hloose
      obtain ⟨h1, h2⟩ := ih hloose
      refine ⟨h1, ?_⟩
      rw [truncDpd, h2, trunc_step hw, hval, h.round, roundDigits]

/-! ## 残した繰り上げ -/

/-- 残した繰り上げを送る繰り返し。`10 ^ fuel` に満たない値ならば、`fuel` 回のうちに終わる。 -/
theorem flipLoop_spec (hw : w = 4 * (K + 2)) {fuel i : Nat} (h : Loose (K + 1) m.toNat)
    (hv : recode id 16 10 (K + 2) m.toNat < 10 ^ fuel) :
    ∃ j, (flipLoop fuel m i).2 = i + j ∧ Digits (· < 10) 16 (K + 2) (flipLoop fuel m i).1.toNat ∧
      recode id 16 10 (K + 2) (flipLoop fuel m i).1.toNat * 10 ^ j = recode id 16 10 (K + 2) m.toNat := by
  have hval : recode id 16 10 (K + 2) m.toNat = m.toNat % 16 + 10 * recode id 16 10 (K + 1) (m.toNat / 16) := recode_succ
  induction fuel generalizing m i with
  | zero =>
      have hlow : m.toNat % 16 < 10 := by omega
      exact ⟨0, rfl, Digits.cons hlow h.rest, Nat.mul_one _⟩
  | succ fuel ih =>
      have hlow := h.low
      have h16 := two_pow_le (show 4 ≤ w by omega)
      have hnib : (m &&& 0xf).toNat = m.toNat % 16 := toNat_nibble (by omega) m
      have h10 : (10 : BitVec w).toNat = 10 := toNat_lit (d := 10) (by omega)
      rw [flipLoop]
      split
      · rename_i hge
        rw [BitVec.le_def, h10, hnib] at hge
        have hstep : ((m >>> 4) + 1).toNat = m.toNat / 16 + 1 := by
          have ht := trunc_step hw m
          have h5 : (5 : BitVec w).toNat = 5 := toNat_lit (d := 5) (by omega)
          have hle : (5 : BitVec w) ≤ m &&& 0xf := by
            rw [BitVec.le_def, hnib, h5]
            omega
          rwa [if_pos (by omega : 5 ≤ m.toNat % 16), if_pos hle] at ht
        obtain ⟨hloose, hnext⟩ := h.shift (Nat.le_refl 1)
        rw [← hstep] at hloose hnext
        obtain ⟨j, hj, hdig, hrec⟩ := ih (i := i + 1) hloose (by rw [Nat.pow_succ] at hv; omega) recode_succ
        refine ⟨j + 1, by rw [hj]; omega, hdig, ?_⟩
        rw [Nat.pow_succ, ← Nat.mul_assoc, hrec, hnext]
        omega
      · rename_i hlt
        rw [BitVec.le_def, h10, hnib] at hlt
        have hlow : m.toNat % 16 < 10 := by omega
        exact ⟨0, rfl, Digits.cons hlow h.rest, Nat.mul_one _⟩

theorem flipUp_spec (hw : w = 4 * (K + 2)) (h : Loose (K + 1) m.toNat) (hv : recode id 16 10 (K + 2) m.toNat < 10 ^ (K + 2)) :
    Digits (· < 10) 16 (K + 2) (flipUp m).toNat ∧
      recode id 16 10 (K + 2) (flipUp m).toNat = recode id 16 10 (K + 2) m.toNat := by
  obtain ⟨j, hj, hdig, hrec⟩ := flipLoop_spec (i := 0) hw h
    (Nat.lt_of_lt_of_le hv (Nat.pow_le_pow_right (by decide) (by omega : K + 2 ≤ w)))
  have hpow : (2 : Nat) ^ w = 16 ^ (K + 2) := by rw [hw, Nat.pow_mul]
  have htop : (flipLoop w m 0).1.toNat < 16 ^ (K + 2) := by
    rw [← hpow]
    exact (flipLoop w m 0).1.isLt
  have hfit : (flipLoop w m 0).1.toNat * 16 ^ j < 16 ^ (K + 2) := by
    rcases Nat.eq_zero_or_pos (recode id 16 10 (K + 2) (flipLoop w m 0).1.toNat) with h0 | hpos
    · rw [(recode_eq_zero hdig htop).1 h0, Nat.zero_mul]
      exact Nat.pow_pos (by decide)
    · have hle : j < K + 2 := by
        refine (Nat.pow_lt_pow_iff_right (by decide : 1 < 10)).1 (Nat.lt_of_le_of_lt ?_ hv)
        rw [← hrec]
        exact Nat.le_mul_of_pos_left _ hpos
      have hsplit : ∀ q : Nat, q ^ (K + 2 - j) * q ^ j = q ^ (K + 2) := fun q => by rw [← Nat.pow_add, Nat.sub_add_cancel hle.le]
      have hlt : recode id 16 10 (K + 2) (flipLoop w m 0).1.toNat < 10 ^ (K + 2 - j) := by
        refine Nat.lt_of_mul_lt_mul_right (a := 10 ^ j) ?_
        rw [hrec, hsplit]
        exact hv
      rw [← hsplit]
      exact Nat.mul_lt_mul_of_pos_right
        ((recode_lt_iff hdig htop (by decide) (by decide) (Nat.sub_le _ _)).1 hlt) (Nat.pow_pos (by decide))
  have hshl : (flipUp m).toNat = (flipLoop w m 0).1.toNat * 16 ^ j := by
    have h2 : (2 : Nat) ^ (4 * j) = 16 ^ j := Nat.pow_mul 2 4 j
    rw [flipUp, hj, Nat.zero_add, toNat_shl (by rw [h2, hpow]; exact hfit), h2]
  rw [hshl]
  refine ⟨(digits_shl (by decide) (by decide) hdig j).mono (by omega), ?_⟩
  rw [← recode_of_lt rfl hfit (Nat.le_add_left (K + 2) j), recode_shl rfl (by decide), Nat.mul_comm, hrec]

/-! ## 伸ばす繰り返し -/

theorem expandDpd_step (hw : w = 4 * (K + 2)) (hL : L ≤ K + 1) (hm : m.toNat < 16 ^ L)
    (hd : Digits (· < 10) 16 (K + 2) m.toNat) :
    Digits (· < 10) 16 (K + 2) (m <<< 4).toNat ∧
      recode id 16 10 (K + 2) (m <<< 4).toNat = recode id 16 10 (K + 2) m.toNat * 10 := by
  have hpow : (2 : Nat) ^ w = 16 ^ (K + 2) := by rw [hw, Nat.pow_mul]
  have hfit : m.toNat * 16 ^ 1 < 16 ^ (K + 2) :=
    calc m.toNat * 16 ^ 1 < 16 ^ L * 16 ^ 1 := Nat.mul_lt_mul_of_pos_right hm (by decide)
      _ = 16 ^ (L + 1) := (Nat.pow_succ 16 L).symm
      _ ≤ 16 ^ (K + 2) := Nat.pow_le_pow_right (by decide) (by omega)
  have hshl : (m <<< 4).toNat = m.toNat * 16 ^ 1 := toNat_shl (by rwa [hpow])
  rw [hshl]
  refine ⟨(digits_shl (by decide) (by decide) hd 1).mono (by omega), ?_⟩
  rw [← recode_of_lt rfl hfit (Nat.le_add_left (K + 2) 1), recode_shl rfl (by decide), Nat.pow_one, Nat.mul_comm]

theorem expandDpd_eq (hw : w = 4 * (K + 2)) (hlim : lim.toNat = 16 ^ L) (hL : L ≤ K + 1) (n : Nat) (ex : Int)
    (hd : Digits (· < 10) 16 (K + 2) m.toNat) :
    Digits (· < 10) 16 (K + 2) (expandDpd lim n m ex).1.toNat ∧
      (recode id 16 10 (K + 2) (expandDpd lim n m ex).1.toNat, (expandDpd lim n m ex).2) =
        stretch (10 ^ L) n (recode id 16 10 (K + 2) m.toNat) ex := by
  have hpow : (2 : Nat) ^ w = 16 ^ (K + 2) := by rw [hw, Nat.pow_mul]
  induction n generalizing m ex with
  | zero => exact ⟨hd, rfl⟩
  | succ n ih =>
      have htop : m.toNat < 16 ^ (K + 2) := by
        rw [← hpow]
        exact m.isLt
      have hiff : m < lim ↔ recode id 16 10 (K + 2) m.toNat < 10 ^ L := by
        rw [BitVec.lt_def, hlim, recode_lt_iff hd htop (by decide) (by decide) (by omega)]
      rw [expandDpd, stretch]
      by_cases h : m < lim
      · have hml : m.toNat < 16 ^ L := by rwa [BitVec.lt_def, hlim] at h
        obtain ⟨hdig, hrec⟩ := expandDpd_step hw hL hml hd
        rw [if_pos h, if_pos (hiff.1 h), ← hrec]
        exact ih (ex - 1) hdig
      · rw [if_neg h, if_neg (mt hiff.2 h)]
        exact ⟨hd, rfl⟩

/-! ## 揃えた仮数 -/

/-- 切り詰めて、繰り上げを送り、伸ばした仮数。 -/
theorem quantizeBcd_spec (hw : w = 4 * (K + 2)) (hlim : lim.toNat = 16 ^ K) {c : Nat} (hd : Digits (· < 10) 16 (K + 1) m.toNat)
    (hm : m.toNat < 16 ^ (K + 1)) (hc : recode id 16 10 (K + 1) m.toNat = c) (ex er : Int) :
    ∃ k ≤ (max ex er - er).toNat, ∃ y : BitVec w,
      expandDpd lim (max ex er - er).toNat (flipUp (truncDpd (er - ex).toNat m)) (max ex er) = (y, max ex er - k) ∧
      Digits (· < 10) 16 (K + 1) y.toNat ∧ y.toNat < 16 ^ (K + 1) ∧
      recode id 16 10 (K + 1) y.toNat = roundDigits (er - ex).toNat c * 10 ^ k ∧
      (k = (max ex er - er).toNat ∨ 10 ^ K ≤ roundDigits (er - ex).toNat c * 10 ^ k) ∧
      (k = 0 ∨ roundDigits (er - ex).toNat c * 10 ^ k < 10 ^ (K + 1)) := by
  have hround := roundDigits_le (er - ex).toNat c
  have hone : 1 < 10 ^ (K + 1) := Nat.one_lt_pow (by omega) (by decide)
  have hten : 10 * 10 ^ K = 10 ^ (K + 1) := (Nat.pow_succ' ..).symm
  have hwide : (10 : Nat) ^ (K + 1) ≤ 10 ^ (K + 2) := Nat.pow_le_pow_right (by decide) (by omega)
  have hpow : (2 : Nat) ^ w = 16 ^ (K + 2) := by rw [hw, Nat.pow_mul]
  have hlt : c < 10 ^ (K + 1) := by
    rw [← hc]
    exact recode_lt hd
  have hval : recode id 16 10 (K + 2) m.toNat = c := by rw [recode_of_lt rfl hm (by omega), hc]
  have hloose : Loose (K + 1) m.toNat := Loose.of_digits (digits_succ hd (by decide) hm) (hpow ▸ m.isLt)
  obtain ⟨hl₁, hv₁⟩ := truncDpd_spec hw (er - ex).toNat hloose
  rw [hval] at hv₁
  obtain ⟨hd₂, hv₂⟩ := flipUp_spec hw hl₁ (by rw [hv₁]; omega)
  obtain ⟨hd₃, hloop⟩ := expandDpd_eq hw hlim (by omega) (max ex er - er).toNat (max ex er) hd₂
  obtain ⟨k, hk, hstretch, hstop, hfit⟩ :=
    stretch_spec (10 ^ K) (max ex er - er).toNat (roundDigits (er - ex).toNat c) (max ex er)
  rw [hv₂, hv₁, hstretch, Prod.mk.injEq] at hloop
  obtain ⟨hv₃, he₃⟩ := hloop
  rw [hten] at hfit
  generalize expandDpd lim (max ex er - er).toNat (flipUp (truncDpd (er - ex).toNat m)) (max ex er) = e at *
  have hlt₃ : recode id 16 10 (K + 2) e.1.toNat < 10 ^ (K + 1) := by
    rw [hv₃]
    rcases hfit with rfl | hfit
    · omega
    · exact hfit
  have hfits : e.1.toNat < 16 ^ (K + 1) :=
    (recode_lt_iff hd₃ (hpow ▸ e.1.isLt) (by decide) (by decide) (by omega)).1 hlt₃
  have hrec : recode id 16 10 (K + 1) e.1.toNat = recode id 16 10 (K + 2) e.1.toNat := (recode_of_lt rfl hfits (by omega)).symm
  exact ⟨k, hk, e.1, Prod.ext rfl he₃, hd₃.mono (by omega), hfits, hrec.trans hv₃, hstop, hfit⟩

/-! ## 語から読み取る値 -/

section Word

variable {x r : BitVec 64}

theorem dpdDec_coef (x : BitVec 64) : (dpdDec 5 8 398 x).coef =
    leadOf (combOf 5 8 x) * 10 ^ 15 + recode decletVal 1024 1000 5 x.toNat := rfl

theorem declets_lt (x : BitVec 64) : recode decletVal 1024 1000 5 x.toNat < 10 ^ 15 := by
  have hd : recode id 16 10 (3 * 5) (recode unpackVal 1024 4096 5 x.toNat) = recode decletVal 1024 1000 5 x.toNat :=
    unpack_recode 5 x.toNat
  rw [← hd]
  exact recode_lt (unpack_bcd 5 x.toNat)

theorem declets_eq (x : BitVec 64) : recode decletVal 1024 1000 5 x.toNat = (dpdDec 5 8 398 x).coef % 10 ^ 15 := by
  have hlt := declets_lt x
  rw [dpdDec_coef, Nat.mul_comm, Nat.mul_add_mod, Nat.mod_eq_of_lt hlt]

theorem lead_eq (x : BitVec 64) : leadOf (combOf 5 8 x) = (dpdDec 5 8 398 x).coef / 10 ^ 15 := by
  have hlt := declets_lt x
  rw [dpdDec_coef, Nat.mul_comm, Nat.mul_add_div (by decide), Nat.div_eq_of_lt hlt, Nat.add_zero]

theorem quantexpdpd64_eq (hx : (dpdDec 5 8 398 x).expo ≠ -398) : quantexpdpd64 x = dpdExpo (dpdDec 5 8 398 x) := by
  have hexpo : (dpdDec 5 8 398 x).expo = (topOf (combOf 5 8 x) * 2 ^ 8 + fld x (10 * 5) 8 : Nat) - 398 := rfl
  have hcont := fld_lt x (10 * 5) 8
  have hlead := lead_eq x
  have hhead : x >>> (10 * 5) ≠ 0 := by
    intro h0
    obtain ⟨hc, hcomb, _⟩ := (head_eq_zero (k := 5) (c := 8) rfl).1 h0
    rw [hexpo, hc, hcomb] at hx
    exact hx (by decide)
  have hb : ((dpdDec 5 8 398 x).expo + 398).toNat = topOf (combOf 5 8 x) * 2 ^ 8 + fld x (10 * 5) 8 := by omega
  by_cases hl : combOf 5 8 x / 8 = 3
  · have hlo : leadOf (combOf 5 8 x) = 8 + combOf 5 8 x % 2 := if_pos hl
    have hto : topOf (combOf 5 8 x) = combOf 5 8 x / 2 % 4 := if_pos hl
    have hread : quantexpdpd64 x = (128 * (combOf 5 8 x % 4) ||| fld x (10 * 5) 8 : Nat) - 398 :=
      quantexpDpd_mixed (k := 5) (c := 8) rfl (by decide) hhead hl
    rw [hread, mixed_value _ (Nat.mod_lt _ (by decide)) _ hcont, dpdExpo, if_pos (by omega), hb, ← hlead, hlo, hto]
    omega
  · have hlo : leadOf (combOf 5 8 x) = combOf 5 8 x % 8 := if_neg hl
    have hread : quantexpdpd64 x = (topOf (combOf 5 8 x) * 2 ^ 8 + fld x (10 * 5) 8 : Nat) - 398 :=
      quantexpDpd_small (k := 5) (c := 8) rfl hhead hl
    rw [hread, dpdExpo, if_neg (by omega), hexpo]

theorem dpdSign (k c : Nat) (bias : Int) (x : BitVec w) :
    IsSign (signBits x) ∧ decide (signBits x ≠ 0) = (dpdDec k c bias x).neg := by
  have hneg : (dpdDec k c bias x).neg = x.msb := rfl
  rw [signBits_eq, hneg]
  cases x.msb
  · exact ⟨Or.inl rfl, rfl⟩
  · exact ⟨Or.inr (Or.inr rfl), rfl⟩

/-- 揃えた数は、下の 15 桁を一桁ずつ四捨五入した値であるか、`k` 桁伸ばした値である。 -/
theorem quantizedpd64_dec (hx : (dpdDec 5 8 398 x).expo ≠ -398) (hr : (dpdDec 5 8 398 r).expo ≠ -398)
    {ex er : Int} {c : Nat} (hex : dpdExpo (dpdDec 5 8 398 x) = ex) (her : dpdExpo (dpdDec 5 8 398 r) = er)
    (hc : (dpdDec 5 8 398 x).coef % 10 ^ 15 = c) (hlo : -398 ≤ er) (hxhi : ex ≤ 369) (hrhi : er ≤ 369) :
    ∃ k ≤ (max ex er - er).toNat,
      dpdDec 5 8 398 (quantizedpd64 x r) = ⟨(dpdDec 5 8 398 x).neg, roundDigits (er - ex).toNat c * 10 ^ k, max ex er - k⟩ ∧
      (k = (max ex er - er).toNat ∨ 10 ^ 14 ≤ roundDigits (er - ex).toNat c * 10 ^ k) ∧
      (k = 0 ∨ roundDigits (er - ex).toNat c * 10 ^ k < 10 ^ 15) := by
  -- 取り出した仮数は、下の 15 桁である。
  have hb := quantizeBcd64_toNat x
  have hd := unpack_bcd 5 x.toNat
  have hlt15 := unpack_lt 5 x.toNat
  have hval : recode id 16 10 (3 * 5) (recode unpackVal 1024 4096 5 x.toNat) = c := by
    rw [unpack_recode, declets_eq, hc]
  rw [← hb] at hd hlt15 hval
  have hlim : (0x100000000000000 : BitVec 64).toNat = 16 ^ 14 := rfl
  obtain ⟨k, hk, m, hloop, hdig, hlt, hrec, hstop, hfit⟩ := quantizeBcd_spec (K := 14) rfl hlim hd hlt15 hval ex er
  refine ⟨k, hk, ?_, hstop, hfit⟩
  obtain ⟨hs, hneg⟩ := dpdSign 5 8 398 x
  have hlead : leadDigit 5 (⟨m, max ex er - k, signBits x⟩ : Bcd 64) = 0 := Nat.div_eq_of_lt hlt
  have hin : DpdIn 5 8 398 (⟨m, max ex er - k, signBits x⟩ : Bcd 64) :=
    ⟨rfl, by decide, by decide, hdig, fun h8 => by omega,
      show 0 ≤ max ex er - (k : Int) + 398 by omega, show max ex er - (k : Int) + 398 < 3 * 2 ^ 8 by omega, hs⟩
  have hdigits : recode id 16 10 (3 * 5) m.toNat = roundDigits (er - ex).toNat c * 10 ^ k := hrec
  have hword : quantizedpd64 x r = bcd64todpd ⟨m, max ex er - k, signBits x⟩ := by
    rw [quantizedpd64, quantexpdpd64_eq hx, quantexpdpd64_eq hr, hex, her, hloop]
  rw [hword, bcd64todpd, hin.dec, hlead, if_neg (by decide), Nat.zero_mul, Nat.zero_add, hdigits, hneg]

end Word

end Books.Dfp754
