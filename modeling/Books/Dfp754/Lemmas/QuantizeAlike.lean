import Books.Dfp754.Lemmas.Quantize
import Books.Dfp754.Lemmas.QuantizeDpd

/-!
# 二つの形の、桁を揃える計算の一致
-/

namespace Books.Dfp754

open Books.Lib

variable {a b c m m' n : Nat} {e e' ex ex' er er' : Int}

/-! ## 伸ばした数 -/

/-- 仮数 `a`、指数 `e` の数を、指数 `r` に届くか仮数が 15 桁になるまで伸ばすと、仮数 `m`、指数 `e'` の数になる。 -/
def Stretch (a : Nat) (e r : Int) (m : Nat) (e' : Int) : Prop :=
  ∃ k ≤ (e - r).toNat, m = a * 10 ^ k ∧ e' = e - k ∧ (k = (e - r).toNat ∨ 10 ^ 14 ≤ a * 10 ^ k) ∧
    (k = 0 ∨ a * 10 ^ k < 10 ^ 15)

theorem Stretch.unique (h : Stretch a e er m ex) (h' : Stretch a e er m' ex') : m = m' ∧ ex = ex' := by
  obtain ⟨k, hk, rfl, rfl, hstop, hfit⟩ := h
  obtain ⟨k', hk', rfl, rfl, hstop', hfit'⟩ := h'
  have hkk : k = k' := by
    rcases hstop with h1 | h1
    · rcases hstop' with h2 | h2
      · omega
      · have := stretch_stops h2 hfit
        omega
    · have h3 := stretch_stops h1 hfit'
      rcases hstop' with h2 | h2
      · omega
      · have := stretch_stops h2 hfit
        omega
  subst hkk
  exact ⟨rfl, rfl⟩

theorem Stretch.stay (h : Stretch a e er m e') (hle : e ≤ er) : m = a ∧ e' = e := by
  obtain ⟨k, hk, rfl, rfl, _, _⟩ := h
  have hk0 : k = 0 := by omega
  subst hk0
  simp

theorem Stretch.expo_le (h : Stretch a e er m e') : e' ≤ e := by
  obtain ⟨k, _, _, rfl, _, _⟩ := h
  omega

theorem Stretch.zero (h : Stretch 0 e er m e') (hle : er ≤ e) : m = 0 ∧ e' = er := by
  obtain ⟨k, hk, rfl, rfl, hstop, _⟩ := h
  rw [Nat.zero_mul] at hstop ⊢
  refine ⟨rfl, ?_⟩
  omega

/-- 二つの指数に向けて伸ばした数が一致するのは、どちらにも届く前に 15 桁になるときである。 -/
theorem stretch_alike_iff (h : Stretch a e er m ex) (h' : Stretch a e er' m' ex') (hle : er ≤ e) (hle' : er' ≤ e)
    (hne : er' ≠ er) : (m = m' ∧ ex = ex') ↔ 10 ^ 14 ≤ a * 10 ^ (e - max er er').toNat := by
  obtain ⟨k, hk, rfl, rfl, hstop, hfit⟩ := h
  obtain ⟨k', hk', rfl, rfl, hstop', hfit'⟩ := h'
  constructor
  · rintro ⟨_, hexpo⟩
    have hkk : k = k' := by omega
    subst hkk
    have hge : 10 ^ 14 ≤ a * 10 ^ k := by
      rcases hstop with h1 | h1
      · exact hstop'.resolve_left (by omega)
      · exact h1
    exact Nat.le_trans hge (Nat.mul_le_mul_left a (Nat.pow_le_pow_right (by decide) (by omega)))
  · intro hge
    have h1 := stretch_stops hge hfit
    have h2 := stretch_stops hge hfit'
    have hkk : k = k' := by
      refine Nat.le_antisymm ?_ ?_
      · rcases hstop' with h3 | h3
        · omega
        · exact stretch_stops h3 hfit
      · rcases hstop with h3 | h3
        · omega
        · exact stretch_stops h3 hfit'
    subst hkk
    exact ⟨rfl, rfl⟩

/-! ## 15 桁に収まる仮数 -/

theorem alike_short_iff (h : Stretch (roundDigits (er - ex).toNat c) (max ex er) er m e)
    (h' : Stretch (roundDigits (er' - ex).toNat c) (max ex er') er' m' e') :
    (m = m' ∧ e = e') ↔ er' = er ∨ max er er' ≤ ex ∧ 10 ^ 14 ≤ c * 10 ^ (ex - max er er').toNat := by
  by_cases heq : er' = er
  · subst heq
    exact iff_of_true (h.unique h') (Or.inl rfl)
  · by_cases hle : er ≤ ex ∧ er' ≤ ex
    · have h0 : (er - ex).toNat = 0 := by omega
      have h0' : (er' - ex).toNat = 0 := by omega
      rw [h0, max_eq_left hle.1, roundDigits] at h
      rw [h0', max_eq_left hle.2, roundDigits] at h'
      rw [stretch_alike_iff h h' hle.1 hle.2 heq]
      exact ⟨fun hge => Or.inr ⟨max_le hle.1 hle.2, hge⟩, fun hor => (hor.resolve_left heq).2⟩
    · refine iff_of_false (fun hmm => ?_) (fun hor => ?_)
      · have hexpo := h.expo_le
        have hexpo' := h'.expo_le
        rcases lt_or_ge ex er with hlt | hge
        · have hstay := (h.stay (by omega)).2
          rcases lt_or_ge ex er' with hlt' | hge'
          · have hstay' := (h'.stay (by omega)).2
            omega
          · omega
        · have hstay' := (h'.stay (by omega)).2
          omega
      · have hmax := (hor.resolve_left heq).1
        omega

/-! ## 16 桁の仮数 -/

/-- 桁の数より多く切り詰めると、零になる。 -/
theorem round_far (hc : c < 10 ^ 16) (hn : 17 ≤ n) : roundDigits n c = 0 := by
  have hpow : 10 ^ 17 ≤ 10 ^ n := Nat.pow_le_pow_right (by decide) hn
  refine (roundDigits_eq_zero n c).2 (Or.inl ?_)
  omega

/-- 先頭の桁のない仮数と同じ値になるのは、零のときだけである。 -/
theorem round_lead (hlo : 10 ^ 15 ≤ c) (hhi : c < 10 ^ 16) (h : roundDigits n c = roundDigits n (c % 10 ^ 15)) :
    roundDigits n c = 0 := by
  rcases Nat.lt_or_ge n 16 with hn | hn
  · -- 先頭の桁は、`n` 桁を落としても残る。
    obtain ⟨j, hj⟩ : ∃ j, 15 = n + j := ⟨15 - n, by omega⟩
    have hsplit : c + fives n = c % 10 ^ 15 + fives n + 10 ^ n * (10 ^ j * (c / 10 ^ 15)) := by
      have hmod := Nat.div_add_mod c (10 ^ 15)
      have hpow : 10 ^ n * (10 ^ j * (c / 10 ^ 15)) = 10 ^ 15 * (c / 10 ^ 15) := by
        rw [← Nat.mul_assoc, ← Nat.pow_add, ← hj]
      omega
    have hpos : 0 < 10 ^ j * (c / 10 ^ 15) := Nat.mul_pos (Nat.pow_pos (by decide)) (by omega)
    rw [roundDigits_eq, roundDigits_eq, hsplit, Nat.add_mul_div_left _ _ (Nat.pow_pos (by decide))] at h
    omega
  · have hpow : 10 ^ 16 ≤ 10 ^ n := Nat.pow_le_pow_right (by decide) hn
    rw [h]
    refine (roundDigits_eq_zero n _).2 (Or.inl ?_)
    omega

theorem stretch_lt (h : Stretch (roundDigits n (c % 10 ^ 15)) e er m e') : m < 10 ^ 15 := by
  obtain ⟨k, _, rfl, _, _, hfit⟩ := h
  have hround := roundDigits_le n (c % 10 ^ 15)
  have hmod : c % 10 ^ 15 < 10 ^ 15 := Nat.mod_lt c (by decide)
  rcases hfit with rfl | hfit
  · omega
  · exact hfit

/-- 取り違えた指数の、正しい指数との差。 -/
def Misread (ex ex' : Int) : Prop := ex' = ex ∨ ex' = ex + 128 ∨ ex' = ex - 512 ∨ ex' = ex - 384

/-- 16 桁の仮数で二つの値が一致するのは、零のときだけである。 -/
theorem alike_zero (hlo : 10 ^ 15 ≤ c) (hhi : c < 10 ^ 16) (hm : Misread ex ex') (hlt : ex < er)
    (h : Stretch (roundDigits (er' - ex').toNat (c % 10 ^ 15)) (max ex' er') er' (roundDigits (er - ex).toNat c) er) :
    roundDigits (er - ex).toNat c = 0 := by
  have hmod : c % 10 ^ 15 < 10 ^ 15 := Nat.mod_lt c (by decide)
  by_cases hfar : ex + 17 ≤ er
  · exact round_far hhi (by omega)
  · rcases lt_or_ge er' ex' with hext | hround
    · -- 伸ばして `er` に届くには、零でなければならない。
      have h0 : (er' - ex').toNat = 0 := by omega
      rw [h0, max_eq_left hext.le, roundDigits] at h
      obtain ⟨k, hk, hval, hexpo, _, hfit⟩ := h
      rcases Nat.eq_zero_or_pos (c % 10 ^ 15) with hz | hpos
      · rw [hval, hz, Nat.zero_mul]
      · have hk15 : k < 15 := by
          rcases hfit with rfl | hfit
          · decide
          · exact (Nat.pow_lt_pow_iff_right (by decide : 1 < 10)).1
              (Nat.lt_of_le_of_lt (Nat.le_mul_of_pos_left _ hpos) hfit)
        rcases hm with h1 | h1 | h1 | h1 <;> omega
    · obtain ⟨hval, hexpo⟩ := h.stay (by omega)
      rw [max_eq_right hround] at hexpo
      rcases hm with h1 | h1 | h1 | h1
      · rw [h1, ← hexpo] at hval
        exact round_lead hlo hhi hval
      · omega
      · rw [hval]
        exact round_far (by omega) (by omega)
      · rw [hval]
        exact round_far (by omega) (by omega)

theorem alike_long_iff (hlo : 10 ^ 15 ≤ c) (hhi : c < 10 ^ 16) (hm : Misread ex ex')
    (h : Stretch (roundDigits (er - ex).toNat c) (max ex er) er m e)
    (h' : Stretch (roundDigits (er' - ex').toNat (c % 10 ^ 15)) (max ex' er') er' m' e') :
    (m = m' ∧ e = e') ↔ ex < er ∧ 9 * c ≤ 4 * (10 ^ (er - ex).toNat - 1) ∧ er' = er ∧
      (c % 10 ^ 15 = 0 ∨ ex' ≤ er ∧ 9 * (c % 10 ^ 15) ≤ 4 * (10 ^ (er - ex').toNat - 1)) := by
  rcases lt_or_ge ex er with hlt | hge
  · obtain ⟨rfl, rfl⟩ := h.stay (by omega)
    rw [max_eq_right hlt.le]
    constructor
    · rintro ⟨hval, hexpo⟩
      rw [← hval, ← hexpo] at h'
      have hz := alike_zero hlo hhi hm hlt h'
      rw [hz] at h'
      have hcz := ((roundDigits_eq_zero _ _).1 hz).resolve_right (by omega)
      obtain ⟨k, hk, hv, hk', hstop, _⟩ := h'
      have hbz : roundDigits (er' - ex').toNat (c % 10 ^ 15) = 0 :=
        (Nat.mul_eq_zero.1 hv.symm).resolve_right (Nat.pow_pos (by decide)).ne'
      rw [hbz, Nat.zero_mul] at hstop
      have her : er' = er := by omega
      subst her
      refine ⟨hlt, hcz, rfl, ?_⟩
      rcases le_or_gt ex' er' with hle | hgt
      · exact ((roundDigits_eq_zero _ _).1 hbz).elim (fun h9 => Or.inr ⟨hle, h9⟩) Or.inl
      · rw [show (er' - ex').toNat = 0 by omega, roundDigits] at hbz
        exact Or.inl hbz
    · rintro ⟨_, hcz, rfl, hlow⟩
      have hz := (roundDigits_eq_zero _ _).2 (Or.inl hcz : 9 * c ≤ 4 * (10 ^ (er' - ex).toNat - 1) ∨ c = 0)
      have hbz : roundDigits (er' - ex').toNat (c % 10 ^ 15) = 0 := by
        rcases hlow with h0 | ⟨_, h9⟩
        · rw [h0, roundDigits_zero]
        · exact (roundDigits_eq_zero _ _).2 (Or.inl h9)
      rw [hbz] at h'
      obtain ⟨rfl, rfl⟩ := h'.zero (le_max_right ex' er')
      exact ⟨hz, rfl⟩
  · -- 短くしない 16 桁の仮数は、15 桁に収まる仮数と一致しない。
    refine iff_of_false (fun hmm => ?_) (fun hr => absurd hr.1 (by omega))
    have hlow := stretch_lt h'
    rw [show (er - ex).toNat = 0 by omega, roundDigits] at h
    obtain ⟨k, _, rfl, _, _, _⟩ := h
    have hle : c ≤ c * 10 ^ k := Nat.le_mul_of_pos_right c (Nat.pow_pos (by decide))
    omega

/-! ## 語の一致 -/

/-- `quantexpdpd64` が読む指数の、正しい指数との差。 -/
theorem misread_dpdExpo {d : Dec} (hc : d.coef < 10 ^ 16) (hlo : -398 ≤ d.expo) (hhi : d.expo ≤ 369) :
    Misread d.expo (dpdExpo d) ∧ -398 ≤ dpdExpo d ∧ dpdExpo d ≤ 369 := by
  rw [dpdExpo, Misread]
  split <;> omega

theorem dpdExpo_short {d : Dec} (hc : d.coef < 10 ^ 15) : dpdExpo d = d.expo := if_neg (by omega)

variable {X R : Dec} {xb rb xd rd : BitVec 64}

theorem bid_stretch (hxb : bidDec 53 398 xb = X) (hrb : bidDec 53 398 rb = R) (hX : X.expo ≤ 369) (hR : R.expo ≤ 369)
    (hX0 : X.expo ≠ -398) (hR0 : R.expo ≠ -398) :
    ∃ m e, bidDec 53 398 (quantizebid64 xb rb) = ⟨X.neg, m, e⟩ ∧
      Stretch (roundDigits (R.expo - X.expo).toNat X.coef) (max X.expo R.expo) R.expo m e := by
  subst hxb hrb
  have hne : ∀ y : BitVec 64, (bidDec 53 398 y).expo ≠ -398 → y ≠ 0 := by
    rintro y hy rfl
    exact hy (by decide)
  have hlim : (100000000000000 : BitVec 64).toNat = 10 ^ 14 := rfl
  obtain ⟨k, hk, hY, hstop, hfit⟩ := quantizeBid_dec (by decide) (by decide) (by rw [hlim]; decide)
    (show (bidDec 53 398 xb).expo + 398 < 3 * 2 ^ 8 by omega) (show (bidDec 53 398 rb).expo + 398 < 3 * 2 ^ 8 by omega)
    (hne xb hX0) (hne rb hR0)
  rw [hlim] at hstop hfit
  exact ⟨_, _, hY, k, hk, rfl, rfl, hstop, hfit⟩

theorem dpd_stretch (hxd : dpdDec 5 8 398 xd = X) (hrd : dpdDec 5 8 398 rd = R) (hXc : X.coef < 10 ^ 16)
    (hRc : R.coef < 10 ^ 16) (hXlo : -398 ≤ X.expo) (hX : X.expo ≤ 369) (hRlo : -398 ≤ R.expo) (hR : R.expo ≤ 369)
    (hX0 : X.expo ≠ -398) (hR0 : R.expo ≠ -398) :
    ∃ m e, dpdDec 5 8 398 (quantizedpd64 xd rd) = ⟨X.neg, m, e⟩ ∧
      Stretch (roundDigits (dpdExpo R - dpdExpo X).toNat (X.coef % 10 ^ 15)) (max (dpdExpo X) (dpdExpo R)) (dpdExpo R) m e := by
  subst hxd hrd
  obtain ⟨k, hk, hY, hstop, hfit⟩ := quantizedpd64_dec hX0 hR0 rfl rfl rfl (misread_dpdExpo hRc hRlo hR).2.1
    (misread_dpdExpo hXc hXlo hX).2.2 (misread_dpdExpo hRc hRlo hR).2.2
  exact ⟨_, _, hY, k, hk, rfl, rfl, hstop, hfit⟩

/-- 二つの形で同じに揃うのは、ちょうど `QuantiseAlike` のときである。 -/
theorem alike_iff (hxb : bidDec 53 398 xb = X) (hrb : bidDec 53 398 rb = R) (hxd : dpdDec 5 8 398 xd = X)
    (hrd : dpdDec 5 8 398 rd = R) (hXc : X.coef < 10 ^ 16) (hRc : R.coef < 10 ^ 16) (hXlo : -398 < X.expo)
    (hX : X.expo ≤ 369) (hRlo : -398 < R.expo) (hR : R.expo ≤ 369) :
    bidDec 53 398 (quantizebid64 xb rb) = dpdDec 5 8 398 (quantizedpd64 xd rd) ↔ QuantiseAlike X R := by
  obtain ⟨m, e, hY, h⟩ := bid_stretch hxb hrb hX hR hXlo.ne' hRlo.ne'
  obtain ⟨m', e', hY', h'⟩ := dpd_stretch hxd hrd hXc hRc hXlo.le hX hRlo.le hR hXlo.ne' hRlo.ne'
  have heq : (⟨X.neg, m, e⟩ : Dec) = ⟨X.neg, m', e'⟩ ↔ m = m' ∧ e = e' := by simp
  rw [hY, hY', heq, QuantiseAlike]
  rcases Nat.lt_or_ge X.coef (10 ^ 15) with hc | hc
  · rw [dpdExpo_short hc, Nat.mod_eq_of_lt hc] at h'
    rw [alike_short_iff h h']
    exact ⟨fun hor => Or.inl ⟨hc, hor⟩, fun hor => hor.elim (fun hs => hs.2) (fun hl => absurd hl.1 (Nat.not_le.2 hc))⟩
  · rw [alike_long_iff hc hXc (misread_dpdExpo hXc hXlo.le hX).1 h h']
    exact ⟨fun hl => Or.inr ⟨hc, hl⟩, fun hor => hor.elim (fun hs => absurd hs.1 (Nat.not_lt.2 hc)) (fun hl => hl.2)⟩

end Books.Dfp754
