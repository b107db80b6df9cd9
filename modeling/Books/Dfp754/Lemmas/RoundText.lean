import Books.Dfp754.Lemmas.Round

/-!
# 丸めた仮数
-/

namespace Books.Dfp754

open Books.Lib

variable {w N M s : Nat} {roff : Int} {mant : BitVec w}

/-- 送られる桁を除いた仮数の、下の 32 ビット。 -/
def stem (s N M : Nat) : Nat := M / 16 ^ trail s N M % 2 ^ 32

/-- 丸めた仮数。送られた桁は 0 になる。 -/
def rounded (roff : Int) (s N M : Nat) : Nat := ((stem s N M : Int) + roff).toNat * 16 ^ trail s N M

/-! ## 丸めた桁より上 -/

theorem trail_pow (s N M : Nat) : 16 ^ (N - trail s N M) * 16 ^ trail s N M = 16 ^ N := by
  rw [← Nat.pow_add, Nat.sub_add_cancel (trail_le s N M)]

theorem stem_mod (s N M : Nat) : stem s N M % 16 = M / 16 ^ trail s N M % 16 := Nat.mod_mod_of_dvd _ (by decide)

theorem stem_lt (hM : M < 16 ^ N) : stem s N M < 16 ^ (N - trail s N M) := by
  refine Nat.lt_of_le_of_lt (Nat.mod_le _ _) (Nat.div_lt_of_lt_mul ?_)
  rwa [Nat.mul_comm, trail_pow]

theorem stem_digits (hd : Digits (· < 10) 16 N M) : Digits (· < 10) 16 (N - trail s N M) (stem s N M) := by
  have hs : Digits (· < 10) 16 (N - trail s N M) (M / 16 ^ trail s N M) := by
    refine Digits.shift (l := trail s N M) ?_
    rwa [Nat.add_sub_of_le (trail_le s N M)]
  exact digits_pow_mod (p := 16) (by decide) (by decide) hs 8

theorem stem_digit (hd : Digits (· < 10) 16 N M) (ht : trail s N M < N) : stem s N M % 16 < 10 ∧ stem s N M % 16 ≠ s := by
  rw [stem_mod]
  exact ⟨hd _ ht, trail_stop ht⟩

theorem carry_digit {d : Nat} (hc : Carry roff s) (hd : d < 10) (hs : d ≠ s) :
    roff = 1 ∧ d < 9 ∨ roff = -1 ∧ 0 < d := by
  rcases hc with ⟨rfl, rfl⟩ | ⟨rfl, rfl⟩
  · exact Or.inl ⟨rfl, by omega⟩
  · exact Or.inr ⟨rfl, by omega⟩

/-! ## 丸めた仮数の桁と値 -/

theorem bumped (hd : Digits (· < 10) 16 N M) (hc : Carry roff s) (ht : trail s N M < N) :
    Digits (· < 10) 16 (N - trail s N M) ((stem s N M : Int) + roff).toNat ∧
      (recode id 16 10 (N - trail s N M) ((stem s N M : Int) + roff).toNat : Int) =
        recode id 16 10 (N - trail s N M) (stem s N M) + roff := by
  have hds := stem_digits (s := s) hd
  obtain ⟨hlt, hne⟩ := stem_digit hd ht
  obtain ⟨k, hk⟩ : ∃ k, N - trail s N M = k + 1 := ⟨N - trail s N M - 1, by omega⟩
  rw [hk] at hds ⊢
  rcases carry_digit hc hlt hne with ⟨rfl, h9⟩ | ⟨rfl, h0⟩
  · have hv : ((stem s N M : Int) + 1).toNat = stem s N M + 1 := by omega
    rw [hv, recode_bump (by omega)]
    exact ⟨digits_bump (by omega) (by omega) hds, by push_cast; rfl⟩
  · have hpos : 0 < stem s N M := Nat.lt_of_lt_of_le h0 (Nat.mod_le _ _)
    have hv : ((stem s N M : Int) + -1).toNat = stem s N M - 1 := by omega
    have hr := recode_drop (q := 10) (k := k) h0
    rw [hv]
    exact ⟨digits_drop h0 (by omega) hds, by omega⟩

theorem rounded_digits (hd : Digits (· < 10) 16 N M) (hc : Carry roff s) (ht : trail s N M < N) :
    Digits (· < 10) 16 N (rounded roff s N M) := by
  have h := digits_shl (l := trail s N M) (by decide) (by decide) (bumped hd hc ht).1
  rwa [Nat.add_sub_of_le (trail_le s N M)] at h

theorem rounded_recode (hd : Digits (· < 10) 16 N M) (hc : Carry roff s) (ht : trail s N M < N) :
    (recode id 16 10 N (rounded roff s N M) : Int) =
      10 ^ trail s N M * (recode id 16 10 (N - trail s N M) (stem s N M) + roff) := by
  have h := recode_shl (f := id) (p := 16) (q := 10) (k := N - trail s N M) (n := ((stem s N M : Int) + roff).toNat) rfl
    (by decide) (trail s N M)
  rw [Nat.add_sub_of_le (trail_le s N M)] at h
  rw [rounded, h]
  push_cast
  rw [(bumped hd hc ht).2]

theorem rounded_lt (hd : Digits (· < 10) 16 N M) (hM : M < 16 ^ N) (hc : Carry roff s) (ht : trail s N M < N) :
    rounded roff s N M < 16 ^ N := by
  have hlt := stem_lt (s := s) hM
  obtain ⟨hd10, hne⟩ := stem_digit hd ht
  have hv : ((stem s N M : Int) + roff).toNat < 16 ^ (N - trail s N M) := by
    rcases carry_digit hc hd10 hne with ⟨rfl, h9⟩ | ⟨rfl, h0⟩
    · obtain ⟨k, hk⟩ : ∃ k, N - trail s N M = k + 1 := ⟨N - trail s N M - 1, by omega⟩
      rw [hk, Nat.pow_succ] at hlt ⊢
      omega
    · omega
  rw [rounded, ← trail_pow s N M]
  exact Nat.mul_lt_mul_of_pos_right hv (Nat.pow_pos (by decide))

/-- どの桁も 9 なら、繰り上げは一つ上の桁に出る。 -/
theorem rounded_nines (hM : M < 16 ^ N) (ht : trail 9 N M = N) : rounded 1 9 N M = 16 ^ N := by
  have hstem : stem 9 N M = 0 := by rw [stem, ht, Nat.div_eq_of_lt hM, Nat.zero_mod]
  rw [rounded, hstem, ht]
  simp

theorem rounded_mod (hc : Carry roff s) (hd : M % 16 < 10) :
    (rounded roff s (N + 1) M % 16 : Int) = if M % 16 = s then 0 else (M % 16 : Nat) + roff := by
  rw [rounded]
  split
  · rename_i hs
    obtain ⟨k, hk⟩ : ∃ k, trail s (N + 1) M = k + 1 := ⟨_, by rw [trail, if_pos hs]⟩
    rw [hk, Nat.pow_succ, ← Nat.mul_assoc]
    exact_mod_cast Nat.mul_mod_left _ 16
  · rename_i hs
    have ht : trail s (N + 1) M = 0 := by rw [trail, if_neg hs]
    have hmod := stem_mod s (N + 1) M
    rw [ht, Nat.pow_zero, Nat.div_one] at hmod
    rw [ht, Nat.pow_zero, Nat.mul_one]
    rcases hc with ⟨rfl, rfl⟩ | ⟨rfl, rfl⟩ <;> omega

theorem rounded_ne (hd : M % 16 < 10) : rounded 1 9 (N + 1) M ≠ rounded (-1) 0 (N + 1) M := by
  intro h
  have hup := rounded_mod (N := N) (Or.inl ⟨rfl, rfl⟩ : Carry 1 9) hd
  have hdown := rounded_mod (N := N) (Or.inr ⟨rfl, rfl⟩ : Carry (-1) 0) hd
  rw [h] at hup
  split at hup <;> split at hdown <;> omega

/-! ## 丸めの計算 -/

theorem join_rounded (o : Join) (hw : 32 ≤ w) {h x : BitVec w} {y : Nat} (hx : x.toNat = y) (hy : y < 16) :
    (o.app (h &&& 0xfffffff0) x).toNat = h.toNat % 2 ^ 32 - h.toNat % 16 + y := by
  have hmask : (0xfffffff0 : BitVec w) = mask 28 <<< 4 := ofNat_mul_two_pow (2 ^ 28 - 1) 4
  have hval : (h &&& 0xfffffff0).toNat = h.toNat % 2 ^ 32 - h.toNat % 16 := by
    rw [hmask, toNat_and_ones 28 4 (by omega), fld_eq]
    omega
  have hlow : fld (h &&& 0xfffffff0) 0 4 = 0 := by
    refine fld_low_eq_zero ?_
    rw [hmask, toNat_and_ones 28 4 (by omega)]
    exact Nat.dvd_mul_right _ _
  rw [o.toNat_eq hlow (by rw [hx]; exact hy), hval, hx]

theorem stop_digit (hd : Digits (· < 10) 16 N M) (hM : M < 16 ^ N) (ht : trail s N M < N ∨ s = 9) :
    Digits (· < 10) 16 (trail s N M + 1) M ∧ M / 16 ^ trail s N M % 16 ≠ s := by
  rcases Nat.lt_or_ge (trail s N M) N with hlt | hge
  · exact ⟨hd.mono hlt, trail_stop hlt⟩
  · have hN : trail s N M = N := Nat.le_antisymm (trail_le s N M) hge
    have h9 : s = 9 := ht.resolve_left (by omega)
    have htop : M / 16 ^ N % 16 = 0 := by rw [Nat.div_eq_of_lt hM]
    rw [hN, htop, h9]
    refine ⟨fun i hi => ?_, by decide⟩
    rcases Nat.lt_succ_iff_lt_or_eq.1 hi with hi | rfl
    · exact hd i hi
    · show M / 16 ^ i % 16 < 10
      rw [htop]
      decide

theorem rounded_le (hd : Digits (· < 10) 16 N M) (hM : M < 16 ^ N) (hc : Carry roff s) (ht : trail s N M < N ∨ s = 9) :
    rounded roff s N M ≤ 16 ^ N := by
  rcases Nat.lt_or_ge (trail s N M) N with hlt | hge
  · exact Nat.le_of_lt (rounded_lt hd hM hc hlt)
  · have h9 : s = 9 := ht.resolve_left (by omega)
    obtain ⟨rfl, _⟩ : roff = 1 ∧ s = 9 := by
      rcases hc with h | ⟨_, h0⟩
      · exact h
      · omega
    subst h9
    exact Nat.le_of_eq (rounded_nines hM (Nat.le_antisymm (trail_le 9 N M) hge))

/-- `round_bcd64` と `round_bcd32` の値。送られる桁の数より多く回れば、返る。 -/
theorem roundBcd_eq (o : Join) (hw : 32 ≤ w) (hN : 4 * (N + 1) ≤ w) (hc : Carry roff s)
    (hd : Digits (· < 10) 16 N mant.toNat) (hM : mant.toNat < 16 ^ N) (ht : trail s N mant.toNat < N ∨ s = 9) :
    ∃ r : BitVec w, r.toNat = rounded roff s N mant.toNat ∧
      ∀ fuel, roundBcd o fuel mant roff = if trail s N mant.toNat < fuel then some r else none := by
  obtain ⟨hdig, hne⟩ := stop_digit hd hM ht
  have hle := rounded_le hd hM hc ht
  have hshr : (mant >>> (4 * trail s N mant.toNat)).toNat = mant.toNat / 16 ^ trail s N mant.toNat := by
    rw [toNat_shr, Nat.pow_mul]
  have hd10 : (mant >>> (4 * trail s N mant.toNat)).toNat % 16 < 10 := by
    rw [hshr]
    exact hdig _ (Nat.lt_succ_self _)
  have hx := rounded_toNat (by omega) hc hd10
  rw [if_neg (by rwa [hshr]), hshr, ← stem_mod] at hx
  have hy : (((mant >>> (4 * trail s N mant.toNat)) &&& 0xf) + BitVec.ofInt w roff).toNat < 16 := by
    rw [hshr, ← stem_mod] at hd10
    rcases hc with ⟨rfl, rfl⟩ | ⟨rfl, rfl⟩ <;> omega
  have hjoin := join_rounded o hw (h := mant >>> (4 * trail s N mant.toNat)) rfl hy
  have hstem : mant.toNat / 16 ^ trail s N mant.toNat % 2 ^ 32 = stem s N mant.toNat := rfl
  rw [hshr, hstem, ← stem_mod] at hjoin
  have hval : (o.app ((mant >>> (4 * trail s N mant.toNat)) &&& 0xfffffff0)
      (((mant >>> (4 * trail s N mant.toNat)) &&& 0xf) + BitVec.ofInt w roff)).toNat =
        ((stem s N mant.toNat : Int) + roff).toNat := by
    have hmod := Nat.mod_le (stem s N mant.toNat) 16
    omega
  have hpow : (16 : Nat) ^ N < 2 ^ w := by
    rw [show (16 : Nat) = 2 ^ 4 from rfl, ← Nat.pow_mul]
    exact Nat.pow_lt_pow_right (by decide) (by omega)
  refine ⟨o.app ((mant >>> (4 * trail s N mant.toNat)) &&& 0xfffffff0)
    (((mant >>> (4 * trail s N mant.toNat)) &&& 0xf) + BitVec.ofInt w roff) <<< (4 * trail s N mant.toNat), ?_, fun fuel => ?_⟩
  · have hsh : (2 : Nat) ^ (4 * trail s N mant.toNat) = 16 ^ trail s N mant.toNat := Nat.pow_mul 2 4 _
    rw [toNat_shl (by rw [hval, hsh]; exact Nat.lt_of_le_of_lt hle hpow), hval, hsh]
    rfl
  · rw [roundBcd, roundLoop_eq (by omega) hc hdig (fun i hi => trail_digit hi) hne, apply_ite (Option.map _), Option.map_some,
      Option.map_none, Nat.zero_add]

end Books.Dfp754
