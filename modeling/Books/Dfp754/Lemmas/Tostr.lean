import Books.Dfp754.Lemmas.Codec

/-!
# 語を文字列に書き、読み戻す
-/

namespace Books.Dfp754

open Books.Lib

variable {w p K nd : Nat} {bias : Int} {neg : Bool} {is fs ip ds : List UInt8} {x : BitVec w} {bsz : Nat}

/-! ## 詰めた十進に直す -/

section Rebcd
variable {f : Nat → BitVec w → BitVec w → BitVec w} {g : BitVec w → BitVec w → BitVec w}

/-- 一桁ずつ、上から入れて下へ送る繰り返し。 -/
theorem rebcd_toNat (hw : 4 ≤ w) (hzero : ∀ m v, f 0 m v = v) (hsucc : ∀ i m v, f (i + 1) m v = f i (m / 10) (g m v))
    (hstep : ∀ m v : BitVec w, v.toNat < 16 ^ (K + 1) → (g m v).toNat = v.toNat / 16 + 16 ^ K * (m.toNat % 10))
    {i : Nat} (hi : i ≤ K + 1) (m v : BitVec w) (hv : v.toNat < 16 ^ (K + 1)) :
    (f i m v).toNat = v.toNat / 16 ^ i + 16 ^ (K + 1 - i) * recode id 10 16 i m.toNat := by
  induction i generalizing m v with
  | zero => rw [hzero]; simp
  | succ i ih =>
      have hten : (10 : BitVec w).toNat = 10 := toNat_lit (d := 10) (by have := two_pow_le hw; omega)
      have hdiv : (m / 10).toNat = m.toNat / 10 := by rw [BitVec.toNat_udiv, hten]
      have hd := Nat.mod_lt m.toNat (y := 10) (by decide)
      have hlt : (g m v).toNat < 16 ^ (K + 1) := by
        rw [hstep m v hv]
        rw [Nat.pow_succ] at hv ⊢
        have hle := Nat.mul_le_mul_left (16 ^ K) (Nat.le_of_lt_succ hd)
        omega
      have hsplit : (16 : Nat) ^ K = 16 ^ i * 16 ^ (K - i) := by rw [← Nat.pow_add]; congr 1; omega
      have hpow : (16 : Nat) ^ (K + 1 - i) = 16 ^ (K - i) * 16 := by rw [← Nat.pow_succ]; congr 1; omega
      rw [hsucc, ih (by omega) _ _ hlt, hstep m v hv, hdiv, recode_succ, id, hsplit, Nat.mul_assoc,
        Nat.add_mul_div_left _ _ (Nat.pow_pos (by decide)), Nat.div_div_eq_div_mul, ← Nat.pow_succ',
        Nat.add_sub_add_right K 1 i, hpow]
      ring

theorem rebcd_val (hw : 4 ≤ w) (hzero : ∀ m v, f 0 m v = v) (hsucc : ∀ i m v, f (i + 1) m v = f i (m / 10) (g m v))
    (hstep : ∀ m v : BitVec w, v.toNat < 16 ^ (K + 1) → (g m v).toNat = v.toNat / 16 + 16 ^ K * (m.toNat % 10))
    {m : BitVec w} (hd : ∀ c ∈ ds, isdigit c = true) (hlen : ds.length ≤ K + 1) (hm : m.toNat = val 10 ds) :
    (f (K + 1) m 0).toNat = val 16 ds := by
  have h0 : (0 : BitVec w).toNat = 0 := BitVec.toNat_zero
  rw [rebcd_toNat hw hzero hsucc hstep (Nat.le_refl _) m 0 (by rw [h0]; exact Nat.pow_pos (by decide)), hm,
    val_recode hd hlen, h0]
  simp

end Rebcd

theorem rebcd_step (m v : BitVec 64) : ((v >>> 4) ^^^ ((m % 10) <<< (64 - 4))).toNat =
    v.toNat / 16 + 16 ^ 15 * (m.toNat % 10) := by
  have hlt := v.isLt
  have hd := Nat.mod_lt m.toNat (y := 10) (by decide)
  have hshr : (v >>> 4).toNat = v.toNat / 16 := toNat_shr v 4
  have hmod : (m % 10).toNat = m.toNat % 10 := BitVec.toNat_umod
  have hshl : ((m % 10) <<< (64 - 4)).toNat = m.toNat % 10 * 2 ^ 60 := by
    rw [toNat_shl (by rw [hmod]; omega), hmod]
  rw [BitVec.xor_comm]
  have hjoin := Join.toNat_eq (x := (m % 10) <<< (64 - 4)) (y := v >>> 4) (k := 60) .xor (fld_shl_low (by decide))
    (by rw [hshr]; omega)
  refine hjoin.trans ?_
  rw [hshl, hshr]
  omega

/-- 入れる桁は、送る前の 28 ビットの上にある。 -/
theorem rebcd_step32 (m v : BitVec 32) (hv : v.toNat < 16 ^ 7) :
    ((v ^^^ ((m % 10) <<< 28)) >>> 4).toNat = v.toNat / 16 + 16 ^ 6 * (m.toNat % 10) := by
  have hd := Nat.mod_lt m.toNat (y := 10) (by decide)
  have hmod : (m % 10).toNat = m.toNat % 10 := BitVec.toNat_umod
  have hshl : ((m % 10) <<< 28).toNat = m.toNat % 10 * 2 ^ 28 := by
    rw [toNat_shl (by rw [hmod]; omega), hmod]
  have hjoin : (v ^^^ ((m % 10) <<< 28)).toNat = v.toNat + m.toNat % 10 * 2 ^ 28 := by
    rw [BitVec.xor_comm]
    have h := Join.toNat_eq (x := (m % 10) <<< 28) (y := v) (k := 28) .xor (fld_shl_low (by decide)) hv
    rw [hshl, Nat.add_comm] at h
    exact h
  rw [toNat_shr, hjoin]
  omega

theorem rebcdLoop_val {m : BitVec 64} (hd : ∀ c ∈ ds, isdigit c = true) (hlen : ds.length ≤ 16) (hm : m.toNat = val 10 ds) :
    (rebcdLoop 16 m 0).toNat = val 16 ds :=
  rebcd_val (K := 15) (f := rebcdLoop) (g := fun m v => (v >>> 4) ^^^ ((m % 10) <<< (64 - 4))) (by decide)
    (fun _ _ => rfl) (fun _ _ _ => rfl) (fun m v _ => rebcd_step m v) hd hlen hm

theorem rebcdLoop32_val {m : BitVec 32} (hd : ∀ c ∈ ds, isdigit c = true) (hlen : ds.length ≤ 7) (hm : m.toNat = val 10 ds) :
    (rebcdLoop32 7 m 0).toNat = val 16 ds :=
  rebcd_val (K := 6) (f := rebcdLoop32) (g := fun m v => (v ^^^ ((m % 10) <<< 28)) >>> 4) (by decide)
    (fun _ _ => rfl) (fun _ _ _ => rfl) rebcd_step32 hd hlen hm

/-! ## 有限の数 -/

/-- 指数が範囲に収まるのは、有限の数である。 -/
theorem finite_of_expo (hw : p + 3 ≤ w) (hp : 2 ≤ p) (h : (bidDec p bias x).expo + bias < 3 * 2 ^ (w - 3 - p)) : BidFinite x := by
  intro hfin
  have hcomb : fld x (w - 5) 4 = fld x (w - 5) 2 + 2 ^ 2 * fld x (w - 5 + 2) 2 := fld_add x (w - 5) 2 2
  have htop := fld_lt x (w - 5) 2
  have hflag := fld_lt x (w - 3) 2
  rw [show w - 5 + 2 = w - 3 by omega] at hcomb
  have hl : fld x (w - 3) 2 = 3 := by omega
  have hsplit := fld_add x (p - 2) (w - 3 - p) 2
  rw [show w - 3 - p + 2 = w - 1 - p by omega, show p - 2 + (w - 3 - p) = w - 5 by omega,
    show fld x (w - 5) 2 = 3 by omega] at hsplit
  have hle : 3 * 2 ^ (w - 3 - p) ≤ fld x (p - 2) (w - 1 - p) := by omega
  rw [bidDec, if_pos hl, sub_add_cancel] at h
  exact absurd hle (Nat.not_le.2 (by exact_mod_cast h))

theorem head_of_finite (hw : 6 ≤ w) (h : BidFinite x) : fld x (w - 6) 5 < 30 := by
  have hne : fld x (w - 5) 4 ≠ 15 := h
  have hsplit : fld x (w - 6) 5 = fld x (w - 6) 1 + 2 ^ 1 * fld x (w - 6 + 1) 4 := fld_add x (w - 6) 1 4
  have hlow := fld_lt x (w - 6) 1
  have htop := fld_lt x (w - 5) 4
  rw [show w - 6 + 1 = w - 5 by omega] at hsplit
  omega

theorem special64 {x : BitVec 64} (h : BidFinite x) : isnand64 x = false ∧ isinfd64 x = false := by
  have hlt : fld x 58 5 < 30 := head_of_finite (by decide) h
  have hand : (x &&& 0x7c00000000000000).toNat = 2 ^ 58 * fld x 58 5 := toNat_and_ones 5 58 (by decide)
  constructor
  · refine decide_eq_false (fun he => ?_)
    have hv := congrArg BitVec.toNat he
    rw [hand, show (0x7c00000000000000 : BitVec 64).toNat = 2 ^ 58 * 31 from rfl] at hv
    omega
  · refine decide_eq_false (fun he => ?_)
    have hv := congrArg BitVec.toNat he
    rw [hand, show (0x7800000000000000 : BitVec 64).toNat = 2 ^ 58 * 30 from rfl] at hv
    omega

theorem special32 {x : BitVec 32} (h : BidFinite x) : isnand32 x = false ∧ isinfd32 x = false := by
  have hlt : fld x 26 5 < 30 := head_of_finite (by decide) h
  have hand : (x &&& 0x7c000000).toNat = 2 ^ 26 * fld x 26 5 := toNat_and_ones 5 26 (by decide)
  constructor
  · refine decide_eq_false (fun he => ?_)
    have hv := congrArg BitVec.toNat he
    rw [hand, show (0x7c000000 : BitVec 32).toNat = 2 ^ 26 * 31 from rfl] at hv
    omega
  · refine decide_eq_false (fun he => ?_)
    have hv := congrArg BitVec.toNat he
    rw [hand, show (0x78000000 : BitVec 32).toNat = 2 ^ 26 * 30 from rfl] at hv
    omega

/-! ## 語の文字列 -/

theorem written_neg (hdec : (bidDec p bias x).neg = neg) (hm : mantBid p x = 0 → neg = false) :
    decide ((if mantBid p x ≠ 0 then signBits x else 0) ≠ 0) = neg := by
  rw [bidDec_neg] at hdec
  by_cases h0 : mantBid p x = 0
  · rw [if_neg (not_not_intro h0), hm h0]
    rfl
  · rw [if_pos h0, signBits_eq, hdec]
    cases neg <;> rfl

/-- 小数部が `bias` 桁に満たない数の文字列。 -/
theorem bidtostr_eq (hp : 3 ≤ p) (hw : p + 3 ≤ w) (hdec : bidDec p bias x = ⟨neg, val 10 (is ++ fs), -(fs.length : Int)⟩)
    (hd : ∀ c ∈ is ++ fs, isdigit c = true) (hl : Leading is) (hfs : (fs.length : Int) < bias)
    (hbias : bias < 3 * 2 ^ (w - 3 - p)) (hneg : neg = true → val 10 (is ++ fs) ≠ 0) (hsz : (decText neg (intText is) fs).length < bsz)
    {bcdm : BitVec w} (hbcd : (mantBid p x).toNat = val 10 (is ++ fs) → bcdm.toNat = val 16 (is ++ fs)) :
    BidFinite x ∧ bcdtostr bsz ⟨bcdm, quantexpBid p bias x, if mantBid p x ≠ 0 then signBits x else 0⟩ =
      (decText neg (intText is) fs ++ [0], (decText neg (intText is) fs).length) := by
  have hcoef : (bidDec p bias x).coef = val 10 (is ++ fs) := congrArg Dec.coef hdec
  have hexpo : (bidDec p bias x).expo = -(fs.length : Int) := congrArg Dec.expo hdec
  have hmant : (mantBid p x).toNat = val 10 (is ++ fs) := (mantBid_eq (by omega) hw).trans hcoef
  have hx : x ≠ 0 := by
    rintro rfl
    have h0 : (bidDec p bias (0 : BitVec w)).expo = -bias := by simp [bidDec, fld_eq]
    omega
  have hq : quantexpBid p bias x = -(fs.length : Int) := (quantexpBid_eq hw hx).trans hexpo
  have hsign : decide ((if mantBid p x ≠ 0 then signBits x else 0) ≠ 0) = neg := by
    refine written_neg (congrArg Dec.neg hdec) (fun h0 => ?_)
    have hz : val 10 (is ++ fs) = 0 := by rw [← hmant, h0]; exact BitVec.toNat_zero
    cases neg
    · rfl
    · exact absurd hz (hneg rfl)
  have hstr := bcdtostr_eq (b := ⟨bcdm, quantexpBid p bias x, if mantBid p x ≠ 0 then signBits x else 0⟩) (by omega)
    (fun c hc => hd c (List.mem_append_left fs hc)) (fun c hc => hd c (List.mem_append_right is hc)) hl
    (hbcd hmant) hq (by rwa [hsign])
  rw [hsign] at hstr
  exact ⟨finite_of_expo hw (by omega) (by rw [hexpo]; omega), hstr⟩

theorem d64tostr_eq {x : BitVec 64} (hdec : bidDec 53 398 x = ⟨neg, val 10 (is ++ fs), -(fs.length : Int)⟩)
    (hd : ∀ c ∈ is ++ fs, isdigit c = true) (hl : Leading is) (hlen : (is ++ fs).length ≤ 15)
    (hneg : neg = true → val 10 (is ++ fs) ≠ 0) (hsz : (decText neg (intText is) fs).length < bsz) :
    d64tostr bsz x = (decText neg (intText is) fs ++ [0], (decText neg (intText is) fs).length) := by
  have hfs : fs.length ≤ 15 := Nat.le_trans (by simp) hlen
  obtain ⟨hfin, hstr⟩ := bidtostr_eq (by decide) (by decide) hdec hd hl (by omega) (by decide) hneg hsz
    (rebcdLoop_val hd (by omega))
  obtain ⟨hnan, hinf⟩ := special64 hfin
  rw [d64tostr, hnan, hinf]
  exact hstr

theorem d32tostr_eq {x : BitVec 32} (hdec : bidDec 23 101 x = ⟨neg, val 10 (is ++ fs), -(fs.length : Int)⟩)
    (hd : ∀ c ∈ is ++ fs, isdigit c = true) (hl : Leading is) (hlen : (is ++ fs).length ≤ 7)
    (hneg : neg = true → val 10 (is ++ fs) ≠ 0) (hsz : (decText neg (intText is) fs).length < bsz) :
    d32tostr bsz x = (decText neg (intText is) fs ++ [0], (decText neg (intText is) fs).length) := by
  have hfs : fs.length ≤ 7 := Nat.le_trans (by simp) hlen
  obtain ⟨hfin, hstr⟩ := bidtostr_eq (by decide) (by decide) hdec hd hl (by omega) (by decide) hneg hsz
    (rebcdLoop32_val hd (by omega))
  obtain ⟨hnan, hinf⟩ := special32 hfin
  rw [d32tostr, hnan, hinf]
  exact hstr

/-! ## 整った文字列の読み取り -/

theorem headD_dropZeros (ds : List UInt8) : Leading (ds.dropWhile fun c => decide (c = 48)) := by
  induction ds with
  | nil => exact Or.inl rfl
  | cons c ds ih =>
      rw [List.dropWhile_cons]
      split
      · exact ih
      · rename_i h
        exact Or.inr (by simpa using h)

theorem dropZeros_intText (hl : Leading is) : ((intText is).dropWhile fun c => decide (c = 48)) = is := by
  rw [intText]
  split
  · rename_i h
    rw [h]
    rfl
  · rename_i hne
    cases is with
    | nil => exact absurd rfl hne
    | cons c is =>
        have hc : c ≠ 48 := hl.resolve_left hne
        rw [List.dropWhile_cons, if_neg (by simpa using hc)]

theorem intText_digit (his : ∀ c ∈ is, isdigit c = true) : ∀ c ∈ intText is, isdigit c = true := by
  rw [intText]
  split
  · decide
  · exact his

/-- 負号のない文字列。 -/
def plainOf (is fs : List UInt8) : List UInt8 := plainText (intText is) (if fs = [] then none else some fs)

theorem decText_eq (neg : Bool) (is fs : List UInt8) :
    decText neg (intText is) fs = if neg then 45 :: plainOf is fs else plainOf is fs := by
  have hplain : intText is ++ (if fs = [] then [] else 46 :: fs) = plainOf is fs := by
    rw [plainOf, plainText]
    split <;> rfl
  rw [decText, List.append_assoc, hplain]
  cases neg <;> rfl

/-- 整った文字列は、残らず仮数に入る。 -/
theorem plain_kept (hd : ∀ c ∈ is ++ fs, isdigit c = true) (hl : Leading is) (hlen : (is ++ fs).length ≤ nd) :
    kept nd (plainOf is fs) = is ++ fs ∧ cut nd (plainOf is fs) = [] ∧ textExpo nd (plainOf is fs) = -(fs.length : Int) ∧
      textRest (plainOf is fs) = [] := by
  have hget : (if fs = [] then none else some fs : Option (List UInt8)).getD [] = fs := by
    split
    · rename_i h
      rw [h]
      rfl
    · rfl
  have hint : ∀ c ∈ intText is, isdigit c = true := intText_digit fun c hc => hd c (List.mem_append_left fs hc)
  have hfrac : ∀ c ∈ (if fs = [] then none else some fs : Option (List UInt8)).getD [], isdigit c = true := by
    rw [hget]
    exact fun c hc => hd c (List.mem_append_right is hc)
  obtain ⟨hint, hfrac, hrest⟩ := plain_parts hint hfrac
  rw [dropZeros_intText hl] at hint
  rw [hget] at hfrac
  rw [← plainOf] at hint hfrac hrest
  have hle : (intDigits (plainOf is fs)).length + (fracDigits (plainOf is fs)).length ≤ nd := by
    rwa [hint, hfrac, ← List.length_append]
  have hlost := lost_nil hle
  refine ⟨?_, ?_, ?_, hrest⟩
  · have hall := kept_append_lost nd (plainOf is fs)
    rwa [hlost, List.append_nil, hint, hfrac] at hall
  · rw [cut]
    split
    · exact List.drop_of_length_le (by omega)
    · exact List.drop_of_length_le (by omega)
  · rw [textExpo_lost, hlost, hfrac]
    simp

/-- 整った文字列の読み取りは、丸めない。 -/
theorem strtobcd_text (o : Join) (hw : 4 * nd ≤ w) (neg : Bool) (hd : ∀ c ∈ is ++ fs, isdigit c = true) (hl : Leading is)
    (hlen : (is ++ fs).length ≤ nd) :
    ∃ b : Bcd w, (∀ fuel, strtobcd o nd fuel (decText neg (intText is) fs) = some (b, [])) ∧ b.mant.toNat = val 16 (is ++ fs) ∧
      b.expo = -(fs.length : Int) ∧ IsSign b.sign ∧ decide (b.sign ≠ 0) = neg := by
  obtain ⟨hkept, hcut, hexpo, hrest⟩ := plain_kept hd hl hlen
  obtain ⟨h45, h43⟩ := headD_plain (intText_digit fun c hc => hd c (List.mem_append_left fs hc))
    (if fs = [] then none else some fs)
  obtain ⟨hkept', hcut', hexpo', hrest'⟩ := text_neg h45 h43 nd
  have hsrc : ∃ src, src = decText neg (intText is) fs ∧ kept nd src = is ++ fs ∧ cut nd src = [] ∧
      textExpo nd src = -(fs.length : Int) ∧ textRest src = [] ∧ signOf src = if neg then 1 else 0 := by
    refine ⟨_, rfl, ?_⟩
    rw [decText_eq]
    cases neg with
    | false => exact ⟨hkept, hcut, hexpo, hrest, signOf_eq_zero.2 h45⟩
    | true => exact ⟨hkept'.trans hkept, hcut'.trans hcut, hexpo'.trans hexpo, hrest'.trans hrest, rfl⟩
  obtain ⟨src, hsrc, hkept, hcut, hexpo, hrest, hsign⟩ := hsrc
  have hup : ¬ RoundsUp nd src := by
    rw [RoundsUp, hcut]
    decide
  refine ⟨⟨(kept nd src).foldl push 0, textExpo nd src, signOf src⟩, fun fuel => ?_, ?_, hexpo, signOf_isSign src, ?_⟩
  · rw [← hsrc, strtobcd_eq, if_neg hup, hrest]
    rfl
  · rw [kept_toNat hw, hkept]
  · rw [hsign]
    cases neg <;> rfl

theorem strtobid64_eq (neg : Bool) (hd : ∀ c ∈ is ++ fs, isdigit c = true) (hl : Leading is) (hlen : (is ++ fs).length ≤ 15) :
    ∃ x, (∀ fuel, strtobid64 fuel (decText neg (intText is) fs) = some (x, [])) ∧
      bidDec 53 398 x = ⟨neg, val 10 (is ++ fs), -(fs.length : Int)⟩ := by
  obtain ⟨b, hread, hmant, hexpo, hs, hneg⟩ := strtobcd_text (w := 64) .xor (by decide) neg hd hl hlen
  have hfs : fs.length ≤ 15 := Nat.le_trans (by simp) hlen
  have hm : Digits (· < 10) 16 15 b.mant.toNat := by
    rw [hmant]
    exact val_digits hd 15
  refine ⟨bcd64tobid b, fun fuel => ?_, ?_⟩
  · rw [strtobid64, strtobcd64, hread]
    rfl
  · rw [bcd64tobid_dec hm (by omega) (by omega) hs, hneg, hmant, val_ten hd hlen, hexpo]

theorem strtobid32_eq (neg : Bool) (hd : ∀ c ∈ is ++ fs, isdigit c = true) (hl : Leading is) (hlen : (is ++ fs).length ≤ 7) :
    ∃ x, (∀ fuel, strtobid32 fuel (decText neg (intText is) fs) = some (x, [])) ∧
      bidDec 23 101 x = ⟨neg, val 10 (is ++ fs), -(fs.length : Int)⟩ := by
  obtain ⟨b, hread, hmant, hexpo, hs, hneg⟩ := strtobcd_text (w := 32) .or (by decide) neg hd hl hlen
  have hfs : fs.length ≤ 7 := Nat.le_trans (by simp) hlen
  have hm : Digits (· < 10) 16 7 b.mant.toNat := by
    rw [hmant]
    exact val_digits hd 7
  refine ⟨bcd32tobid b, fun fuel => ?_, ?_⟩
  · rw [strtobid32, strtobcd32, hread]
    rfl
  · rw [bcd32tobid_dec hm (by omega) (by omega) hs, hneg, hmant, val_ten hd hlen, hexpo]

theorem decText_length (hlen : (is ++ fs).length ≤ nd) : (decText neg (intText is) fs).length ≤ nd + 3 := by
  have hsign : (if neg then [45] else [] : List UInt8).length ≤ 1 := by cases neg <;> decide
  have hint : (intText is).length ≤ is.length + 1 := by
    rw [intText]
    split
    · exact Nat.le_add_left 1 _
    · exact Nat.le_succ _
  have hfrac : (if fs = [] then [] else 46 :: fs : List UInt8).length ≤ fs.length + 1 := by
    split
    · exact Nat.zero_le _
    · exact Nat.le_refl _
  rw [List.length_append] at hlen
  rw [decText, List.length_append, List.length_append]
  omega

/-! ## 整った文字列と数 -/

theorem canonical_int {fp : List UInt8} (h : Canonical 15 neg ip fp) : ∃ is, ip = intText is ∧ Leading is ∧
    (∀ c ∈ is ++ fp, isdigit c = true) ∧ (is ++ fp).length ≤ 15 ∧ (neg = true → ∃ c ∈ is ++ fp, c ≠ 48) := by
  have hlen := h.len
  by_cases h0 : ip = [48]
  · rw [if_pos h0, Nat.zero_add] at hlen
    refine ⟨[], h0, Or.inl rfl, h.fp_digit, hlen, fun hneg => ?_⟩
    obtain ⟨c, hc, hne⟩ := h.nonzero hneg
    rw [h0, List.singleton_append, List.mem_cons] at hc
    exact ⟨c, hc.resolve_left hne, hne⟩
  · rw [if_neg h0, ← List.length_append] at hlen
    refine ⟨ip, ?_, Or.inr (h.lead.resolve_left h0), ?_, hlen, h.nonzero⟩
    · rw [intText, if_neg h.ip_ne]
    · intro c hc
      exact (List.mem_append.1 hc).elim (h.ip_digit c) (h.fp_digit c)

theorem val_ne_zero (hd : ∀ c ∈ ds, isdigit c = true) (h : ∃ c ∈ ds, c ≠ 48) : val 10 ds ≠ 0 := by
  obtain ⟨c, hc, hne⟩ := h
  obtain ⟨as, bs, rfl⟩ := List.append_of_mem hc
  have hpos : digitOf c ≠ 0 := fun h0 => hne (digitOf_inj.1 (h0.trans (by rfl)))
  have hpow : 0 < 10 ^ bs.length := Nat.pow_pos (by decide)
  rw [List.append_cons, val_append, val_snoc]
  exact Nat.ne_of_gt (Nat.add_pos_left (Nat.mul_pos (by omega) hpow) _)

theorem exists_digits (n m : Nat) (hm : m < 10 ^ n) :
    ∃ ds : List UInt8, ds.length = n ∧ (∀ c ∈ ds, isdigit c = true) ∧ val 10 ds = m := by
  have hchr : ∀ d < 10, isdigit (UInt8.ofNat (48 + d)) = true ∧ digitOf (UInt8.ofNat (48 + d)) = d := by decide
  induction n generalizing m with
  | zero =>
      refine ⟨[], rfl, by simp, ?_⟩
      rw [val_nil]
      omega
  | succ n ih =>
      obtain ⟨ds, hlen, hd, hv⟩ := ih (m / 10) (by rw [Nat.pow_succ] at hm; omega)
      obtain ⟨hc, hdig⟩ := hchr (m % 10) (Nat.mod_lt m (by decide))
      refine ⟨ds ++ [UInt8.ofNat (48 + m % 10)], by simp [hlen], ?_, ?_⟩
      · intro c h
        rcases List.mem_append.1 h with h | h
        · exact hd c h
        · rw [List.mem_singleton.1 h]
          exact hc
      · rw [val_snoc, hv, hdig]
        omega

theorem exists_text {c f : Nat} (hc : c < 10 ^ nd) (hf : f ≤ nd) : ∃ is fs : List UInt8, Leading is ∧ fs.length = f ∧
    (∀ c ∈ is ++ fs, isdigit c = true) ∧ (is ++ fs).length ≤ nd ∧ val 10 (is ++ fs) = c := by
  have hhigh : c / 10 ^ f < 10 ^ (nd - f) := by
    refine Nat.div_lt_of_lt_mul ?_
    rwa [← Nat.pow_add, Nat.add_sub_of_le hf]
  obtain ⟨is, hislen, hisd, hisv⟩ := exists_digits (nd - f) (c / 10 ^ f) hhigh
  obtain ⟨fs, hfslen, hfsd, hfsv⟩ := exists_digits f (c % 10 ^ f) (Nat.mod_lt _ (Nat.pow_pos (by decide)))
  have hsuf := List.dropWhile_suffix (l := is) fun c => decide (c = 48)
  have hle := hsuf.length_le
  refine ⟨is.dropWhile fun c => decide (c = 48), fs, headD_dropZeros is, hfslen, ?_, ?_, ?_⟩
  · intro d hd
    exact (List.mem_append.1 hd).elim (fun h => hisd d (hsuf.subset h)) (hfsd d)
  · rw [List.length_append]
    omega
  · rw [val_append, val_dropWhile, hisv, hfsv, hfslen, Nat.mul_comm, Nat.div_add_mod]

end Books.Dfp754
