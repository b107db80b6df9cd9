import Books.Dfp754.Lemmas.DpdTostr

/-!
# 二つの形で組み立てたプログラムの文字列

`HAVE_DFP754_BID_LITERALS` と `HAVE_DFP754_DPD_LITERALS` のどちらで組み立てても、文字列の読み書きの結果は変わらない。
-/

namespace Books.Dfp754

open Books.Lib

variable {is fs : List UInt8}

/-! ## 読んで書く -/

/-- 読み取りが終わり、繰り上げが仮数から溢れなければ、読んだ数を書く文字列は、どちらの形でも、どの大きさの領域でも同じである。 -/
theorem builds_print_alike (src : List UInt8) :
    (-398 < textExpo 15 src → textExpo 15 src ≤ 369 → ¬ Stuck 15 src → ¬ Spills 15 src →
      ∃ x y rest, Returns (fun fuel => strtobid64 fuel src) (x, rest) ∧ Returns (fun fuel => strtodpd64 fuel src) (y, rest) ∧
        ∀ bsz, d64tostrDpd bsz y = d64tostr bsz x) ∧
    (-101 < textExpo 7 src → textExpo 7 src ≤ 90 → ¬ Stuck 7 src → ¬ Spills 7 src →
      ∃ x y rest, Returns (fun fuel => strtobid32 fuel src) (x, rest) ∧ Returns (fun fuel => strtodpd32 fuel src) (y, rest) ∧
        ∀ bsz, d32tostrDpd bsz y = d32tostr bsz x) := by
  constructor
  · intro hlo hhi hs hp
    obtain ⟨m, hret, hd, hlt⟩ := strtobcd_fits (w := 64) .xor (by decide) (by decide) hs hp
    have hdec : bidDec 53 398 (bcd64tobid ⟨m, textExpo 15 src, signOf src⟩) = _ :=
      bcd64tobid_dec hd (Int.le_of_lt hlo) hhi (signOf_isSign src)
    have halike := alike64 (b := ⟨m, textExpo 15 src, signOf src⟩) hd hlt (Int.le_of_lt hlo) hhi (signOf_isSign src)
    refine ⟨_, _, _, hret.map fun r => (bcd64tobid r.1, r.2), hret.map fun r => (bcd64todpd r.1, r.2), fun bsz => ?_⟩
    refine tostr64_alike hdec (halike.symm.trans hdec) hlo hhi (dpdExpo_short ?_)
    exact recode_lt hd
  · intro hlo hhi hs hp
    obtain ⟨m, hret, hd, hlt⟩ := strtobcd_fits (w := 32) .or (by decide) (by decide) hs hp
    have hdec : bidDec 23 101 (bcd32tobid ⟨m, textExpo 7 src, signOf src⟩) = _ :=
      bcd32tobid_dec hd (Int.le_of_lt hlo) hhi (signOf_isSign src)
    have halike := alike32 (b := ⟨m, textExpo 7 src, signOf src⟩) hd hlt (Int.le_of_lt hlo) hhi (signOf_isSign src)
    refine ⟨_, _, _, hret.map fun r => (bcd32tobid r.1, r.2), hret.map fun r => (bcd32todpd r.1, r.2), fun bsz => ?_⟩
    exact tostr32_alike hdec (halike.symm.trans hdec) hlo hhi

/-- `"1.5"`。 -/
theorem builds_print_alike_short :
    (∃ x y rest, Returns (fun fuel => strtobid64 fuel [49, 46, 53]) (x, rest) ∧
      Returns (fun fuel => strtodpd64 fuel [49, 46, 53]) (y, rest) ∧ ∀ bsz, d64tostrDpd bsz y = d64tostr bsz x) ∧
    ∃ x y rest, Returns (fun fuel => strtobid32 fuel [49, 46, 53]) (x, rest) ∧
      Returns (fun fuel => strtodpd32 fuel [49, 46, 53]) (y, rest) ∧ ∀ bsz, d32tostrDpd bsz y = d32tostr bsz x :=
  have h := builds_print_alike [49, 46, 53]
  ⟨h.1 (by decide) (by decide) (by decide) (by decide), h.2 (by decide) (by decide) (by decide) (by decide)⟩

/-! ## 三桁ずつ詰めた形での行き来 -/

theorem strtodpd64_eq (neg : Bool) (hd : ∀ c ∈ is ++ fs, isdigit c = true) (hl : Leading is) (hlen : (is ++ fs).length ≤ 15) :
    ∃ x y : BitVec 64, (∀ fuel, strtodpd64 fuel (decText neg (intText is) fs) = some (y, [])) ∧
      bidDec 53 398 x = ⟨neg, val 10 (is ++ fs), -(fs.length : Int)⟩ ∧
      dpdDec 5 8 398 y = ⟨neg, val 10 (is ++ fs), -(fs.length : Int)⟩ := by
  obtain ⟨b, hread, hmant, hexpo, hs, hneg⟩ := strtobcd_text (w := 64) .xor (by decide) neg hd hl hlen
  have hfs : fs.length ≤ 15 := Nat.le_trans (by simp) hlen
  have hm : Digits (· < 10) 16 15 b.mant.toNat := by
    rw [hmant]
    exact val_digits hd 15
  have hlt : b.mant.toNat < 16 ^ 15 := by
    rw [hmant]
    exact Nat.lt_of_lt_of_le (val_lt (by decide) hd) (Nat.pow_le_pow_right (by decide) hlen)
  have hdec : bidDec 53 398 (bcd64tobid b) = ⟨neg, val 10 (is ++ fs), -(fs.length : Int)⟩ := by
    rw [bcd64tobid_dec hm (by omega) (by omega) hs, hneg, hmant, val_ten hd hlen, hexpo]
  refine ⟨bcd64tobid b, bcd64todpd b, fun fuel => ?_, hdec, (alike64 hm hlt (by omega) (by omega) hs).symm.trans hdec⟩
  rw [strtodpd64, strtobcd64, hread]
  rfl

theorem strtodpd32_eq (neg : Bool) (hd : ∀ c ∈ is ++ fs, isdigit c = true) (hl : Leading is) (hlen : (is ++ fs).length ≤ 7) :
    ∃ x y : BitVec 32, (∀ fuel, strtodpd32 fuel (decText neg (intText is) fs) = some (y, [])) ∧
      bidDec 23 101 x = ⟨neg, val 10 (is ++ fs), -(fs.length : Int)⟩ ∧
      dpdDec 2 6 101 y = ⟨neg, val 10 (is ++ fs), -(fs.length : Int)⟩ := by
  obtain ⟨b, hread, hmant, hexpo, hs, hneg⟩ := strtobcd_text (w := 32) .or (by decide) neg hd hl hlen
  have hfs : fs.length ≤ 7 := Nat.le_trans (by simp) hlen
  have hm : Digits (· < 10) 16 7 b.mant.toNat := by
    rw [hmant]
    exact val_digits hd 7
  have hlt : b.mant.toNat < 16 ^ 7 := by
    rw [hmant]
    exact Nat.lt_of_lt_of_le (val_lt (by decide) hd) (Nat.pow_le_pow_right (by decide) hlen)
  have hdec : bidDec 23 101 (bcd32tobid b) = ⟨neg, val 10 (is ++ fs), -(fs.length : Int)⟩ := by
    rw [bcd32tobid_dec hm (by omega) (by omega) hs, hneg, hmant, val_ten hd hlen, hexpo]
  refine ⟨bcd32tobid b, bcd32todpd b, fun fuel => ?_, hdec, (alike32 hm hlt (by omega) (by omega) hs).symm.trans hdec⟩
  rw [strtodpd32, strtobcd32, hread]
  rfl

theorem d64tostrDpd_eq {neg : Bool} {x y : BitVec 64} {bsz : Nat}
    (hx : bidDec 53 398 x = ⟨neg, val 10 (is ++ fs), -(fs.length : Int)⟩)
    (hy : dpdDec 5 8 398 y = ⟨neg, val 10 (is ++ fs), -(fs.length : Int)⟩) (hd : ∀ c ∈ is ++ fs, isdigit c = true)
    (hl : Leading is) (hlen : (is ++ fs).length ≤ 15) (hneg : neg = true → val 10 (is ++ fs) ≠ 0)
    (hsz : (decText neg (intText is) fs).length < bsz) :
    d64tostrDpd bsz y = (decText neg (intText is) fs ++ [0], (decText neg (intText is) fs).length) := by
  have hfs : fs.length ≤ 15 := Nat.le_trans (by simp) hlen
  have hcoef : val 10 (is ++ fs) < 10 ^ 15 :=
    Nat.lt_of_lt_of_le (val_lt (Nat.le_refl 10) hd) (Nat.pow_le_pow_right (by decide) hlen)
  have hlo : -398 < -(fs.length : Int) := by omega
  have hhi : -(fs.length : Int) ≤ 369 := by omega
  rw [tostr64_alike hx hy hlo hhi (dpdExpo_short hcoef), d64tostr_eq hx hd hl hlen hneg hsz]

theorem d32tostrDpd_eq {neg : Bool} {x y : BitVec 32} {bsz : Nat}
    (hx : bidDec 23 101 x = ⟨neg, val 10 (is ++ fs), -(fs.length : Int)⟩)
    (hy : dpdDec 2 6 101 y = ⟨neg, val 10 (is ++ fs), -(fs.length : Int)⟩) (hd : ∀ c ∈ is ++ fs, isdigit c = true)
    (hl : Leading is) (hlen : (is ++ fs).length ≤ 7) (hneg : neg = true → val 10 (is ++ fs) ≠ 0)
    (hsz : (decText neg (intText is) fs).length < bsz) :
    d32tostrDpd bsz y = (decText neg (intText is) fs ++ [0], (decText neg (intText is) fs).length) := by
  have hfs : fs.length ≤ 7 := Nat.le_trans (by simp) hlen
  have hlo : -101 < -(fs.length : Int) := by omega
  have hhi : -(fs.length : Int) ≤ 90 := by omega
  rw [tostr32_alike hx hy hlo hhi, d32tostr_eq hx hd hl hlen hneg hsz]

/-- 三桁ずつ詰めた形でも、整った文字列は、読んで書くと元に戻り、15 桁に収まり指数が -15 から 0 までの数は、負の零を除いて、書いて
読むと同じ数に戻る。32 ビットでは、7 桁に収まり指数が -7 から 0 までの数である。 -/
theorem dpd_codec_round_trips :
    (∀ neg ip fp, Canonical 15 neg ip fp →
      ∃ y, (∀ fuel, strtodpd64 fuel (decText neg ip fp) = some (y, [])) ∧
        ∀ bsz, (decText neg ip fp).length < bsz →
          d64tostrDpd bsz y = (decText neg ip fp ++ [0], (decText neg ip fp).length)) ∧
    (∀ y : BitVec 64, (dpdDec 5 8 398 y).coef < 10 ^ 15 → -15 ≤ (dpdDec 5 8 398 y).expo → (dpdDec 5 8 398 y).expo ≤ 0 →
      ¬ ((dpdDec 5 8 398 y).neg = true ∧ (dpdDec 5 8 398 y).coef = 0) →
      ∃ s : List UInt8, s.length ≤ 18 ∧ (∀ bsz, s.length < bsz → d64tostrDpd bsz y = (s ++ [0], s.length)) ∧
        ∃ y', (∀ fuel, strtodpd64 fuel s = some (y', [])) ∧ dpdDec 5 8 398 y' = dpdDec 5 8 398 y) ∧
    ∀ y : BitVec 32, (dpdDec 2 6 101 y).coef < 10 ^ 7 → -7 ≤ (dpdDec 2 6 101 y).expo → (dpdDec 2 6 101 y).expo ≤ 0 →
      ¬ ((dpdDec 2 6 101 y).neg = true ∧ (dpdDec 2 6 101 y).coef = 0) →
      ∃ s : List UInt8, s.length ≤ 10 ∧ (∀ bsz, s.length < bsz → d32tostrDpd bsz y = (s ++ [0], s.length)) ∧
        ∃ y', (∀ fuel, strtodpd32 fuel s = some (y', [])) ∧ dpdDec 2 6 101 y' = dpdDec 2 6 101 y := by
  refine ⟨fun neg ip fp h => ?_, fun y hc hlo hhi hz => ?_, fun y hc hlo hhi hz => ?_⟩
  · obtain ⟨is, rfl, hl, hd, hlen, hnz⟩ := canonical_int h
    obtain ⟨x, y, hread, hx, hy⟩ := strtodpd64_eq neg hd hl hlen
    exact ⟨y, hread, fun bsz hsz => d64tostrDpd_eq hx hy hd hl hlen (fun hneg => val_ne_zero hd (hnz hneg)) hsz⟩
  · obtain ⟨is, fs, hl, hfs, hd, hlen, hv⟩ := exists_text (f := (-(dpdDec 5 8 398 y).expo).toNat) hc (by omega)
    obtain ⟨x, y', hread, hx, hy'⟩ := strtodpd64_eq (dpdDec 5 8 398 y).neg hd hl hlen
    have hexpo : -(fs.length : Int) = (dpdDec 5 8 398 y).expo := by omega
    have hy : dpdDec 5 8 398 y = ⟨(dpdDec 5 8 398 y).neg, val 10 (is ++ fs), -(fs.length : Int)⟩ := by rw [hv, hexpo]
    refine ⟨_, decText_length hlen, fun bsz hsz => ?_, y', hread, hy'.trans hy.symm⟩
    exact d64tostrDpd_eq hx hy hd hl hlen (fun hneg h0 => hz ⟨hneg, hv ▸ h0⟩) hsz
  · obtain ⟨is, fs, hl, hfs, hd, hlen, hv⟩ := exists_text (f := (-(dpdDec 2 6 101 y).expo).toNat) hc (by omega)
    obtain ⟨x, y', hread, hx, hy'⟩ := strtodpd32_eq (dpdDec 2 6 101 y).neg hd hl hlen
    have hexpo : -(fs.length : Int) = (dpdDec 2 6 101 y).expo := by omega
    have hy : dpdDec 2 6 101 y = ⟨(dpdDec 2 6 101 y).neg, val 10 (is ++ fs), -(fs.length : Int)⟩ := by rw [hv, hexpo]
    refine ⟨_, decText_length hlen, fun bsz hsz => ?_, y', hread, hy'.trans hy.symm⟩
    exact d32tostrDpd_eq hx hy hd hl hlen (fun hneg h0 => hz ⟨hneg, hv ▸ h0⟩) hsz

/-- `-12.50` と、その二つの長さの語。 -/
theorem dpd_codec_round_trips_price :
    (∃ y, (∀ fuel, strtodpd64 fuel [45, 49, 50, 46, 53, 48] = some (y, [])) ∧
      ∀ bsz, 6 < bsz → d64tostrDpd bsz y = ([45, 49, 50, 46, 53, 48, 0], 6)) ∧
    (∃ s : List UInt8, s.length ≤ 18 ∧
      (∀ bsz, s.length < bsz → d64tostrDpd bsz (bcd64todpd ⟨0x1250, -2, 1⟩) = (s ++ [0], s.length)) ∧
      ∃ y', (∀ fuel, strtodpd64 fuel s = some (y', [])) ∧ dpdDec 5 8 398 y' = dpdDec 5 8 398 (bcd64todpd ⟨0x1250, -2, 1⟩)) ∧
    ∃ s : List UInt8, s.length ≤ 10 ∧
      (∀ bsz, s.length < bsz → d32tostrDpd bsz (bcd32todpd ⟨0x1250, -2, 1⟩) = (s ++ [0], s.length)) ∧
      ∃ y', (∀ fuel, strtodpd32 fuel s = some (y', [])) ∧ dpdDec 2 6 101 y' = dpdDec 2 6 101 (bcd32todpd ⟨0x1250, -2, 1⟩) :=
  ⟨dpd_codec_round_trips.1 true [49, 50] [53, 48]
      ⟨by decide, by decide, by decide, by decide, by decide, fun _ => ⟨49, by decide, by decide⟩⟩,
    dpd_codec_round_trips.2.1 _ (by decide) (by decide) (by decide) (by decide),
    dpd_codec_round_trips.2.2 _ (by decide) (by decide) (by decide) (by decide)⟩

end Books.Dfp754
