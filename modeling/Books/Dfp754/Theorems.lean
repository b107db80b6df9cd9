import Books.Dfp754.Lemmas.DpdBack
import Books.Dfp754.Lemmas.Correct
import Books.Dfp754.Lemmas.QuantizeAlike
import Books.Dfp754.Lemmas.Tostr

/-!
# 十進小数の符号と文字列の主定理
-/

namespace Books.Dfp754

open Books.Lib

/-! ## 三桁ずつ詰めた形の読み戻し -/

/-- 詰めた十進は、三桁ずつ詰めた語から読み戻される。例外は、先頭の欄がどれも空のときと、64 ビットで先頭の桁が 8 以上のときの
指数のうち、上の二ビットを取り違えるものである。 -/
theorem dpd_reads_back_iff (b : Bcd 64) (c : Bcd 32) :
    (Digits (· < 10) 16 16 b.mant.toNat → -398 ≤ b.expo → b.expo ≤ 369 → IsSign b.sign →
      (ReadsBack64 b ↔ ¬ BlankHead 5 398 b ∧
        (leadDigit 5 b < 8 ∨ b.expo < 114 ∧ (leadDigit 5 b = 8 ∨ 128 ≤ biased 398 b % 256)))) ∧
    (Digits (· < 10) 16 7 c.mant.toNat → c.mant.toNat < 16 ^ 7 → -101 ≤ c.expo → c.expo ≤ 90 → IsSign c.sign →
      (ReadsBack32 c ↔ ¬ BlankHead 2 101 c)) := by
  constructor
  · intro hm hlo hhi hs
    obtain ⟨h, hl⟩ := dpdIn64 hm hlo hhi hs
    have hmant := mant_back64 h hl
    have hsign : signBits (bcd64todpd b) = 0 ↔ b.sign = 0 := h.sign_back
    rw [ReadsBack64, ← quantexp64_back h hl]
    exact ⟨fun hr => hr.2.1, fun he => ⟨hmant, he, hsign⟩⟩
  · intro hm hlt hlo hhi hs
    obtain ⟨h, hl⟩ := dpdIn32 hm hlt hlo hhi hs
    have hmant := mant_back32 h hl
    have hsign : signBits (bcd32todpd c) = 0 ↔ c.sign = 0 := h.sign_back
    rw [ReadsBack32, ← quantexp32_back h]
    exact ⟨fun hr => hr.2.1, fun he => ⟨hmant, he, hsign⟩⟩

/-- 仮数 123、指数 -2 の負の数。 -/
theorem dpd_reads_back_small : ReadsBack64 ⟨0x123, -2, -1⟩ ∧ ReadsBack32 ⟨0x123, -2, -1⟩ :=
  have h := dpd_reads_back_iff ⟨0x123, -2, -1⟩ ⟨0x123, -2, -1⟩
  ⟨(h.1 (by decide) (by decide) (by decide) (Or.inr (Or.inr rfl))).2
      ⟨fun hb => absurd hb.1 (by decide), Or.inl (by decide)⟩,
    (h.2 (by decide) (by decide) (by decide) (by decide) (Or.inr (Or.inr rfl))).2 fun hb => absurd hb.1 (by decide)⟩

/-- 先頭の桁が 9 で指数が -300 の仮数は、指数 -172 と読み戻される。32 ビットの最小の指数の 1 は、指数 0 と読み戻される。 -/
theorem dpd_loses_exponent :
    quantexpdpd64 (bcd64todpd ⟨0x9000000000000000, -300, 0⟩) = -172 ∧ quantexpdpd32 (bcd32todpd ⟨1, -101, 0⟩) = 0 ∧
    ¬ ReadsBack64 ⟨0x9000000000000000, -300, 0⟩ ∧ ¬ ReadsBack32 ⟨1, -101, 0⟩ := by
  decide

/-! ## 文字列の読み取りの停止 -/

/-- 文字列の読み取りと丸めの繰り返しが終わらないのは、零の仮数を減らすときに限る。 -/
theorem parsing_terminates_iff (src : List UInt8) (mant : BitVec 64) (mant' : BitVec 32) (roff : Int) :
    (Terminates (fun fuel => strtobcd64 fuel src) ↔ ¬ Stuck 15 src) ∧
    (Terminates (fun fuel => strtobcd32 fuel src) ↔ ¬ Stuck 7 src) ∧
    (Digits (· < 10) 16 15 mant.toNat → mant.toNat < 16 ^ 15 → roff = 1 ∨ roff = -1 →
      (Terminates (fun fuel => roundBcd64 fuel mant roff) ↔ ¬ (roff = -1 ∧ mant = 0))) ∧
    (Digits (· < 10) 16 7 mant'.toNat → mant'.toNat < 16 ^ 7 → roff = 1 ∨ roff = -1 →
      (Terminates (fun fuel => roundBcd32 fuel mant' roff) ↔ ¬ (roff = -1 ∧ mant' = 0))) := by
  refine ⟨?_, ?_, fun hd hM hr => ?_, fun hd hM hr => ?_⟩
  · exact strtobcd_terminates_iff .xor (by decide) (by decide)
  · exact strtobcd_terminates_iff .or (by decide) (by decide)
  · exact roundBcd_terminates_iff .xor (by decide) (by decide) hd hM hr
  · exact roundBcd_terminates_iff .or (by decide) (by decide) hd hM hr

/-- `"1"` の読み取りと、仮数 999 を増やす丸め。 -/
theorem parsing_terminates_one :
    Terminates (fun fuel => strtobcd64 fuel [49]) ∧ Terminates (fun fuel => roundBcd32 fuel 0x999 1) :=
  have h := parsing_terminates_iff [49] 0x999 0x999 1
  ⟨h.1.2 fun hs => absurd hs.1 (by decide),
    (h.2.2.2 (by decide) (by decide) (Or.inl rfl)).2 fun hz => absurd hz.1 (by decide)⟩

/-- `"-.0000000000000005"` と `"-.00000005"` の読み取りは終わらない。 -/
theorem parsing_loops_forever :
    ¬ Terminates (fun fuel => strtobcd64 fuel [45, 46, 48, 48, 48, 48, 48, 48, 48, 48, 48, 48, 48, 48, 48, 48, 48, 53]) ∧
    ¬ Terminates (fun fuel => strtobcd32 fuel [45, 46, 48, 48, 48, 48, 48, 48, 48, 53]) :=
  ⟨not_terminates (strtobcd_stuck .xor (by decide) (by decide) (by decide)),
    not_terminates (strtobcd_stuck .or (by decide) (by decide) (by decide))⟩

/-! ## 負号と丸め -/

/-- 負号のない文字列に負号を付けても仮数と指数が変わらないのは、切り上げのないときに限る。 -/
theorem parsing_sign_symmetric_iff (src : List UInt8) (h45 : src.headD 0 ≠ 45) (h43 : src.headD 0 ≠ 43) :
    (SignSymmetric strtobcd64 src ↔ ¬ RoundsUp 15 src) ∧ (SignSymmetric strtobcd32 src ↔ ¬ RoundsUp 7 src) :=
  ⟨signSymmetric_iff h45 h43 .xor (by decide) (by decide), signSymmetric_iff h45 h43 .or (by decide) (by decide)⟩

/-- `"1.5"` と `"-1.5"`。 -/
theorem parsing_sign_symmetric_short : SignSymmetric strtobcd64 [49, 46, 53] ∧ SignSymmetric strtobcd32 [49, 46, 53] :=
  have h := parsing_sign_symmetric_iff [49, 46, 53] (by decide) (by decide)
  ⟨h.1.2 (by decide), h.2.2 (by decide)⟩

/-- `"1.23456789012345678"` は切り上げるが、負号を付けると絶対値を切り下げる。32 ビットでは、`"1.2345678"` である。 -/
theorem negative_rounds_towards_zero :
    ¬ SignSymmetric strtobcd64 [49, 46, 50, 51, 52, 53, 54, 55, 56, 57, 48, 49, 50, 51, 52, 53, 54, 55, 56] ∧
    ¬ SignSymmetric strtobcd32 [49, 46, 50, 51, 52, 53, 54, 55, 56] :=
  ⟨fun h => (signSymmetric_iff (by decide) (by decide) .xor (by decide) (by decide)).1 h (by decide),
    fun h => (signSymmetric_iff (by decide) (by decide) .or (by decide) (by decide)).1 h (by decide)⟩

/-! ## 読み取りの誤差 -/

/-- 符号のない文字列の読み取りが正しく丸められるのは、切り上げの繰り上げを受ける数字が 8 桁に収まり、整数部がちょうど 15 桁の
ときの小数部が 1/2 以下のときである。 -/
theorem parsing_rounds_iff (ip : List UInt8) (fp : Option (List UInt8)) (hip : ∀ c ∈ ip, isdigit c = true)
    (hfp : ∀ c ∈ fp.getD [], isdigit c = true) :
    CorrectlyRounded strtobcd64 15 ip fp ↔
      (RoundsUp 15 (plainText ip fp) → val 10 (unnined (kept 15 (plainText ip fp))) < 10 ^ 8) ∧
      ((ip.dropWhile fun c => decide (c = 48)).length = 15 → 2 * val 10 (fp.getD []) ≤ 10 ^ (fp.getD []).length) :=
  correctlyRounded_iff .xor (by decide) (by decide) hip hfp

/-- `"1.5"`。 -/
theorem parsing_rounds_short : CorrectlyRounded strtobcd64 15 [49] (some [53]) :=
  (parsing_rounds_iff [49] (some [53]) (by decide) (by decide)).2 ⟨fun h => absurd h (by decide), fun h => absurd h (by decide)⟩

/-- `"1.234567890123456"` は、切り上げで上の 7 桁を失う。`"123456789012345.9"` は、小数部を落とすだけである。 -/
theorem rounding_drops_digits :
    strtobcd64 1 [49, 46, 50, 51, 52, 53, 54, 55, 56, 57, 48, 49, 50, 51, 52, 53, 54] = some (⟨0x89012346, -14, 0⟩, []) ∧
    strtobcd64 1 [49, 50, 51, 52, 53, 54, 55, 56, 57, 48, 49, 50, 51, 52, 53, 46, 57] =
      some (⟨0x123456789012345, 0, 0⟩, []) ∧
    ¬ CorrectlyRounded strtobcd64 15 [49] (some [50, 51, 52, 53, 54, 55, 56, 57, 48, 49, 50, 51, 52, 53, 54]) ∧
    ¬ CorrectlyRounded strtobcd64 15 [49, 50, 51, 52, 53, 54, 55, 56, 57, 48, 49, 50, 51, 52, 53] (some [57]) := by
  refine ⟨by decide, by decide, fun h => ?_, fun h => ?_⟩
  · have hc := ((correctlyRounded_iff .xor (by decide) (by decide) (by decide) (by decide)).1 h).1 (by decide)
    exact absurd hc (by decide)
  · have hc := ((correctlyRounded_iff .xor (by decide) (by decide) (by decide) (by decide)).1 h).2 (by decide)
    exact absurd hc (by decide)

/-! ## 二つの形の読み取り -/

/-- 指数が収まる文字列を二つの形で同じに読むのは、読み取りが終わり、繰り上げが仮数から溢れないときに限る。 -/
theorem parses_alike_iff (src : List UInt8) :
    (-398 ≤ textExpo 15 src → textExpo 15 src ≤ 369 → (ParsesAlike64 src ↔ ¬ Stuck 15 src ∧ ¬ Spills 15 src)) ∧
    (-101 ≤ textExpo 7 src → textExpo 7 src ≤ 90 → (ParsesAlike32 src ↔ ¬ Stuck 7 src ∧ ¬ Spills 7 src)) := by
  constructor
  · intro hlo hhi
    constructor
    · rintro ⟨b, x, y, rest, hb, _, _, hlt, _⟩
      exact fits_of_returns .xor (by decide) (by decide) hb hlt
    · rintro ⟨hs, hp⟩
      obtain ⟨m, hret, hd, hlt⟩ := strtobcd_fits (w := 64) .xor (by decide) (by decide) hs hp
      exact ⟨_, _, _, _, hret, hret.map fun r => (bcd64tobid r.1, r.2), hret.map fun r => (bcd64todpd r.1, r.2), hlt,
        alike64 hd hlt hlo hhi (signOf_isSign src)⟩
  · intro hlo hhi
    constructor
    · rintro ⟨b, x, y, rest, hb, _, _, hlt, _⟩
      exact fits_of_returns .or (by decide) (by decide) hb hlt
    · rintro ⟨hs, hp⟩
      obtain ⟨m, hret, hd, hlt⟩ := strtobcd_fits (w := 32) .or (by decide) (by decide) hs hp
      exact ⟨_, _, _, _, hret, hret.map fun r => (bcd32tobid r.1, r.2), hret.map fun r => (bcd32todpd r.1, r.2), hlt,
        alike32 hd hlt hlo hhi (signOf_isSign src)⟩

/-- `"1.5"` は、どちらの形でも同じに読む。 -/
theorem parses_alike_short : ParsesAlike64 [49, 46, 53] ∧ ParsesAlike32 [49, 46, 53] :=
  have h := parses_alike_iff [49, 46, 53]
  ⟨(h.1 (by decide) (by decide)).2 (by decide), (h.2 (by decide) (by decide)).2 (by decide)⟩

/-- `"9999999999999995"` は、二進の仮数では 0、三桁ずつ詰めた形では `10 ^ 15` を仮数とする。32 ビットの `"99999995"` は、0 と
`8 * 10 ^ 6` を仮数とする。 -/
theorem nines_spill :
    (strtobid64 16 [57, 57, 57, 57, 57, 57, 57, 57, 57, 57, 57, 57, 57, 57, 57, 53]).map (fun r => bidDec 53 398 r.1) =
      some ⟨false, 0, 1⟩ ∧
    (strtodpd64 16 [57, 57, 57, 57, 57, 57, 57, 57, 57, 57, 57, 57, 57, 57, 57, 53]).map (fun r => dpdDec 5 8 398 r.1) =
      some ⟨false, 10 ^ 15, 1⟩ ∧
    (strtobid32 8 [57, 57, 57, 57, 57, 57, 57, 53]).map (fun r => bidDec 23 101 r.1) = some ⟨false, 0, 1⟩ ∧
    (strtodpd32 8 [57, 57, 57, 57, 57, 57, 57, 53]).map (fun r => dpdDec 2 6 101 r.1) = some ⟨false, 8 * 10 ^ 6, 1⟩ ∧
    ¬ ParsesAlike64 [57, 57, 57, 57, 57, 57, 57, 57, 57, 57, 57, 57, 57, 57, 57, 53] ∧
    ¬ ParsesAlike32 [57, 57, 57, 57, 57, 57, 57, 53] := by
  refine ⟨by decide, by decide, by decide, by decide, ?_, ?_⟩
  · rintro ⟨b, x, y, rest, hb, _, _, hlt, _⟩
    exact (fits_of_returns .xor (by decide) (by decide) hb hlt).2 (by decide)
  · rintro ⟨b, x, y, rest, hb, _, _, hlt, _⟩
    exact (fits_of_returns .or (by decide) (by decide) hb hlt).2 (by decide)

/-! ## 桁を揃える計算 -/

/-- 二進の仮数を持つ形で正しく桁が揃うのは、落とす部分が半分以上であるか、`44…4` 以下のときである。その間では、一桁ずつの
四捨五入が二度の切り上げになる。 -/
theorem quantising_rounds_iff (x r : BitVec 64) (x' r' : BitVec 32) :
    (BidFinite x → BidFinite r → x ≠ 0 → r ≠ 0 →
      (Quantised 15 (bidDec 53 398 x) (bidDec 53 398 r) (bidDec 53 398 (quantizebid64 x r)) ↔
        RoundsOnce (bidDec 53 398 x) (bidDec 53 398 r))) ∧
    (BidFinite x' → BidFinite r' → x' ≠ 0 → r' ≠ 0 →
      (Quantised 7 (bidDec 23 101 x') (bidDec 23 101 r') (bidDec 23 101 (quantizebid32 x' r')) ↔
        RoundsOnce (bidDec 23 101 x') (bidDec 23 101 r'))) :=
  ⟨fun hx hr hx0 hr0 => quantizeBid_iff (by decide) (by decide) rfl (by decide) hx hr hx0 hr0,
    fun hx hr hx0 hr0 => quantizeBid_iff (by decide) (by decide) rfl (by decide) hx hr hx0 hr0⟩

/-- `0.25` を小数第一位に揃える。 -/
theorem quantising_rounds_quarter :
    Quantised 15 ⟨false, 25, -2⟩ ⟨false, 1, -1⟩ (bidDec 53 398 (quantizebid64 0x3180000000000019 0x31a0000000000001)) ∧
    Quantised 7 ⟨false, 25, -2⟩ ⟨false, 1, -1⟩ (bidDec 23 101 (quantizebid32 0x31800019 0x32000001)) :=
  have h := quantising_rounds_iff 0x3180000000000019 0x31a0000000000001 0x31800019 0x32000001
  ⟨(h.1 (by decide) (by decide) (by decide) (by decide)).2 (by decide),
    (h.2 (by decide) (by decide) (by decide) (by decide)).2 (by decide)⟩

/-- 45 を百の位に揃えると、0 でなく 100 になる。 -/
theorem quantising_rounds_twice :
    bidDec 53 398 (quantizebid64 0x31c000000000002d 0x3200000000000001) = ⟨false, 1, 2⟩ ∧
    bidDec 23 101 (quantizebid32 0x3280002d 0x33800001) = ⟨false, 1, 2⟩ ∧
    ¬ Quantised 15 ⟨false, 45, 0⟩ ⟨false, 1, 2⟩ (bidDec 53 398 (quantizebid64 0x31c000000000002d 0x3200000000000001)) ∧
    ¬ Quantised 7 ⟨false, 45, 0⟩ ⟨false, 1, 2⟩ (bidDec 23 101 (quantizebid32 0x3280002d 0x33800001)) := by
  have h64 : bidDec 53 398 (quantizebid64 0x31c000000000002d 0x3200000000000001) = ⟨false, 1, 2⟩ := by decide
  have h32 : bidDec 23 101 (quantizebid32 0x3280002d 0x33800001) = ⟨false, 1, 2⟩ := by decide
  have hnear : ¬ |(⟨false, 1, 2⟩ : Dec).mag - (⟨false, 45, 0⟩ : Dec).mag| ≤ 1 / 2 * 10 ^ (2 : Int) :=
    mt (shorten_near_iff (X := ⟨false, 45, 0⟩) (R := ⟨false, 1, 2⟩) (by decide) (by decide)).1 (by decide)
  refine ⟨h64, h32, fun h => ?_, fun h => ?_⟩
  · rw [h64] at h
    exact hnear (h.shorten (by decide)).2
  · rw [h32] at h
    exact hnear (h.shorten (by decide)).2

/-- 二つの形で桁を揃えた数が一致するのは、ちょうど `QuantiseAlike` のときである。`quantizedpd64` は、仮数の 16 桁目を落とし、先頭の
桁が 8 以上の数の指数を取り違える。 -/
theorem quantise_alike_iff {x r : Dec} (hx : x.coef < 10 ^ 16) (hr : r.coef < 10 ^ 16) (hxlo : -398 < x.expo)
    (hxhi : x.expo ≤ 369) (hrlo : -398 < r.expo) (hrhi : r.expo ≤ 369) {xb rb xd rd : BitVec 64}
    (hxb : bidDec 53 398 xb = x) (hrb : bidDec 53 398 rb = r) (hxd : dpdDec 5 8 398 xd = x) (hrd : dpdDec 5 8 398 rd = r) :
    bidDec 53 398 (quantizebid64 xb rb) = dpdDec 5 8 398 (quantizedpd64 xd rd) ↔ QuantiseAlike x r :=
  alike_iff hxb hrb hxd hrd hx hr hxlo hxhi hrlo hrhi

/-- `0.25` を小数第一位に揃える。 -/
theorem quantise_alike_quarter : bidDec 53 398 (quantizebid64 0x3180000000000019 0x31a0000000000001) =
    dpdDec 5 8 398 (quantizedpd64 (bcd64todpd ⟨0x25, -2, 0⟩) (bcd64todpd ⟨1, -1, 0⟩)) :=
  (quantise_alike_iff (x := ⟨false, 25, -2⟩) (r := ⟨false, 1, -1⟩) (by decide) (by decide) (by decide) (by decide) (by decide)
    (by decide) (by decide) (by decide) (by decide) (by decide)).2 (by decide)

/-- 16 桁の 1234567890123456 を十の位に揃えると、三桁ずつ詰めた形では先頭の 1 が落ちる。 -/
theorem quantise_drops_lead :
    bidDec 53 398 (quantizebid64 0x31c462d53c8abac0 0x31e0000000000001) = ⟨false, 123456789012346, 1⟩ ∧
    dpdDec 5 8 398 (quantizedpd64 (bcd64todpd ⟨0x1234567890123456, 0, 0⟩) (bcd64todpd ⟨1, 1, 0⟩)) =
      ⟨false, 23456789012346, 1⟩ ∧
    bidDec 53 398 (0x31c462d53c8abac0 : BitVec 64) = dpdDec 5 8 398 (bcd64todpd ⟨0x1234567890123456, 0, 0⟩) ∧
    bidDec 53 398 (0x31e0000000000001 : BitVec 64) = dpdDec 5 8 398 (bcd64todpd ⟨1, 1, 0⟩) ∧
    bidDec 53 398 (quantizebid64 0x31c462d53c8abac0 0x31e0000000000001) ≠
      dpdDec 5 8 398 (quantizedpd64 (bcd64todpd ⟨0x1234567890123456, 0, 0⟩) (bcd64todpd ⟨1, 1, 0⟩)) := by
  decide

/-! ## 文字列との行き来 -/

/-- 整った文字列は、読んで書くと元に戻る。15 桁に収まり、指数が -15 から 0 までの数は、負の零を除いて、書いて読むと元に戻る。 -/
theorem text_codec_round_trips :
    (∀ neg ip fp, Canonical 15 neg ip fp →
      ∃ x, (∀ fuel, strtobid64 fuel (decText neg ip fp) = some (x, [])) ∧
        ∀ bsz, (decText neg ip fp).length < bsz →
          d64tostr bsz x = (decText neg ip fp ++ [0], (decText neg ip fp).length)) ∧
    ∀ x, (bidDec 53 398 x).coef < 10 ^ 15 → -15 ≤ (bidDec 53 398 x).expo → (bidDec 53 398 x).expo ≤ 0 →
      ¬ ((bidDec 53 398 x).neg = true ∧ (bidDec 53 398 x).coef = 0) →
      ∃ s : List UInt8, s.length ≤ 18 ∧ (∀ bsz, s.length < bsz → d64tostr bsz x = (s ++ [0], s.length)) ∧
        ∀ fuel, strtobid64 fuel s = some (x, []) := by
  constructor
  · intro neg ip fp h
    obtain ⟨is, rfl, hl, hd, hlen, hnz⟩ := canonical_int h
    obtain ⟨x, hread, hdec⟩ := strtobid64_eq neg hd hl hlen
    exact ⟨x, hread, fun bsz hsz => d64tostr_eq hdec hd hl hlen (fun hneg => val_ne_zero hd (hnz hneg)) hsz⟩
  · intro x hc hlo hhi hz
    obtain ⟨is, fs, hl, hfs, hd, hlen, hv⟩ := exists_text (f := (-(bidDec 53 398 x).expo).toNat) hc (by omega)
    obtain ⟨x', hread, hdec⟩ := strtobid64_eq (bidDec 53 398 x).neg hd hl hlen
    have hexpo : -(fs.length : Int) = (bidDec 53 398 x).expo := by omega
    rw [hv, hexpo] at hdec
    obtain rfl : x' = x := bidDec_inj (by decide) (by decide) hdec
    refine ⟨_, decText_length hlen, fun bsz hsz => d64tostr_eq ?_ hd hl hlen (fun hneg h0 => hz ⟨hneg, hv ▸ h0⟩) hsz, hread⟩
    rw [hv, hexpo]

/-- `-12.50` と、その符号。 -/
theorem text_codec_round_trips_price :
    (∃ x, (∀ fuel, strtobid64 fuel [45, 49, 50, 46, 53, 48] = some (x, [])) ∧
      ∀ bsz, 6 < bsz → d64tostr bsz x = ([45, 49, 50, 46, 53, 48, 0], 6)) ∧
    ∃ s : List UInt8, s.length ≤ 18 ∧ (∀ bsz, s.length < bsz → d64tostr bsz 0xb1800000000004e2 = (s ++ [0], s.length)) ∧
      ∀ fuel, strtobid64 fuel s = some (0xb1800000000004e2, []) :=
  ⟨text_codec_round_trips.1 true [49, 50] [53, 48]
      ⟨by decide, by decide, by decide, by decide, by decide, fun _ => ⟨49, by decide, by decide⟩⟩,
    text_codec_round_trips.2 0xb1800000000004e2 (by decide) (by decide) (by decide) (by decide)⟩

/-- 7 桁に収まり、指数が -7 から 0 までの 32 ビットの数は、負の零を除いて、書いて読むと元に戻る。`2 ^ 23` 以上の仮数は、長い形で持つ。 -/
theorem text_codec32_round_trips (x : BitVec 32) (hc : (bidDec 23 101 x).coef < 10 ^ 7) (hlo : -7 ≤ (bidDec 23 101 x).expo)
    (hhi : (bidDec 23 101 x).expo ≤ 0) (hz : ¬ ((bidDec 23 101 x).neg = true ∧ (bidDec 23 101 x).coef = 0)) :
    ∃ s : List UInt8, s.length ≤ 10 ∧ (∀ bsz, s.length < bsz → d32tostr bsz x = (s ++ [0], s.length)) ∧
      ∀ fuel, strtobid32 fuel s = some (x, []) := by
  obtain ⟨is, fs, hl, hfs, hd, hlen, hv⟩ := exists_text (f := (-(bidDec 23 101 x).expo).toNat) hc (by omega)
  obtain ⟨x', hread, hdec⟩ := strtobid32_eq (bidDec 23 101 x).neg hd hl hlen
  have hexpo : -(fs.length : Int) = (bidDec 23 101 x).expo := by omega
  rw [hv, hexpo] at hdec
  obtain rfl : x' = x := bidDec_inj (by decide) (by decide) hdec
  refine ⟨_, decText_length hlen, fun bsz hsz => d32tostr_eq ?_ hd hl hlen (fun hneg h0 => hz ⟨hneg, hv ▸ h0⟩) hsz, hread⟩
  rw [hv, hexpo]

/-- 仮数を長い形で持つ `-99999.99`。 -/
theorem text_codec32_round_trips_long :
    ∃ s : List UInt8, s.length ≤ 10 ∧ (∀ bsz, s.length < bsz → d32tostr bsz 0xec78967f = (s ++ [0], s.length)) ∧
      ∀ fuel, strtobid32 fuel s = some (0xec78967f, []) :=
  text_codec32_round_trips 0xec78967f (by decide) (by decide) (by decide) (by decide)

/-! ## 組み立てた語の読み戻し -/

/-- 組み立てた語からは、仮数・指数・符号が読み戻される。仮数は、短い形でも長い形でもよい。 -/
theorem bid_packing_reads_back (m ex s : BitVec 64) (m' ex' s' : BitVec 32) :
    (m.toNat < 10 ^ 16 → ex.toNat ≤ 767 → s = 0 ∨ s = 1 → ¬ (m = 0 ∧ ex = 0 ∧ s = 0) →
      mantBid64 (assembleBid64 m ex s) = m ∧ quantexpbid64 (assembleBid64 m ex s) = ex.toNat - 398 ∧
        (assembleBid64 m ex s).msb = decide (s = 1) ∧ signBits (assembleBid64 m ex s) = -s.toNat) ∧
    (m'.toNat < 10 ^ 7 → ex'.toNat ≤ 191 → s' = 0 ∨ s' = 1 → ¬ (m' = 0 ∧ ex' = 0 ∧ s' = 0) →
      mantBid32 (assembleBid32 m' ex' s') = m' ∧ quantexpbid32 (assembleBid32 m' ex' s') = ex'.toNat - 101 ∧
        (assembleBid32 m' ex' s').msb = decide (s' = 1) ∧ signBits (assembleBid32 m' ex' s') = -s'.toNat) :=
  ⟨fun hm hex hs hne => assemble_reads_back (by decide) (by decide) (by omega) (by omega) hs hne,
    fun hm hex hs hne => assemble_reads_back (by decide) (by decide) (by omega) (by omega) hs hne⟩

/-- 長い形の `10 ^ 16 - 1` と、短い形の 1。 -/
theorem bid_packing_reads_back_nines :
    mantBid64 (assembleBid64 9999999999999999 398 1) = 9999999999999999 ∧ quantexpbid32 (assembleBid32 1 0 0) = -101 :=
  have h := bid_packing_reads_back 9999999999999999 398 1 1 0 0
  ⟨(h.1 (by decide) (by decide) (Or.inr rfl) (by decide)).1, (h.2 (by decide) (by decide) (Or.inl rfl) (by decide)).2.1⟩

end Books.Dfp754
