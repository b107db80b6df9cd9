import Books.Dfp754.Lemmas.DpdTostr
import Books.Dfp754.Lemmas.QuantizeDpd

/-!
# 32 ビットの桁揃え

`quantizedpd32` は、七桁をすべて取り出し、指数を正しく読むので、いつも `quantizebid32` と同じ数を返す。
-/

namespace Books.Dfp754

open Books.Lib

/-! ## 伸ばす回数 -/

theorem stretch_count_le {a j n k k' : Nat} (hk' : k' ≤ n) (hstop : k = n ∨ 10 ^ j ≤ a * 10 ^ k)
    (hfit : k' = 0 ∨ a * 10 ^ k' < 10 ^ (j + 1)) : k' ≤ k := by
  rcases hstop with rfl | hstop
  · exact hk'
  · exact stretch_stops hstop hfit

section Word
variable {x r : BitVec 32} {ex er : Int}

/-- 揃えた数は、係数を一桁ずつ四捨五入した値であるか、`k` 桁伸ばした値である。 -/
theorem quantizedpd32_dec (hx : (dpdDec 2 6 101 x).expo ≠ -101) (hr : (dpdDec 2 6 101 r).expo ≠ -101)
    (hex : (dpdDec 2 6 101 x).expo = ex) (her : (dpdDec 2 6 101 r).expo = er) (hlo : -101 ≤ er) (hxhi : ex ≤ 90)
    (hrhi : er ≤ 90) :
    ∃ k ≤ (max ex er - er).toNat,
      dpdDec 2 6 101 (quantizedpd32 x r) = ⟨(dpdDec 2 6 101 x).neg,
        roundDigits (er - ex).toNat (dpdDec 2 6 101 x).coef * 10 ^ k, max ex er - k⟩ ∧
      (k = (max ex er - er).toNat ∨ 10 ^ 6 ≤ roundDigits (er - ex).toNat (dpdDec 2 6 101 x).coef * 10 ^ k) ∧
      (k = 0 ∨ roundDigits (er - ex).toNat (dpdDec 2 6 101 x).coef * 10 ^ k < 10 ^ 7) := by
  obtain ⟨hd, hb, hc⟩ := bcdDpd32_spec x
  have hlim : (0x1000000 : BitVec 32).toNat = 16 ^ 6 := rfl
  obtain ⟨k, hk, m, hloop, hdig, hlt, hrec, hstop, hfit⟩ := quantizeBcd_spec (K := 6) rfl hlim hd hb hc ex er
  refine ⟨k, hk, ?_, hstop, hfit⟩
  obtain ⟨hs, hneg⟩ := dpdSign 2 6 101 x
  have hword : quantizedpd32 x r = bcd32todpd ⟨m, max ex er - k, signBits x⟩ := by
    rw [bcdDpd32] at hloop
    rw [quantizedpd32, quantexpdpd32_eq hx, quantexpdpd32_eq hr, hex, her, hloop]
  have hmin : -101 ≤ max ex er - (k : Int) := by omega
  have hmax : max ex er - (k : Int) ≤ 90 := by omega
  rw [hword, ← alike32 hdig hlt hmin hmax hs, bcd32tobid_dec hdig hmin hmax hs, hrec, hneg]

end Word

/-! ## 二つの形の一致 -/

/-- 32 ビットでは、同じ数と同じ桁を表す語は、どちらの形でも同じ数に揃う。指数が最小のものだけを除く。 -/
theorem quantise32_alike (x r : Dec) (xb rb xd rd : BitVec 32) (hxb : bidDec 23 101 xb = x) (hrb : bidDec 23 101 rb = r)
    (hxd : dpdDec 2 6 101 xd = x) (hrd : dpdDec 2 6 101 rd = r) (hxlo : -101 < x.expo) (hx : x.expo ≤ 90)
    (hrlo : -101 < r.expo) (hr : r.expo ≤ 90) :
    bidDec 23 101 (quantizebid32 xb rb) = dpdDec 2 6 101 (quantizedpd32 xd rd) := by
  have hxe : (bidDec 23 101 xb).expo ≠ -101 := by rw [hxb]; omega
  have hre : (bidDec 23 101 rb).expo ≠ -101 := by rw [hrb]; omega
  have hxne : xb ≠ 0 := ne_zero_of_expo hxe
  have hrne : rb ≠ 0 := ne_zero_of_expo hre
  have hlim : (1000000 : BitVec 32).toNat = 10 ^ 6 := rfl
  obtain ⟨k, hk, hY, hstop, hfit⟩ := quantizeBid_dec (by decide) (by decide) (by rw [hlim]; decide)
    (show (bidDec 23 101 xb).expo + 101 < 3 * 2 ^ 6 by rw [hxb]; omega)
    (show (bidDec 23 101 rb).expo + 101 < 3 * 2 ^ 6 by rw [hrb]; omega) hxne hrne
  obtain ⟨k', hk', hY', hstop', hfit'⟩ := quantizedpd32_dec (by rw [hxd]; omega) (by rw [hrd]; omega)
    (congrArg Dec.expo hxd) (congrArg Dec.expo hrd) (by omega) hx hr
  rw [hxb, hrb, hlim] at hstop hfit
  rw [show 10 * 10 ^ 6 = 10 ^ 7 from rfl] at hfit
  rw [hxb, hrb] at hk hY
  rw [hxd] at hstop' hfit' hY'
  have heq : k = k' := Nat.le_antisymm (stretch_count_le hk hstop' hfit) (stretch_count_le hk' hstop hfit')
  rw [quantizebid32, hY, hY', heq]

/-- `0.25` を `0.1` の桁に揃える。 -/
theorem quantise32_alike_quarter :
    bidDec 23 101 (quantizebid32 (bcd32tobid ⟨0x25, -2, 0⟩) (bcd32tobid ⟨1, -1, 0⟩)) =
      dpdDec 2 6 101 (quantizedpd32 (bcd32todpd ⟨0x25, -2, 0⟩) (bcd32todpd ⟨1, -1, 0⟩)) :=
  quantise32_alike ⟨false, 25, -2⟩ ⟨false, 1, -1⟩ _ _ _ _ (by decide) (by decide) (by decide) (by decide) (by decide)
    (by decide) (by decide) (by decide)

end Books.Dfp754
