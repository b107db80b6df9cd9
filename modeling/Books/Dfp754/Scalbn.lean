import Books.Dfp754.Lemmas.Scalbn

/-!
# 十の冪を掛ける

`scalbnd64` と `scalbnd32` が、説明のとおり `X*10^N` を返す条件を、二つの形のそれぞれで述べる。
-/

namespace Books.Dfp754

variable {n : Int} {x y : Dec}

/-- 符号と係数を保ったまま、値が `10 ^ n` 倍になる。 -/
structure Scales (n : Int) (x y : Dec) : Prop where
  neg : y.neg = x.neg
  coef : y.coef = x.coef
  expo : y.expo = x.expo + n
  mag : y.mag = x.mag * 10 ^ n

theorem scales_iff : Scales n x y ↔ y = { x with expo := x.expo + n } := by
  constructor
  · intro h
    obtain ⟨neg, coef, expo⟩ := y
    obtain ⟨rfl, rfl, rfl, -⟩ := h
    rfl
  · rintro rfl
    refine ⟨rfl, rfl, rfl, ?_⟩
    rw [Dec.mag, Dec.mag, zpow_add₀ (by norm_num), mul_assoc]

/-- `1.5` と `150`。 -/
example : scalbnbid64 0x31a000000000000f 2 = 0x31e000000000000f := by decide

end Books.Dfp754
