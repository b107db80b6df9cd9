/-!
# 変化の検出

値が変わったかどうかを、覚えた部分だけで比べ、変わったと見なしたときだけ印字する装置を表す。最後に印字したものが、今の値の印字
と一致し続ける条件を求める。
-/

namespace Books.Lib

variable {X M R : Type}

/-- 値 `X` の一部 `rem` を覚え、`same` で比べて、違えば `block` を印字する装置。 -/
structure Detector (X M R : Type) where
  rem : X → M
  same : M → M → Bool
  block : X → List R
  eq_of_same : ∀ m m', same m m' = true → m = m'

namespace Detector

variable (d : Detector X M R) {x y : X} {m : M} {shown : List R}

/-- 値 `y` を見て、覚えるものと、印字するものを返す。 -/
def emit (m : M) (y : X) : M × List R := if d.same (d.rem y) m then (m, []) else (d.rem y, d.block y)

/-- 印字するものがなければ、最後に印字したものはそのままである。 -/
def refresh (shown out : List R) : List R := if out = [] then shown else out

/-- 値 `x` から `y` への変化を見落とさない。 -/
def Notices (x y : X) : Prop :=
  (d.same (d.rem y) (d.rem x) = true → d.block y = d.block x) ∧ (d.block y = [] → d.block x = [])

theorem emit_rem (x y : X) : (d.emit (d.rem x) y).1 = d.rem y := by
  rw [emit]
  split
  · rename_i h
    exact (d.eq_of_same _ _ h).symm
  · rfl

/-- 印字が値に追いつくのは、変化を見落とさないときで、そのときに限る。 -/
theorem refresh_eq_iff : refresh (d.block x) (d.emit (d.rem x) y).2 = d.block y ↔ d.Notices x y := by
  rw [Notices, emit, refresh]
  split
  · rename_i h
    rw [if_pos rfl]
    constructor
    · intro he
      exact ⟨fun _ => he.symm, fun hn => he.trans hn⟩
    · rintro ⟨hs, _⟩
      exact (hs h).symm
  · rename_i h
    have hvac : d.same (d.rem y) (d.rem x) = true → d.block y = d.block x := fun hs => absurd hs h
    split
    · rename_i hn
      have hn' : d.block y = [] := hn
      exact ⟨fun he => ⟨hvac, fun _ => he.trans hn'⟩, fun hc => (hc.2 hn').trans hn'.symm⟩
    · rename_i hn
      exact ⟨fun _ => ⟨hvac, fun he => absurd he hn⟩, fun _ => rfl⟩

end Detector

end Books.Lib
