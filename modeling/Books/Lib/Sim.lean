import Mathlib.Data.List.Forall2

/-!
# 二つの実行の対応

失敗しうる計算と、並びの要素ごとの関係を、二つの実行の間で運ぶ。
-/

namespace Books.Lib

variable {α β γ δ : Type} {R : α → β → Prop} {S : γ → δ → Prop}

/-- 対応する結果から、対応する続きを行う。 -/
theorem rel_bind {x : Option α} {y : Option β} {f : α → Option γ} {g : β → Option δ} (h : Option.Rel R x y)
    (hfg : ∀ a b, x = some a → y = some b → R a b → Option.Rel S (f a) (g b)) : Option.Rel S (x.bind f) (y.bind g) := by
  cases h with
  | none => exact .none
  | some hab => exact hfg _ _ rfl rfl hab

theorem rel_refl (x : Option α) : Option.Rel Eq x x := by
  cases x with
  | none => exact .none
  | some a => exact .some rfl

theorem rel_some {a : α} {y : Option β} (h : Option.Rel R (some a) y) : ∃ b, y = some b ∧ R a b := by
  cases h with
  | some hab => exact ⟨_, rfl, hab⟩

theorem rel_getElem? {l : List α} {l' : List β} (h : List.Forall₂ R l l') (k : Nat) : Option.Rel R l[k]? l'[k]? := by
  induction h generalizing k with
  | nil => exact .none
  | cons hab _ ih =>
      cases k with
      | zero => exact .some hab
      | succ k => exact ih k

theorem forall₂_set {l : List α} {l' : List β} {a : α} {b : β} (h : List.Forall₂ R l l') (k : Nat) (hab : R a b) :
    List.Forall₂ R (l.set k a) (l'.set k b) := by
  induction h generalizing k with
  | nil => exact .nil
  | cons hcd hrest ih =>
      cases k with
      | zero => exact .cons hab hrest
      | succ k => exact .cons hcd (ih k)

/-! ## 観測 -/

section Observation
variable {σ ω : Type} {step : σ → α → σ} {p : α → Bool}

/-- 観測が入力ごとに前の観測だけから決まり、`p` でない入力では変わらないなら、`p` でない入力を除いても同じものが観測される。 -/
theorem foldl_filter_obs (obs : σ → ω) (hlocal : ∀ s s' a, obs s = obs s' → obs (step s a) = obs (step s' a))
    (hskip : ∀ s a, p a = false → obs (step s a) = obs s) :
    ∀ (as : List α) (s s' : σ), obs s = obs s' → obs (as.foldl step s) = obs ((as.filter p).foldl step s')
  | [], _, _, h => h
  | a :: as, s, s', h => by
      rw [List.foldl_cons]
      cases hp : p a with
      | true =>
          rw [List.filter_cons_of_pos hp, List.foldl_cons]
          exact foldl_filter_obs obs hlocal hskip as _ _ (hlocal s s' a h)
      | false =>
          rw [List.filter_cons_of_neg (by rw [hp]; exact Bool.false_ne_true)]
          exact foldl_filter_obs obs hlocal hskip as _ _ ((hskip s a hp).trans h)

end Observation

end Books.Lib
