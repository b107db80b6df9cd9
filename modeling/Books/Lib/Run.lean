import Mathlib.Data.List.Basic

/-!
# 入力の列にわたる実行

一歩 `step` は、状態 `σ` と入力 `α` から、次の状態と出力の列を作るか、失敗する。実行は、入力を順に処理し、出力を連ねる。
-/

namespace Books.Lib

variable {σ α β : Type} {step : σ → α → Option (σ × List β)} {s s' : σ} {a : α} {as as' : List α} {bs bs₀ : List β}

/-- 入力の列の実行。 -/
def run (step : σ → α → Option (σ × List β)) (s : σ) : List α → Option (σ × List β)
  | [] => some (s, [])
  | a :: as => do
      let (s, bs) ← step s a
      let (s, bss) ← run step s as
      return (s, bs ++ bss)

theorem run_cons_eq_some_iff : run step s (a :: as) = some (s', bs) ↔
    ∃ s₁ bs₁ bs₂, step s a = some (s₁, bs₁) ∧ run step s₁ as = some (s', bs₂) ∧ bs = bs₁ ++ bs₂ := by
  rw [run, Option.bind_eq_bind, Option.bind_eq_some_iff]
  simp only
  constructor
  · rintro ⟨⟨s₁, bs₁⟩, h₁, h⟩
    rw [Option.bind_eq_some_iff] at h
    obtain ⟨⟨s₂, bs₂⟩, h₂, h⟩ := h
    cases h
    exact ⟨s₁, bs₁, bs₂, h₁, h₂, rfl⟩
  · rintro ⟨s₁, bs₁, bs₂, h₁, h₂, rfl⟩
    refine ⟨(s₁, bs₁), h₁, ?_⟩
    rw [h₂]
    rfl

theorem run_concat {s₁ : σ} {bs₁ bs₂ : List β} (h₁ : run step s as = some (s₁, bs₁)) (h₂ : step s₁ a = some (s', bs₂)) :
    run step s (as ++ [a]) = some (s', bs₁ ++ bs₂) := by
  induction as generalizing s bs₁ with
  | nil =>
      cases h₁
      exact run_cons_eq_some_iff.mpr ⟨s', bs₂, [], h₂, rfl, (List.append_nil _).symm⟩
  | cons b as ih =>
      obtain ⟨s₂, bs₃, bs₄, h₃, h₄, rfl⟩ := run_cons_eq_some_iff.mp h₁
      exact run_cons_eq_some_iff.mpr ⟨s₂, bs₃, bs₄ ++ bs₂, h₃, ih h₄, List.append_assoc _ _ _⟩

/-- 実行の規則の、途中から始める形。 -/
theorem run_rule_from {P : List α → σ → List β → Prop} {done : List α} (h₀ : P done s bs₀)
    (hstep : ∀ {done' a s bs s' bs'}, done' ++ [a] <+: done ++ as → P done' s bs → step s a = some (s', bs') →
      P (done' ++ [a]) s' (bs ++ bs'))
    (h : run step s as = some (s', bs)) : P (done ++ as) s' (bs₀ ++ bs) := by
  induction as generalizing done s bs₀ bs with
  | nil =>
      cases h
      rwa [List.append_nil, List.append_nil]
  | cons a as ih =>
      obtain ⟨s₁, bs₁, bs₂, h₁, h₂, rfl⟩ := run_cons_eq_some_iff.mp h
      have happ : done ++ a :: as = done ++ [a] ++ as := by rw [List.append_assoc, List.singleton_append]
      rw [happ] at hstep ⊢
      have hend := ih (hstep (List.prefix_append _ _) h₀ h₁) hstep h₂
      rwa [List.append_assoc bs₀] at hend

/-- 実行の規則。初めに成り立ち、一歩ごとに保たれる性質は、実行の後にも成り立つ。`P` は、処理した入力と、状態と、出力の性質である。 -/
theorem run_rule {P : List α → σ → List β → Prop} (h₀ : P [] s [])
    (hstep : ∀ {done a s bs s' bs'}, done ++ [a] <+: as → P done s bs → step s a = some (s', bs') →
      P (done ++ [a]) s' (bs ++ bs'))
    (h : run step s as = some (s', bs)) : P as s' bs :=
  run_rule_from h₀ hstep h

/-- 保たれる性質の下で一歩が定まれば、実行も定まる。 -/
theorem run_isSome {P : σ → Prop} (h₀ : P s) (hsome : ∀ {a s}, a ∈ as → P s → (step s a).isSome = true)
    (hstep : ∀ {a s s' bs}, a ∈ as → P s → step s a = some (s', bs) → P s') : (run step s as).isSome = true := by
  induction as generalizing s with
  | nil => rfl
  | cons a as ih =>
      obtain ⟨⟨s₁, bs₁⟩, h₁⟩ := Option.isSome_iff_exists.mp (hsome List.mem_cons_self h₀)
      have hnext := hstep List.mem_cons_self h₀ h₁
      obtain ⟨⟨s₂, bs₂⟩, h₂⟩ := Option.isSome_iff_exists.mp
        (ih hnext (fun hmem => hsome (List.mem_cons_of_mem _ hmem)) (fun hmem => hstep (List.mem_cons_of_mem _ hmem)))
      exact Option.isSome_iff_exists.mpr ⟨_, run_cons_eq_some_iff.mpr ⟨s₁, bs₁, bs₂, h₁, h₂, rfl⟩⟩

end Books.Lib
