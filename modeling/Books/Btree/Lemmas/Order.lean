import Books.Btree.Spec
import Mathlib.Order.Basic

/-!
# 木の向きの順序と、部分木の範囲
-/

namespace Books.Btree

variable {K : Type} [LinearOrder K] {descp : Bool}

/-! ## 順序 -/

theorem Before.irrefl (a : K) : ¬ Before descp a a := by
  cases descp <;> simp [Before]

theorem Before.trans {a b c : K} (h₁ : Before descp a b) (h₂ : Before descp b c) : Before descp a c := by
  cases descp
  · exact lt_trans (α := K) h₁ h₂
  · exact lt_trans (α := K) h₂ h₁

theorem Before.asymm {a b : K} (h : Before descp a b) : ¬ Before descp b a :=
  fun h' => Before.irrefl a (h.trans h')

theorem Before.ne {a b : K} (h : Before descp a b) : a ≠ b := by
  rintro rfl; exact Before.irrefl a h

theorem before_trichotomy (descp : Bool) (a b : K) : Before descp a b ∨ a = b ∨ Before descp b a := by
  cases descp
  · exact lt_trichotomy a b
  · rcases lt_trichotomy a b with h | h | h
    · exact Or.inr (Or.inr h)
    · exact Or.inr (Or.inl h)
    · exact Or.inl h

theorem Before.trans_not {a b c : K} (h₁ : Before descp a b) (h₂ : ¬ Before descp c b) : Before descp a c := by
  rcases before_trichotomy descp b c with h | rfl | h
  · exact h₁.trans h
  · exact h₁
  · exact absurd h h₂

theorem Before.not_trans {a b c : K} (h₁ : ¬ Before descp b a) (h₂ : Before descp b c) : Before descp a c := by
  rcases before_trichotomy descp a b with h | rfl | h
  · exact h.trans h₂
  · exact h₂
  · exact absurd h h₁

theorem keyPast_iff {k x : K} : keyPast descp (some k) (some x) = true ↔ Before descp x k := by
  cases descp <;> simp [keyPast, Before]

theorem keyEq_iff {k x : Option K} : keyEq k x = true ↔ ∃ y, k = some y ∧ x = some y := by
  cases k <;> cases x <;> simp [keyEq]
  exact ⟨fun h => h.symm, fun h => h.symm⟩

/-! ## 範囲

部分木のキーの範囲は、下の端 `lo`（含まない）と上の端 `hi`（含む）で表す。`none` は端がないことを表す。 -/

def Above (descp : Bool) (lo : Option K) (k : K) : Prop := ∀ l, lo = some l → Before descp l k

def Upto (descp : Bool) (hi : Option K) (k : K) : Prop := ∀ u, hi = some u → ¬ Before descp u k

def Below (descp : Bool) (hi : Option K) (k : K) : Prop := ∀ u, hi = some u → Before descp k u

theorem above_none (k : K) : Above descp none k := fun _ h => by cases h

theorem upto_none (k : K) : Upto descp none k := fun _ h => by cases h

theorem above_some {l k : K} : Above descp (some l) k ↔ Before descp l k :=
  ⟨fun h => h l rfl, fun h _ e => by cases e; exact h⟩

theorem upto_some {u k : K} : Upto descp (some u) k ↔ ¬ Before descp u k :=
  ⟨fun h => h u rfl, fun h _ e => by cases e; exact h⟩

theorem below_some {u k : K} : Below descp (some u) k ↔ Before descp k u :=
  ⟨fun h => h u rfl, fun h _ e => by cases e; exact h⟩

theorem Above.trans {lo : Option K} {a b : K} (h : Above descp lo a) (hab : Before descp a b) :
    Above descp lo b :=
  fun l hl => (h l hl).trans hab

theorem Below.trans {hi : Option K} {a b : K} (h : Below descp hi b) (hab : Before descp a b) :
    Below descp hi a :=
  fun u hu => hab.trans (h u hu)

theorem Upto.below {hi : Option K} {a b : K} (h : Upto descp hi b) (hab : Before descp a b) :
    Below descp hi a :=
  fun u hu => hab.trans_not (h u hu)

theorem Below.upto {hi : Option K} {a : K} (h : Below descp hi a) : Upto descp hi a :=
  fun u hu => (h u hu).asymm

/-- 範囲 `(lo, hi]` を広げたものが `(lo', hi']` である。 -/
structure Wider (descp : Bool) (lo hi lo' hi' : Option K) : Prop where
  above : ∀ k, Above descp lo k → Above descp lo' k
  upto : ∀ k, Upto descp hi k → Upto descp hi' k
  below : ∀ k, Below descp hi k → Below descp hi' k

theorem Wider.refl (lo hi : Option K) : Wider descp lo hi lo hi := ⟨fun _ h => h, fun _ h => h, fun _ h => h⟩

end Books.Btree
