import Mathlib.Data.List.GetD
import Mathlib.Data.List.TakeWhile
import Mathlib.Algebra.Order.Ring.Int

/-!
# 終わりの印のある並びを読む

並び `s` の後に印 `z` が一つ続く領域を、位置で読む。領域の外を読む実行と、上限まで繰り返しても終わらない実行は、
`Fault` になる。
-/

namespace Books.Lib

variable {α β : Type}

/-- `outside i` は、領域の外の位置 `i` を読む誤りである。 -/
inductive Fault
  | outside (i : Int)
  | spin
deriving DecidableEq

/-- `s[i]`。位置は、並びの長さまでである。 -/
def peek (z : α) (s : List α) (i : Int) : Except Fault α :=
  if 0 ≤ i ∧ i ≤ s.length then .ok (s.getD i.toNat z) else .error (.outside i)

/-- `for (; f(*p); p++);`。 -/
def skipWhile (z : α) (s : List α) (f : α → Bool) : Nat → Int → Except Fault Int
  | 0, _ => .error .spin
  | fuel + 1, p => do
      let c ← peek z s p
      if f c then skipWhile z s f fuel (p + 1) else return p

/-- 領域の外を読まない。 -/
def Inside (r : Except Fault β) : Prop := ∀ i, r ≠ .error (.outside i)

variable {z : α} {s : List α} {i : Nat}

@[simp] theorem ok_bind (a : α) (g : α → Except Fault β) : (Except.ok a >>= g) = g a := rfl

@[simp] theorem error_bind (e : Fault) (g : α → Except Fault β) : (Except.error e >>= g) = .error e := rfl

@[simp] theorem pure_ok (b : β) : (pure b : Except Fault β) = .ok b := rfl

theorem inside_ok (b : β) : Inside (.ok b : Except Fault β) := fun _ h => by cases h

theorem inside_spin : Inside (.error .spin : Except Fault β) := fun _ h => by cases h

theorem peek_eq (h : i ≤ s.length) : peek z s i = .ok ((s.drop i).headD z) := by
  have hi : 0 ≤ (i : Int) ∧ (i : Int) ≤ s.length := ⟨Int.natCast_nonneg i, Int.ofNat_le.mpr h⟩
  rw [peek, if_pos hi, Int.toNat_natCast]
  refine congrArg Except.ok ?_
  rcases Nat.lt_or_eq_of_le h with hlt | rfl
  · rw [List.getD_eq_getElem _ _ hlt, List.drop_eq_getElem_cons hlt, List.headD_cons]
  · rw [List.getD_eq_default _ _ (Nat.le_refl _), List.drop_length, List.headD_nil]

theorem peek_neg {i : Int} (h : i < 0) : peek z s i = .error (.outside i) := by
  rw [peek, if_neg (by omega)]

theorem peek_beyond {i : Int} (h : s.length < i) : peek z s i = .error (.outside i) := by
  rw [peek, if_neg (by omega)]

/-- 印で止まる走査は、領域の中で終わる。 -/
theorem skipWhile_eq {f : α → Bool} (hz : f z = false) {fuel : Nat} (h : i ≤ s.length) (hfuel : s.length - i < fuel) :
    skipWhile z s f fuel i = .ok (i + ((s.drop i).takeWhile f).length : Nat) := by
  induction fuel generalizing i with
  | zero => exact absurd hfuel (Nat.not_lt_zero _)
  | succ fuel ih =>
      rw [skipWhile, peek_eq h, ok_bind]
      rcases Nat.lt_or_eq_of_le h with hlt | rfl
      · rw [List.drop_eq_getElem_cons hlt, List.headD_cons, List.takeWhile_cons]
        by_cases hf : f s[i] = true
        · have hnext := ih (i := i + 1) hlt (by omega)
          rw [if_pos hf, if_pos hf, List.length_cons, ← Int.natCast_succ, hnext, Nat.add_right_comm, Nat.add_assoc]
        · rw [if_neg hf, if_neg hf]
          rfl
      · rw [List.drop_length, List.headD_nil, if_neg (by rw [hz]; decide)]
        rfl

end Books.Lib
