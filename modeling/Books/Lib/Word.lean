import Mathlib.Data.Nat.Bitwise
import Mathlib.Logic.Function.Basic

/-!
# 語をかき混ぜる演算

固定長の語の、足し算、奇数の掛け算、巡回、ずらした自分との `^` は、どれも単射である。これらを重ねる畳み込みは、初めの値と、
一つの入力の違いを失わない。
-/

namespace Books.Lib

variable {w : Nat}

/-- `(x << r) | (x >> (w - r))`。 -/
def rotl (x : BitVec w) (r : Nat) : BitVec w := x <<< r ||| x >>> (w - r)

/-- `x ^ (x >> k)`。 -/
def xorshr (x : BitVec w) (k : Nat) : BitVec w := x ^^^ x >>> k

/-! ## 単射 -/

theorem add_inj (c : BitVec w) : Function.Injective (fun x : BitVec w => x + c) := fun _ _ h => BitVec.add_left_inj c |>.mp h

theorem mul_inj {c d : BitVec w} (h : c * d = 1#w) : Function.Injective (fun x : BitVec w => x * c) := by
  intro x y hxy
  have hcancel := congrArg (fun z : BitVec w => z * d) hxy
  simpa only [BitVec.mul_assoc, h, BitVec.mul_one] using hcancel

theorem getLsbD_rotl {x : BitVec w} {r j : Nat} (hr : r ≤ w) (hj : j < w) :
    (rotl x r).getLsbD j = if j < r then x.getLsbD (w - r + j) else x.getLsbD (j - r) := by
  rw [rotl, BitVec.getLsbD_or, BitVec.getLsbD_shiftLeft, BitVec.getLsbD_ushiftRight]
  by_cases h : j < r
  · simp [h]
  · simp [h, hj, BitVec.getLsbD_of_ge x (w - r + j) (by omega)]

theorem rotl_inj {r : Nat} (hr : r ≤ w) : Function.Injective (fun x : BitVec w => rotl x r) := by
  intro x y hxy
  have hbit : ∀ j, j < w → (rotl x r).getLsbD j = (rotl y r).getLsbD j := fun j _ => congrArg (fun z => z.getLsbD j) hxy
  refine BitVec.eq_of_getLsbD_eq (fun j hj => ?_)
  by_cases h : j + r < w
  · have hb := hbit (j + r) h
    rw [getLsbD_rotl hr h, getLsbD_rotl hr h, if_neg (by omega), if_neg (by omega), Nat.add_sub_cancel] at hb
    exact hb
  · have hlt : j + r - w < w := by omega
    have hb := hbit (j + r - w) hlt
    rw [getLsbD_rotl hr hlt, getLsbD_rotl hr hlt, if_pos (by omega), if_pos (by omega),
      show w - r + (j + r - w) = j by omega] at hb
    exact hb

/-- 上のビットから順に、元の語が定まる。 -/
theorem xorshr_inj {k : Nat} (hk : 0 < k) : Function.Injective (fun x : BitVec w => xorshr x k) := by
  intro x y hxy
  have hbit : ∀ j, (xorshr x k).getLsbD j = (xorshr y k).getLsbD j := fun j => congrArg (fun z => z.getLsbD j) hxy
  have hhigh : ∀ d j, w ≤ j + d → x.getLsbD j = y.getLsbD j := by
    intro d
    induction d with
    | zero => exact fun j hj => by rw [BitVec.getLsbD_of_ge x j hj, BitVec.getLsbD_of_ge y j hj]
    | succ d ih =>
        intro j hj
        have hb := hbit j
        rw [xorshr, xorshr, BitVec.getLsbD_xor, BitVec.getLsbD_xor, BitVec.getLsbD_ushiftRight, BitVec.getLsbD_ushiftRight,
          ih (k + j) (by omega)] at hb
        simpa using hb
  exact BitVec.eq_of_getLsbD_eq (fun j _ => hhigh w j (by omega))

/-! ## 畳み込み -/

section Fold
variable {α β : Type} {f : α → β → α}

theorem foldl_inj (hf : ∀ x, Function.Injective (fun a => f a x)) (xs : List β) :
    Function.Injective (fun a => xs.foldl f a) := by
  induction xs with
  | nil => exact fun _ _ h => h
  | cons x xs ih => exact fun a b h => hf x (ih h)

/-- 一か所だけ違う並びは、違う値に畳まれる。 -/
theorem foldl_inj_at (hf : ∀ x, Function.Injective (fun a => f a x)) (hg : ∀ a, Function.Injective (fun x => f a x))
    {a : α} {xs zs : List β} {x y : β} (h : (xs ++ x :: zs).foldl f a = (xs ++ y :: zs).foldl f a) : x = y := by
  simp only [List.foldl_append, List.foldl_cons] at h
  exact hg _ (foldl_inj hf zs h)

end Fold

end Books.Lib
