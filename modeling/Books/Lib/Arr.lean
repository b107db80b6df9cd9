import Mathlib.Data.List.Basic
import Mathlib.Tactic.Common

/-!
# 固定長の配列

C の配列 `a[n]` を、長さが `n` のリストとして表す。`memcpy`・`memmove` は `copy`、配列の終わりまでの `memset` は
`fill`、`for (i = 0; i < m && p(a[i]); i++);` の形の走査は `scan` で表す。
-/

namespace Books.Lib

/-- 長さ `n` の配列。 -/
structure Arr (n : Nat) (α : Type) where
  toList : List α
  length_eq : toList.length = n

/-- 条件 `p` を満たす要素が先頭から続く個数。ただし `m` 個で打ち切る。 -/
def scanList {α : Type} (p : α → Bool) : Nat → List α → Nat
  | 0, _ => 0
  | _ + 1, [] => 0
  | m + 1, x :: xs => if p x then scanList p m xs + 1 else 0

namespace Arr

variable {α : Type} {n : Nat}

def const (n : Nat) (x : α) : Arr n α := ⟨List.replicate n x, List.length_replicate⟩

/-- 範囲の外の読み出しは `default` を返す。 -/
def get [Inhabited α] (a : Arr n α) (i : Nat) : α := a.toList.getD i default

def set (a : Arr n α) (i : Nat) (x : α) : Arr n α := ⟨a.toList.set i x, by simp [a.length_eq]⟩

/-- `src[s..s+len)` を `dst[d..d+len)` へ写す。範囲の外に出る写しは行わない。 -/
def copy (dst : Arr n α) (d : Nat) (src : Arr n α) (s len : Nat) : Arr n α :=
  if h : d + len ≤ n ∧ s + len ≤ n then
    ⟨dst.toList.take d ++ ((src.toList.drop s).take len ++ dst.toList.drop (d + len)), by
      have h₁ := dst.length_eq
      have h₂ := src.length_eq
      simp only [List.length_append, List.length_take, List.length_drop]
      omega⟩
  else dst

/-- 添字 `d` から終わりまでを `x` で埋める。 -/
def fill (a : Arr n α) (d : Nat) (x : α) : Arr n α :=
  ⟨a.toList.take d ++ List.replicate (n - d) x, by
    have h := a.length_eq
    simp only [List.length_append, List.length_take, List.length_replicate]
    omega⟩

def scan (p : α → Bool) (m : Nat) (a : Arr n α) : Nat := scanList p m a.toList

theorem scanList_le (p : α → Bool) : ∀ (m : Nat) (l : List α), scanList p m l ≤ m
  | 0, _ => Nat.le_refl _
  | m + 1, [] => Nat.zero_le _
  | m + 1, x :: xs => by
      have := scanList_le p m xs
      simp only [scanList]
      split <;> omega

theorem scan_le (p : α → Bool) (m : Nat) (a : Arr n α) : a.scan p m ≤ m := scanList_le p m a.toList

/-! ## 読み出し -/

section Get
variable [Inhabited α]

theorem get_eq (a : Arr n α) (i : Nat) : a.get i = (a.toList[i]?).getD default := by
  simp [get]

theorem get_const {i : Nat} (x : α) (hi : i < n) : (const n x).get i = x := by
  simp [get_eq, const, hi]

theorem get_set_eq (a : Arr n α) {i : Nat} (x : α) (hi : i < n) : (a.set i x).get i = x := by
  simp [get_eq, set, a.length_eq, hi]

theorem get_set_ne (a : Arr n α) {i j : Nat} (x : α) (h : i ≠ j) : (a.set i x).get j = a.get j := by
  simp [get_eq, set, h]

theorem get_set (a : Arr n α) {i : Nat} (j : Nat) (x : α) (hi : i < n) :
    (a.set i x).get j = if j = i then x else a.get j := by
  by_cases h : j = i
  · subst h; simp [get_set_eq a x hi]
  · simp [h, get_set_ne a x (Ne.symm h)]

theorem get_copy (dst src : Arr n α) {d s len : Nat} (hd : d + len ≤ n) (hs : s + len ≤ n) (j : Nat) :
    (dst.copy d src s len).get j = if d ≤ j ∧ j < d + len then src.get (j - d + s) else dst.get j := by
  have h₁ := dst.length_eq
  have h₂ := src.length_eq
  simp only [get_eq, copy, hd, hs, and_self, ↓reduceDIte, List.getElem?_append, List.length_take,
    List.getElem?_take, List.getElem?_drop, List.length_drop]
  by_cases h1 : j < d
  · have : j < min d dst.toList.length := by omega
    simp [this, h1, show ¬ (d ≤ j ∧ j < d + len) by omega]
  · have hn : ¬ j < min d dst.toList.length := by omega
    by_cases h2 : j < d + len
    · have e : s + (j - d) = j - d + s := by omega
      simp [hn, h2, show d ≤ j by omega, show j - min d dst.toList.length = j - d by omega,
        show j - d < min len (src.toList.length - s) by omega, show j - d < len by omega, e]
    · simp [hn, h2, show j - min d dst.toList.length = j - d by omega,
        show ¬ (j - d < min len (src.toList.length - s)) by omega,
        show d + len + (j - d - min len (src.toList.length - s)) = j by omega]

theorem get_fill (a : Arr n α) (d : Nat) (x : α) {j : Nat} (hj : j < n) :
    (a.fill d x).get j = if d ≤ j then x else a.get j := by
  have h := a.length_eq
  simp only [get_eq, fill, List.getElem?_append, List.length_take, List.getElem?_take,
    List.getElem?_replicate]
  by_cases h1 : j < d
  · simp [show j < min d a.toList.length by omega, h1, show ¬ d ≤ j by omega]
  · simp [show ¬ j < min d a.toList.length by omega, show d ≤ j by omega,
      show j - min d a.toList.length < n - d by omega]

/-! ## どの要素も満たす条件 -/

/-- 範囲の外の読み出しも含めて、どの要素も `P` を満たす。 -/
def All (P : α → Prop) (a : Arr n α) : Prop := ∀ i, P (a.get i)

namespace All
variable {P : α → Prop} {a dst src : Arr n α} {x : α}

theorem const (hd : P default) (hx : P x) : (Arr.const n x).All P := by
  intro i
  by_cases hi : i < n
  · rw [get_const x hi]; exact hx
  · rw [get_eq, List.getElem?_eq_none (by rw [(Arr.const n x).length_eq]; exact Nat.le_of_not_lt hi)]
    exact hd

theorem set (ha : a.All P) (hx : P x) (i : Nat) : (a.set i x).All P := by
  intro j
  by_cases hi : i < n
  · rw [get_set a j x hi]
    split
    · exact hx
    · exact ha j
  · have hout : (a.set i x).get j = a.get j := by
      simp only [get_eq, Arr.set]
      rw [List.set_eq_of_length_le (by rw [a.length_eq]; exact Nat.le_of_not_lt hi)]
    rw [hout]; exact ha j

theorem copy (hd : dst.All P) (hs : src.All P) (d s len : Nat) : (dst.copy d src s len).All P := by
  intro j
  by_cases hin : d + len ≤ n ∧ s + len ≤ n
  · rw [get_copy dst src hin.1 hin.2]
    split
    · exact hs _
    · exact hd j
  · rw [Arr.copy, dif_neg hin]; exact hd j

theorem fill (hd : P default) (ha : a.All P) (hx : P x) (d : Nat) : (a.fill d x).All P := by
  intro j
  by_cases hj : j < n
  · rw [get_fill a d x hj]
    split
    · exact hx
    · exact ha j
  · rw [get_eq, List.getElem?_eq_none (by rw [(a.fill d x).length_eq]; exact Nat.le_of_not_lt hj)]
    exact hd

end All

/-! ## 走査 -/

theorem scanList_holds (p : α → Bool) : ∀ (m : Nat) (l : List α) (j : Nat), j < scanList p m l →
    p ((l[j]?).getD default) = true
  | 0, _, j, h => by simp [scanList] at h
  | m + 1, [], j, h => by simp [scanList] at h
  | m + 1, x :: xs, j, h => by
      simp only [scanList] at h
      split at h
      · rename_i hx
        cases j with
        | zero => simpa using hx
        | succ j => simpa using scanList_holds p m xs j (by omega)
      · omega

theorem scanList_stop (p : α → Bool) : ∀ (m : Nat) (l : List α), m ≤ l.length → scanList p m l < m →
    p ((l[scanList p m l]?).getD default) = false
  | 0, _, _, h => by simp [scanList] at h
  | m + 1, [], hl, _ => by simp at hl
  | m + 1, x :: xs, hl, h => by
      simp only [scanList] at h ⊢
      split
      · rename_i hx
        simp only [hx, ↓reduceIte] at h
        simpa using scanList_stop p m xs (by simpa using hl) (by omega)
      · rename_i hx
        simpa using hx

theorem scan_holds {p : α → Bool} {m j : Nat} {a : Arr n α} (h : j < a.scan p m) : p (a.get j) = true := by
  rw [get_eq]; exact scanList_holds p m a.toList j h

theorem scan_stop {p : α → Bool} {m : Nat} {a : Arr n α} (hm : m ≤ n) (h : a.scan p m < m) :
    p (a.get (a.scan p m)) = false := by
  rw [get_eq]; exact scanList_stop p m a.toList (by rw [a.length_eq]; exact hm) h

/-- 走査の結果は、`p` が最初に破れる添字である。 -/
theorem scan_eq {p : α → Bool} {m i : Nat} {a : Arr n α} (hm : m ≤ n) (hi : i ≤ m)
    (hp : ∀ j, j < i → p (a.get j) = true) (hs : i < m → p (a.get i) = false) : a.scan p m = i := by
  rcases Nat.lt_trichotomy (a.scan p m) i with h | h | h
  · have := scan_stop hm (show a.scan p m < m by omega)
    rw [hp _ h] at this; cases this
  · exact h
  · have := scan_holds h
    have hle := scan_le p m a
    rw [hs (by omega)] at this; cases this

/-- 走査が終わりまで進むのは、どの要素も `p` を満たすときである。 -/
theorem le_scan_iff {p : α → Bool} {m : Nat} {a : Arr n α} (hm : m ≤ n) :
    m ≤ a.scan p m ↔ ∀ j, j < m → p (a.get j) = true := by
  constructor
  · exact fun h j hj => scan_holds (Nat.lt_of_lt_of_le hj h)
  · intro h
    by_contra hlt
    have hlt' : a.scan p m < m := by omega
    have hs := scan_stop hm hlt'
    rw [h _ hlt'] at hs; cases hs

theorem scan_congr {p q : α → Bool} {m : Nat} {a b : Arr n α} (hm : m ≤ n)
    (h : ∀ j, j < m → p (a.get j) = q (b.get j)) : a.scan p m = b.scan q m := by
  refine scan_eq hm (scan_le q m b) (fun j hj => ?_) (fun hs => ?_)
  · rw [h j (Nat.lt_of_lt_of_le hj (scan_le q m b))]; exact scan_holds hj
  · rw [h _ hs]; exact scan_stop hm hs

end Get

end Arr

/-! ## 穴の移動

添字 `nul` の要素を捨て、間の要素をずらして、添字 `i` に空きを作る。新しい配列の添字 `j ≠ i` の要素は、
元の配列の添字 `slot i nul j` の要素である。 -/

def slot (i nul j : Nat) : Nat :=
  if i < j ∧ j ≤ nul then j - 1 else if nul ≤ j ∧ j < i then j + 1 else j

theorem slot_of_up {i nul j : Nat} (h : i < j ∧ j ≤ nul) : slot i nul j = j - 1 := if_pos h

theorem slot_of_down {i nul j : Nat} (h : nul ≤ j ∧ j < i) : slot i nul j = j + 1 := by
  unfold slot
  rw [if_neg (by omega), if_pos h]

theorem slot_of_out {i nul j : Nat} (h₁ : ¬ (i < j ∧ j ≤ nul)) (h₂ : ¬ (nul ≤ j ∧ j < i)) : slot i nul j = j := by
  unfold slot
  rw [if_neg h₁, if_neg h₂]

theorem slot_ne_hole {i nul j : Nat} (h : j ≠ i) : slot i nul j ≠ nul := by
  unfold slot
  split
  · omega
  · split <;> omega

theorem slot_lt_slot {i nul j j' : Nat} (hj : j ≠ i) (hj' : j' ≠ i) (h : j < j') :
    slot i nul j < slot i nul j' := by
  unfold slot
  split <;> split <;> first | omega | (split <;> first | omega | (split <;> omega))

theorem slot_succ {i nul j : Nat} (h₁ : j ≠ i) (h₂ : j ≠ i + 1) : slot (i + 1) nul j = slot i nul j := by
  by_cases h₃ : i < j ∧ j ≤ nul
  · rw [slot_of_up h₃, slot_of_up (by omega)]
  · by_cases h₄ : nul ≤ j ∧ j < i
    · rw [slot_of_down h₄, slot_of_down (by omega)]
    · rw [slot_of_out h₃ h₄, slot_of_out (by omega) (by omega)]

/-- 穴でない添字には、移した先の添字がある。 -/
theorem slot_slot {i nul m : Nat} (h : m ≠ nul) : slot i nul (slot nul i m) = m := by
  have key : ∀ x, x = slot nul i m → slot i nul x = m := by
    intro x hx
    unfold slot at hx ⊢
    split at hx
    · split
      · omega
      · split <;> omega
    · split at hx
      · split
        · omega
        · split <;> omega
      · split
        · omega
        · split <;> omega
  exact key _ rfl

namespace Arr

variable {α : Type} {n : Nat} [Inhabited α]

/-- `memmove(a + i + 1, a + i, nul - i)` の後の読み出し。 -/
theorem get_copy_up (a : Arr n α) {i nul : Nat} (h : i < nul) (hn : nul < n) (j : Nat) :
    (a.copy (i + 1) a i (nul - i)).get j = a.get (slot i nul j) := by
  rw [get_copy a a (by omega) (by omega)]
  by_cases h₁ : i < j ∧ j ≤ nul
  · rw [if_pos (by omega), slot_of_up h₁]; congr 1; omega
  · rw [if_neg (by omega), slot_of_out h₁ (by omega)]

/-- `memmove(a + nul, a + nul + 1, len)` の後の読み出し。`len` は、空ける添字 `i` の手前までか `i` まで。 -/
theorem get_copy_down (a : Arr n α) {i nul j len : Nat} (h : nul ≤ i) (hl : len = i - nul ∨ len = i + 1 - nul)
    (hn : nul + 1 + len ≤ n) (hj : j ≠ i) :
    (a.copy nul a (nul + 1) len).get j = a.get (slot i nul j) := by
  rw [get_copy a a (by omega) (by omega)]
  by_cases h₁ : nul ≤ j ∧ j < i
  · rw [if_pos (by omega), slot_of_down h₁]; congr 1; omega
  · rw [if_neg (by omega), slot_of_out (by omega) h₁]

end Arr
end Books.Lib
