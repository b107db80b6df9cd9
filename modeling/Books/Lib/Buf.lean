import Mathlib.Data.List.Range
import Mathlib.Logic.Function.Basic

/-!
# 書き込みを記録する領域

領域 `Buf` は、位置ごとの中身と、書き込んだ位置の記録を持つ。大きさの限りはなく、限りを守るかどうかは、記録から読み取る。
-/

namespace Books.Lib

variable {α : Type}

/-- `mem` は中身、`log` は書き込んだ位置である。 -/
structure Buf (α : Type) where
  mem : Nat → α
  log : List Nat

namespace Buf

variable {b : Buf α} {a : α} {as : List α} {i k n ap bp : Nat}

/-- 何も書き込んでいない領域。 -/
def init (mem : Nat → α) : Buf α := ⟨mem, []⟩

/-- `buf[i] = a`。 -/
def put (b : Buf α) (i : Nat) (a : α) : Buf α := ⟨Function.update b.mem i a, i :: b.log⟩

/-- 位置 `i` から順に書き込む。 -/
def puts (b : Buf α) (i : Nat) : List α → Buf α
  | [] => b
  | a :: as => (b.put i a).puts (i + 1) as

/-- 初めの `n` 個の中身。 -/
def text (b : Buf α) (n : Nat) : List α := (List.range n).map b.mem

/-- 書き込みは、大きさ `n` に収まる。 -/
def Within (b : Buf α) (n : Nat) : Prop := ∀ i ∈ b.log, i < n

/-- `for (; bp > ap; tmp = *bp, *bp-- = *ap, *ap++ = tmp);`。 -/
def flip : Nat → Nat → Buf α → Buf α
  | _, 0, b => b
  | ap, bp + 1, b =>
      if ap < bp + 1 then flip (ap + 1) bp ((b.put (bp + 1) (b.mem ap)).put ap (b.mem (bp + 1))) else b

/-! ## 一つの書き込み -/

@[simp] theorem put_mem_eq (b : Buf α) (i : Nat) (a : α) : (b.put i a).mem i = a := Function.update_self ..

theorem put_mem_ne (h : k ≠ i) : (b.put i a).mem k = b.mem k := Function.update_of_ne h ..

@[simp] theorem put_log (b : Buf α) (i : Nat) (a : α) : (b.put i a).log = i :: b.log := rfl

@[simp] theorem init_log (mem : Nat → α) : (init mem).log = [] := rfl

theorem within_put : (b.put i a).Within n ↔ i < n ∧ b.Within n := List.forall_mem_cons

theorem text_congr {b' : Buf α} (h : ∀ k < n, b.mem k = b'.mem k) : b.text n = b'.text n :=
  List.map_congr_left fun k hk => h k (List.mem_range.1 hk)

theorem text_succ (b : Buf α) (n : Nat) : b.text (n + 1) = b.text n ++ [b.mem n] := by
  rw [text, List.range_succ, List.map_append, List.map_singleton, text]

@[simp] theorem length_text (b : Buf α) (n : Nat) : (b.text n).length = n := by rw [text, List.length_map, List.length_range]

theorem text_put (b : Buf α) (n : Nat) (a : α) : (b.put n a).text (n + 1) = b.text n ++ [a] := by
  rw [text_succ, put_mem_eq, text_congr fun k hk => put_mem_ne (Nat.ne_of_lt hk)]

/-! ## 並びの書き込み -/

theorem mem_log_puts : k ∈ (b.puts i as).log ↔ (i ≤ k ∧ k < i + as.length) ∨ k ∈ b.log := by
  induction as generalizing b i with
  | nil =>
      rw [puts, List.length_nil]
      exact ⟨Or.inr, fun h => h.resolve_left (by omega)⟩
  | cons a as ih =>
      rw [puts, ih, put_log, List.mem_cons, List.length_cons, ← or_assoc]
      exact or_congr (by omega) Iff.rfl

theorem within_puts : (b.puts i as).Within n ↔ (as = [] ∨ i + as.length ≤ n) ∧ b.Within n := by
  constructor
  · intro h
    refine ⟨?_, fun k hk => h k (mem_log_puts.2 (Or.inr hk))⟩
    rcases List.eq_nil_or_concat as with has | ⟨as', a, rfl⟩
    · exact Or.inl has
    · have hlast := h (i + as'.length) (mem_log_puts.2 (Or.inl (by simp)))
      exact Or.inr (by rw [List.concat_eq_append, List.length_append, List.length_singleton]; omega)
  · rintro ⟨has, hb⟩ k hk
    rcases mem_log_puts.1 hk with ⟨_, hlt⟩ | hk
    · rcases has with rfl | hle
      · rw [List.length_nil] at hlt
        omega
      · omega
    · exact hb k hk

/-! ## 反転 -/

theorem flip_mem_out (h : k < ap ∨ bp < k) : (flip ap bp b).mem k = b.mem k := by
  induction bp generalizing ap b with
  | zero => rfl
  | succ bp ih =>
      rw [flip]
      split
      · rw [ih (by omega), put_mem_ne (by omega), put_mem_ne (by omega)]
      · rfl

theorem flip_mem (hlo : ap ≤ k) (hhi : k ≤ bp) : (flip ap bp b).mem k = b.mem (ap + bp - k) := by
  induction bp generalizing ap b with
  | zero =>
      rw [flip, show ap + 0 - k = k by omega]
  | succ bp ih =>
      rw [flip]
      split
      · rcases Nat.eq_or_lt_of_le hlo with rfl | hlt
        · rw [flip_mem_out (by omega), put_mem_eq, Nat.add_sub_cancel_left]
        · rcases Nat.eq_or_lt_of_le hhi with rfl | hlt'
          · rw [flip_mem_out (by omega), put_mem_ne (by omega), put_mem_eq, Nat.add_sub_cancel]
          · rw [ih (by omega) (by omega), put_mem_ne (by omega), put_mem_ne (by omega),
              show ap + 1 + bp - k = ap + (bp + 1) - k by omega]
      · rw [show ap + (bp + 1) - k = k by omega]

/-- 反転は、両端の間だけに書き込む。 -/
theorem mem_log_flip (h : k ∈ (flip ap bp b).log) : (ap ≤ k ∧ k ≤ bp) ∨ k ∈ b.log := by
  induction bp generalizing ap b with
  | zero => exact Or.inr h
  | succ bp ih =>
      rw [flip] at h
      split at h
      · rcases ih h with hk | hk
        · exact Or.inl (by omega)
        · rw [put_log, put_log, List.mem_cons, List.mem_cons] at hk
          rcases hk with rfl | rfl | hk
          · exact Or.inl (by omega)
          · exact Or.inl (by omega)
          · exact Or.inr hk
      · exact Or.inr h

theorem mem_log_flip_of_mem (h : k ∈ b.log) : k ∈ (flip ap bp b).log := by
  induction bp generalizing ap b with
  | zero => exact h
  | succ bp ih =>
      rw [flip]
      split
      · exact ih (List.mem_cons_of_mem _ (List.mem_cons_of_mem _ h))
      · exact h

theorem text_flip (b : Buf α) (n : Nat) : (flip 0 (n - 1) b).text n = (b.text n).reverse := by
  refine List.ext_getElem (by simp) fun k hk _ => ?_
  rw [length_text] at hk
  simp only [text, List.getElem_map, List.getElem_range, List.getElem_reverse, List.length_map, List.length_range]
  rw [flip_mem (Nat.zero_le k) (by omega), Nat.zero_add]

end Buf

end Books.Lib
