import Mathlib.Data.List.Basic

/-!
# 並びの前の部分で成り立つ条件

真になる要素が、偽になる要素より前にある条件 `p` では、`takeWhile` と `dropWhile` は `filter` に一致する。
-/

namespace Books.Lib

variable {α : Type} {p r : α → Bool} {l : List α}

/-- `p` は、並びの前の部分で成り立つ。 -/
def Initial (p : α → Bool) (l : List α) : Prop := l.Pairwise fun a b => p b = true → p a = true

theorem Initial.filter (h : Initial p l) (r : α → Bool) : Initial p (l.filter r) := List.Pairwise.filter r h

theorem takeWhile_eq_filter (h : Initial p l) : l.takeWhile p = l.filter p := by
  induction l with
  | nil => rfl
  | cons a l ih =>
      obtain ⟨ha, hl⟩ := List.pairwise_cons.mp h
      by_cases hp : p a = true
      · rw [List.takeWhile_cons_of_pos hp, List.filter_cons_of_pos hp, ih hl]
      · rw [List.takeWhile_cons_of_neg hp, List.filter_cons_of_neg hp]
        exact (List.filter_eq_nil_iff.mpr (fun b hb hpb => hp (ha b hb hpb))).symm

theorem dropWhile_eq_filter (h : Initial p l) : l.dropWhile p = l.filter fun a => !p a := by
  induction l with
  | nil => rfl
  | cons a l ih =>
      obtain ⟨ha, hl⟩ := List.pairwise_cons.mp h
      by_cases hp : p a = true
      · rw [List.dropWhile_cons_of_pos hp, List.filter_cons_of_neg (by simp [hp]), ih hl]
      · rw [List.dropWhile_cons_of_neg hp, List.filter_eq_self.mpr]
        intro b hb
        rcases List.mem_cons.mp hb with rfl | hb
        · simpa using hp
        · have hpb : ¬ p b = true := fun hpb => hp (ha b hb hpb)
          simpa using hpb

/-- `filter` を、`p` の成り立つ前の部分と、残りに分ける。 -/
theorem filter_split (h : Initial p l) (r : α → Bool) :
    (l.filter fun a => r a && p a) ++ (l.filter fun a => r a && !p a) = l.filter r := by
  have hsplit : (l.filter r).takeWhile p ++ (l.filter r).dropWhile p = l.filter r := List.takeWhile_append_dropWhile
  rw [takeWhile_eq_filter (h.filter r), dropWhile_eq_filter (h.filter r), List.filter_filter, List.filter_filter] at hsplit
  conv_rhs => rw [← hsplit]
  congr 1
  · exact List.filter_congr fun a _ => Bool.and_comm _ _
  · exact List.filter_congr fun a _ => Bool.and_comm _ _

end Books.Lib
