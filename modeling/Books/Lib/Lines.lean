import Mathlib.Data.List.Basic

/-!
# 行への分割

文字列を、区切りで終わる行の列に分ける。行の列を続けた文字列は、同じ行の列に分かれる。
-/

namespace Books.Lib

variable {α : Type} [DecidableEq α] {sep c : α} {s u l : List α} {ls : List (List α)}

/-- `getline` を繰り返して得る行の列。区切りは行の終わりに残る。最後の行は、区切りで終わらなくてもよい。 -/
def getlines (sep : α) : List α → List (List α)
  | [] => []
  | c :: s =>
      if c = sep then [c] :: getlines sep s
      else
        match getlines sep s with
        | [] => [[c]]
        | l :: ls => (c :: l) :: ls

/-- 終わりにだけ区切りのある行。 -/
def IsLine (sep : α) (l : List α) : Prop := ∃ u, sep ∉ u ∧ l = u ++ [sep]

theorem getlines_line (hu : sep ∉ u) (s : List α) : getlines sep (u ++ sep :: s) = (u ++ [sep]) :: getlines sep s := by
  induction u with
  | nil => rw [List.nil_append, List.nil_append, getlines, if_pos rfl]
  | cons c u ih =>
      obtain ⟨hc, hu⟩ := not_or.mp (mt List.mem_cons.mpr hu)
      rw [List.cons_append, getlines, if_neg (Ne.symm hc), ih hu]
      rfl

theorem getlines_flatten (h : ∀ l ∈ ls, IsLine sep l) : getlines sep ls.flatten = ls := by
  induction ls with
  | nil => rfl
  | cons l ls ih =>
      obtain ⟨u, hu, rfl⟩ := h l List.mem_cons_self
      rw [List.flatten_cons, List.append_assoc, List.singleton_append, getlines_line hu,
        ih fun l hl => h l (List.mem_cons_of_mem _ hl)]

/-- 行の途中に、区切りはない。 -/
theorem mem_getlines (h : l ∈ getlines sep s) : ∃ u, sep ∉ u ∧ (l = u ∨ l = u ++ [sep]) := by
  induction s generalizing l with
  | nil => exact absurd h List.not_mem_nil
  | cons c s ih =>
      rw [getlines] at h
      split at h
      · rename_i hc
        rcases List.mem_cons.mp h with rfl | h
        · exact ⟨[], List.not_mem_nil, Or.inr (by rw [hc, List.nil_append])⟩
        · exact ih h
      · rename_i hc
        have hcons : ∀ {u : List α}, sep ∉ u → sep ∉ c :: u := fun hu hm => (List.mem_cons.mp hm).elim (Ne.symm hc) hu
        cases hs : getlines sep s with
        | nil =>
            rw [hs] at h
            cases List.mem_singleton.mp h
            exact ⟨[c], hcons List.not_mem_nil, Or.inl rfl⟩
        | cons l' ls =>
            rw [hs] at h
            rcases List.mem_cons.mp h with rfl | h
            · obtain ⟨u, hu, rfl | rfl⟩ := ih (l := l') (by rw [hs]; exact List.mem_cons_self)
              · exact ⟨c :: l', hcons hu, Or.inl rfl⟩
              · exact ⟨c :: u, hcons hu, Or.inr rfl⟩
            · exact ih (by rw [hs]; exact List.mem_cons_of_mem _ h)

theorem flatten_getlines (sep : α) (s : List α) : (getlines sep s).flatten = s := by
  induction s with
  | nil => rfl
  | cons c s ih =>
      rw [getlines]
      split
      · rw [List.flatten_cons, ih, List.singleton_append]
      · cases hs : getlines sep s with
        | nil =>
            rw [hs] at ih
            rw [← ih]
            rfl
        | cons l ls =>
            rw [hs] at ih
            rw [← ih]
            rfl

theorem mem_of_mem_getlines (h : l ∈ getlines sep s) (hc : c ∈ l) : c ∈ s := by
  rw [← flatten_getlines sep s]
  exact List.mem_flatten.mpr ⟨l, h, hc⟩

end Books.Lib
