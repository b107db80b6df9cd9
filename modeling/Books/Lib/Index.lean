import Mathlib.Data.List.Induction
import Mathlib.Data.Set.Function

/-!
# 並びの中の番号

初めて現れた順に重複を除いた並びと、その中での番号を扱う。単射な `f` で写しても、番号は変わらない。
-/

namespace Books.Lib

variable {α β : Type} {f : α → β} {l : List α} {a : α}

theorem mem_map_of_injOn (hf : Set.InjOn f {x | x ∈ l ∨ x = a}) : f a ∈ l.map f ↔ a ∈ l := by
  constructor
  · intro h
    obtain ⟨b, hb, hba⟩ := List.mem_map.mp h
    rwa [← hf (Or.inl hb) (Or.inr rfl) hba]
  · exact List.mem_map_of_mem

variable [DecidableEq α] [DecidableEq β]

theorem eraseDups_concat (l : List α) (a : α) :
    (l ++ [a]).eraseDups = if a ∈ l then l.eraseDups else l.eraseDups ++ [a] := by
  rw [List.eraseDups_append]
  split
  · rename_i h
    have hnil : [a].removeAll l = [] := by
      rw [List.removeAll, List.filter_eq_nil_iff]
      intro b hb
      rw [List.mem_singleton.mp hb]
      simpa using h
    rw [hnil, List.eraseDups_nil, List.append_nil]
  · rename_i h
    have hself : [a].removeAll l = [a] := by
      rw [List.removeAll, List.filter_eq_self]
      intro b hb
      rw [List.mem_singleton.mp hb]
      simpa using h
    rw [hself]
    rfl

theorem eraseDups_prefix (l l' : List α) : l.eraseDups <+: (l ++ l').eraseDups := by
  rw [List.eraseDups_append]
  exact List.prefix_append _ _

theorem idxOf_map_of_injOn (hf : Set.InjOn f {x | x ∈ l ∨ x = a}) : (l.map f).idxOf (f a) = l.idxOf a := by
  induction l with
  | nil => rfl
  | cons b l ih =>
      have hl : Set.InjOn f {x | x ∈ l ∨ x = a} := hf.mono fun x hx => hx.imp (List.mem_cons_of_mem b) id
      rw [List.map_cons, List.idxOf_cons, List.idxOf_cons, ih hl]
      by_cases h : b = a
      · rw [h, beq_self_eq_true, beq_self_eq_true]
      · have hne : f b ≠ f a := fun he => h (hf (Or.inl List.mem_cons_self) (Or.inr rfl) he)
        rw [beq_eq_false_iff_ne.mpr h, beq_eq_false_iff_ne.mpr hne]

theorem eraseDups_map_of_injOn (hf : Set.InjOn f {x | x ∈ l}) : (l.map f).eraseDups = l.eraseDups.map f := by
  induction l using List.reverseRecOn with
  | nil => rfl
  | append_singleton l a ih =>
      have hl : Set.InjOn f {x | x ∈ l} := hf.mono fun x hx => List.mem_append_left [a] hx
      have ha : Set.InjOn f {x | x ∈ l ∨ x = a} := by
        refine hf.mono fun x hx => ?_
        rcases hx with hx | rfl
        · exact List.mem_append_left _ hx
        · exact List.mem_append_right _ List.mem_cons_self
      rw [List.map_append, List.map_singleton, eraseDups_concat, eraseDups_concat, ih hl]
      simp only [mem_map_of_injOn ha]
      split
      · rfl
      · rw [List.map_append, List.map_singleton]

end Books.Lib
