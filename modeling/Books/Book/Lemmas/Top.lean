import Books.Book.Lemmas.Ideal
import Books.Book.Top

/-!
# 板の上からの読み出しの性質
-/

set_option linter.unusedSectionVars false

namespace Books.Book

open Books.Btree

/-! ## 見える気配の並び -/

section Levels
variable {K Q : Type} [LinearOrder K] [LinearOrder Q] [Zero Q] {descp : Bool}

theorem levelsFrom_pos (m : OrdMap K Q descp) : ∀ (n : Nat) (last : Option K), ∀ l ∈ levelsFrom m n last, 0 < l.v.q
  | 0, _, _, hl => absurd hl List.not_mem_nil
  | n + 1, last, l, hl => by
      rw [levelsFrom] at hl
      cases hk : m.nextKey last with
      | none =>
          rw [hk] at hl
          exact absurd hl List.not_mem_nil
      | some k =>
          rw [hk] at hl
          rcases List.mem_cons.mp hl with rfl | hl
          · have hfound := List.find?_some (p := fun k => !(m.val k).nilP && last.all fun l => decide (Before descp l k)) hk
            simpa [BtreeVal.nilP] using (Bool.and_eq_true_iff.mp hfound).1
          · exact levelsFrom_pos m n (some k) l hl

end Levels

variable {K Q : Type} [LinearOrder K] [Zero K] [LinearOrder Q] [Field Q]
variable {R : Quantize K Q} {b : Book (OrdMap K Q)} {s : Bool} {q v t : Q} {n : Nat} {f : Fill K Q} {x : BookQuo K Q}

theorem sideLevels_makeBook (s : Bool) : sideLevels (makeBook : Book (OrdMap K Q)) s = [] := by
  cases s <;> rfl

theorem bookTops_pos : ∀ x ∈ bookTops b s n, x.2 ≠ 0 := by
  intro x hx
  obtain ⟨l, hl, rfl⟩ := List.mem_map.mp hx
  exact (levelsFrom_pos _ _ _ l (List.mem_of_mem_take hl)).ne'

theorem bookTops_length : (bookTops b s n).length ≤ n := by
  rw [bookTops, List.length_map]
  exact List.length_take_le n _

/-! ## 繰り返し -/

theorem fill_of_isSome {go : Q → Q → Bool} : ∀ {ls : List (Level K Q)} {c C : Q} {i : Option (Level K Q)},
    i.isSome = true → (fill R go c C i ls).i.isSome = true
  | [], _, _, _, hi => hi
  | l :: ls, c, C, i, hi => by
      rw [fill]
      split
      · exact fill_of_isSome rfl
      · exact hi

/-- 条件が初めは成り立ち、終わりには成り立たなければ、少なくとも一度は進んでいる。 -/
theorem fill_reached {go : Q → Q → Bool} {ls : List (Level K Q)} {c C : Q} {i : Option (Level K Q)} (h₀ : go c C = true)
    (h : go (fill R go c C i ls).c (fill R go c C i ls).C = false) : (fill R go c C i ls).i.isSome = true := by
  cases ls with
  | nil =>
      rw [fill, h₀] at h
      cases h
  | cons l ls =>
      rw [fill, if_pos h₀]
      exact fill_of_isSome rfl

/-- 目標に届いたとき、`i.v` は `NULL` でない。 -/
theorem fillQty_isSome (h : f.i.isSome = true ∨ f.C < t) (hlt : ¬ (fillQty R t f).C < t) :
    (fillQty R t f).i.isSome = true := by
  rcases h with h | h
  · exact fill_of_isSome h
  · exact fill_reached (decide_eq_true h) (decide_eq_false hlt)

theorem fillValue_isSome (h : f.i.isSome = true ∨ f.c < t) (hlt : ¬ (fillValue R t f).c < t) :
    (fillValue R t f).i.isSome = true := by
  rcases h with h | h
  · exact fill_of_isSome h
  · exact fill_reached (decide_eq_true h) (decide_eq_false hlt)

/-! ## まとめた気配 -/

theorem bookTop_priced : (bookTop b s).p.isSome = true := by
  rw [bookTop]
  split <;> rfl

theorem bookCtop_isSome (hq : 0 < q) : ∃ x, bookCtop R b s q = some x ∧ x.p.isSome = true := by
  rw [bookCtop]
  simp only
  split
  · exact ⟨notAQuo, rfl, rfl⟩
  · rename_i hlt
    obtain ⟨l, hl⟩ := Option.isSome_iff_exists.mp (fillQty_isSome (Or.inr hq) hlt)
    rw [hl]
    exact ⟨_, rfl, rfl⟩

theorem bookVtop_isSome (hv : 0 < v) : ∃ x, bookVtop R b s v = some x ∧ x.p.isSome = true := by
  rw [bookVtop]
  simp only
  split
  · exact ⟨notAQuo, rfl, rfl⟩
  · rename_i hlt
    obtain ⟨l, hl⟩ := Option.isSome_iff_exists.mp (fillValue_isSome (Or.inr hv) hlt)
    rw [hl]
    exact ⟨_, rfl, rfl⟩

theorem ctopsLoop_isSome : ∀ {n : Nat} {t : Q} {f : Fill K Q}, (f.i.isSome = true ∨ f.C < t) →
    ∃ l, ctopsLoop R q n t f = some l ∧ l.length ≤ n
  | 0, _, _, _ => ⟨[], rfl, Nat.le_refl 0⟩
  | n + 1, t, f, h => by
      rw [ctopsLoop]
      split
      · exact ⟨[], rfl, Nat.zero_le _⟩
      · rename_i hlt
        have hi := fillQty_isSome h hlt
        obtain ⟨rest, hrest, hlen⟩ := ctopsLoop_isSome (n := n) (t := t + q) (Or.inl hi)
        obtain ⟨l, hl⟩ := Option.isSome_iff_exists.mp hi
        rw [hl, Option.bind_eq_bind, Option.bind_some, hrest]
        exact ⟨_, rfl, Nat.succ_le_succ hlen⟩

theorem vtopsLoop_isSome : ∀ {n : Nat} {t : Q} {f : Fill K Q}, (f.i.isSome = true ∨ f.c < t) →
    ∃ l, vtopsLoop R v n t f = some l ∧ l.length ≤ n
  | 0, _, _, _ => ⟨[], rfl, Nat.le_refl 0⟩
  | n + 1, t, f, h => by
      rw [vtopsLoop]
      split
      · exact ⟨[], rfl, Nat.zero_le _⟩
      · rename_i hlt
        have hi := fillValue_isSome h hlt
        obtain ⟨rest, hrest, hlen⟩ := vtopsLoop_isSome (n := n) (t := t + v) (Or.inl hi)
        obtain ⟨l, hl⟩ := Option.isSome_iff_exists.mp hi
        rw [hl, Option.bind_eq_bind, Option.bind_some, hrest]
        exact ⟨_, rfl, Nat.succ_le_succ hlen⟩

theorem bookCtops_isSome (hq : 0 < q) : ∃ l, bookCtops R b s q n = some l ∧ l.length ≤ n := ctopsLoop_isSome (Or.inr hq)

theorem bookVtops_isSome (hv : 0 < v) : ∃ l, bookVtops R b s v n = some l ∧ l.length ≤ n := vtopsLoop_isSome (Or.inr hv)

/-! ## 空の板 -/

theorem bookTop_makeBook (s : Bool) : bookTop (makeBook : Book (OrdMap K Q)) s = notAQuo := by
  rw [bookTop, sideLevels_makeBook]

theorem bookCtop_makeBook (hq : 0 < q) (s : Bool) : bookCtop R makeBook s q = some notAQuo := by
  rw [bookCtop, Fill.start, sideLevels_makeBook]
  exact if_pos hq

theorem bookVtop_makeBook (hv : 0 < v) (s : Bool) : bookVtop R makeBook s v = some notAQuo := by
  rw [bookVtop, Fill.start, sideLevels_makeBook]
  exact if_pos hv

theorem bookTops_makeBook (s : Bool) : bookTops (makeBook : Book (OrdMap K Q)) s n = [] := by
  rw [bookTops, sideLevels_makeBook, List.take_nil, List.map_nil]

theorem bookCtops_makeBook (hq : 0 < q) (s : Bool) : bookCtops R makeBook s q n = some [] := by
  cases n with
  | zero => rfl
  | succ n =>
      rw [bookCtops, Fill.start, sideLevels_makeBook, ctopsLoop]
      exact if_pos hq

theorem bookVtops_makeBook (hv : 0 < v) (s : Bool) : bookVtops R makeBook s v n = some [] := by
  cases n with
  | zero => rfl
  | succ n =>
      rw [bookVtops, Fill.start, sideLevels_makeBook, vtopsLoop]
      exact if_pos hv

end Books.Book
