import Books.Instr.Code
import Books.Lib.Sim

/-!
# 振り分けの性質
-/

set_option linter.unusedSectionVars false

namespace Books.Instr

open Books.Lib

variable {B : Type} {hash : List UInt8 → UInt32} {mk : Option (List UInt8) → B}
variable {st st' : Table B} {ins : List UInt8} {r : Route} {k : Nat}

/-- 表の不変条件。板の数は、ハッシュの数に、すべてを受ける板を加えたものである。 -/
structure Table.Ok (st : Table B) : Prop where
  length : st.book.length = st.conx.length + st.nctch.toNat
  grow : st.zbook = true → st.nctch = false

theorem ok_initTable (instr : List (List UInt8)) : (initTable hash mk instr).Ok := by
  unfold initTable
  simp only
  split
  · exact ⟨rfl, fun _ => rfl⟩
  · split
    · exact ⟨by simp, fun h => by cases h⟩
    · exact ⟨by simp, fun h => by cases h⟩

theorem initTable_book_eq_nil_iff {instr : List (List UInt8)} : (initTable hash mk instr).book = [] ↔ instr = [] := by
  unfold initTable
  simp only
  split
  · rename_i h
    simp [List.isEmpty_iff.mp h]
  · rename_i h
    have hne : instr ≠ [] := fun he => h (by rw [he]; rfl)
    split
    · simp [hne]
    · rename_i hlen
      have hlen' : 0 < instr.length := List.length_pos_iff.mpr hne
      simp only [List.map_eq_nil_iff, hne, iff_false]
      intro hnil
      rw [hnil] at hlen
      exact hlen hlen'

/-- 板の番号が必ず代入される表。すべてを受ける指定だけの表は、これに当たらない。 -/
def Table.Assigned (st : Table B) : Prop := ¬ (st.conx = [] ∧ st.zbook = false ∧ st.nctch = true)

theorem assigned_initTable_iff {instr : List (List UInt8)} :
    (initTable hash mk instr).Assigned ↔ instr = [] ∨ ∃ n ∈ instr, catchAll n = false := by
  unfold initTable Table.Assigned
  simp only
  split
  · rename_i h
    simp [List.isEmpty_iff.mp h]
  · rename_i h
    have hne : instr ≠ [] := fun he => h (by rw [he]; rfl)
    split
    · simp [hne, List.filter_eq_nil_iff]
    · rename_i hlen
      have hfull : (instr.filter fun n => !catchAll n) = instr :=
        List.filter_sublist.eq_of_length_le (Nat.le_of_not_lt hlen)
      -- 除かれた指定がないので、初めの指定は銘柄である。
      obtain ⟨n, ns, rfl⟩ := List.exists_cons_of_ne_nil hne
      have hn : n ∈ (n :: ns).filter fun n => !catchAll n := by rw [hfull]; exact List.mem_cons_self
      have hcatch : catchAll n = false := by simpa using (List.mem_filter.mp hn).2
      simp only [Bool.false_eq_true, and_false, not_false_eq_true, true_iff]
      exact Or.inr ⟨n, List.mem_cons_self, hcatch⟩

/-- 新しい銘柄の板を加えた表。 -/
def Table.add (hash : List UInt8 → UInt32) (mk : Option (List UInt8) → B) (st : Table B) (ins : List UInt8) : Table B :=
  { st with conx := st.conx ++ [hash ins], book := st.book ++ [mk (some ins)] }

theorem route_cases (h : route hash mk st ins = some (r, st')) :
    (r = .skip ∧ st' = st ∧ hash ins ∉ st.conx ∧ st.nctch = false ∧ st.zbook = false) ∨
    (r = .use (st.conx.idxOf (hash ins)) ∧ st' = st ∧ hash ins ∈ st.conx) ∨
    (r = .use st.conx.length ∧ st' = st ∧ hash ins ∉ st.conx ∧ st.nctch = true) ∨
    (r = .use st.conx.length ∧ st' = st.add hash mk ins ∧ hash ins ∉ st.conx ∧ st.nctch = false ∧ st.zbook = true) := by
  unfold route at h
  split at h
  · rename_i h₀
    obtain ⟨hc, hz⟩ := Bool.and_eq_true_iff.mp h₀
    have hnot : hash ins ∉ st.conx := by rw [List.isEmpty_iff.mp hc]; exact List.not_mem_nil
    split at h
    · cases h
    · rename_i hn
      cases h
      exact Or.inl ⟨rfl, rfl, hnot, by simpa using hn, by simpa using hz⟩
  · split at h
    · rename_i hlt
      cases h
      exact Or.inr (Or.inl ⟨rfl, rfl, List.idxOf_lt_length_iff.mp hlt⟩)
    · rename_i hlt
      have hnot : hash ins ∉ st.conx := fun hm => hlt (List.idxOf_lt_length_iff.mpr hm)
      split at h
      · rename_i hn
        cases h
        exact Or.inr (Or.inr (Or.inl ⟨rfl, rfl, hnot, hn⟩))
      · rename_i hn
        split at h
        · rename_i hz
          cases h
          exact Or.inl ⟨rfl, rfl, hnot, by simpa using hn, by simpa using hz⟩
        · rename_i hz
          cases h
          exact Or.inr (Or.inr (Or.inr ⟨rfl, rfl, hnot, by simpa using hn, by simpa using hz⟩))

/-- 板の番号が代入されないのは、すべてを受ける指定しかないときで、そのときに限る。 -/
theorem route_eq_none_iff : route hash mk st ins = none ↔ ¬ st.Assigned := by
  rw [Table.Assigned, not_not]
  unfold route
  split
  · rename_i h₀
    obtain ⟨hc, hz⟩ := Bool.and_eq_true_iff.mp h₀
    have hz' : st.zbook = false := by simpa using hz
    cases hn : st.nctch with
    | true => simp [List.isEmpty_iff.mp hc, hz']
    | false => simp
  · rename_i h₀
    have hne : ¬ (st.conx = [] ∧ st.zbook = false ∧ st.nctch = true) := by
      rintro ⟨hc, hz, _⟩
      exact h₀ (by rw [hc, hz]; rfl)
    simp only [hne, iff_false]
    repeat' split
    all_goals exact Option.some_ne_none _

theorem Table.Ok.add (h : st.Ok) (hn : st.nctch = false) : (st.add hash mk ins).Ok := by
  refine ⟨?_, h.grow⟩
  rw [Table.add, List.length_append, List.length_append, h.length, hn]
  rfl

theorem Table.Ok.route (h : st.Ok) (hr : Instr.route hash mk st ins = some (r, st')) : st'.Ok := by
  rcases route_cases hr with ⟨_, rfl, _⟩ | ⟨_, rfl, _⟩ | ⟨_, rfl, _⟩ | ⟨_, rfl, _, hn, _⟩
  · exact h
  · exact h
  · exact h
  · exact h.add hn

theorem Table.Assigned.route (h : st.Assigned) (hr : Instr.route hash mk st ins = some (r, st')) : st'.Assigned := by
  rcases route_cases hr with ⟨_, rfl, _⟩ | ⟨_, rfl, _⟩ | ⟨_, rfl, _⟩ | ⟨_, rfl, _⟩
  · exact h
  · exact h
  · exact h
  · rintro ⟨hc, _⟩
    exact absurd hc (by simp [Table.add])

theorem Table.Ok.use_lt (h : st.Ok) (hr : Instr.route hash mk st ins = some (.use k, st')) : k < st'.book.length := by
  rcases route_cases hr with ⟨hk, _⟩ | ⟨hk, rfl, hm⟩ | ⟨hk, rfl, _, hn⟩ | ⟨hk, rfl, _, hn, _⟩
  · cases hk
  · cases hk
    rw [h.length]
    exact Nat.lt_add_right _ (List.idxOf_lt_length_iff.mpr hm)
  · cases hk
    rw [h.length, hn]
    exact Nat.lt_succ_self _
  · cases hk
    rw [(h.add hn).length, Table.add, List.length_append]
    exact Nat.lt_add_right _ (Nat.lt_succ_self _)

theorem Table.Ok.set (h : st.Ok) (k : Nat) (b : B) : Table.Ok { st with book := st.book.set k b } := by
  refine ⟨?_, h.grow⟩
  rw [List.length_set]
  exact h.length

/-- `route` は、ある板を変えない。増えた板は作りたてである。 -/
theorem route_book (hr : route hash mk st ins = some (r, st')) {b : B} (hb : st'.book[k]? = some b) :
    st.book[k]? = some b ∨ (k = st.book.length ∧ b = mk (some ins)) := by
  rcases route_cases hr with ⟨_, rfl, _⟩ | ⟨_, rfl, _⟩ | ⟨_, rfl, _⟩ | ⟨_, rfl, _⟩
  · exact Or.inl hb
  · exact Or.inl hb
  · exact Or.inl hb
  · rw [Table.add] at hb
    rcases Nat.lt_trichotomy k st.book.length with hk | rfl | hk
    · rw [List.getElem?_append_left hk] at hb
      exact Or.inl hb
    · rw [List.getElem?_concat_length] at hb
      cases hb
      exact Or.inr ⟨rfl, rfl⟩
    · rw [List.getElem?_eq_none (by rw [List.length_append]; exact hk)] at hb
      cases hb

/-! ## 二つの表の対応 -/

section Rel
variable {B' : Type} {mk' : Option (List UInt8) → B'} {R : B → B' → Prop} {st₁ : Table B'}

/-- 同じ銘柄の表で、板は `R` で対応する。 -/
structure Table.Rel (R : B → B' → Prop) (st : Table B) (st₁ : Table B') : Prop where
  conx : st.conx = st₁.conx
  nctch : st.nctch = st₁.nctch
  zbook : st.zbook = st₁.zbook
  book : List.Forall₂ R st.book st₁.book

theorem rel_initTable (hmk : ∀ n, R (mk n) (mk' n)) (instr : List (List UInt8)) :
    (initTable hash mk instr).Rel R (initTable hash mk' instr) := by
  have hmap : ∀ names : List (List UInt8),
      List.Forall₂ R (names.map fun n => mk (some n)) (names.map fun n => mk' (some n)) := by
    intro names
    rw [List.forall₂_map_left_iff, List.forall₂_map_right_iff]
    exact List.forall₂_same.mpr (fun n _ => hmk (some n))
  unfold initTable
  simp only
  split
  · exact ⟨rfl, rfl, rfl, .nil⟩
  · split
    · exact ⟨rfl, rfl, rfl, List.rel_append (hmap _) (.cons (hmk _) .nil)⟩
    · exact ⟨rfl, rfl, rfl, hmap _⟩

/-- 対応する表では、同じ番号の板が決まる。 -/
theorem Table.Rel.route (h : st.Rel R st₁) (hmk : ∀ n, R (mk n) (mk' n)) (ins : List UInt8) :
    Option.Rel (fun x y => x.1 = y.1 ∧ x.2.Rel R y.2) (Instr.route hash mk st ins) (Instr.route hash mk' st₁ ins) := by
  unfold Instr.route
  simp only [h.conx, h.nctch, h.zbook]
  split
  · split
    · exact .none
    · exact .some ⟨rfl, h⟩
  · split
    · exact .some ⟨rfl, h⟩
    · split
      · exact .some ⟨rfl, h⟩
      · split
        · exact .some ⟨rfl, h⟩
        · exact .some ⟨rfl, ⟨rfl, rfl, rfl, List.rel_append h.book (.cons (hmk _) .nil)⟩⟩

theorem Table.Rel.set {b : B} {b' : B'} (h : st.Rel R st₁) (k : Nat) (hb : R b b') :
    Table.Rel R { st with book := st.book.set k b } { st₁ with book := st₁.book.set k b' } :=
  ⟨h.conx, h.nctch, h.zbook, forall₂_set h.book k hb⟩

end Rel

end Books.Instr
