import Books.Instr.Lemmas
import Books.Instr.Spec
import Books.Lib.Index

/-!
# 行を加えるべき板の性質

`route` は、加えるべき板を選ぶ。加えるべき板は、行が続いても変わらない。
-/

set_option linter.unusedSectionVars false

namespace Books.Instr

open Books.Book Books.Xquo Books.Lib

variable {α B : Type} [DecidableEq α] {key : List UInt8 → α} {hash : List UInt8 → UInt32} {mk : Option (List UInt8) → B}
variable {st st' : Table B} {instr seen more : List (List UInt8)} {ins : List UInt8} {r : Route} {k : Nat}

/-! ## 板の銘柄 -/

theorem keys_of_ne_nil (h : instr ≠ []) : keys key instr seen = (instr.filter fun n => !catchAll n).map key := by
  rw [keys, if_neg h]

theorem keys_nil : keys key [] seen = (seen.map key).eraseDups := by
  rw [keys, if_pos rfl]

theorem mem_keys_nil {a : α} : a ∈ keys key [] seen ↔ a ∈ seen.map key := by
  rw [keys_nil, List.mem_eraseDups]

theorem keys_concat : keys key instr (seen ++ [ins]) =
    if instr = [] ∧ key ins ∉ keys key instr seen then keys key instr seen ++ [key ins] else keys key instr seen := by
  by_cases h : instr = []
  · subst h
    simp only [mem_keys_nil, true_and]
    rw [keys_nil, keys_nil, List.map_append, List.map_singleton, eraseDups_concat]
    by_cases hm : key ins ∈ seen.map key
    · rw [if_pos hm, if_neg (not_not.mpr hm)]
    · rw [if_neg hm, if_pos hm]
  · rw [if_neg (fun hc => h hc.1), keys_of_ne_nil h, keys_of_ne_nil h]

/-- 行が続いても、板の番号は変わらない。 -/
theorem owner_append (hmem : ins ∈ seen) : owner key instr (seen ++ more) ins = owner key instr seen ins := by
  by_cases h : instr = []
  · subst h
    have hm : key ins ∈ keys key [] seen := mem_keys_nil.mpr (List.mem_map_of_mem hmem)
    have hm' : key ins ∈ keys key [] (seen ++ more) :=
      mem_keys_nil.mpr (List.mem_map_of_mem (List.mem_append_left more hmem))
    rw [owner, owner, if_pos hm, if_pos hm']
    rw [keys_nil] at hm ⊢
    obtain ⟨l, hl⟩ := eraseDups_prefix (seen.map key) (more.map key)
    rw [keys_nil, List.map_append, ← hl, List.idxOf_append_of_mem hm]
  · rw [owner, owner, keys_of_ne_nil h, keys_of_ne_nil h]

theorem owner_of_prefix {all : List (List UInt8)} (hpre : seen <+: all) (hmem : ins ∈ seen) :
    owner key instr all ins = owner key instr seen ins := by
  obtain ⟨more, rfl⟩ := hpre
  exact owner_append hmem

/-! ## ハッシュでの比較 -/

theorem keys_map_of_injOn (h : Set.InjOn key (names instr seen)) : keys key instr seen = (keys id instr seen).map key := by
  by_cases hi : instr = []
  · rw [hi, keys_nil, keys_nil, List.map_id]
    exact eraseDups_map_of_injOn (h.mono fun n hn => Or.inr hn)
  · rw [keys_of_ne_nil hi, keys_of_ne_nil hi, List.map_id]

theorem mem_names_of_mem_keys {n : List UInt8} (h : n ∈ keys id instr seen) : n ∈ names instr seen := by
  by_cases hi : instr = []
  · rw [hi, mem_keys_nil, List.map_id] at h
    exact Or.inr h
  · rw [keys_of_ne_nil hi, List.map_id] at h
    obtain ⟨hn, hc⟩ := List.mem_filter.mp h
    exact Or.inl ⟨hn, by simpa using hc⟩

/-- ハッシュが銘柄を区別すれば、銘柄そのもので比べても同じ板になる。 -/
theorem owner_of_injOn (h : Set.InjOn key (names instr seen)) (hmem : ins ∈ seen) :
    owner key instr seen ins = owner id instr seen ins := by
  have hinj : Set.InjOn key {n | n ∈ keys id instr seen ∨ n = ins} := by
    refine h.mono fun n hn => ?_
    rcases hn with hn | rfl
    · exact mem_names_of_mem_keys hn
    · exact Or.inr hmem
  rw [owner, owner, keys_map_of_injOn h, idxOf_map_of_injOn hinj, List.length_map]
  simp only [mem_map_of_injOn hinj, id]

/-! ## 表 -/

/-- 銘柄の列 `seen` の行を受け付けた後の表。 -/
structure Table.Follows (hash : List UInt8 → UInt32) (instr seen : List (List UInt8)) (st : Table B) : Prop where
  ok : st.Ok
  conx : st.conx = keys hash instr seen
  nctch : st.nctch = instr.any catchAll
  zbook : st.zbook = instr.isEmpty

theorem follows_initTable : (initTable hash mk instr).Follows hash instr [] := by
  refine ⟨ok_initTable instr, ?_, ?_, ?_⟩ <;> unfold initTable <;> simp only
  · split
    · rename_i h
      rw [List.isEmpty_iff.mp h]
      rfl
    · rename_i h
      rw [keys_of_ne_nil (fun he => h (by rw [he]; rfl))]
      split <;> rfl
  · split
    · rename_i h
      rw [List.isEmpty_iff.mp h]
      rfl
    · split
      · rename_i hlt
        rw [List.length_filter_lt_length_iff_exists] at hlt
        obtain ⟨n, hn, hc⟩ := hlt
        exact (List.any_eq_true.mpr ⟨n, hn, by simpa using hc⟩).symm
      · rename_i hlt
        have hfull : (instr.filter fun n => !catchAll n) = instr :=
          List.filter_sublist.eq_of_length_le (Nat.le_of_not_lt hlt)
        symm
        rw [List.any_eq_false]
        intro n hn
        rw [← hfull] at hn
        simpa using (List.mem_filter.mp hn).2
  · split
    · rename_i h
      exact h.symm
    · rename_i h
      have hfalse : instr.isEmpty = false := by simpa using h
      rw [hfalse]
      split <;> rfl

/-- 行を受け付けた後も、表は銘柄の列に従う。板は、加えるべき板である。 -/
theorem Table.Follows.route (h : st.Follows hash instr seen) (hr : Instr.route hash mk st ins = some (r, st')) :
    st'.Follows hash instr (seen ++ [ins]) ∧ Designates (owner hash instr (seen ++ [ins]) ins) (some (r, st')) := by
  have hkeys : ∀ {l : List UInt32}, keys hash instr (seen ++ [ins]) = l →
      owner hash instr (seen ++ [ins]) ins = if hash ins ∈ l then some (l.idxOf (hash ins))
        else if instr.any catchAll then some l.length else none := fun hl => by rw [owner, hl]
  have hok := h.ok.route hr
  have hconx := h.conx
  rcases route_cases hr with ⟨rfl, rfl, hm, hn, hz⟩ | ⟨rfl, rfl, hm⟩ | ⟨rfl, rfl, hm, hn⟩ | ⟨rfl, rfl, hm, hn, hz⟩
  · rw [hconx] at hm
    have hne : instr ≠ [] := fun he => by simp [h.zbook, he] at hz
    have hk : keys hash instr (seen ++ [ins]) = keys hash instr seen := by
      rw [keys_concat, if_neg (fun hc => hne hc.1)]
    refine ⟨⟨hok, hconx.trans hk.symm, h.nctch, h.zbook⟩, ?_⟩
    rw [hkeys hk, if_neg hm, if_neg (by rw [← h.nctch, hn]; exact Bool.false_ne_true)]
    exact ⟨st', rfl⟩
  · have hlt := List.idxOf_lt_length_iff.mpr hm
    rw [hconx] at hm
    have hk : keys hash instr (seen ++ [ins]) = keys hash instr seen := by
      rw [keys_concat, if_neg (fun hc => hc.2 hm)]
    refine ⟨⟨hok, hconx.trans hk.symm, h.nctch, h.zbook⟩, ?_⟩
    rw [hkeys hk, if_pos hm, ← hconx]
    exact ⟨st', rfl, Nat.lt_add_right _ hlt⟩
  · rw [hconx] at hm
    have hne : instr ≠ [] := fun he => by simp [h.nctch, he] at hn
    have hk : keys hash instr (seen ++ [ins]) = keys hash instr seen := by
      rw [keys_concat, if_neg (fun hc => hne hc.1)]
    refine ⟨⟨hok, hconx.trans hk.symm, h.nctch, h.zbook⟩, ?_⟩
    rw [hkeys hk, if_neg hm, if_pos (h.nctch ▸ hn), ← hconx]
    exact ⟨st', rfl, by rw [hn]; exact Nat.lt_succ_self _⟩
  · rw [hconx] at hm
    have hnil : instr = [] := by
      rw [h.zbook] at hz
      exact List.isEmpty_iff.mp hz
    have hk : keys hash instr (seen ++ [ins]) = keys hash instr seen ++ [hash ins] := by
      rw [keys_concat, if_pos ⟨hnil, hm⟩]
    refine ⟨⟨hok, ?_, h.nctch, h.zbook⟩, ?_⟩
    · rw [Table.add, hk, hconx]
    · rw [hkeys hk, if_pos (List.mem_append_right _ List.mem_cons_self), List.idxOf_append_of_notMem hm,
        List.idxOf_cons_self, ← hconx]
      refine ⟨st.add hash mk ins, rfl, ?_⟩
      rw [Table.add, List.length_append]
      exact Nat.lt_add_right _ (Nat.lt_succ_self _)

theorem Designates.use_iff {o : Option Nat} (h : Designates o (some (r, st))) : r = .use k ↔ o = some k := by
  cases o with
  | none =>
      obtain ⟨tab, he⟩ := h
      cases he
      simp
  | some k₀ =>
      obtain ⟨tab, he, _⟩ := h
      cases he
      simp

theorem Table.Follows.set (h : st.Follows hash instr seen) (k : Nat) (b : B) :
    Table.Follows hash instr seen { st with book := st.book.set k b } :=
  ⟨h.ok.set k b, h.conx, h.nctch, h.zbook⟩

/-- `route` の後の板。使う板のほかは変わらない。 -/
theorem Table.Ok.route_book (h : st.Ok) (hr : Instr.route hash mk st ins = some (r, st')) (j : Nat) : st'.book[j]? =
    if r = .use j then some (st.book[j]?.getD (mk (some ins))) else st.book[j]? := by
  have hsame : ∀ k, k < st.book.length → st.book[j]? =
      if Route.use k = .use j then some (st.book[j]?.getD (mk (some ins))) else st.book[j]? := by
    intro k hk
    split
    · rename_i he
      cases he
      rw [List.getElem?_eq_getElem hk]
      rfl
    · rfl
  have hlt := h.length
  rcases route_cases hr with ⟨rfl, rfl, _⟩ | ⟨rfl, rfl, hm⟩ | ⟨rfl, rfl, _, hn⟩ | ⟨rfl, rfl, _, hn, _⟩
  · rw [if_neg Route.noConfusion]
  · exact hsame _ (Nat.lt_of_lt_of_le (List.idxOf_lt_length_iff.mpr hm) (by omega))
  · rw [hn] at hlt
    exact hsame _ (by rw [hlt]; exact Nat.lt_succ_self _)
  · rw [hn, Bool.toNat_false, Nat.add_zero] at hlt
    rw [← hlt, Table.add]
    by_cases hj : st.book.length = j
    · rw [if_pos (by rw [hj]), ← hj, List.getElem?_concat_length, List.getElem?_eq_none (Nat.le_refl _)]
      rfl
    · rw [if_neg (fun he => hj (Route.use.inj he)), List.getElem?_append]
      split
      · rfl
      · rename_i hge
        have hlast : [mk (some ins)].length ≤ j - st.book.length := by
          rw [List.length_singleton]
          omega
        rw [List.getElem?_eq_none hlast, List.getElem?_eq_none (Nat.le_of_not_lt hge)]

theorem initTable_book {b : B} (hb : b ∈ (initTable hash mk instr).book) : ∃ n, b = mk n := by
  unfold initTable at hb
  simp only at hb
  split at hb
  · exact absurd hb List.not_mem_nil
  · split at hb
    · rcases List.mem_append.mp hb with hb | hb
      · obtain ⟨n, _, rfl⟩ := List.mem_map.mp hb
        exact ⟨_, rfl⟩
      · rw [List.mem_singleton.mp hb]
        exact ⟨_, rfl⟩
    · obtain ⟨n, _, rfl⟩ := List.mem_map.mp hb
      exact ⟨_, rfl⟩

/-! ## 受け付ける行 -/

section Lines
variable {K Q : Type} [Zero K] [Zero Q] {C : Codec K Q} {acc : Xquo K Q → Prop} [DecidablePred acc]
variable {lines done all : List (List UInt8)} {line : List UInt8} {x : Xquo K Q}

theorem insList_append : insList C acc (done ++ lines) = insList C acc done ++ insList C acc lines := List.filterMap_append

theorem insList_singleton (hx : readXquo C line = some x) :
    insList C acc [line] = if acc x then [insOf line x] else [] := by
  rw [insList]
  split
  · rename_i ha
    rw [List.filterMap_cons_some (by rw [hx, Option.bind_some, if_pos ha])]
    rfl
  · rename_i ha
    rw [List.filterMap_cons_none (by rw [hx, Option.bind_some, if_neg ha])]
    rfl

theorem ownQuos_singleton (hx : readXquo C line = some x) : ownQuos C acc instr all k [line] =
    if acc x ∧ owner id instr all (insOf line x) = some k then [x.q] else [] := by
  rw [ownQuos]
  split
  · rename_i ha
    rw [List.filterMap_cons_some (by rw [hx, Option.bind_some, if_pos ha])]
    rfl
  · rename_i ha
    rw [List.filterMap_cons_none (by rw [hx, Option.bind_some, if_neg ha])]
    rfl

theorem ownQuos_cons : ownQuos C acc instr all k (line :: lines) =
    ownQuos C acc instr all k [line] ++ ownQuos C acc instr all k lines := by
  rw [← List.singleton_append, ownQuos, List.filterMap_append]
  rfl

/-- 途中で選ぶ板は、銘柄の列の全体から選ぶ板である。 -/
theorem owner_of_done (hinj : Set.InjOn hash (names instr all)) {seen : List (List UInt8)} (hpre : seen ++ [ins] <+: all) :
    owner hash instr (seen ++ [ins]) ins = owner id instr all ins := by
  have hmem : ins ∈ seen ++ [ins] := List.mem_append_right _ List.mem_cons_self
  rw [← owner_of_prefix hpre hmem, owner_of_injOn hinj (hpre.subset hmem)]

/-- 受け付ける行までの行は、どれも読める。 -/
theorem readable_append {pre : List (List UInt8)} (hpre : ∀ l ∈ pre, (readXquo C l).isSome = true) :
    readable C (pre ++ lines) = pre ++ readable C lines := by
  rw [readable, List.takeWhile_append_of_pos hpre]
  rfl

theorem readable_cons (hx : readXquo C line = some x) : readable C (line :: lines) = line :: readable C lines := by
  rw [readable, List.takeWhile_cons, hx]
  rfl

theorem mem_readable {pre post : List (List UInt8)} (hpre : ∀ l ∈ pre, (readXquo C l).isSome = true)
    (hx : readXquo C line = some x) : line ∈ readable C (pre ++ line :: post) := by
  rw [readable_append hpre, readable_cons hx]
  exact List.mem_append_right _ List.mem_cons_self

/-- 受け付ける最初の行で、行の列を分ける。 -/
theorem exists_first (h : ∃ line ∈ readable C lines, ∃ x, readXquo C line = some x ∧ acc x) :
    ∃ pre line post x, lines = pre ++ line :: post ∧ (∀ l ∈ pre, ∃ y, readXquo C l = some y ∧ ¬ acc y) ∧
      readXquo C line = some x ∧ acc x := by
  induction lines with
  | nil =>
      obtain ⟨_, hmem, _⟩ := h
      exact absurd hmem List.not_mem_nil
  | cons line lines ih =>
      obtain ⟨line', hmem, x', hx', ha'⟩ := h
      cases hx : readXquo C line with
      | none =>
          rw [readable, List.takeWhile_cons, hx] at hmem
          exact absurd hmem List.not_mem_nil
      | some x =>
          by_cases ha : acc x
          · exact ⟨[], line, lines, x, rfl, fun l hl => absurd hl List.not_mem_nil, hx, ha⟩
          · rw [readable_cons hx] at hmem
            rcases List.mem_cons.mp hmem with rfl | hmem
            · rw [hx] at hx'
              cases hx'
              exact absurd ha' ha
            · obtain ⟨pre, line₁, post, x₁, rfl, hpre, hx₁, ha₁⟩ := ih ⟨line', hmem, x', hx', ha'⟩
              refine ⟨line :: pre, line₁, post, x₁, rfl, fun l hl => ?_, hx₁, ha₁⟩
              rcases List.mem_cons.mp hl with rfl | hl
              · exact ⟨x, hx, ha⟩
              · exact hpre l hl

theorem insList_ne_nil_iff : insList C acc lines ≠ [] ↔ ∃ line ∈ lines, ∃ x, readXquo C line = some x ∧ acc x := by
  constructor
  · intro h
    obtain ⟨n, hn⟩ := List.exists_mem_of_ne_nil _ h
    obtain ⟨line, hmem, h⟩ := List.mem_filterMap.mp hn
    obtain ⟨x, hx, h⟩ := Option.bind_eq_some_iff.mp h
    split at h
    · rename_i ha
      exact ⟨line, hmem, x, hx, ha⟩
    · cases h
  · rintro ⟨line, hmem, x, hx, ha⟩
    have hins : insOf line x ∈ insList C acc lines := by
      refine List.mem_filterMap.mpr ⟨line, hmem, ?_⟩
      rw [hx, Option.bind_some, if_pos ha]
    exact List.ne_nil_of_mem hins

end Lines

end Books.Instr
