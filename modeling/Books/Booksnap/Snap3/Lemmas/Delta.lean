import Books.Book.Lemmas.Ideal
import Books.Booksnap.Snap3.Spec
import Mathlib.Tactic.Abel

/-!
# 差の計算

配列の位置 `bi` で進む `again` を、前の側の残りの並びで進む `merge1` に置き換える。`merge1` は、覚えた気配の外を読む場合に
`none` を返す。
-/

set_option linter.unusedSectionVars false

namespace Books.Booksnap.Snap3

open Books.Btree Books.Book

variable {K Q : Type} [LinearOrder K] [Zero K] [LinearOrder Q] [AddCommGroup Q] {descp : Bool}

/-! ## 数量の和 -/

section Qty
variable {P : Type} [DecidableEq P] {l l' : List (P × Q)} {k p : P} {q : Q}

@[simp] theorem qtyAt_nil : qtyAt ([] : List (P × Q)) k = 0 := rfl

@[simp] theorem qtyAt_cons : qtyAt ((p, q) :: l) k = (if p = k then q else 0) + qtyAt l k := by
  by_cases h : p = k
  · simp [qtyAt, h]
  · simp [qtyAt, h]

@[simp] theorem qtyAt_append : qtyAt (l ++ l') k = qtyAt l k + qtyAt l' k := by
  simp [qtyAt]

theorem qtyAt_of_not_mem (h : k ∉ l.map Prod.fst) : qtyAt l k = 0 := by
  have hnil : (l.filter fun x => decide (x.1 = k)) = [] := by
    refine List.filter_eq_nil_iff.mpr fun x hx hk => h ?_
    rw [← of_decide_eq_true hk]
    exact List.mem_map_of_mem hx
  rw [qtyAt, hnil]
  rfl

end Qty

@[simp] theorem lifted_cons (x : K × Q) (l : List (K × Q)) : lifted (x :: l) = (some x.1, x.2) :: lifted l := rfl

@[simp] theorem lifted_append (l l' : List (K × Q)) : lifted (l ++ l') = lifted l ++ lifted l' := List.map_append

theorem length_lifted (l : List (K × Q)) : (lifted l).length = l.length := List.length_map ..

theorem map_fst_lifted (l : List (K × Q)) : (lifted l).map Prod.fst = (l.map Prod.fst).map some := by
  rw [lifted, List.map_map, List.map_map]
  rfl

theorem qtyAt_lifted (l : List (K × Q)) (k : K) : qtyAt (lifted l) (some k) = qtyAt l k := by
  induction l with
  | nil => rfl
  | cons x l ih =>
      obtain ⟨p, q⟩ := x
      simp [ih]

theorem qtyAt_lifted_none (l : List (K × Q)) : qtyAt (lifted l) none = 0 := by
  refine qtyAt_of_not_mem fun h => ?_
  rw [map_fst_lifted] at h
  obtain ⟨k, _, hk⟩ := List.mem_map.mp h
  cases hk

/-! ## 気配値の比較 -/

theorem ahead_some (a b : K) : ahead descp (some a) (some b) = decide (Before descp a b) := by
  cases descp <;> simp [ahead, pxLt, Before]

theorem notAhead_some (a b : K) : notAhead descp (some a) (some b) = !decide (Before descp a b) := by
  cases descp <;> simp [notAhead, pxLe, Before, ← not_lt]

theorem pxEq_some (a b : K) : pxEq (some a) (some b) = decide (a = b) := rfl

/-! ## 並びの上の差 -/

/-- `again` を、前の側の残りで表したもの。残りと、印字した行を返す。 -/
def merge1 (descp : Bool) (p : K) (q : Q) : List (K × Q) → Option (List (K × Q) × List (K × Q))
  | [] => some ([], [(p, q)])
  | [(p₀, q₀)] => if Before descp p p₀ then some ([(p₀, q₀)], [(p, q)]) else none
  | (p₀, q₀) :: (p₁, q₁) :: rest =>
      if p = p₀ then some ((p₁, q₁) :: rest, [(p, q - q₀)])
      else if Before descp p p₀ then some ((p₀, q₀) :: (p₁, q₁) :: rest, [(p, q)])
      else if Before descp p₁ p then (merge1 descp p q ((p₁, q₁) :: rest)).map fun r => (r.1, (p₀, -q₀) :: r.2)
      else some ((p₁, q₁) :: rest, [(p₀, -q₀)])

/-- `diff` を、前の側の残りで表したもの。 -/
def mergeAll (descp : Bool) (rest : List (K × Q)) : List (K × Q) → Option (List (K × Q) × List (K × Q))
  | [] => some (rest, [])
  | (p, q) :: cur => (merge1 descp p q rest).bind fun r =>
      (mergeAll descp r.1 cur).map fun r' => (r'.1, r.2 ++ r'.2)

/-! ## 配列との対応 -/

section Array
variable {a : Side K Q} {prev : List (K × Q)} {p p₀ : K} {q q₀ : Q} {bi n fuel : Nat} {rest : List (K × Q)}

theorem Remembers.get (ha : Remembers a (lifted prev)) (h : prev.drop bi = (p₀, q₀) :: rest) :
    bi < a.n ∧ a.px bi = some p₀ ∧ a.qx bi = q₀ ∧ prev.drop (bi + 1) = rest := by
  have hlt : bi < prev.length := by
    by_contra hge
    rw [List.drop_eq_nil_of_le (Nat.le_of_not_lt hge)] at h
    cases h
  rw [List.drop_eq_getElem_cons hlt] at h
  obtain ⟨hget, hrest⟩ := List.cons.inj h
  have hlift : (lifted prev)[bi]? = some (some p₀, q₀) := by
    rw [lifted, List.getElem?_map, List.getElem?_eq_getElem hlt, hget]
    rfl
  obtain ⟨hpx, hqx⟩ := ha.2 bi _ hlift
  exact ⟨by rw [ha.1, length_lifted]; exact hlt, hpx, hqx, hrest⟩

theorem Remembers.end (ha : Remembers a (lifted prev)) (h : prev.drop bi = []) : a.n ≤ bi := by
  rw [ha.1, length_lifted]
  exact List.drop_eq_nil_iff.mp h

/-- 並びの上の計算 `m` と、配列の上の計算 `r` の対応。 -/
def Follows (prev : List (K × Q)) (m : Option (List (K × Q) × List (K × Q))) (r : Nat × Delta K Q) : Prop :=
  (∀ rest out, m = some (rest, out) → prev.drop r.1 = rest ∧ r.2.out = lifted out ∧ ∀ j ∈ r.2.used, j < prev.length) ∧
  (m = none → ∃ j ∈ r.2.used, prev.length ≤ j)

theorem follows_some {out : List (K × Q)} {r : Nat × Delta K Q} (h₁ : prev.drop r.1 = rest) (h₂ : r.2.out = lifted out)
    (h₃ : ∀ j ∈ r.2.used, j < prev.length) : Follows prev (some (rest, out)) r := by
  refine ⟨fun rest' out' he => ?_, fun he => absurd he (Option.some_ne_none _)⟩
  cases he
  exact ⟨h₁, h₂, h₃⟩

theorem again_follows (ha : Remembers a (lifted prev)) (hs : prev.Pairwise fun x y => Before descp x.1 y.1)
    (hfuel : a.n - bi < fuel) : Follows prev (merge1 descp p q (prev.drop bi)) (again descp a (some p) q fuel bi) := by
  have hn : a.n = prev.length := by rw [ha.1, length_lifted]
  induction fuel generalizing bi with
  | zero => exact absurd hfuel (Nat.not_lt_zero _)
  | succ fuel ih =>
      match hd : prev.drop bi with
      | [] =>
          have hge := ha.end hd
          have hag : again descp a (some p) q (fuel + 1) bi = (bi, ⟨[(some p, q)], []⟩) := by
            simp [again, choose, hge, Nat.not_lt.mpr hge]
          rw [hag, merge1]
          exact follows_some hd rfl (fun j hj => absurd hj List.not_mem_nil)
      | [(p₀, q₀)] =>
          obtain ⟨hlt, hpx, hqx, hrest⟩ := ha.get hd
          have hend : a.n = bi + 1 := Nat.le_antisymm (ha.end hrest) hlt
          rw [merge1]
          by_cases hb : Before descp p p₀
          · have hag : again descp a (some p) q (fuel + 1) bi = (bi, ⟨[(some p, q)], [bi]⟩) := by
              simp [again, choose, hlt, Nat.not_le.mpr hlt, hpx, pxEq_some, ahead_some, notAhead_some, hb, hb.ne]
            rw [if_pos hb, hag]
            exact follows_some hd rfl (fun j hj => by rw [List.mem_singleton.mp hj, ← hn]; exact hlt)
          · rw [if_neg hb]
            refine ⟨fun _ _ he => absurd he.symm (Option.some_ne_none _), fun _ => ⟨bi + 1, ?_, by omega⟩⟩
            -- 最後の気配を過ぎた後に、その次の位置を読む。
            have hchoose : ∃ d, choose descp a (some p) q bi = some d := by
              unfold choose
              rw [if_neg (Nat.not_le.mpr hlt), hpx, pxEq_some, ahead_some, ahead_some, decide_eq_false hb]
              rcases before_trichotomy descp p p₀ with h | h | h
              · exact absurd h hb
              · simp [h]
              · simp [h, h.ne.symm]
            obtain ⟨d, hd'⟩ := hchoose
            simp only [again, hd', hlt, hpx, notAhead_some, hb, decide_false, Bool.not_false, and_self, if_true]
            split
            · simp [Delta.append]
            · simp
      | (p₀, q₀) :: (p₁, q₁) :: rest =>
          obtain ⟨hlt, hpx, hqx, hrest⟩ := ha.get hd
          obtain ⟨hlt₁, hpx₁, _, _⟩ := ha.get hrest
          have h01 : Before descp p₀ p₁ := by
            have hsub := hs.sublist (List.drop_sublist bi prev)
            rw [hd] at hsub
            exact (List.pairwise_cons.mp hsub).1 _ List.mem_cons_self
          have hused : ∀ j ∈ [bi, bi + 1], j < prev.length := by
            intro j hj
            rw [← hn]
            rcases List.mem_cons.mp hj with rfl | hj
            · exact hlt
            · rw [List.mem_singleton.mp hj]
              exact hlt₁
          rw [merge1]
          by_cases he : p = p₀
          · subst he
            have hag : again descp a (some p) q (fuel + 1) bi = (bi + 1, ⟨[(some p, q - q₀)], [bi, bi + 1]⟩) := by
              simp [again, choose, hlt, Nat.not_le.mpr hlt, hpx, hqx, hpx₁, pxEq_some, ahead_some, notAhead_some, h01.asymm,
                Before.irrefl p]
            rw [if_pos rfl, hag]
            exact follows_some hrest rfl hused
          · rw [if_neg he]
            by_cases hb : Before descp p p₀
            · have hag : again descp a (some p) q (fuel + 1) bi = (bi, ⟨[(some p, q)], [bi]⟩) := by
                simp [again, choose, hlt, Nat.not_le.mpr hlt, hpx, pxEq_some, ahead_some, notAhead_some, hb, hb.ne]
              rw [if_pos hb, hag]
              exact follows_some hd rfl (fun j hj => by rw [List.mem_singleton.mp hj, ← hn]; exact hlt)
            · have hb' : Before descp p₀ p := by
                rcases before_trichotomy descp p p₀ with h | h | h
                · exact absurd h hb
                · exact absurd h he
                · exact h
              rw [if_neg hb]
              by_cases hgo : Before descp p₁ p
              · have hag : again descp a (some p) q (fuel + 1) bi = ((again descp a (some p) q fuel (bi + 1)).1,
                    (⟨[(some p₀, -q₀)], [bi, bi + 1]⟩ : Delta K Q).append (again descp a (some p) q fuel (bi + 1)).2) := by
                  simp [again, choose, hlt, Nat.not_le.mpr hlt, hpx, hqx, hpx₁, pxEq_some, ahead_some, notAhead_some, hb, hb',
                    he, hgo]
                have hnext : a.n - (bi + 1) < fuel := by omega
                have hih := ih hnext
                rw [hrest] at hih
                rw [if_pos hgo, hag]
                refine ⟨fun rest' out he => ?_, fun he => ?_⟩
                · obtain ⟨⟨rest₁, out₁⟩, hm, hr⟩ := Option.map_eq_some_iff.mp he
                  cases hr
                  obtain ⟨h₁, h₂, h₃⟩ := hih.1 _ _ hm
                  refine ⟨h₁, by simp [Delta.append, h₂], fun j hj => ?_⟩
                  rcases List.mem_append.mp hj with hj | hj
                  · exact hused j hj
                  · exact h₃ j hj
                · obtain ⟨j, hj, hge⟩ := hih.2 (Option.map_eq_none_iff.mp he)
                  exact ⟨j, List.mem_append_right _ hj, hge⟩
              · have hag : again descp a (some p) q (fuel + 1) bi = (bi + 1, ⟨[(some p₀, -q₀)], [bi, bi + 1]⟩) := by
                  simp [again, choose, hlt, Nat.not_le.mpr hlt, hpx, hqx, hpx₁, pxEq_some, ahead_some, notAhead_some, hb, hb',
                    he, hgo]
                rw [if_neg hgo, hag]
                exact follows_some hrest rfl hused

/-- `diff` と `mergeAll` の対応。 -/
theorem diff_mergeAll (ha : Remembers a (lifted prev)) (hs : prev.Pairwise fun x y => Before descp x.1 y.1) :
    ∀ (cur : List (K × Q)) (bi : Nat),
    (∀ rest out, mergeAll descp (prev.drop bi) cur = some (rest, out) →
      (diff descp a bi (lifted cur)).out = lifted out ∧ ∀ j ∈ (diff descp a bi (lifted cur)).used, j < prev.length) ∧
    (mergeAll descp (prev.drop bi) cur = none → ∃ j ∈ (diff descp a bi (lifted cur)).used, prev.length ≤ j)
  | [], bi => by
      refine ⟨fun rest out he => ?_, fun he => absurd he (Option.some_ne_none _)⟩
      cases he
      exact ⟨rfl, fun j hj => absurd hj List.not_mem_nil⟩
  | (p, q) :: cur, bi => by
      have hf := again_follows (p := p) (q := q) ha hs (Nat.lt_succ_of_le (Nat.sub_le a.n bi))
      rw [lifted_cons, diff, mergeAll]
      cases hm : merge1 descp p q (prev.drop bi) with
      | none =>
          obtain ⟨j, hj, hge⟩ := hf.2 hm
          exact ⟨fun _ _ he => absurd he.symm (Option.some_ne_none _), fun _ => ⟨j, List.mem_append_left _ hj, hge⟩⟩
      | some r =>
          obtain ⟨h₁, h₂, h₃⟩ := hf.1 _ _ hm
          obtain ⟨h₄, h₅⟩ := diff_mergeAll ha hs cur (again descp a (some p) q (a.n + 1) bi).1
          rw [h₁] at h₄ h₅
          simp only [Option.bind_some]
          refine ⟨fun rest out he => ?_, fun he => ?_⟩
          · obtain ⟨⟨rest', out'⟩, hm', hr⟩ := Option.map_eq_some_iff.mp he
            cases hr
            obtain ⟨h₆, h₇⟩ := h₄ _ _ hm'
            refine ⟨by simp only [Delta.append, h₂, h₆, lifted_append], fun j hj => ?_⟩
            rcases List.mem_append.mp hj with hj | hj
            · exact h₃ j hj
            · exact h₇ j hj
          · obtain ⟨j, hj, hge⟩ := h₅ (Option.map_eq_none_iff.mp he)
            exact ⟨j, List.mem_append_right _ hj, hge⟩

end Array

/-! ## 一つの気配の処理 -/

/-- 消えた気配の行。 -/
def negated (r : List (K × Q)) : List (K × Q) := r.map fun x => (x.1, -x.2)

theorem map_fst_negated (r : List (K × Q)) : (negated r).map Prod.fst = r.map Prod.fst := by
  rw [negated, List.map_map]
  rfl

theorem qtyAt_negated (r : List (K × Q)) (k : K) : qtyAt (negated r) k = -qtyAt r k := by
  induction r with
  | nil => simp [negated]
  | cons x r ih =>
      obtain ⟨p, q⟩ := x
      have hcons : negated ((p, q) :: r) = (p, -q) :: negated r := rfl
      rw [hcons, qtyAt_cons, qtyAt_cons, ih, neg_add]
      split <;> simp

section Step
variable {p k : K} {q q₀ : Q} {x : K × Q} {l rest rest' out r prev cur : List (K × Q)}

theorem merge1_eq (h : rest ≠ []) : merge1 descp p q ((p, q₀) :: rest) = some (rest, [(p, q - q₀)]) := by
  obtain ⟨y, rest, rfl⟩ := List.exists_cons_of_ne_nil h
  rw [merge1, if_pos rfl]

theorem merge1_new (h : Before descp p x.1) : merge1 descp p q (x :: rest) = some (x :: rest, [(p, q)]) := by
  cases rest with
  | nil => rw [merge1, if_pos h]
  | cons y rest => rw [merge1, if_neg h.ne, if_pos h]

/-- `p` より手前の気配は、`p` の前に消える。 -/
theorem merge1_gone (hr : r ≠ []) (hb : ∀ y ∈ r, Before descp y.1 p) (hx : ¬ Before descp x.1 p) :
    merge1 descp p q (r ++ x :: rest) = some (x :: rest, negated r) := by
  induction r with
  | nil => exact absurd rfl hr
  | cons y r ih =>
      have hy := hb y List.mem_cons_self
      cases r with
      | nil => rw [List.singleton_append, merge1, if_neg hy.ne.symm, if_neg hy.asymm, if_neg hx]; rfl
      | cons z r =>
          have hz := hb z (List.mem_cons_of_mem _ List.mem_cons_self)
          have hih := ih (List.cons_ne_nil _ _) (fun w hw => hb w (List.mem_cons_of_mem _ hw))
          rw [List.cons_append] at hih
          rw [List.cons_append, List.cons_append, merge1, if_neg hy.ne.symm, if_neg hy.asymm, if_pos hz, hih]
          rfl

/-- `merge1` の行うこと。 -/
theorem merge1_cases (hs : rest.Pairwise fun x y => Before descp x.1 y.1)
    (h : merge1 descp p q rest = some (rest', out)) :
    (rest = [] ∧ rest' = [] ∧ out = [(p, q)]) ∨
    (∃ q₀, rest = (p, q₀) :: rest' ∧ rest' ≠ [] ∧ out = [(p, q - q₀)]) ∨
    (rest ≠ [] ∧ rest' = rest ∧ out = [(p, q)] ∧ ∀ y ∈ rest, Before descp p y.1) ∨
    (∃ r, r ≠ [] ∧ rest' ≠ [] ∧ rest = r ++ rest' ∧ out = negated r ∧ (∀ y ∈ r, Before descp y.1 p) ∧
      ∀ y ∈ rest', ¬ Before descp y.1 p) := by
  induction rest generalizing out with
  | nil =>
      cases h
      exact Or.inl ⟨rfl, rfl, rfl⟩
  | cons x rest ih =>
      obtain ⟨hx, hs'⟩ := List.pairwise_cons.mp hs
      have hnew : Before descp p x.1 → ∀ y ∈ x :: rest, Before descp p y.1 := by
        intro hb y hy
        rcases List.mem_cons.mp hy with rfl | hy
        · exact hb
        · exact hb.trans (hx y hy)
      by_cases hb : Before descp p x.1
      · rw [merge1_new hb] at h
        cases h
        exact Or.inr (Or.inr (Or.inl ⟨List.cons_ne_nil _ _, rfl, rfl, hnew hb⟩))
      · cases rest with
        | nil =>
            rw [merge1, if_neg hb] at h
            cases h
        | cons y rest =>
            rw [merge1] at h
            split at h
            · rename_i he
              cases h
              subst he
              exact Or.inr (Or.inl ⟨x.2, rfl, List.cons_ne_nil _ _, rfl⟩)
            · rename_i hne
              have hxp : Before descp x.1 p := by
                rcases before_trichotomy descp p x.1 with h' | h' | h'
                · exact absurd h' hb
                · exact absurd h' hne
                · exact h'
              split at h
              · rename_i hyp
                obtain ⟨⟨rest₁, out₁⟩, hm, he⟩ := Option.map_eq_some_iff.mp h
                cases he
                rcases ih hs' hm with ⟨hnil, _⟩ | ⟨q₀, he, _⟩ | ⟨_, _, _, hall⟩ | ⟨r, hr, hrest, he, rfl, hbr, hnb⟩
                · cases hnil
                · cases he
                  exact absurd hyp (Before.irrefl _)
                · exact absurd hyp (hall y List.mem_cons_self).asymm
                · refine Or.inr (Or.inr (Or.inr ⟨x :: r, List.cons_ne_nil _ _, hrest, by rw [he]; rfl, rfl, fun z hz => ?_, hnb⟩))
                  rcases List.mem_cons.mp hz with rfl | hz
                  · exact hxp
                  · exact hbr z hz
              · rename_i hyp
                cases h
                refine Or.inr (Or.inr (Or.inr ⟨[x], List.cons_ne_nil _ _, List.cons_ne_nil _ _, rfl, rfl, ?_, ?_⟩))
                · intro z hz
                  rw [List.mem_singleton.mp hz]
                  exact hxp
                · intro z hz hzp
                  rcases List.mem_cons.mp hz with rfl | hz
                  · exact hyp hzp
                  · exact hyp (((List.pairwise_cons.mp hs').1 z hz).trans hzp)

/-- 印字する気配値は、前の側か、今の側にある。 -/
theorem mergeAll_prices (hs : prev.Pairwise fun x y => Before descp x.1 y.1)
    (h : mergeAll descp prev cur = some (rest, out)) : ∀ k ∈ out.map Prod.fst, k ∈ prev.map Prod.fst ∨ k ∈ cur.map Prod.fst := by
  induction cur generalizing prev out with
  | nil =>
      cases h
      exact fun k hk => absurd hk List.not_mem_nil
  | cons x cur ih =>
      obtain ⟨p, q⟩ := x
      rw [mergeAll, Option.bind_eq_some_iff] at h
      obtain ⟨⟨rest₁, out₁⟩, h₁, h₂⟩ := h
      obtain ⟨⟨rest₂, out₂⟩, h₃, he⟩ := Option.map_eq_some_iff.mp h₂
      cases he
      -- 一つの気配の処理で印字する気配値と、残りの気配値。
      have hstep : (∀ k ∈ out₁.map Prod.fst, k ∈ prev.map Prod.fst ∨ k = p) ∧ rest₁.Sublist prev := by
        rcases merge1_cases hs h₁ with ⟨rfl, rfl, rfl⟩ | ⟨q₀, rfl, _, rfl⟩ | ⟨_, rfl, rfl, _⟩ | ⟨r, _, _, rfl, rfl, _⟩
        · exact ⟨fun k hk => Or.inr (List.mem_singleton.mp hk), List.Sublist.refl _⟩
        · exact ⟨fun k hk => Or.inr (List.mem_singleton.mp hk), List.sublist_cons_self _ _⟩
        · exact ⟨fun k hk => Or.inr (List.mem_singleton.mp hk), List.Sublist.refl _⟩
        · refine ⟨fun k hk => Or.inl ?_, List.sublist_append_right _ _⟩
          rw [map_fst_negated] at hk
          rw [List.map_append]
          exact List.mem_append_left _ hk
      intro k hk
      rw [List.map_append, List.mem_append] at hk
      rcases hk with hk | hk
      · rcases hstep.1 k hk with hk | rfl
        · exact Or.inl hk
        · exact Or.inr List.mem_cons_self
      · rcases ih (hs.sublist hstep.2) h₃ k hk with hk | hk
        · exact Or.inl ((hstep.2.map Prod.fst).subset hk)
        · exact Or.inr (List.mem_cons_of_mem _ hk)

end Step

/-! ## 側の数量 -/

section Sides
variable {x : K × Q} {l l' prev cur out rest r : List (K × Q)} {p k : K} {q : Q}

theorem SideOk.sublist (h : SideOk descp l) (hl : l'.Sublist l) : SideOk descp l' :=
  ⟨h.sorted.sublist hl, fun x hx => h.pos x (hl.subset hx)⟩

theorem SideOk.tail (h : SideOk descp (x :: l)) : SideOk descp l := h.sublist (List.sublist_cons_self _ _)

theorem SideOk.head_before (h : SideOk descp (x :: l)) : ∀ y ∈ l, Before descp x.1 y.1 := (List.pairwise_cons.mp h.sorted).1

/-- `k` より後の気配だけの側には、`k` の気配がない。 -/
theorem not_mem_of_before (h : ∀ y ∈ l, Before descp k y.1) : k ∉ l.map Prod.fst := by
  intro hk
  obtain ⟨y, hy, he⟩ := List.mem_map.mp hk
  exact (h y hy).ne he.symm

theorem qtyAt_mem (h : SideOk descp l) (hx : x ∈ l) : qtyAt l x.1 = x.2 := by
  induction l with
  | nil => exact absurd hx List.not_mem_nil
  | cons y l ih =>
      obtain ⟨p, q⟩ := y
      rw [qtyAt_cons]
      rcases List.mem_cons.mp hx with rfl | hx
      · rw [if_pos rfl, qtyAt_of_not_mem (not_mem_of_before h.head_before), add_zero]
      · rw [if_neg (h.head_before x hx).ne, zero_add, ih h.tail hx]

/-- `k` だけに数量 `q` のある側は、ただ一つの気配からなる。 -/
theorem eq_singleton_of_qtyAt (h : SideOk descp l) (hne : l ≠ []) (hq : ∀ k, qtyAt l k = if p = k then q else 0) :
    l = [(p, q)] := by
  have hmem : ∀ x ∈ l, x = (p, q) := by
    intro x hx
    have hx' := hq x.1
    rw [qtyAt_mem h hx] at hx'
    by_cases he : p = x.1
    · rw [if_pos he] at hx'
      exact Prod.ext he.symm hx'
    · rw [if_neg he] at hx'
      exact absurd hx' (h.pos x hx).ne'
  obtain ⟨y, l, rfl⟩ := List.exists_cons_of_ne_nil hne
  cases l with
  | nil => rw [hmem y List.mem_cons_self]
  | cons z l =>
      have hyz := h.head_before z List.mem_cons_self
      rw [hmem y List.mem_cons_self, hmem z (List.mem_cons_of_mem _ List.mem_cons_self)] at hyz
      exact absurd hyz (Before.irrefl _)

/-- 前の側に差を加えると、今の側になる。 -/
def Nets (prev cur out : List (K × Q)) : Prop := ∀ k, qtyAt prev k + qtyAt out k = qtyAt cur k

theorem nets_eq {q₀ : Q} : Nets ((p, q₀) :: prev) ((p, q) :: cur) ((p, q - q₀) :: out) ↔ Nets prev cur out := by
  refine forall_congr' fun k => ?_
  simp only [qtyAt_cons]
  by_cases h : p = k
  · simp only [if_pos h]
    have he : q₀ + qtyAt prev k + (q - q₀ + qtyAt out k) = q + (qtyAt prev k + qtyAt out k) := by abel
    rw [he, add_right_inj]
  · simp only [if_neg h, zero_add]

theorem nets_new : Nets prev ((p, q) :: cur) ((p, q) :: out) ↔ Nets prev cur out := by
  refine forall_congr' fun k => ?_
  simp only [qtyAt_cons]
  rw [add_left_comm, add_right_inj]

theorem nets_gone : Nets (r ++ prev) cur (negated r ++ out) ↔ Nets prev cur out := by
  refine forall_congr' fun k => ?_
  simp only [qtyAt_append, qtyAt_negated]
  have he : qtyAt r k + qtyAt prev k + (-qtyAt r k + qtyAt out k) = qtyAt prev k + qtyAt out k := by abel
  rw [he]

/-- 消えた気配の後で印字しなかった気配 `p` は、次の気配の前に消えるか、どこにもない。 -/
theorem lost_level (hrest : SideOk descp rest) (hcur : SideOk descp (x :: cur)) (hp : ∀ y ∈ rest, ¬ Before descp y.1 p)
    (hx : Before descp p x.1) (hne : rest ≠ []) (h : mergeAll descp rest (x :: cur) = some (l, out)) :
    qtyAt rest p + qtyAt out p = 0 := by
  have hlater : ∀ y ∈ x :: cur, Before descp p y.1 := by
    intro y hy
    rcases List.mem_cons.mp hy with rfl | hy
    · exact hx
    · exact hx.trans (hcur.head_before y hy)
  have hafter : p ∉ (x :: cur).map Prod.fst := not_mem_of_before hlater
  by_cases hmem : p ∈ rest.map Prod.fst
  · -- `p` は残りの先頭にあり、次の気配の前に消える。
    obtain ⟨y, rest', rfl⟩ := List.exists_cons_of_ne_nil hne
    have hy : y.1 = p := by
      obtain ⟨z, hz, rfl⟩ := List.mem_map.mp hmem
      rcases List.mem_cons.mp hz with rfl | hz
      · rfl
      · exact absurd (hrest.head_before z hz) (hp y List.mem_cons_self)
    obtain ⟨p', q'⟩ := x
    rw [mergeAll, Option.bind_eq_some_iff] at h
    obtain ⟨⟨rest₁, out₁⟩, h₁, h₂⟩ := h
    obtain ⟨⟨rest₂, out₂⟩, h₃, he⟩ := Option.map_eq_some_iff.mp h₂
    cases he
    rcases merge1_cases hrest.sorted h₁ with ⟨hnil, _⟩ | ⟨q₀, he, _⟩ | ⟨_, _, _, hall⟩ | ⟨r, hr, _, he, rfl, hbr, _⟩
    · cases hnil
    · obtain ⟨rfl, _⟩ := List.cons.inj he
      exact absurd hy.symm hx.ne
    · rw [← hy] at hx
      exact absurd hx (hall y List.mem_cons_self).asymm
    · obtain ⟨z, r, rfl⟩ := List.exists_cons_of_ne_nil hr
      rw [List.cons_append] at he
      obtain ⟨rfl, rfl⟩ := List.cons.inj he
      have hrest₁ : SideOk descp rest₁ := hrest.sublist ((List.sublist_append_right _ _).trans (List.sublist_cons_self _ _))
      have hnot : p ∉ out₂.map Prod.fst := by
        intro hk
        rcases mergeAll_prices hrest₁.sorted h₃ p hk with hk | hk
        · rw [← hy] at hk
          have hrest' : ∀ w ∈ rest₁, Before descp y.1 w.1 := fun w hw => hrest.head_before w (List.mem_append_right _ hw)
          exact not_mem_of_before hrest' hk
        · exact hafter (List.mem_cons_of_mem _ hk)
      have hnot₁ : p ∉ rest₁.map Prod.fst := by
        rw [← hy]
        exact not_mem_of_before fun w hw => hrest.head_before w (List.mem_append_right _ hw)
      have happ : y :: (r ++ rest₁) = (y :: r) ++ rest₁ := rfl
      rw [happ, qtyAt_append, qtyAt_append, qtyAt_negated, qtyAt_of_not_mem hnot, qtyAt_of_not_mem hnot₁]
      abel
  · have hout : p ∉ out.map Prod.fst := by
      intro hk
      rcases mergeAll_prices hrest.sorted h p hk with hk | hk
      · exact hmem hk
      · exact hafter hk
    rw [qtyAt_of_not_mem hmem, qtyAt_of_not_mem hout, add_zero]

theorem nodup_prices {cur : List (K × Q)} (h : SideOk descp cur) : (cur.map Prod.fst).Nodup := by
  rw [List.nodup_iff_pairwise_ne]
  exact h.sorted.map _ fun _ _ hab => hab.ne

/-- 差が正しければ、前の側と今の側は `Untroubled` の形をとる。 -/
theorem untroubled_of_nets (hprev : SideOk descp prev) (hcur : SideOk descp cur) (hne : prev ≠ [])
    (h : mergeAll descp prev cur = some (rest, out)) (hnet : Nets prev cur out) :
    ∃ a r c x, prev = a ++ r ++ [x] ∧ cur = c ++ [x] ∧ r ≠ [] ∧ (∀ y ∈ a, y.1 ∈ c.map Prod.fst) ∧
      ∀ y ∈ c, ∀ z ∈ r, Before descp y.1 z.1 := by
  induction cur generalizing prev out with
  | nil =>
      cases h
      obtain ⟨y, l, rfl⟩ := List.exists_cons_of_ne_nil hne
      have hy := hnet y.1
      rw [qtyAt_mem hprev List.mem_cons_self, qtyAt_nil, add_zero] at hy
      exact absurd hy (hprev.pos y List.mem_cons_self).ne'
  | cons x cur ih =>
      obtain ⟨p, q⟩ := x
      have hall := h
      rw [mergeAll, Option.bind_eq_some_iff] at h
      obtain ⟨⟨rest₁, out₁⟩, h₁, h₂⟩ := h
      obtain ⟨⟨rest₂, out₂⟩, h₃, he⟩ := Option.map_eq_some_iff.mp h₂
      cases he
      rcases merge1_cases hprev.sorted h₁ with ⟨hnil, _⟩ | ⟨q₀, rfl, hrest, rfl⟩ | ⟨_, rfl, rfl, hnew⟩ |
        ⟨r, hr, hrest, rfl, rfl, hbr, hnb⟩
      · exact absurd hnil hne
      · obtain ⟨a, r, c, x, rfl, rfl, hr, hac, hcr⟩ := ih hprev.tail hcur.tail hrest h₃ (nets_eq.mp hnet)
        refine ⟨(p, q₀) :: a, r, (p, q) :: c, x, rfl, rfl, hr, fun y hy => ?_, fun y hy z hz => ?_⟩
        · rcases List.mem_cons.mp hy with rfl | hy
          · exact List.mem_cons_self
          · exact List.mem_cons_of_mem _ (hac y hy)
        · rcases List.mem_cons.mp hy with rfl | hy
          · exact hprev.head_before z (List.mem_append_left _ (List.mem_append_right _ hz))
          · exact hcr y hy z hz
      · obtain ⟨a, r, c, x, rfl, rfl, hr, hac, hcr⟩ := ih hprev hcur.tail hne h₃ (nets_new.mp hnet)
        refine ⟨a, r, (p, q) :: c, x, rfl, rfl, hr, fun y hy => List.mem_cons_of_mem _ (hac y hy), fun y hy z hz => ?_⟩
        rcases List.mem_cons.mp hy with rfl | hy
        · exact hnew z (List.mem_append_left _ (List.mem_append_right _ hz))
        · exact hcr y hy z hz
      · have hside : SideOk descp rest₁ := hprev.sublist (List.sublist_append_right _ _)
        have hnet' := nets_gone.mp hnet
        cases cur with
        | nil =>
            cases h₃
            have hlast : rest₁ = [(p, q)] := by
              refine eq_singleton_of_qtyAt hside hrest fun k => ?_
              have hk := hnet' k
              rw [qtyAt_nil, add_zero, qtyAt_cons, qtyAt_nil, add_zero] at hk
              exact hk
            subst hlast
            exact ⟨[], r, [], (p, q), rfl, rfl, hr, fun y hy => absurd hy List.not_mem_nil,
              fun y hy => absurd hy List.not_mem_nil⟩
        | cons x cur =>
            have hpx := hcur.head_before x List.mem_cons_self
            have hzero := lost_level hside hcur.tail hnb hpx hrest h₃
            have hp := hnet' p
            rw [hzero, qtyAt_mem hcur List.mem_cons_self] at hp
            exact absurd hp.symm (hcur.pos _ List.mem_cons_self).ne'

/-- `Untroubled` の形であれば、差は正しく、同じ気配値を二度印字しない。 -/
theorem nets_of_untroubled {a c : List (K × Q)} (hr : r ≠ []) (hprev : SideOk descp (a ++ r ++ [x]))
    (hcur : SideOk descp (c ++ [x])) (hac : ∀ y ∈ a, y.1 ∈ c.map Prod.fst) (hcr : ∀ y ∈ c, ∀ z ∈ r, Before descp y.1 z.1) :
    ∃ rest out, mergeAll descp (a ++ r ++ [x]) (c ++ [x]) = some (rest, out) ∧ Nets (a ++ r ++ [x]) (c ++ [x]) out ∧
      (out.map Prod.fst).Nodup := by
  induction c generalizing a with
  | nil =>
      have ha : a = [] := by
        cases a with
        | nil => rfl
        | cons y a => exact absurd (hac y List.mem_cons_self) List.not_mem_nil
      subst ha
      obtain ⟨p, q⟩ := x
      have hb : ∀ y ∈ r, Before descp y.1 p :=
        fun y hy => (List.pairwise_append.mp hprev.sorted).2.2 y hy _ List.mem_cons_self
      have hm : merge1 descp p q (r ++ [(p, q)]) = some ([(p, q)], negated r) :=
        merge1_gone (x := (p, q)) hr hb (Before.irrefl p)
      refine ⟨[(p, q)], negated r ++ [], ?_, ?_, ?_⟩
      · rw [List.nil_append, List.nil_append, mergeAll, hm]
        rfl
      · rw [List.nil_append, List.nil_append, nets_gone]
        intro k
        rw [qtyAt_nil, add_zero]
      · rw [List.append_nil, map_fst_negated]
        exact nodup_prices (hprev.sublist (List.sublist_append_left _ _))
  | cons y c ih =>
      obtain ⟨p, q⟩ := y
      have hcons : ((p, q) :: c) ++ [x] = (p, q) :: (c ++ [x]) := rfl
      have hcr' : ∀ y ∈ c, ∀ z ∈ r, Before descp y.1 z.1 := fun y hy => hcr y (List.mem_cons_of_mem _ hy)
      rw [hcons] at hcur ⊢
      -- 今の側の先頭と一致する前の気配は、`a` の先頭にある。
      by_cases hhead : ∃ q₀ a', a = (p, q₀) :: a'
      · obtain ⟨q₀, a', rfl⟩ := hhead
        have hne : a' ++ r ++ [x] ≠ [] := by simp
        have hac' : ∀ y ∈ a', y.1 ∈ c.map Prod.fst := by
          intro y hy
          rcases List.mem_cons.mp (hac y (List.mem_cons_of_mem _ hy)) with he | hy'
          · exact absurd he (hprev.head_before y (List.mem_append_left _ (List.mem_append_left _ hy))).ne.symm
          · exact hy'
        obtain ⟨rest, out, h₁, h₂, h₃⟩ := ih hprev.tail hcur.tail hac' hcr'
        refine ⟨rest, (p, q - q₀) :: out, ?_, nets_eq.mpr h₂, ?_⟩
        · have happ : (p, q₀) :: a' ++ r ++ [x] = (p, q₀) :: (a' ++ r ++ [x]) := rfl
          rw [happ, mergeAll, merge1_eq hne, Option.bind_some]
          simp only [h₁, Option.map_some]
          rfl
        · refine List.nodup_cons.mpr ⟨fun hk => ?_, h₃⟩
          rcases mergeAll_prices hprev.tail.sorted h₁ p hk with hk | hk
          · exact not_mem_of_before hprev.head_before hk
          · exact not_mem_of_before hcur.head_before hk
      · have hac' : ∀ y ∈ a, y.1 ∈ c.map Prod.fst := by
          intro y hy
          rcases List.mem_cons.mp (hac y hy) with he | hy'
          · obtain ⟨z, a', rfl⟩ := List.exists_cons_of_ne_nil (List.ne_nil_of_mem hy)
            rcases List.mem_cons.mp hy with rfl | hy
            · have hp : y.1 = p := he
              exact absurd ⟨y.2, a', by rw [← hp]⟩ hhead
            · -- 先頭の `z` は `p` より手前にあるが、今の側にはない。
              have hz : Before descp z.1 y.1 :=
                hprev.head_before y (List.mem_append_left _ (List.mem_append_left _ hy))
              rcases List.mem_cons.mp (hac z List.mem_cons_self) with he' | hz'
              · rw [he, he'] at hz
                exact absurd hz (Before.irrefl _)
              · obtain ⟨w, hw, hwz⟩ := List.mem_map.mp hz'
                have hpw := hcur.head_before w (List.mem_append_left _ hw)
                rw [hwz] at hpw
                rw [he] at hz
                exact absurd hz hpw.asymm
          · exact hy'
        obtain ⟨rest, out, h₁, h₂, h₃⟩ := ih hprev hcur.tail hac' hcr'
        have hfront : ∀ y ∈ a ++ r ++ [x], Before descp p y.1 := by
          intro y hy
          rcases List.mem_append.mp hy with hy | hy
          · rcases List.mem_append.mp hy with hy | hy
            · obtain ⟨w, hw, hwy⟩ := List.mem_map.mp (hac' y hy)
              rw [← hwy]
              exact hcur.head_before w (List.mem_append_left _ hw)
            · exact hcr (p, q) List.mem_cons_self y hy
          · exact hcur.head_before y (List.mem_append_right _ hy)
        obtain ⟨y, l, hl⟩ := List.exists_cons_of_ne_nil (show a ++ r ++ [x] ≠ [] by simp)
        have hm : merge1 descp p q (a ++ r ++ [x]) = some (a ++ r ++ [x], [(p, q)]) := by
          rw [hl]
          exact merge1_new (hfront y (by rw [hl]; exact List.mem_cons_self))
        refine ⟨rest, (p, q) :: out, ?_, nets_new.mpr h₂, ?_⟩
        · rw [mergeAll, hm, Option.bind_some]
          simp only [h₁, Option.map_some]
          rfl
        · refine List.nodup_cons.mpr ⟨fun hk => ?_, h₃⟩
          rcases mergeAll_prices hprev.sorted h₁ p hk with hk | hk
          · exact not_mem_of_before hfront hk
          · exact not_mem_of_before hcur.head_before hk

end Sides

theorem mergeAll_nil (cur : List (K × Q)) : mergeAll descp [] cur = some ([], cur) := by
  induction cur with
  | nil => rfl
  | cons x cur ih =>
      obtain ⟨p, q⟩ := x
      rw [mergeAll, merge1, Option.bind_some]
      simp only [ih]
      rfl

/-! ## 理想の木の側 -/

theorem iterList_rest : ∀ (ks : List K) (fuel : Nat) (m : OrdMap K Q descp) (last : Option K), m.rest last = ks →
    ks.length < fuel → iterList fuel m last = ks.map fun k => (some k, (m.val k).q)
  | _, 0, _, _, _, hf => absurd hf (Nat.not_lt_zero _)
  | [], fuel + 1, m, last, hr, _ => by
      have hn : m.nextKey last = none := by rw [m.nextKey_eq, hr]; rfl
      simp [iterList, BTree.iterNext, hn]
  | p :: ks, fuel + 1, m, last, hr, hf => by
      have hn : m.nextKey last = some p := by rw [m.nextKey_eq, hr]; rfl
      have hih := iterList_rest ks fuel m (some p) (OrdMap.rest_cons hr rfl fun _ _ => rfl) (Nat.lt_of_succ_lt_succ hf)
      simp only [iterList, BTree.iterNext, hn, Option.some_or, Option.isSome_some, if_true, List.map_cons, hih]
      rfl

theorem rest_none (m : OrdMap K Q descp) : m.rest none = m.keys.filter fun k => !(m.val k).nilP := by
  simp [OrdMap.rest]

/-- 反復で読む側は、理想の木の見える気配である。 -/
theorem levels_ordMap (b : Book (OrdMap K Q)) (s : Bool) : levels b s = lifted (shownSide (b.get s)) := by
  have hlist := iterList_rest ((b.get s).rest none) ((b.get s).keys.length + 1) (b.get s) none rfl
    (Nat.lt_succ_of_le ((b.get s).rest_length none))
  refine hlist.trans ?_
  rw [shownSide, lifted, List.map_map, rest_none]
  rfl

theorem sideOk_shownSide (m : OrdMap K Q descp) : SideOk descp (shownSide m) := by
  rw [shownSide, ← rest_none]
  refine ⟨(m.rest_sorted none).map _ fun a b hab => hab, fun x hx => ?_⟩
  obtain ⟨k, hk, rfl⟩ := List.mem_map.mp hx
  have hlive := OrdMap.mem_rest_none.mp hk
  simpa [BtreeVal.nilP] using hlive

/-- 差が正しく印字されるのは、`Untroubled` の形のときで、そのときに限る。 -/
theorem accounts_iff {a : Side K Q} {prev cur : List (K × Q)} (ha : Remembers a (lifted prev)) (hprev : SideOk descp prev)
    (hcur : SideOk descp cur) : Accounts prev cur (diff descp a 0 (lifted cur)) ↔ Untroubled descp prev cur := by
  obtain ⟨hsome, hnone⟩ := diff_mergeAll ha hprev.sorted cur 0
  rw [List.drop_zero] at hsome hnone
  have hnets : ∀ out, (∀ k, qtyAt (lifted prev) k + qtyAt (lifted out) k = qtyAt (lifted cur) k) ↔ Nets prev cur out := by
    intro out
    constructor
    · intro h k
      have hk := h (some k)
      rwa [qtyAt_lifted, qtyAt_lifted, qtyAt_lifted] at hk
    · intro h k
      cases k with
      | none => rw [qtyAt_lifted_none, qtyAt_lifted_none, qtyAt_lifted_none, add_zero]
      | some k => rw [qtyAt_lifted, qtyAt_lifted, qtyAt_lifted]; exact h k
  have hnodup : ∀ out : List (K × Q), ((lifted out).map Prod.fst).Nodup ↔ (out.map Prod.fst).Nodup := by
    intro out
    rw [map_fst_lifted]
    exact List.nodup_map_iff (Option.some_injective K)
  constructor
  · rintro ⟨hnet, _, hused⟩
    cases hm : mergeAll descp prev cur with
    | none =>
        obtain ⟨j, hj, hge⟩ := hnone hm
        exact absurd (hused j hj) (Nat.not_lt.mpr hge)
    | some r =>
        obtain ⟨hout, _⟩ := hsome _ _ hm
        rw [hout] at hnet
        by_cases hne : prev = []
        · exact Or.inl hne
        · exact Or.inr (untroubled_of_nets hprev hcur hne hm ((hnets _).mp hnet))
  · intro h
    have hmerge : ∃ rest out, mergeAll descp prev cur = some (rest, out) ∧ Nets prev cur out ∧ (out.map Prod.fst).Nodup := by
      rcases h with rfl | ⟨a, r, c, x, rfl, rfl, hr, hac, hcr⟩
      · exact ⟨[], cur, mergeAll_nil cur, fun k => by rw [qtyAt_nil, zero_add], nodup_prices hcur⟩
      · exact nets_of_untroubled hr hprev hcur hac hcr
    obtain ⟨rest, out, hm, hnet, hnd⟩ := hmerge
    obtain ⟨hout, hused⟩ := hsome _ _ hm
    exact ⟨by rw [hout]; exact (hnets _).mpr hnet, by rw [hout]; exact (hnodup _).mpr hnd, hused⟩

end Books.Booksnap.Snap3
