import Books.Book2book.Amortised.Spec
import Books.Book2book.Lemmas.Modes
import Books.Book2book.Lemmas.Routing
import Books.Book2book.Lemmas.Unwind
import Books.Book2book.Theorems

/-!
# `prq` を呼ぶ回数

一つの気配が、見えている気配をいくつ巻き戻しても、`prq` を呼ぶ回数は、実行の全体では、加えた気配の数の二倍を超えない。
-/

set_option linter.unusedSectionVars false

namespace Books.Book2book

open Books.Btree Books.Book Books.Instr Books.Xquo

variable {K Q : Type} [LinearOrder K] [Zero K] [LinearOrder Q] [AddCommGroup Q]
variable {descp s : Bool} {b b' : Book (OrdMap K Q)} {q : BookQuo K Q} {k : K} {m : Prq} {cs : List (Arg (OrdMap K Q) K Q)}

/-! ## 一つの気配 -/

theorem rest_length_le {t : OrdMap K Q descp} {l : List K} (h : ∀ k, (t.val k).nilP = false → k ∈ l) :
    (t.rest none).length ≤ l.length := by
  have hnd : (t.rest none).Nodup := (t.rest_sorted none).imp fun hlt => hlt.ne
  exact (List.subperm_of_subset hnd fun k hk => h k (OrdMap.mem_rest_none.mp hk)).length_le

/-- 側のある気配が新しく見せる気配値は、自分の側の、自分の気配値だけである。 -/
theorem addSide_live (hs : q.s = sideOf s) {s' : Bool} (h : ((bookAdd b q).1.stored s' k).nilP = false) :
    (b.stored s' k).nilP = false ∨ (s' = s ∧ q.p = some k) := by
  have hput : ∀ {p : K} {v w : BtreeVal Q}, q.p = some p → ((if s' = s ∧ k = p then v else w).nilP = false) →
      w.nilP = false ∨ (s' = s ∧ q.p = some k) := by
    intro p v w hp hv
    split at hv
    · rename_i hc
      exact Or.inr ⟨hc.1, by rw [hp, hc.2]⟩
    · exact Or.inl hv
  cases hf : q.f with
  | lvl0 =>
      rw [bookAdd_lvl0 hs hf] at h
      exact Or.inl h
  | lvl1 =>
      by_cases hq : q.q < 0
      · rw [bookAdd_lvl1_neg hs hf hq] at h
        exact Or.inl h
      · cases hp : q.p with
        | none =>
            rw [stored_lvl1_none hs hf hp hq] at h
            split at h
            · rw [nilP_nil] at h
              cases h
            · exact Or.inl h
        | some p =>
            rw [stored_lvl1 hs hf hp hq] at h
            split at h
            · split at h
              · rename_i hs' hk
                exact Or.inr ⟨hs', by rw [hk]⟩
              · rw [nilP_nil] at h
                cases h
            · exact Or.inl h
  | lvl2 =>
      cases hp : q.p with
      | none =>
          rw [bookAdd_none hs (Or.inl hf) hp] at h
          exact Or.inl h
      | some p =>
          rw [stored_lvl2 hs hf hp] at h
          exact hp ▸ hput hp h
  | lvl3 =>
      cases hp : q.p with
      | none =>
          rw [bookAdd_none hs (Or.inr hf) hp] at h
          exact Or.inl h
      | some p =>
          rw [stored_lvl3 hs hf hp] at h
          exact hp ▸ hput hp h

theorem bookAdd_live (h : ((bookAdd b q).1.stored s k).nilP = false) :
    (b.stored s k).nilP = false ∨ (q.s = sideOf s ∧ q.p = some k) := by
  have hside : ∀ s₀, q.s = sideOf s₀ → (b.stored s k).nilP = false ∨ (q.s = sideOf s ∧ q.p = some k) := by
    intro s₀ hs
    rcases addSide_live hs h with hb | ⟨rfl, hp⟩
    · exact Or.inl hb
    · exact Or.inr ⟨hs, hp⟩
  cases hs : q.s with
  | unk => rw [bookAdd, hs] at h; exact Or.inl h
  | ask => exact hs ▸ hside false hs
  | bid => exact hs ▸ hside true hs
  | clr =>
      rw [stored_clr hs, nilP_nil] at h
      cases h
  | del =>
      cases hp : q.p with
      | none => rw [bookAdd_del_none hs hp] at h; exact Or.inl h
      | some p =>
          rw [stored_del hs hp] at h
          split at h
          · rename_i hc
            exact Or.inl hc.1
          · exact Or.inl h
  | other n => rw [bookAdd, hs] at h; exact Or.inl h

/-- 一つの気配が増やす見える気配値は、高々一つである。 -/
theorem shownLevels_bookAdd : shownLevels (bookAdd b q).1 ≤ shownLevels b + 1 := by
  have hside : ∀ s, (((bookAdd b q).1.get s).rest none).length ≤
      ((b.get s).rest none).length + if q.s = sideOf s then 1 else 0 := by
    intro s
    by_cases hs : q.s = sideOf s
    · rw [if_pos hs]
      cases hp : q.p with
      | none =>
          refine Nat.le_succ_of_le (rest_length_le fun k hk => OrdMap.mem_rest_none.mpr ?_)
          exact (bookAdd_live hk).resolve_right fun h => by rw [hp] at h; cases h.2
      | some p =>
          refine rest_length_le (l := p :: (b.get s).rest none) fun k hk => ?_
          rcases bookAdd_live hk with h | ⟨_, h⟩
          · exact List.mem_cons_of_mem _ (OrdMap.mem_rest_none.mpr h)
          · rw [hp] at h
            cases h
            exact List.mem_cons_self
    · rw [if_neg hs]
      refine rest_length_le fun k hk => OrdMap.mem_rest_none.mpr ?_
      exact (bookAdd_live hk).resolve_right fun h => hs h.1
  have hone : (if q.s = sideOf true then 1 else 0) + (if q.s = sideOf false then 1 else 0) ≤ 1 := by
    cases q.s <;> simp [sideOf]
  have hbid := hside true
  have hask := hside false
  rw [shownLevels, shownLevels]
  omega

/-- 巻き戻しは、呼ぶ回数だけ、見える気配値を減らす。 -/
theorem shownLevels_unwindAll (b : Book (OrdMap K Q)) (s : Bool) (go : Option K → Bool) :
    (unwindAll s go b).2.length + shownLevels (unwindAll s go b).1 ≤ shownLevels b := by
  have hcalls : (unwindAll s go b).2.length = (unwound b s go).length := by
    have h := congrArg List.length (unwindAll_calls b s go)
    rwa [List.length_map, List.length_map] at h
  have hlive : ∀ {s' k}, (((unwindAll s go b).1.get s').val k).nilP = false →
      k ∈ (b.get s').rest none ∧ ¬ (s' = s ∧ k ∈ unwound b s go) := by
    intro s' k hk
    have hst := unwindAll_stored b s go s' k
    rw [Book.stored] at hst
    rw [hst] at hk
    split at hk
    · rw [nilP_nil] at hk
      cases hk
    · rename_i hc
      exact ⟨OrdMap.mem_rest_none.mpr hk, hc⟩
  have hother : ∀ s', (((unwindAll s go b).1.get s').rest none).length ≤ ((b.get s').rest none).length :=
    fun s' => rest_length_le fun k hk => (hlive hk).1
  have hself : (unwound b s go).length + (((unwindAll s go b).1.get s).rest none).length ≤ ((b.get s).rest none).length := by
    have hsplit : unwound b s go ++ ((b.get s).rest none).dropWhile (fun k => go (some k)) = (b.get s).rest none :=
      List.takeWhile_append_dropWhile
    have hdrop : (((unwindAll s go b).1.get s).rest none).length ≤
        (((b.get s).rest none).dropWhile fun k => go (some k)).length := by
      refine rest_length_le fun k hk => ?_
      obtain ⟨hmem, hnot⟩ := hlive hk
      rw [← hsplit] at hmem
      exact (List.mem_append.mp hmem).resolve_left fun h => hnot ⟨rfl, h⟩
    have hlen := congrArg List.length hsplit
    rw [List.length_append] at hlen
    omega
  rw [hcalls, shownLevels, shownLevels]
  cases s with
  | false => have := hother true; omega
  | true => have := hother false; omega

theorem advance_paid (h : advance m b q = some (b', cs)) : cs.length + shownLevels b' ≤ shownLevels b + 2 := by
  rw [advance] at h
  split at h
  · split at h
    · cases h
    · rename_i s _
      cases h
      have hun := shownLevels_unwindAll b s fun p => if s then pxLt q.p p else pxLt p q.p
      have hadd := shownLevels_bookAdd (b := (unwindAll s (fun p => if s then pxLt q.p p else pxLt p q.p) b).1) (q := q)
      rw [List.length_append, List.length_singleton]
      omega
  · split at h
    · cases h
      have hbid := shownLevels_unwindAll b true fun _ => true
      have hask := shownLevels_unwindAll (unwindAll true (fun _ => true) b).1 false fun _ => true
      rw [List.length_append]
      omega
    · cases h
      have hadd := shownLevels_bookAdd (b := b) (q := q)
      rw [List.length_singleton]
      omega

/-! ## 板の表 -/

theorem sum_set {l : List Nat} {i x : Nat} (h : l[i]? = some x) (y : Nat) : (l.set i y).sum + x = l.sum + y := by
  induction l generalizing i with
  | nil => cases h
  | cons z l ih =>
      cases i with
      | zero =>
          cases h
          simp only [List.set_cons_zero, List.sum_cons]
          omega
      | succ i =>
          have hrest := ih h
          simp only [List.set_cons_succ, List.sum_cons]
          omega

section Step
variable {hash : List UInt8 → UInt32} {C : Codec K Q} {st st' : State (OrdMap K Q)} {line : List UInt8}
variable {lines : List (List UInt8)} {out : List (Call (OrdMap K Q) K Q)}

/-- 新しい板には、気配が見えない。 -/
theorem allLevels_route {r : Route} {ins : List UInt8} (hr : route hash (fun _ => makeBook) st ins = some (r, st')) :
    allLevels st' = allLevels st := by
  rcases route_cases hr with ⟨_, rfl, _⟩ | ⟨_, rfl, _⟩ | ⟨_, rfl, _⟩ | ⟨_, rfl, _⟩
  · rfl
  · rfl
  · rfl
  · rw [allLevels, Table.add, List.map_append, List.sum_append]
    rfl

theorem allLevels_initState (instr : List (List UInt8)) : allLevels (initState hash instr : State (OrdMap K Q)) = 0 := by
  refine List.sum_eq_zero fun x hx => ?_
  obtain ⟨b, hb, rfl⟩ := List.mem_map.mp hx
  obtain ⟨_, rfl⟩ := initTable_book hb
  rfl

/-- 一つの行は、加える気配の二倍までの回数を、見える気配値の増減とあわせて払う。 -/
theorem mainStep_paid (h : mainStep hash C m st line = some (st', out)) :
    ∃ n, (∀ lines, (applied hash C m st (line :: lines)).length = n + (applied hash C m st' lines).length) ∧
      out.length + allLevels st' ≤ allLevels st + 2 * n ∧ (m.unwinds = false → out.length = n) := by
  obtain ⟨x, hx, ⟨hs, rfl, rfl⟩ | ⟨hs, hr, rfl⟩ | ⟨hs, k, st₁, b, b', cs, hr, hb, ha, rfl, rfl⟩⟩ := mainStep_cases h
  · refine ⟨0, fun lines => ?_, Nat.le_of_eq (Nat.zero_add _), fun _ => rfl⟩
    simp only [applied, hx, hs, h, if_true, List.nil_append, Nat.zero_add]
  · refine ⟨0, fun lines => ?_, ?_, fun _ => rfl⟩
    · simp only [applied, hx, hs, hr, h, if_false, List.nil_append, Nat.zero_add]
    · rw [allLevels_route hr, List.length_nil]
      omega
  · refine ⟨1, fun lines => ?_, ?_, fun hm => ?_⟩
    · simp only [applied, hx, hs, hr, h, if_false, List.singleton_append, List.length_cons]
      omega
    · have hpaid := advance_paid ha
      have hget : (st₁.book.map shownLevels)[k]? = some (shownLevels b) := by rw [List.getElem?_map, hb]; rfl
      have hset := sum_set hget (shownLevels b')
      rw [← List.map_set] at hset
      rw [← allLevels_route hr, List.length_map]
      simp only [allLevels]
      omega
    · rw [advance_direct hm] at ha
      cases ha
      rfl

theorem mainLoop_paid (h : mainLoop hash C m st lines = some (st', out)) :
    out.length + allLevels st' ≤ allLevels st + 2 * (applied hash C m st lines).length ∧
      (m.unwinds = false → out.length = (applied hash C m st lines).length) := by
  induction lines generalizing st out with
  | nil =>
      cases h
      exact ⟨Nat.le_of_eq (Nat.zero_add _), fun _ => rfl⟩
  | cons line lines ih =>
      obtain ⟨st₁, out₁, out₂, hstep, hloop, rfl⟩ := mainLoop_cons h
      obtain ⟨n, happ, hpaid, hone⟩ := mainStep_paid hstep
      obtain ⟨hpaid', hone'⟩ := ih hloop
      rw [happ, List.length_append]
      refine ⟨by omega, fun hm => ?_⟩
      rw [hone hm, hone' hm]

end Step

/-! ## 主定理 -/

end Books.Book2book
