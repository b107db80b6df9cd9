import Books.Book.Lemmas.Add
import Books.Book2book.Code

/-!
# 気配の巻き戻し

`unwind` は、見えている気配のうち初めの一続きを、一つずつ 0 にする。
-/

set_option linter.unusedSectionVars false

namespace Books.Book2book

open Books.Btree Books.Book Books.Xquo

variable {K Q : Type} [LinearOrder K] [Zero K] [LinearOrder Q] [AddCommGroup Q]
variable {descp s : Bool} {b : Book (OrdMap K Q)} {q : BookQuo K Q} {p k : K} {go : Option K → Bool}

/-! ## 一つの気配 -/

theorem insertKey_of_mem : ∀ {xs : List K}, xs.Pairwise (Before descp) → p ∈ xs → insertKey descp p xs = xs
  | [], _, hp => absurd hp List.not_mem_nil
  | x :: xs, hs, hp => by
      obtain ⟨hx, hxs⟩ := List.pairwise_cons.mp hs
      rw [insertKey]
      by_cases he : p = x
      · rw [if_pos he]
      · have hp' := (List.mem_cons.mp hp).resolve_left he
        rw [if_neg he, if_neg (hx p hp').asymm, insertKey_of_mem hxs hp']

/-- 数量を 0 にする、レベル 2 の気配。 -/
def zeroQuo (s : Bool) (p : K) : BookQuo K Q := ⟨sideOf s, .lvl2, some p, 0, 0⟩

/-- `zeroQuo` に対して `book_add` が返す、元の値。 -/
def oldQuo (b : Book (OrdMap K Q)) (s : Bool) (p : K) : BookQuo K Q :=
  ⟨sideOf s, .lvl2, some p, (b.stored s p).q, (b.stored s p).t⟩

theorem bookAdd_zeroQuo_old : (bookAdd b (zeroQuo s p)).2 = oldQuo b s p := by
  cases s <;> rfl

theorem bookAdd_zeroQuo_stored (s' : Bool) (k : K) :
    (bookAdd b (zeroQuo s p)).1.stored s' k = if s' = s ∧ k = p then .nil else b.stored s' k :=
  stored_lvl2 rfl rfl rfl s' k

/-- 木にあるキーへの書き込みは、キーの並びを変えない。 -/
theorem bookAdd_zeroQuo_keys (hp : p ∈ (b.get s).keys) : ((bookAdd b (zeroQuo s p)).1.get s).keys = (b.get s).keys := by
  have hadd : (bookAdd b (zeroQuo s p)).1 = b.set s (putVal (b.get s) (some p) fun _ => ⟨0, 0⟩).1 := by
    cases s <;> rfl
  rw [hadd, Book.get_set_eq]
  exact insertKey_of_mem (b.get s).sorted hp

/-! ## 巻き戻しの全体 -/

theorem unwind_eq (s : Bool) (go : Option K → Bool) :
    ∀ (ks : List K) (fuel : Nat) (b : Book (OrdMap K Q)) (last : Option K), (b.get s).rest last = ks → ks.length < fuel →
    (∀ s' k, (unwind s go fuel b last).1.stored s' k =
      if s' = s ∧ k ∈ ks.takeWhile (fun k => go (some k)) then .nil else b.stored s' k) ∧
    (unwind s go fuel b last).2.map (fun c => (c.q, c.o)) =
      (ks.takeWhile fun k => go (some k)).map fun k => (zeroQuo s k, oldQuo b s k)
  | _, 0, _, _, _, hf => absurd hf (Nat.not_lt_zero _)
  | [], fuel + 1, b, last, hr, _ => by
      have hn : (b.get s).nextKey last = none := by rw [OrdMap.nextKey_eq, hr]; rfl
      simp [unwind, BTree.iterNext, hn]
  | p :: ks, fuel + 1, b, last, hr, hf => by
      have hn : (b.get s).nextKey last = some p := by rw [OrdMap.nextKey_eq, hr]; rfl
      have hpm : p ∈ (b.get s).keys := (List.mem_filter.mp (by rw [← OrdMap.rest, hr]; exact List.mem_cons_self)).1
      have hsorted : (p :: ks).Pairwise (Before s) := by rw [← hr]; exact (b.get s).rest_sorted last
      have hp := (List.pairwise_cons.mp hsorted).1
      simp only [unwind, BTree.iterNext, hn, Option.some_or, Option.isSome_some, Bool.true_and, BTree.iterKey, Book.set_get]
      cases hgo : go (some p) with
      | false => simp [hgo]
      | true =>
          have hst := bookAdd_zeroQuo_stored (b := b) (s := s) (p := p)
          have hr' : ((bookAdd b (zeroQuo s p)).1.get s).rest (some p) = ks := by
            refine OrdMap.rest_cons hr (bookAdd_zeroQuo_keys hpm) (fun k hk => ?_)
            exact (hst s k).trans (if_neg (fun h => hk h.2))
          obtain ⟨ih₁, ih₂⟩ := unwind_eq s go ks fuel _ _ hr' (Nat.lt_of_succ_lt_succ hf)
          rw [if_pos rfl, List.takeWhile_cons_of_pos (p := fun k => go (some k)) hgo]
          constructor
          · intro s' k
            refine (ih₁ s' k).trans ?_
            rw [hst]
            by_cases hs : s' = s
            · by_cases hk : k = p
              · simp [hs, hk]
              · simp [hs, hk]
            · simp [hs]
          · rw [List.map_cons, List.map_cons]
            refine congrArg₂ List.cons (congrArg (Prod.mk _) bookAdd_zeroQuo_old) (ih₂.trans ?_)
            -- 後のキーの値は、書き込みで変わらない。
            refine List.map_congr_left (fun k hk => ?_)
            have hne : k ≠ p := (hp k ((List.takeWhile_prefix _).subset hk)).ne.symm
            rw [oldQuo, oldQuo, hst, if_neg (fun h => hne h.2)]

/-- 巻き戻す気配値。見えている気配値のうち、条件が続く初めの部分である。 -/
def unwound (b : Book (OrdMap K Q)) (s : Bool) (go : Option K → Bool) : List K :=
  ((b.get s).rest none).takeWhile fun k => go (some k)

theorem unwindAll_stored (b : Book (OrdMap K Q)) (s : Bool) (go : Option K → Bool) (s' : Bool) (k : K) :
    (unwindAll s go b).1.stored s' k = if s' = s ∧ k ∈ unwound b s go then .nil else b.stored s' k :=
  (unwind_eq s go _ _ b none rfl (Nat.lt_succ_of_le ((b.get s).rest_length none))).1 s' k

theorem unwindAll_calls (b : Book (OrdMap K Q)) (s : Bool) (go : Option K → Bool) :
    (unwindAll s go b).2.map (fun c => (c.q, c.o)) = (unwound b s go).map fun k => (zeroQuo s k, oldQuo b s k) :=
  (unwind_eq s go _ _ b none rfl (Nat.lt_succ_of_le ((b.get s).rest_length none))).2

theorem unwound_sorted (b : Book (OrdMap K Q)) (s : Bool) (go : Option K → Bool) :
    (unwound b s go).Pairwise (Before s) :=
  ((b.get s).rest_sorted none).sublist (List.takeWhile_prefix _).sublist

/-- すべてを巻き戻すとき、巻き戻す気配値は、見えているものの全体である。 -/
theorem mem_unwound_all : k ∈ unwound b s (fun _ => true) ↔ (b.stored s k).nilP = false := by
  rw [unwound, mem_takeWhile_sorted ((b.get s).rest_sorted none) (fun _ _ _ _ => rfl), OrdMap.mem_rest_none]
  exact and_iff_left rfl

/-- レベル 1 の気配が巻き戻すのは、その気配値より手前に見えているものの全体である。 -/
theorem mem_unwound_past : k ∈ unwound b s (fun x => if s then pxLt (some p) x else pxLt x (some p)) ↔
    (b.stored s k).nilP = false ∧ Before s k p := by
  have hgo : ∀ x : K, (if s then pxLt (some p) (some x) else pxLt (some x) (some p)) = decide (Before s x p) := by
    intro x
    cases s <;> simp [pxLt, Before]
  rw [unwound]
  simp only [hgo]
  have hmono : ∀ a c : K, Before s a c → decide (Before s c p) = true → decide (Before s a p) = true :=
    fun a c hac hc => decide_eq_true (hac.trans (of_decide_eq_true hc))
  rw [mem_takeWhile_sorted ((b.get s).rest_sorted none) hmono, OrdMap.mem_rest_none, decide_eq_true_eq]
  rfl

/-- 気配値が NaN のときは、何も巻き戻さない。 -/
theorem unwound_nan : unwound b s (fun x => if s then pxLt none x else pxLt x none) = [] := by
  have hgo : ∀ x : K, (if s then pxLt none (some x) else pxLt (some x) none) = false := by
    intro x
    cases s <;> rfl
  rw [unwound]
  simp only [hgo]
  cases (b.get s).rest none <;> rfl

end Books.Book2book
