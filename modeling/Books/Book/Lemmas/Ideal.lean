import Books.Book.Spec

/-!
# 理想の木の上の操作
-/

set_option linter.unusedSectionVars false

namespace Books.Book

open Books.Btree

variable {K Q : Type} [LinearOrder K] [Zero K] [LinearOrder Q] [AddCommGroup Q]
variable {descp : Bool} {m m' : OrdMap K Q descp} {p k : K} {v : BtreeVal Q} {last : Option K} {ks : List K}

@[simp] theorem shown_nil : shown (.nil : BtreeVal Q) = .nil := by
  simp [shown]

theorem shown_of_live (hv : v.nilP = false) : shown v = v := by
  simp [shown, hv]

theorem shown_of_nil (hv : v.nilP = true) : shown v = .nil := by
  simp [shown, hv]

@[simp] theorem nilP_nil : (.nil : BtreeVal Q).nilP = true := by
  simp [BtreeVal.nilP, BtreeVal.nil]

@[simp] theorem nilP_shown : (shown v).nilP = v.nilP := by
  cases hv : v.nilP with
  | true => rw [shown_of_nil hv]; exact nilP_nil
  | false => rw [shown_of_live hv]; exact hv

/-! ## 書き込み -/

namespace OrdMap

theorem set_val (hp : p ∈ m.keys) (k : K) : (m.set p v).val k = if k = p then v else m.val k := by
  simp [set, hp]

theorem mem_insert : k ∈ (m.insert p).keys ↔ k = p ∨ k ∈ m.keys := mem_insertKey

end OrdMap

theorem putVal_val (m : OrdMap K Q descp) (p : K) (f : BtreeVal Q → BtreeVal Q) (k : K) :
    (putVal m (some p) f).1.val k = if k = p then f (m.val p) else m.val k := by
  have hp : p ∈ (m.insert p).keys := OrdMap.mem_insert.mpr (Or.inl rfl)
  exact OrdMap.set_val hp k

theorem putVal_old (m : OrdMap K Q descp) (p : K) (f : BtreeVal Q → BtreeVal Q) :
    (putVal m (some p) f).2 = m.val p := rfl

/-- NaN の気配値は、理想の木を変えない。 -/
theorem putVal_none (m : OrdMap K Q descp) (f : BtreeVal Q → BtreeVal Q) : putVal m none f = (m, .nil) := rfl

theorem clr_val (m : OrdMap K Q descp) (k : K) : (BTree.clr m).val k = .nil := rfl

/-! ## 反復 -/

namespace OrdMap

/-- キー `last` より後の、値が nil でないキー。 -/
def rest (m : OrdMap K Q descp) (last : Option K) : List K :=
  m.keys.filter fun k => !(m.val k).nilP && last.all fun l => decide (Before descp l k)

theorem nextKey_eq (m : OrdMap K Q descp) (last : Option K) : m.nextKey last = (m.rest last).head? :=
  List.head?_filter.symm

theorem mem_rest_none : k ∈ m.rest none ↔ (m.val k).nilP = false := by
  simp only [rest, List.mem_filter, Option.all_none, Bool.and_true, Bool.not_eq_true', and_iff_right_iff_imp]
  intro hk
  by_contra hn
  rw [m.absent k hn, nilP_nil] at hk
  cases hk

theorem rest_sorted (m : OrdMap K Q descp) (last : Option K) : (m.rest last).Pairwise (Before descp) :=
  m.sorted.filter _

theorem rest_length (m : OrdMap K Q descp) (last : Option K) : (m.rest last).length ≤ m.keys.length :=
  List.length_filter_le _ _

/-- 返したキーの値だけを書き換えても、その後に返すキーは変わらない。 -/
theorem rest_cons (hr : m.rest last = p :: ks) (hk : m'.keys = m.keys) (hv : ∀ k, k ≠ p → m'.val k = m.val k) :
    m'.rest (some p) = ks := by
  obtain ⟨l₁, l₂, he, hl₁, hp, hl₂⟩ := List.filter_eq_cons_iff.mp hr
  have hs := m.sorted
  rw [he] at hs
  obtain ⟨_, hs₂, hb⟩ := List.pairwise_append.mp hs
  obtain ⟨hs₃, _⟩ := List.pairwise_cons.mp hs₂
  have hfalse : ∀ x ∈ l₁, ¬ ((!(m'.val x).nilP && decide (Before descp p x)) = true) := by
    intro x hx hx'
    have hxp := hb x hx p List.mem_cons_self
    exact hxp.asymm (of_decide_eq_true (Bool.and_eq_true_iff.mp hx').2)
  have hpp : ¬ ((!(m'.val p).nilP && decide (Before descp p p)) = true) :=
    fun hx' => Before.irrefl p (of_decide_eq_true (Bool.and_eq_true_iff.mp hx').2)
  rw [rest, hk, he, List.filter_append, List.filter_cons_of_neg (by simpa using hpp), ← hl₂]
  simp only [Option.all_some]
  rw [List.filter_eq_nil_iff.mpr hfalse, List.nil_append]
  refine List.filter_congr (fun x hx => ?_)
  have hpx := hs₃ x hx
  rw [hv x hpx.ne.symm, decide_eq_true hpx]
  -- `last` より後のキーより後のキーも、`last` より後にある。
  have hlast : (last.all fun l => decide (Before descp l x)) = true := by
    cases last with
    | none => rfl
    | some l => exact decide_eq_true ((of_decide_eq_true (Bool.and_eq_true_iff.mp hp).2 : Before descp l p).trans hpx)
  rw [hlast]

end OrdMap

/-- 理想の木の上の繰り返しは、条件が続く間、値を書き換える。 -/
theorem eachVal_val (go : Option K → Bool) (f : Option K → BtreeVal Q → BtreeVal Q) :
    ∀ (ks : List K) (fuel : Nat) (m : OrdMap K Q descp) (last : Option K), m.rest last = ks → ks.length < fuel →
    ∀ k, (eachVal go f fuel m last).val k =
      if k ∈ ks.takeWhile (fun k => go (some k)) then f (some k) (m.val k) else m.val k
  | _, 0, _, _, _, hf, _ => absurd hf (Nat.not_lt_zero _)
  | [], fuel + 1, m, last, hr, _, k => by
      have hn : m.nextKey last = none := by rw [m.nextKey_eq, hr]; rfl
      simp [eachVal, BTree.iterNext, hn]
  | p :: ks, fuel + 1, m, last, hr, hf, k => by
      have hn : m.nextKey last = some p := by rw [m.nextKey_eq, hr]; rfl
      have hpm : p ∈ m.keys := (List.mem_filter.mp (by rw [← OrdMap.rest, hr]; exact List.mem_cons_self)).1
      simp only [eachVal, BTree.iterNext, hn, Option.some_or, Option.isSome_some, Bool.true_and, BTree.iterKey,
        BTree.iterRef, BTree.store, BTree.load, Option.elim_some]
      cases hgo : go (some p) with
      | false => simp [List.takeWhile_cons, hgo]
      | true =>
          have hval := m.set_val (v := f (some p) (m.val p)) hpm
          have hr' : (m.set p (f (some p) (m.val p))).rest (some p) = ks :=
            OrdMap.rest_cons hr rfl (fun k hk => by rw [hval, if_neg hk])
          have hnd := (List.pairwise_cons.mp (by rw [← hr]; exact m.rest_sorted last : (p :: ks).Pairwise (Before descp))).1
          rw [if_pos rfl, eachVal_val go f ks fuel _ _ hr' (Nat.lt_of_succ_lt_succ hf), hval,
            List.takeWhile_cons_of_pos (p := fun k => go (some k)) hgo]
          by_cases hk : k = p
          · subst hk
            have hnot : k ∉ ks.takeWhile (fun k => go (some k)) :=
              fun hin => Before.irrefl k (hnd k ((List.takeWhile_prefix _).subset hin))
            rw [if_neg hnot, if_pos rfl, if_pos List.mem_cons_self]
          · rw [if_neg hk]
            simp only [List.mem_cons, hk, false_or]

/-- 手前にある限り続く条件では、並びの初めの部分は、条件を満たす要素の全体である。 -/
theorem mem_takeWhile_sorted {go : K → Bool} : ∀ {ks : List K}, ks.Pairwise (Before descp) →
    (∀ a b, Before descp a b → go b = true → go a = true) → (k ∈ ks.takeWhile go ↔ k ∈ ks ∧ go k = true)
  | [], _, _ => by simp
  | x :: xs, hs, hgo => by
      obtain ⟨hx, hxs⟩ := List.pairwise_cons.mp hs
      cases hx' : go x with
      | true =>
          rw [List.takeWhile_cons_of_pos hx', List.mem_cons, mem_takeWhile_sorted hxs hgo, List.mem_cons]
          constructor
          · rintro (rfl | ⟨h₁, h₂⟩)
            · exact ⟨Or.inl rfl, hx'⟩
            · exact ⟨Or.inr h₁, h₂⟩
          · rintro ⟨rfl | h₁, h₂⟩
            · exact Or.inl rfl
            · exact Or.inr ⟨h₁, h₂⟩
      | false =>
          rw [List.takeWhile_cons_of_neg (by simp [hx'])]
          simp only [List.not_mem_nil, false_iff, not_and, Bool.not_eq_true]
          intro hk
          by_contra hk'
          rcases List.mem_cons.mp hk with rfl | hk
          · rw [hx'] at hk'; exact hk' rfl
          · rw [hgo x k (hx k hk) (by simpa using hk')] at hx'; cases hx'

end Books.Book
