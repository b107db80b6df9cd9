import Books.Btree.Lemmas.Levels
import Books.Btree.Lemmas.IterRun
import Books.Btree.Lemmas.SplitMarks
import Mathlib.Data.Nat.Basic

/-!
# B+ 木の主定理
-/

set_option linter.unusedSectionVars false

namespace Books.Btree

open Books.Lib

variable {K Q : Type} [LinearOrder K] [LinearOrder Q] [Zero Q]
variable {descp : Bool} {h h₀ : Heap K Q} {lo hi : Option K} {d cap m : Nat} {a : Addr} {k : K} {v : BtreeVal Q} {c : Cell}
  {W : List Addr} {it : BtreeIter K} {ys : List Cell}

/-! ## 探索木の不変条件 -/

/-- どの実行の木も、探索木の不変条件を満たす。 -/
theorem treeInv_run (descp : Bool) (ops : List (Op K Q)) : TreeInv (run descp ops) descp := by
  obtain ⟨d, I⟩ := inv_run descp ops
  exact I.treeInv

/-! ## 追加した値の検索 -/

/-- 追加した値が検索で見つかるのは、追加が返した場所を失わないときで、そのときに限る。 -/
theorem put_stores_run_iff (descp : Bool) (ops : List (Op K Q)) (k : K) (v : BtreeVal Q) (hv : 0 < v.q) :
    PutStores (run descp ops) k v ↔ losesCell (run descp ops) (some k) = false := by
  obtain ⟨d, I⟩ := inv_run descp ops
  exact I.put_stores_iff (nilP_eq_false hv)

theorem put_stores_run_empty : (0 : Nat) < (⟨1, 0⟩ : BtreeVal Nat).q ∧
    (PutStores (run false [] : Heap Nat Nat) 7 ⟨1, 0⟩ ↔ losesCell (run false [] : Heap Nat Nat) (some 7) = false) :=
  ⟨by decide, put_stores_run_iff false [] 7 ⟨1, 0⟩ (by decide)⟩

/-- 昇順に 94 個のキーを加えた木に 95 個目を加えると、書き込んだ値は失われる。 -/
theorem put_loses_ascending :
    ¬ PutStores (run false ((List.range 94).map fun k => .put k ⟨1, 0⟩) : Heap Nat Nat) 94 ⟨1, 0⟩ := by
  intro hp
  have hne : find (step (run false ((List.range 94).map fun k => .put k ⟨1, 0⟩) : Heap Nat Nat)
      (.put 94 ⟨1, 0⟩)) 94 ≠ ⟨1, 0⟩ := by
    decide +kernel
  exact hne hp.1

/-- 64 個目のキーで根は分かれるが、値はどれも失われない。 -/
example : losesCell (run false ((List.range 63).map fun k => .put k ⟨1, 0⟩) : Heap Nat Nat) (some 63) = false := by
  decide +kernel

/-! ## 反復と葉のつながり -/

/-- つながりとビットを壊す追加がなければ、反復は値が nil でないキーをちょうど一度ずつ、木の向きに返す。 -/
theorem iter_yields_run (descp : Bool) (ops : List (Op K Q)) (hops : Throughout KeepsIter (makeBtree descp) ops) :
    IterYields (run descp ops) descp := by
  obtain ⟨d, I, L, M⟩ := marked_run hops
  exact I.iterYields L M

theorem iter_yields_run_three :
    Throughout KeepsIter (makeBtree true : Heap Nat Nat) [.put 1 ⟨1, 0⟩, .put 3 ⟨1, 0⟩, .rem 1, .put 2 ⟨5, 0⟩] ∧
    IterYields (run true [.put 1 ⟨1, 0⟩, .put 3 ⟨1, 0⟩, .rem 1, .put 2 ⟨5, 0⟩] : Heap Nat Nat) true := by
  have hops : Throughout KeepsIter (makeBtree true : Heap Nat Nat)
      [.put 1 ⟨1, 0⟩, .put 3 ⟨1, 0⟩, .rem 1, .put 2 ⟨5, 0⟩] :=
    ⟨⟨by decide +kernel, by decide +kernel⟩, ⟨by decide +kernel, by decide +kernel⟩, trivial,
      ⟨by decide +kernel, by decide +kernel⟩, trivial⟩
  exact ⟨hops, iter_yields_run true _ hops⟩

theorem iterAll_lost : iterAll 3 (run false [.put 1 ⟨1, 0⟩, .put 2 ⟨1, 0⟩, .rem 2, .put 0 ⟨1, 0⟩] : Heap Nat Nat)
    (.fresh root) = some [(some 0, ⟨1, 0⟩)] := by
  decide +kernel

/-- 消したキーの場所へずらすと、立っていたビットが打ち消し合い、残ったキーが反復から漏れる。 -/
theorem iter_misses_level :
    ¬ IterYields (run false [.put 1 ⟨1, 0⟩, .put 2 ⟨1, 0⟩, .rem 2, .put 0 ⟨1, 0⟩] : Heap Nat Nat) false := by
  rintro ⟨m, l, hl, _, hmem, _⟩
  have hfind : find (run false [.put 1 ⟨1, 0⟩, .put 2 ⟨1, 0⟩, .rem 2, .put 0 ⟨1, 0⟩] : Heap Nat Nat) 1 = ⟨1, 0⟩ := by
    decide +kernel
  have hin := List.mem_map_of_mem (f := fun e : Nat × BtreeVal Nat => (some e.1, e.2))
    ((hmem 1 ⟨1, 0⟩).mpr ⟨hfind, by decide⟩)
  rw [iterAll_unique hl iterAll_lost] at hin
  exact absurd hin (by decide)

/-- つながりを壊す追加がなければ、葉は左から順に一度ずつつながり、`btree_clr` と `btree_top` はすべての値に届く。
`btree_iter_next` が届くのは、さらにビットがすべて立っているときで、そのときに限る。 -/
theorem chain_reaches_run (descp : Bool) (ops : List (Op K Q)) (hops : Throughout KeepsChain (makeBtree descp) ops) :
    ChainVisits (run descp ops) ∧ ClrReaches (run descp ops) ∧ TopReaches (run descp ops) descp ∧
    (IterReaches (run descp ops) ↔ UsedCovers (run descp ops)) ∧
    (Throughout KeepsIter (makeBtree descp) ops → IterReaches (run descp ops)) := by
  obtain ⟨d, I, L⟩ := linked_run hops
  have hiter := I.iterReaches_iff L
  refine ⟨I.chainVisits L, fun k => I.find_clr L k, I.topReaches L, hiter, fun hk => ?_⟩
  obtain ⟨d', I', _, M⟩ := marked_run hk
  exact hiter.mpr (I'.usedCovers M)

theorem chain_reaches_run_two :
    Throughout KeepsChain (makeBtree false : Heap Nat Nat) [.put 2 ⟨1, 0⟩, .put 1 ⟨1, 0⟩] ∧
    ChainVisits (run false [.put 2 ⟨1, 0⟩, .put 1 ⟨1, 0⟩] : Heap Nat Nat) := by
  have hops : Throughout KeepsChain (makeBtree false : Heap Nat Nat) [.put 2 ⟨1, 0⟩, .put 1 ⟨1, 0⟩] :=
    ⟨(by decide +kernel : breaksChain _ _ = false), (by decide +kernel : breaksChain _ _ = false), trivial⟩
  exact ⟨hops, (chain_reaches_run false _ hops).1⟩

/-- 打ち消されたビットのために、反復はキー 1 に届かない。 -/
theorem iter_stops_short : ¬ (ChainVisits (run false [.put 1 ⟨1, 0⟩, .put 2 ⟨1, 0⟩, .rem 2, .put 0 ⟨1, 0⟩] : Heap Nat Nat) ∧
    ClrReaches (run false [.put 1 ⟨1, 0⟩, .put 2 ⟨1, 0⟩, .rem 2, .put 0 ⟨1, 0⟩] : Heap Nat Nat) ∧
    TopReaches (run false [.put 1 ⟨1, 0⟩, .put 2 ⟨1, 0⟩, .rem 2, .put 0 ⟨1, 0⟩] : Heap Nat Nat) false ∧
    IterReaches (run false [.put 1 ⟨1, 0⟩, .put 2 ⟨1, 0⟩, .rem 2, .put 0 ⟨1, 0⟩] : Heap Nat Nat)) := by
  rintro ⟨_, _, _, m, l, hl, hall⟩
  have hin := hall 1 (by decide +kernel)
  rw [iterAll_unique hl iterAll_lost] at hin
  exact absurd hin (by decide +kernel)

/-- 値が nil でない場所のビットがすべて立っている葉の並びでは、返った場所にどんな値を書き込みながら反復を続けても、始めに
値が nil でない場所がちょうど一度ずつ順に返り、その後の呼び出しはすべて偽を返す。 -/
theorem iter_exact_run (C : LeafChain h₀ a W) (hm : ∀ x ∈ W, (h₀.get x).Marked) (R : IterRun h₀ a m h it ys) :
    IterExact h₀ W m h it ys :=
  C.iterExact hm R

/-- キー 1 と 2 を加えた木。 -/
def paired : Heap Nat Nat := run false [.put 1 ⟨1, 0⟩, .put 2 ⟨1, 0⟩]

/-- 最初に返った場所の値を消してから、次の場所へ進む。 -/
theorem iter_exact_paired : ∃ h it ys, IterRun paired root 2 h it ys ∧ IterExact paired [root] 2 h it ys := by
  have hm : ∀ x ∈ [root], (paired.get x).Marked := by
    intro x hx
    rw [List.mem_singleton.mp hx]
    decide
  have C : LeafChain paired root [root] :=
    ⟨⟨rfl, (rfl : (paired.get root).next = none)⟩, by decide, by decide, by decide⟩
  have R₁ : IterRun paired root 1 _ _ _ := IterRun.next IterRun.fresh
  have R := IterRun.next (R₁.store .nil (show ⟨root, 0⟩ ∈ _ by decide))
  exact ⟨_, _, _, R, iter_exact_run C hm R⟩

/-! ## `used` のビット -/

/-- `leaf_add` が値のある添字のビットを保つのは、キーがあるか、ずらす範囲に立ったままの空きのビットが入らないときで、
そのときに限る。 -/
theorem leafAdd_marks_iff (h : Heap K Q) (a : Addr) (k : K) (ha : a < h.size) (hn : (h.get a).n ≤ 62)
    (hm : (h.get a).Marked) :
    (((leafAdd h a (some k)).heap.get a).Marked ∧ ((leafAdd h a (some k)).heap.get (leafAdd h a (some k)).cell.t).used.getLsbD
      (leafAdd h a (some k)).cell.i = true) ↔ (h.get a).shiftsClean (some k) = true := by
  have hget : (leafAdd h a (some k)).heap.get a = ((h.get a).leafAdd (some k)).1 := Heap.get_set_eq _ ha
  have hcell : (leafAdd h a (some k)).cell = ⟨a, ((h.get a).leafAdd (some k)).2⟩ := rfl
  rw [hcell, hget]
  exact Node.leafAdd_marked_iff hn hm

theorem leafAdd_marks_empty : (makeBtree false : Heap Nat Nat).size = 1 ∧
    ((leafAdd (makeBtree false : Heap Nat Nat) 0 (some 7)).heap.get 0).Marked := by
  have hm : ((makeBtree false : Heap Nat Nat).get 0).Marked := fun i hi => absurd hi (Nat.not_lt_zero i)
  exact ⟨rfl, ((leafAdd_marks_iff (makeBtree false) 0 7 (by decide) (by decide) hm).mpr (by decide +kernel)).1⟩

/-- キー 1 と 2 を加え、2 を消した木。 -/
def holed : Heap Nat Nat := run false [.put 1 ⟨1, 0⟩, .put 2 ⟨1, 0⟩, .rem 2]

/-- 空きの手前に 0 を加えると、キー 1 のビットが消える。 -/
theorem leafAdd_unmarks_level : (holed.get root).KeysSorted false ∧ (holed.get root).n ≤ 62 ∧ (holed.get root).Marked ∧
    ¬ ((leafAdd holed root (some 0)).heap.get root).Marked := by
  refine ⟨?_, by decide +kernel⟩
  obtain ⟨d, I⟩ := inv_run (K := Nat) (Q := Nat) false [.put 1 ⟨1, 0⟩, .put 2 ⟨1, 0⟩, .rem 2]
  obtain ⟨⟨d', hs⟩, _⟩ := I.treeInv
  cases d' with
  | zero => exact hs.2.1
  | succ d' => exact hs.2.2.1

/-! ## 分割 -/

/-- `node_split` と `root_split` は、値が nil でない組の並びを変えない。`node_split` で親の `n` が 1 増えるのは、どの子の
下にも値が nil でない組があるときで、空いた子があれば変わらない。 -/
theorem split_pairs (h : Heap K Q) :
    (∀ d fuel a idx, d < fuel → Shaped h (d + 1) a → (h.get a).n ≤ 62 → idx ≤ (h.get a).n →
      (h.get ((h.get a).kid idx)).n = 63 → pairs h d ((h.get a).kid idx) ≠ [] →
      pairs (nodeSplit fuel h a idx) (d + 1) a = pairs h (d + 1) a ∧
      (((∀ i, i ≤ (h.get a).n → pairs h d ((h.get a).kid i) ≠ []) ∧
          ((nodeSplit fuel h a idx).get a).n = (h.get a).n + 1) ∨
        ((∃ i, i ≤ (h.get a).n ∧ pairs h d ((h.get a).kid i) = []) ∧
          ((nodeSplit fuel h a idx).get a).n = (h.get a).n))) ∧
    (∀ d a, Shaped h d a → (h.get a).n = 63 → pairs (rootSplit h a) (d + 1) a = pairs h d a) := by
  refine ⟨fun d fuel a idx hf hs hn hidx hfull hlive => ?_, fun d a hs hn => hs.rootSplit_pairs hn⟩
  have hnil : spareIdx fuel h (h.get a) ≤ (h.get a).n → pairs h d ((h.get a).kid (spareIdx fuel h (h.get a))) = [] :=
    hs.spareIdx_le hf rfl
  have hne : spareIdx fuel h (h.get a) ≠ idx := fun he => hlive (he ▸ hnil (he ▸ hidx))
  have S := hs.splitted hidx hne rfl
  refine ⟨hs.nodeSplit_pairs hidx S (Ready.nul_le _ _ _) hne hn hfull hnil, ?_⟩
  rw [S.parent_n]
  by_cases hlt : (h.get a).n < spareIdx fuel h (h.get a)
  · exact Or.inl ⟨(hs.spareIdx_gt_iff hf).mp hlt, by rw [if_pos hlt]⟩
  · have hle := Nat.le_of_not_lt hlt
    exact Or.inr ⟨⟨_, hle, hnil hle⟩, by rw [if_neg hlt, Nat.add_zero]⟩

/-- 葉を二つ持つ木。左の葉は埋まっていて、右の葉は空である。 -/
def twin : Heap Nat Nat :=
  ⟨[{ (Node.make false : Node Nat Nat) with
        n := 1
        innerp := true
        key := (Arr.const 64 none).set 0 (some 62)
        val := ((Arr.const 64 (.v .nil)).set 0 (.t 1)).set 1 (.t 2) },
    { (Node.make false : Node Nat Nat) with
        n := 63
        used := BitVec.allOnes 64
        key := ⟨(List.range 63).map some ++ [none], by simp⟩
        val := Arr.const 64 (.v ⟨1, 0⟩)
        next := some 2 },
    Node.make false]⟩

theorem twin_shaped : Shaped twin 1 0 := by
  have hkid : ∀ i, i ≤ (twin.get 0).n → i = 0 ∧ (twin.get 0).kid i = 1 ∨ i = 1 ∧ (twin.get 0).kid i = 2 := by
    intro i hi
    rcases Nat.le_one_iff_eq_zero_or_eq_one.mp hi with rfl | rfl
    · exact Or.inl ⟨rfl, rfl⟩
    · exact Or.inr ⟨rfl, rfl⟩
  refine ⟨by decide, rfl, by decide, fun i hi => ?_, ⟨fun i hi hm => ?_, fun i j x hi hj hij hx hx' => ?_⟩⟩
  · rcases hkid i hi with ⟨_, he⟩ | ⟨_, he⟩ <;> rw [he] <;> exact ⟨by decide, rfl, by decide⟩
  · rcases hkid i hi with ⟨_, he⟩ | ⟨_, he⟩ <;> rw [he] at hm <;> cases hm
  · rcases hkid i hi with ⟨rfl, he⟩ | ⟨rfl, he⟩ <;> rcases hkid j hj with ⟨rfl, he'⟩ | ⟨rfl, he'⟩
    · exact hij rfl
    · rw [he] at hx; rw [he'] at hx'; cases hx; cases hx'
    · rw [he] at hx; rw [he'] at hx'; cases hx; cases hx'
    · exact hij rfl

theorem split_pairs_twin : pairs (nodeSplit 1 twin 0 0) 1 0 = pairs twin 1 0 ∧
    pairs (rootSplit twin 1) 1 1 = pairs twin 0 1 :=
  ⟨((split_pairs twin).1 0 1 0 0 (by decide) twin_shaped (by decide) (by decide) rfl (by decide)).1,
    (split_pairs twin).2 0 1 ⟨by decide, rfl, by decide⟩ rfl⟩

/-- 分けた二つの葉で値のある添字のビットがすべて立っているのは、根を分けるときは値がすべて nil のとき、内部の節の子を
分けるときは、後半の値が移る添字で、`RGHT` になる節のビットが立っているときで、そのときに限る。 -/
theorem split_marks_iff (h : Heap K Q) (fuel : Nat) :
    (∀ a, a < h.size → (h.get a).innerp = false → (h.get a).n = 63 → (h.get a).Marked →
      (((rootSplit h a).get h.size).Marked ∧ ((rootSplit h a).get (h.size + 1)).Marked ↔
        ∀ i, i < 63 → ((h.get a).value i).nilP = true)) ∧
    (∀ a idx, Shaped h 1 a → (h.get a).n ≤ 62 → idx ≤ (h.get a).n → (h.get ((h.get a).kid idx)).n = 63 →
      (h.get ((h.get a).kid idx)).Marked →
      (((nodeSplit fuel h a idx).get ((h.get a).kid idx)).Marked ∧
        ((nodeSplit fuel h a idx).get (spareAddr h (h.get a) (spareIdx fuel h (h.get a)))).Marked ↔
        splitsClean fuel h (h.get a) idx)) :=
  ⟨fun _ ha hl _ _ => rootSplit_marked_iff ha hl, fun _ _ hs _ hidx hfull hm => nodeSplit_marked_iff hs hidx hm hfull⟩

theorem split_marks_twin :
    (((rootSplit twin 1).get 3).Marked ∧ ((rootSplit twin 1).get 4).Marked ↔
      ∀ i, i < 63 → ((twin.get 1).value i).nilP = true) ∧
    (((nodeSplit 1 twin 0 0).get 1).Marked ∧
      ((nodeSplit 1 twin 0 0).get (spareAddr twin (twin.get 0) (spareIdx 1 twin (twin.get 0)))).Marked ↔
      splitsClean 1 twin (twin.get 0) 0) :=
  ⟨(split_marks_iff twin 1).1 1 (by decide) rfl rfl (by decide),
    (split_marks_iff twin 1).2 0 0 twin_shaped (by decide) (by decide) rfl (by decide)⟩

/-- 昇順に 63 個のキーを加えた木の根を分けると、値の入った二つの葉のビットは空になる。 -/
theorem split_unmarks_filled :
    ((run false ((List.range 63).map fun k => .put k ⟨1, 0⟩) : Heap Nat Nat).get root).n = 63 ∧
    ((run false ((List.range 63).map fun k => .put k ⟨1, 0⟩) : Heap Nat Nat).get root).Marked ∧
    ¬ ((rootSplit (run false ((List.range 63).map fun k => .put k ⟨1, 0⟩) : Heap Nat Nat) root).get 1).Marked := by
  decide +kernel

end Books.Btree
