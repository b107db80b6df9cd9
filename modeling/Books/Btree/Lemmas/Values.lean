import Books.Btree.Lemmas.Run

/-!
# ヒープにあるキーと値

`btree.c` の操作は、キーと値を移すか、NaN と nil を書くかするだけで、加えるキーのほかに新しいものを作らない。NaN と加える
キーが満たす条件は、確保した節のどのキーも満たす。nil と、呼び出し側の書き込む値が満たす条件は、どの値も満たす。
-/

set_option linter.unusedSectionVars false

namespace Books.Btree

open Books.Lib

variable {K Q : Type} [LinearOrder K] [LinearOrder Q] [Zero Q]
variable {O : Option K → Prop} {P : BtreeVal Q → Prop} {h h' : Heap K Q} {t r c p : Node K Q} {a : Addr} {k : Option K}
  {v : BtreeVal Q}

/-- 節のキーは `O` を、値は `P` を満たす。添字が `n` 以上のものも含む。 -/
structure Node.All (O : Option K → Prop) (P : BtreeVal Q → Prop) (t : Node K Q) : Prop where
  key : t.key.All O
  val : t.val.All fun u => P u.asV

/-- 確保した節のキーは `O` を、値は `P` を満たす。 -/
def Heap.All (O : Option K → Prop) (P : BtreeVal Q → Prop) (h : Heap K Q) : Prop := ∀ a, (h.get a).All O P

/-! ## 節の書き換え -/

section Nodes

theorem all_const (hP : P .nil) : (Arr.const 64 (.v .nil) : Arr 64 (Ual Q)).All fun u => P u.asV := by
  refine Arr.All.const ?_ ?_
  · exact hP
  · exact hP

theorem all_set {vs : Arr 64 (Ual Q)} (H : vs.All fun u => P u.asV) (u : Ual Q) (hu : P u.asV) (i : Nat) :
    (vs.set i u).All fun u => P u.asV := Arr.All.set H hu i

theorem Node.all_make (hO : O none) (hP : P .nil) (descp : Bool) : (Node.make descp : Node K Q).All O P :=
  ⟨.const hO hO, all_const hP⟩

theorem Node.All.leafShift (H : t.All O P) (i nul : Nat) : (t.leafShift i nul).1.All O P := by
  unfold Node.leafShift
  split
  · exact ⟨.copy H.key H.key _ _ _, .copy H.val H.val _ _ _⟩
  · split
    · exact ⟨.copy H.key H.key _ _ _, .copy H.val H.val _ _ _⟩
    · exact H

theorem Node.All.leafAdd (hP : P .nil) (H : t.All O P) (hk : O k) : (t.leafAdd k).1.All O P := by
  unfold Node.leafAdd
  simp only
  split
  · exact ⟨H.key, H.val⟩
  · have hs := H.leafShift (t.seek k) t.nulIdx
    exact ⟨.set hs.key hk _, all_set hs.val (.v .nil) hP _⟩

theorem Node.All.clear (hP : P .nil) (H : t.All O P) : t.clear.All O P :=
  ⟨H.key, .copy H.val (all_const hP) _ _ _⟩

theorem Node.All.splitParent (hP : P .nil) (H : p.All O P) (idx nul : Nat) {s : Option K} (hs : O s) (rght : Addr) :
    (splitParent p idx nul s rght).All O P := by
  have hshift : (splitShift p idx nul).1.All O P := by
    unfold splitShift
    split
    · exact ⟨.copy H.key H.key _ _ _, .copy H.val H.val _ _ _⟩
    · split
      · exact ⟨.copy H.key H.key _ _ _, .copy H.val H.val _ _ _⟩
      · exact H
  exact ⟨.set hshift.key hs _, all_set hshift.val (.t rght) hP _⟩

theorem Node.All.splitRght (hO : O none) (Hr : r.All O P) (Hc : c.All O P) : (splitRght r c).All O P :=
  ⟨.fill hO (.copy Hr.key Hc.key _ _ _) hO _, .copy Hr.val Hc.val _ _ _⟩

theorem Node.All.splitChld (hO : O none) (H : c.All O P) (rght : Addr) : (splitChld c rght).All O P :=
  ⟨.fill hO H.key hO _, H.val⟩

end Nodes

/-! ## ヒープの書き換え -/

namespace Heap.All

theorem set (H : h.All O P) (ht : t.All O P) : (h.set a t).All O P := by
  intro x
  by_cases hx : a = x
  · subst hx
    by_cases hlt : a < h.size
    · rw [Heap.get_set_eq _ hlt]; exact ht
    · rw [Heap.set_of_le _ (Nat.le_of_not_lt hlt)]; exact H a
  · rw [Heap.get_set_ne _ hx]; exact H x

theorem modify (H : h.All O P) {f : Node K Q → Node K Q} (hf : ∀ t : Node K Q, t.All O P → (f t).All O P) :
    (h.modify a f).All O P := H.set (hf _ (H a))

theorem store (H : h.All O P) {c : Cell} (hv : P v) : (h.store c v).All O P :=
  H.modify (fun _ ht => ⟨ht.key, all_set ht.val (.v v) hv _⟩)

theorem usedOnly (H : h.All O P) (U : h.UsedOnly h') : h'.All O P := by
  intro x
  obtain ⟨u, hu⟩ := U.get x
  rw [hu]
  exact ⟨(H x).key, (H x).val⟩

variable (hO : O none) (hP : P .nil)
include hO hP

theorem push (H : h.All O P) (ht : t.All O P) : (h.push t).All O P := by
  intro x
  rcases Nat.lt_trichotomy x h.size with hx | rfl | hx
  · rw [Heap.get_push_lt _ hx]; exact H x
  · rw [Heap.get_push_eq]; exact ht
  · rw [Heap.get_of_le (by rw [Heap.size_push]; exact hx)]
    exact Node.all_make hO hP false

theorem makeBtree (descp : Bool) : (makeBtree descp : Heap K Q).All O P := by
  intro x
  by_cases hx : x < 1
  · obtain rfl : x = 0 := Nat.lt_one_iff.mp hx
    exact Node.all_make hO hP descp
  · rw [Heap.get_of_le (Nat.le_of_not_lt hx)]
    exact Node.all_make hO hP false

theorem rootSplit (H : h.All O P) (a : Addr) : (rootSplit h a).All O P := by
  have hm := Node.all_make (K := K) hO hP (h.get a).descp
  unfold Btree.rootSplit
  simp only
  refine Heap.All.modify (push hO hP (push hO hP H ?_) ?_) (fun r hr => ?_)
  · exact ⟨.copy hm.key (H a).key _ _ _, .copy hm.val (H a).val _ _ _⟩
  · exact ⟨.copy hm.key (H a).key _ _ _, .copy hm.val (H a).val _ _ _⟩
  · exact ⟨.fill hO (.set hr.key (hr.key _) _) hO _, all_set (all_set hr.val (.t h.size) hP _) (.t (h.size + 1)) hP _⟩

theorem splitSpare (H : h.All O P) (p : Node K Q) (idx nul : Nat) : (splitSpare h p idx nul).1.All O P := by
  unfold Btree.splitSpare
  split
  · exact push hO hP H (Node.all_make hO hP _)
  · simp only
    split
    · exact H.modify (fun _ ht => ⟨ht.key, ht.val⟩)
    · exact H

theorem nodeSplit (H : h.All O P) (fuel : Nat) (prnt : Addr) (idx : Nat) : (nodeSplit fuel h prnt idx).All O P := by
  unfold Btree.nodeSplit
  simp only
  have H₁ := H.splitSpare hO hP (h.get prnt) idx (spareIdx fuel h (h.get prnt))
  generalize Btree.splitSpare h (h.get prnt) idx (spareIdx fuel h (h.get prnt)) = s at H₁ ⊢
  refine Heap.All.modify ?_ (fun c hc => hc.splitChld hO _)
  have H₂ : (s.1.modify prnt fun p => Btree.splitParent p idx (spareIdx fuel h (h.get prnt))
      ((s.1.get ((h.get prnt).kid idx)).key.get piv) s.2).All O P :=
    H₁.modify (fun p hp => hp.splitParent hP _ _ ((H₁ _).key _) _)
  exact H₂.modify (fun r hr => hr.splitRght hO (H₂ _))

omit hO in
theorem leafAdd (H : h.All O P) (a : Addr) (hk : O k) : (leafAdd h a k).heap.All O P := H.set ((H a).leafAdd hP hk)

theorem twigAdd (hk : O k) : ∀ (fuel : Nat) (h : Heap K Q) (a : Addr), h.All O P → (twigAdd fuel h a k).heap.All O P
  | 0, _, _, H => H
  | fuel + 1, h, a, H => by
      unfold Btree.twigAdd
      simp only
      have Hadd : (if (!(h.get ((h.get a).kid ((h.get a).seek k))).innerp) = true then
          Btree.leafAdd h ((h.get a).kid ((h.get a).seek k)) k
          else Btree.twigAdd fuel h ((h.get a).kid ((h.get a).seek k)) k).heap.All O P := by
        split
        · exact H.leafAdd hP _ hk
        · exact Heap.All.twigAdd hk fuel h _ H
      generalize (if (!(h.get ((h.get a).kid ((h.get a).seek k))).innerp) = true then
          Btree.leafAdd h ((h.get a).kid ((h.get a).seek k)) k
          else Btree.twigAdd fuel h ((h.get a).kid ((h.get a).seek k)) k) = r at Hadd ⊢
      split
      · exact Hadd.nodeSplit hO hP _ _ _
      · exact Hadd

/-- `btree_put` は、キーと値を移すか、キー `k` と NaN と nil を書くかする。 -/
theorem btreePut (H : h.All O P) (a : Addr) (hk : O k) : (btreePut h a k).1.All O P := by
  have Hroot : (if (h.get a).splitp then Btree.rootSplit h a else h).All O P := by
    split
    · exact H.rootSplit hO hP a
    · exact H
  unfold Btree.btreePut
  simp only
  generalize (if (h.get a).splitp = true then Btree.rootSplit h a else h) = h₁ at Hroot ⊢
  split
  · exact (Hroot.leafAdd hP a hk).modify (fun _ ht => ⟨ht.key, ht.val⟩)
  · exact (Heap.All.twigAdd hO hP hk _ _ a Hroot).modify (fun _ ht => ⟨ht.key, ht.val⟩)

omit hO in
theorem clrFrom : ∀ (fuel : Nat) (h : Heap K Q) (a : Addr), h.All O P → (clrFrom fuel h a).All O P
  | 0, _, _, H => H
  | fuel + 1, h, a, H => by
      have Hclear : (h.modify a Node.clear).All O P := H.modify (fun _ ht => ht.clear hP)
      unfold Btree.clrFrom
      simp only
      split
      · exact Hclear
      · exact Heap.All.clrFrom fuel _ _ Hclear

end Heap.All

end Books.Btree
