import Books.Btree.Lemmas.Marks

/-!
# 実行と `used` のビット

ビットを失う追加がなければ、どの実行でも、値が nil でない場所のビットはすべて立っている。
-/

set_option linter.unusedSectionVars false

namespace Books.Btree

open Books.Lib

variable {K Q : Type} [LinearOrder K] [LinearOrder Q] [Zero Q]
variable {descp : Bool} {h h' : Heap K Q} {lo hi : Option K} {d cap fuel : Nat} {a x : Addr} {k : K}
  {v : BtreeVal Q} {c : Cell}

/-! ## ビットを失う追加 -/

/-- 先送りした分割で葉である根が分かれるなら、値が nil でないキーは `k` しかない。分かれた葉のビットはすべて消える。 -/
def splitKeepsMarks (h : Heap K Q) (k : Option K) : Bool :=
  !((h.get root).splitp && !(h.get root).innerp) ||
    (List.range (h.get root).n).all fun i => ((h.get root).value i).nilP || keyEq k ((h.get root).key.get i)

/-- キー `k` の `btree_put` は、値が nil でない場所のビットを失わない。 -/
def putKeepsMarks (h : Heap K Q) (k : Option K) : Bool :=
  splitKeepsMarks h k &&
    ((rooted h).get (leafAt (rooted h) (rooted h).size root k)).shiftsClean k &&
    (!((rooted h).get root).innerp || keepsMarks (rooted h) (rooted h).size root k)

/-! ## 形の変わらない操作 -/

/-- 値が nil でない場所が増えず、そのビットが同じなら、条件は保たれる。 -/
theorem Marked.same (M : Marked h d root) (hs : Sub h descp d 63 root lo hi)
    (hshape : ∀ x, (h.get x).SameShape (h'.get x))
    (hlive : ∀ x i, i < 64 → ((h'.get x).value i).nilP = false →
      ((h.get x).value i).nilP = false ∧ (h'.get x).used.getLsbD i = (h.get x).used.getLsbD i) :
    Marked h' d root := by
  intro x hx hl i hi' hv
  have hx' := (hs.mem_frame (fun y _ => hshape y)).mp hx
  rw [(hshape x).innerp] at hl
  rw [(hshape x).n] at hi'
  have hn := hs.mem_n_le (Nat.le_refl _) hx'
  obtain ⟨hv', hb⟩ := hlive x i (by omega) hv
  rw [hb]
  exact M x hx' hl i hi' hv'

/-- ビットの立った場所への書き込みと、nil の書き込みは、条件を保つ。 -/
theorem Marked.store (M : Marked h d root) (hs : Sub h descp d 63 root lo hi) (hl : (h.get c.t).innerp = false)
    (hc : c.t < h.size) (hb : (h.get c.t).used.getLsbD c.i = true ∨ v.nilP = true) : Marked (h.store c v) d root := by
  have hshape := sameShape_store (v := v) hl
  have hused : ∀ x, ((h.store c v).get x).used = (h.get x).used := by
    intro x
    by_cases hx : x = c.t
    · subst hx; rw [Heap.get_store_eq hc]
    · rw [Heap.get_store_ne hx]
  intro x hx hlx i hi' hv
  have hx' := (hs.mem_frame (fun y _ => hshape y)).mp hx
  rw [(hshape x).innerp] at hlx
  rw [(hshape x).n] at hi'
  rw [hused]
  have hn := hs.mem_n_le (Nat.le_refl _) hx'
  by_cases hci : (⟨x, i⟩ : Cell) = c
  · subst hci
    rcases hb with hb | hb
    · exact hb
    · have hload : (h.store ⟨x, i⟩ v).load ⟨x, i⟩ = v := load_store_eq hc (by simp only; omega)
      rw [Heap.load] at hload
      rw [hload, hb] at hv; cases hv
  · have hload : (h.store c v).load ⟨x, i⟩ = h.load ⟨x, i⟩ := load_store_ne hci
    simp only [Heap.load] at hload
    rw [hload] at hv
    exact M x hx' hlx i hi' hv

theorem clrFrom_used : ∀ (fuel : Nat) (h : Heap K Q) (a x : Addr), ((clrFrom fuel h a).get x).used = (h.get x).used
  | 0, _, _, _ => rfl
  | fuel + 1, h, a, x => by
      have hu : ((h.modify a Node.clear).get x).used = (h.get x).used := by
        by_cases hlt : a < h.size
        · by_cases hx : a = x
          · subst hx; rw [Heap.get_modify_eq _ hlt]; rfl
          · rw [Heap.get_modify_ne _ hx]
        · rw [Heap.modify, Heap.set_of_le _ (Nat.le_of_not_lt hlt)]
      simp only [clrFrom]
      cases ((h.modify a Node.clear).get a).next with
      | none => exact hu
      | some y => exact (clrFrom_used fuel _ y x).trans hu

/-! ## `btree_put` -/

/-- 葉である根を分けると、条件はキー `k` を除いて成り立つ。 -/
theorem Inv.markedBut_rootSplit (I : Inv h descp d) (hsp : (h.get root).splitp = true) (M : Marked h d root)
    (hk : splitKeepsMarks h (some k) = true) : MarkedBut (rootSplit h root) (d + 1) root k := by
  have hn := I.n_eq_of_splitp hsp
  have H := rootSplit_halves I.sub
  obtain ⟨h₁, h₂, _⟩ := rootSplit_root I.sub.lt_size
  rintro x (rfl | ⟨i, hi', hx⟩) hl
  · rw [h₂] at hl; cases hl
  · have hx' : x = h.size ∨ x = h.size + 1 ∨ (Mem h d root x ∧ x ≠ root) := by
      rcases rootSplit_kid I.sub hi' with ⟨_, he⟩ | ⟨_, he⟩
      · rw [he] at hx
        rcases H.l_mem I.sub hn hx with rfl | hm
        · exact Or.inl rfl
        · exact Or.inr (Or.inr hm)
      · rw [he] at hx
        rcases H.r_mem I.sub hn hx with rfl | hm
        · exact Or.inr (Or.inl rfl)
        · exact Or.inr (Or.inr hm)
    have hroot : (h.get root).innerp = false → ∀ j, j < 63 → ((h.get root).value j).nilP = false →
        (h.get root).key.get j = some k := by
      intro hlr j hj hv
      simp only [splitKeepsMarks, hsp, hlr, Bool.not_false, Bool.and_true, Bool.not_true, Bool.false_or,
        List.all_eq_true, List.mem_range, Bool.or_eq_true] at hk
      rcases hk j (by omega) with hnil | hkey
      · rw [hv] at hnil; cases hnil
      · obtain ⟨y, hy, he⟩ := keyEq_iff.mp hkey
        cases hy; exact he
    rcases hx' with rfl | rfl | ⟨hm, hne⟩
    · intro j hj hv
      rw [H.l_innerp] at hl
      rw [H.l_key j hj]
      rw [H.l_n, hl, piv_eq] at hj
      simp only [Bool.not_false, Bool.toNat_true] at hj
      rw [Node.value, H.l_val j (by rw [piv_eq]; omega)] at hv
      exact Or.inr (hroot hl j (by omega) hv)
    · intro j hj hv
      rw [H.r_innerp] at hl
      rw [H.r_n, piv_eq] at hj
      rw [H.r_key j (by rw [piv_eq]; omega)]
      rw [Node.value, H.r_val j (by rw [piv_eq]; omega)] at hv
      exact Or.inr (hroot hl _ (by rw [piv_eq]; omega) hv)
    · rw [rootSplit_rest (I.sub.mem_lt_size hm) hne] at hl ⊢
      exact (M x hm hl).but k

theorem Inv.markedBut_rooted {d' : Nat} (I : Inv h descp d) (M : Marked h d root)
    (hk : splitKeepsMarks h (some k) = true) (hs : Sub (rooted h) descp d' 62 root none none) :
    MarkedBut (rooted h) d' root k := by
  unfold rooted at hs ⊢
  cases hsp : (h.get root).splitp with
  | false =>
      rw [hsp] at hs
      rw [← I.sub.depth_unique hs]
      exact fun x hx hl => (M x hx hl).but k
  | true =>
      rw [hsp] at hs
      have he := (rootSplit_sub I.sub (I.n_eq_of_splitp hsp)).depth_unique hs
      rw [← he]
      exact I.markedBut_rootSplit hsp M hk

theorem Sub.marksAdd_rooted {h : Heap K Q} (hs : Sub h descp d 62 root none none) (hd : d < h.size)
    (hB : MarkedBut h d root k) (hc : (h.get (leafAt h h.size root (some k))).shiftsClean (some k) = true)
    (hk : (!(h.get root).innerp || keepsMarks h h.size root (some k)) = true) :
    MarksAdd d root (addRooted h (some k)) := by
  rw [hs.leafAt_eq (Nat.le_of_lt hd)] at hc
  unfold addRooted
  cases d with
  | zero =>
      rw [hs.2.innerp]
      exact hs.marksAdd_leaf hB hc
  | succ d =>
      rw [hs.2.1.innerp, Bool.not_true, Bool.false_or] at hk
      rw [hs.2.1.innerp]
      exact Sub.marksAdd hd (Nat.le_of_lt hd) hs (above_none k) (upto_none k) hB hc hk

/-- `putKeepsMarks` である追加の後は、値が nil でない場所と返した場所のビットが立っている。 -/
theorem Inv.marked_put {d' : Nat} (I : Inv h descp d) (M : Marked h d root) (hk : putKeepsMarks h (some k) = true)
    (I' : Inv (btreePut h root (some k)).1 descp d') : Marked (btreePut h root (some k)).1 d' root ∧
    ((btreePut h root (some k)).1.get (btreePut h root (some k)).2.t).used.getLsbD
      (btreePut h root (some k)).2.i = true := by
  simp only [putKeepsMarks, Bool.and_eq_true] at hk
  obtain ⟨d₁, R⟩ := I.rooted_ok k
  have A := R.sub.addRooted_ok R.depth k
  have M₁ := R.sub.marksAdd_rooted R.depth (I.markedBut_rooted M hk.1.1 R.sub) hk.1.2 hk.2
  rw [btreePut_eq] at I' ⊢
  have hall := get_modify_splitp (addRooted (rooted h) (some k)).heap (addRooted (rooted h) (some k)).splitp
  have hshape : ∀ x, ((addRooted (rooted h) (some k)).heap.get x).SameShape
      (((addRooted (rooted h) (some k)).heap.modify root
        fun t => { t with splitp := (addRooted (rooted h) (some k)).splitp }).get x) := by
    intro x
    obtain ⟨b, hb⟩ := hall x
    rw [hb]; exact ⟨rfl, rfl, rfl, rfl, fun _ => rfl⟩
  have hs₂ := A.sub.frame (fun y hy => ⟨by rw [Heap.size_modify]; exact A.sub.mem_lt_size hy, hshape y⟩)
  rw [I'.sub.depth_unique hs₂]
  constructor
  · refine M₁.marked.same A.sub hshape (fun x i _ hv => ?_)
    obtain ⟨b, hb⟩ := hall x
    rw [hb] at hv ⊢
    exact ⟨hv, rfl⟩
  · obtain ⟨b, hb⟩ := hall (addRooted (rooted h) (some k)).cell.t
    simp only
    rw [hb]
    exact M₁.cell

/-! ## 実行 -/

/-- 追加が、葉のつながりを壊さず、ビットも失わない。 -/
def KeepsIter (h : Heap K Q) : Op K Q → Prop
  | .put k _ => breaksChain h (some k) = false ∧ putKeepsMarks h (some k) = true
  | _ => True

theorem KeepsIter.keepsChain {op : Op K Q} (hop : KeepsIter h op) : KeepsChain h op := by
  cases op with
  | put k x => exact hop.1
  | rem k => trivial
  | clr => trivial
  | iter m => trivial

theorem Inv.marked_step {d' : Nat} (I : Inv h descp d) (M : Marked h d root) (op : Op K Q) (hop : KeepsIter h op)
    (I' : Inv (step h op) descp d') : Marked (step h op) d' root := by
  cases op with
  | put k x =>
      obtain ⟨d₁, P⟩ := I.put k
      obtain ⟨M₁, hb⟩ := I.marked_put M hop.2 P.inv
      rw [I'.sub.depth_unique (P.inv.same (.store P.leaf.2)).sub]
      exact M₁.store P.inv.sub P.leaf.2 (P.inv.sub.mem_lt_size P.leaf.1) (Or.inl hb)
  | rem k =>
      simp only [step, btreeRem] at I' ⊢
      cases hg : btreeGet h root (some k) with
      | none =>
          rw [hg] at I'
          rw [I'.sub.depth_unique I.sub]
          exact M
      | some c =>
          rw [hg] at I'
          have hc := (I.sub.btreeGet_iff (Nat.le_refl _) I.depth).mp hg
          rw [I'.sub.depth_unique (I.same (.store hc.leaf)).sub]
          exact M.store I.sub hc.leaf (I.sub.mem_lt_size hc.mem) (Or.inr (by simp [BtreeVal.nilP, BtreeVal.nil]))
  | clr =>
      have hb := I.sub.bottom_leaf (Nat.le_of_lt I.depth)
      have H := clrFrom_same h.size h _ I.leafNext hb.2
      rw [I'.sub.depth_unique (I.same H).sub]
      refine M.same I.sub H.shape (fun x i _ hv => ⟨?_, congrArg (·.getLsbD i) (clrFrom_used _ _ _ _)⟩)
      by_contra hv'
      have hnil := clrFrom_nil h.size h (bottom h h.size root) x i (by simpa using hv')
      simp only [step, btreeClr] at hv
      rw [hnil] at hv; cases hv
  | iter m =>
      have H := iterTimes_usedOnly m h (.fresh root)
      rw [I'.sub.depth_unique (I.same H.same).sub]
      refine M.same I.sub H.same.shape (fun x i hi' hv => ?_)
      simp only [step] at hv ⊢
      rw [H.value_eq] at hv
      exact ⟨hv, H.marks x i hi' hv⟩

theorem marked_makeBtree (descp : Bool) : Marked (makeBtree descp : Heap K Q) 0 root := by
  rintro x rfl _ i hi'
  exact absurd hi' (Nat.not_lt_zero i)

theorem marked_run {descp : Bool} {ops : List (Op K Q)} (hops : Throughout KeepsIter (makeBtree descp) ops) :
    ∃ d, Inv (run descp ops) descp d ∧ Linked (run descp ops) d ∧ Marked (run descp ops) d root := by
  refine throughout_induction (J := fun h => ∃ d, Inv h descp d ∧ Linked h d ∧ Marked h d root) ?_ ops _
    ⟨0, inv_makeBtree descp, linked_makeBtree descp, marked_makeBtree descp⟩ hops
  rintro h op ⟨d, I, L, M⟩ hop
  obtain ⟨d', I', L'⟩ := I.linked_step L op hop.keepsChain
  exact ⟨d', I', L', I.marked_step M op hop I'⟩

/-- 値が nil でない場所のビットがすべて立っていれば、ビットによらずに場所を選んでよい。 -/
theorem Inv.markedAt_eq (I : Inv h descp d) (M : Marked h d root) :
    (leaves h).flatMap (cellsBy Node.markedAt h) = (leaves h).flatMap (cellsBy Node.liveAt h) := by
  refine List.flatMap_congr (fun x hx => ?_)
  rw [show leaves h = (blocks h d root).flatten from I.sub.leavesOf_eq I.depth] at hx
  obtain ⟨hm, hl⟩ := I.sub.mem_blocks.mp hx
  refine congrArg (List.map _) (List.filter_congr (fun i hi' => ?_))
  rw [List.mem_range] at hi'
  simp only [Node.markedAt, Node.liveAt]
  cases hv : ((h.get x).value i).nilP with
  | true => simp
  | false => simp [M x hm hl i hi' hv]

end Books.Btree
