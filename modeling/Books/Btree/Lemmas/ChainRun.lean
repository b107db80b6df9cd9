import Books.Btree.Lemmas.ChainPut

/-!
# 実行とつながり

先頭の葉を使い回して `next` を壊す追加がなければ、どの実行でも葉のつながりが保たれる。
-/

set_option linter.unusedSectionVars false

namespace Books.Btree

open Books.Lib

variable {K Q : Type} [LinearOrder K] [LinearOrder Q] [Zero Q]
variable {descp : Bool} {h h' : Heap K Q} {lo hi : Option K} {d cap fuel : Nat} {a x : Addr} {k : K}
  {W : List Addr} {s e : Option Addr} {v : BtreeVal Q} {c : Cell}

/-- 木の葉のつながり。 -/
def Linked (h : Heap K Q) (d : Nat) : Prop := ∃ s W, Seg h (blocks h d root) s W none

theorem Sub.depth_unique : ∀ {d d' cap cap' : Nat} {a : Addr} {lo hi lo' hi' : Option K},
    Sub h descp d cap a lo hi → Sub h descp d' cap' a lo' hi' → d = d'
  | 0, 0, _, _, _, _, _, _, _, _, _ => rfl
  | 0, d' + 1, _, _, _, _, _, _, _, hs, hs' => by
      have hl := hs.2.innerp
      rw [hs'.2.1.innerp] at hl; cases hl
  | d + 1, 0, _, _, _, _, _, _, _, hs, hs' => by
      have hl := hs'.2.innerp
      rw [hs.2.1.innerp] at hl; cases hl
  | d + 1, d' + 1, _, _, _, _, _, _, _, hs, hs' => by
      rw [Sub.depth_unique (hs.2.1.kids 0 (Nat.zero_le _)) (hs'.2.1.kids 0 (Nat.zero_le _))]

/-! ## 形の変わらない操作 -/

theorem Linked.same (L : Linked h d) (hs : Sub h descp d cap root lo hi) (hsize : h'.size = h.size)
    (hshape : ∀ x, (h.get x).SameShape (h'.get x)) (hnext : ∀ x, (h'.get x).next = (h.get x).next)
    (hdead : ∀ x, x ∉ (blocks h d root).flatten → Dead h x → Dead h' x) : Linked h' d := by
  obtain ⟨s, W, G⟩ := L
  refine ⟨s, W, ?_⟩
  rw [hs.blocks_frame (fun y _ => hshape y)]
  exact G.frame (Nat.le_of_eq hsize.symm) (fun x _ => hnext x) (fun x _ => hdead x)

theorem Linked.store (L : Linked h d) (hs : Sub h descp d cap root lo hi) (hm : Mem h d root c.t)
    (hl : (h.get c.t).innerp = false) : Linked (h.store c v) d := by
  have H := Heap.Same.store (v := v) hl
  refine L.same hs H.size H.shape H.next (fun x hx hd => hd.of_get_eq (Heap.get_store_ne ?_))
  rintro rfl
  exact hx (hs.mem_blocks.mpr ⟨hm, hl⟩)

theorem Heap.UsedOnly.dead (H : h.UsedOnly h') (hd : Dead h x) : Dead h' x := by
  obtain ⟨u, hu⟩ := H.get x
  refine ⟨by rw [hu]; exact hd.leaf, by rw [hu]; exact hd.n_le, fun i hi' => ?_⟩
  rw [hu] at hi' ⊢
  exact hd.nil i hi'

theorem Linked.usedOnly (L : Linked h d) (hs : Sub h descp d cap root lo hi) (H : h.UsedOnly h') : Linked h' d :=
  L.same hs H.same.size H.same.shape H.same.next (fun _ _ hd => H.dead hd)

theorem Node.clear_nil (t : Node K Q) (hn : t.n ≤ 64) {i : Nat} (hi : i < t.n) : (t.clear.value i).nilP = true := by
  have hv : t.clear.value i = .nil := by
    simp only [clear, value]
    rw [Arr.get_copy _ _ (by omega) (by omega), if_pos (by omega), Arr.get_const _ (by omega)]
    rfl
  rw [hv]
  simp [BtreeVal.nilP, BtreeVal.nil]

theorem Node.clear_keeps_nil (t : Node K Q) {i : Nat} (hv : (t.value i).nilP = true) :
    (t.clear.value i).nilP = true := by
  by_cases hn : t.n ≤ 64
  · by_cases hi : i < t.n
    · exact t.clear_nil hn hi
    · have he : t.clear.value i = t.value i := by
        simp only [clear, value]
        rw [Arr.get_copy _ _ (by omega) (by omega), if_neg (by omega)]
      rw [he]; exact hv
  · have he : t.clear.value i = t.value i := by
      simp only [clear, value, Arr.copy]
      rw [dif_neg (by omega)]
    rw [he]; exact hv

theorem modify_clear_nil {i : Nat} (hv : ((h.get x).value i).nilP = true) :
    (((h.modify a Node.clear).get x).value i).nilP = true := by
  by_cases hx : a = x
  · subst hx
    by_cases hlt : a < h.size
    · rw [Heap.get_modify_eq _ hlt]; exact Node.clear_keeps_nil _ hv
    · rw [Heap.modify, Heap.set_of_le _ (Nat.le_of_not_lt hlt)]; exact hv
  · rw [Heap.get_modify_ne _ hx]; exact hv

/-- `btree_clr` は、nil の値を nil のままにする。 -/
theorem clrFrom_nil : ∀ (fuel : Nat) (h : Heap K Q) (a x : Addr) (i : Nat), ((h.get x).value i).nilP = true →
    (((clrFrom fuel h a).get x).value i).nilP = true
  | 0, _, _, _, _, hv => hv
  | fuel + 1, h, a, x, i, hv => by
      have hv' := modify_clear_nil (a := a) hv
      simp only [clrFrom]
      cases ((h.modify a Node.clear).get a).next with
      | none => exact hv'
      | some y => exact clrFrom_nil fuel _ y x i hv'

theorem Heap.Same.dead (H : h.Same h')
    (hv : ∀ i, ((h.get x).value i).nilP = true → ((h'.get x).value i).nilP = true) (hd : Dead h x) : Dead h' x :=
  ⟨by rw [(H.shape x).innerp]; exact hd.leaf, by rw [(H.shape x).n]; exact hd.n_le, fun i hi' => hv i (hd.nil i (by rw [← (H.shape x).n]; exact hi'))⟩

/-! ## `btree_put` -/

/-- 先送りした根の分割は、つながりを保つ。 -/
theorem Inv.linked_rootSplit (I : Inv h descp d) (hn : (h.get root).n = 63) (L : Linked h d) :
    Linked (rootSplit h root) (d + 1) := by
  have H := rootSplit_halves I.sub
  have hlt := I.sub.lt_size
  obtain ⟨h₁, h₂, _, _, h₅, h₆, _⟩ := rootSplit_root hlt
  have hkids : ((rootSplit h root).get root).kids = [h.size, h.size + 1] := by
    rw [Node.kids_eq, h₁, show 1 + 1 = 2 from rfl, span_succ, span_succ, h₅, h₆]; rfl
  cases d with
  | zero =>
      refine ⟨some h.size, [h.size, h.size + 1], ?_, ?_, ?_, ?_⟩
      · refine ⟨rfl, ?_, ?_⟩
        · simp only [rootSplit_left hlt]
        · simp only [rootSplit_rght hlt]; rfl
      · simp only [blocks, hkids]
        have hw := Woven.block (D := Dead (rootSplit h root)) [h.size, h.size + 1] Woven.nil
        rw [List.append_nil] at hw
        exact hw
      · simp
      · intro x hx
        rw [rootSplit_size]
        simp only [List.mem_cons, List.not_mem_nil, or_false] at hx
        rcases hx with rfl | rfl
        · exact Nat.lt_succ_of_lt (Nat.lt_succ_self _)
        · exact Nat.lt_succ_self _
  | succ d =>
      obtain ⟨s, W, G⟩ := L
      have hleaf : ∀ x ∈ W, (h.get x).innerp = false := by
        intro x hx
        rcases G.woven.mem x hx with hb | hd
        · exact (I.sub.mem_blocks.mp hb).2
        · exact hd.leaf
      have hget : ∀ x ∈ W, (rootSplit h root).get x = h.get x := by
        intro x hx
        refine rootSplit_rest (G.lt x hx) ?_
        rintro rfl
        have hl := hleaf _ hx
        rw [I.sub.2.1.innerp] at hl; cases hl
      have G' : Seg (rootSplit h root) (blocks h (d + 1) root) s W none :=
        G.frame (by rw [rootSplit_size]; omega) (fun x hx => by rw [hget x hx])
          (fun x hx _ hd => hd.of_get_eq (hget x hx))
      refine ⟨s, W, { G' with woven := ?_ }⟩
      have hw := G'.woven
      rw [← List.append_nil (blocks h (d + 1) root), ← List.nil_append (blocks h (d + 1) root ++ [])] at hw
      have hw' := H.woven I.sub hn hw
      simp only [blocks, hkids, List.flatMap_cons, List.flatMap_nil]
      simpa using hw'

theorem Inv.linked_rooted {d' : Nat} (I : Inv h descp d) (L : Linked h d)
    (hs : Sub (rooted h) descp d' 62 root none none) : Linked (rooted h) d' := by
  unfold rooted at hs ⊢
  cases hsp : (h.get root).splitp with
  | false =>
      rw [hsp] at hs
      rw [I.sub.depth_unique hs] at L
      exact L
  | true =>
      rw [hsp] at hs
      have hn := I.n_eq_of_splitp hsp
      have he := (rootSplit_sub I.sub hn).depth_unique hs
      rw [← he]
      exact I.linked_rootSplit hn L

theorem Sub.linked_addRooted {h : Heap K Q} (hs : Sub h descp d 62 root none none) (hd : d < h.size) (L : Linked h d)
    (hb : (offSpine h h.size root (some k) && stealsFirst h h.size root (some k)) = false) :
    Linked (addRooted h (some k)).heap d := by
  obtain ⟨s, W, G⟩ := L
  have A := hs.addRooted_ok hd k
  unfold addRooted at A ⊢
  cases d with
  | zero =>
      rw [hs.2.innerp] at A ⊢
      refine ⟨s, W, G.frame A.size_le (fun x _ => leafAdd_next_eq h root (some k) x) (fun x _ hx hd => ?_)⟩
      refine hd.of_get_eq (leafAdd_get_ne ?_ _)
      rintro rfl
      exact hx (by simp [blocks])
  | succ d =>
      rw [hs.2.1.innerp]
      obtain ⟨s', W', G', _, _⟩ := Sub.segAdd hd (Nat.le_of_lt hd) hs (above_none k) (upto_none k) hb s W none G
      exact ⟨s', W', G'⟩

/-- `breaksChain` でない追加は、つながりを保つ。 -/
theorem Inv.linked_put {d' : Nat} (I : Inv h descp d) (L : Linked h d) (hb : breaksChain h (some k) = false)
    (I' : Inv (btreePut h root (some k)).1 descp d') : Linked (btreePut h root (some k)).1 d' := by
  obtain ⟨d₁, R⟩ := I.rooted_ok k
  have A := R.sub.addRooted_ok R.depth k
  have L₁ := R.sub.linked_addRooted R.depth (I.linked_rooted L R.sub) hb
  rw [btreePut_eq] at I' ⊢
  have hall := get_modify_splitp (addRooted (rooted h) (some k)).heap (addRooted (rooted h) (some k)).splitp
  have L₂ : Linked ((addRooted (rooted h) (some k)).heap.modify root
      fun t => { t with splitp := (addRooted (rooted h) (some k)).splitp }) d₁ := by
    refine L₁.same A.sub (Heap.size_modify _ _ _) (fun x => ?_) (fun x => ?_) (fun x _ hd => ?_)
    · obtain ⟨b, hb⟩ := hall x
      rw [hb]; exact ⟨rfl, rfl, rfl, rfl, fun _ => rfl⟩
    · obtain ⟨b, hb⟩ := hall x
      rw [hb]
    · obtain ⟨b, hb⟩ := hall x
      refine ⟨by rw [hb]; exact hd.leaf, by rw [hb]; exact hd.n_le, fun i hi' => ?_⟩
      rw [hb] at hi' ⊢
      exact hd.nil i hi'
  have hs₂ : Sub ((addRooted (rooted h) (some k)).heap.modify root
      fun t => { t with splitp := (addRooted (rooted h) (some k)).splitp }) descp d₁ 63 root none none := by
    refine A.sub.frame (fun y hy => ⟨by rw [Heap.size_modify]; exact A.sub.mem_lt_size hy, ?_⟩)
    obtain ⟨b, hb⟩ := hall y
    rw [hb]; exact ⟨rfl, rfl, rfl, rfl, fun _ => rfl⟩
  rw [I'.sub.depth_unique hs₂]
  exact L₂

/-! ## 実行 -/

/-- 追加が葉のつながりを壊さない。 -/
def KeepsChain (h : Heap K Q) : Op K Q → Prop
  | .put k _ => breaksChain h (some k) = false
  | _ => True

theorem Inv.linked_step (I : Inv h descp d) (L : Linked h d) (op : Op K Q) (hop : KeepsChain h op) :
    ∃ d', Inv (step h op) descp d' ∧ Linked (step h op) d' := by
  cases op with
  | put k x =>
      obtain ⟨d', P⟩ := I.put k
      exact ⟨d', P.inv.same (.store P.leaf.2), (I.linked_put L hop P.inv).store P.inv.sub P.leaf.1 P.leaf.2⟩
  | rem k =>
      refine ⟨d, ?_⟩
      simp only [step, btreeRem]
      cases hg : btreeGet h root (some k) with
      | none => exact ⟨I, L⟩
      | some c =>
          have hc := (I.sub.btreeGet_iff (Nat.le_refl _) I.depth).mp hg
          exact ⟨I.same (.store hc.leaf), L.store I.sub hc.mem hc.leaf⟩
  | clr =>
      have hb := I.sub.bottom_leaf (Nat.le_of_lt I.depth)
      have H := clrFrom_same h.size h _ I.leafNext hb.2
      exact ⟨d, I.same H, L.same I.sub H.size H.shape H.next
        (fun x _ hd => H.dead (fun i => clrFrom_nil _ _ _ _ _) hd)⟩
  | iter m =>
      have H := iterTimes_usedOnly m h (.fresh root)
      exact ⟨d, I.same H.same, L.usedOnly I.sub H⟩

theorem linked_makeBtree (descp : Bool) : Linked (makeBtree descp : Heap K Q) 0 := by
  refine ⟨some root, [root], ⟨rfl, rfl⟩, ?_, List.nodup_singleton _, fun x hx => ?_⟩
  · have hw := Woven.block (D := Dead (makeBtree descp : Heap K Q)) [root] Woven.nil
    rw [List.append_nil] at hw
    exact hw
  · rw [List.mem_singleton.mp hx]; exact Nat.zero_lt_one

/-- 条件のつく実行では、条件から従う段ごとの不変条件が、終わりの木でも成り立つ。 -/
theorem throughout_induction {P : Heap K Q → Op K Q → Prop} {J : Heap K Q → Prop}
    (hstep : ∀ h op, J h → P h op → J (step h op)) :
    ∀ (ops : List (Op K Q)) (h : Heap K Q), J h → Throughout P h ops → J (ops.foldl step h)
  | [], _, hJ, _ => hJ
  | op :: ops, h, hJ, hP => throughout_induction hstep ops (step h op) (hstep h op hJ hP.1) hP.2

theorem linked_run {descp : Bool} {ops : List (Op K Q)} (hops : Throughout KeepsChain (makeBtree descp) ops) :
    ∃ d, Inv (run descp ops) descp d ∧ Linked (run descp ops) d :=
  throughout_induction (J := fun h => ∃ d, Inv h descp d ∧ Linked h d)
    (fun _ op ⟨_, I, L⟩ hop => I.linked_step L op hop) ops _ ⟨0, inv_makeBtree descp, linked_makeBtree descp⟩ hops

/-! ## 左端からの並び -/

theorem Sub.leavesOf_eq : ∀ {d cap fuel : Nat} {a : Addr} {lo hi : Option K}, d < fuel → Sub h descp d cap a lo hi →
    leavesOf h fuel a = (blocks h d a).flatten
  | _, _, 0, _, _, _, hf, _ => absurd hf (Nat.not_lt_zero _)
  | 0, _, fuel + 1, a, _, _, _, hs => by
      simp [leavesOf, hs.2.innerp, blocks]
  | 1, _, fuel + 1, a, _, _, hf, hs => by
      rw [leavesOf, if_pos hs.2.1.innerp]
      have he : ∀ x ∈ (List.range ((h.get a).n + 1)).map (h.get a).kid, leavesOf h fuel x = [x] := by
        intro x hx
        obtain ⟨i, hi', rfl⟩ := Node.mem_kids.mp hx
        have hf' : 0 < fuel := by omega
        rw [Sub.leavesOf_eq hf' (hs.2.1.kids i hi')]
        rfl
      rw [List.flatMap_congr he]
      simp [blocks, Node.kids]
  | d + 2, _, fuel + 1, a, _, _, hf, hs => by
      rw [leavesOf, if_pos hs.2.1.innerp, blocks, ← List.flatMap_id, List.flatMap_assoc]
      refine List.flatMap_congr (fun x hx => ?_)
      obtain ⟨i, hi', rfl⟩ := Node.mem_kids.mp hx
      have hf' : d + 1 < fuel := by omega
      rw [List.flatMap_id]
      exact Sub.leavesOf_eq hf' (hs.2.1.kids i hi')

theorem Sub.bottom_head : ∀ {d cap fuel : Nat} {a : Addr} {lo hi : Option K}, d ≤ fuel → Sub h descp d cap a lo hi →
    ∃ b B, blocks h d a = (bottom h fuel a :: b) :: B
  | 0, _, 0, a, _, _, _, hs => ⟨[], [], rfl⟩
  | 0, _, fuel + 1, a, _, _, _, hs => by
      have he : bottom h (fuel + 1) a = a := by simp [bottom, hs.2.innerp]
      rw [he]; exact ⟨[], [], rfl⟩
  | d + 1, _, 0, _, _, _, hf, _ => absurd hf (Nat.not_succ_le_zero d)
  | 1, _, fuel + 1, a, _, _, hf, hs => by
      have hk := hs.2.1.kids 0 (Nat.zero_le _)
      have he : bottom h (fuel + 1) a = (h.get a).kid 0 := by
        rw [bottom, if_pos hs.2.1.innerp]
        cases fuel with
        | zero => rfl
        | succ fuel => simp [bottom, hk.2.innerp]
      refine ⟨span (h.get a).kid 1 (h.get a).n, [], ?_⟩
      rw [he, blocks, Node.kids_eq, span_succ]
  | d + 2, _, fuel + 1, a, _, _, hf, hs => by
      have hf' : d + 1 ≤ fuel := by omega
      obtain ⟨b, B, hb⟩ := Sub.bottom_head hf' (hs.2.1.kids 0 (Nat.zero_le _))
      rw [bottom, if_pos hs.2.1.innerp]
      refine ⟨b, B ++ (span (h.get a).kid 1 (h.get a).n).flatMap (blocks h (d + 1)), ?_⟩
      rw [blocks, Node.kids_eq, span_succ, List.flatMap_cons, hb]
      rfl

/-- 左端の葉から始まる、木の葉の並び。 -/
theorem Linked.seg_bottom (L : Linked h d) (hs : Sub h descp d cap root lo hi) (hd : d ≤ fuel) :
    ∃ W, Seg h (blocks h d root) (some (bottom h fuel root)) W none := by
  obtain ⟨s, W, G⟩ := L
  obtain ⟨b, B, hb⟩ := hs.bottom_head hd
  rw [hb] at G ⊢
  obtain ⟨A, W', rfl, _, hW⟩ := G.woven.cons
  obtain ⟨m, _, hp⟩ := Path.append.mp G.path
  refine ⟨(bottom h fuel root :: b) ++ W', ⟨rfl, hp.2⟩, Woven.block _ hW, (List.nodup_append.mp G.nodup).2.1,
    fun x hx => G.lt x (List.mem_append_right _ hx)⟩

theorem Inv.chainVisits (I : Inv h descp d) (L : Linked h d) : ChainVisits h := by
  obtain ⟨W, G⟩ := L.seg_bottom I.sub (Nat.le_of_lt I.depth)
  have hl : leaves h = (blocks h d root).flatten := I.sub.leavesOf_eq I.depth
  refine ⟨W, G.path, G.nodup, ?_, fun x hx hxl => ?_⟩
  · rw [hl]; exact G.woven.filter_eq G.nodup
  · rw [hl] at hxl
    exact ((G.woven.mem x hx).resolve_left hxl).nil

end Books.Btree
