import Books.Btree.Nodes.Lemmas

/-!
# 実行の間の節

根でない節には、いつも 31 個以上のキーがある。どの節も根からたどれることは、節を使い捨てる操作でだけ破れる。
-/

set_option linter.unusedSectionVars false

namespace Books.Btree

open Books.Lib

variable {K Q : Type} [LinearOrder K] [LinearOrder Q] [Zero Q]
variable {descp : Bool} {h h' : Heap K Q} {lo hi : Option K} {d cap fuel : Nat} {a x : Addr} {k : K}

/-- 根でない節には、31 個以上のキーがある。 -/
def Filled (h : Heap K Q) : Prop := ∀ x, Reached h root x → x ≠ root → 31 ≤ (h.get x).n

/-- 確保した節は、どれも根からたどれる。 -/
def AllReached (h : Heap K Q) : Prop := ∀ x, x < h.size → Reached h root x

/-! ## 形の変わらない操作 -/

/-- 番地と形が変わらなければ、たどれる節も変わらない。 -/
theorem Sub.reached_same (hs : Sub h descp d cap root lo hi) (hsize : h'.size = h.size)
    (hshape : ∀ x, (h.get x).SameShape (h'.get x)) : Reached h' root x ↔ Reached h root x := by
  have hs' : Sub h' descp d cap root lo hi :=
    hs.frame (fun y hy => ⟨by rw [hsize]; exact hs.mem_lt_size hy, hshape y⟩)
  rw [hs'.reached_iff, hs.reached_iff, hs.mem_frame (fun y _ => hshape y)]

theorem Filled.same (F : Filled h) (hs : Sub h descp d cap root lo hi) (hsize : h'.size = h.size)
    (hshape : ∀ x, (h.get x).SameShape (h'.get x)) : Filled h' := by
  intro x hx hne
  rw [(hshape x).n]
  exact F x ((hs.reached_same hsize hshape).mp hx) hne

theorem Sub.allReached_same (hs : Sub h descp d cap root lo hi) (hsize : h'.size = h.size)
    (hshape : ∀ x, (h.get x).SameShape (h'.get x)) : AllReached h' ↔ AllReached h := by
  unfold AllReached
  simp only [hsize, hs.reached_same hsize hshape]

/-! ## `btree_put` -/

theorem Inv.rooted_filled (I : Inv h descp d) (F : Filled h) : Filled (rooted h) := by
  unfold rooted
  split
  · rename_i hsp
    have hn := I.n_eq_of_splitp hsp
    have H := rootSplit_halves I.sub
    -- 元の根の子は、左右の節の子になる。
    have hold : ∀ x, Mem h d root x ∧ x ≠ root → 31 ≤ ((rootSplit h root).get x).n := by
      rintro x ⟨hm, hne⟩
      rw [rootSplit_rest (I.sub.mem_lt_size hm) hne]
      exact F x (I.sub.reached_iff.mpr hm) hne
    intro x hx hne
    rcases (rootSplit_sub I.sub hn).reached_iff.mp hx with rfl | ⟨i, hi', hx⟩
    · exact absurd rfl hne
    · rcases rootSplit_kid I.sub hi' with ⟨_, he⟩ | ⟨_, he⟩
      · rw [he] at hx
        rcases H.l_mem I.sub hn hx with rfl | hm
        · rw [H.l_n, piv_eq]
          exact Nat.le_add_right _ _
        · exact hold x hm
      · rw [he] at hx
        rcases H.r_mem I.sub hn hx with rfl | hm
        · rw [H.r_n, piv_eq]
        · exact hold x hm
  · exact F

/-- 根の分割の後にたどれる節は、前からたどれる節と、確保した二つの節である。 -/
theorem Inv.rooted_reached_iff (I : Inv h descp d) : Reached (rooted h) root x ↔
    Reached h root x ∨ (h.size ≤ x ∧ x < (rooted h).size) := by
  unfold rooted
  split
  · rename_i hsp
    have hn := I.n_eq_of_splitp hsp
    have H := rootSplit_halves I.sub
    have hs := rootSplit_sub I.sub hn
    obtain ⟨h₁, _, _, _, h₅, h₆, _⟩ := rootSplit_root I.sub.lt_size
    rw [hs.reached_iff, I.sub.reached_iff, rootSplit_size]
    have hl : ∀ x, Mem (rootSplit h root) d h.size x → Mem (rootSplit h root) (d + 1) root x :=
      fun x hx => Mem.kid (i := 0) (by rw [h₁]; exact Nat.zero_le 1) (by rw [h₅]; exact hx)
    have hr : ∀ x, Mem (rootSplit h root) d (h.size + 1) x → Mem (rootSplit h root) (d + 1) root x :=
      fun x hx => Mem.kid (i := 1) (by rw [h₁]) (by rw [h₆]; exact hx)
    constructor
    · rintro (rfl | ⟨i, hi', hx⟩)
      · exact Or.inl (Mem.self h _ _)
      · rcases rootSplit_kid I.sub hi' with ⟨_, he⟩ | ⟨_, he⟩
        · rw [he] at hx
          rcases H.l_mem I.sub hn hx with rfl | hm
          · exact Or.inr ⟨Nat.le_refl _, Nat.lt_succ_of_lt (Nat.lt_succ_self _)⟩
          · exact Or.inl hm.1
        · rw [he] at hx
          rcases H.r_mem I.sub hn hx with rfl | hm
          · exact Or.inr ⟨Nat.le_succ _, Nat.lt_succ_self _⟩
          · exact Or.inl hm.1
    · rintro (hm | ⟨hle, hlt⟩)
      · rcases H.mem_split I.sub hn hm with rfl | hx | hx
        · exact Mem.self _ _ _
        · exact hl x hx
        · exact hr x hx
      · by_cases he : x = h.size
        · subst he
          exact hl _ (Mem.self _ _ _)
        · obtain rfl : x = h.size + 1 :=
            Nat.le_antisymm (Nat.le_of_lt_succ hlt) (Nat.lt_of_le_of_ne hle (Ne.symm he))
          exact hr _ (Mem.self _ _ _)
  · exact ⟨Or.inl, fun hx => hx.resolve_right (fun ⟨hle, hlt⟩ => Nat.lt_irrefl _ (Nat.lt_of_lt_of_le hlt hle))⟩

theorem rooted_size_le (h : Heap K Q) : h.size ≤ (rooted h).size := by
  unfold rooted
  split
  · rw [rootSplit_size]
    exact Nat.le_add_right _ _
  · exact Nat.le_refl _

theorem Sub.addRooted_grown (hs : Sub h descp d 62 root none none) (hd : d < h.size) (k : K) :
    Grown h d root (addRooted h (some k)).heap ((h.get root).innerp && wastes h h.size root (some k)) := by
  unfold addRooted
  cases d with
  | zero =>
      rw [hs.2.innerp]
      exact hs.leafAdd_grown (some k)
  | succ d =>
      rw [hs.2.1.innerp]
      exact hs.twigAdd_grown hd (above_none k) (upto_none k)

theorem putWastes_eq (h : Heap K Q) (k : Option K) :
    putWastes h k = (((rooted h).get root).innerp && wastes (rooted h) (rooted h).size root k) := rfl

/-- `btree_put` と値の書き込みの後の木は、`addRooted` の木と同じ形である。 -/
theorem Inv.put_shape (I : Inv h descp d) (k : K) (v : BtreeVal Q) :
    (step h (.put k v)).size = (addRooted (rooted h) (some k)).heap.size ∧
    ∀ x, ((addRooted (rooted h) (some k)).heap.get x).SameShape ((step h (.put k v)).get x) := by
  obtain ⟨_, P⟩ := I.put k
  refine ⟨by rw [step, Heap.size_store, btreePut_eq, Heap.size_modify], fun x => ?_⟩
  have hroot : ((addRooted (rooted h) (some k)).heap.get x).SameShape ((btreePut h root (some k)).1.get x) := by
    rw [btreePut_eq]
    obtain ⟨b, hb⟩ := get_modify_splitp (addRooted (rooted h) (some k)).heap (addRooted (rooted h) (some k)).splitp x
    rw [hb]
    exact ⟨rfl, rfl, rfl, rfl, fun _ => rfl⟩
  exact hroot.trans (sameShape_store P.leaf.2 x)

theorem Inv.put_filled (I : Inv h descp d) (k : K) (v : BtreeVal Q) (F : Filled h) : Filled (step h (.put k v)) := by
  obtain ⟨d', R⟩ := I.rooted_ok k
  obtain ⟨hsize, hshape⟩ := I.put_shape k v
  have A := R.sub.addRooted_ok R.depth k
  refine Filled.same (fun x hx hne => ?_) A.sub hsize hshape
  rcases (R.sub.addRooted_grown R.depth k).filled x (A.sub.reached_iff.mp hx) with h31 | ⟨hm, hle⟩
  · exact h31
  · exact (I.rooted_filled F x (R.sub.reached_iff.mpr hm) hne).trans hle

/-- 追加の後にどの節もたどれるのは、前からどの節もたどれて、空いた内部の節を使い回さないときで、そのときに限る。 -/
theorem Inv.put_reached (I : Inv h descp d) (k : K) (v : BtreeVal Q) :
    AllReached (step h (.put k v)) ↔ AllReached h ∧ putWastes h (some k) = false := by
  obtain ⟨d', R⟩ := I.rooted_ok k
  obtain ⟨hsize, hshape⟩ := I.put_shape k v
  have A := R.sub.addRooted_ok R.depth k
  have G := R.sub.addRooted_grown R.depth k
  rw [A.sub.allReached_same hsize hshape, putWastes_eq]
  constructor
  · intro hR
    refine ⟨fun x hx => ?_, ?_⟩
    · -- たどれない節は、後になってもたどれない。
      have hlt : x < (rooted h).size := Nat.lt_of_lt_of_le hx (rooted_size_le h)
      rcases A.mem x (A.sub.reached_iff.mp (hR x (Nat.lt_of_lt_of_le hlt A.size_le))) with hm | hle
      · rcases I.rooted_reached_iff.mp (R.sub.reached_iff.mpr hm) with hr | hr
        · exact hr
        · exact absurd hx (Nat.not_lt_of_le hr.1)
      · exact absurd hlt (Nat.not_lt_of_le hle)
    · by_contra hw
      obtain ⟨x, hx, hx'⟩ := G.lost (by simpa using hw)
      exact hx' (A.sub.reached_iff.mp (hR x (Nat.lt_of_lt_of_le (R.sub.mem_lt_size hx) A.size_le)))
  · rintro ⟨hR, hw⟩ x hx
    rw [A.sub.reached_iff]
    refine G.kept hw x ?_
    by_cases hlt : x < (rooted h).size
    · refine Or.inl (R.sub.reached_iff.mp (I.rooted_reached_iff.mpr ?_))
      by_cases hold : x < h.size
      · exact Or.inl (hR x hold)
      · exact Or.inr ⟨Nat.le_of_not_lt hold, hlt⟩
    · exact Or.inr ⟨Nat.le_of_not_lt hlt, hx⟩

/-! ## 実行 -/

/-- `btree_put` のほかの操作は、節の番地と形を変えない。 -/
theorem Inv.step_same (I : Inv h descp d) (op : Op K Q) (hop : ∀ k v, op ≠ .put k v) : h.Same (step h op) := by
  cases op with
  | put k v => exact absurd rfl (hop k v)
  | rem k =>
      simp only [step, btreeRem]
      cases hg : btreeGet h root (some k) with
      | none => exact .refl h
      | some c => exact .store ((I.sub.btreeGet_iff (Nat.le_refl _) I.depth).mp hg).leaf
  | clr => exact clrFrom_same _ h _ I.leafNext (I.sub.bottom_leaf (Nat.le_of_lt I.depth)).2
  | iter m => exact (iterTimes_usedOnly m h _).same

theorem Inv.step_filled (I : Inv h descp d) (op : Op K Q) (F : Filled h) : Filled (step h op) := by
  by_cases hop : ∃ k v, op = .put k v
  · obtain ⟨k, v, rfl⟩ := hop
    exact I.put_filled k v F
  · have H := I.step_same op (fun k v he => hop ⟨k, v, he⟩)
    exact F.same I.sub H.size H.shape

theorem Inv.step_reached (I : Inv h descp d) (op : Op K Q) :
    AllReached (step h op) ↔ AllReached h ∧ keepsNodes h op = true := by
  by_cases hop : ∃ k v, op = .put k v
  · obtain ⟨k, v, rfl⟩ := hop
    rw [I.put_reached k v, keepsNodes, Bool.not_eq_true']
  · have H := I.step_same op (fun k v he => hop ⟨k, v, he⟩)
    rw [I.sub.allReached_same H.size H.shape]
    have hk : keepsNodes h op = true := by
      cases op with
      | put k v => exact absurd ⟨k, v, rfl⟩ hop
      | rem k => rfl
      | clr => rfl
      | iter m => rfl
    exact ⟨fun hR => ⟨hR, hk⟩, fun hR => hR.1⟩

theorem reached_makeBtree (descp : Bool) (hx : Reached (makeBtree descp : Heap K Q) root x) : x = root :=
  (inv_makeBtree descp).sub.reached_iff.mp hx

theorem filled_makeBtree (descp : Bool) : Filled (makeBtree descp : Heap K Q) :=
  fun _ hx hne => absurd (reached_makeBtree descp hx) hne

theorem allReached_makeBtree (descp : Bool) : AllReached (makeBtree descp : Heap K Q) := by
  intro x hx
  obtain rfl : x = root := Nat.lt_one_iff.mp hx
  exact .self _

theorem filled_run (descp : Bool) (ops : List (Op K Q)) : Filled (run descp ops) := by
  have hfold : ∀ (ops : List (Op K Q)) (h : Heap K Q), (∃ d, Inv h descp d) → Filled h → Filled (ops.foldl step h) := by
    intro ops
    induction ops with
    | nil => exact fun _ _ F => F
    | cons op ops ih =>
        rintro h ⟨d, I⟩ F
        exact ih _ (I.step_ok op) (I.step_filled op F)
  exact hfold ops _ ⟨0, inv_makeBtree descp⟩ (filled_makeBtree descp)

theorem allReached_run (descp : Bool) (ops : List (Op K Q)) :
    AllReached (run descp ops) ↔ Throughout (fun h op => keepsNodes h op = true) (makeBtree descp) ops := by
  have hfold : ∀ (ops : List (Op K Q)) (h : Heap K Q), (∃ d, Inv h descp d) →
      (AllReached (ops.foldl step h) ↔ AllReached h ∧ Throughout (fun h op => keepsNodes h op = true) h ops) := by
    intro ops
    induction ops with
    | nil => exact fun h _ => ⟨fun hR => ⟨hR, trivial⟩, fun hR => hR.1⟩
    | cons op ops ih =>
        rintro h ⟨d, I⟩
        rw [List.foldl_cons, ih _ (I.step_ok op), I.step_reached op, Throughout, and_assoc]
  exact (hfold ops _ ⟨0, inv_makeBtree descp⟩).trans (and_iff_right (allReached_makeBtree descp))

/-! ## キー -/

/-- ヒープのキーは、どれも `S` に入る。 -/
abbrev KeysIn (S : K → Prop) (h : Heap K Q) : Prop := h.All (fun o => ∀ y, o = some y → S y) fun _ => True

theorem KeysIn.step {S : K → Prop} (H : KeysIn S h) {op : Op K Q} (hop : ∀ k v, op = .put k v → S k) :
    KeysIn S (step h op) := by
  cases op with
  | put k v =>
      refine Heap.All.store (Heap.All.btreePut ?_ trivial H root ?_) trivial
      · rintro y ⟨⟩
      · rintro y ⟨⟩
        exact hop _ v rfl
  | rem k =>
      simp only [Btree.step, btreeRem]
      cases btreeGet h root (some k) with
      | none => exact H
      | some c => exact H.store trivial
  | clr => exact Heap.All.clrFrom trivial _ _ _ H
  | iter m => exact H.usedOnly (iterTimes_usedOnly m h _)

theorem keysIn_run (descp : Bool) (ops : List (Op K Q)) : KeysIn (fun k => k ∈ putKeys ops) (run descp ops) := by
  have hfold : ∀ (S : K → Prop) (ops : List (Op K Q)) (h : Heap K Q), KeysIn S h → (∀ k ∈ putKeys ops, S k) →
      KeysIn S (ops.foldl step h) := by
    intro S ops
    induction ops with
    | nil => exact fun _ H _ => H
    | cons op ops ih =>
        intro h H hS
        refine ih _ (H.step (fun k v he => hS k ?_)) (fun k hk => hS k ?_)
        · rw [he]
          exact List.mem_cons_self
        · cases op with
          | put k' v => exact List.mem_cons_of_mem _ hk
          | rem k' => exact hk
          | clr => exact hk
          | iter m => exact hk
  refine hfold _ ops _ (Heap.All.makeBtree ?_ trivial descp) (fun _ hk => hk)
  rintro y ⟨⟩

end Books.Btree
