import Books.Btree.Lemmas.Put

/-!
# 実行で保たれる不変条件

`Inv` は木全体の条件である。`btree.h` の操作はどれも `Inv` を保つ。
-/

set_option linter.unusedSectionVars false

namespace Books.Btree

open Books.Lib

variable {K Q : Type} [LinearOrder K] [LinearOrder Q] [Zero Q]
variable {descp : Bool} {h h' h'' : Heap K Q} {lo hi : Option K} {d cap fuel : Nat} {a x : Addr} {k y : K}
  {v : BtreeVal Q} {c : Cell}

/-- 木全体の条件。`d` は木の高さである。 -/
structure Inv (h : Heap K Q) (descp : Bool) (d : Nat) : Prop where
  sub : Sub h descp d 63 root none none
  depth : d < h.size
  splitp : (h.get root).splitp = decide ((h.get root).n = 63)
  leafNext : LeafNext h
  single : d = 0 → h.size = 1

/-- `btree_put` が始めに行う、先送りした根の分割。 -/
def rooted (h : Heap K Q) : Heap K Q := if (h.get root).splitp then rootSplit h root else h

/-- キー `k` の `btree_put` は、返す場所のある葉を分けて、その場所を失う。 -/
def losesCell (h : Heap K Q) (k : Option K) : Bool :=
  (h.get root).innerp && (h.get (leafAt h h.size root k)).loses k

/-! ## 根の分割と経路 -/

theorem Sub.leafAt_mem : ∀ {d cap : Nat} {a : Addr} {lo hi : Option K}, Sub h descp d cap a lo hi →
    Mem h d a (leafAt h d a (some k))
  | 0, _, _, _, _, _ => rfl
  | d + 1, _, a, _, _, hs => by
      rw [hs.leafAt_succ]
      exact Mem.kid (Node.seek_le _ _) (Sub.leafAt_mem (hs.2.1.kids _ (Node.seek_le _ _)))

theorem Sub.leafAt_frame : ∀ {d cap : Nat} {a : Addr} {lo hi : Option K}, Sub h descp d cap a lo hi →
    (∀ x, Mem h d a x → h'.get x = h.get x) → leafAt h' d a (some k) = leafAt h d a (some k)
  | 0, _, _, _, _, _, _ => rfl
  | d + 1, _, a, _, _, hs, hf => by
      have ha := hf a (Mem.self h _ a)
      rw [hs.leafAt_succ, leafAt, ha, hs.2.1.innerp, if_pos rfl]
      exact Sub.leafAt_frame (hs.2.1.kids _ (Node.seek_le _ _))
        (fun x hx => hf x (Mem.kid (Node.seek_le _ _) hx))

section Root
variable (hs : Sub h descp d 63 a none none) (hn : (h.get a).n = 63)
include hs hn

theorem rootSplit_keysSorted : (h.get a).KeysSorted (h.get a).descp := by
  cases d with
  | zero => exact hs.2.keysSorted
  | succ d => exact hs.2.1.keysSorted

/-- 根の中央のキーまでを探索が通り過ぎたときだけ、後半へ進む。 -/
theorem rootSplit_seek : ((rootSplit h a).get a).seek (some k) =
    if (h.get a).seek (some k) ≤ piv then 0 else 1 := by
  obtain ⟨h₁, _, h₃, h₄, _, _, _⟩ := rootSplit_root hs.lt_size
  have hpast : ((h.get a).seek (some k) ≤ piv) ↔ keyPast (h.get a).descp (some k) ((h.get a).key.get piv) = false := by
    obtain ⟨s, hs', _⟩ := hs.pivot hn
    constructor
    · intro hle
      have hnb := Node.seek_not_before (rootSplit_keysSorted hs hn) (by omega) hle (by rw [hn]; decide) hs'
      rw [← keyPast_iff] at hnb
      rw [hs']; simpa using hnb
    · intro hf
      by_contra hlt
      have hp := Arr.scan_holds (show piv < (h.get a).key.scan (keyPast (h.get a).descp (some k)) (h.get a).n from
        Nat.lt_of_not_le hlt)
      rw [hf] at hp; cases hp
  unfold Node.seek at hpast ⊢
  rw [h₁, h₃]
  split
  · rename_i hle
    refine Arr.scan_eq (by decide) (by decide) (fun j hj => absurd hj (Nat.not_lt_zero _)) (fun _ => ?_)
    rw [h₄]; exact hpast.mp hle
  · rename_i hlt
    refine Arr.scan_eq (by decide) (by decide) (fun j hj => ?_) (fun hlt => absurd hlt (by decide))
    obtain rfl : j = 0 := by omega
    rw [h₄]
    simpa using fun hf => hlt (hpast.mpr hf)

end Root

/-- 根の分割は、内部の節の下で着く葉を変えない。 -/
theorem rootSplit_leafAt (hs : Sub h descp (d + 1) 63 a none none) (hn : (h.get a).n = 63) :
    leafAt (rootSplit h a) (d + 2) a (some k) = leafAt h (d + 1) a (some k) := by
  have H := rootSplit_halves hs
  have hsub := rootSplit_sub hs hn
  obtain ⟨h₁, _, h₃, h₄, h₅, h₆, _⟩ := rootSplit_root hs.lt_size
  have hl := H.l_sub hs hn
  have hr := H.r_sub hs hn
  have hln : ((rootSplit h a).get h.size).n = 31 := by rw [H.l_n, hs.2.1.innerp]; rfl
  have hrn : ((rootSplit h a).get (h.size + 1)).n = 31 := H.r_n
  have hsk := (h.get a).seek_le (some k)
  have hkid := hs.2.1.kids _ hsk
  -- 選ぶ子は元の根と同じで、その部分木は変わらない。
  have hend : leafAt (rootSplit h a) d ((h.get a).kid ((h.get a).seek (some k))) (some k) =
      leafAt h d ((h.get a).kid ((h.get a).seek (some k))) (some k) := by
    refine hkid.leafAt_frame (fun x hx => rootSplit_rest (hkid.mem_lt_size hx) ?_)
    rintro rfl
    exact hs.2.2.self _ hsk hx
  rw [hsub.leafAt_succ, hs.leafAt_succ, rootSplit_seek hs hn]
  split
  · rename_i hle
    have hseek : ((rootSplit h a).get h.size).seek (some k) = (h.get a).seek (some k) := by
      unfold Node.seek at hle ⊢
      rw [H.l_descp, ← hs.descp_eq, hln]
      refine Arr.scan_eq (by decide) hle (fun j hj => ?_) (fun hlt => ?_)
      · rw [H.l_key j (by rw [piv_eq] at hle; omega)]; exact Arr.scan_holds hj
      · rw [H.l_key _ (by omega)]; exact Arr.scan_stop (by omega) (by omega)
    rw [h₅, hl.leafAt_succ, hseek, H.l_kid hle]
    exact hend
  · rename_i hlt
    have hidx : piv + 1 + ((h.get a).seek (some k) - (piv + 1)) = (h.get a).seek (some k) := by omega
    have hseek : ((rootSplit h a).get (h.size + 1)).seek (some k) = (h.get a).seek (some k) - (piv + 1) := by
      unfold Node.seek at hlt hidx hsk ⊢
      rw [H.r_descp, ← hs.descp_eq, hrn]
      rw [piv_eq] at hlt
      refine Arr.scan_eq (by decide) (by rw [piv_eq]; omega) (fun j hj => ?_) (fun hlt' => ?_)
      · rw [H.r_key j (by rw [piv_eq] at hj ⊢; omega)]
        exact Arr.scan_holds (m := (h.get a).n) (by omega)
      · rw [H.r_key _ (by rw [piv_eq] at hlt' ⊢; omega), hidx]
        exact Arr.scan_stop (by omega) (by rw [piv_eq] at hlt'; omega)
    rw [h₆, hr.leafAt_succ, hseek, H.r_kid (by rw [piv_eq] at hlt ⊢; omega), hidx]
    exact hend

theorem rootSplit_leafNext (hs : Sub h descp d 63 root none none) (hN : LeafNext h) (h1 : d = 0 → h.size = 1) :
    LeafNext (rootSplit h root) := by
  have H := rootSplit_halves hs
  have hsz := rootSplit_size h root
  intro x y hx hy
  by_cases h₁ : x = root
  · subst h₁
    rw [(rootSplit_root hs.lt_size).2.1] at hx; cases hx
  · by_cases h₂ : x = h.size
    · subst h₂
      rw [rootSplit_left hs.lt_size] at hx hy
      cases hy
      refine ⟨H.r_lt, ?_⟩
      rw [H.r_innerp]; exact hx
    · by_cases h₃ : x = h.size + 1
      · subst h₃
        rw [rootSplit_rght hs.lt_size] at hy; cases hy
      · by_cases hlt : x < h.size
        · rw [rootSplit_rest hlt h₁] at hx hy
          obtain ⟨h₄, h₅⟩ := hN x y hx hy
          have hyr : y ≠ root := by
            rintro rfl
            rw [hs.innerp_eq, decide_eq_false_iff_not] at h₅
            have := h1 (by omega)
            exact h₁ (by rw [this] at hlt; exact Nat.lt_one_iff.mp hlt)
          rw [rootSplit_rest h₄ hyr, hsz]
          exact ⟨Nat.lt_succ_of_lt (Nat.lt_succ_of_lt h₄), h₅⟩
        · have hge : (rootSplit h root).size ≤ x := by
            rw [hsz]
            have h₄ := Nat.lt_of_le_of_ne (Nat.le_of_not_lt hlt) (Ne.symm h₂)
            exact Nat.lt_of_le_of_ne h₄ (Ne.symm h₃)
          rw [Heap.get_of_le hge] at hy; cases hy

/-! ## `btree_put` -/

/-- 先送りした根の分割を済ませた木。根の `n` は 62 以下である。 -/
structure Rooted (h : Heap K Q) (descp : Bool) (d : Nat) (k : K) (h' : Heap K Q) (d' : Nat) : Prop where
  sub : Sub h' descp d' 62 root none none
  depth : d' < h'.size
  leafNext : LeafNext h'
  single : d' = 0 → h'.size = 1
  has : ∀ y v, Has h' d' root y v ↔ Has h d root y v
  loses : (decide (0 < d') && (h'.get (leafAt h' d' root (some k))).loses (some k)) = losesCell h (some k)

theorem Inv.n_eq_of_splitp (I : Inv h descp d) (hsp : (h.get root).splitp = true) : (h.get root).n = 63 := by
  rw [I.splitp, decide_eq_true_eq] at hsp
  exact hsp

/-- 根を分けた直後の葉には、まだ空きがある。 -/
theorem Halves.not_loses {l r : Addr} (H : Halves h h' descp 0 a l r) (hl : (h.get a).innerp = false)
    (hx : x = l ∨ x = r) : (h'.get x).loses (some k) = false := by
  have hn : (h'.get x).n ≠ 62 := by
    rcases hx with rfl | rfl
    · rw [H.l_n, hl]; decide
    · rw [H.r_n]; decide
  simp [Node.loses, Node.overflows, hn]

theorem Inv.rooted_ok (I : Inv h descp d) (k : K) : ∃ d', Rooted h descp d k (rooted h) d' := by
  unfold rooted
  cases hsp : (h.get root).splitp with
  | false =>
      have hle := I.sub.n_le
      have hn : (h.get root).n ≤ 62 := by
        have := I.splitp
        rw [hsp] at this
        have := decide_eq_false_iff_not.mp this.symm
        omega
      refine ⟨d, I.sub.cap_mono hn, I.depth, I.leafNext, I.single, fun y v => Iff.rfl, ?_⟩
      simp only [Bool.false_eq_true, ↓reduceIte]
      rw [losesCell, I.sub.innerp_eq, I.sub.leafAt_eq (Nat.le_of_lt I.depth)]
  | true =>
      have hn := I.n_eq_of_splitp hsp
      have hsub := rootSplit_sub I.sub hn
      have hsz := rootSplit_size h root
      have hd := I.depth
      refine ⟨d + 1, hsub, ?_, rootSplit_leafNext I.sub I.leafNext I.single, fun h0 => by omega,
        fun y v => rootSplit_has I.sub hn, ?_⟩
      · simp only [↓reduceIte]; omega
      · simp only [↓reduceIte, Nat.zero_lt_succ, decide_true, Bool.true_and]
        cases d with
        | zero =>
            have H := rootSplit_halves I.sub
            rw [losesCell, I.sub.2.innerp, Bool.false_and, hsub.leafAt_succ, leafAt]
            refine H.not_loses I.sub.2.innerp ?_
            rcases rootSplit_kid I.sub (Node.seek_le _ (some k)) with ⟨_, he⟩ | ⟨_, he⟩
            · exact Or.inl he
            · exact Or.inr he
        | succ d =>
            have hmem := I.sub.leafAt_mem (k := k)
            have hne : leafAt h (d + 1) root (some k) ≠ root := by
              intro he
              rw [I.sub.leafAt_succ] at he
              have hk := (I.sub.2.1.kids _ (Node.seek_le _ (some k))).leafAt_mem (k := k)
              rw [he] at hk
              exact I.sub.2.2.self _ (Node.seek_le _ _) hk
            rw [losesCell, I.sub.2.1.innerp, Bool.true_and, I.sub.leafAt_eq (Nat.le_of_lt hd),
              rootSplit_leafAt I.sub hn, rootSplit_rest (I.sub.mem_lt_size hmem) hne]

/-- 節の形と `next` が同じヒープ。 -/
structure Heap.Same (h h' : Heap K Q) : Prop where
  size : h'.size = h.size
  shape : ∀ x, (h.get x).SameShape (h'.get x)
  next : ∀ x, (h'.get x).next = (h.get x).next
  splitp : ∀ x, (h'.get x).splitp = (h.get x).splitp

theorem Heap.Same.refl (h : Heap K Q) : h.Same h := ⟨rfl, fun _ => .refl _, fun _ => rfl, fun _ => rfl⟩

theorem Heap.Same.trans (H : h.Same h') (H' : h'.Same h'') : h.Same h'' :=
  ⟨H'.size.trans H.size, fun x => (H.shape x).trans (H'.shape x), fun x => (H'.next x).trans (H.next x),
    fun x => (H'.splitp x).trans (H.splitp x)⟩

theorem LeafNext.same (hN : LeafNext h) (hsize : h'.size = h.size) (hshape : ∀ x, (h.get x).SameShape (h'.get x))
    (hnext : ∀ x, (h'.get x).next = (h.get x).next) : LeafNext h' := by
  intro x y hx hy
  rw [(hshape x).innerp] at hx
  rw [hnext] at hy
  rw [hsize, (hshape y).innerp]
  exact hN x y hx hy

theorem Inv.same (I : Inv h descp d) (H : h.Same h') : Inv h' descp d := by
  refine ⟨I.sub.frame (fun y hy => ⟨by rw [H.size]; exact I.sub.mem_lt_size hy, H.shape y⟩), by rw [H.size]; exact I.depth,
    ?_, I.leafNext.same H.size H.shape H.next, by rw [H.size]; exact I.single⟩
  rw [H.splitp, (H.shape root).n]; exact I.splitp

/-- `btree_put` の結果。値が nil でない組は変わらず、返した場所は葉の中にある。その場所がキー `k` の値の場所に
なるのは、`losesCell` が偽のときである。 -/
structure PutOk (h : Heap K Q) (descp : Bool) (d : Nat) (k : K) (h' : Heap K Q) (c : Cell) (d' : Nat) : Prop where
  inv : Inv h' descp d'
  has : ∀ y v, v.nilP = false → (Has h' d' root y v ↔ Has h d root y v)
  leaf : Mem h' d' root c.t ∧ (h'.get c.t).innerp = false
  live : losesCell h (some k) = false → CellAt h' d' root k c
  lost : losesCell h (some k) = true → (h'.get c.t).n ≤ c.i

/-- 根の分割を済ませた木への追加。 -/
def addRooted (h : Heap K Q) (k : Option K) : Added K Q :=
  if !(h.get root).innerp then leafAdd h root k else twigAdd h.size h root k

theorem btreePut_eq (h : Heap K Q) (k : Option K) : btreePut h root k =
    ((addRooted (rooted h) k).heap.modify root
      (fun t => { t with splitp := (addRooted (rooted h) k).splitp }), (addRooted (rooted h) k).cell) := rfl

theorem Sub.addRooted_ok {h : Heap K Q} (hs : Sub h descp d 62 root none none) (hd : d < h.size) (k : K) :
    AddOk h descp d root none none k (addRooted h (some k)) := by
  unfold addRooted
  cases d with
  | zero =>
      rw [hs.2.innerp]
      exact hs.leafAdd_ok (above_none k) (upto_none k)
  | succ d =>
      rw [hs.2.1.innerp]
      exact Sub.twigAdd_ok hd hs (above_none k) (upto_none k)

theorem get_modify_splitp (h : Heap K Q) (b : Bool) (x : Addr) : ∃ b',
    (h.modify root fun t => { t with splitp := b }).get x = { h.get x with splitp := b' } := by
  by_cases hlt : root < h.size
  · by_cases hx : root = x
    · subst hx; exact ⟨b, Heap.get_modify_eq _ hlt⟩
    · exact ⟨(h.get x).splitp, Heap.get_modify_ne _ hx⟩
  · exact ⟨(h.get x).splitp, by rw [Heap.modify, Heap.set_of_le _ (Nat.le_of_not_lt hlt)]⟩

theorem Inv.put (I : Inv h descp d) (k : K) : ∃ d', PutOk h descp d k (btreePut h root (some k)).1
    (btreePut h root (some k)).2 d' := by
  obtain ⟨d', R⟩ := I.rooted_ok k
  have A := R.sub.addRooted_ok R.depth k
  rw [btreePut_eq]
  set r := addRooted (rooted h) (some k) with hr
  have hlt := A.sub.lt_size
  have hget : (r.heap.modify root fun t => { t with splitp := r.splitp }).get root =
      { r.heap.get root with splitp := r.splitp } := Heap.get_modify_eq _ hlt
  have hall := get_modify_splitp r.heap r.splitp
  have hshape : ∀ x, (r.heap.get x).SameShape
      ((r.heap.modify root fun t => { t with splitp := r.splitp }).get x) := by
    intro x
    obtain ⟨b, hb⟩ := hall x
    rw [hb]; exact ⟨rfl, rfl, rfl, rfl, fun _ => rfl⟩
  have hnext : ∀ x, ((r.heap.modify root fun t => { t with splitp := r.splitp }).get x).next =
      (r.heap.get x).next := by
    intro x
    obtain ⟨b, hb⟩ := hall x
    rw [hb]
  have hcell : ∀ c, CellAt (r.heap.modify root fun t => { t with splitp := r.splitp }) d' root k c ↔
      CellAt r.heap d' root k c := fun c => A.sub.cell_frame (fun y _ => hshape y)
  refine ⟨d', ⟨⟨A.sub.frame (fun y hy => ⟨by rw [Heap.size_modify]; exact A.sub.mem_lt_size hy, hshape y⟩),
    ?_, ?_, ?_, ?_⟩, ?_, ?_, ?_, ?_⟩⟩
  · rw [Heap.size_modify]; exact Nat.lt_of_lt_of_le R.depth A.size_le
  · have hle := A.sub.n_le
    rw [hget]
    simp only
    rw [A.splitp]
    exact decide_eq_decide.mpr ⟨fun h => by omega, fun h => by omega⟩
  · exact (A.leafNext R.leafNext).same (Heap.size_modify _ _ _) hshape hnext
  · intro h0
    have h1 := R.single h0
    subst h0
    rw [Heap.size_modify, hr, addRooted, R.sub.2.innerp]
    simpa [leafAdd] using h1
  · intro y v hv
    rw [← R.has y v, ← A.has y v hv]
    refine has_frame (fun x _ => ?_)
    obtain ⟨b, hb⟩ := hall x
    rw [hb]; exact ⟨rfl, rfl, rfl⟩
  · refine ⟨(A.sub.mem_frame (fun y _ => hshape y)).mpr A.leaf.1, ?_⟩
    rw [(hshape _).innerp]; exact A.leaf.2
  · intro hl
    rw [hcell]
    exact A.live (by rw [R.loses]; exact hl)
  · intro hl
    rw [(hshape _).n]
    exact A.lost (by rw [R.loses]; exact hl)

/-! ## ほかの操作 -/

theorem Heap.Same.store (hl : (h.get c.t).innerp = false) : h.Same (h.store c v) := by
  have hall : ∀ x, (h.store c v).get x = { h.get x with val := ((h.store c v).get x).val } := by
    intro x
    by_cases hx : x = c.t
    · subst hx
      by_cases hlt : c.t < h.size
      · rw [Heap.get_store_eq hlt]
      · rw [Heap.store, Heap.modify, Heap.set_of_le _ (Nat.le_of_not_lt hlt)]
    · rw [Heap.get_store_ne hx]
  refine ⟨Heap.size_store _ _ _, sameShape_store hl, fun x => ?_, fun x => ?_⟩
  · rw [hall x]
  · rw [hall x]

theorem Sub.bottom_leaf : ∀ {d cap fuel : Nat} {a : Addr} {lo hi : Option K}, d ≤ fuel →
    Sub h descp d cap a lo hi → Mem h d a (bottom h fuel a) ∧ (h.get (bottom h fuel a)).innerp = false
  | 0, _, 0, a, _, _, _, hs => ⟨rfl, hs.2.innerp⟩
  | 0, _, fuel + 1, a, _, _, _, hs => by
      have he : bottom h (fuel + 1) a = a := by simp [bottom, hs.2.innerp]
      rw [he]; exact ⟨rfl, hs.2.innerp⟩
  | d + 1, _, 0, _, _, _, hf, _ => absurd hf (Nat.not_succ_le_zero d)
  | d + 1, _, fuel + 1, a, _, _, hf, hs => by
      simp only [bottom, hs.2.1.innerp, ↓reduceIte]
      have hf' : d ≤ fuel := by omega
      obtain ⟨h₁, h₂⟩ := Sub.bottom_leaf hf' (hs.2.1.kids 0 (Nat.zero_le _))
      exact ⟨Mem.kid (Nat.zero_le _) h₁, h₂⟩

theorem Heap.Same.modify_clear (hl : (h.get a).innerp = false) : h.Same (h.modify a Node.clear) := by
  by_cases hlt : a < h.size
  · have hall : ∀ x, (h.modify a Node.clear).get x = { h.get x with val := ((h.modify a Node.clear).get x).val } := by
      intro x
      by_cases hx : a = x
      · subst hx; rw [Heap.get_modify_eq _ hlt]; rfl
      · rw [Heap.get_modify_ne _ hx]
    refine ⟨Heap.size_modify _ _ _, fun x => ?_, fun x => ?_, fun x => ?_⟩
    · by_cases hx : a = x
      · subst hx
        rw [hall a]
        exact ⟨rfl, rfl, rfl, rfl, fun hi' => by rw [hl] at hi'; cases hi'⟩
      · rw [Heap.get_modify_ne _ hx]; exact .refl _
    · rw [hall x]
    · rw [hall x]
  · rw [Heap.modify, Heap.set_of_le _ (Nat.le_of_not_lt hlt)]; exact .refl h

/-- `btree_clr` の繰り返しは、葉の値しか変えない。 -/
theorem clrFrom_same : ∀ (fuel : Nat) (h : Heap K Q) (a : Addr), LeafNext h → (h.get a).innerp = false →
    h.Same (clrFrom fuel h a)
  | 0, h, _, _, _ => .refl h
  | fuel + 1, h, a, hN, hl => by
      have H := Heap.Same.modify_clear hl
      have hN' := hN.same H.size H.shape H.next
      simp only [clrFrom]
      cases hy : ((h.modify a Node.clear).get a).next with
      | none => exact H
      | some y =>
          have hly := (hN' a y (by rw [(H.shape a).innerp]; exact hl) hy).2
          exact H.trans (clrFrom_same fuel _ y hN' hly)

/-- `used` だけが違い、nil でない値のビットは同じヒープ。 -/
structure Heap.UsedOnly (h h' : Heap K Q) : Prop where
  size : h'.size = h.size
  get : ∀ x, ∃ u, h'.get x = { h.get x with used := u }
  marks : ∀ x m, m < 64 → ((h.get x).value m).nilP = false → (h'.get x).used.getLsbD m = (h.get x).used.getLsbD m

namespace Heap.UsedOnly

theorem refl (h : Heap K Q) : h.UsedOnly h := ⟨rfl, fun _ => ⟨_, rfl⟩, fun _ _ _ _ => rfl⟩

theorem same (H : h.UsedOnly h') : h.Same h' := by
  refine ⟨H.size, fun x => ?_, fun x => ?_, fun x => ?_⟩ <;> obtain ⟨u, hu⟩ := H.get x <;> rw [hu]
  exact ⟨rfl, rfl, rfl, rfl, fun _ => rfl⟩

theorem value_eq (H : h.UsedOnly h') (x : Addr) (m : Nat) : (h'.get x).value m = (h.get x).value m := by
  obtain ⟨u, hu⟩ := H.get x
  rw [hu]; rfl

theorem trans (H : h.UsedOnly h') (H' : h'.UsedOnly h'') : h.UsedOnly h'' := by
  refine ⟨H'.size.trans H.size, fun x => ?_, fun x m hm hv => ?_⟩
  · obtain ⟨u, hu⟩ := H.get x
    obtain ⟨u', hu'⟩ := H'.get x
    exact ⟨u', by rw [hu', hu]⟩
  · rw [H'.marks x m hm (by rw [H.value_eq]; exact hv), H.marks x m hm hv]

theorem set {t : Node K Q} {u : BitVec 64} (ht : t = { h.get a with used := u })
    (hm : ∀ m, m < 64 → ((h.get a).value m).nilP = false → u.getLsbD m = (h.get a).used.getLsbD m) :
    h.UsedOnly (h.set a t) := by
  by_cases hlt : a < h.size
  · refine ⟨Heap.size_set _ _ _, fun x => ?_, fun x m hm' hv => ?_⟩ <;> by_cases hx : a = x
    · subst hx; exact ⟨u, by rw [Heap.get_set_eq _ hlt]; exact ht⟩
    · exact ⟨(h.get x).used, by rw [Heap.get_set_ne _ hx]⟩
    · subst hx; rw [Heap.get_set_eq _ hlt, ht]; exact hm m hm' hv
    · rw [Heap.get_set_ne _ hx]
  · rw [Heap.set_of_le _ (Nat.le_of_not_lt hlt)]; exact refl h

end Heap.UsedOnly

theorem getLsbD_one_shiftLeft (i : Nat) {m : Nat} (hm : m < 64) : (1#64 <<< i).getLsbD m = decide (m = i) := by
  rw [BitVec.getLsbD_shiftLeft, BitVec.getLsbD_one]
  by_cases he : m = i
  · subst he; simp [hm]
  · simp only [he, decide_false]
    by_cases hlt : m < i
    · simp [hlt]
    · simp [show ¬ m - i = 0 by omega]

theorem getLsbD_mark (u : BitVec 64) (i : Nat) {m : Nat} (hm : m < 64) :
    (u ||| (1#64 <<< i)).getLsbD m = (u.getLsbD m || decide (m = i)) := by
  rw [BitVec.getLsbD_or, getLsbD_one_shiftLeft i hm]

theorem getLsbD_unmark (u : BitVec 64) (i : Nat) {m : Nat} (hm : m < 64) :
    ((u ||| (1#64 <<< i)) ^^^ (1#64 <<< i)).getLsbD m = (u.getLsbD m && !decide (m = i)) := by
  rw [BitVec.getLsbD_xor, getLsbD_mark u i hm, getLsbD_one_shiftLeft i hm]
  cases u.getLsbD m <;> cases decide (m = i) <;> rfl

/-- 葉の中の繰り返しは、値が nil の添字のビットしか消さない。 -/
theorem Node.iterLoop_used : ∀ (fuel : Nat) (t : Node K Q) (u : BitVec 64) (sh i : Nat),
    ∃ w, (t.iterLoop fuel u sh i).1 = { t with used := w } ∧
      ∀ m, m < 64 → (t.value m).nilP = false → w.getLsbD m = t.used.getLsbD m
  | 0, t, _, _, _ => ⟨t.used, rfl, fun _ _ _ => rfl⟩
  | fuel + 1, t, u, sh, i => by
      simp only [iterLoop]
      split
      · cases hv : (t.value i).nilP with
        | false => exact ⟨t.used, rfl, fun _ _ _ => rfl⟩
        | true =>
            simp only [Bool.not_true, Bool.false_eq_true, ↓reduceIte]
            obtain ⟨w, hw, hm⟩ := Node.iterLoop_used fuel { t with used := (t.used ||| (1#64 <<< i)) ^^^ (1#64 <<< i) }
              (u >>> (sh + 1)) (ctzll (u >>> (sh + 1))) (i + (ctzll (u >>> (sh + 1)) + 1))
            refine ⟨w, hw, fun m hm' hmv => ?_⟩
            have hne : m ≠ i := by rintro rfl; rw [hv] at hmv; cases hmv
            rw [hm m hm' hmv]
            simp [getLsbD_unmark _ _ hm', hne]
      · exact ⟨t.used, rfl, fun _ _ _ => rfl⟩

theorem usedOnly_iterLeaf (h : Heap K Q) (a : Addr) (i : Nat) : h.UsedOnly (h.set a ((h.get a).iterLeaf i).1) := by
  obtain ⟨w, hw, hm⟩ := Node.iterLoop_used 64 (h.get a) ((h.get a).used >>> i) (ctzll ((h.get a).used >>> i))
    (i + ctzll ((h.get a).used >>> i))
  exact .set hw hm

theorem iterFrom_usedOnly : ∀ (fuel : Nat) (h : Heap K Q) (it : BtreeIter K) (t : Addr) (i : Nat),
    h.UsedOnly (iterFrom fuel h it t i).1
  | 0, h, _, _, _ => .refl h
  | fuel + 1, h, it, t, i => by
      have H := usedOnly_iterLeaf h t i
      simp only [iterFrom]
      cases ((h.get t).iterLeaf i).2 with
      | some j => exact H
      | none =>
          cases ((h.get t).iterLeaf i).1.next with
          | none => exact H
          | some y => exact H.trans (iterFrom_usedOnly fuel _ it y 0)

/-- `btree_iter_next` は、`used` しか変えない。 -/
theorem btreeIterNext_usedOnly (h : Heap K Q) (it : BtreeIter K) : h.UsedOnly (btreeIterNext h it).1 := by
  unfold btreeIterNext
  cases it.t with
  | none => exact .refl h
  | some t => exact iterFrom_usedOnly _ _ _ _ _

theorem iterTimes_usedOnly : ∀ (m : Nat) (h : Heap K Q) (it : BtreeIter K), h.UsedOnly (iterTimes m h it).1
  | 0, h, _ => .refl h
  | m + 1, h, it => (btreeIterNext_usedOnly h it).trans (iterTimes_usedOnly m _ _)

/-! ## 実行 -/

theorem Inv.step_ok (I : Inv h descp d) (op : Op K Q) : ∃ d', Inv (step h op) descp d' := by
  cases op with
  | put k x =>
      obtain ⟨d', P⟩ := I.put k
      exact ⟨d', P.inv.same (.store P.leaf.2)⟩
  | rem k =>
      refine ⟨d, ?_⟩
      simp only [step, btreeRem]
      cases hg : btreeGet h root (some k) with
      | none => exact I
      | some c => exact I.same (.store ((I.sub.btreeGet_iff (Nat.le_refl _) I.depth).mp hg).leaf)
  | clr =>
      have hb := I.sub.bottom_leaf (Nat.le_of_lt I.depth)
      exact ⟨d, I.same (clrFrom_same _ h _ I.leafNext hb.2)⟩
  | iter m => exact ⟨d, I.same (iterTimes_usedOnly m h _).same⟩

theorem inv_makeBtree (descp : Bool) : Inv (makeBtree descp : Heap K Q) descp 0 := by
  have hget : (makeBtree descp : Heap K Q).get root = .make descp := rfl
  refine ⟨⟨Nat.zero_lt_one, ?_⟩, Nat.zero_lt_one, ?_, ?_, fun _ => rfl⟩
  · rw [hget]
    exact ⟨rfl, rfl, Nat.zero_le _, fun i hi' => absurd hi' (Nat.not_lt_zero _),
      fun i j a b _ hj => absurd hj (Nat.not_lt_zero _), fun i _ hi' => Arr.get_const _ hi'⟩
  · rw [hget]; rfl
  · intro x y _ hy
    by_cases hx : x = root
    · subst hx; rw [hget] at hy; cases hy
    · rw [Heap.get_of_le (Nat.one_le_iff_ne_zero.mpr hx)] at hy; cases hy

theorem inv_run (descp : Bool) (ops : List (Op K Q)) : ∃ d, Inv (run descp ops) descp d := by
  have hfold : ∀ (ops : List (Op K Q)) (h : Heap K Q), (∃ d, Inv h descp d) →
      ∃ d, Inv (ops.foldl step h) descp d := by
    intro ops
    induction ops with
    | nil => exact fun _ hI => hI
    | cons op ops ih =>
        rintro h ⟨d, I⟩
        exact ih _ (I.step_ok op)
  exact hfold ops _ ⟨0, inv_makeBtree descp⟩

/-! ## 探索木の不変条件 -/

theorem keyUnder_has : ∀ {d : Nat} {a : Addr}, KeyUnder h d a k → ∃ v, Has h d a k v
  | 0, _, ⟨i, hi, hk⟩ => ⟨_, i, hi, hk, rfl⟩
  | _ + 1, _, ⟨i, hi, hk⟩ => by
      obtain ⟨v, hv⟩ := keyUnder_has hk
      exact ⟨v, i, hi, hv⟩

theorem Sub.searchTree : ∀ {d cap : Nat} {a : Addr} {lo hi : Option K}, Sub h descp d cap a lo hi →
    SearchTree h descp d a
  | 0, _, _, _, _, hs => by
      have hk := hs.2.keysSorted
      rw [hs.2.descp_eq] at hk
      exact ⟨hs.2.innerp, hk, hs.2.nan⟩
  | d + 1, _, a, lo, hi, hs => by
      have hk := hs.2.1.keysSorted
      rw [hs.2.1.descp_eq] at hk
      refine ⟨hs.2.1.innerp, hs.2.1.one_le, hk, fun i hi' => ?_⟩
      have hkid := hs.2.1.kids i hi'
      refine ⟨hkid.searchTree, hkid.n_le, fun k hk => ?_⟩
      obtain ⟨v, hv⟩ := keyUnder_has hk
      obtain ⟨h₁, h₂⟩ := hkid.has_bounds hv
      constructor
      · intro s h0 he
        rw [Node.lower, if_neg (by omega), he] at h₁
        exact above_some.mp h₁
      · intro s hlt he
        rw [Node.upper, if_pos hlt, he] at h₂
        exact upto_some.mp h₂

theorem Inv.treeInv (I : Inv h descp d) : TreeInv h descp := by
  refine ⟨⟨d, I.sub.searchTree⟩, I.sub.n_le, ?_⟩
  rw [I.splitp, decide_eq_true_eq]

end Books.Btree
