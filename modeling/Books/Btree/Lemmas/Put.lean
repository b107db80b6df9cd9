import Books.Btree.Lemmas.NodeSplit
import Books.Btree.Lemmas.Cells

/-!
# キーの追加

`leaf_add` と `twig_add` が部分木に行う変更を `AddOk` でまとめる。木の深さについての帰納法で示す。
-/

set_option linter.unusedSectionVars false

namespace Books.Btree

open Books.Lib

variable {K Q : Type} [LinearOrder K] [LinearOrder Q] [Zero Q]
variable {descp : Bool} {h h' : Heap K Q} {lo hi : Option K} {d cap fuel : Nat} {a x : Addr} {k y : K}
  {v : BtreeVal Q} {r : Added K Q}

/-! ## 追加で埋まる葉 -/

/-- キー `k` の探索で着く葉。 -/
def leafAt (h : Heap K Q) : Nat → Addr → Option K → Addr
  | 0, t, _ => t
  | fuel + 1, t, k => if (h.get t).innerp then leafAt h fuel ((h.get t).kid ((h.get t).seek k)) k else t

/-- キー `k` を加えると葉が埋まる。`k` がなく、62 個の値がどれも nil でない。 -/
def Node.overflows (t : Node K Q) (k : Option K) : Bool :=
  !keyEq k (t.key.get (t.seek k)) && decide (t.nulIdx = t.n) && decide (t.n = 62)

/-- キー `k` を加えると葉が埋まり、`k` の値の場所は後半に入る。 -/
def Node.loses (t : Node K Q) (k : Option K) : Bool := t.overflows k && decide (32 ≤ t.seek k)

theorem Sub.leafAt_succ (hs : Sub h descp (d + 1) cap a lo hi) (fuel : Nat) (k : Option K) :
    leafAt h (fuel + 1) a k = leafAt h fuel ((h.get a).kid ((h.get a).seek k)) k := by
  simp [leafAt, hs.2.1.innerp]

theorem Sub.leafAt_zero (hs : Sub h descp 0 cap a lo hi) (fuel : Nat) (k : Option K) : leafAt h fuel a k = a := by
  cases fuel with
  | zero => rfl
  | succ fuel => simp [leafAt, hs.2.innerp]

theorem Sub.leafAt_eq : ∀ {d cap fuel : Nat} {a : Addr} {lo hi : Option K}, d ≤ fuel →
    Sub h descp d cap a lo hi → leafAt h fuel a (some k) = leafAt h d a (some k)
  | 0, _, fuel, a, _, _, _, hs => by rw [hs.leafAt_zero, hs.leafAt_zero]
  | d + 1, _, 0, _, _, _, hf, _ => absurd hf (Nat.not_succ_le_zero d)
  | d + 1, _, fuel + 1, a, _, _, hf, hs => by
      rw [hs.leafAt_succ, hs.leafAt_succ]
      exact Sub.leafAt_eq (by omega) (hs.2.1.kids _ (Node.seek_le _ _))

theorem Node.LeafOk.leafAdd_n_eq {t : Node K Q} (ht : t.LeafOk descp 62 lo hi) :
    (t.leafAdd (some k)).1.n = 63 ↔ t.overflows (some k) = true := by
  have hn := ht.n_le
  have hnul := t.nulIdx_le
  cases hk : keyEq (some k) (t.key.get (t.seek (some k))) with
  | true =>
      rw [leafAdd_found hk]
      simp only [overflows, hk, Bool.not_true, Bool.false_and, Bool.false_eq_true, iff_false]
      omega
  | false =>
      rw [leafAdd_n hk]
      simp only [overflows, hk, Bool.not_false, Bool.true_and, Bool.and_eq_true, decide_eq_true_eq]
      split <;> omega

/-- 埋まる葉では、キーの入る添字は探索の止まる添字である。 -/
theorem Node.LeafOk.leafAdd_pos_eq {t : Node K Q} (ho : t.overflows (some k) = true) :
    (t.leafAdd (some k)).2 = t.seek (some k) := by
  simp only [overflows, Bool.and_eq_true, Bool.not_eq_true', decide_eq_true_eq] at ho
  have hsk := t.seek_le (some k)
  rw [leafAdd_pos ho.1.1, addPos, if_neg (by omega)]

/-! ## 追加の結果 -/

/-- 高さ `d` の部分木にキー `k` を加えた結果。`leaf` は、返した場所が部分木の葉の中にあることを述べる。 -/
structure AddOk (h : Heap K Q) (descp : Bool) (d : Nat) (a : Addr) (lo hi : Option K) (k : K) (r : Added K Q) :
    Prop where
  sub : Sub r.heap descp d 63 a lo hi
  splitp : r.splitp = decide (63 ≤ (r.heap.get a).n)
  size_le : h.size ≤ r.heap.size
  frame : ∀ x, x < h.size → ¬ Mem h d a x → r.heap.get x = h.get x
  mem : ∀ x, Mem r.heap d a x → Mem h d a x ∨ h.size ≤ x
  has : ∀ y v, v.nilP = false → (Has r.heap d a y v ↔ Has h d a y v)
  full : (r.heap.get a).n = 63 → ∃ y v, Has r.heap d a y v ∧ v.nilP = false
  leaf : Mem r.heap d a r.cell.t ∧ (r.heap.get r.cell.t).innerp = false
  live : (decide (0 < d) && (h.get (leafAt h d a (some k))).loses (some k)) = false → CellAt r.heap d a k r.cell
  lost : (decide (0 < d) && (h.get (leafAt h d a (some k))).loses (some k)) = true →
    (r.heap.get r.cell.t).n ≤ r.cell.i
  brim : d = 0 → r.splitp = (h.get a).overflows (some k) ∧
    ((h.get a).overflows (some k) = true → r.cell = ⟨a, (h.get a).seek (some k)⟩)
  inner : ∀ x, x < h.size → (r.heap.get x).innerp = (h.get x).innerp
  leafNext : LeafNext h → LeafNext r.heap

theorem Sub.leafAdd_ok (hs : Sub h descp 0 62 a lo hi) (hlo : Above descp lo k) (hhi : Upto descp hi k) :
    AddOk h descp 0 a lo hi k (leafAdd h a (some k)) := by
  have hl := hs.2.leafAdd hlo hhi
  have hcell := hs.2.leafAdd_cell k
  have hget : (leafAdd h a (some k)).heap.get a = ((h.get a).leafAdd (some k)).1 := Heap.get_set_eq _ hs.1
  have hinner : ∀ x, ((leafAdd h a (some k)).heap.get x).innerp = (h.get x).innerp := by
    intro x
    by_cases hx : x = a
    · subst hx; rw [hget, hl.innerp, hs.2.innerp]
    · exact congrArg _ (Heap.get_set_ne _ (Ne.symm hx))
  have hnext : ∀ x, ((leafAdd h a (some k)).heap.get x).next = (h.get x).next := by
    intro x
    by_cases hx : x = a
    · subst hx; rw [hget, Node.leafAdd_next]
    · exact congrArg _ (Heap.get_set_ne _ (Ne.symm hx))
  have hsize : (leafAdd h a (some k)).heap.size = h.size := by simp [leafAdd]
  refine ⟨⟨?_, ?_⟩, ?_, ?_, ?_, ?_, ?_, ?_, ?_, ?_, ?_, ?_, fun x _ => hinner x, ?_⟩
  · simpa [leafAdd] using hs.1
  · rw [hget]; exact hl
  · rw [hget]; rfl
  · simp [leafAdd]
  · intro x _ hx
    exact Heap.get_set_ne _ (fun he => hx he.symm)
  · intro x hx; exact Or.inl hx
  · intro y v hv
    simp only [Has]
    rw [hget]; exact hs.2.leafAdd_has hv
  · intro hn
    rw [hget, hs.2.leafAdd_n_eq] at hn
    simp only [Node.overflows, Bool.and_eq_true, Bool.not_eq_true', decide_eq_true_eq] at hn
    obtain ⟨⟨_, hnul⟩, hn⟩ := hn
    -- 葉が埋まるのは、元の値がどれも nil でないときである。
    obtain ⟨y, hy, _⟩ := hs.2.keys 0 (by omega)
    have hv : ((h.get a).value 0).nilP = false := Node.nulIdx_before (by omega)
    refine ⟨y, (h.get a).value 0, ?_, hv⟩
    simp only [Has]
    rw [hget, hs.2.leafAdd_has hv]
    exact ⟨0, by omega, hy, rfl⟩
  · refine ⟨rfl, ?_⟩
    rw [show (leafAdd h a (some k)).cell.t = a from rfl, hget]; exact hl.innerp
  · intro _
    refine ⟨rfl, ?_, ?_, ?_⟩ <;> rw [show (leafAdd h a (some k)).cell.t = a from rfl, hget]
    · exact hl.innerp
    · exact hcell.1
    · exact hcell.2
  · intro hlost; simp at hlost
  · intro _
    constructor
    · have hle := hl.n_le
      have hiff := hs.2.leafAdd_n_eq (k := k)
      simp only [leafAdd]
      rw [Bool.eq_iff_iff, decide_eq_true_eq, ← hiff]
      omega
    · intro ho
      simp only [leafAdd, Node.LeafOk.leafAdd_pos_eq ho]
  · intro hN x y hx hy
    rw [hinner] at hx
    rw [hnext] at hy
    rw [hinner, hsize]
    exact hN x y hx hy

/-! ## 内部の節 -/

section Twig
variable (hs : Sub h descp (d + 1) 62 a lo hi) {idx : Nat} (hidx : idx ≤ (h.get a).n)
  (A : AddOk h descp d ((h.get a).kid idx) ((h.get a).lower lo idx) ((h.get a).upper hi idx) k r)
include hs hidx A

theorem AddOk.parent : r.heap.get a = h.get a := A.frame a hs.1 (hs.2.2.self idx hidx)

theorem AddOk.other {m : Nat} (hm : m ≤ (h.get a).n) (hne : m ≠ idx) (hx : Mem h d ((h.get a).kid m) x) :
    x < r.heap.size ∧ r.heap.get x = h.get x := by
  have hlt := (hs.2.1.kids m hm).mem_lt_size hx
  exact ⟨Nat.lt_of_lt_of_le hlt A.size_le, A.frame x hlt (hs.2.2.kids m idx x hm hidx hne hx)⟩

theorem AddOk.other_mem {m : Nat} (hm : m ≤ (h.get a).n) (hne : m ≠ idx) :
    Mem r.heap d ((h.get a).kid m) x ↔ Mem h d ((h.get a).kid m) x :=
  (hs.2.1.kids m hm).mem_frame (fun y hy => by rw [(A.other hs hidx hm hne hy).2]; exact .refl _)

theorem AddOk.other_has {m : Nat} (hm : m ≤ (h.get a).n) (hne : m ≠ idx) :
    Has r.heap d ((h.get a).kid m) y v ↔ Has h d ((h.get a).kid m) y v :=
  has_frame (fun x hx => by rw [(A.other hs hidx hm hne hx).2]; exact ⟨rfl, rfl, rfl⟩)

theorem AddOk.twig : (r.heap.get a).TwigOk descp 62 lo hi
    (fun i c l u => Sub r.heap descp d (if i = idx then 63 else 62) c l u) := by
  rw [A.parent hs hidx]
  refine { hs.2.1 with kids := fun i hi' => ?_ }
  by_cases he : i = idx
  · subst he; rw [if_pos rfl]; exact A.sub
  · rw [if_neg he]
    refine (hs.2.1.kids i hi').frame (fun y hy => ?_)
    rw [(A.other hs hidx hi' he hy).2]
    exact ⟨(A.other hs hidx hi' he hy).1, .refl _⟩

theorem AddOk.apart : Apart r.heap d a := by
  have hnew : ∀ x, Mem r.heap d ((h.get a).kid idx) x → ∀ m, m ≤ (h.get a).n → m ≠ idx →
      ¬ Mem h d ((h.get a).kid m) x := by
    intro x hx m hm hne hx'
    rcases A.mem x hx with hx | hx
    · exact hs.2.2.kids m idx x hm hidx hne hx' hx
    · exact Nat.lt_irrefl _ (Nat.lt_of_lt_of_le ((hs.2.1.kids m hm).mem_lt_size hx') hx)
  constructor
  · rw [A.parent hs hidx]
    intro i hi' hx
    by_cases he : i = idx
    · subst he
      rcases A.mem a hx with hx | hx
      · exact hs.2.2.self i hi' hx
      · exact Nat.lt_irrefl _ (Nat.lt_of_lt_of_le hs.1 hx)
    · exact hs.2.2.self i hi' ((A.other_mem hs hidx hi' he).mp hx)
  · rw [A.parent hs hidx]
    intro i j x hi' hj hij hx hx'
    by_cases he : i = idx
    · subst he
      exact hnew x hx j hj (Ne.symm hij) ((A.other_mem hs hidx hj (Ne.symm hij)).mp hx')
    · by_cases he' : j = idx
      · subst he'
        exact hnew x hx' i hi' hij ((A.other_mem hs hidx hi' hij).mp hx)
      · exact hs.2.2.kids i j x hi' hj hij ((A.other_mem hs hidx hi' he).mp hx)
          ((A.other_mem hs hidx hj he').mp hx')

theorem AddOk.twig_mem (hx : Mem r.heap (d + 1) a x) : Mem h (d + 1) a x ∨ h.size ≤ x := by
  rcases hx with rfl | ⟨i, hi', hx⟩
  · exact Or.inl (Mem.self h _ _)
  · rw [A.parent hs hidx] at hi' hx
    by_cases he : i = idx
    · subst he
      rcases A.mem x hx with hx | hx
      · exact Or.inl (Mem.kid hi' hx)
      · exact Or.inr hx
    · exact Or.inl (Mem.kid hi' ((A.other_mem hs hidx hi' he).mp hx))

theorem AddOk.twig_has (hv : v.nilP = false) : Has r.heap (d + 1) a y v ↔ Has h (d + 1) a y v := by
  simp only [Has]
  rw [A.parent hs hidx]
  constructor
  · rintro ⟨i, hi', hy⟩
    refine ⟨i, hi', ?_⟩
    by_cases he : i = idx
    · subst he; exact (A.has y v hv).mp hy
    · exact (A.other_has hs hidx hi' he).mp hy
  · rintro ⟨i, hi', hy⟩
    refine ⟨i, hi', ?_⟩
    by_cases he : i = idx
    · subst he; exact (A.has y v hv).mpr hy
    · exact (A.other_has hs hidx hi' he).mpr hy

theorem AddOk.twig_frame (hx : x < h.size) (hm : ¬ Mem h (d + 1) a x) : r.heap.get x = h.get x :=
  A.frame x hx (fun hm' => hm (Mem.kid hidx hm'))

/-- 子が埋まったときは、`node_split` の条件が成り立つ。 -/
theorem AddOk.ready (hsp : r.splitp = true) : Ready r.heap descp d a lo hi idx := by
  have hp := A.parent hs hidx
  have hn : (r.heap.get ((h.get a).kid idx)).n = 63 := by
    have h₁ := A.sub.n_le
    rw [A.splitp, decide_eq_true_eq] at hsp
    omega
  refine ⟨Nat.lt_of_lt_of_le hs.1 A.size_le, A.twig hs hidx, A.apart hs hidx, ?_, ?_, ?_⟩
  · rw [hp]; exact hidx
  · rw [hp]; exact hn
  · rw [hp]; exact A.full hn

/-- 子が埋まらなければ、部分木の条件はそのまま成り立つ。 -/
theorem AddOk.twig_sub (hsp : r.splitp = false) : Sub r.heap descp (d + 1) 62 a lo hi := by
  refine ⟨Nat.lt_of_lt_of_le hs.1 A.size_le, { A.twig hs hidx with kids := fun i hi' => ?_ }, A.apart hs hidx⟩
  have hk := (A.twig hs hidx).kids i hi'
  by_cases he : i = idx
  · subst he
    rw [if_pos rfl] at hk
    refine hk.cap_mono ?_
    rw [A.splitp, decide_eq_false_iff_not] at hsp
    rw [A.parent hs hidx]; omega
  · rw [if_neg he] at hk; exact hk

end Twig

/-- 子の結果から作る `twig_add` の結果。 -/
def Added.twig (fuel : Nat) (a : Addr) (idx : Nat) (r : Added K Q) : Added K Q :=
  let h := if r.splitp then nodeSplit fuel r.heap a idx else r.heap
  ⟨h, decide (64 - 1 ≤ (h.get a).n), r.cell⟩

section Step
variable (hs : Sub h descp (d + 1) 62 a lo hi) (hf : d < fuel)
  (A : AddOk h descp d ((h.get a).kid ((h.get a).seek (some k))) ((h.get a).lower lo ((h.get a).seek (some k)))
    ((h.get a).upper hi ((h.get a).seek (some k))) k r)
include hs hf A

theorem AddOk.step_keep (hsp : r.splitp = false) :
    AddOk h descp (d + 1) a lo hi k (r.twig fuel a ((h.get a).seek (some k))) := by
  have hidx := (h.get a).seek_le (some k)
  have hsub := A.twig_sub hs hidx hsp
  have hp := A.parent hs hidx
  simp only [Added.twig, hsp, Bool.false_eq_true, ↓reduceIte]
  refine ⟨hsub.cap_mono (Nat.le_succ_of_le hsub.n_le), rfl, A.size_le, ?_, ?_, ?_, ?_, ?_, ?_, ?_, ?_,
    A.inner, A.leafNext⟩
  · intro x hx hm
    exact A.twig_frame (r := r) hs hidx hx hm
  · intro x hx
    exact A.twig_mem (r := r) hs hidx hx
  · intro y v hv
    exact A.twig_has (r := r) hs hidx hv
  · intro hn
    have := hsub.n_le
    simp only at hn
    omega
  · exact ⟨Mem.kid (i := (h.get a).seek (some k)) (by rw [hp]; exact hidx) (by rw [hp]; exact A.leaf.1), A.leaf.2⟩
  · rw [hs.leafAt_succ]
    intro hl
    refine CellAt.kid (i := (h.get a).seek (some k)) (by simp only; rw [hp]; exact hidx) ?_
    simp only
    rw [hp]
    refine A.live ?_
    simp only [Nat.zero_lt_succ, decide_true, Bool.true_and] at hl
    rw [hl, Bool.and_false]
  · rw [hs.leafAt_succ]
    intro hl
    simp only [Nat.zero_lt_succ, decide_true, Bool.true_and] at hl
    refine A.lost ?_
    cases d with
    | zero =>
        -- 葉が埋まらなければ、場所は失われない。
        have ho := (A.brim rfl).1
        rw [hsp] at ho
        rw [leafAt, Node.loses, ← ho, Bool.false_and] at hl
        cases hl
    | succ d => simp [hl]
  · intro h0; cases h0

theorem AddOk.step_split (hsp : r.splitp = true) :
    AddOk h descp (d + 1) a lo hi k (r.twig fuel a ((h.get a).seek (some k))) := by
  have hidx := (h.get a).seek_le (some k)
  have R := A.ready hs hidx hsp
  have hp := A.parent hs hidx
  have S := R.splitted hf rfl
  have hnul := Ready.nul_le fuel r.heap (r.heap.get a)
  have hne := R.nul_ne hf rfl
  simp only [Added.twig, hsp, ↓reduceIte]
  have hmem : ∀ x, Mem r.heap d ((h.get a).kid ((h.get a).seek (some k))) x →
      Mem (nodeSplit fuel r.heap a ((h.get a).seek (some k))) (d + 1) a x := by
    intro x hx
    refine Splitted.mem_of_chld R S hnul hne ?_
    rw [hp]; exact hx
  have hhas : ∀ y v, v.nilP = false →
      (Has (nodeSplit fuel r.heap a ((h.get a).seek (some k))) (d + 1) a y v ↔ Has r.heap (d + 1) a y v) :=
    fun y v => Splitted.has R S hnul hne (fun hle y v => R.nul_nil hf rfl hle)
  -- 分ける子が葉でなければ、返した場所の葉は `next` しか変わらない。
  have hcell : d ≠ 0 → ∃ nx, (nodeSplit fuel r.heap a ((h.get a).seek (some k))).get r.cell.t =
      { r.heap.get r.cell.t with next := nx } := by
    intro hd
    refine ⟨_, Splitted.kid_same R S hnul hne R.idx_le hne.symm ?_ ?_⟩
    · rw [hp]; exact A.leaf.1
    · intro he
      have hl := A.leaf.2
      rw [he, hp, A.sub.innerp_eq, decide_eq_false_iff_not] at hl
      omega
  -- 分ける子が葉なら、返した場所は分けた子の中にある。
  have hleaf : d = 0 → (nodeSplit fuel r.heap a ((h.get a).seek (some k))).get r.cell.t =
      splitChld (r.heap.get r.cell.t) (spareAddr r.heap (r.heap.get a) (spareIdx fuel r.heap (r.heap.get a))) := by
    intro hd
    have he : r.cell.t = (r.heap.get a).kid ((h.get a).seek (some k)) := by
      subst hd; rw [hp]; exact A.leaf.1
    rw [he]; exact S.chld
  refine ⟨Splitted.sub R S hnul hne, rfl, Nat.le_trans A.size_le (Splitted.size_le R S hnul hne), ?_, ?_, ?_, ?_, ?_,
    ?_, ?_, ?_, ?_, fun hN => Splitted.leafNext R S hnul hne (A.leafNext hN)⟩
  · intro x hx hm
    have hm' : ¬ Mem r.heap (d + 1) a x := by
      intro hm'
      rcases A.twig_mem hs hidx hm' with hm' | hle
      · exact hm hm'
      · omega
    exact (Splitted.frame R S hnul hne (Nat.lt_of_lt_of_le hx A.size_le) hm').trans (A.twig_frame hs hidx hx hm)
  · intro x hx
    rcases Splitted.mem R S hnul hne hx with hx | hle
    · exact A.twig_mem hs hidx hx
    · exact Or.inr (Nat.le_trans A.size_le hle)
  · intro y v hv
    exact (hhas y v hv).trans (A.twig_has hs hidx hv)
  · intro _
    obtain ⟨y, v, hy, hv⟩ := R.live
    exact ⟨y, v, (hhas y v hv).mpr ⟨_, R.idx_le, hy⟩, hv⟩
  · refine ⟨hmem _ A.leaf.1, ?_⟩
    simp only
    by_cases hd : d = 0
    · rw [hleaf hd]; exact A.leaf.2
    · obtain ⟨nx, he⟩ := hcell hd
      rw [he]; exact A.leaf.2
  · rw [hs.leafAt_succ]
    intro hl
    simp only [Nat.zero_lt_succ, decide_true, Bool.true_and] at hl
    obtain ⟨h₁, h₂, h₃, h₄⟩ := A.live (by rw [hl, Bool.and_false])
    cases d with
    | zero =>
        have ho := (A.brim rfl).1
        rw [hsp] at ho
        rw [leafAt, Node.loses, ← ho, Bool.true_and, decide_eq_false_iff_not] at hl
        have hi' : r.cell.i < 32 := by rw [(A.brim rfl).2 ho.symm]; simp only; omega
        refine ⟨hmem _ h₁, ?_, ?_, ?_⟩ <;> simp only [hleaf rfl, splitChld, h₂]
        · exact hi'
        · rw [Arr.get_fill _ _ _ (by omega), if_neg (by rw [piv_eq]; simp only [Bool.not_false, Bool.toNat_true]; omega)]
          exact h₄
    | succ d =>
        obtain ⟨nx, he⟩ := hcell (by omega)
        refine ⟨hmem _ h₁, ?_, ?_, ?_⟩ <;> simp only [he]
        · exact h₂
        · exact h₃
        · exact h₄
  · rw [hs.leafAt_succ]
    intro hl
    simp only [Nat.zero_lt_succ, decide_true, Bool.true_and] at hl
    cases d with
    | zero =>
        rw [leafAt, Node.loses, Bool.and_eq_true, decide_eq_true_eq] at hl
        simp only [hleaf rfl, splitChld, A.leaf.2]
        rw [(A.brim rfl).2 hl.1]
        simp only [piv_eq, Bool.not_false, Bool.toNat_true]; omega
    | succ d =>
        obtain ⟨nx, he⟩ := hcell (by omega)
        simp only [he]
        exact A.lost (by simp [hl])
  · intro h0; cases h0
  · intro x hx
    exact (Splitted.inner R S hnul hne (Nat.lt_of_lt_of_le hx A.size_le)).trans (A.inner x hx)

theorem AddOk.step : AddOk h descp (d + 1) a lo hi k (r.twig fuel a ((h.get a).seek (some k))) := by
  cases hsp : r.splitp with
  | false => exact A.step_keep hs hf hsp
  | true => exact A.step_split hs hf hsp

end Step

theorem Sub.twigAdd_ok : ∀ {d fuel : Nat} {a : Addr} {lo hi : Option K}, d + 1 < fuel →
    Sub h descp (d + 1) 62 a lo hi → Above descp lo k → Upto descp hi k →
    AddOk h descp (d + 1) a lo hi k (twigAdd fuel h a (some k))
  | _, 0, _, _, _, hf, _, _, _ => absurd hf (Nat.not_lt_zero _)
  | 0, fuel + 1, a, _, _, hf, hs, hlo, hhi => by
      have hkid := hs.2.1.kids _ ((h.get a).seek_le (some k))
      obtain ⟨h₁, h₂⟩ := hs.2.1.seek_bounds (by decide) hlo hhi
      have hf' : 0 < fuel := by omega
      have A := (hkid.leafAdd_ok h₁ h₂).step hs hf'
      simp only [twigAdd, hkid.2.innerp, Bool.not_false, ↓reduceIte]
      exact A
  | d + 1, fuel + 1, a, _, _, hf, hs, hlo, hhi => by
      have hkid := hs.2.1.kids _ ((h.get a).seek_le (some k))
      obtain ⟨h₁, h₂⟩ := hs.2.1.seek_bounds (by decide) hlo hhi
      have hf' : d + 1 < fuel := by omega
      have A := (Sub.twigAdd_ok hf' hkid h₁ h₂).step hs hf'
      simp only [twigAdd, hkid.2.1.innerp, Bool.not_true, Bool.false_eq_true, ↓reduceIte]
      exact A

end Books.Btree
