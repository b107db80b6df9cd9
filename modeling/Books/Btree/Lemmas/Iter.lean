import Books.Btree.Lemmas.ChainRun
import Mathlib.Data.List.Pairwise
import Mathlib.Data.List.Perm.Subperm

/-!
# 反復

`btree_iter_next` は、葉の並びを左から順にたどり、`used` のビットが立っていて値が nil でない場所を返す。
-/

set_option linter.unusedSectionVars false

namespace Books.Btree

open Books.Lib

variable {K Q : Type} [LinearOrder K] [LinearOrder Q] [Zero Q]
variable {descp : Bool} {h h' h'' : Heap K Q} {lo hi : Option K} {d cap fuel : Nat} {a x : Addr} {k : K}
  {W : List Addr} {v : BtreeVal Q} {c : Cell} {t : Node K Q} {w : BitVec 64} {p q : Nat}

/-! ## ビット -/

theorem ctzll_before {u : BitVec 64} {j : Nat} (hj : j < ctzll u) : u.getLsbD j = false := by
  have hb := List.not_of_lt_findIdx hj
  simpa using hb

theorem ctzll_bit {u : BitVec 64} (hu : ctzll u < 64) : u.getLsbD (ctzll u) = true := by
  have hlt : (List.range 64).findIdx (fun j => u.getLsbD j) < (List.range 64).length := by simpa [ctzll] using hu
  have hb := List.findIdx_getElem (w := hlt)
  simpa [ctzll] using hb

/-! ## 一つの葉 -/

/-- 添字 `p` 以後の、ビットが立っていて値が nil でない添字。 -/
def Node.hits (t : Node K Q) (w : BitVec 64) (p : Nat) : List Nat :=
  (List.range' p (t.n - p)).filter (fun j => w.getLsbD j && !(t.value j).nilP)

theorem Node.mem_hits {j : Nat} : j ∈ t.hits w p ↔ p ≤ j ∧ j < t.n ∧ w.getLsbD j = true ∧ (t.value j).nilP = false := by
  simp only [hits, List.mem_filter, List.mem_range'_1, Bool.and_eq_true, Bool.not_eq_true']
  constructor
  · rintro ⟨⟨h₁, h₂⟩, h₃⟩
    exact ⟨h₁, by omega, h₃⟩
  · rintro ⟨h₁, h₂, h₃⟩
    exact ⟨⟨h₁, by omega⟩, h₃⟩

theorem Node.hits_succ (hp : p < t.n) : t.hits w p =
    if (w.getLsbD p && !(t.value p).nilP) = true then p :: t.hits w (p + 1) else t.hits w (p + 1) := by
  unfold hits
  obtain ⟨m, hm⟩ : ∃ m, t.n - p = m + 1 := ⟨t.n - p - 1, by omega⟩
  rw [hm, List.range'_succ, List.filter_cons, show t.n - (p + 1) = m by omega]

theorem Node.hits_of_le (hp : t.n ≤ p) : t.hits w p = [] := by
  simp [hits, Nat.sub_eq_zero_of_le hp]

/-- ビットの立っていない添字は飛ばしてよい。 -/
theorem Node.hits_skip (hpq : p ≤ q) (hb : ∀ m, p ≤ m → m < q → w.getLsbD m = false) :
    t.hits w p = t.hits w q := by
  induction q with
  | zero => rw [Nat.le_zero.mp hpq]
  | succ q ih =>
      rcases Nat.lt_or_eq_of_le hpq with hlt | rfl
      · rw [ih (by omega) (fun m h₁ h₂ => hb m h₁ (by omega))]
        by_cases hq : q < t.n
        · rw [Node.hits_succ hq, hb q (by omega) (Nat.lt_succ_self q)]; rfl
        · rw [Node.hits_of_le (by omega), Node.hits_of_le (by omega)]
      · rfl

theorem Node.hits_congr {t' : Node K Q} {w' : BitVec 64} (hn : t'.n = t.n) (hv : t'.val = t.val)
    (hw : ∀ j, j < t.n → (t.value j).nilP = false → w'.getLsbD j = w.getLsbD j) : t'.hits w' p = t.hits w p := by
  unfold hits
  rw [hn]
  refine List.filter_congr (fun j hj => ?_)
  simp only [List.mem_range'_1] at hj
  have he : t'.value j = t.value j := by simp only [value, hv]
  rw [he]
  cases hnil : (t.value j).nilP with
  | true => simp
  | false => rw [hw j (by omega) hnil]

/-- 葉の中の繰り返し。`w` は繰り返しを始めたときの `used`、`p` は次に調べる添字である。 -/
theorem Node.iterLoop_hit : ∀ (fuel : Nat) (t : Node K Q) (p : Nat), t.n ≤ 63 →
    t.n ≤ p + ctzll (w >>> p) + fuel →
    (t.iterLoop fuel (w >>> p) (ctzll (w >>> p)) (p + ctzll (w >>> p))).2 = (t.hits w p).head?
  | fuel, t, p, hn, hf => by
      have hskip : t.hits w p = t.hits w (p + ctzll (w >>> p)) := by
        refine Node.hits_skip (Nat.le_add_right _ _) (fun m h₁ h₂ => ?_)
        have hb := ctzll_before (u := w >>> p) (j := m - p) (by omega)
        rw [BitVec.getLsbD_ushiftRight, show p + (m - p) = m by omega] at hb
        exact hb
      by_cases hi : p + ctzll (w >>> p) < t.n
      · obtain ⟨fuel, rfl⟩ : ∃ m, fuel = m + 1 := by
          cases fuel with
          | zero => omega
          | succ m => exact ⟨m, rfl⟩
        have hbit : w.getLsbD (p + ctzll (w >>> p)) = true := by
          have hb := ctzll_bit (u := w >>> p) (by omega)
          rw [BitVec.getLsbD_ushiftRight] at hb
          exact hb
        rw [hskip, Node.hits_succ hi, hbit, Bool.true_and]
        simp only [iterLoop, hi, ↓reduceIte]
        cases hv : (t.value (p + ctzll (w >>> p))).nilP with
        | false => simp
        | true =>
            simp only [Bool.not_true, Bool.false_eq_true, ↓reduceIte]
            -- 次の繰り返しは、添字 `p + ctzll (w >>> p) + 1` から始めるのと同じである。
            have hu : w >>> p >>> (ctzll (w >>> p) + 1) = w >>> (p + ctzll (w >>> p) + 1) := by
              rw [← BitVec.shiftRight_add, Nat.add_assoc]
            rw [hu, show p + ctzll (w >>> p) + (ctzll (w >>> (p + ctzll (w >>> p) + 1)) + 1) =
              p + ctzll (w >>> p) + 1 + ctzll (w >>> (p + ctzll (w >>> p) + 1)) by omega]
            exact Node.iterLoop_hit fuel { t with used := (t.used ||| (1#64 <<< (p + ctzll (w >>> p)))) ^^^
              (1#64 <<< (p + ctzll (w >>> p))) } (p + ctzll (w >>> p) + 1) hn (by simp only; omega)
      · have hend : t.hits w p = [] := by rw [hskip, Node.hits_of_le (by omega)]
        rw [hend]
        cases fuel with
        | zero => rfl
        | succ m => simp [iterLoop, hi]

/-! ## 葉の並び -/

/-- 葉 `x` の添字 `p` 以後で、反復が返す場所。 -/
def hitsAt (h : Heap K Q) (x : Addr) (p : Nat) : List Cell := ((h.get x).hits (h.get x).used p).map (Cell.mk x)

/-- 葉の並び `W` で、反復が返す場所。 -/
def hitsOn (h : Heap K Q) (W : List Addr) : List Cell := W.flatMap (fun x => hitsAt h x 0)

theorem Heap.UsedOnly.hitsAt_eq (H : h.UsedOnly h') (hn : (h.get x).n ≤ 63) : hitsAt h' x p = hitsAt h x p := by
  obtain ⟨u, hu⟩ := H.get x
  unfold hitsAt
  refine congrArg _ (Node.hits_congr (by rw [hu]) (by rw [hu]) (fun j hj hv => H.marks x j (by omega) hv))

theorem Heap.UsedOnly.hitsOn_eq (H : h.UsedOnly h') (hn : ∀ x ∈ W, (h.get x).n ≤ 63) : hitsOn h' W = hitsOn h W :=
  List.flatMap_congr (fun x hx => H.hitsAt_eq (hn x hx))

theorem Heap.UsedOnly.next_eq (H : h.UsedOnly h') (x : Addr) : (h'.get x).next = (h.get x).next := by
  obtain ⟨u, hu⟩ := H.get x
  rw [hu]

theorem Heap.UsedOnly.n_eq (H : h.UsedOnly h') (x : Addr) : (h'.get x).n = (h.get x).n := by
  obtain ⟨u, hu⟩ := H.get x
  rw [hu]

theorem Heap.UsedOnly.load_eq (H : h.UsedOnly h') (c : Cell) : h'.load c = h.load c := H.value_eq c.t c.i

theorem Heap.UsedOnly.key_eq (H : h.UsedOnly h') (x : Addr) : (h'.get x).key = (h.get x).key := by
  obtain ⟨u, hu⟩ := H.get x
  rw [hu]

theorem iterLeaf_hit (hn : (h.get a).n ≤ 63) :
    ((h.get a).iterLeaf p).2 = ((h.get a).hits (h.get a).used p).head? :=
  Node.iterLoop_hit (w := (h.get a).used) 64 (h.get a) p hn (by omega)

theorem hits_tail {j : Nat} {js : List Nat} (he : t.hits w p = j :: js) : js = t.hits w (j + 1) := by
  have hj : j ∈ t.hits w p := by rw [he]; exact List.mem_cons_self
  obtain ⟨hpj, hjn, _, _⟩ := Node.mem_hits.mp hj
  -- 先頭の添字までは、どの添字も選ばれない。
  have hskip : ∀ q, p ≤ q → q ≤ j → t.hits w q = j :: js := by
    intro q hpq hqj
    induction q with
    | zero => rw [Nat.le_zero.mp hpq] at he; exact he
    | succ q ih =>
        rcases Nat.lt_or_eq_of_le hpq with hlt | rfl
        · have hq := ih (by omega) (by omega)
          rw [Node.hits_succ (by omega)] at hq
          split at hq
          · have := (List.cons.inj hq).1; omega
          · exact hq
        · exact he
  have hj' := hskip j hpj (Nat.le_refl j)
  rw [Node.hits_succ hjn] at hj'
  split at hj'
  · exact (List.cons.inj hj').2.symm
  · have hmem : j ∈ t.hits w (j + 1) := by rw [hj']; exact List.mem_cons_self
    have := (Node.mem_hits.mp hmem).1
    omega

theorem Node.iterLeaf_next (t : Node K Q) (p : Nat) : (t.iterLeaf p).1.next = t.next := by
  obtain ⟨u, hu, _⟩ := Node.iterLoop_used 64 t (t.used >>> p) (ctzll (t.used >>> p)) (p + ctzll (t.used >>> p))
  replace hu : (t.iterLeaf p).1 = { t with used := u } := hu
  rw [hu]

/-- 葉の中を調べた後も、次の葉からの並びは変わらない。 -/
theorem iterLeaf_path {y : Addr} (p : Nat) (hp : Path (fun x => (h.get x).next) (some x) (x :: y :: W) none) :
    (h.get x).next = some y ∧
    Path (fun z => ((h.set x ((h.get x).iterLeaf p).1).get z).next) (some y) (y :: W) none := by
  have hsome : (h.get x).next = some y := hp.2.1
  have hp₂ := hp.2
  simp only [hsome] at hp₂
  exact ⟨hsome, hp₂.congr (fun z _ => (usedOnly_iterLeaf h x p).next_eq z)⟩

/-- 葉の並びをたどる繰り返しは、次の場所を見つける。 -/
theorem iterFrom_spec (it : BtreeIter K) : ∀ (W : List Addr) (fuel : Nat) (h : Heap K Q) (x : Addr) (p : Nat),
    Path (fun x => (h.get x).next) (some x) (x :: W) none → W.length < fuel → (∀ y ∈ x :: W, (h.get y).n ≤ 63) →
    h.UsedOnly (iterFrom fuel h it x p).1 ∧
    (hitsAt h x p ++ hitsOn h W = [] → (iterFrom fuel h it x p).2.2 = false) ∧
    ∀ c cs, hitsAt h x p ++ hitsOn h W = c :: cs →
      (iterFrom fuel h it x p).2.2 = true ∧
      (iterFrom fuel h it x p).2.1 = ⟨some c.t, c.i + 1, (h.get c.t).key.get c.i, some c⟩ ∧
      ∃ W', (c.t :: W').IsSuffix (x :: W) ∧ Path (fun x => (h.get x).next) (some c.t) (c.t :: W') none ∧
        cs = hitsAt h c.t (c.i + 1) ++ hitsOn h W'
  | _, 0, _, _, _, _, hf, _ => absurd hf (Nat.not_lt_zero _)
  | W, fuel + 1, h, x, p, hp, hf, hn => by
      have hx := hn x List.mem_cons_self
      have M := usedOnly_iterLeaf h x p
      have hhit := iterLeaf_hit (p := p) hx
      obtain ⟨u, hu, _⟩ := Node.iterLoop_used 64 (h.get x) ((h.get x).used >>> p) (ctzll ((h.get x).used >>> p))
        (p + ctzll ((h.get x).used >>> p))
      replace hu : ((h.get x).iterLeaf p).1 = { h.get x with used := u } := hu
      simp only [iterFrom]
      cases hhits : (h.get x).hits (h.get x).used p with
      | cons j js =>
          have hj : ((h.get x).iterLeaf p).2 = some j := by rw [hhit, hhits]; rfl
          have hat : hitsAt h x p = ⟨x, j⟩ :: js.map (Cell.mk x) := by simp [hitsAt, hhits]
          simp only [hj, hu]
          rw [hu] at M
          rw [hat]
          refine ⟨M, fun he => (by cases he), fun c cs he => ?_⟩
          obtain ⟨rfl, rfl⟩ := List.cons.inj he
          refine ⟨trivial, rfl, W, List.suffix_refl _, hp, ?_⟩
          rw [hitsAt, ← hits_tail hhits]; rfl
      | nil =>
          have hj : ((h.get x).iterLeaf p).2 = none := by rw [hhit, hhits]; rfl
          have hat : hitsAt h x p = [] := by simp [hitsAt, hhits]
          simp only [hj, hat, List.nil_append]
          rw [Node.iterLeaf_next]
          cases W with
          | nil =>
              have hnone : (h.get x).next = none := hp.2
              rw [hnone]
              exact ⟨M, fun _ => rfl, fun c cs he => by cases he⟩
          | cons y W =>
              obtain ⟨hsome, hp'⟩ := iterLeaf_path p hp
              rw [hsome]
              have hn' : ∀ z ∈ y :: W, ((h.set x ((h.get x).iterLeaf p).1).get z).n ≤ 63 := by
                intro z hz
                rw [M.n_eq]; exact hn z (List.mem_cons_of_mem x hz)
              obtain ⟨M', hnil, hcons⟩ := iterFrom_spec it W fuel _ y 0 hp' (by simpa using hf) hn'
              have hW : ∀ z ∈ W, (h.get z).n ≤ 63 :=
                fun z hz => hn z (List.mem_cons_of_mem x (List.mem_cons_of_mem y hz))
              have hy : (h.get y).n ≤ 63 := hn y (List.mem_cons_of_mem x List.mem_cons_self)
              rw [M.hitsAt_eq hy, M.hitsOn_eq hW] at hnil hcons
              refine ⟨M.trans M', hnil, fun c cs he => ?_⟩
              obtain ⟨h₁, h₂, W', hsuf, hpW, hcs⟩ := hcons c cs he
              have hmem : ∀ z ∈ c.t :: W', (h.get z).n ≤ 63 :=
                fun z hz => hn z (List.mem_cons_of_mem x (hsuf.subset hz))
              refine ⟨h₁, ?_, W', hsuf.trans (List.suffix_cons x _), hpW.congr (fun z _ => (M.next_eq z).symm), ?_⟩
              · rw [h₂, M.key_eq]
              · rw [hcs, M.hitsAt_eq (hmem _ List.mem_cons_self),
                  M.hitsOn_eq (fun z hz => hmem z (List.mem_cons_of_mem _ hz))]

theorem iterBottom_leaf (hl : (h.get a).innerp = false) (fuel p : Nat) : iterBottom h fuel a p = (a, p) := by
  cases fuel with
  | zero => rfl
  | succ fuel => simp [iterBottom, hl]

/-- 反復を終わりまで続けると、選ばれる場所のキーと値が順に得られる。 -/
theorem iterAll_spec : ∀ (m : Nat) (h : Heap K Q) (it : BtreeIter K) (x₀ x : Addr) (p : Nat) (W : List Addr),
    it.t = some x₀ → iterBottom h h.size x₀ it.i = (x, p) →
    Path (fun x => (h.get x).next) (some x) (x :: W) none → W.length < h.size → (∀ y ∈ x :: W, (h.get y).n ≤ 63) →
    (∀ y ∈ x :: W, (h.get y).innerp = false) → (hitsAt h x p ++ hitsOn h W).length < m →
    iterAll m h it = some ((hitsAt h x p ++ hitsOn h W).map fun c => ((h.get c.t).key.get c.i, h.load c))
  | 0, _, _, _, _, _, _, _, _, _, _, _, _, hm => absurd hm (Nat.not_lt_zero _)
  | m + 1, h, it, x₀, x, p, W, hit, hbot, hp, hlen, hn, hl, hm => by
      have hnext : btreeIterNext h it = iterFrom h.size h it x p := by
        simp only [btreeIterNext, hit, hbot]
      obtain ⟨M, hnil, hcons⟩ := iterFrom_spec it W h.size h x p hp hlen hn
      simp only [iterAll, hnext]
      cases hhits : hitsAt h x p ++ hitsOn h W with
      | nil => simp [hnil hhits]
      | cons c cs =>
          obtain ⟨h₁, h₂, W', hsuf, hpW, hcs⟩ := hcons c cs hhits
          have hmem : ∀ y ∈ c.t :: W', y ∈ x :: W := fun y hy => hsuf.subset hy
          have hlc : ((iterFrom h.size h it x p).1.get c.t).innerp = false := by
            rw [(M.same.shape c.t).innerp]
            exact hl _ (hmem _ List.mem_cons_self)
          have hc := M.hitsAt_eq (p := c.i + 1) (hn _ (hmem _ List.mem_cons_self))
          have hW := M.hitsOn_eq (W := W') (fun z hz => hn z (hmem z (List.mem_cons_of_mem _ hz)))
          have hlen' : W'.length < (iterFrom h.size h it x p).1.size := by
            have := hsuf.length_le
            simp only [List.length_cons] at this
            rw [M.size]; omega
          have ih := iterAll_spec m (iterFrom h.size h it x p).1 (iterFrom h.size h it x p).2.1 c.t c.t (c.i + 1) W'
            (by rw [h₂]) (by rw [h₂]; exact iterBottom_leaf hlc _ _) (hpW.congr (fun z _ => M.next_eq z)) hlen'
            (fun y hy => by rw [M.n_eq]; exact hn y (hmem y hy))
            (fun y hy => by rw [(M.same.shape y).innerp]; exact hl y (hmem y hy))
            (by rw [hc, hW, ← hcs]; rw [hhits] at hm; simpa using hm)
          rw [hc, hW, ← hcs] at ih
          rw [h₁, if_pos rfl, ih]
          simp only [Option.map_some, List.map_cons, h₂, Option.elim_some, M.load_eq, M.key_eq]

/-! ## 木の反復 -/

/-- 葉 `x` の場所のうち、条件 `P` を満たすもの。 -/
def cellsBy (P : Node K Q → Nat → Bool) (h : Heap K Q) (x : Addr) : List Cell :=
  ((List.range (h.get x).n).filter (P (h.get x))).map (Cell.mk x)

/-- 値が nil でない場所。 -/
def Node.liveAt (t : Node K Q) (i : Nat) : Bool := !(t.value i).nilP

/-- ビットが立っていて、値が nil でない場所。 -/
def Node.markedAt (t : Node K Q) (i : Nat) : Bool := t.used.getLsbD i && !(t.value i).nilP

theorem hitsAt_zero (h : Heap K Q) (x : Addr) : hitsAt h x 0 = cellsBy Node.markedAt h x := by
  simp only [hitsAt, Node.hits, cellsBy, Nat.sub_zero, List.range_eq_range']
  rfl

theorem mem_cellsBy {P : Node K Q → Nat → Bool} : c ∈ cellsBy P h x ↔
    c.t = x ∧ c.i < (h.get x).n ∧ P (h.get x) c.i = true := by
  simp only [cellsBy, List.mem_map, List.mem_filter, List.mem_range]
  constructor
  · rintro ⟨i, ⟨h₁, h₂⟩, rfl⟩
    exact ⟨rfl, h₁, h₂⟩
  · rintro ⟨rfl, h₁, h₂⟩
    exact ⟨c.i, ⟨h₁, h₂⟩, rfl⟩

/-- `c` のキーは `c'` のキーより前にある。 -/
def CellBefore (h : Heap K Q) (descp : Bool) (c c' : Cell) : Prop :=
  ∀ y y', (h.get c.t).key.get c.i = some y → (h.get c'.t).key.get c'.i = some y' → Before descp y y'

theorem Sub.cellsBy_at {P : Node K Q → Nat → Bool} (hs : Sub h descp d cap a lo hi) (hx : Mem h d a x)
    (hl : (h.get x).innerp = false) (hc : c ∈ cellsBy P h x) : ∃ y, CellAt h d a y c := by
  obtain ⟨rfl, hi', _⟩ := mem_cellsBy.mp hc
  obtain ⟨y, hy⟩ := hs.leaf_key hx hl hi'
  exact ⟨y, hx, hl, hi', hy⟩

theorem blocks_flatten_succ (h : Heap K Q) (d : Nat) (a : Addr) : (blocks h (d + 1) a).flatten =
    (h.get a).kids.flatMap (fun c => (blocks h d c).flatten) := by
  cases d with
  | zero => simp [blocks]
  | succ d =>
      rw [blocks, ← List.flatMap_id, List.flatMap_assoc]
      exact List.flatMap_congr (fun _ _ => List.flatMap_id)

/-- 左の子のキーは、右の子のキーより前にある。 -/
theorem Sub.kid_before {i j : Nat} {y y' : K} {c' : Cell} (hs : Sub h descp (d + 1) cap a lo hi) (hij : i < j)
    (hj : j ≤ (h.get a).n) (hc : CellAt h d ((h.get a).kid i) y c) (hc' : CellAt h d ((h.get a).kid j) y' c') :
    Before descp y y' := by
  have hu := ((hs.2.1.kids i (by omega)).cell_bounds hc).2
  have hl := ((hs.2.1.kids j hj).cell_bounds hc').1
  rw [Node.upper, if_pos (by omega)] at hu
  rw [Node.lower, if_neg (by omega)] at hl
  obtain ⟨u, hu', _⟩ := hs.2.1.seps i (by omega)
  obtain ⟨l, hl', _⟩ := hs.2.1.seps (j - 1) (by omega)
  rw [hu', upto_some] at hu
  rw [hl', above_some] at hl
  rcases Nat.lt_or_eq_of_le (show i ≤ j - 1 by omega) with hlt | he
  · exact Before.not_trans hu ((hs.2.1.sorted i (j - 1) u l hlt (by omega) hu' hl').trans hl)
  · rw [← he, hu'] at hl'
    cases hl'
    exact Before.not_trans hu hl

/-- 部分木の葉を左から順にたどると、場所のキーは木の向きに並ぶ。 -/
theorem Sub.cellsBy_sorted (P : Node K Q → Nat → Bool) : ∀ {d cap : Nat} {a : Addr} {lo hi : Option K},
    Sub h descp d cap a lo hi →
    ((blocks h d a).flatten.flatMap (cellsBy P h)).Pairwise (CellBefore h descp)
  | 0, _, a, _, _, hs => by
      simp only [blocks, List.flatten_cons, List.flatten_nil, List.append_nil, List.flatMap_cons, List.flatMap_nil,
        cellsBy, List.pairwise_map]
      refine (List.pairwise_lt_range.filter _).imp_of_mem (fun {i j} _ hj hij => ?_)
      have hj' := List.mem_range.mp (List.mem_filter.mp hj).1
      exact fun y y' => hs.2.sorted i j y y' hij hj'
  | d + 1, _, a, _, _, hs => by
      rw [blocks_flatten_succ, List.flatMap_assoc, List.pairwise_flatMap]
      constructor
      · intro x hx
        obtain ⟨i, hi', rfl⟩ := Node.mem_kids.mp hx
        exact Sub.cellsBy_sorted P (hs.2.1.kids i hi')
      · rw [Node.kids, List.pairwise_map]
        refine List.pairwise_lt_range.imp_of_mem (fun {i j} _ hj hij => ?_)
        have hj' := Nat.lt_succ_iff.mp (List.mem_range.mp hj)
        have hcell : ∀ i, i ≤ (h.get a).n → ∀ c ∈ (blocks h d ((h.get a).kid i)).flatten.flatMap (cellsBy P h),
            ∃ y, CellAt h d ((h.get a).kid i) y c := by
          intro i hi' c hc
          obtain ⟨x, hx, hc⟩ := List.mem_flatMap.mp hc
          obtain ⟨hm, hl⟩ := (hs.2.1.kids i hi').mem_blocks.mp hx
          exact (hs.2.1.kids i hi').cellsBy_at hm hl hc
        intro c hc c' hc' y y' hy hy'
        obtain ⟨z, hz⟩ := hcell i (by omega) c hc
        obtain ⟨z', hz'⟩ := hcell j hj' c' hc'
        have h₁ := hz.key
        have h₂ := hz'.key
        rw [hy] at h₁
        rw [hy'] at h₂
        cases h₁; cases h₂
        exact hs.kid_before hij hj' hz hz'

/-- 空の葉には、値が nil でない場所がない。 -/
theorem Dead.cellsBy_eq_nil {P : Node K Q → Nat → Bool} (hP : ∀ t i, P t i = true → (t.value i).nilP = false)
    (hd : Dead h x) : cellsBy P h x = [] := by
  rw [List.eq_nil_iff_forall_not_mem]
  intro c hc
  obtain ⟨rfl, hi', hc⟩ := mem_cellsBy.mp hc
  have := hP _ _ hc
  rw [hd.nil _ hi'] at this; cases this

/-- 並びの中の空の葉は、読み飛ばしてよい。 -/
theorem Seg.flatMap_cellsBy {B : List (List Addr)} {s e : Option Addr} {P : Node K Q → Nat → Bool}
    (hP : ∀ t i, P t i = true → (t.value i).nilP = false) (G : Seg h B s W e) :
    W.flatMap (cellsBy P h) = B.flatten.flatMap (cellsBy P h) := by
  have hw := G.woven
  clear G
  induction hw with
  | nil => rfl
  | skip x hx _ ih => rw [List.flatMap_cons, hx.cellsBy_eq_nil hP, List.nil_append, ih]
  | block b _ ih => rw [List.flatten_cons, List.flatMap_append, List.flatMap_append, ih]

/-- 左端の葉から始まる並びの葉。 -/
structure Row (h : Heap K Q) (d : Nat) (W : List Addr) : Prop where
  seg : Seg h (blocks h d root) (some (bottom h h.size root)) (bottom h h.size root :: W) none
  length_lt : W.length < h.size
  n_le : ∀ x ∈ bottom h h.size root :: W, (h.get x).n ≤ 63
  leaf : ∀ x ∈ bottom h h.size root :: W, (h.get x).innerp = false

theorem Inv.row (I : Inv h descp d) (L : Linked h d) : ∃ W, Row h d W := by
  obtain ⟨W, G⟩ := L.seg_bottom I.sub (Nat.le_of_lt I.depth)
  cases W with
  | nil => cases G.path
  | cons x W =>
      obtain rfl : bottom h h.size root = x := by
        have := G.path.1
        cases this; rfl
      refine ⟨W, G, ?_, fun x hx => ?_, fun x hx => ?_⟩
      · have hsub : (bottom h h.size root :: W) ⊆ List.range h.size := fun x hx => List.mem_range.mpr (G.lt x hx)
        have hle := (List.subperm_of_subset G.nodup hsub).length_le
        simp only [List.length_cons, List.length_range] at hle
        exact hle
      · rcases G.woven.mem x hx with hb | hd
        · exact I.sub.mem_n_le (Nat.le_refl _) (I.sub.mem_blocks.mp hb).1
        · exact hd.n_le
      · rcases G.woven.mem x hx with hb | hd
        · exact (I.sub.mem_blocks.mp hb).2
        · exact hd.leaf

theorem iterBottom_eq (h : Heap K Q) : ∀ (fuel : Nat) (a : Addr), iterBottom h fuel a 0 = (bottom h fuel a, 0)
  | 0, _ => rfl
  | fuel + 1, a => by
      simp only [iterBottom, bottom]
      split
      · exact iterBottom_eq h fuel _
      · rfl

/-- 場所のキーと値。 -/
def entry (h : Heap K Q) (c : Cell) : Option K × BtreeVal Q := ((h.get c.t).key.get c.i, h.load c)

/-- 反復を終わりまで続けると、葉の順に、ビットが立っていて値が nil でない場所が得られる。 -/
theorem Inv.iterAll_eq (I : Inv h descp d) (L : Linked h d) : ∃ m, iterAll m h (.fresh root) =
    some (((leaves h).flatMap (cellsBy Node.markedAt h)).map (entry h)) := by
  obtain ⟨W, R⟩ := I.row L
  have hall : hitsAt h (bottom h h.size root) 0 ++ hitsOn h W =
      (leaves h).flatMap (cellsBy Node.markedAt h) := by
    rw [show leaves h = (blocks h d root).flatten from I.sub.leavesOf_eq I.depth,
      ← R.seg.flatMap_cellsBy (fun t i hP => by simpa [Node.markedAt] using (Bool.and_eq_true_iff.mp hP).2),
      List.flatMap_cons, hitsAt_zero, hitsOn]
    exact congrArg _ (List.flatMap_congr (fun x _ => hitsAt_zero h x))
  refine ⟨(hitsAt h (bottom h h.size root) 0 ++ hitsOn h W).length + 1, ?_⟩
  rw [iterAll_spec _ h (.fresh root) root (bottom h h.size root) 0 W rfl (iterBottom_eq h _ _) R.seg.path R.length_lt
    R.n_le R.leaf (Nat.lt_succ_self _), hall]
  rfl

/-! ## `btree_top` -/

theorem topIdx_cells (hn : (h.get x).n ≤ 64) :
    (cellsBy Node.liveAt h x).head? = if (h.get x).topIdx < (h.get x).n then some ⟨x, (h.get x).topIdx⟩ else none := by
  split
  · rename_i hlt
    have hstop := Arr.scan_stop (p := fun u : Ual Q => u.asV.nilP) hn hlt
    obtain ⟨m, hm⟩ : ∃ m, (h.get x).n = (h.get x).topIdx + (m + 1) := ⟨(h.get x).n - (h.get x).topIdx - 1, by omega⟩
    have hpre : (List.range' 0 (h.get x).topIdx).filter (h.get x).liveAt = [] := by
      rw [List.filter_eq_nil_iff]
      intro j hj
      have hlt' := (List.mem_range'_1.mp hj).2
      rw [Nat.zero_add] at hlt'
      have := Arr.scan_holds (p := fun u : Ual Q => u.asV.nilP) (m := (h.get x).n) (a := (h.get x).val) hlt'
      simpa [Node.liveAt, Node.value] using this
    rw [cellsBy, List.range_eq_range', hm, ← List.range'_append_1, List.filter_append, hpre, List.nil_append,
      Nat.zero_add, List.range'_succ, List.filter_cons_of_pos]
    · rfl
    · simpa [Node.liveAt, Node.value, Node.topIdx] using hstop
  · rename_i hge
    rw [List.head?_eq_none_iff, List.eq_nil_iff_forall_not_mem]
    intro c hc
    obtain ⟨rfl, hi', hl⟩ := mem_cellsBy.mp hc
    have := Arr.scan_holds (p := fun u : Ual Q => u.asV.nilP) (m := (h.get c.t).n) (a := (h.get c.t).val) (j := c.i)
      (by unfold Node.topIdx at hge; omega)
    simp [Node.liveAt, Node.value, this] at hl

theorem topFrom_eq : ∀ (W : List Addr) (fuel : Nat) (x : Addr),
    Path (fun x => (h.get x).next) (some x) (x :: W) none → W.length < fuel → (∀ y ∈ x :: W, (h.get y).n ≤ 63) →
    topFrom h fuel x = (((x :: W).flatMap (cellsBy Node.liveAt h)).head?).map
      fun c => ((h.get c.t).key.get c.i, c)
  | _, 0, _, _, hf, _ => absurd hf (Nat.not_lt_zero _)
  | W, fuel + 1, x, hp, hf, hn => by
      have hx := topIdx_cells (Nat.le_succ_of_le (hn x List.mem_cons_self))
      simp only [topFrom]
      rw [List.flatMap_cons, List.head?_append, hx]
      split
      · rfl
      · simp only [Option.none_or]
        cases W with
        | nil =>
            have hnone : (h.get x).next = none := hp.2
            rw [hnone]; rfl
        | cons y W =>
            have hsome : (h.get x).next = some y := hp.2.1
            rw [hsome]
            have hp' := hp.2
            simp only [hsome] at hp'
            exact topFrom_eq W fuel y hp' (by simpa using hf) (fun z hz => hn z (List.mem_cons_of_mem x hz))

/-- `btree_top` は、葉の順で最初の、値が nil でない場所を返す。 -/
theorem Inv.btreeTop_eq (I : Inv h descp d) (L : Linked h d) : btreeTop h root =
    (((leaves h).flatMap (cellsBy Node.liveAt h)).head?).map fun c => ((h.get c.t).key.get c.i, c) := by
  obtain ⟨W, R⟩ := I.row L
  rw [btreeTop, topFrom_eq W h.size _ R.seg.path R.length_lt R.n_le,
    R.seg.flatMap_cellsBy (fun t i hP => by simpa [Node.liveAt] using hP),
    show leaves h = (blocks h d root).flatten from I.sub.leavesOf_eq I.depth]

/-! ## `btree_clr` -/

theorem clrFrom_clears : ∀ (W : List Addr) (fuel : Nat) (h : Heap K Q) (x : Addr),
    Path (fun x => (h.get x).next) (some x) (x :: W) none → W.length < fuel → (∀ y ∈ x :: W, (h.get y).n ≤ 63) →
    (∀ y ∈ x :: W, y < h.size) → (∀ y ∈ x :: W, (h.get y).innerp = false) →
    ∀ y ∈ x :: W, ∀ i, i < (h.get y).n → (((clrFrom fuel h x).get y).value i).nilP = true
  | _, 0, _, _, _, hf, _, _, _ => absurd hf (Nat.not_lt_zero _)
  | W, fuel + 1, h, x, hp, hf, hn, hlt, hl => by
      have H := Heap.Same.modify_clear (hl x List.mem_cons_self)
      have hnext := H.next x
      have hx : ∀ i, i < (h.get x).n → (((h.modify x Node.clear).get x).value i).nilP = true := by
        intro i hi'
        rw [Heap.get_modify_eq _ (hlt x List.mem_cons_self)]
        exact Node.clear_nil _ (Nat.le_succ_of_le (hn x List.mem_cons_self)) hi'
      simp only [clrFrom, hnext]
      intro y hy i hi'
      cases W with
      | nil =>
          have hnone : (h.get x).next = none := hp.2
          rw [hnone]
          obtain rfl := List.mem_singleton.mp hy
          exact hx i hi'
      | cons z W =>
          have hsome : (h.get x).next = some z := hp.2.1
          rw [hsome]
          rcases List.mem_cons.mp hy with rfl | hy
          · exact clrFrom_nil _ _ _ _ _ (hx i hi')
          · have hp' := hp.2
            simp only [hsome] at hp'
            exact clrFrom_clears W fuel _ z (hp'.congr (fun u _ => H.next u)) (by simpa using hf)
              (fun u hu => by rw [(H.shape u).n]; exact hn u (List.mem_cons_of_mem x hu))
              (fun u hu => by rw [H.size]; exact hlt u (List.mem_cons_of_mem x hu))
              (fun u hu => by rw [(H.shape u).innerp]; exact hl u (List.mem_cons_of_mem x hu)) y hy i
              (by rw [(H.shape y).n]; exact hi')

/-- `btree_clr` の後は、どのキーの値も nil である。 -/
theorem Inv.find_clr (I : Inv h descp d) (L : Linked h d) (k : K) : find (btreeClr h root) k = .nil := by
  obtain ⟨W, R⟩ := I.row L
  have hb := I.sub.bottom_leaf (Nat.le_of_lt I.depth)
  have H := clrFrom_same h.size h _ I.leafNext hb.2
  have I' := I.same H
  refine find_eq_nil_iff.mpr (fun v hv he => ?_)
  obtain ⟨c, hc, hcv⟩ := I'.sub.has_iff_cell.mp ((I'.sub.find_iff I'.depth hv).mp he)
  have hc' := (I.sub.cell_frame (fun y _ => H.shape y)).mp hc
  have hmem := R.seg.woven.sublist.mem (I.sub.mem_blocks.mpr ⟨hc'.mem, hc'.leaf⟩)
  have hnil := clrFrom_clears W h.size h _ R.seg.path R.length_lt R.n_le R.seg.lt R.leaf _ hmem c.i hc'.lt
  rw [Heap.load] at hcv
  rw [hcv, hv] at hnil; cases hnil

end Books.Btree
