import Books.Btree.Lemmas.Marks

/-!
# 書き込みを挟む反復

反復の途中で、すでに返った場所に呼び出し側が値を書き込んでも、残りの場所は変わらない。反復子の手前と先を
`Ahead` で分け、消えるビットが先の場所に限られることから導く。
-/

set_option linter.unusedSectionVars false

namespace Books.Btree

open Books.Lib

variable {K Q : Type} [LinearOrder K] [LinearOrder Q] [Zero Q]
variable {h h' h'' h₀ : Heap K Q} {fuel m p q : Nat} {a x y : Addr} {W W' : List Addr} {v : BtreeVal Q}
  {c c' : Cell} {cs ys rest : List Cell} {it : BtreeIter K} {P P' : Cell → Prop}

/-! ## 消えるビット -/

/-- `P` を満たす、値が nil の場所のビットを消しただけである。 -/
structure Heap.UnmarksAt (P : Cell → Prop) (h h' : Heap K Q) : Prop where
  get : ∀ x, ∃ u, h'.get x = { h.get x with used := u }
  clears : ∀ x m, (h'.get x).used.getLsbD m ≠ (h.get x).used.getLsbD m →
    (h.get x).used.getLsbD m = true ∧ P ⟨x, m⟩ ∧ m < (h.get x).n ∧ ((h.get x).value m).nilP = true

namespace Heap.UnmarksAt

theorem refl (P : Cell → Prop) (h : Heap K Q) : h.UnmarksAt P h := ⟨fun _ => ⟨_, rfl⟩, fun _ _ hne => absurd rfl hne⟩

theorem mono (U : h.UnmarksAt P h') (hP : ∀ c, P c → P' c) : h.UnmarksAt P' h' := by
  refine ⟨U.get, fun x m hne => ?_⟩
  obtain ⟨h₁, h₂, h₃⟩ := U.clears x m hne
  exact ⟨h₁, hP _ h₂, h₃⟩

theorem trans (U : h.UnmarksAt P h') (U' : h'.UnmarksAt P h'') : h.UnmarksAt P h'' := by
  refine ⟨fun x => ?_, fun x m hne => ?_⟩
  · obtain ⟨u, hu⟩ := U.get x
    obtain ⟨u', hu'⟩ := U'.get x
    exact ⟨u', by rw [hu', hu]⟩
  · by_cases he : (h'.get x).used.getLsbD m = (h.get x).used.getLsbD m
    · obtain ⟨h₁, h₂, h₃, h₄⟩ := U'.clears x m (by rw [he]; exact hne)
      obtain ⟨u, hu⟩ := U.get x
      rw [hu] at h₃ h₄
      exact ⟨he ▸ h₁, h₂, h₃, h₄⟩
    · exact U.clears x m he

theorem unmarks (U : h.UnmarksAt P h') : h.Unmarks h' := by
  refine ⟨U.get, fun x m hne => ?_⟩
  obtain ⟨h₁, _, h₃⟩ := U.clears x m hne
  exact ⟨h₁, h₃⟩

/-- 値が nil でない場所のビットは変わらない。 -/
theorem marked (U : h.UnmarksAt P h') (hm : (h.get x).Marked) : (h'.get x).Marked := by
  obtain ⟨u, hu⟩ := U.get x
  intro i hi hv
  by_cases he : (h'.get x).used.getLsbD i = (h.get x).used.getLsbD i
  · rw [he]
    rw [hu] at hi hv
    exact hm i hi hv
  · obtain ⟨_, _, _, hnil⟩ := U.clears x i he
    rw [hu] at hv
    rw [show ({ h.get x with used := u } : Node K Q).value i = (h.get x).value i from rfl, hnil] at hv
    cases hv

/-- `P` を満たさない場所のビットは変わらない。 -/
theorem bit_eq (U : h.UnmarksAt P h') (hc : ¬ P c) :
    (h'.get c.t).used.getLsbD c.i = (h.get c.t).used.getLsbD c.i := by
  by_contra hne
  exact hc (U.clears c.t c.i hne).2.1

theorem set {t : Node K Q} {u : BitVec 64} (ht : t = { h.get a with used := u })
    (hc : ∀ m, u.getLsbD m ≠ (h.get a).used.getLsbD m →
      (h.get a).used.getLsbD m = true ∧ P ⟨a, m⟩ ∧ m < (h.get a).n ∧ ((h.get a).value m).nilP = true) :
    h.UnmarksAt P (h.set a t) := by
  by_cases hlt : a < h.size
  · refine ⟨fun x => ?_, fun x m hne => ?_⟩ <;> by_cases hx : a = x
    · subst hx; exact ⟨u, by rw [Heap.get_set_eq _ hlt]; exact ht⟩
    · exact ⟨(h.get x).used, by rw [Heap.get_set_ne _ hx]⟩
    · subst hx; rw [Heap.get_set_eq _ hlt, ht] at hne; exact hc m hne
    · rw [Heap.get_set_ne _ hx] at hne; exact absurd rfl hne
  · rw [Heap.set_of_le _ (Nat.le_of_not_lt hlt)]; exact refl P h

end Heap.UnmarksAt

/-- 葉の中の繰り返しは、始めの添字以後の、値が nil の添字のビットを消すだけである。 -/
theorem Node.iterLoop_clears : ∀ (fuel : Nat) (t : Node K Q) (u : BitVec 64) (sh i : Nat),
    ∃ w, (t.iterLoop fuel u sh i).1 = { t with used := w } ∧
      ∀ m, w.getLsbD m ≠ t.used.getLsbD m →
        t.used.getLsbD m = true ∧ i ≤ m ∧ m < t.n ∧ (t.value m).nilP = true
  | 0, t, _, _, _ => ⟨t.used, rfl, fun _ hne => absurd rfl hne⟩
  | fuel + 1, t, u, sh, i => by
      simp only [iterLoop]
      split
      · rename_i hi
        cases hv : (t.value i).nilP with
        | false => exact ⟨t.used, rfl, fun _ hne => absurd rfl hne⟩
        | true =>
            simp only [Bool.not_true, Bool.false_eq_true, ↓reduceIte]
            obtain ⟨w, hw, hc⟩ := Node.iterLoop_clears fuel { t with used := (t.used ||| (1#64 <<< i)) ^^^ (1#64 <<< i) }
              (u >>> (sh + 1)) (ctzll (u >>> (sh + 1))) (i + (ctzll (u >>> (sh + 1)) + 1))
            refine ⟨w, hw, fun m hne => ?_⟩
            have hm : m < 64 := by
              by_contra hge
              rw [BitVec.getLsbD_of_ge _ _ (Nat.le_of_not_lt hge), BitVec.getLsbD_of_ge _ _ (Nat.le_of_not_lt hge)] at hne
              exact hne rfl
            have hun := getLsbD_unmark t.used i hm
            by_cases hmi : m = i
            · subst hmi
              -- 添字 `i` のビットは消えたままなので、違いがあれば元のビットは立っていた。
              have hw0 : w.getLsbD m = false := by
                by_contra hw1
                obtain ⟨h₁, _⟩ := hc m (by rw [hun]; simpa using hw1)
                rw [hun] at h₁
                simp at h₁
              rw [hw0] at hne
              exact ⟨by simpa using hne.symm, Nat.le_refl _, hi, hv⟩
            · rw [decide_eq_false hmi, Bool.not_false, Bool.and_true] at hun
              obtain ⟨h₁, h₂, h₃⟩ := hc m (by rw [hun]; exact hne)
              exact ⟨hun ▸ h₁, by omega, h₃⟩
      · exact ⟨t.used, rfl, fun _ hne => absurd rfl hne⟩

/-! ## 反復子の先 -/

/-- 葉 `x` の添字 `p` 以後の場所か、葉の並び `W` の場所である。 -/
def Ahead (x : Addr) (p : Nat) (W : List Addr) (c : Cell) : Prop := (c.t = x ∧ p ≤ c.i) ∨ c.t ∈ W

theorem mem_hitsAt (hc : c ∈ hitsAt h x p) : c.t = x ∧ p ≤ c.i ∧ c.i < (h.get x).n ∧
    (h.get x).used.getLsbD c.i = true ∧ (h.load c).nilP = false := by
  obtain ⟨i, hi, rfl⟩ := List.mem_map.mp hc
  obtain ⟨h₁, h₂, h₃, h₄⟩ := Node.mem_hits.mp hi
  exact ⟨rfl, h₁, h₂, h₃, h₄⟩

theorem ahead_of_mem (hc : c ∈ hitsAt h x p ++ hitsOn h W) : Ahead x p W c := by
  rcases List.mem_append.mp hc with hc | hc
  · obtain ⟨h₁, h₂, _⟩ := mem_hitsAt hc
    exact Or.inl ⟨h₁, h₂⟩
  · obtain ⟨y, hy, hc⟩ := List.mem_flatMap.mp hc
    obtain ⟨h₁, _⟩ := mem_hitsAt hc
    exact Or.inr (h₁ ▸ hy)

theorem hit_of_mem (hc : c ∈ hitsAt h x p ++ hitsOn h W) : c.i < (h.get c.t).n ∧
    (h.get c.t).used.getLsbD c.i = true ∧ (h.load c).nilP = false := by
  rcases List.mem_append.mp hc with hc | hc
  · obtain ⟨rfl, _, h₃⟩ := mem_hitsAt hc
    exact h₃
  · obtain ⟨y, _, hc⟩ := List.mem_flatMap.mp hc
    obtain ⟨rfl, _, h₃⟩ := mem_hitsAt hc
    exact h₃

/-- 反復子が場所 `c` の次まで進むと、その先の場所は、元の反復子の先の場所である。 -/
theorem Ahead.of_next (hc : Ahead x p W c) (hs : (c.t :: W') <:+ (x :: W)) (hc' : Ahead c.t (c.i + 1) W' c') :
    Ahead x p W c' := by
  have hsub : ∀ y ∈ W', y ∈ W := by
    rcases List.suffix_cons_iff.mp hs with he | hs
    · rw [(List.cons.inj he).2]; exact fun y hy => hy
    · exact fun y hy => hs.subset (List.mem_cons_of_mem _ hy)
  rcases hc' with ⟨ht, hi⟩ | hm
  · rcases hc with ⟨hx, hp⟩ | hm
    · exact Or.inl ⟨ht.trans hx, by omega⟩
    · exact Or.inr (ht ▸ hm)
  · exact Or.inr (hsub _ hm)

/-- 先の場所でない場所への書き込みは、反復が返す場所を変えない。 -/
theorem hits_store (hc : ¬ Ahead x p W c) :
    hitsAt (h.store c v) x p ++ hitsOn (h.store c v) W = hitsAt h x p ++ hitsOn h W := by
  have hW : hitsOn (h.store c v) W = hitsOn h W := by
    refine List.flatMap_congr (fun y hy => ?_)
    have hne : y ≠ c.t := by rintro rfl; exact hc (Or.inr hy)
    rw [hitsAt, hitsAt, Heap.get_store_ne hne]
  rw [hW]
  congr 1
  by_cases hx : x = c.t
  · subst hx
    have hi : c.i < p := by
      by_contra hge
      exact hc (Or.inl ⟨rfl, by omega⟩)
    by_cases hlt : c.t < h.size
    · rw [hitsAt, hitsAt, Heap.get_store_eq hlt]
      refine congrArg _ (List.filter_congr (fun j hj => ?_))
      have hj := (List.mem_range'_1.mp hj).1
      simp only [Node.value]
      rw [Arr.get_set_ne _ _ (show c.i ≠ j by omega)]
    · rw [Heap.store, Heap.modify, Heap.set_of_le _ (Nat.le_of_not_lt hlt)]
  · rw [hitsAt, hitsAt, Heap.get_store_ne hx]

theorem marked_store (hb : (h.get c.t).used.getLsbD c.i = true) (hm : (h.get x).Marked) :
    ((h.store c v).get x).Marked := by
  by_cases hx : x = c.t
  · subst hx
    by_cases hlt : c.t < h.size
    · rw [Heap.get_store_eq hlt]
      intro i hi hv
      by_cases he : c.i = i
      · exact he ▸ hb
      · simp only [Node.value] at hv
        rw [Arr.get_set_ne _ _ he] at hv
        exact hm i hi hv
    · rw [Heap.store, Heap.modify, Heap.set_of_le _ (Nat.le_of_not_lt hlt)]; exact hm
  · rw [Heap.get_store_ne hx]; exact hm

theorem used_store (h : Heap K Q) (c : Cell) (v : BtreeVal Q) (x : Addr) :
    ((h.store c v).get x).used = (h.get x).used := by
  by_cases hx : x = c.t
  · subst hx
    by_cases hlt : c.t < h.size
    · rw [Heap.get_store_eq hlt]
    · rw [Heap.store, Heap.modify, Heap.set_of_le _ (Nat.le_of_not_lt hlt)]
  · rw [Heap.get_store_ne hx]

/-! ## 一回の呼び出し -/

theorem btreeIterNext_leaf (ht : it.t = some x) (hi : it.i = p) (hl : (h.get x).innerp = false) :
    btreeIterNext h it = iterFrom h.size h it x p := by
  simp only [btreeIterNext, ht, hi, iterBottom_leaf hl]

/-- 葉の並びをたどる繰り返しは、先の場所のビットしか消さない。 -/
theorem iterFrom_unmarks (it : BtreeIter K) : ∀ (W : List Addr) (fuel : Nat) (h : Heap K Q) (x : Addr) (p : Nat),
    Path (fun x => (h.get x).next) (some x) (x :: W) none → W.length < fuel →
    h.UnmarksAt (Ahead x p W) (iterFrom fuel h it x p).1
  | _, 0, _, _, _, _, hf => absurd hf (Nat.not_lt_zero _)
  | W, fuel + 1, h, x, p, hp, hf => by
      obtain ⟨u, hu, hcl⟩ := Node.iterLoop_clears 64 (h.get x) ((h.get x).used >>> p) (ctzll ((h.get x).used >>> p))
        (p + ctzll ((h.get x).used >>> p))
      replace hu : ((h.get x).iterLeaf p).1 = { h.get x with used := u } := hu
      have U : h.UnmarksAt (Ahead x p W) (h.set x ((h.get x).iterLeaf p).1) := by
        refine .set hu (fun m hne => ?_)
        obtain ⟨h₁, h₂, h₃⟩ := hcl m hne
        exact ⟨h₁, Or.inl ⟨rfl, by simp only; omega⟩, h₃⟩
      simp only [iterFrom, Node.iterLeaf_next]
      cases ((h.get x).iterLeaf p).2 with
      | some j => exact U
      | none =>
          cases W with
          | nil =>
              have hnone : (h.get x).next = none := hp.2
              rw [hnone]
              exact U
          | cons y W =>
              obtain ⟨hsome, hp'⟩ := iterLeaf_path p hp
              rw [hsome]
              refine U.trans ((iterFrom_unmarks it W fuel _ y 0 hp' (by simpa using hf)).mono (fun c hc => ?_))
              rcases hc with ⟨ht, _⟩ | hm
              · exact Or.inr (ht ▸ List.mem_cons_self)
              · exact Or.inr (List.mem_cons_of_mem _ hm)

/-- 偽を返した反復子は、どの葉も指さない。 -/
theorem iterFrom_ends (it : BtreeIter K) : ∀ (W : List Addr) (fuel : Nat) (h : Heap K Q) (x : Addr) (p : Nat),
    Path (fun x => (h.get x).next) (some x) (x :: W) none → W.length < fuel →
    (iterFrom fuel h it x p).2.2 = false → (iterFrom fuel h it x p).2.1.t = none
  | _, 0, _, _, _, _, hf, _ => absurd hf (Nat.not_lt_zero _)
  | W, fuel + 1, h, x, p, hp, hf, hfalse => by
      simp only [iterFrom, Node.iterLeaf_next] at hfalse ⊢
      cases hj : ((h.get x).iterLeaf p).2 with
      | some j =>
          rw [hj] at hfalse
          cases hfalse
      | none =>
          rw [hj] at hfalse
          cases W with
          | nil =>
              have hnone : (h.get x).next = none := hp.2
              rw [hnone]
          | cons y W =>
              obtain ⟨hsome, hp'⟩ := iterLeaf_path p hp
              rw [hsome] at hfalse ⊢
              exact iterFrom_ends it W fuel _ y 0 hp' (by simpa using hf) hfalse

/-! ## 実行 -/

/-- 葉の並びの節は、書き込みと `used` のほかは始めのままで、値が nil でない場所と、すでに返った場所のビットは立っている。
まだ返っていない場所の値は変わっていない。 -/
structure Touched (h₀ h : Heap K Q) (W : List Addr) (ys : List Cell) : Prop where
  same : h₀.Same h
  load : ∀ c, c ∉ ys → h.load c = h₀.load c
  marked : ∀ x ∈ W, (h.get x).Marked
  bits : ∀ c ∈ ys, c.t ∈ W ∧ (h.get c.t).used.getLsbD c.i = true

/-- 反復子は葉 `x` の添字 `p` にあり、そこから先に、まだ返っていない場所 `rest` がある。 -/
structure Stands (h : Heap K Q) (W : List Addr) (it : BtreeIter K) (ys rest : List Cell) (x : Addr) (p : Nat)
    (W' : List Addr) : Prop where
  next_eq : btreeIterNext h it = iterFrom h.size h it x p
  cursor : ys ≠ [] → it.t = some x ∧ it.i = p
  suffix : (x :: W') <:+ W
  behind : ∀ c ∈ ys, ¬ Ahead x p W' c
  rest_eq : hitsAt h x p ++ hitsOn h W' = rest

theorem Touched.store (T : Touched h₀ h W ys) (C : LeafChain h₀ a W) (hc : c ∈ ys) : Touched h₀ (h.store c v) W ys := by
  obtain ⟨hcW, hb⟩ := T.bits c hc
  have hl : (h.get c.t).innerp = false := by rw [(T.same.shape c.t).innerp]; exact C.leaf _ hcW
  refine ⟨T.same.trans (.store hl), fun c' hc' => ?_, fun x hx => marked_store hb (T.marked x hx), fun c' hc' => ?_⟩
  · have hne : c' ≠ c := by rintro rfl; exact hc' hc
    rw [load_store_ne hne]
    exact T.load c' hc'
  · rw [used_store]
    exact T.bits c' hc'

theorem Touched.leaf (T : Touched h₀ h W ys) (C : LeafChain h₀ a W) (hx : x ∈ W) : (h.get x).innerp = false := by
  rw [(T.same.shape x).innerp]; exact C.leaf x hx

theorem Touched.n_le (T : Touched h₀ h W ys) (C : LeafChain h₀ a W) (hx : x ∈ W) : (h.get x).n ≤ 63 := by
  rw [(T.same.shape x).n]; exact C.n_le x hx

theorem LeafChain.nodup (C : LeafChain h₀ a W) : W.Nodup := C.path.nodup

theorem LeafChain.length_le (C : LeafChain h₀ a W) : W.length ≤ h₀.size := by
  have hsub : W ⊆ List.range h₀.size := fun x hx => List.mem_range.mpr (C.lt x hx)
  simpa using (List.subperm_of_subset C.nodup hsub).length_le

/-- 反復子の位置から先の並びは、終わりまでつながっている。 -/
theorem Stands.path (S : Stands h W it ys rest x p W') (T : Touched h₀ h W ys) (C : LeafChain h₀ a W) :
    Path (fun x => (h.get x).next) (some x) (x :: W') none ∧ W'.length < h.size := by
  obtain ⟨A, rfl⟩ := S.suffix
  have hlen := C.length_le
  simp only [List.length_append, List.length_cons] at hlen
  obtain ⟨m, _, hm⟩ := Path.append.mp C.path
  obtain rfl : m = some x := hm.1
  exact ⟨hm.congr (fun y _ => T.same.next y), by rw [T.same.size]; omega⟩

theorem Stands.store (S : Stands h W it ys rest x p W') (T : Touched h₀ h W ys) (C : LeafChain h₀ a W) (hc : c ∈ ys) :
    Stands (h.store c v) W it ys rest x p W' := by
  have hne : ys ≠ [] := List.ne_nil_of_mem hc
  obtain ⟨ht, hi⟩ := S.cursor hne
  have hl := (T.store (v := v) C hc).leaf C (S.suffix.subset List.mem_cons_self)
  refine ⟨?_, S.cursor, S.suffix, S.behind, ?_⟩
  · exact btreeIterNext_leaf ht hi hl
  · rw [hits_store (S.behind c hc)]
    exact S.rest_eq

/-- 呼び出しで値の書き換わることはない。 -/
theorem Touched.next (T : Touched h₀ h W ys) (U : h.UnmarksAt P h') (M : h.UsedOnly h') (hP : ∀ c ∈ ys, ¬ P c) :
    Touched h₀ h' W ys := by
  refine ⟨T.same.trans M.same, fun c hc => ?_, fun x hx => U.marked (T.marked x hx), fun c hc => ?_⟩
  · rw [M.load_eq]; exact T.load c hc
  · rw [U.bit_eq (hP c hc)]; exact T.bits c hc

/-- 残りの場所があれば、次の呼び出しはその先頭を返す。 -/
theorem Stands.next_cons (S : Stands h W it ys (c :: cs) x p W') (T : Touched h₀ h W ys) (C : LeafChain h₀ a W) :
    (btreeIterNext h it).2.2 = true ∧
    (btreeIterNext h it).2.1 = ⟨some c.t, c.i + 1, (h.get c.t).key.get c.i, some c⟩ ∧
    Touched h₀ (btreeIterNext h it).1 W (ys ++ [c]) ∧
    ∃ W'', Stands (btreeIterNext h it).1 W (btreeIterNext h it).2.1 (ys ++ [c]) cs c.t (c.i + 1) W'' := by
  obtain ⟨hp, hlen⟩ := S.path T C
  have hn : ∀ y ∈ x :: W', (h.get y).n ≤ 63 := fun y hy => T.n_le C (S.suffix.subset hy)
  have U := iterFrom_unmarks it W' h.size h x p hp hlen
  obtain ⟨M, _, hcons⟩ := iterFrom_spec it W' h.size h x p hp hlen hn
  obtain ⟨h₁, h₂, W'', hsuf, hp'', hcs⟩ := hcons c cs S.rest_eq
  have hmem : c ∈ hitsAt h x p ++ hitsOn h W' := by rw [S.rest_eq]; exact List.mem_cons_self
  have hcW : c.t ∈ W := (hsuf.trans S.suffix).subset List.mem_cons_self
  rw [← S.next_eq] at U M h₁ h₂
  have hbehind : ∀ c' ∈ ys ++ [c], ¬ Ahead c.t (c.i + 1) W'' c' := by
    intro c' hc' ha
    rcases List.mem_append.mp hc' with hc' | hc'
    · exact S.behind c' hc' ((ahead_of_mem hmem).of_next hsuf ha)
    · obtain rfl := List.mem_singleton.mp hc'
      rcases ha with ⟨_, hi⟩ | hm
      · omega
      · exact (List.nodup_cons.mp hp''.nodup).1 hm
  have T' := T.next U M S.behind
  refine ⟨h₁, h₂, ⟨T'.same, fun c' hc' => T'.load c' (fun hm => hc' (List.mem_append_left _ hm)), T'.marked,
    fun c' hc' => ?_⟩, W'', ?_, fun _ => by rw [h₂]; exact ⟨rfl, rfl⟩, hsuf.trans S.suffix, hbehind, ?_⟩
  · rcases List.mem_append.mp hc' with hc' | hc'
    · exact T'.bits c' hc'
    · obtain rfl := List.mem_singleton.mp hc'
      obtain ⟨hi, hb, hv⟩ := hit_of_mem hmem
      have hi64 := T.n_le C hcW
      exact ⟨hcW, by rw [M.marks c'.t c'.i (by omega) hv]; exact hb⟩
  · have hl : ((btreeIterNext h it).1.get c.t).innerp = false := by
      rw [(M.same.shape c.t).innerp]; exact T.leaf C hcW
    exact btreeIterNext_leaf (by rw [h₂]) (by rw [h₂]) hl
  · rw [M.hitsAt_eq (T.n_le C hcW),
      M.hitsOn_eq (fun y hy => T.n_le C ((hsuf.trans S.suffix).subset (List.mem_cons_of_mem _ hy))), hcs]

/-- 残りの場所がなければ、次の呼び出しは偽を返し、反復子はどの葉も指さなくなる。 -/
theorem Stands.next_nil (S : Stands h W it ys [] x p W') (T : Touched h₀ h W ys) (C : LeafChain h₀ a W) :
    (btreeIterNext h it).2.2 = false ∧ (btreeIterNext h it).2.1.t = none ∧ Touched h₀ (btreeIterNext h it).1 W ys := by
  obtain ⟨hp, hlen⟩ := S.path T C
  have hn : ∀ y ∈ x :: W', (h.get y).n ≤ 63 := fun y hy => T.n_le C (S.suffix.subset hy)
  have U := iterFrom_unmarks it W' h.size h x p hp hlen
  obtain ⟨M, hnil, _⟩ := iterFrom_spec it W' h.size h x p hp hlen hn
  have hfalse := hnil S.rest_eq
  have hend := iterFrom_ends it W' h.size h x p hp hlen hfalse
  rw [← S.next_eq] at U M hfalse hend
  exact ⟨hfalse, hend, T.next U M S.behind⟩

theorem Stands.unmarks (S : Stands h W it ys rest x p W') (T : Touched h₀ h W ys) (C : LeafChain h₀ a W) :
    h.Unmarks (btreeIterNext h it).1 := by
  obtain ⟨hp, hlen⟩ := S.path T C
  rw [S.next_eq]
  exact (iterFrom_unmarks it W' h.size h x p hp hlen).unmarks

theorem btreeIterNext_ended (ht : it.t = none) : btreeIterNext h it = (h, { it with v := none }, false) := by
  simp only [btreeIterNext, ht]

theorem hitsOn_eq_liveOn (hm : ∀ x ∈ W, (h.get x).Marked) : hitsOn h W = liveOn h W := by
  refine List.flatMap_congr (fun x hx => ?_)
  rw [hitsAt_zero]
  refine congrArg _ (List.filter_congr (fun i hi => ?_))
  rw [Node.markedAt]
  cases hv : ((h.get x).value i).nilP with
  | true => simp
  | false => simp [hm x hx i (List.mem_range.mp hi) hv]

/-- 作りたての反復子は、左端の葉の先頭にある。 -/
theorem LeafChain.stands (C : LeafChain h₀ a W) (hm : ∀ x ∈ W, (h₀.get x).Marked) :
    ∃ x p W', Stands h₀ W (.fresh a) [] (liveOn h₀ W) x p W' := by
  have hpath := C.path
  cases W with
  | nil => cases hpath
  | cons x W =>
      have hx : bottom h₀ h₀.size a = x := Option.some.inj hpath.1
      refine ⟨x, 0, W, ?_, fun hne => absurd rfl hne, List.suffix_refl _, fun c hc => (by cases hc), ?_⟩
      · simp only [btreeIterNext, BtreeIter.fresh, iterBottom_eq, hx]
      · rw [← hitsOn_eq_liveOn hm, hitsOn, hitsOn, List.flatMap_cons]

/-- どの段でも、返った場所と残りの場所を合わせると、始めの値が nil でない場所になる。 -/
theorem LeafChain.iterRun (C : LeafChain h₀ a W) (hm : ∀ x ∈ W, (h₀.get x).Marked) (R : IterRun h₀ a m h it ys) :
    ∃ rest, liveOn h₀ W = ys ++ rest ∧ Touched h₀ h W ys ∧
      ((ys.length = m ∧ ∃ x p W', Stands h W it ys rest x p W') ∨ (ys.length ≤ m ∧ rest = [] ∧ it.t = none)) := by
  induction R with
  | fresh =>
      exact ⟨liveOn h₀ W, rfl, ⟨.refl h₀, fun _ _ => rfl, hm, fun c hc => (by cases hc)⟩, Or.inl ⟨rfl, C.stands hm⟩⟩
  | @next m h it ys _ ih =>
      obtain ⟨rest, hall, T, ⟨hlen, x, p, W', S⟩ | ⟨hlen, rfl, ht⟩⟩ := ih
      · cases rest with
        | nil =>
            obtain ⟨h₁, h₂, T'⟩ := S.next_nil T C
            rw [h₁, if_neg (by decide), List.append_nil]
            exact ⟨[], hall, T', Or.inr ⟨by omega, rfl, h₂⟩⟩
        | cons c cs =>
            obtain ⟨h₁, h₂, T', W'', S'⟩ := S.next_cons T C
            have hv : ys ++ (if (btreeIterNext h it).2.2 = true then (btreeIterNext h it).2.1.v.toList else []) =
                ys ++ [c] := by rw [h₁, if_pos rfl, h₂]; rfl
            rw [hv]
            exact ⟨cs, by rw [hall, List.append_assoc]; rfl, T', Or.inl ⟨by simp [hlen], _, _, _, S'⟩⟩
      · rw [btreeIterNext_ended ht, if_neg Bool.false_ne_true, List.append_nil]
        exact ⟨[], hall, T, Or.inr ⟨by omega, rfl, ht⟩⟩
  | @store m h it ys c v _ hc ih =>
      obtain ⟨rest, hall, T, ⟨hlen, x, p, W', S⟩ | ⟨hlen, hr, ht⟩⟩ := ih
      · exact ⟨rest, hall, T.store C hc, Or.inl ⟨hlen, x, p, W', S.store T C hc⟩⟩
      · exact ⟨rest, hall, T.store C hc, Or.inr ⟨hlen, hr, ht⟩⟩

/-! ## 返る場所 -/

/-- 呼び出しを `m` 回行った時点で、返った場所は、始めの値が nil でない場所の初めの `m` 個である。次の呼び出しは、
残りがあれば真と次の場所を返し、なければ偽を返す。どちらのときも、値が nil の場所のビットを消すだけである。 -/
structure IterExact (h₀ : Heap K Q) (W : List Addr) (m : Nat) (h : Heap K Q) (it : BtreeIter K) (ys : List Cell) :
    Prop where
  yielded : ys = (liveOn h₀ W).take m
  nodup : ys.Nodup
  unreached : ∀ c, c ∉ ys → h.load c = h₀.load c
  marked : ∀ x ∈ W, (h.get x).Marked
  unmarks : h.Unmarks (btreeIterNext h it).1
  returns : (btreeIterNext h it).2.2 = decide (m < (liveOn h₀ W).length)
  yields : ∀ c, (liveOn h₀ W)[m]? = some c → (btreeIterNext h it).2.1.v = some c ∧
    (btreeIterNext h it).2.1.k = (h.get c.t).key.get c.i ∧ (h.load c).nilP = false

theorem liveOn_nodup (hW : W.Nodup) : (liveOn h W).Nodup := by
  rw [liveOn, List.nodup_flatMap]
  refine ⟨fun x _ => ?_, hW.imp (fun {x y} hxy => ?_)⟩
  · exact (List.nodup_range.filter _).map (fun i j he => (Cell.mk.inj he).2)
  · intro c hc hc'
    obtain ⟨i, _, rfl⟩ := List.mem_map.mp hc
    obtain ⟨j, _, he⟩ := List.mem_map.mp hc'
    exact hxy (Cell.mk.inj he).1.symm

/-- 反復の途中に書き込みがあっても、どの段でも、次に返る場所は決まっている。 -/
theorem LeafChain.iterExact (C : LeafChain h₀ a W) (hm : ∀ x ∈ W, (h₀.get x).Marked) (R : IterRun h₀ a m h it ys) :
    IterExact h₀ W m h it ys := by
  obtain ⟨rest, hall, T, hpos⟩ := C.iterRun hm R
  have hnd := liveOn_nodup (h := h₀) C.nodup
  have hys : ys.Nodup := by rw [hall] at hnd; exact (List.nodup_append.mp hnd).1
  rcases hpos with ⟨rfl, x, p, W', S⟩ | ⟨hlen, rfl, ht⟩
  · refine ⟨by rw [hall, List.take_left], hys, T.load, T.marked, S.unmarks T C, ?_, fun c hc => ?_⟩
    · cases rest with
      | nil => rw [(S.next_nil T C).1, hall]; simp
      | cons c cs => rw [(S.next_cons T C).1, hall]; simp
    · rw [hall, List.getElem?_append_right (Nat.le_refl _), Nat.sub_self] at hc
      cases rest with
      | nil => cases hc
      | cons c' cs =>
          cases hc
          obtain ⟨_, h₂, _⟩ := S.next_cons T C
          have hmem : c ∈ hitsAt h x p ++ hitsOn h W' := by rw [S.rest_eq]; exact List.mem_cons_self
          rw [h₂]
          exact ⟨rfl, rfl, (hit_of_mem hmem).2.2⟩
  · rw [List.append_nil] at hall
    refine ⟨by rw [hall, List.take_of_length_le hlen], hys, T.load, T.marked, ?_, ?_, fun c hc => ?_⟩
    · rw [btreeIterNext_ended ht]; exact (Heap.UnmarksAt.refl (fun _ => True) h).unmarks
    · rw [btreeIterNext_ended ht, hall]; simpa using hlen
    · rw [hall, List.getElem?_eq_none hlen] at hc; cases hc

end Books.Btree
