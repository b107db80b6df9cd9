import Books.Btree.Lemmas.MarksRun

/-!
# 走査で得られるキーと値

葉の順に並べた場所から、`btree_iter_next` と `btree_top` が返すものを、`btree_get` で見つかる値の言葉で述べる。
`btree_put` の前後で見つかる値も、ここで比べる。
-/

set_option linter.unusedSectionVars false

namespace Books.Btree

open Books.Lib

variable {K Q : Type} [LinearOrder K] [LinearOrder Q] [Zero Q]
variable {descp : Bool} {h : Heap K Q} {lo hi : Option K} {d cap : Nat} {a : Addr} {k : K} {v : BtreeVal Q} {c : Cell}

/-- 葉の順に並べた、値が nil でない場所。 -/
def liveCells (h : Heap K Q) : List Cell := (leaves h).flatMap (cellsBy Node.liveAt h)

theorem Inv.mem_cells (I : Inv h descp d) {P : Node K Q → Nat → Bool} :
    c ∈ (leaves h).flatMap (cellsBy P h) ↔ (∃ k, CellAt h d root k c) ∧ P (h.get c.t) c.i = true := by
  rw [show leaves h = (blocks h d root).flatten from I.sub.leavesOf_eq I.depth, List.mem_flatMap]
  constructor
  · rintro ⟨x, hx, hc⟩
    obtain ⟨hm, hl⟩ := I.sub.mem_blocks.mp hx
    obtain ⟨rfl, _, hP⟩ := mem_cellsBy.mp hc
    exact ⟨I.sub.cellsBy_at hm hl hc, hP⟩
  · rintro ⟨⟨k, hc⟩, hP⟩
    exact ⟨c.t, I.sub.mem_blocks.mpr ⟨hc.mem, hc.leaf⟩, mem_cellsBy.mpr ⟨rfl, hc.lt, hP⟩⟩

theorem Inv.mem_liveCells (I : Inv h descp d) :
    c ∈ liveCells h ↔ (∃ k, CellAt h d root k c) ∧ (h.load c).nilP = false := by
  rw [liveCells, I.mem_cells, Node.liveAt, Bool.not_eq_true', Heap.load]

theorem Inv.liveCells_sorted (I : Inv h descp d) : (liveCells h).Pairwise (CellBefore h descp) := by
  rw [liveCells, show leaves h = (blocks h d root).flatten from I.sub.leavesOf_eq I.depth]
  exact I.sub.cellsBy_sorted _

/-- 値が nil でないキーは、葉の順に並べた場所のどれかにある。 -/
theorem Inv.find_cell (I : Inv h descp d) (hv : v.nilP = false) :
    find h k = v ↔ ∃ c ∈ liveCells h, (h.get c.t).key.get c.i = some k ∧ h.load c = v := by
  rw [I.sub.find_iff I.depth hv, I.sub.has_iff_cell]
  constructor
  · rintro ⟨c, hc, rfl⟩
    exact ⟨c, I.mem_liveCells.mpr ⟨⟨k, hc⟩, hv⟩, hc.key, rfl⟩
  · rintro ⟨c, hc, hk, rfl⟩
    obtain ⟨⟨y, hy⟩, _⟩ := I.mem_liveCells.mp hc
    have he := hy.key
    rw [hk] at he
    cases he
    exact ⟨c, hy, rfl⟩

/-! ## 反復 -/

/-- 葉の順に並べた場所には、キーがある。 -/
theorem Inv.exists_entries (I : Inv h descp d) : ∀ cs : List Cell, (∀ c ∈ cs, c ∈ liveCells h) →
    ∃ l : List (K × BtreeVal Q), (l.map fun e => (some e.1, e.2)) = cs.map (entry h)
  | [], _ => ⟨[], rfl⟩
  | c :: cs, hcs => by
      obtain ⟨l, hl⟩ := I.exists_entries cs (fun c' hc' => hcs c' (List.mem_cons_of_mem c hc'))
      obtain ⟨⟨k, hk⟩, _⟩ := I.mem_liveCells.mp (hcs c List.mem_cons_self)
      refine ⟨(k, h.load c) :: l, ?_⟩
      rw [List.map_cons, List.map_cons, hl, entry, hk.key]

theorem Inv.iterYields (I : Inv h descp d) (L : Linked h d) (M : Marked h d root) : IterYields h descp := by
  obtain ⟨m, hm⟩ := I.iterAll_eq L
  rw [I.markedAt_eq M] at hm
  obtain ⟨l, hl⟩ := I.exists_entries (liveCells h) (fun _ hc => hc)
  refine ⟨m, l, by rw [hm, hl]; rfl, ?_, fun k v => ?_, ?_⟩
  · have hp : ((liveCells h).map (entry h)).Pairwise
        (fun e e' => ∀ y y', e.1 = some y → e'.1 = some y' → Before descp y y') :=
      List.pairwise_map.mpr I.liveCells_sorted
    rw [← hl, List.pairwise_map] at hp
    exact hp.imp (fun hb => hb _ _ rfl rfl)
  · have hmem : (k, v) ∈ l ↔ (some k, v) ∈ (liveCells h).map (entry h) := by
      rw [← hl, List.mem_map]
      constructor
      · exact fun hkv => ⟨(k, v), hkv, rfl⟩
      · rintro ⟨⟨k', v'⟩, hkv, he⟩
        cases he
        exact hkv
    rw [hmem, List.mem_map]
    constructor
    · rintro ⟨c, hc, he⟩
      simp only [entry, Prod.mk.injEq] at he
      have hv : v.nilP = false := by rw [← he.2]; exact (I.mem_liveCells.mp hc).2
      exact ⟨(I.find_cell hv).mpr ⟨c, hc, he⟩, hv⟩
    · rintro ⟨hf, hv⟩
      obtain ⟨c, hc, hk, he⟩ := (I.find_cell hv).mp hf
      exact ⟨c, hc, by rw [entry, hk, he]⟩
  · rw [I.btreeTop_eq L, ← List.head?_map, hl, List.head?_map, Option.map_map]
    rfl

/-- 反復の結果は、回数の上限によらない。 -/
theorem iterAll_mono : ∀ (m m' : Nat) (h : Heap K Q) (it : BtreeIter K) (l : List (Option K × BtreeVal Q)), m ≤ m' →
    iterAll m h it = some l → iterAll m' h it = some l
  | 0, _, _, _, _, _, hl => by cases hl
  | m + 1, 0, _, _, _, hm, _ => absurd hm (Nat.not_succ_le_zero m)
  | m + 1, m' + 1, h, it, l, hm, hl => by
      simp only [iterAll] at hl ⊢
      split at hl
      · rename_i hr
        rw [if_pos hr]
        obtain ⟨l', hl', rfl⟩ := Option.map_eq_some_iff.mp hl
        rw [iterAll_mono m m' _ _ l' (Nat.le_of_succ_le_succ hm) hl']
        rfl
      · rename_i hr
        rw [if_neg hr]; exact hl

theorem iterAll_unique {m m' : Nat} {it : BtreeIter K} {l l' : List (Option K × BtreeVal Q)}
    (hl : iterAll m h it = some l) (hl' : iterAll m' h it = some l') : l = l' := by
  have h₁ := iterAll_mono m (max m m') h it l (Nat.le_max_left _ _) hl
  rw [iterAll_mono m' (max m m') h it l' (Nat.le_max_right _ _) hl'] at h₁
  exact (Option.some.inj h₁).symm

theorem Inv.iterReaches_iff (I : Inv h descp d) (L : Linked h d) : IterReaches h ↔ UsedCovers h := by
  obtain ⟨m, hm⟩ := I.iterAll_eq L
  have hcell : ∀ k c, btreeGet h root (some k) = some c ↔ CellAt h d root k c :=
    fun k c => I.sub.btreeGet_iff (Nat.le_refl _) I.depth
  have hfind : ∀ k c, CellAt h d root k c → (h.load c).nilP = false → find h k = h.load c :=
    fun k c hc hv => (I.sub.find_iff I.depth hv).mpr (I.sub.has_iff_cell.mpr ⟨c, hc, rfl⟩)
  constructor
  · rintro ⟨m', l, hl, hall⟩ k c hg hv
    have hc := (hcell k c).mp hg
    have he := iterAll_unique hl hm
    have hk := hall k (by rw [hfind k c hc hv]; exact hv)
    rw [he, List.mem_map] at hk
    obtain ⟨c', hc', hce⟩ := hk
    obtain ⟨⟨y, hy⟩, hb⟩ := I.mem_cells.mp hc'
    have hyk := hy.key
    rw [(Prod.mk.inj hce).1] at hyk
    cases hyk
    rw [I.sub.cell_unique (Nat.le_refl _) hc hy]
    exact (Bool.and_eq_true_iff.mp hb).1
  · intro hu
    refine ⟨m, _, hm, fun k hv => ?_⟩
    obtain ⟨c, hc, hk, he⟩ := (I.find_cell hv).mp rfl
    obtain ⟨⟨y, hy⟩, hcv⟩ := I.mem_liveCells.mp hc
    have hyk := hy.key
    rw [hk] at hyk
    cases hyk
    refine List.mem_map.mpr ⟨c, I.mem_cells.mpr ⟨⟨k, hy⟩, ?_⟩, by rw [entry, hk, he]⟩
    rw [Node.markedAt, hu k c ((hcell k c).mpr hy) hcv, Bool.true_and, Bool.not_eq_true']
    exact hcv

theorem Inv.usedCovers (I : Inv h descp d) (M : Marked h d root) : UsedCovers h := by
  intro k c hg hv
  have hc := (I.sub.btreeGet_iff (Nat.le_refl _) I.depth).mp hg
  exact M c.t hc.mem hc.leaf c.i hc.lt hv

/-! ## `btree_top` -/

theorem Inv.topReaches (I : Inv h descp d) (L : Linked h d) : TopReaches h descp := by
  have hsort := I.liveCells_sorted
  have hfind := fun k v hv => (I.find_cell (k := k) (v := v) hv).mp
  have hmem := fun c => I.mem_liveCells (c := c)
  have htop : btreeTop h root = ((liveCells h).head?).map fun c => ((h.get c.t).key.get c.i, c) := I.btreeTop_eq L
  unfold TopReaches
  rw [htop]
  cases hcs : liveCells h with
  | nil =>
      intro k
      refine find_eq_nil_iff.mpr (fun v hv he => ?_)
      obtain ⟨c, hc, _⟩ := hfind k v hv he
      rw [hcs] at hc
      cases hc
  | cons c cs =>
      rw [hcs] at hsort
      obtain ⟨⟨k, hk⟩, hv⟩ := (hmem c).mp (by rw [hcs]; exact List.mem_cons_self)
      refine ⟨k, hk.key, (I.find_cell hv).mpr ⟨c, by rw [hcs]; exact List.mem_cons_self, hk.key, rfl⟩, hv, ?_⟩
      intro k' hb
      refine find_eq_nil_iff.mpr (fun v hv he => ?_)
      obtain ⟨c', hc', hk', _⟩ := hfind k' v hv he
      rw [hcs] at hc'
      rcases List.mem_cons.mp hc' with rfl | hc'
      · rw [hk.key] at hk'
        cases hk'
        exact Before.irrefl _ hb
      · exact hb.asymm ((List.pairwise_cons.mp hsort).1 c' hc' k k' hk.key hk')

/-! ## 追加した値の検索 -/

theorem nilP_eq_false (hv : 0 < v.q) : v.nilP = false := by
  simpa [BtreeVal.nilP] using hv

/-- 葉にキー `k` の値の場所があれば、探索はそこで止まる。 -/
theorem Sub.cell_leafAt : ∀ {d cap : Nat} {a : Addr} {lo hi : Option K}, cap ≤ 63 → Sub h descp d cap a lo hi →
    CellAt h d a k c → c.t = leafAt h d a (some k) ∧ c.i = (h.get c.t).seek (some k)
  | 0, _, a, _, _, hcap, hs, hc => by
      obtain ⟨t, i⟩ := c
      obtain rfl : t = a := hc.mem
      exact ⟨rfl, (hs.2.seek_of_key hcap hc.lt hc.key).symm⟩
  | d + 1, _, a, _, _, hcap, hs, hc => by
      rw [hs.leafAt_succ]
      exact Sub.cell_leafAt (by omega) (hs.2.1.kids _ (Node.seek_le _ _)) ((hs.cell_route hcap).mp hc)

/-- 場所を失う追加では、キーは木にない。 -/
theorem Inv.not_has_of_loses (I : Inv h descp d) (hl : losesCell h (some k) = true) : ¬ Has h d root k v := by
  intro hk
  obtain ⟨c, hc, _⟩ := I.sub.has_iff_cell.mp hk
  obtain ⟨h₁, h₂⟩ := I.sub.cell_leafAt (Nat.le_refl _) hc
  have hkey := hc.key
  rw [h₂] at hkey
  simp only [losesCell, Node.loses, Node.overflows, Bool.and_eq_true, Bool.not_eq_true'] at hl
  rw [I.sub.leafAt_eq (Nat.le_of_lt I.depth), ← h₁, hkey] at hl
  simp [keyEq] at hl

/-- キーのない添字への書き込みは、組を変えない。 -/
theorem Sub.has_store_out (hs : Sub h descp d cap a lo hi) (hl : (h.get c.t).innerp = false)
    (hle : (h.get c.t).n ≤ c.i) {w : BtreeVal Q} : Has (h.store c v) d a k w ↔ Has h d a k w := by
  rw [(hs.store hl).has_iff_cell, hs.has_iff_cell]
  have hcell : ∀ c', CellAt (h.store c v) d a k c' ↔ CellAt h d a k c' :=
    fun c' => hs.cell_frame (fun z _ => sameShape_store hl z)
  have hne : ∀ c', CellAt h d a k c' → c' ≠ c := by
    rintro c' hc' rfl
    exact absurd hc'.lt (by omega)
  constructor
  · rintro ⟨c', hc', hw⟩
    rw [hcell] at hc'
    rw [load_store_ne (hne c' hc')] at hw
    exact ⟨c', hc', hw⟩
  · rintro ⟨c', hc', hw⟩
    refine ⟨c', (hcell c').mpr hc', ?_⟩
    rw [load_store_ne (hne c' hc')]; exact hw

/-- 返した場所を失わない追加の後に、検索で見つかる値。 -/
theorem Inv.find_put {w : BtreeVal Q} (I : Inv h descp d) (hl : losesCell h (some k) = false) (hw : w.nilP = false)
    (y : K) : find (step h (.put k v)) y = w ↔ (y = k ∧ w = v) ∨ (y ≠ k ∧ find h y = w) := by
  obtain ⟨d', P⟩ := I.put k
  have I' : Inv (step h (.put k v)) descp d' := P.inv.same (.store P.leaf.2)
  have hstore : Has (step h (.put k v)) d' root y w ↔
      (y = k ∧ w = v) ∨ (y ≠ k ∧ Has (btreePut h root (some k)).1 d' root y w) :=
    P.inv.sub.has_store (Nat.le_refl _) (P.live hl)
  rw [I'.sub.find_iff I'.depth hw, hstore, P.has y w hw, I.sub.find_iff I.depth hw]

/-- 返した場所を失う追加では、書き込んだ値は見つからない。 -/
theorem Inv.find_put_lost (I : Inv h descp d) (hl : losesCell h (some k) = true) (hv : v.nilP = false) :
    find (step h (.put k v)) k ≠ v := by
  obtain ⟨d', P⟩ := I.put k
  have I' : Inv (step h (.put k v)) descp d' := P.inv.same (.store P.leaf.2)
  intro hk
  rw [I'.sub.find_iff I'.depth hv] at hk
  have hk' := (P.inv.sub.has_store_out P.leaf.2 (P.lost hl)).mp hk
  exact I.not_has_of_loses hl ((P.has k v hv).mp hk')

theorem Inv.find_put_ne {y : K} (I : Inv h descp d) (hl : losesCell h (some k) = false) (hy : y ≠ k) :
    find (step h (.put k v)) y = find h y := by
  cases hn : (find h y).nilP with
  | false => exact (I.find_put hl hn y).mpr (Or.inr ⟨hy, rfl⟩)
  | true =>
      have hnil : find h y = .nil := find_eq_nil_iff.mpr (fun w hw he => by rw [he, hw] at hn; cases hn)
      rw [hnil]
      refine find_eq_nil_iff.mpr (fun w hw he => ?_)
      rcases (I.find_put hl hw y).mp he with ⟨he', _⟩ | ⟨_, he'⟩
      · exact hy he'
      · rw [he', hw] at hn; cases hn

/-- 追加した値が見つかるのは、返した場所を失わないときである。 -/
theorem Inv.put_stores_iff (I : Inv h descp d) (hv : v.nilP = false) :
    PutStores h k v ↔ losesCell h (some k) = false := by
  constructor
  · rintro ⟨hk, _⟩
    by_contra hl
    exact I.find_put_lost (by simpa using hl) hv hk
  · intro hl
    exact ⟨(I.find_put hl hv k).mpr (Or.inl ⟨rfl, rfl⟩), fun k' hk' => I.find_put_ne hl hk'⟩

end Books.Btree
