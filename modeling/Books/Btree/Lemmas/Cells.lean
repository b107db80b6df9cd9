import Books.Btree.Lemmas.Shape

/-!
# 値の場所と検索

キー `k` の値の場所は、部分木の中に高々一つあり、`btree_get` はそれを見つける。
-/

set_option linter.unusedSectionVars false

namespace Books.Btree

open Books.Lib

variable {K Q : Type} [LinearOrder K] [LinearOrder Q] [Zero Q]
variable {descp : Bool} {h h' : Heap K Q} {lo hi : Option K} {d cap fuel : Nat} {a x : Addr} {k y : K}
  {v w : BtreeVal Q} {c c' : Cell}

/-- `c` は部分木の葉の中の場所で、そのキーは `k` である。 -/
structure CellAt (h : Heap K Q) (d : Nat) (a : Addr) (k : K) (c : Cell) : Prop where
  mem : Mem h d a c.t
  leaf : (h.get c.t).innerp = false
  lt : c.i < (h.get c.t).n
  key : (h.get c.t).key.get c.i = some k

theorem CellAt.kid {i : Nat} (hi' : i ≤ (h.get a).n) (hc : CellAt h d ((h.get a).kid i) k c) :
    CellAt h (d + 1) a k c :=
  { hc with mem := Mem.kid hi' hc.mem }

theorem Sub.cell_kid (hs : Sub h descp (d + 1) cap a lo hi) (hc : CellAt h (d + 1) a k c) :
    ∃ i, i ≤ (h.get a).n ∧ CellAt h d ((h.get a).kid i) k c := by
  rcases hc.mem with he | ⟨i, hi', hm⟩
  · have hl := hc.leaf
    rw [he, hs.2.1.innerp] at hl; cases hl
  · exact ⟨i, hi', { hc with mem := hm }⟩

theorem Sub.has_iff_cell : ∀ {d cap : Nat} {a : Addr} {lo hi : Option K}, Sub h descp d cap a lo hi →
    (Has h d a y v ↔ ∃ c, CellAt h d a y c ∧ h.load c = v)
  | 0, _, a, _, _, hs => by
      constructor
      · rintro ⟨j, hj, hy, hv⟩
        exact ⟨⟨a, j⟩, ⟨rfl, hs.2.innerp, hj, hy⟩, hv⟩
      · rintro ⟨⟨_, j⟩, ⟨hm, _, hj, hy⟩, hv⟩
        cases hm
        exact ⟨j, hj, hy, hv⟩
  | d + 1, _, a, _, _, hs => by
      constructor
      · rintro ⟨i, hi', hy⟩
        obtain ⟨c, hc, hv⟩ := (Sub.has_iff_cell (hs.2.1.kids i hi')).mp hy
        exact ⟨c, hc.kid hi', hv⟩
      · rintro ⟨c, hc, hv⟩
        obtain ⟨i, hi', hc⟩ := hs.cell_kid hc
        exact ⟨i, hi', (Sub.has_iff_cell (hs.2.1.kids i hi')).mpr ⟨c, hc, hv⟩⟩

theorem Sub.cell_bounds (hs : Sub h descp d cap a lo hi) (hc : CellAt h d a k c) :
    Above descp lo k ∧ Upto descp hi k :=
  hs.has_bounds (hs.has_iff_cell.mpr ⟨c, hc, rfl⟩)

theorem Sub.mem_n_le : ∀ {d cap : Nat} {a : Addr} {lo hi : Option K}, Sub h descp d cap a lo hi → cap ≤ 63 →
    Mem h d a x → (h.get x).n ≤ 63
  | 0, _, _, _, _, hs, hcap, hx => by cases hx; exact Nat.le_trans hs.2.n_le hcap
  | d + 1, _, _, _, _, hs, hcap, hx => by
      rcases hx with rfl | ⟨i, hi', hx⟩
      · exact Nat.le_trans hs.2.1.n_le hcap
      · exact (hs.2.1.kids i hi').mem_n_le (by omega) hx

theorem Sub.leaf_key : ∀ {d cap : Nat} {a : Addr} {lo hi : Option K}, Sub h descp d cap a lo hi → Mem h d a x →
    (h.get x).innerp = false → ∀ {i : Nat}, i < (h.get x).n → ∃ y, (h.get x).key.get i = some y
  | 0, _, _, _, _, hs, hx, _, i, hi' => by
      cases hx
      obtain ⟨y, hy, _⟩ := hs.2.keys i hi'
      exact ⟨y, hy⟩
  | d + 1, _, _, _, _, hs, hx, hl, i, hi' => by
      rcases hx with rfl | ⟨j, hj, hx⟩
      · rw [hs.2.1.innerp] at hl; cases hl
      · exact (hs.2.1.kids j hj).leaf_key hx hl hi'

/-! ## 経路 -/

theorem Node.TwigOk.keysSorted {P : Nat → Addr → Option K → Option K → Prop} {t : Node K Q}
    (ht : t.TwigOk descp cap lo hi P) : t.KeysSorted t.descp := by
  rw [ht.descp_eq]
  refine ⟨fun i hi' => ?_, ht.sorted⟩
  obtain ⟨s, hs, _⟩ := ht.seps i hi'
  rw [hs]; rfl

/-- 探索で選ぶ子の範囲には、キーが入る。 -/
theorem Node.TwigOk.seek_bounds {P : Nat → Addr → Option K → Option K → Prop} {t : Node K Q}
    (ht : t.TwigOk descp cap lo hi P) (hc : cap ≤ 63) (hlo : Above descp lo k) (hhi : Upto descp hi k) :
    Above descp (t.lower lo (t.seek (some k))) k ∧ Upto descp (t.upper hi (t.seek (some k))) k := by
  have hn := ht.n_le
  constructor
  · unfold Node.lower
    split
    · exact hlo
    · obtain ⟨b, hb, hbk⟩ := Node.seek_before (t := t) (k := k) (j := t.seek (some k) - 1) (by omega)
      rw [hb, above_some, ← ht.descp_eq]; exact hbk
  · unfold Node.upper
    split
    · rename_i hlt
      intro u hu
      rw [← ht.descp_eq]
      exact Node.seek_not_before ht.keysSorted (by omega) (Nat.le_refl _) hlt hu
    · exact hhi

/-- キーを範囲に含む子は、探索で選ぶ子である。 -/
theorem Node.TwigOk.seek_eq {P : Nat → Addr → Option K → Option K → Prop} {t : Node K Q}
    (ht : t.TwigOk descp cap lo hi P) (hc : cap ≤ 63) {i : Nat} (hi' : i ≤ t.n)
    (hlo : Above descp (t.lower lo i) k) (hhi : Upto descp (t.upper hi i) k) : t.seek (some k) = i := by
  have hn := ht.n_le
  refine Arr.scan_eq (by omega) hi' (fun j hj => ?_) (fun hlt => ?_)
  · obtain ⟨b, hb, _⟩ := ht.seps j (by omega)
    obtain ⟨e, he, _⟩ := ht.seps (i - 1) (by omega)
    rw [Node.lower, if_neg (by omega), he, above_some] at hlo
    rw [hb, keyPast_iff, ht.descp_eq]
    rcases Nat.lt_or_eq_of_le (show j ≤ i - 1 by omega) with hlt | rfl
    · exact (ht.sorted j (i - 1) b e hlt (by omega) hb he).trans hlo
    · rw [hb] at he; cases he; exact hlo
  · obtain ⟨b, hb, _⟩ := ht.seps i hlt
    rw [Node.upper, if_pos hlt, hb, upto_some, ← ht.descp_eq, ← keyPast_iff] at hhi
    rw [hb]
    simpa using hhi

/-- キー `k` の場所は、探索で選ぶ子の下にある。 -/
theorem Sub.cell_route (hs : Sub h descp (d + 1) cap a lo hi) (hc : cap ≤ 63) :
    CellAt h (d + 1) a k c ↔ CellAt h d ((h.get a).kid ((h.get a).seek (some k))) k c := by
  constructor
  · intro hcell
    obtain ⟨i, hi', hcell⟩ := hs.cell_kid hcell
    obtain ⟨h₁, h₂⟩ := (hs.2.1.kids i hi').cell_bounds hcell
    rw [hs.2.1.seek_eq hc hi' h₁ h₂]; exact hcell
  · exact CellAt.kid (Node.seek_le _ _)

theorem Sub.cell_unique : ∀ {d cap : Nat} {a : Addr} {lo hi : Option K}, cap ≤ 63 → Sub h descp d cap a lo hi →
    CellAt h d a k c → CellAt h d a k c' → c = c'
  | 0, _, a, _, _, _, hs, hc, hc' => by
      obtain ⟨t, i⟩ := c
      obtain ⟨t', i'⟩ := c'
      obtain rfl : t = a := hc.mem
      obtain rfl : t' = t := hc'.mem
      obtain rfl : i = i' := hs.2.key_inj hc.lt hc'.lt hc.key hc'.key
      rfl
  | d + 1, _, a, _, _, hcap, hs, hc, hc' =>
      Sub.cell_unique (by omega) (hs.2.1.kids _ (Node.seek_le _ _)) ((hs.cell_route hcap).mp hc)
        ((hs.cell_route hcap).mp hc')

/-! ## 検索 -/

theorem Sub.leafGet_iff (hs : Sub h descp 0 cap a lo hi) (hc : cap ≤ 63) :
    leafGet h a (some k) = some c ↔ CellAt h 0 a k c := by
  unfold leafGet
  constructor
  · intro he
    by_cases hk : keyEq (some k) ((h.get a).key.get ((h.get a).seek (some k))) = true
    · simp only [hk, ↓reduceIte] at he
      obtain ⟨y, hy, hk⟩ := keyEq_iff.mp hk
      cases hy; cases he
      exact ⟨rfl, hs.2.innerp, hs.2.seek_lt_of_eq hc hk, hk⟩
    · simp only [hk] at he; cases he
  · intro hcell
    obtain ⟨t, i⟩ := c
    obtain rfl : t = a := hcell.mem
    have hi' := hs.2.seek_of_key hc hcell.lt hcell.key
    rw [hi', if_pos (keyEq_iff.mpr ⟨k, rfl, hcell.key⟩)]

theorem Sub.twigGet_iff : ∀ {d cap fuel : Nat} {a : Addr} {lo hi : Option K}, cap ≤ 63 → d < fuel →
    Sub h descp (d + 1) cap a lo hi → (twigGet h fuel a (some k) = some c ↔ CellAt h (d + 1) a k c)
  | _, _, 0, _, _, _, _, hf, _ => absurd hf (Nat.not_lt_zero _)
  | 0, _, fuel + 1, a, _, _, hcap, _, hs => by
      have hkid := hs.2.1.kids _ ((h.get a).seek_le (some k))
      simp only [twigGet, hkid.2.innerp, Bool.not_false, ↓reduceIte]
      rw [hkid.leafGet_iff (by omega), hs.cell_route hcap]
  | d + 1, _, fuel + 1, a, _, _, hcap, hf, hs => by
      have hkid := hs.2.1.kids _ ((h.get a).seek_le (some k))
      simp only [twigGet, hkid.2.1.innerp, Bool.not_true, Bool.false_eq_true, ↓reduceIte]
      rw [Sub.twigGet_iff (by omega) (by omega) hkid, hs.cell_route hcap]

/-- `btree_get` は、キーの場所を見つける。 -/
theorem Sub.btreeGet_iff (hs : Sub h descp d cap a lo hi) (hc : cap ≤ 63) (hd : d < h.size) :
    btreeGet h a (some k) = some c ↔ CellAt h d a k c := by
  unfold btreeGet
  cases d with
  | zero => simp only [hs.2.innerp, Bool.not_false, ↓reduceIte]; exact hs.leafGet_iff hc
  | succ d =>
      simp only [hs.2.1.innerp, Bool.not_true, Bool.false_eq_true, ↓reduceIte]
      exact hs.twigGet_iff hc (by omega)

/-- nil でない値は、`btree_get` で見つかる値である。 -/
theorem Sub.find_iff (hs : Sub h descp d 63 root none none) (hd : d < h.size) (hv : v.nilP = false) :
    find h k = v ↔ Has h d root k v := by
  have hne : BtreeVal.nil ≠ v := by rintro rfl; simp [BtreeVal.nilP, BtreeVal.nil] at hv
  rw [hs.has_iff_cell]
  unfold find
  cases hg : btreeGet h root (some k) with
  | none =>
      simp only [hne, false_iff, not_exists, not_and]
      intro c hc _
      rw [(hs.btreeGet_iff (Nat.le_refl _) hd).mpr hc] at hg; cases hg
  | some c =>
      have hc := (hs.btreeGet_iff (Nat.le_refl _) hd).mp hg
      simp only
      constructor
      · intro he
        split at he
        · exact absurd he hne
        · exact ⟨c, hc, he⟩
      · rintro ⟨c', hc', he⟩
        obtain rfl := hs.cell_unique (Nat.le_refl _) hc hc'
        rw [he, hv, if_neg (by decide)]

theorem find_eq_nil_iff : find h k = .nil ↔ ∀ v : BtreeVal Q, v.nilP = false → find h k ≠ v := by
  constructor
  · rintro he v hv rfl
    rw [he] at hv; simp [BtreeVal.nilP, BtreeVal.nil] at hv
  · intro hall
    unfold find at hall ⊢
    cases hg : btreeGet h root (some k) with
    | none => rfl
    | some c =>
        rw [hg] at hall
        simp only at hall ⊢
        split
        · rfl
        · rename_i hn
          rw [if_neg hn] at hall
          exact absurd rfl (hall _ (by simpa using hn))

/-! ## 書き込み -/

theorem Heap.get_store_eq (hc : c.t < h.size) :
    (h.store c v).get c.t = { h.get c.t with val := (h.get c.t).val.set c.i (.v v) } :=
  Heap.get_modify_eq _ hc

theorem Heap.get_store_ne (hx : x ≠ c.t) : (h.store c v).get x = h.get x :=
  Heap.get_modify_ne _ hx.symm

theorem sameShape_store (hl : (h.get c.t).innerp = false) (x : Addr) :
    (h.get x).SameShape ((h.store c v).get x) := by
  by_cases hx : x = c.t
  · subst hx
    by_cases hlt : c.t < h.size
    · rw [Heap.get_store_eq hlt]
      exact ⟨rfl, rfl, rfl, rfl, fun hi' => by rw [hl] at hi'; cases hi'⟩
    · rw [Heap.store, Heap.modify, Heap.set_of_le _ (Nat.le_of_not_lt hlt)]; exact .refl _
  · rw [Heap.get_store_ne hx]; exact .refl _

theorem Sub.store (hs : Sub h descp d cap a lo hi) (hl : (h.get c.t).innerp = false) :
    Sub (h.store c v) descp d cap a lo hi :=
  hs.frame (fun y hy => ⟨by rw [Heap.size_store]; exact hs.mem_lt_size hy, sameShape_store hl y⟩)

theorem Sub.cell_frame (hs : Sub h descp d cap a lo hi)
    (hf : ∀ y, Mem h d a y → (h.get y).SameShape (h'.get y)) : CellAt h' d a k c ↔ CellAt h d a k c := by
  constructor
  · rintro ⟨hm, h₁, h₂, h₃⟩
    rw [hs.mem_frame hf] at hm
    have hx := hf _ hm
    rw [hx.innerp] at h₁
    rw [hx.n] at h₂
    rw [hx.key] at h₃
    exact ⟨hm, h₁, h₂, h₃⟩
  · rintro ⟨hm, h₁, h₂, h₃⟩
    have hx := hf _ hm
    refine ⟨(hs.mem_frame hf).mpr hm, ?_, ?_, ?_⟩
    · rw [hx.innerp]; exact h₁
    · rw [hx.n]; exact h₂
    · rw [hx.key]; exact h₃

theorem load_store_eq (hc : c.t < h.size) (hi' : c.i < 64) : (h.store c v).load c = v := by
  rw [Heap.load, Heap.get_store_eq hc, Node.value, Arr.get_set_eq _ _ hi']; rfl

theorem load_store_ne (hne : c' ≠ c) : (h.store c v).load c' = h.load c' := by
  obtain ⟨t, i⟩ := c
  obtain ⟨t', i'⟩ := c'
  simp only [Heap.load, Heap.store]
  by_cases ht : t = t'
  · subst ht
    have hi' : i ≠ i' := by rintro rfl; exact hne rfl
    by_cases hlt : t < h.size
    · rw [Heap.get_modify_eq _ hlt, Node.value, Arr.get_set_ne _ _ hi']; rfl
    · rw [Heap.modify, Heap.set_of_le _ (Nat.le_of_not_lt hlt)]
  · rw [Heap.get_modify_ne _ ht]

/-- キー `k` の場所に書き込むと、`k` の組だけが変わる。 -/
theorem Sub.has_store (hs : Sub h descp d cap a lo hi) (hcap : cap ≤ 63) (hc : CellAt h d a k c) :
    Has (h.store c v) d a y w ↔ (y = k ∧ w = v) ∨ (y ≠ k ∧ Has h d a y w) := by
  have hn : (h.get c.t).n ≤ 63 := hs.mem_n_le hcap hc.mem
  have hlt : c.t < h.size := hs.mem_lt_size hc.mem
  have hi' : c.i < 64 := by have := hc.lt; omega
  rw [(hs.store hc.leaf).has_iff_cell, hs.has_iff_cell]
  have hcell : ∀ y c', CellAt (h.store c v) d a y c' ↔ CellAt h d a y c' :=
    fun y c' => hs.cell_frame (fun z _ => sameShape_store hc.leaf z)
  constructor
  · rintro ⟨c', hc', hw⟩
    rw [hcell] at hc'
    by_cases he : c' = c
    · subst he
      rw [load_store_eq hlt hi'] at hw
      have hk := hc.key
      rw [hc'.key] at hk
      cases hk
      exact Or.inl ⟨rfl, hw.symm⟩
    · rw [load_store_ne he] at hw
      refine Or.inr ⟨?_, c', hc', hw⟩
      rintro rfl
      exact he (hs.cell_unique hcap hc' hc)
  · rintro (⟨rfl, rfl⟩ | ⟨hne, c', hc', hw⟩)
    · exact ⟨c, (hcell _ _).mpr hc, load_store_eq hlt hi'⟩
    · refine ⟨c', (hcell _ _).mpr hc', ?_⟩
      have he : c' ≠ c := by
        rintro rfl
        have hk := hc.key
        rw [hc'.key] at hk; cases hk; exact hne rfl
      rw [load_store_ne he]; exact hw

end Books.Btree
