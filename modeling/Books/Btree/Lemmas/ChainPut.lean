import Books.Btree.Lemmas.Chain

/-!
# 追加とつながり

`btree_put` が葉のつながりを保つのは、木の左端にない親の先頭の葉を使い回さないときである。
-/

set_option linter.unusedSectionVars false

namespace Books.Btree

open Books.Lib

variable {K Q : Type} [LinearOrder K] [LinearOrder Q] [Zero Q]
variable {descp : Bool} {h h' : Heap K Q} {lo hi : Option K} {d cap fuel : Nat} {a x : Addr} {k : K}
  {B B₁ B₂ : List (List Addr)} {W : List Addr} {s e : Option Addr} {r : Added K Q} {v : BtreeVal Q} {c : Cell}

/-! ## 先頭の葉の使い回し -/

/-- キー `k` を加えると葉が埋まり、その親の先頭の葉は空である。 -/
def stealsFirst (h : Heap K Q) : Nat → Addr → Option K → Bool
  | 0, _, _ => false
  | fuel + 1, t, k =>
      let c := (h.get t).kid ((h.get t).seek k)
      if !(h.get c).innerp then (h.get c).overflows k && nodeFreeP h 1 ((h.get t).kid 0)
      else stealsFirst h fuel c k

/-- キー `k` の着く葉の親は、木の左端にない。 -/
def offSpine (h : Heap K Q) : Nat → Addr → Option K → Bool
  | 0, _, _ => false
  | fuel + 1, t, k =>
      let i := (h.get t).seek k
      if !(h.get ((h.get t).kid i)).innerp then false
      else decide (i ≠ 0) || offSpine h fuel ((h.get t).kid i) k

/-- 先送りした根の分割を済ませると、キー `k` の `btree_put` は、左端にない親の先頭の葉を使い回す。 -/
def breaksChain (h : Heap K Q) (k : Option K) : Bool :=
  offSpine (rooted h) (rooted h).size root k && stealsFirst (rooted h) (rooted h).size root k

section Eqs
variable (k : Option K)

theorem Sub.stealsFirst_one (hs : Sub h descp 1 cap a lo hi) : stealsFirst h (fuel + 1) a k =
    ((h.get ((h.get a).kid ((h.get a).seek k))).overflows k && nodeFreeP h 1 ((h.get a).kid 0)) := by
  have hk := (hs.2.1.kids _ ((h.get a).seek_le k)).2.innerp
  simp [stealsFirst, hk]

theorem Sub.stealsFirst_succ (hs : Sub h descp (d + 2) cap a lo hi) : stealsFirst h (fuel + 1) a k =
    stealsFirst h fuel ((h.get a).kid ((h.get a).seek k)) k := by
  have hk := (hs.2.1.kids _ ((h.get a).seek_le k)).2.1.innerp
  simp [stealsFirst, hk]

theorem Sub.offSpine_succ (hs : Sub h descp (d + 2) cap a lo hi) : offSpine h (fuel + 1) a k =
    (decide ((h.get a).seek k ≠ 0) || offSpine h fuel ((h.get a).kid ((h.get a).seek k)) k) := by
  have hk := (hs.2.1.kids _ ((h.get a).seek_le k)).2.1.innerp
  simp [offSpine, hk]

end Eqs

/-! ## 子への追加 -/

/-- 部分木への追加の後のつながり。`st` は、先頭の葉を使い回したことを表す。 -/
def SegAdd (h h' : Heap K Q) (d : Nat) (a : Addr) (st : Bool) : Prop :=
  ∀ s W e, Seg h (blocks h d a) s W e → ∃ s' W', Seg h' (blocks h' d a) s' W' e ∧ (s' = s ∨ st = true) ∧
    ∀ x ∈ W', x ∈ W ∨ h.size ≤ x

/-- 子への追加で、並びの子の部分が変わる。 -/
theorem AddOk.segAdd_kid {idx : Nat} {st : Bool} (hs : Sub h descp (d + 2) 62 a lo hi) (hidx : idx ≤ (h.get a).n)
    (A : AddOk h descp (d + 1) ((h.get a).kid idx) ((h.get a).lower lo idx) ((h.get a).upper hi idx) k r)
    (hkid : SegAdd h r.heap (d + 1) ((h.get a).kid idx) st) (hst : idx ≠ 0 → st = false) :
    SegAdd h r.heap (d + 2) a st := by
  intro s W e G
  obtain ⟨m, hm⟩ : ∃ m, (h.get a).n = idx + m := ⟨_, (Nat.add_sub_cancel' hidx).symm⟩
  have hkids : (h.get a).kids =
      span (h.get a).kid 0 idx ++ (h.get a).kid idx :: span (h.get a).kid (idx + 1) m := by
    rw [Node.kids_eq, hm, Nat.add_assoc, span_add, Nat.zero_add, span_succ]
  have hfr : ∀ i, i ≤ (h.get a).n → i ≠ idx → blocks r.heap (d + 1) ((h.get a).kid i) =
      blocks h (d + 1) ((h.get a).kid i) := by
    intro i hi' hne
    refine (hs.2.1.kids i hi').blocks_frame (fun y hy => ?_)
    rw [(A.other hs hidx hi' hne hy).2]; exact .refl _
  have hspan : ∀ lo' len, (∀ j, j < len → lo' + j ≤ (h.get a).n ∧ lo' + j ≠ idx) →
      (span (h.get a).kid lo' len).flatMap (blocks r.heap (d + 1)) =
      (span (h.get a).kid lo' len).flatMap (blocks h (d + 1)) := by
    intro lo' len hj
    refine List.flatMap_congr (fun x hx => ?_)
    simp only [span, List.mem_map, List.mem_range'_1] at hx
    obtain ⟨i, hi', rfl⟩ := hx
    obtain ⟨h₁, h₂⟩ := hj (i - lo') (by omega)
    exact hfr i (by omega) (by omega)
  have hnew : blocks r.heap (d + 2) a = (span (h.get a).kid 0 idx).flatMap (blocks h (d + 1)) ++
      (blocks r.heap (d + 1) ((h.get a).kid idx) ++ (span (h.get a).kid (idx + 1) m).flatMap (blocks h (d + 1))) := by
    simp only [blocks]
    rw [A.parent hs hidx, hkids, List.flatMap_append, List.flatMap_cons, hspan 0 idx (fun j hj => by omega),
      hspan (idx + 1) m (fun j hj => by omega)]
  simp only [blocks] at G
  rw [hkids, List.flatMap_append, List.flatMap_cons] at G
  obtain ⟨W₁, W', m₁, rfl, G₁, G'⟩ := G.split
  obtain ⟨W₂, W₃, m₂, rfl, G₂, G₃⟩ := G'.split
  obtain ⟨s', W₂', G₂', hs', hsub⟩ := hkid _ _ _ G₂
  obtain ⟨_, hn', hd₁⟩ := List.nodup_append.mp G.nodup
  obtain ⟨_, _, hd₂⟩ := List.nodup_append.mp hn'
  -- 子の部分木の葉は `W₂` にあるので、`W₁` と `W₃` の葉は変わらない。
  have hmemkid : ∀ y, y ∈ span (h.get a).kid 0 idx ∨ y ∈ span (h.get a).kid (idx + 1) m → y ∈ (h.get a).kids := by
    intro y hy
    rw [hkids]
    rcases hy with hy | hy
    · exact List.mem_append_left _ hy
    · exact List.mem_append_right _ (List.mem_cons_of_mem _ hy)
  have hleaf : ∀ x, x ∈ W₁ ∨ x ∈ W₃ → (h.get x).innerp = false := by
    have hb : ∀ L : List Addr, (∀ y ∈ L, y ∈ (h.get a).kids) → ∀ x ∈ (L.flatMap (blocks h (d + 1))).flatten,
        (h.get x).innerp = false := by
      intro L hL x hx
      simp only [List.mem_flatten, List.mem_flatMap] at hx
      obtain ⟨b, ⟨y, hy, hb⟩, hx⟩ := hx
      obtain ⟨i, hi', rfl⟩ := Node.mem_kids.mp (hL y hy)
      exact ((hs.2.1.kids i hi').mem_blocks.mp (List.mem_flatten.mpr ⟨b, hb, hx⟩)).2
    rintro x (hx | hx)
    · rcases G₁.woven.mem x hx with hx | hd
      · exact hb _ (fun y hy => hmemkid y (Or.inl hy)) x hx
      · exact hd.leaf
    · rcases G₃.woven.mem x hx with hx | hd
      · exact hb _ (fun y hy => hmemkid y (Or.inr hy)) x hx
      · exact hd.leaf
  have hget : ∀ x, x ∈ W₁ ∨ x ∈ W₃ → r.heap.get x = h.get x := by
    intro x hx
    have hlt : x < h.size := by
      rcases hx with hx | hx
      · exact G₁.lt x hx
      · exact G₃.lt x hx
    refine A.frame x hlt (fun hm => ?_)
    have hx₂ : x ∈ W₂ := G₂.woven.sublist.mem ((hs.2.1.kids idx hidx).mem_blocks.mpr ⟨hm, hleaf x hx⟩)
    rcases hx with hx | hx
    · exact hd₁ x hx x (List.mem_append_left _ hx₂) rfl
    · exact hd₂ x hx₂ x hx rfl
  have G₁' := G₁.frame A.size_le (fun x hx => by rw [hget x (Or.inl hx)])
    (fun x hx _ hd => hd.of_get_eq (hget x (Or.inl hx)))
  have G₃' := G₃.frame A.size_le (fun x hx => by rw [hget x (Or.inr hx)])
    (fun x hx _ hd => hd.of_get_eq (hget x (Or.inr hx)))
  have hd₂₃ : ∀ x ∈ W₂', x ∉ W₃ := by
    intro x hx hx₃
    rcases hsub x hx with hx | hge
    · exact hd₂ x hx x hx₃ rfl
    · exact Nat.lt_irrefl _ (Nat.lt_of_lt_of_le (G₃.lt x hx₃) hge)
  have G₂₃ := G₂'.append G₃' hd₂₃
  rw [hnew]
  rcases hs' with rfl | hst'
  · refine ⟨s, W₁ ++ (W₂' ++ W₃), G₁'.append G₂₃ (fun x hx hx' => ?_), Or.inl rfl, fun x hx => ?_⟩
    · rcases List.mem_append.mp hx' with hx' | hx'
      · rcases hsub x hx' with hx' | hge
        · exact hd₁ x hx x (List.mem_append_left _ hx') rfl
        · exact Nat.lt_irrefl _ (Nat.lt_of_lt_of_le (G₁.lt x hx) hge)
      · exact hd₁ x hx x (List.mem_append_right _ hx') rfl
    · rcases List.mem_append.mp hx with hx | hx
      · exact Or.inl (List.mem_append_left _ hx)
      · rcases List.mem_append.mp hx with hx | hx
        · rcases hsub x hx with hx | hge
          · exact Or.inl (List.mem_append_right _ (List.mem_append_left _ hx))
          · exact Or.inr hge
        · exact Or.inl (List.mem_append_right _ (List.mem_append_right _ hx))
  · -- 始まりが変わるのは、左端の子に加えたときである。
    have h0 : idx = 0 := by
      by_contra hne
      rw [hst hne] at hst'; cases hst'
    subst h0
    refine ⟨s', W₂' ++ W₃, G₂₃, Or.inr hst', fun x hx => ?_⟩
    rcases List.mem_append.mp hx with hx | hx
    · rcases hsub x hx with hx | hge
      · exact Or.inl (List.mem_append_right _ (List.mem_append_left _ hx))
      · exact Or.inr hge
    · exact Or.inl (List.mem_append_right _ (List.mem_append_right _ hx))

theorem leafAdd_next_eq (h : Heap K Q) (t : Addr) (k : Option K) (x : Addr) :
    ((leafAdd h t k).heap.get x).next = (h.get x).next := by
  by_cases hlt : t < h.size
  · by_cases hx : t = x
    · subst hx
      rw [leafAdd, Heap.get_set_eq _ hlt, Node.leafAdd_next]
    · exact congrArg _ (Heap.get_set_ne _ hx)
  · rw [leafAdd, Heap.set_of_le _ (Nat.le_of_not_lt hlt)]

theorem leafAdd_get_ne {t : Addr} (hx : x ≠ t) (k : Option K) : (leafAdd h t k).heap.get x = h.get x :=
  Heap.get_set_ne _ (Ne.symm hx)

/-- 子を分けなければ、`twig_add` の木は子に加えた木である。 -/
theorem Added.twig_heap_false (hsp : r.splitp = false) (fuel : Nat) (a : Addr) (idx : Nat) :
    (r.twig fuel a idx).heap = r.heap := by
  simp [Added.twig, hsp]

theorem Added.twig_heap_true (hsp : r.splitp = true) (fuel : Nat) (a : Addr) (idx : Nat) :
    (r.twig fuel a idx).heap = nodeSplit fuel r.heap a idx := by
  simp [Added.twig, hsp]

/-- 空いた子が先頭にあれば、その葉は空である。 -/
theorem Ready.free_first {idx : Nat} (R : Ready h descp 0 a lo hi idx) (hf : 0 < fuel)
    (h0 : spareIdx fuel h (h.get a) = 0) : ∀ y v, Has h 0 ((h.get a).kid 0) y v → v.nilP = true :=
  fun _ _ => R.nul_nil hf h0 (Nat.zero_le _)

theorem Sub.segAdd_one (hs : Sub h descp 1 62 a lo hi) (hf : 0 < fuel) (hlo : Above descp lo k)
    (hhi : Upto descp hi k) :
    SegAdd h ((leafAdd h ((h.get a).kid ((h.get a).seek (some k))) (some k)).twig fuel a ((h.get a).seek (some k))).heap
      1 a (stealsFirst h 1 a (some k)) := by
  have hidx := (h.get a).seek_le (some k)
  have hkid := hs.2.1.kids _ hidx
  obtain ⟨h₁, h₂⟩ := hs.2.1.seek_bounds (by decide) hlo hhi
  have A := hkid.leafAdd_ok h₁ h₂
  set c := (h.get a).kid ((h.get a).seek (some k)) with hc
  have hp := A.parent hs hidx
  intro s W e G
  have hne : ∀ x ∈ W, x ∉ (blocks h 1 a).flatten → x ≠ c := by
    rintro x _ hb rfl
    refine hb (hs.mem_blocks.mpr ⟨Mem.kid hidx rfl, hkid.2.innerp⟩)
  have hb : blocks (leafAdd h c (some k)).heap 1 a = blocks h 1 a := by
    simp only [blocks]; rw [hp]
  have G₁ : Seg (leafAdd h c (some k)).heap (blocks (leafAdd h c (some k)).heap 1 a) s W e := by
    rw [hb]
    exact G.frame A.size_le (fun x _ => leafAdd_next_eq h c (some k) x)
      (fun x hx hb hd => hd.of_get_eq (leafAdd_get_ne (hne x hx hb) _))
  cases hsp : (leafAdd h c (some k)).splitp with
  | false =>
      rw [Added.twig_heap_false hsp]
      exact ⟨s, W, G₁, Or.inl rfl, fun x hx => Or.inl hx⟩
  | true =>
      have R := A.ready hs hidx hsp
      have S := R.splitted hf rfl
      have hnul := R.nul_ne hf rfl
      rw [Added.twig_heap_true hsp]
      obtain ⟨s', W', G', hs', hsub⟩ := Splitted.seg_leaf R S (Ready.nul_le _ _ _) hnul G₁
      refine ⟨s', W', G', ?_, fun x hx => ?_⟩
      · rcases hs' with rfl | h0
        · exact Or.inl rfl
        · -- 先頭の葉は埋まった葉ではないので、加える前から空である。
          refine Or.inr ?_
          have ho : (h.get c).overflows (some k) = true := by rw [← (A.brim rfl).1]; exact hsp
          have h0c : (h.get a).kid 0 ≠ c := by
            intro he
            have := R.kid_inj (i := 0) (Nat.zero_le _) R.idx_le (by omega)
            rw [hp] at this
            exact this he
          have hfree := R.free_first hf h0
          rw [hp] at hfree
          rw [hs.stealsFirst_one, ho, Bool.true_and]
          refine ((hs.2.1.kids 0 (Nat.zero_le _)).nodeFreeP_iff (by decide) (by decide)).mpr (fun y v hy => ?_)
          refine hfree y v ?_
          simp only [Has] at hy ⊢
          rw [leafAdd_get_ne h0c]; exact hy
      · rcases hsub x hx with hx | hge
        · exact Or.inl hx
        · exact Or.inr (Nat.le_trans A.size_le hge)

/-- 内部の節への追加。子を分けるときも、葉の並びは変わらない。 -/
theorem AddOk.segAdd_twig {idx : Nat} {st : Bool} (hs : Sub h descp (d + 2) 62 a lo hi) (hidx : idx ≤ (h.get a).n)
    (A : AddOk h descp (d + 1) ((h.get a).kid idx) ((h.get a).lower lo idx) ((h.get a).upper hi idx) k r)
    (hf : d + 1 < fuel) (hadd : SegAdd h r.heap (d + 2) a st) : SegAdd h (r.twig fuel a idx).heap (d + 2) a st := by
  cases hsp : r.splitp with
  | false => rw [Added.twig_heap_false hsp]; exact hadd
  | true =>
      have R := A.ready hs hidx hsp
      have S := R.splitted hf rfl
      rw [Added.twig_heap_true hsp]
      intro s W e G
      obtain ⟨s', W', G', hs', hsub⟩ := hadd s W e G
      exact ⟨s', W', Splitted.seg_inner R S (Ready.nul_le _ _ _) (R.nul_ne hf rfl)
        (fun hle y v => R.nul_nil hf rfl hle) G', hs', hsub⟩

theorem Sub.segAdd : ∀ {d fuel m : Nat} {a : Addr} {lo hi : Option K}, d + 1 < fuel → d + 1 ≤ m →
    Sub h descp (d + 1) 62 a lo hi → Above descp lo k → Upto descp hi k →
    (offSpine h m a (some k) && stealsFirst h m a (some k)) = false →
    SegAdd h (twigAdd fuel h a (some k)).heap (d + 1) a (stealsFirst h m a (some k))
  | _, 0, _, _, _, _, hf, _, _, _, _, _ => absurd hf (Nat.not_lt_zero _)
  | _, _, 0, _, _, _, _, hm, _, _, _, _ => absurd hm (Nat.not_succ_le_zero _)
  | 0, fuel + 1, m + 1, a, _, _, hf, _, hs, hlo, hhi, _ => by
      have hkid := hs.2.1.kids _ ((h.get a).seek_le (some k))
      have hf' : 0 < fuel := by omega
      have hadd := hs.segAdd_one hf' hlo hhi
      rw [hs.stealsFirst_one] at hadd ⊢
      simp only [twigAdd, hkid.2.innerp, Bool.not_false, ↓reduceIte]
      exact hadd
  | d + 1, fuel + 1, m + 1, a, _, _, hf, hm, hs, hlo, hhi, hb => by
      have hidx := (h.get a).seek_le (some k)
      have hkid := hs.2.1.kids _ hidx
      obtain ⟨h₁, h₂⟩ := hs.2.1.seek_bounds (by decide) hlo hhi
      have hf' : d + 1 < fuel := by omega
      have A := Sub.twigAdd_ok hf' hkid h₁ h₂
      rw [hs.stealsFirst_succ, hs.offSpine_succ] at hb
      have hb' : (offSpine h m ((h.get a).kid ((h.get a).seek (some k))) (some k) &&
          stealsFirst h m ((h.get a).kid ((h.get a).seek (some k))) (some k)) = false := by
        revert hb
        cases offSpine h m ((h.get a).kid ((h.get a).seek (some k))) (some k) <;> simp
      have ih := Sub.segAdd hf' (show d + 1 ≤ m by omega) hkid h₁ h₂ hb'
      have hst : (h.get a).seek (some k) ≠ 0 →
          stealsFirst h m ((h.get a).kid ((h.get a).seek (some k))) (some k) = false := by
        intro hne
        rw [decide_eq_true hne, Bool.true_or, Bool.true_and] at hb
        exact hb
      rw [hs.stealsFirst_succ]
      have hadd := A.segAdd_twig hs hidx hf' (A.segAdd_kid hs hidx ih hst)
      simp only [twigAdd, hkid.2.1.innerp, Bool.not_true, Bool.false_eq_true, ↓reduceIte]
      exact hadd

end Books.Btree
