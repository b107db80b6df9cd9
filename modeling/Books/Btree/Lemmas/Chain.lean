import Books.Lib.Walk
import Books.Btree.Lemmas.Run

/-!
# 葉のつながり

葉の並びを、親ごとのブロックに分けて扱う。一つの親の葉は `next` で切れ目なくつながり、ブロックの間には、木から
外れた空の葉だけがある。
-/

set_option linter.unusedSectionVars false

namespace Books.Btree

open Books.Lib

variable {K Q : Type} [LinearOrder K] [LinearOrder Q] [Zero Q]
variable {descp : Bool} {h h' : Heap K Q} {lo hi : Option K} {d cap fuel : Nat} {a x : Addr} {k : K}
  {B B₁ B₂ : List (List Addr)} {W : List Addr} {s e : Option Addr}

/-! ## ブロック -/

/-- 子の番地の並び。 -/
def Node.kids (t : Node K Q) : List Addr := (List.range (t.n + 1)).map t.kid

/-- 部分木の葉を、左から順に、親ごとにまとめたもの。 -/
def blocks (h : Heap K Q) : Nat → Addr → List (List Addr)
  | 0, a => [[a]]
  | 1, a => [(h.get a).kids]
  | d + 2, a => (h.get a).kids.flatMap (blocks h (d + 1))

theorem Node.mem_kids {t : Node K Q} : x ∈ t.kids ↔ ∃ i, i ≤ t.n ∧ t.kid i = x := by
  simp [kids, Nat.lt_succ_iff]

theorem Node.SameShape.kids_eq {t t' : Node K Q} (H : t.SameShape t') (hi : t.innerp = true) : t'.kids = t.kids := by
  unfold kids
  rw [H.n]
  exact List.map_congr_left (fun i _ => H.kid_eq hi i)

theorem Sub.mem_blocks : ∀ {d cap : Nat} {a : Addr} {lo hi : Option K}, Sub h descp d cap a lo hi →
    (x ∈ (blocks h d a).flatten ↔ Mem h d a x ∧ (h.get x).innerp = false)
  | 0, _, a, _, _, hs => by
      simp only [blocks, List.flatten_cons, List.flatten_nil, List.append_nil, List.mem_singleton, Mem]
      exact ⟨fun he => ⟨he, by rw [he]; exact hs.2.innerp⟩, fun he => he.1⟩
  | 1, _, a, _, _, hs => by
      simp only [blocks, List.flatten_cons, List.flatten_nil, List.append_nil, Node.mem_kids]
      constructor
      · rintro ⟨i, hi', rfl⟩
        exact ⟨Mem.kid hi' rfl, (hs.2.1.kids i hi').2.innerp⟩
      · rintro ⟨rfl | ⟨i, hi', hx⟩, hl⟩
        · rw [hs.2.1.innerp] at hl; cases hl
        · exact ⟨i, hi', hx.symm⟩
  | d + 2, _, a, _, _, hs => by
      simp only [blocks, List.mem_flatten, List.mem_flatMap, Node.mem_kids]
      constructor
      · rintro ⟨b, ⟨_, ⟨i, hi', rfl⟩, hb⟩, hx⟩
        obtain ⟨h₁, h₂⟩ := (hs.2.1.kids i hi').mem_blocks.mp (List.mem_flatten.mpr ⟨b, hb, hx⟩)
        exact ⟨Mem.kid hi' h₁, h₂⟩
      · rintro ⟨rfl | ⟨i, hi', hx⟩, hl⟩
        · rw [hs.2.1.innerp] at hl; cases hl
        · obtain ⟨b, hb, hx⟩ := List.mem_flatten.mp ((hs.2.1.kids i hi').mem_blocks.mpr ⟨hx, hl⟩)
          exact ⟨b, ⟨_, ⟨i, hi', rfl⟩, hb⟩, hx⟩

theorem Sub.blocks_frame : ∀ {d cap : Nat} {a : Addr} {lo hi : Option K}, Sub h descp d cap a lo hi →
    (∀ y, Mem h d a y → (h.get y).SameShape (h'.get y)) → blocks h' d a = blocks h d a
  | 0, _, _, _, _, _, _ => rfl
  | 1, _, a, _, _, hs, hf => by
      simp only [blocks]
      rw [(hf a (Mem.self h _ a)).kids_eq hs.2.1.innerp]
  | d + 2, _, a, _, _, hs, hf => by
      simp only [blocks]
      rw [(hf a (Mem.self h _ a)).kids_eq hs.2.1.innerp]
      refine List.flatMap_congr (fun x hx => ?_)
      obtain ⟨i, hi', rfl⟩ := Node.mem_kids.mp hx
      exact (hs.2.1.kids i hi').blocks_frame (fun y hy => hf y (Mem.kid hi' hy))

/-! ## 分割の後の子の並び -/

theorem Node.kids_eq (t : Node K Q) : t.kids = span t.kid 0 (t.n + 1) := by
  rw [kids, span, List.range_eq_range']

section Kids
variable {idx nul : Nat} (S : Splitted h h' a idx nul) (hn : (h.get a).n ≤ 62) (hidx : idx ≤ (h.get a).n)
  (hnul : nul ≤ (h.get a).n + 1) (hne : nul ≠ idx)
include S hn hidx hnul hne

/-- 節を確保したときは、分けた子の右に `RGHT` が入る。 -/
theorem Splitted.kids_fresh (hf : (h.get a).n < nul) : ∃ A C,
    (h.get a).kids = A ++ (h.get a).kid idx :: C ∧
    (h'.get a).kids = A ++ (h.get a).kid idx :: spareAddr h (h.get a) nul :: C := by
  have hpos : addPos idx nul = idx := by unfold addPos; rw [if_neg (by omega)]
  have hkid := fun i hi' => S.parent_old hn hidx hnul hne (i := i) hi'
  have hr := S.parent_rght hn hidx hnul hne
  rw [hpos] at hkid hr
  obtain ⟨m, hm⟩ : ∃ m, (h.get a).n = idx + m := ⟨_, (Nat.add_sub_cancel' hidx).symm⟩
  refine ⟨span (h.get a).kid 0 idx, span (h.get a).kid (idx + 1) m, ?_, ?_⟩
  · rw [Node.kids_eq, hm, Nat.add_assoc, span_add, Nat.zero_add, span_succ]
  · rw [Node.kids_eq, S.parent_n, if_pos hf, hm,
      show idx + m + 1 + 1 = idx + (1 + (1 + m)) by omega, span_add, span_add, span_add]
    congr 1
    · refine span_congr (fun j hj => ?_)
      rw [hkid _ (by omega), slot_of_out (by omega) (by omega)]
    · rw [← List.singleton_append (l := _ :: _), ← List.singleton_append (l := span _ _ _)]
      congr 1
      · rw [span_succ, hkid _ (by omega), slot_of_out (by omega) (by omega), Nat.zero_add]; rfl
      · congr 1
        · rw [span_succ, Nat.zero_add, hr]; rfl
        · refine span_congr (fun j hj => ?_)
          rw [hkid _ (by omega), slot_of_up (by omega)]
          congr 1; omega

/-- 空いた子を使い回したときは、その子を外してから、分けた子の右に入れる。 -/
theorem Splitted.kids_spare (hf : nul ≤ (h.get a).n) : ∃ A C A' C',
    (h.get a).kids = A ++ (h.get a).kid nul :: C ∧ A ++ C = A' ++ (h.get a).kid idx :: C' ∧
    (h'.get a).kids = A' ++ (h.get a).kid idx :: (h.get a).kid nul :: C' ∧
    (nul = 0 ∧ A = [] ∨ nul ≠ 0 ∧ ∃ A₀, A = A₀ ++ [(h.get a).kid (nul - 1)]) := by
  have hkid := fun i hi' => S.parent_old hn hidx hnul hne (i := i) hi'
  have hr := S.parent_rght hn hidx hnul hne
  rw [spareAddr, if_neg (by omega)] at hr
  obtain ⟨m, hm⟩ : ∃ m, (h.get a).n = nul + m := ⟨_, (Nat.add_sub_cancel' hf).symm⟩
  have hA : nul = 0 ∧ span (h.get a).kid 0 nul = [] ∨
      nul ≠ 0 ∧ ∃ A₀, span (h.get a).kid 0 nul = A₀ ++ [(h.get a).kid (nul - 1)] := by
    cases nul with
    | zero => exact Or.inl ⟨rfl, rfl⟩
    | succ nul => exact Or.inr ⟨by omega, _, by rw [span_concat, Nat.zero_add]; rfl⟩
  have hold : (h.get a).kids = span (h.get a).kid 0 nul ++ (h.get a).kid nul :: span (h.get a).kid (nul + 1) m := by
    rw [Node.kids_eq, hm, Nat.add_assoc, span_add, Nat.zero_add, span_succ]
  rcases Nat.lt_or_gt_of_ne hne with hlt | hlt
  · -- 空いた子が左にあるときは、間の子が左へ一つずれる。
    have hpos : addPos idx nul = idx - 1 := if_pos hlt
    rw [hpos] at hkid hr
    obtain ⟨i, rfl⟩ : ∃ i, idx = nul + 1 + i := ⟨_, (Nat.add_sub_cancel' hlt).symm⟩
    obtain ⟨j, rfl⟩ : ∃ j, m = i + 1 + j := ⟨_, (Nat.add_sub_cancel' (show i + 1 ≤ m by omega)).symm⟩
    refine ⟨_, _, span (h.get a).kid 0 nul ++ span (h.get a).kid (nul + 1) i,
      span (h.get a).kid (nul + 1 + i + 1) j, hold, ?_, ?_, hA⟩
    · rw [span_add, span_concat, List.append_assoc, List.append_assoc]; rfl
    · rw [Node.kids_eq, S.parent_n, if_neg (by omega), hm,
        show nul + (i + 1 + j) + 0 + 1 = nul + (i + (1 + (1 + j))) by omega, span_add, span_add, span_add, span_add,
        List.append_assoc]
      congr 1
      · refine span_congr (fun l hl => ?_)
        rw [hkid _ (by omega), slot_of_out (by omega) (by omega)]
      · congr 1
        · refine span_congr (fun l hl => ?_)
          rw [hkid _ (by omega), slot_of_down (by omega)]
          congr 1; omega
        · rw [← List.singleton_append (l := _ :: _), ← List.singleton_append (l := span _ _ _)]
          congr 1
          · rw [span_succ, hkid _ (by omega), slot_of_down (by omega)]
            exact congrArg (fun n => [(h.get a).kid n]) (by omega)
          · congr 1
            · rw [span_succ, show 0 + nul + i + 1 = nul + 1 + i - 1 + 1 by omega, hr]; rfl
            · refine span_congr (fun l hl => ?_)
              rw [hkid _ (by omega), slot_of_out (by omega) (by omega)]
              congr 1; omega
  · have hpos : addPos idx nul = idx := if_neg (by omega)
    rw [hpos] at hkid hr
    obtain ⟨i, rfl⟩ : ∃ i, nul = idx + 1 + i := ⟨_, (Nat.add_sub_cancel' hlt).symm⟩
    refine ⟨_, _, span (h.get a).kid 0 idx,
      span (h.get a).kid (idx + 1) i ++ span (h.get a).kid (idx + 1 + i + 1) m, hold, ?_, ?_, hA⟩
    · rw [span_add, span_concat, List.append_assoc, List.append_assoc, Nat.zero_add, Nat.zero_add]; rfl
    · rw [Node.kids_eq, S.parent_n, if_neg (by omega), hm,
        show idx + 1 + i + m + 0 + 1 = idx + (1 + (1 + (i + m))) by omega, span_add, span_add, span_add, span_add]
      congr 1
      · refine span_congr (fun l hl => ?_)
        rw [hkid _ (by omega), slot_of_out (by omega) (by omega)]
      · rw [← List.singleton_append (l := _ :: _), ← List.singleton_append (l := _ ++ _)]
        congr 1
        · rw [span_succ, hkid _ (by omega), slot_of_out (by omega) (by omega), Nat.zero_add]; rfl
        · congr 1
          · rw [span_succ, Nat.zero_add, hr]; rfl
          · congr 1
            · refine span_congr (fun l hl => ?_)
              rw [hkid _ (by omega), slot_of_up (by omega)]
              congr 1; omega
            · refine span_congr (fun l hl => ?_)
              rw [hkid _ (by omega), slot_of_out (by omega) (by omega)]
              congr 1; omega

end Kids

/-! ## つながり -/

/-- 値がすべて nil の葉。 -/
structure Dead (h : Heap K Q) (x : Addr) : Prop where
  leaf : (h.get x).innerp = false
  n_le : (h.get x).n ≤ 63
  nil : ∀ i, i < (h.get x).n → ((h.get x).value i).nilP = true

/-- `s` から `next` をたどると、`W` を通って `e` に着く。`W` にはブロック `B` が順に現れ、残りは空の葉である。 -/
structure Seg (h : Heap K Q) (B : List (List Addr)) (s : Option Addr) (W : List Addr) (e : Option Addr) : Prop where
  path : Path (fun x => (h.get x).next) s W e
  woven : Woven (Dead h) B W
  nodup : W.Nodup
  lt : ∀ x ∈ W, x < h.size

theorem Seg.split (S : Seg h (B₁ ++ B₂) s W e) :
    ∃ W₁ W₂ m, W = W₁ ++ W₂ ∧ Seg h B₁ s W₁ m ∧ Seg h B₂ m W₂ e := by
  obtain ⟨W₁, W₂, rfl, h₁, h₂⟩ := S.woven.split rfl
  obtain ⟨m, p₁, p₂⟩ := Path.append.mp S.path
  obtain ⟨n₁, n₂, _⟩ := List.nodup_append.mp S.nodup
  exact ⟨W₁, W₂, m, rfl, ⟨p₁, h₁, n₁, fun x hx => S.lt x (List.mem_append_left _ hx)⟩,
    ⟨p₂, h₂, n₂, fun x hx => S.lt x (List.mem_append_right _ hx)⟩⟩

theorem Seg.append {W₁ W₂ : List Addr} {m : Option Addr} (S₁ : Seg h B₁ s W₁ m) (S₂ : Seg h B₂ m W₂ e)
    (hd : ∀ x ∈ W₁, x ∉ W₂) : Seg h (B₁ ++ B₂) s (W₁ ++ W₂) e := by
  refine ⟨Path.append.mpr ⟨m, S₁.path, S₂.path⟩, S₁.woven.append S₂.woven, ?_, ?_⟩
  · exact List.nodup_append.mpr ⟨S₁.nodup, S₂.nodup, fun x hx y hy he => hd x hx (he ▸ hy)⟩
  · intro x hx
    rcases List.mem_append.mp hx with hx | hx
    · exact S₁.lt x hx
    · exact S₂.lt x hx

/-- `next` と、ブロックに入らない空の葉が変わらなければ、つながりは変わらない。 -/
theorem Seg.frame (S : Seg h B s W e) (hsz : h.size ≤ h'.size) (hnext : ∀ x ∈ W, (h'.get x).next = (h.get x).next)
    (hdead : ∀ x ∈ W, x ∉ B.flatten → Dead h x → Dead h' x) : Seg h' B s W e :=
  ⟨S.path.congr hnext, S.woven.mono S.nodup hdead, S.nodup, fun x hx => Nat.lt_of_lt_of_le (S.lt x hx) hsz⟩

theorem Dead.of_get_eq (hd : Dead h x) (he : h'.get x = h.get x) : Dead h' x :=
  ⟨by rw [he]; exact hd.leaf, by rw [he]; exact hd.n_le, by rw [he]; exact hd.nil⟩

/-! ## 分割とつながり -/

/-- 内部の節を分けると、子の並びも二つに分かれる。 -/
theorem Node.Cut.kids {t t₁ t₂ : Node K Q} (C : t.Cut t₁ t₂) (hi : t.innerp = true) (hn : t.n = 63) :
    t.kids = t₁.kids ++ t₂.kids := by
  have h₁ : t₁.n = 31 := by rw [C.l_n, hi]; rfl
  have h₂ : t₂.n = 31 := C.r_n
  rw [Node.kids_eq, Node.kids_eq, Node.kids_eq, hn, h₁, h₂, show 63 + 1 = 32 + 32 from rfl, span_add]
  congr 1
  · refine span_congr (fun j hj => ?_)
    rw [C.l_kid (by rw [piv_eq]; omega)]
  · refine span_congr (fun j hj => ?_)
    rw [C.r_kid (by rw [piv_eq]; omega), piv_eq]
    congr 1; omega

theorem Halves.kids {c l r : Addr} (H : Halves h h' descp (d + 1) c l r) (hs : Sub h descp (d + 1) 63 c lo hi)
    (hn : (h.get c).n = 63) : (h.get c).kids = (h'.get l).kids ++ (h'.get r).kids :=
  H.cut.kids hs.2.1.innerp hn

/-- 内部の節を分けても、葉の並びは変わらない。 -/
theorem Halves.woven {c l r : Addr} {D : Addr → Prop} (H : Halves h h' descp (d + 1) c l r)
    (hs : Sub h descp (d + 1) 63 c lo hi) (hn : (h.get c).n = 63)
    (hw : Woven D (B₁ ++ (blocks h (d + 1) c ++ B₂)) W) :
    Woven D (B₁ ++ (blocks h' (d + 1) l ++ blocks h' (d + 1) r ++ B₂)) W := by
  have hk := H.kids hs hn
  cases d with
  | zero =>
      simp only [blocks, hk, List.singleton_append] at hw
      exact hw.cut
  | succ d =>
      have hfr : ∀ x ∈ (h.get c).kids, blocks h' (d + 1) x = blocks h (d + 1) x := by
        intro x hx
        obtain ⟨i, hi', rfl⟩ := Node.mem_kids.mp hx
        exact (hs.2.1.kids i hi').blocks_frame (fun y hy => (H.kid_same hs hi' y hy).2)
      have he : blocks h' (d + 2) l ++ blocks h' (d + 2) r = blocks h (d + 2) c := by
        simp only [blocks, ← List.flatMap_append]
        rw [← hk]
        exact List.flatMap_congr hfr
      rw [he]; exact hw

section Split
variable {idx nul : Nat}

/-- 内部の節を分けても、葉は変わらない。使い回した節の下の葉は、空の葉として残る。 -/
theorem Splitted.seg_inner (R : Ready h descp (d + 1) a lo hi idx) (S : Splitted h h' a idx nul)
    (hnul : nul ≤ (h.get a).n + 1) (hne : nul ≠ idx)
    (hnil : nul ≤ (h.get a).n → ∀ y v, Has h (d + 1) ((h.get a).kid nul) y v → v.nilP = true)
    (G : Seg h (blocks h (d + 2) a) s W e) : Seg h' (blocks h' (d + 2) a) s W e := by
  have hkids : ∀ x ∈ (h.get a).kids, ∃ lo hi, Sub h descp (d + 1) 63 x lo hi := by
    intro x hx
    obtain ⟨i, hi', rfl⟩ := Node.mem_kids.mp hx
    exact ⟨_, _, R.kid_sub hi'⟩
  have hinner : ∀ i, i ≤ (h.get a).n → (h.get ((h.get a).kid i)).innerp = true :=
    fun i hi' => (R.kid_sub hi').2.1.innerp
  have hleaf : ∀ x ∈ W, (h.get x).innerp = false := by
    intro x hx
    rcases G.woven.mem x hx with hb | hd
    · simp only [blocks, List.mem_flatten, List.mem_flatMap] at hb
      obtain ⟨b, ⟨y, hy, hb⟩, hx⟩ := hb
      obtain ⟨_, _, hsub⟩ := hkids y hy
      exact (hsub.mem_blocks.mp (List.mem_flatten.mpr ⟨b, hb, hx⟩)).2
    · exact hd.leaf
  -- 並びの葉は、書き換える番地のどれでもない。
  have hget : ∀ x ∈ W, h'.get x = h.get x := by
    intro x hx
    have hl := hleaf x hx
    have hlt := G.lt x hx
    have hk : ∀ i, i ≤ (h.get a).n → x ≠ (h.get a).kid i := by
      rintro i hi' rfl; rw [hinner i hi'] at hl; cases hl
    refine S.rest x hlt ?_ (hk idx R.idx_le) ?_ (fun hle _ => hk _ (by omega))
    · rintro rfl; rw [R.twig.innerp] at hl; cases hl
    · unfold spareAddr
      split
      · exact Nat.ne_of_lt hlt
      · exact hk nul (by omega)
  have G' : Seg h' (blocks h (d + 2) a) s W e :=
    G.frame (Splitted.size_le R S hnul hne) (fun x hx => by rw [hget x hx])
      (fun x hx _ hd => hd.of_get_eq (hget x hx))
  refine { G' with woven := ?_ }
  have hw := G'.woven
  have H := Splitted.halves R S hnul hne
  have hc := R.kid_sub R.idx_le
  -- 分けた子と使い回した子のほかの子の部分木は変わらない。
  have hfr : ∀ i, i ≤ (h.get a).n → i ≠ nul → i ≠ idx →
      blocks h' (d + 1) ((h.get a).kid i) = blocks h (d + 1) ((h.get a).kid i) := by
    intro i hi' hin hii
    refine (R.kid_sub hi').blocks_frame (fun y hy => ?_)
    rw [Splitted.kid_same R S hnul hne hi' hin hy (Splitted.ne_chld R S hnul hne hi' hii hy)]
    exact ⟨rfl, rfl, rfl, rfl, fun _ => rfl⟩
  have hcongr : ∀ L : List Addr, (∀ x ∈ L, x ∈ (h.get a).kids) → (∀ x ∈ L, x ≠ (h.get a).kid idx) →
      (nul ≤ (h.get a).n → ∀ x ∈ L, x ≠ (h.get a).kid nul) →
      L.flatMap (blocks h' (d + 1)) = L.flatMap (blocks h (d + 1)) := by
    intro L h₁ h₂ h₃
    refine List.flatMap_congr (fun x hx => ?_)
    obtain ⟨i, hi', rfl⟩ := Node.mem_kids.mp (h₁ x hx)
    refine hfr i hi' ?_ ?_
    · rintro rfl; exact h₃ hi' _ hx rfl
    · rintro rfl; exact h₂ _ hx rfl
  have hnd : (h.get a).kids.Nodup := by
    refine List.Nodup.map_on (fun i hi' j hj he => ?_) List.nodup_range
    by_contra hij
    simp only [List.mem_range] at hi' hj
    exact R.kid_inj (by omega) (by omega) hij he
  have main : ∀ A C : List Addr, (∀ x ∈ A ++ (h.get a).kid idx :: C, x ∈ (h.get a).kids) →
      (A ++ (h.get a).kid idx :: C).Nodup →
      (nul ≤ (h.get a).n → ∀ x ∈ A ++ (h.get a).kid idx :: C, x ≠ (h.get a).kid nul) →
      Woven (Dead h') ((A ++ (h.get a).kid idx :: C).flatMap (blocks h (d + 1))) W →
      Woven (Dead h') ((A ++ (h.get a).kid idx :: spareAddr h (h.get a) nul :: C).flatMap (blocks h' (d + 1))) W := by
    intro A C hsub hn hsp hw
    obtain ⟨_, hn₂, hdisj⟩ := List.nodup_append.mp hn
    have hA := hcongr A (fun x hx => hsub x (List.mem_append_left _ hx))
      (fun x hx he => hdisj x hx _ List.mem_cons_self he) (fun hle x hx => hsp hle x (List.mem_append_left _ hx))
    have hC := hcongr C (fun x hx => hsub x (by simp [hx]))
      (fun x hx he => (List.nodup_cons.mp hn₂).1 (he ▸ hx)) (fun hle x hx => hsp hle x (by simp [hx]))
    rw [List.flatMap_append, List.flatMap_cons] at hw
    rw [List.flatMap_append, List.flatMap_cons, List.flatMap_cons, hA, hC, ← List.append_assoc (blocks h' _ _)]
    exact H.woven hc R.full hw
  by_cases hf : (h.get a).n < nul
  · obtain ⟨A, C, hk, hk'⟩ := S.kids_fresh R.twig.n_le R.idx_le hnul hne hf
    simp only [blocks] at hw ⊢
    rw [hk] at hw hnd
    rw [hk']
    exact main A C (fun x hx => by rw [hk]; exact hx) hnd (fun hle => by omega) hw
  · have hle : nul ≤ (h.get a).n := by omega
    obtain ⟨A, C, A', C', hk, hAC, hk', _⟩ := S.kids_spare R.twig.n_le R.idx_le hnul hne hle
    simp only [blocks] at hw ⊢
    rw [hk] at hnd
    have hsp : spareAddr h (h.get a) nul = (h.get a).kid nul := if_neg hf
    rw [hk', ← hsp]
    have hnd' := (List.nodup_middle.mp hnd)
    rw [List.nodup_cons, hAC] at hnd'
    refine main A' C' (fun x hx => ?_) hnd'.2 (fun _ x hx he => hnd'.1 (he ▸ hx)) ?_
    · rw [← hAC] at hx
      rw [hk]
      rcases List.mem_append.mp hx with hx | hx
      · exact List.mem_append_left _ hx
      · exact List.mem_append_right _ (List.mem_cons_of_mem _ hx)
    · rw [← hAC, List.flatMap_append]
      rw [hk, List.flatMap_append, List.flatMap_cons] at hw
      refine hw.drop (fun x hx => ?_)
      have hsub := R.kid_sub hle
      obtain ⟨hm, hl⟩ := hsub.mem_blocks.mp hx
      have hxW : x ∈ W := by
        refine G.woven.sublist.mem ?_
        simp only [blocks]
        rw [hk, List.flatMap_append, List.flatMap_cons, List.flatten_append, List.flatten_append]
        simp [hx]
      refine Dead.of_get_eq ⟨hl, hsub.mem_n_le (Nat.le_refl _) hm, fun i hi' => ?_⟩ (hget x hxW)
      obtain ⟨y, hy⟩ := hsub.leaf_key hm hl hi'
      exact hnil hle y _ (hsub.has_iff_cell.mpr ⟨⟨x, i⟩, ⟨hm, hl, hi', hy⟩, rfl⟩)

/-! ### 葉の分割

葉の並びは、手前の空の葉 `X`、親の子の並び、後ろの空の葉 `Y` からなる。 -/

section Row
variable {X Y : List Addr} (R : Ready h descp 0 a lo hi idx) (S : Splitted h h' a idx nul)
  (hnul : nul ≤ (h.get a).n + 1) (hne : nul ≠ idx) (G : Seg h [(h.get a).kids] s (X ++ ((h.get a).kids ++ Y)) e)
  (hX : ∀ x ∈ X, Dead h x) (hY : ∀ x ∈ Y, Dead h x)
include R S hnul hne G hX hY

/-- 分けた子・`RGHT`・外した子の手前の葉を除いて、並びの葉は変わらない。 -/
theorem Splitted.row_rest (hx : x ∈ X ++ ((h.get a).kids ++ Y)) (h₁ : x ≠ (h.get a).kid idx)
    (h₂ : x ≠ spareAddr h (h.get a) nul)
    (h₃ : nul ≤ (h.get a).n → nul ≠ 0 → x ≠ (h.get a).kid (nul - 1)) : h'.get x = h.get x := by
  refine S.rest x (G.lt x hx) ?_ h₁ h₂ h₃
  rintro rfl
  have hinner := R.twig.innerp
  rcases List.mem_append.mp hx with hx | hx
  · rw [(hX _ hx).leaf] at hinner; cases hinner
  · rcases List.mem_append.mp hx with hx | hx
    · obtain ⟨i, hi', he⟩ := Node.mem_kids.mp hx
      exact R.kid_ne_self hi' he
    · rw [(hY _ hx).leaf] at hinner; cases hinner

theorem Splitted.row_same (hx : x ∈ X ∨ x ∈ Y) : h'.get x = h.get x := by
  have hmem : x ∈ X ++ ((h.get a).kids ++ Y) := by
    rcases hx with hx | hx <;> simp [hx]
  have hout : ∀ i, i ≤ (h.get a).n → x ≠ (h.get a).kid i := by
    obtain ⟨_, hn₂, hd₁⟩ := List.nodup_append.mp G.nodup
    obtain ⟨_, _, hd₂⟩ := List.nodup_append.mp hn₂
    rintro i hi' rfl
    have hk : (h.get a).kid i ∈ (h.get a).kids := Node.mem_kids.mpr ⟨i, hi', rfl⟩
    rcases hx with hx | hx
    · exact hd₁ _ hx _ (List.mem_append_left _ hk) rfl
    · exact hd₂ _ hk _ hx rfl
  refine Splitted.row_rest R S hnul hne G hX hY hmem (hout idx R.idx_le) ?_ (fun hle _ => hout _ (by omega))
  unfold spareAddr
  split
  · exact Nat.ne_of_lt (G.lt x hmem)
  · exact hout nul (by omega)

theorem Splitted.row_woven {X' : List Addr} (hX' : ∀ x ∈ X', x ∈ X) :
    Woven (Dead h') [(h'.get a).kids] (X' ++ ((h'.get a).kids ++ Y)) := by
  have hdead : ∀ x, x ∈ X ∨ x ∈ Y → Dead h x → Dead h' x :=
    fun x hx hd => hd.of_get_eq (Splitted.row_same R S hnul hne G hX hY hx)
  exact (Woven.skips (fun x hx => hdead x (Or.inl (hX' x hx)) (hX x (hX' x hx)))).append
    (Woven.block _ (Woven.skips (fun x hx => hdead x (Or.inr hx) (hY x hx))))

/-- 確保した節は、分けた子の直後に入る。 -/
theorem Splitted.seg_fresh (hf : (h.get a).n < nul) :
    Seg h' [(h'.get a).kids] s (X ++ ((h'.get a).kids ++ Y)) e := by
  obtain ⟨A, C, hk, hk'⟩ := S.kids_fresh R.twig.n_le R.idx_le hnul hne hf
  have hsp : spareAddr h (h.get a) nul = h.size := if_pos hf
  have hW : X ++ ((h.get a).kids ++ Y) = X ++ A ++ (h.get a).kid idx :: (C ++ Y) := by
    rw [hk]; simp
  have hW' : X ++ ((h'.get a).kids ++ Y) = X ++ A ++ (h.get a).kid idx :: spareAddr h (h.get a) nul :: (C ++ Y) := by
    rw [hk']; simp
  have hnd := G.nodup
  have hp := G.path
  rw [hW] at hnd hp
  have hmem : ∀ x ∈ X ++ A ++ (C ++ Y), x ∈ X ++ ((h.get a).kids ++ Y) := by
    intro x hx
    rw [hW]
    rcases List.mem_append.mp hx with hx | hx
    · exact List.mem_append_left _ hx
    · exact List.mem_append_right _ (List.mem_cons_of_mem _ hx)
  have hlt : ∀ x ∈ X ++ ((h.get a).kids ++ Y), x ≠ spareAddr h (h.get a) nul := by
    intro x hx; rw [hsp]; exact Nat.ne_of_lt (G.lt x hx)
  obtain ⟨hc, _⟩ := List.nodup_cons.mp (List.nodup_middle.mp hnd)
  refine ⟨?_, Splitted.row_woven R S hnul hne G hX hY (fun _ hx => hx), ?_, ?_⟩
  · rw [hW']
    refine hp.insert ?_ ?_ (fun y hy => ?_)
    · rw [S.chld]; rfl
    · rw [S.rght]
      simp only [chldNext]
      rw [if_neg (by omega)]
    · rw [Splitted.row_rest R S hnul hne G hX hY (hmem y hy) (by rintro rfl; exact hc hy) (hlt y (hmem y hy))
        (fun hle => absurd hf (Nat.not_lt.mpr hle))]
  · have hperm : (X ++ A ++ (h.get a).kid idx :: spareAddr h (h.get a) nul :: (C ++ Y)).Perm
        (spareAddr h (h.get a) nul :: (X ++ A ++ (h.get a).kid idx :: (C ++ Y))) := by
      rw [List.append_cons, List.append_cons (X ++ A) _ (C ++ Y)]
      exact List.perm_middle
    rw [hW', hperm.nodup_iff, List.nodup_cons]
    refine ⟨fun hm => hlt _ (by rw [hW]; exact hm) rfl, hnd⟩
  · intro x hx
    rw [hW', List.append_cons] at hx
    by_cases hxs : x = spareAddr h (h.get a) nul
    · rw [hxs]; exact Splitted.rght_lt R S hnul hne
    · refine Nat.lt_of_lt_of_le (G.lt x ?_) (Splitted.size_le R S hnul hne)
      rw [hW, List.append_cons]
      rcases List.mem_append.mp hx with hx | hx
      · exact List.mem_append_left _ hx
      · exact List.mem_append_right _ ((List.mem_cons.mp hx).resolve_left hxs)

/-- 使い回した葉は、外してから、分けた子の直後に入る。先頭の葉を使い回すと、並びの始まりが変わる。 -/
theorem Splitted.seg_spare (hle : nul ≤ (h.get a).n) : ∃ s' X',
    Seg h' [(h'.get a).kids] s' (X' ++ ((h'.get a).kids ++ Y)) e ∧ (∀ x ∈ X', x ∈ X) ∧ (s' = s ∨ nul = 0) := by
  obtain ⟨A, C, A', C', hk, hAC, hk', hA⟩ := S.kids_spare R.twig.n_le R.idx_le hnul hne hle
  have hsp : spareAddr h (h.get a) nul = (h.get a).kid nul := if_neg (by omega)
  have hperm : (h'.get a).kids.Perm (h.get a).kids := by
    have h₁ : (h'.get a).kids.Perm ((h.get a).kid nul :: (A' ++ (h.get a).kid idx :: C')) := by
      rw [hk', List.append_cons, List.append_cons A' _ C']; exact List.perm_middle
    have h₂ : (h.get a).kids.Perm ((h.get a).kid nul :: (A ++ C)) := by
      rw [hk]; exact List.perm_middle
    rw [hAC] at h₂
    exact h₁.trans h₂.symm
  have hnd := G.nodup
  -- 使い回す葉を外したときの `next`。分けた子の `next` は `chldNext` になる。
  let next₁ : Addr → Option Addr := fun x =>
    if nul ≠ 0 ∧ x = (h.get a).kid (nul - 1) then (h.get ((h.get a).kid nul)).next else (h.get x).next
  have hfin : ∀ s' X', (∀ x ∈ X', x ∈ X) → X'.Nodup →
      Path next₁ s' (X' ++ (A' ++ (h.get a).kid idx :: C') ++ Y) e →
      Seg h' [(h'.get a).kids] s' (X' ++ ((h'.get a).kids ++ Y)) e := by
    intro s' X' hX' hnX hp
    have hW' : X' ++ ((h'.get a).kids ++ Y) =
        X' ++ A' ++ (h.get a).kid idx :: (h.get a).kid nul :: (C' ++ Y) := by
      rw [hk']; simp
    rw [show X' ++ (A' ++ (h.get a).kid idx :: C') ++ Y = X' ++ A' ++ (h.get a).kid idx :: (C' ++ Y) by simp] at hp
    have hsub : ∀ x ∈ X' ++ ((h'.get a).kids ++ Y), x ∈ X ++ ((h.get a).kids ++ Y) := by
      intro x hx
      rcases List.mem_append.mp hx with hx | hx
      · exact List.mem_append_left _ (hX' x hx)
      · rcases List.mem_append.mp hx with hx | hx
        · exact List.mem_append_right _ (List.mem_append_left _ (hperm.subset hx))
        · exact List.mem_append_right _ (List.mem_append_right _ hx)
    have hnd' : (X' ++ ((h'.get a).kids ++ Y)).Nodup := by
      obtain ⟨_, hn₂, hd₁⟩ := List.nodup_append.mp hnd
      refine List.nodup_append.mpr ⟨hnX, ((hperm.append_right Y).nodup_iff).mpr hn₂, fun x hx y hy => ?_⟩
      exact hd₁ x (hX' x hx) y ((hperm.append_right Y).subset hy)
    refine ⟨?_, Splitted.row_woven R S hnul hne G hX hY hX', hnd', fun x hx => ?_⟩
    · rw [hW']
      refine hp.insert ?_ ?_ (fun y hy => ?_)
      · rw [S.chld, ← hsp]; rfl
      · rw [← hsp, S.rght]
        simp only [chldNext, next₁]
        by_cases hadj : nul = idx + 1
        · rw [if_pos ⟨hle, hadj⟩, if_pos ⟨by omega, by rw [hadj]; rfl⟩]
        · rw [if_neg (by omega), if_neg (fun hh => R.kid_inj R.idx_le (by omega) (by omega) hh.2)]
      · have hyW : y ∈ X ++ ((h.get a).kids ++ Y) := by
          refine hsub y ?_
          rw [hW']
          rcases List.mem_append.mp hy with hy | hy
          · exact List.mem_append_left _ hy
          · exact List.mem_append_right _ (List.mem_cons_of_mem _ (List.mem_cons_of_mem _ hy))
        rw [hW', List.nodup_middle, List.nodup_cons, List.nodup_middle, List.nodup_cons] at hnd'
        have hy₁ : y ≠ (h.get a).kid idx := by
          rintro rfl
          refine hnd'.1 ?_
          rcases List.mem_append.mp hy with hy | hy
          · exact List.mem_append_left _ hy
          · exact List.mem_append_right _ (List.mem_cons_of_mem _ hy)
        have hy₂ : y ≠ spareAddr h (h.get a) nul := by
          rw [hsp]
          rintro rfl
          exact hnd'.2.1 hy
        simp only [next₁]
        by_cases hp' : nul ≠ 0 ∧ y = (h.get a).kid (nul - 1)
        · obtain ⟨h0, rfl⟩ := hp'
          rw [if_pos ⟨h0, rfl⟩, S.prev hle h0 (by rintro rfl; exact hy₁ rfl)]
        · rw [if_neg hp', Splitted.row_rest R S hnul hne G hX hY hyW hy₁ hy₂ (fun _ h0 he => hp' ⟨h0, he⟩)]
    · exact Nat.lt_of_lt_of_le (G.lt x (hsub x hx)) (Splitted.size_le R S hnul hne)
  rcases hA with ⟨h0, rfl⟩ | ⟨h0, A₀, rfl⟩
  · have hp := G.path
    rw [hk, List.nil_append] at hp
    obtain ⟨m, _, hp⟩ := Path.append.mp hp
    obtain ⟨_, hp⟩ := hp
    refine ⟨(h.get ((h.get a).kid nul)).next, [], hfin _ [] (fun _ hx => (by cases hx)) List.nodup_nil ?_,
      fun _ hx => (by cases hx), Or.inr h0⟩
    rw [List.nil_append, ← hAC, List.nil_append]
    refine hp.congr (fun y _ => ?_)
    simp only [next₁]
    rw [if_neg (fun hh => hh.1 h0)]
  · have hW : X ++ ((h.get a).kids ++ Y) =
        (X ++ A₀) ++ (h.get a).kid (nul - 1) :: (h.get a).kid nul :: (C ++ Y) := by
      rw [hk]; simp
    have hp := G.path
    rw [hW] at hp
    have hnd' := hnd
    rw [hW] at hnd'
    obtain ⟨hprev, _⟩ := List.nodup_cons.mp (List.nodup_middle.mp hnd')
    refine ⟨s, X, hfin s X (fun _ hx => hx) (List.nodup_append.mp hnd).1 ?_, fun _ hx => hx, Or.inl rfl⟩
    rw [← hAC]
    have hp' : Path next₁ s (X ++ A₀ ++ (h.get a).kid (nul - 1) :: (C ++ Y)) e := by
      refine hp.remove ?_ (fun y hy => ?_)
      · simp only [next₁]; rw [if_pos ⟨h0, trivial⟩]
      · simp only [next₁]
        rw [if_neg]
        rintro ⟨_, rfl⟩
        refine hprev ?_
        rcases List.mem_append.mp hy with hy | hy
        · exact List.mem_append_left _ hy
        · exact List.mem_append_right _ (List.mem_cons_of_mem _ hy)
    simpa using hp'

end Row

theorem Splitted.seg_leaf (R : Ready h descp 0 a lo hi idx) (S : Splitted h h' a idx nul)
    (hnul : nul ≤ (h.get a).n + 1) (hne : nul ≠ idx) (G : Seg h (blocks h 1 a) s W e) :
    ∃ s' W', Seg h' (blocks h' 1 a) s' W' e ∧ (s' = s ∨ nul = 0) ∧ ∀ x ∈ W', x ∈ W ∨ h.size ≤ x := by
  simp only [blocks] at G ⊢
  obtain ⟨X, Y, rfl, hX, hY⟩ := G.woven.cons
  have hY := hY.of_nil rfl
  have hsub : ∀ X' : List Addr, (∀ x ∈ X', x ∈ X) → ∀ x ∈ X' ++ ((h'.get a).kids ++ Y),
      x ∈ X ++ ((h.get a).kids ++ Y) ∨ h.size ≤ x := by
    intro X' hX' x hx
    rcases List.mem_append.mp hx with hx | hx
    · exact Or.inl (List.mem_append_left _ (hX' x hx))
    · rcases List.mem_append.mp hx with hx | hx
      · obtain ⟨i, hi', rfl⟩ := Node.mem_kids.mp hx
        rcases Splitted.mem R S hnul hne (Mem.kid hi' (Mem.self h' 0 _)) with hm | hge
        · rcases hm with he | ⟨j, hj, he⟩
          · exact absurd (Mem.self h' 0 _) (he ▸ (Splitted.apart R S hnul hne).self i hi')
          · refine Or.inl (List.mem_append_right _ (List.mem_append_left _ ?_))
            exact Node.mem_kids.mpr ⟨j, hj, he.symm⟩
        · exact Or.inr hge
      · exact Or.inl (List.mem_append_right _ (List.mem_append_right _ hx))
  by_cases hf : (h.get a).n < nul
  · exact ⟨s, _, Splitted.seg_fresh R S hnul hne G hX hY hf, Or.inl rfl, hsub X (fun _ hx => hx)⟩
  · obtain ⟨s', X', G', hX', hs'⟩ := Splitted.seg_spare R S hnul hne G hX hY (by omega)
    exact ⟨s', _, G', hs', hsub X' hX'⟩

end Split

end Books.Btree
