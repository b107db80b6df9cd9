import Books.Btree.Lemmas.ChainRun
import Books.Btree.Lemmas.Values
import Books.Btree.Nodes.Spec

/-!
# 節の増え方

`btree_put` は、節の `n` を、31 以上に分けるときのほかは減らさない。空いた内部の節を使い回すと、その子がたどれなくなり、
使い回さない限り、どの節もたどれるままである。
-/

set_option linter.unusedSectionVars false

namespace Books.Btree

open Books.Lib

variable {K Q : Type} [LinearOrder K] [LinearOrder Q] [Zero Q]
variable {descp : Bool} {h h' : Heap K Q} {lo hi : Option K} {d cap fuel : Nat} {a x : Addr} {k : K} {r : Added K Q} {w : Bool}

/-! ## たどれる節 -/

theorem Sub.reached_iff : ∀ {d cap : Nat} {a : Addr} {lo hi : Option K}, Sub h descp d cap a lo hi →
    (Reached h a x ↔ Mem h d a x)
  | 0, _, a, _, _, hs => by
      constructor
      · intro hr
        cases hr with
        | self => rfl
        | kid hi' =>
            rw [hs.2.innerp] at hi'
            cases hi'
      · rintro rfl
        exact .self _
  | d + 1, _, a, _, _, hs => by
      constructor
      · intro hr
        cases hr with
        | self => exact Mem.self h _ _
        | kid _ hi' hr => exact Mem.kid hi' ((hs.2.1.kids _ hi').reached_iff.mp hr)
      · rintro (rfl | ⟨i, hi', hx⟩)
        · exact .self _
        · exact .kid hs.2.1.innerp hi' ((hs.2.1.kids i hi').reached_iff.mpr hx)

/-! ## 部分木への追加 -/

/-- 部分木 `a` への追加で、31 個に満たない節の `n` は減らない。`w` が偽ならばどの節もたどれるままであり、真ならばたどれなく
なる節がある。 -/
structure Grown (h : Heap K Q) (d : Nat) (a : Addr) (h' : Heap K Q) (w : Bool) : Prop where
  filled : ∀ x, Mem h' d a x → 31 ≤ (h'.get x).n ∨ (Mem h d a x ∧ (h.get x).n ≤ (h'.get x).n)
  kept : w = false → ∀ x, Mem h d a x ∨ (h.size ≤ x ∧ x < h'.size) → Mem h' d a x
  lost : w = true → ∃ x, Mem h d a x ∧ ¬ Mem h' d a x

theorem Node.leafAdd_n_le (t : Node K Q) (k : Option K) : t.n ≤ (t.leafAdd k).1.n := by
  cases hk : keyEq k (t.key.get (t.seek k)) with
  | true => rw [Node.leafAdd_found hk]
  | false =>
      rw [Node.leafAdd_n hk]
      exact Nat.le_add_right _ _

theorem Sub.leafAdd_grown (hs : Sub h descp 0 cap a lo hi) (k : Option K) : Grown h 0 a (leafAdd h a k).heap false := by
  refine ⟨fun x hx => ?_, fun _ x hx => ?_, fun hw => (by cases hw)⟩
  · obtain rfl : x = a := hx
    refine Or.inr ⟨rfl, ?_⟩
    rw [show (leafAdd h x k).heap.get x = ((h.get x).leafAdd k).1 from Heap.get_set_eq _ hs.1]
    exact Node.leafAdd_n_le _ _
  · rcases hx with hx | ⟨hle, hlt⟩
    · exact hx
    · simp only [leafAdd, Heap.size_set] at hlt
      exact absurd hlt (Nat.not_lt_of_le hle)

section Twig
variable (hs : Sub h descp (d + 1) 62 a lo hi) {idx : Nat} (hidx : idx ≤ (h.get a).n)
  (A : AddOk h descp d ((h.get a).kid idx) ((h.get a).lower lo idx) ((h.get a).upper hi idx) k r)
  (G : Grown h d ((h.get a).kid idx) r.heap w)
include hs hidx A G

/-- 子への追加の後、分割の前の親の部分木。 -/
theorem AddOk.grown_parent : Grown h (d + 1) a r.heap w := by
  have hp := A.parent hs hidx
  refine ⟨fun x hx => ?_, fun hw x hx => ?_, fun hw => ?_⟩
  · rcases hx with rfl | ⟨i, hi', hx⟩
    · exact Or.inr ⟨Mem.self h _ _, by rw [hp]⟩
    · rw [hp] at hi' hx
      by_cases he : i = idx
      · subst he
        exact (G.filled x hx).imp_right (fun hx => ⟨Mem.kid hi' hx.1, hx.2⟩)
      · have hx' := (A.other_mem hs hidx hi' he).mp hx
        exact Or.inr ⟨Mem.kid hi' hx', by rw [(A.other hs hidx hi' he hx').2]⟩
  · have hkid : Mem h d ((h.get a).kid idx) x ∨ (h.size ≤ x ∧ x < r.heap.size) → Mem r.heap (d + 1) a x := by
      intro hx
      refine Mem.kid (i := idx) ?_ ?_
      · rw [hp]; exact hidx
      · rw [hp]; exact G.kept hw x hx
    rcases hx with (rfl | ⟨i, hi', hx⟩) | hx
    · exact Mem.self _ _ _
    · by_cases he : i = idx
      · subst he
        exact hkid (Or.inl hx)
      · refine Mem.kid (i := i) ?_ ?_
        · rw [hp]; exact hi'
        · rw [hp]; exact (A.other_mem hs hidx hi' he).mpr hx
    · exact hkid (Or.inr hx)
  · obtain ⟨x, hx, hx'⟩ := G.lost hw
    refine ⟨x, Mem.kid hidx hx, ?_⟩
    rintro (rfl | ⟨i, hi', hm⟩)
    · exact hs.2.2.self idx hidx hx
    · rw [hp] at hi' hm
      by_cases he : i = idx
      · subst he
        exact hx' hm
      · exact hs.2.2.kids i idx x hi' hidx he ((A.other_mem hs hidx hi' he).mp hm) hx

end Twig

/-! ## 節の分割 -/

namespace Splitted

variable {idx nul : Nat} (R : Ready h descp d a lo hi idx) (S : Splitted h h' a idx nul)
  (hnul : nul ≤ (h.get a).n + 1) (hne : nul ≠ idx)
include R S hnul hne

theorem filled (hx : Mem h' (d + 1) a x) : 31 ≤ (h'.get x).n ∨ (Mem h (d + 1) a x ∧ (h.get x).n ≤ (h'.get x).n) := by
  have H := halves R S hnul hne
  by_cases h₁ : x = a
  · subst h₁
    refine Or.inr ⟨Mem.self h _ _, ?_⟩
    rw [n_eq R S hnul hne]
    exact Nat.le_add_right _ _
  · by_cases h₂ : x = (h.get a).kid idx
    · subst h₂
      refine Or.inl ?_
      rw [H.l_n, piv_eq]
      exact Nat.le_add_right _ _
    · by_cases h₃ : x = spareAddr h (h.get a) nul
      · subst h₃
        refine Or.inl ?_
        rw [H.r_n, piv_eq]
      · rcases S.mem R hnul hne hx with hm | hle
        · have hlt : x < h.size := by
            rcases hm with rfl | ⟨i, hi', hm⟩
            · exact absurd rfl h₁
            · exact (R.kid_sub hi').mem_lt_size hm
          refine Or.inr ⟨hm, ?_⟩
          rw [S.next_only hlt h₁ h₂ h₃]
        · -- 確保した節は `RGHT` だけである。
          exfalso
          rcases hx with rfl | ⟨i, hi', hx⟩
          · exact h₁ rfl
          · rcases mem_kid R S hnul hne hi' hx with ⟨_, rfl | hm⟩ | ⟨hr, hm⟩
            · exact h₃ rfl
            · exact Nat.lt_irrefl _ (Nat.lt_of_lt_of_le ((R.kid_sub R.idx_le).mem_lt_size hm) hle)
            · rw [n_eq R S hnul hne] at hi'
              have hb := kidSlot_bounds R.twig.n_le R.idx_le hnul hne hr hi'
              exact Nat.lt_irrefl _ (Nat.lt_of_lt_of_le ((R.kid_sub hb.1).mem_lt_size hm) hle)

/-- 節を確保するか、葉を使い回すときは、どの節もたどれるままである。 -/
theorem kept (hspare : (h.get a).n < nul ∨ d = 0) (hx : Mem h (d + 1) a x ∨ (h.size ≤ x ∧ x < h'.size)) :
    Mem h' (d + 1) a x := by
  have hpos := addPos_lt_n R.twig R.idx_le hnul hne
  have hrght : Mem h' (d + 1) a (spareAddr h (h.get a) nul) := by
    refine Mem.kid (i := addPos idx nul + 1) ?_ ?_
    · rw [n_eq R S hnul hne]; exact hpos
    · rw [kid_rght R S hnul hne]; exact Mem.self _ _ _
  rcases hx with (rfl | ⟨m, hm, hx⟩) | ⟨hle, hlt⟩
  · exact Mem.self _ _ _
  · by_cases hmi : m = idx
    · subst hmi
      exact mem_of_chld R S hnul hne hx
    · by_cases hmn : m = nul
      · -- 使い回した葉は `RGHT` である。
        subst hmn
        have hd : d = 0 := hspare.resolve_left (Nat.not_lt_of_le hm)
        subst hd
        obtain rfl : x = (h.get a).kid m := hx
        rwa [spareAddr, if_neg (Nat.not_lt_of_le hm)] at hrght
      · obtain ⟨i, hr, hi', he⟩ := kidSlot_surj R.twig.n_le R.idx_le hnul hne hm hmn
        refine Mem.kid (i := i) ?_ ?_
        · rw [n_eq R S hnul hne]; exact hi'
        · rw [kid_old R S hnul hne hr, he]
          refine ((R.kid_sub hm).mem_frame (fun y hy => ?_)).mpr hx
          rw [kid_same R S hnul hne hm hmn hy (ne_chld R S hnul hne hm hmi hy)]
          exact ⟨rfl, rfl, rfl, rfl, fun _ => rfl⟩
  · rw [S.size] at hlt
    split at hlt
    · rename_i hn
      obtain rfl : x = h.size := Nat.le_antisymm (Nat.le_of_lt_succ hlt) hle
      rwa [spareAddr, if_pos hn] at hrght
    · exact absurd hlt (Nat.not_lt_of_le hle)

/-- 空いた内部の節を使い回すと、その子はたどれなくなる。 -/
theorem lost (hle : nul ≤ (h.get a).n) (hd : 0 < d) : ∃ x, Mem h d ((h.get a).kid nul) x ∧ ¬ Mem h' (d + 1) a x := by
  obtain ⟨d, rfl⟩ := Nat.exists_eq_succ_of_ne_zero hd.ne'
  have hsub := R.kid_sub hle
  have hkid : Mem h (d + 1) ((h.get a).kid nul) ((h.get ((h.get a).kid nul)).kid 0) :=
    Mem.kid (Nat.zero_le _) (Mem.self h d _)
  refine ⟨_, hkid, ?_⟩
  rintro (he | ⟨i, hi', hm⟩)
  · rw [he] at hkid
    exact R.apart.self nul hle hkid
  · rcases mem_kid R S hnul hne hi' hm with ⟨_, he | hm⟩ | ⟨hr, hm⟩
    · rw [spareAddr, if_neg (Nat.not_lt_of_le hle)] at he
      have hself := hsub.2.2.self 0 (Nat.zero_le _)
      rw [he] at hself
      exact hself (Mem.self h d _)
    · exact R.apart.kids nul idx _ hle R.idx_le hne hkid hm
    · rw [n_eq R S hnul hne] at hi'
      have hb := kidSlot_bounds R.twig.n_le R.idx_le hnul hne hr hi'
      exact R.apart.kids _ nul _ hb.1 hle hb.2 hm hkid

end Splitted

/-! ## 内部の節への追加 -/

/-- 子の分割で、節を使い捨てる。 -/
def splitWastes (fuel : Nat) (a : Addr) (r : Added K Q) : Bool :=
  r.splitp && decide (spareIdx fuel r.heap (r.heap.get a) ≤ (r.heap.get a).n)

section Step
variable (hs : Sub h descp (d + 1) 62 a lo hi) (hf : d < fuel)
  (A : AddOk h descp d ((h.get a).kid ((h.get a).seek (some k))) ((h.get a).lower lo ((h.get a).seek (some k)))
    ((h.get a).upper hi ((h.get a).seek (some k))) k r)
  (G : Grown h d ((h.get a).kid ((h.get a).seek (some k))) r.heap w)
include hs hf A G

theorem AddOk.grown_step : Grown h (d + 1) a (r.twig fuel a ((h.get a).seek (some k))).heap
    (w || (decide (0 < d) && splitWastes fuel a r)) := by
  have hidx := (h.get a).seek_le (some k)
  have Gp := A.grown_parent hs hidx G
  cases hsp : r.splitp with
  | false =>
      simp only [Added.twig, splitWastes, hsp, Bool.false_eq_true, if_false, Bool.false_and, Bool.and_false, Bool.or_false]
      exact Gp
  | true =>
      have R := A.ready hs hidx hsp
      have S := R.splitted hf rfl
      have hnul := Ready.nul_le fuel r.heap (r.heap.get a)
      have hne := R.nul_ne hf rfl
      simp only [Added.twig, splitWastes, hsp, if_true, Bool.true_and]
      refine ⟨fun x hx => ?_, fun hw x hx => ?_, fun hw => ?_⟩
      · rcases Splitted.filled R S hnul hne hx with h31 | ⟨hm, hle⟩
        · exact Or.inl h31
        · rcases Gp.filled x hm with h31 | ⟨hm', hle'⟩
          · exact Or.inl (h31.trans hle)
          · exact Or.inr ⟨hm', hle'.trans hle⟩
      · rw [Bool.or_eq_false_iff, Bool.and_eq_false_iff, decide_eq_false_iff_not, decide_eq_false_iff_not] at hw
        refine Splitted.kept R S hnul hne ?_ ?_
        · rcases hw.2 with h0 | hlt
          · exact Or.inr (Nat.eq_zero_of_not_pos h0)
          · exact Or.inl (Nat.lt_of_not_le hlt)
        · by_cases hlt : x < r.heap.size
          · refine Or.inl (Gp.kept hw.1 x (hx.imp_right (fun hx => ⟨hx.1, hlt⟩)))
          · rcases hx with hx | hx
            · exact Or.inl (Gp.kept hw.1 x (Or.inl hx))
            · exact Or.inr ⟨Nat.le_of_not_lt hlt, hx.2⟩
      · cases w with
        | true =>
            obtain ⟨x, hx, hx'⟩ := Gp.lost rfl
            refine ⟨x, hx, fun hm => ?_⟩
            rcases S.mem R hnul hne hm with hm | hle
            · exact hx' hm
            · exact Nat.lt_irrefl _ (Nat.lt_of_lt_of_le (hs.mem_lt_size hx) (A.size_le.trans hle))
        | false =>
            rw [Bool.false_or, Bool.and_eq_true, decide_eq_true_eq, decide_eq_true_eq] at hw
            have hp := A.parent hs hidx
            obtain ⟨x, hx, hx'⟩ := Splitted.lost R S hnul hne hw.2 hw.1
            rw [hp] at hx hw hne
            exact ⟨x, Mem.kid hw.2 ((A.other_mem hs hidx hw.2 hne).mp hx), hx'⟩

end Step

theorem Sub.twigAdd_grown : ∀ {d fuel : Nat} {a : Addr} {lo hi : Option K}, d + 1 < fuel →
    Sub h descp (d + 1) 62 a lo hi → Above descp lo k → Upto descp hi k →
    Grown h (d + 1) a (twigAdd fuel h a (some k)).heap (wastes h fuel a (some k))
  | _, 0, _, _, _, hf, _, _, _ => absurd hf (Nat.not_lt_zero _)
  | 0, fuel + 1, a, _, _, hf, hs, hlo, hhi => by
      have hkid := hs.2.1.kids _ ((h.get a).seek_le (some k))
      obtain ⟨h₁, h₂⟩ := hs.2.1.seek_bounds (by decide) hlo hhi
      have G := (hkid.leafAdd_ok h₁ h₂).grown_step hs (Nat.lt_of_succ_lt_succ hf) (hkid.leafAdd_grown (some k))
      simp only [twigAdd, wastes, hkid.2.innerp, Bool.not_false, if_true]
      exact G
  | d + 1, fuel + 1, a, _, _, hf, hs, hlo, hhi => by
      have hkid := hs.2.1.kids _ ((h.get a).seek_le (some k))
      obtain ⟨h₁, h₂⟩ := hs.2.1.seek_bounds (by decide) hlo hhi
      have hf' : d + 1 < fuel := Nat.lt_of_succ_lt_succ hf
      have G := (Sub.twigAdd_ok hf' hkid h₁ h₂).grown_step hs hf' (Sub.twigAdd_grown hf' hkid h₁ h₂)
      simp only [twigAdd, wastes, hkid.2.1.innerp, Bool.not_true, Bool.false_eq_true, if_false]
      rw [decide_eq_true (Nat.succ_pos d), Bool.true_and] at G
      exact G

end Books.Btree
