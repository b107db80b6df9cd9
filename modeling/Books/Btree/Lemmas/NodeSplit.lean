import Books.Btree.Lemmas.Split
import Books.Btree.Lemmas.Parent

/-!
# `node_split` と `root_split`

分割が書き換える番地を `Splitted` でまとめ、そこから部分木の条件と組が保たれることを導く。
-/

set_option linter.unusedSectionVars false

namespace Books.Btree

open Books.Lib

variable {K Q : Type} [LinearOrder K] [LinearOrder Q] [Zero Q]
variable {descp : Bool} {h h' : Heap K Q} {lo hi : Option K} {d cap fuel : Nat} {a c l r x : Addr}

/-! ## 書き換える番地 -/

/-- `RGHT` の番地。 -/
def spareAddr (h : Heap K Q) (p : Node K Q) (nul : Nat) : Addr := if p.n < nul then h.size else p.kid nul

/-- 書き換える前の `RGHT`。 -/
def spareNode (h : Heap K Q) (p : Node K Q) (idx nul : Nat) : Node K Q :=
  if p.n < nul then .make (h.get (p.kid idx)).descp else h.get (p.kid nul)

/-- `RGHT` に移る `next`。すぐ右の子を使い回すときは、その子の `next` である。 -/
def chldNext (h : Heap K Q) (p : Node K Q) (idx nul : Nat) : Option Addr :=
  if nul ≤ p.n ∧ nul = idx + 1 then (h.get (p.kid nul)).next else (h.get (p.kid idx)).next

/-- `PRNT` の `idx` 番目の子を分けた後のヒープ。 -/
structure Splitted (h h' : Heap K Q) (prnt : Addr) (idx nul : Nat) : Prop where
  size : h'.size = h.size + if (h.get prnt).n < nul then 1 else 0
  parent : h'.get prnt = splitParent (h.get prnt) idx nul ((h.get ((h.get prnt).kid idx)).key.get piv)
    (spareAddr h (h.get prnt) nul)
  rght : h'.get (spareAddr h (h.get prnt) nul) =
    { splitRght (spareNode h (h.get prnt) idx nul) (h.get ((h.get prnt).kid idx)) with
      next := chldNext h (h.get prnt) idx nul }
  chld : h'.get ((h.get prnt).kid idx) =
    splitChld (h.get ((h.get prnt).kid idx)) (spareAddr h (h.get prnt) nul)
  prev : nul ≤ (h.get prnt).n → nul ≠ 0 → nul ≠ idx + 1 → h'.get ((h.get prnt).kid (nul - 1)) =
    { h.get ((h.get prnt).kid (nul - 1)) with next := (h.get ((h.get prnt).kid nul)).next }
  rest : ∀ x, x < h.size → x ≠ prnt → x ≠ (h.get prnt).kid idx → x ≠ spareAddr h (h.get prnt) nul →
    (nul ≤ (h.get prnt).n → nul ≠ 0 → x ≠ (h.get prnt).kid (nul - 1)) → h'.get x = h.get x

/-- 親と子の番地がすべて別々であれば、`node_split` は `Splitted` のとおりに書き換える。 -/
theorem nodeSplit_splitted {prnt : Addr} {idx nul : Nat} (hprnt : prnt < h.size)
    (hself : ∀ i, i ≤ (h.get prnt).n → (h.get prnt).kid i ≠ prnt)
    (hlt : ∀ i, i ≤ (h.get prnt).n → (h.get prnt).kid i < h.size)
    (hinj : ∀ i j, i ≤ (h.get prnt).n → j ≤ (h.get prnt).n → i ≠ j → (h.get prnt).kid i ≠ (h.get prnt).kid j)
    (hidx : idx ≤ (h.get prnt).n) (hnul : spareIdx fuel h (h.get prnt) = nul) (hne : nul ≠ idx) :
    Splitted h (nodeSplit fuel h prnt idx) prnt idx nul := by
  have hcp := hself idx hidx
  have hcl := hlt idx hidx
  unfold nodeSplit
  simp only [hnul]
  by_cases hfresh : (h.get prnt).n < nul
  · -- 節を確保する場合。
    have hs : spareAddr h (h.get prnt) nul = h.size := if_pos hfresh
    have hcs : (h.get prnt).kid idx ≠ h.size := Nat.ne_of_lt hcl
    have hps : prnt ≠ h.size := Nat.ne_of_lt hprnt
    simp only [splitSpare, hfresh, ↓reduceIte]
    refine ⟨by simp [hfresh], ?_, ?_, ?_, fun hle => by omega, ?_⟩
    · rw [Heap.get_modify_ne _ hcp, Heap.get_modify_ne _ hps.symm, Heap.get_modify_eq _ (by simpa using Nat.lt_succ_of_lt hprnt),
        Heap.get_push_lt _ hprnt, Heap.get_push_lt _ hcl, hs]
    · rw [hs, Heap.get_modify_ne _ hcs, Heap.get_modify_eq _ (by simp), Heap.get_modify_ne _ hps,
        Heap.get_push_eq, Heap.get_modify_ne _ hcp.symm, Heap.get_push_lt _ hcl]
      simp only [spareNode, chldNext, hfresh, ↓reduceIte, show ¬ (nul ≤ (h.get prnt).n ∧ nul = idx + 1) by omega]
      rfl
    · rw [Heap.get_modify_eq _ (by simpa using Nat.lt_succ_of_lt hcl), Heap.get_modify_ne _ hcs.symm,
        Heap.get_modify_ne _ hcp.symm, Heap.get_push_lt _ hcl, hs]
    · intro x hx hxp hxc hxr _
      rw [hs] at hxr
      rw [Heap.get_modify_ne _ hxc.symm, Heap.get_modify_ne _ hxr.symm, Heap.get_modify_ne _ hxp.symm,
        Heap.get_push_lt _ hx]
  · -- 空いた子を使い回す場合。
    have hle : nul ≤ (h.get prnt).n := by omega
    have hs : spareAddr h (h.get prnt) nul = (h.get prnt).kid nul := if_neg hfresh
    have hcs : (h.get prnt).kid idx ≠ (h.get prnt).kid nul := hinj _ _ hidx hle hne.symm
    have hps : (h.get prnt).kid nul ≠ prnt := hself nul hle
    have hsl := hlt nul hle
    by_cases h0 : nul = 0
    · subst h0
      simp only [splitSpare, hfresh, ↓reduceIte, ne_eq, not_true_eq_false]
      refine ⟨by simp [hfresh], ?_, ?_, ?_, fun _ h => absurd rfl h, ?_⟩
      · rw [Heap.get_modify_ne _ hcp, Heap.get_modify_ne _ hps, Heap.get_modify_eq _ hprnt, hs]
      · rw [hs, Heap.get_modify_ne _ hcs, Heap.get_modify_eq _ (by simpa using hsl), Heap.get_modify_ne _ hps.symm,
          Heap.get_modify_ne _ hcp.symm]
        simp only [spareNode, chldNext, hfresh, ↓reduceIte, show ¬ (0 ≤ (h.get prnt).n ∧ 0 = idx + 1) by omega]
        rfl
      · rw [Heap.get_modify_eq _ (by simpa using hcl), Heap.get_modify_ne _ hcs.symm, Heap.get_modify_ne _ hcp.symm, hs]
      · intro x hx hxp hxc hxr _
        rw [hs] at hxr
        rw [Heap.get_modify_ne _ hxc.symm, Heap.get_modify_ne _ hxr.symm, Heap.get_modify_ne _ hxp.symm]
    · have hvl := hlt (nul - 1) (by omega)
      have hvp := hself (nul - 1) (by omega)
      have hvr : (h.get prnt).kid (nul - 1) ≠ (h.get prnt).kid nul := hinj _ _ (by omega) hle (by omega)
      simp only [splitSpare, hfresh, ↓reduceIte, h0, ne_eq, not_false_eq_true]
      by_cases hadj : nul = idx + 1
      · -- すぐ右の子を使い回すときは、左隣が分ける子そのものである。
        subst hadj
        simp only [Nat.add_sub_cancel] at hvl hvp hvr ⊢
        refine ⟨by simp [hfresh], ?_, ?_, ?_, fun _ _ h => absurd rfl h, ?_⟩
        · rw [Heap.get_modify_ne _ hcp, Heap.get_modify_ne _ hps, Heap.get_modify_eq _ (by simpa using hprnt),
            Heap.get_modify_ne _ hcp, Heap.get_modify_eq _ hcl, hs]
        · rw [hs, Heap.get_modify_ne _ hcs, Heap.get_modify_eq _ (by simpa using hsl),
            Heap.get_modify_ne _ hps.symm, Heap.get_modify_ne _ hcs, Heap.get_modify_ne _ hcp.symm,
            Heap.get_modify_eq _ hcl]
          simp only [spareNode, chldNext, hfresh, ↓reduceIte, hle, and_self]
          rfl
        · rw [Heap.get_modify_eq _ (by simpa using hcl), Heap.get_modify_ne _ hcs.symm,
            Heap.get_modify_ne _ hcp.symm, Heap.get_modify_eq _ hcl, hs]
          rfl
        · intro x hx hxp hxc hxr _
          rw [hs] at hxr
          rw [Heap.get_modify_ne _ hxc.symm, Heap.get_modify_ne _ hxr.symm, Heap.get_modify_ne _ hxp.symm,
            Heap.get_modify_ne _ hxc.symm]
      · have hvc : (h.get prnt).kid (nul - 1) ≠ (h.get prnt).kid idx := hinj _ _ (by omega) hidx (by omega)
        refine ⟨by simp [hfresh], ?_, ?_, ?_, fun _ _ _ => ?_, ?_⟩
        · rw [Heap.get_modify_ne _ hcp, Heap.get_modify_ne _ hps, Heap.get_modify_eq _ (by simpa using hprnt),
            Heap.get_modify_ne _ hvp, Heap.get_modify_ne _ hvc, hs]
        · rw [hs, Heap.get_modify_ne _ hcs, Heap.get_modify_eq _ (by simpa using hsl),
            Heap.get_modify_ne _ hps.symm, Heap.get_modify_ne _ hvr, Heap.get_modify_ne _ hcp.symm,
            Heap.get_modify_ne _ hvc]
          simp only [spareNode, chldNext, hfresh, ↓reduceIte, hadj, and_false]
          rfl
        · rw [Heap.get_modify_eq _ (by simpa using hcl), Heap.get_modify_ne _ hcs.symm,
            Heap.get_modify_ne _ hcp.symm, Heap.get_modify_ne _ hvc, hs]
        · rw [Heap.get_modify_ne _ hvc.symm, Heap.get_modify_ne _ hvr.symm, Heap.get_modify_ne _ hvp.symm,
            Heap.get_modify_eq _ hvl]
        · intro x hx hxp hxc hxr hxv
          rw [hs] at hxr
          rw [Heap.get_modify_ne _ hxc.symm, Heap.get_modify_ne _ hxr.symm, Heap.get_modify_ne _ hxp.symm,
            Heap.get_modify_ne _ (hxv hle h0).symm]

namespace Splitted

section Index
variable {idx nul : Nat} (S : Splitted h h' a idx nul)
include S

/-- 親・分けた子・`RGHT` のほかの節は、`next` しか変わらない。 -/
theorem next_only (hx : x < h.size) (h₁ : x ≠ a) (h₂ : x ≠ (h.get a).kid idx) (h₃ : x ≠ spareAddr h (h.get a) nul) :
    h'.get x = { h.get x with next := (h'.get x).next } := by
  by_cases hp : nul ≤ (h.get a).n ∧ nul ≠ 0 ∧ x = (h.get a).kid (nul - 1)
  · obtain ⟨hle, h0, rfl⟩ := hp
    have hadj : nul ≠ idx + 1 := by rintro rfl; exact h₂ rfl
    rw [S.prev hle h0 hadj]
  · rw [S.rest x hx h₁ h₂ h₃ (fun hle h0 he => hp ⟨hle, h0, he⟩)]

theorem cut : (h.get ((h.get a).kid idx)).Cut (h'.get ((h.get a).kid idx)) (h'.get (spareAddr h (h.get a) nul)) := by
  rw [S.chld, S.rght]
  exact .node _ _ _ _

theorem parent_n : (h'.get a).n = (h.get a).n + if (h.get a).n < nul then 1 else 0 := by
  rw [S.parent, splitParent_n]

variable (hn : (h.get a).n ≤ 62) (hidx : idx ≤ (h.get a).n) (hnul : nul ≤ (h.get a).n + 1) (hne : nul ≠ idx)
include hn hidx hnul hne

theorem parent_rght : (h'.get a).kid (addPos idx nul + 1) = spareAddr h (h.get a) nul := by
  rw [S.parent, splitParent_kid hn hidx hnul hne, if_pos rfl]

theorem parent_old {i : Nat} (hi' : i ≠ addPos idx nul + 1) :
    (h'.get a).kid i = (h.get a).kid (slot (addPos idx nul + 1) nul i) := by
  rw [S.parent, splitParent_kid hn hidx hnul hne, if_neg hi']

end Index

end Splitted

/-! ## 分ける前の条件 -/

/-- `twig_add` が `node_split` を呼ぶときの条件。子 `idx` は埋まっていて、nil でない値を持つ。 -/
structure Ready (h : Heap K Q) (descp : Bool) (d : Nat) (a : Addr) (lo hi : Option K) (idx : Nat) : Prop where
  lt : a < h.size
  twig : (h.get a).TwigOk descp 62 lo hi (fun i c l u => Sub h descp d (if i = idx then 63 else 62) c l u)
  apart : Apart h d a
  idx_le : idx ≤ (h.get a).n
  full : (h.get ((h.get a).kid idx)).n = 63
  live : ∃ y v, Has h d ((h.get a).kid idx) y v ∧ v.nilP = false

namespace Ready

variable {idx nul : Nat}

theorem kid_sub (R : Ready h descp d a lo hi idx) {i : Nat} (hi' : i ≤ (h.get a).n) :
    Sub h descp d 63 ((h.get a).kid i) ((h.get a).lower lo i) ((h.get a).upper hi i) := by
  have hk := R.twig.kids i hi'
  by_cases he : i = idx
  · rw [if_pos he] at hk; exact hk
  · rw [if_neg he] at hk; exact hk.cap_mono (Nat.le_succ_of_le hk.n_le)

theorem kid_ne_self (R : Ready h descp d a lo hi idx) {i : Nat} (hi' : i ≤ (h.get a).n) : (h.get a).kid i ≠ a := by
  intro he
  have hself := R.apart.self i hi'
  rw [he] at hself
  exact hself (Mem.self h d a)

theorem kid_inj (R : Ready h descp d a lo hi idx) {i j : Nat} (hi' : i ≤ (h.get a).n) (hj : j ≤ (h.get a).n)
    (hij : i ≠ j) : (h.get a).kid i ≠ (h.get a).kid j := by
  intro he
  have hkids := R.apart.kids i j ((h.get a).kid i) hi' hj hij (Mem.self h d _)
  rw [he] at hkids
  exact hkids (Mem.self h d _)

theorem nul_le (fuel : Nat) (h : Heap K Q) (p : Node K Q) : spareIdx fuel h p ≤ p.n + 1 := Arr.scan_le _ _ _

theorem nul_nil (R : Ready h descp d a lo hi idx) (hf : d < fuel) (hnul : spareIdx fuel h (h.get a) = nul)
    (hle : nul ≤ (h.get a).n) {y : K} {v : BtreeVal Q} (hy : Has h d ((h.get a).kid nul) y v) : v.nilP = true := by
  have hn := R.twig.n_le
  have hstop := Arr.scan_stop (p := fun u : Ual Q => !nodeFreeP h fuel u.asT) (m := (h.get a).n + 1)
    (a := (h.get a).val) (by omega) (by unfold spareIdx at hnul; omega)
  rw [show (h.get a).val.scan (fun u : Ual Q => !nodeFreeP h fuel u.asT) ((h.get a).n + 1) = nul from hnul] at hstop
  exact ((R.kid_sub hle).nodeFreeP_iff (Nat.le_refl 63) hf).mp (by simpa [Node.kid] using hstop) y v hy

theorem nul_ne (R : Ready h descp d a lo hi idx) (hf : d < fuel) (hnul : spareIdx fuel h (h.get a) = nul) :
    nul ≠ idx := by
  rintro rfl
  obtain ⟨y, v, hy, hv⟩ := R.live
  rw [R.nul_nil hf hnul R.idx_le hy] at hv
  cases hv

theorem splitted (R : Ready h descp d a lo hi idx) (hf : d < fuel) (hnul : spareIdx fuel h (h.get a) = nul) :
    Splitted h (nodeSplit fuel h a idx) a idx nul :=
  nodeSplit_splitted R.lt (fun _ hi' => R.kid_ne_self hi') (fun _ hi' => (R.kid_sub hi').lt_size)
    (fun _ _ hi' hj hij => R.kid_inj hi' hj hij) R.idx_le hnul (R.nul_ne hf hnul)

end Ready

/-! ## 分けた後の条件 -/

namespace Splitted

variable {idx nul : Nat} (R : Ready h descp d a lo hi idx) (S : Splitted h h' a idx nul)
  (hnul : nul ≤ (h.get a).n + 1) (hne : nul ≠ idx)
include R S hnul hne

theorem size_le : h.size ≤ h'.size := by
  rw [S.size]; omega

/-- `RGHT` は、分ける節でも、使い回さない子の部分木の節でもない。 -/
theorem rght_out {m : Nat} (hm : m ≤ (h.get a).n) (hmn : m ≠ nul) :
    ¬ Mem h d ((h.get a).kid m) (spareAddr h (h.get a) nul) := by
  intro hx
  unfold spareAddr at hx
  split at hx
  · exact Nat.lt_irrefl _ ((R.kid_sub hm).mem_lt_size hx)
  · exact R.apart.kids nul m _ (by omega) hm hmn.symm (Mem.self h d _) hx

theorem rght_ne_prnt : spareAddr h (h.get a) nul ≠ a := by
  intro he
  unfold spareAddr at he
  split at he
  · exact Nat.lt_irrefl _ (he ▸ R.lt)
  · exact R.kid_ne_self (by omega) he

theorem rght_lt : spareAddr h (h.get a) nul < h'.size := by
  rw [S.size]
  unfold spareAddr
  split
  · exact Nat.lt_succ_self _
  · exact (R.kid_sub (i := nul) (by omega)).lt_size

/-- 使い回さない子の部分木の節は、分けた子を除いて `next` しか変わらない。 -/
theorem kid_same {m : Nat} (hm : m ≤ (h.get a).n) (hmn : m ≠ nul) (hx : Mem h d ((h.get a).kid m) x)
    (hxc : x ≠ (h.get a).kid idx) : h'.get x = { h.get x with next := (h'.get x).next } := by
  refine S.next_only ((R.kid_sub hm).mem_lt_size hx) ?_ hxc ?_
  · rintro rfl; exact R.apart.self m hm hx
  · rintro rfl; exact rght_out R S hnul hne hm hmn hx

theorem ne_chld {m : Nat} (hm : m ≤ (h.get a).n) (hmi : m ≠ idx) (hx : Mem h d ((h.get a).kid m) x) :
    x ≠ (h.get a).kid idx := by
  rintro rfl
  exact R.apart.kids m idx _ hm R.idx_le hmi hx (Mem.self h d _)

theorem spare_descp : (spareNode h (h.get a) idx nul).descp = descp := by
  unfold spareNode
  split
  · exact (R.kid_sub R.idx_le).descp_eq
  · exact (R.kid_sub (i := nul) (by omega)).descp_eq

theorem halves : Halves h h' descp d ((h.get a).kid idx) ((h.get a).kid idx) (spareAddr h (h.get a) nul) := by
  have hlt := (R.kid_sub R.idx_le).lt_size
  have C := S.cut
  refine ⟨Nat.lt_of_lt_of_le hlt (size_le R S hnul hne), rght_lt R S hnul hne, Or.inl rfl,
    rght_out R S hnul hne R.idx_le hne.symm, ?_, C.l_n, C.l_innerp, ?_, C.l_key, C.l_nan, C.l_val, C.r_n, C.r_innerp,
    ?_, C.r_key, C.r_nan, C.r_val, ?_⟩
  · intro he
    have hout := rght_out R S hnul hne R.idx_le hne.symm
    rw [← he] at hout
    exact hout (Mem.self h d _)
  · rw [S.chld]; exact (R.kid_sub R.idx_le).descp_eq
  · rw [S.rght]; exact spare_descp R S hnul hne
  · intro x hx hxc
    have hlx := (R.kid_sub R.idx_le).mem_lt_size hx
    have he := kid_same R S hnul hne R.idx_le hne.symm hx hxc
    rw [he]
    exact ⟨Nat.lt_of_lt_of_le hlx (size_le R S hnul hne), rfl, rfl, rfl, rfl, rfl⟩

/-! ### 新しい子 -/

theorem n_eq : (h'.get a).n = (h.get a).n + if (h.get a).n < nul then 1 else 0 := S.parent_n

theorem kid_rght : (h'.get a).kid (addPos idx nul + 1) = spareAddr h (h.get a) nul :=
  S.parent_rght R.twig.n_le R.idx_le hnul hne

theorem kid_old {i : Nat} (hi' : i ≠ addPos idx nul + 1) :
    (h'.get a).kid i = (h.get a).kid (slot (addPos idx nul + 1) nul i) :=
  S.parent_old R.twig.n_le R.idx_le hnul hne hi'

theorem kid_chld : (h'.get a).kid (addPos idx nul) = (h.get a).kid idx := by
  rw [kid_old R S hnul hne (Nat.ne_of_lt (Nat.lt_succ_self _)), kidSlot_chld R.twig.n_le R.idx_le hnul hne]

theorem mem_kid {i : Nat} (hi' : i ≤ (h'.get a).n) (hx : Mem h' d ((h'.get a).kid i) x) :
    (i = addPos idx nul + 1 ∧ (x = spareAddr h (h.get a) nul ∨ Mem h d ((h.get a).kid idx) x)) ∨
    (i ≠ addPos idx nul + 1 ∧ Mem h d ((h.get a).kid (slot (addPos idx nul + 1) nul i)) x) := by
  have H := halves R S hnul hne
  have hc := R.kid_sub R.idx_le
  by_cases hr : i = addPos idx nul + 1
  · rw [hr, kid_rght R S hnul hne] at hx
    rcases H.r_mem hc R.full hx with he | ⟨hm, _⟩
    · exact Or.inl ⟨hr, Or.inl he⟩
    · exact Or.inl ⟨hr, Or.inr hm⟩
  · refine Or.inr ⟨hr, ?_⟩
    rw [n_eq R S hnul hne] at hi'
    have hb := kidSlot_bounds R.twig.n_le R.idx_le hnul hne hr hi'
    rw [kid_old R S hnul hne hr] at hx
    by_cases hm : slot (addPos idx nul + 1) nul i = idx
    · rw [hm] at hx ⊢
      rcases H.l_mem hc R.full hx with rfl | ⟨hm, _⟩
      · exact Mem.self h d _
      · exact hm
    · refine ((R.kid_sub hb.1).mem_frame (fun y hy => ?_)).mp hx
      rw [kid_same R S hnul hne hb.1 hb.2 hy (ne_chld R S hnul hne hb.1 hm hy)]
      exact ⟨rfl, rfl, rfl, rfl, fun _ => rfl⟩

theorem apart : Apart h' d a := by
  have H := halves R S hnul hne
  have hc := R.kid_sub R.idx_le
  have hb : ∀ i, i ≤ (h'.get a).n → i ≠ addPos idx nul + 1 →
      slot (addPos idx nul + 1) nul i ≤ (h.get a).n ∧ slot (addPos idx nul + 1) nul i ≠ nul := by
    intro i hi' hr
    rw [n_eq R S hnul hne] at hi'
    exact kidSlot_bounds R.twig.n_le R.idx_le hnul hne hr hi'
  refine ⟨fun i hi' hx => ?_, ?_⟩
  · rcases mem_kid R S hnul hne hi' hx with ⟨_, he | hm⟩ | ⟨hr, hm⟩
    · exact rght_ne_prnt R S hnul hne he.symm
    · exact R.apart.self idx R.idx_le hm
    · exact R.apart.self _ (hb i hi' hr).1 hm
  · -- `RGHT` とほかの子は、`CHLD` を除けば元の子の部分木が別々であることから従う。
    have key : ∀ i, i ≤ (h'.get a).n → i ≠ addPos idx nul + 1 → ∀ x, Mem h' d ((h'.get a).kid i) x →
        ¬ Mem h' d ((h'.get a).kid (addPos idx nul + 1)) x := by
      intro i hi' hr x hx hx'
      by_cases hm : slot (addPos idx nul + 1) nul i = idx
      · rw [kid_old R S hnul hne hr, hm] at hx
        rw [kid_rght R S hnul hne] at hx'
        exact H.disjoint hc R.full hx hx'
      · have hbi := hb i hi' hr
        rcases mem_kid R S hnul hne hi' hx with ⟨he, _⟩ | ⟨_, hx⟩
        · exact hr he
        · rw [kid_rght R S hnul hne] at hx'
          rcases H.r_mem hc R.full hx' with rfl | ⟨hx', _⟩
          · exact rght_out R S hnul hne hbi.1 hbi.2 hx
          · exact R.apart.kids _ _ x hbi.1 R.idx_le hm hx hx'
    intro i j x hi' hj hij hx hx'
    by_cases hr : i = addPos idx nul + 1
    · subst hr; exact key j hj (Ne.symm hij) x hx' hx
    · by_cases hr' : j = addPos idx nul + 1
      · subst hr'; exact key i hi' hr x hx hx'
      · rcases mem_kid R S hnul hne hi' hx with ⟨he, _⟩ | ⟨_, hx⟩
        · exact hr he
        · rcases mem_kid R S hnul hne hj hx' with ⟨he, _⟩ | ⟨_, hx'⟩
          · exact hr' he
          · refine R.apart.kids _ _ x (hb i hi' hr).1 (hb j hj hr').1 ?_ hx hx'
            rcases Nat.lt_or_gt_of_ne hij with hlt | hlt
            · exact Nat.ne_of_lt (slot_lt_slot hr hr' hlt)
            · exact Nat.ne_of_gt (slot_lt_slot hr' hr hlt)

theorem sub : Sub h' descp (d + 1) 63 a lo hi := by
  have H := halves R S hnul hne
  have hc := R.kid_sub R.idx_le
  obtain ⟨s, hs, hs₁, hs₂⟩ := hc.pivot R.full
  have hl := H.l_sub hc R.full
  have hr := H.r_sub hc R.full
  rw [hs] at hl hr
  -- 子の条件に番地を加えて、どの子の部分木が変わらないかを追えるようにする。
  have ht : (h.get a).TwigOk descp 62 lo hi (fun i c l u => c = (h.get a).kid i ∧
      Sub h descp d (if i = idx then 63 else 62) c l u) :=
    { R.twig with kids := fun i hi' => ⟨rfl, R.twig.kids i hi'⟩ }
  refine ⟨Nat.lt_of_lt_of_le R.lt (size_le R S hnul hne), ?_, apart R S hnul hne⟩
  rw [S.parent, hs]
  refine splitParent_twigOk ht R.idx_le hnul hne hs₁ hs₂ ?_ ?_ ?_
  · rintro i m c l u l' u' _ _ hm hmn hmi ⟨rfl, hP⟩ hw
    rw [if_neg hmi] at hP
    refine (hP.frame (fun y hy => ?_)).wider hw
    rw [kid_same R S hnul hne hm hmn hy (ne_chld R S hnul hne hm hmi hy)]
    exact ⟨Nat.lt_of_lt_of_le (hP.mem_lt_size hy) (size_le R S hnul hne), rfl, rfl, rfl, rfl, fun _ => rfl⟩
  · intro l' hw
    exact hl.wider ⟨hw, fun _ h => h, fun _ h => h⟩
  · intro u' hw
    exact hr.wider hw

theorem mem (hx : Mem h' (d + 1) a x) : Mem h (d + 1) a x ∨ h.size ≤ x := by
  have hspare : Mem h (d + 1) a (spareAddr h (h.get a) nul) ∨ h.size ≤ spareAddr h (h.get a) nul := by
    unfold spareAddr
    split
    · exact Or.inr (Nat.le_refl _)
    · exact Or.inl (Mem.kid (i := nul) (by omega) (Mem.self h d _))
  rcases hx with rfl | ⟨i, hi', hx⟩
  · exact Or.inl (Mem.self h _ _)
  · rcases mem_kid R S hnul hne hi' hx with ⟨_, rfl | hm⟩ | ⟨hr, hm⟩
    · exact hspare
    · exact Or.inl (Mem.kid R.idx_le hm)
    · rw [n_eq R S hnul hne] at hi'
      exact Or.inl (Mem.kid (kidSlot_bounds R.twig.n_le R.idx_le hnul hne hr hi').1 hm)

theorem frame (hx : x < h.size) (hm : ¬ Mem h (d + 1) a x) : h'.get x = h.get x := by
  have hkid : ∀ i, i ≤ (h.get a).n → x ≠ (h.get a).kid i := by
    rintro i hi' rfl; exact hm (Mem.kid hi' (Mem.self h d _))
  refine S.rest x hx ?_ (hkid idx R.idx_le) ?_ (fun hle _ => hkid _ (by omega))
  · rintro rfl; exact hm (Mem.self h _ _)
  · unfold spareAddr
    split
    · exact Nat.ne_of_lt hx
    · exact hkid nul (by omega)

/-- 使い回す子の値がすべて nil なら、値が nil でない組は変わらない。 -/
theorem has (hnil : nul ≤ (h.get a).n → ∀ y v, Has h d ((h.get a).kid nul) y v → v.nilP = true) {y : K}
    {v : BtreeVal Q} (hv : v.nilP = false) : Has h' (d + 1) a y v ↔ Has h (d + 1) a y v := by
  have H := halves R S hnul hne
  have hc := R.kid_sub R.idx_le
  have hfr : ∀ m, m ≤ (h.get a).n → m ≠ nul → m ≠ idx →
      (Has h' d ((h.get a).kid m) y v ↔ Has h d ((h.get a).kid m) y v) := by
    intro m hm hmn hmi
    refine has_frame (fun x hx => ?_)
    rw [kid_same R S hnul hne hm hmn hx (ne_chld R S hnul hne hm hmi hx)]
    exact ⟨rfl, rfl, rfl⟩
  have hpos := addPos_lt_n R.twig R.idx_le hnul hne
  constructor
  · rintro ⟨i, hi', hy⟩
    by_cases hr : i = addPos idx nul + 1
    · rw [hr, kid_rght R S hnul hne] at hy
      exact ⟨idx, R.idx_le, (H.has_iff hc R.full).mp (Or.inr hy)⟩
    · rw [n_eq R S hnul hne] at hi'
      have hb := kidSlot_bounds R.twig.n_le R.idx_le hnul hne hr hi'
      rw [kid_old R S hnul hne hr] at hy
      by_cases hm : slot (addPos idx nul + 1) nul i = idx
      · rw [hm] at hy
        exact ⟨idx, R.idx_le, (H.has_iff hc R.full).mp (Or.inl hy)⟩
      · exact ⟨_, hb.1, (hfr _ hb.1 hb.2 hm).mp hy⟩
  · rintro ⟨m, hm, hy⟩
    have hmn : m ≠ nul := by
      rintro rfl
      rw [hnil hm y v hy] at hv; cases hv
    by_cases hmi : m = idx
    · subst hmi
      rcases (H.has_iff hc R.full).mpr hy with hy | hy
      · refine ⟨addPos m nul, ?_, ?_⟩
        · rw [n_eq R S hnul hne]; exact Nat.le_of_lt hpos
        · rw [kid_chld R S hnul hne]; exact hy
      · refine ⟨addPos m nul + 1, ?_, ?_⟩
        · rw [n_eq R S hnul hne]; exact hpos
        · rw [kid_rght R S hnul hne]; exact hy
    · obtain ⟨i, hr, hi', he⟩ := kidSlot_surj R.twig.n_le R.idx_le hnul hne hm hmn
      refine ⟨i, ?_, ?_⟩
      · rw [n_eq R S hnul hne]; exact hi'
      · rw [kid_old R S hnul hne hr, he]; exact (hfr m hm hmn hmi).mpr hy

/-- 分ける子の部分木の節は、分けた後も部分木の節である。 -/
theorem mem_of_chld (hx : Mem h d ((h.get a).kid idx) x) : Mem h' (d + 1) a x := by
  have H := halves R S hnul hne
  have hc := R.kid_sub R.idx_le
  have hpos := addPos_lt_n R.twig R.idx_le hnul hne
  have hl : ∀ x, Mem h' d ((h.get a).kid idx) x → Mem h' (d + 1) a x := by
    intro x hx
    refine Mem.kid (i := addPos idx nul) ?_ ?_
    · rw [n_eq R S hnul hne]; exact Nat.le_of_lt hpos
    · rw [kid_chld R S hnul hne]; exact hx
  rcases H.mem_split hc R.full hx with rfl | hx | hx
  · exact hl _ (Mem.self h' d _)
  · exact hl x hx
  · refine Mem.kid (i := addPos idx nul + 1) ?_ ?_
    · rw [n_eq R S hnul hne]; exact hpos
    · rw [kid_rght R S hnul hne]; exact hx

/-- 子はすべて同じ高さにあるので、葉であるかどうかは変わらない。 -/
theorem inner (hx : x < h.size) : (h'.get x).innerp = (h.get x).innerp := by
  by_cases h₁ : x = a
  · subst h₁
    rw [S.parent, (splitParent_rest _ _ _ _ _).1]
  · by_cases h₂ : x = (h.get a).kid idx
    · subst h₂; rw [S.chld]; rfl
    · by_cases h₃ : x = spareAddr h (h.get a) nul
      · have hr : (h'.get (spareAddr h (h.get a) nul)).innerp = (h.get ((h.get a).kid idx)).innerp := by
          rw [S.rght]; rfl
        rw [h₃, hr, (R.kid_sub R.idx_le).innerp_eq]
        unfold spareAddr at h₃ ⊢
        split
        · rename_i hlt
          rw [if_pos hlt] at h₃
          exact absurd hx (by rw [h₃]; exact Nat.lt_irrefl _)
        · exact (R.kid_sub (i := nul) (by omega)).innerp_eq.symm
      · rw [S.next_only hx h₁ h₂ h₃]

/-- 分けた後も、葉の `next` は葉を指す。 -/
theorem leafNext (hN : LeafNext h) : LeafNext h' := by
  have hold : ∀ x y, (h.get x).innerp = false → (h.get x).next = some y → y < h'.size ∧ (h'.get y).innerp = false := by
    intro x y hx hy
    obtain ⟨h₁, h₂⟩ := hN x y hx hy
    exact ⟨Nat.lt_of_lt_of_le h₁ (size_le R S hnul hne), by rw [inner R S hnul hne h₁]; exact h₂⟩
  have hkid : ∀ i, i ≤ (h.get a).n → (h.get ((h.get a).kid i)).innerp = decide (0 < d) :=
    fun i hi' => (R.kid_sub hi').innerp_eq
  intro x y hx hy
  by_cases h₁ : x = a
  · subst h₁
    rw [S.parent, (splitParent_rest _ _ _ _ _).1, R.twig.innerp] at hx; cases hx
  · by_cases h₂ : x = (h.get a).kid idx
    · subst h₂
      rw [S.chld] at hx hy
      cases hy
      refine ⟨rght_lt R S hnul hne, ?_⟩
      rw [S.rght]; exact hx
    · by_cases h₃ : x = spareAddr h (h.get a) nul
      · subst h₃
        rw [S.rght] at hx hy
        have hd : decide (0 < d) = false := (hkid idx R.idx_le).symm.trans hx
        simp only [chldNext] at hy
        split at hy
        · exact hold _ y ((hkid nul (by omega)).trans hd) hy
        · exact hold _ y hx hy
      · by_cases hlt : x < h.size
        · by_cases hp : nul ≤ (h.get a).n ∧ nul ≠ 0 ∧ x = (h.get a).kid (nul - 1)
          · obtain ⟨hle, h0, rfl⟩ := hp
            have hadj : nul ≠ idx + 1 := by rintro rfl; exact h₂ rfl
            rw [S.prev hle h0 hadj] at hx hy
            have hd : decide (0 < d) = false := (hkid _ (by omega)).symm.trans hx
            exact hold _ y ((hkid nul hle).trans hd) hy
          · rw [S.rest x hlt h₁ h₂ h₃ (fun hle h0 he => hp ⟨hle, h0, he⟩)] at hx hy
            exact hold x y hx hy
        · have hge : h'.size ≤ x := by
            rw [S.size]
            split
            · rename_i hn
              rw [spareAddr, if_pos hn] at h₃
              have := Nat.lt_of_le_of_ne (Nat.le_of_not_lt hlt) (Ne.symm h₃)
              exact this
            · exact Nat.le_of_not_lt hlt
          rw [Heap.get_of_le hge] at hy
          cases hy

end Splitted

/-! ## 根の分割 -/

section Root
variable (hs : Sub h descp d 63 a none none) (hn : (h.get a).n = 63)

theorem rootSplit_size (h : Heap K Q) (a : Addr) : (rootSplit h a).size = h.size + 2 := by
  simp [rootSplit]

theorem rootSplit_rest (hx : x < h.size) (hxa : x ≠ a) : (rootSplit h a).get x = h.get x := by
  unfold rootSplit
  rw [Heap.get_modify_ne _ hxa.symm, Heap.get_push_lt _ (by simpa using Nat.lt_succ_of_lt hx), Heap.get_push_lt _ hx]

theorem rootSplit_root (ha : a < h.size) : ((rootSplit h a).get a).n = 1 ∧
    ((rootSplit h a).get a).innerp = true ∧ ((rootSplit h a).get a).descp = (h.get a).descp ∧
    ((rootSplit h a).get a).key.get 0 = (h.get a).key.get piv ∧ ((rootSplit h a).get a).kid 0 = h.size ∧
    ((rootSplit h a).get a).kid 1 = h.size + 1 ∧ ((rootSplit h a).get a).next = none := by
  unfold rootSplit
  rw [Heap.get_modify_eq _ (by simpa using Nat.lt_succ_of_lt (Nat.lt_succ_of_lt ha)),
    Heap.get_push_lt _ (by simpa using Nat.lt_succ_of_lt ha), Heap.get_push_lt _ ha]
  refine ⟨rfl, rfl, rfl, ?_, ?_, ?_, rfl⟩
  · rw [Arr.get_fill _ _ _ (by decide), if_neg (by decide), Arr.get_set_eq _ _ (by decide)]
  · rw [Node.kid, Arr.get_set_ne _ _ (by decide), Arr.get_set_eq _ _ (by decide)]; rfl
  · rw [Node.kid, Arr.get_set_eq _ _ (by decide)]; rfl

theorem rootSplit_left (ha : a < h.size) : (rootSplit h a).get h.size =
    { (Node.make (h.get a).descp : Node K Q) with
      key := (Arr.const 64 none : Arr 64 (Option K)).copy 0 (h.get a).key 0 (piv + 1)
      val := (Arr.const 64 (.v .nil) : Arr 64 (Ual Q)).copy 0 (h.get a).val 0 (piv + 1)
      innerp := (h.get a).innerp
      n := piv + (!(h.get a).innerp).toNat
      next := some (h.size + 1) } := by
  unfold rootSplit
  rw [Heap.get_modify_ne _ (Nat.ne_of_lt ha), Heap.get_push_lt _ (by simp), Heap.get_push_eq]
  rfl

theorem rootSplit_rght (ha : a < h.size) : (rootSplit h a).get (h.size + 1) =
    { (Node.make (h.get a).descp : Node K Q) with
      key := (Arr.const 64 none : Arr 64 (Option K)).copy 0 (h.get a).key (piv + 1) piv
      val := (Arr.const 64 (.v .nil) : Arr 64 (Ual Q)).copy 0 (h.get a).val (piv + 1) (piv + 1)
      innerp := (h.get a).innerp
      n := piv
      next := none } := by
  unfold rootSplit
  rw [Heap.get_modify_ne _ (Nat.ne_of_lt (Nat.lt_succ_of_lt ha))]
  have he := Heap.get_push_eq (h.push { (Node.make (h.get a).descp : Node K Q) with
    key := (Arr.const 64 none : Arr 64 (Option K)).copy 0 (h.get a).key 0 (piv + 1)
    val := (Arr.const 64 (.v .nil) : Arr 64 (Ual Q)).copy 0 (h.get a).val 0 (piv + 1)
    innerp := (h.get a).innerp
    n := piv + (!(h.get a).innerp).toNat
    next := some (h.size + 1) }) { (Node.make (h.get a).descp : Node K Q) with
      key := (Arr.const 64 none : Arr 64 (Option K)).copy 0 (h.get a).key (piv + 1) piv
      val := (Arr.const 64 (.v .nil) : Arr 64 (Ual Q)).copy 0 (h.get a).val (piv + 1) (piv + 1)
      innerp := (h.get a).innerp
      n := piv
      next := none }
  rw [Heap.size_push] at he
  exact he

theorem rootSplit_cut (ha : a < h.size) :
    (h.get a).Cut ((rootSplit h a).get h.size) ((rootSplit h a).get (h.size + 1)) := by
  have hnan : ∀ i, i < 64 → (Arr.const 64 none : Arr 64 (Option K)).get i = none := fun i hi' => Arr.get_const _ hi'
  rw [rootSplit_left ha, rootSplit_rght ha]
  refine ⟨rfl, rfl, fun i hi' => ?_, fun hl i hi' hi₂ => ?_, fun i hi' => ?_, rfl, rfl, fun i hi' => ?_,
    fun _ i hi' hi₂ => ?_, fun i hi' => ?_⟩
  · have hi₂ : i < piv + 1 := Nat.lt_of_lt_of_le hi' (by cases (h.get a).innerp <;> simp)
    simp only
    rw [Arr.get_copy _ _ (by decide) (by decide), if_pos (by omega)]
    congr 1
  · simp only [hl, Bool.not_false, Bool.toNat_true] at hi' ⊢
    rw [Arr.get_copy _ _ (by decide) (by decide), if_neg (by omega)]
    exact hnan i hi₂
  · simp only
    rw [Arr.get_copy _ _ (by decide) (by decide), if_pos (by omega)]
    congr 1
  · simp only
    rw [Arr.get_copy _ _ (by decide) (by decide), if_pos (by omega)]
    congr 1; omega
  · simp only
    rw [Arr.get_copy _ _ (by decide) (by decide), if_neg (by omega)]
    exact hnan i hi₂
  · simp only
    rw [Arr.get_copy _ _ (by decide) (by decide), if_pos (by omega)]
    congr 1; omega

include hs in
/-- 根の中身は、確保した二つの節に分かれる。 -/
theorem rootSplit_halves : Halves h (rootSplit h a) descp d a h.size (h.size + 1) := by
  have ha := hs.lt_size
  have hsz := rootSplit_size h a
  have C := rootSplit_cut ha
  have hout : ∀ x, h.size ≤ x → ¬ Mem h d a x :=
    fun x hx hm => Nat.lt_irrefl _ (Nat.lt_of_lt_of_le (hs.mem_lt_size hm) hx)
  refine ⟨by rw [hsz]; exact Nat.lt_succ_of_lt (Nat.lt_succ_self _), by rw [hsz]; exact Nat.lt_succ_self _,
    Or.inr (hout _ (Nat.le_refl _)), hout _ (Nat.le_succ _), Nat.ne_of_lt (Nat.lt_succ_self _),
    C.l_n, C.l_innerp, ?_, C.l_key, C.l_nan, C.l_val, C.r_n, C.r_innerp, ?_, C.r_key, C.r_nan, C.r_val, ?_⟩
  · rw [rootSplit_left ha]; exact hs.descp_eq
  · rw [rootSplit_rght ha]; exact hs.descp_eq
  · intro x hx hxa
    have hlx := hs.mem_lt_size hx
    rw [rootSplit_rest hlx hxa]
    exact ⟨by rw [hsz]; exact Nat.lt_succ_of_lt (Nat.lt_succ_of_lt hlx), rfl, rfl, rfl, rfl, rfl⟩

include hs in
theorem rootSplit_kid {i : Nat} (hi' : i ≤ ((rootSplit h a).get a).n) :
    i = 0 ∧ ((rootSplit h a).get a).kid i = h.size ∨ i = 1 ∧ ((rootSplit h a).get a).kid i = h.size + 1 := by
  obtain ⟨h₁, _, _, _, h₅, h₆, _⟩ := rootSplit_root hs.lt_size
  rw [h₁] at hi'
  rcases Nat.le_one_iff_eq_zero_or_eq_one.mp hi' with rfl | rfl
  · exact Or.inl ⟨rfl, h₅⟩
  · exact Or.inr ⟨rfl, h₆⟩

include hs hn in
/-- `root_split` の後も、木は部分木の条件を満たす。 -/
theorem rootSplit_sub : Sub (rootSplit h a) descp (d + 1) 62 a none none := by
  have ha := hs.lt_size
  have H := rootSplit_halves hs
  obtain ⟨h₁, h₂, h₃, h₄, h₅, h₆, _⟩ := rootSplit_root ha
  obtain ⟨s, hs', hlo, hhi⟩ := hs.pivot hn
  have hl := H.l_sub hs hn
  have hr := H.r_sub hs hn
  rw [hs'] at hl hr h₄
  have hout : ∀ x, Mem (rootSplit h a) d h.size x ∨ Mem (rootSplit h a) d (h.size + 1) x → x ≠ a := by
    rintro x (hx | hx)
    · rcases H.l_mem hs hn hx with rfl | ⟨_, hne⟩
      · exact Nat.ne_of_gt ha
      · exact hne
    · rcases H.r_mem hs hn hx with rfl | ⟨_, hne⟩
      · exact Nat.ne_of_gt (Nat.lt_succ_of_lt ha)
      · exact hne
  refine ⟨by rw [rootSplit_size]; exact Nat.lt_succ_of_lt (Nat.lt_succ_of_lt ha),
    ⟨h₂, by rw [h₃]; exact hs.descp_eq, by omega, by omega, ?_, ?_, ?_⟩, ⟨?_, ?_⟩⟩
  · intro i hi'
    obtain rfl : i = 0 := by omega
    exact ⟨s, h₄, hlo, hhi⟩
  · intro i j _ _ hij hj
    omega
  · intro i hi'
    rcases rootSplit_kid hs hi' with ⟨rfl, he⟩ | ⟨rfl, he⟩
    · rw [he, Node.lower, Node.upper, if_pos rfl, h₁, if_pos (by decide), h₄]
      exact hl
    · rw [he, Node.lower, Node.upper, if_neg (by decide), h₁, if_neg (by decide), Nat.sub_self, h₄]
      exact hr
  · intro i hi' hx
    rcases rootSplit_kid hs hi' with ⟨_, he⟩ | ⟨_, he⟩
    · rw [he] at hx; exact hout a (Or.inl hx) rfl
    · rw [he] at hx; exact hout a (Or.inr hx) rfl
  · intro i j x hi' hj hij hx hx'
    rcases rootSplit_kid hs hi' with ⟨rfl, he⟩ | ⟨rfl, he⟩ <;>
      rcases rootSplit_kid hs hj with ⟨rfl, he'⟩ | ⟨rfl, he'⟩
    · exact hij rfl
    · rw [he] at hx; rw [he'] at hx'; exact H.disjoint hs hn hx hx'
    · rw [he] at hx; rw [he'] at hx'; exact H.disjoint hs hn hx' hx
    · exact hij rfl

include hs hn in
theorem rootSplit_has {y : K} {v : BtreeVal Q} : Has (rootSplit h a) (d + 1) a y v ↔ Has h d a y v := by
  have H := rootSplit_halves hs
  obtain ⟨h₁, _, _, _, h₅, h₆, _⟩ := rootSplit_root hs.lt_size
  rw [← H.has_iff hs hn]
  constructor
  · rintro ⟨i, hi', hy⟩
    rcases rootSplit_kid hs hi' with ⟨_, he⟩ | ⟨_, he⟩
    · rw [he] at hy; exact Or.inl hy
    · rw [he] at hy; exact Or.inr hy
  · rintro (hy | hy)
    · exact ⟨0, by omega, by rw [h₅]; exact hy⟩
    · exact ⟨1, by omega, by rw [h₆]; exact hy⟩

end Root

end Books.Btree
