import Books.Btree.Lemmas.Chain

/-!
# 分割と組の並び

部分木の、値が nil でない組を左から順に並べたものは、`node_split` でも `root_split` でも変わらない。キーの大小は
使わず、節が別々の番地にある木の形だけから示す。
-/

set_option linter.unusedSectionVars false

namespace Books.Btree

open Books.Lib

variable {K Q : Type} [LinearOrder K] [LinearOrder Q] [Zero Q]
variable {descp : Bool} {h h' : Heap K Q} {lo hi : Option K} {d cap fuel idx nul : Nat} {a c l r x : Addr}
  {t t₁ t₂ : Node K Q}

/-! ## 組の並び -/

/-- 葉の、値が nil でない組を、添字の順に並べたもの。 -/
def Node.pairs (t : Node K Q) : List (Option K × BtreeVal Q) :=
  (span (fun i => (t.key.get i, t.value i)) 0 t.n).filter fun e => !e.2.nilP

/-- 高さ `d` 以下の部分木の、値が nil でない組を、左から順に並べたもの。 -/
def pairs (h : Heap K Q) : Nat → Addr → List (Option K × BtreeVal Q)
  | 0, a => if (h.get a).innerp then [] else (h.get a).pairs
  | d + 1, a => if (h.get a).innerp then (h.get a).kids.flatMap (pairs h d) else (h.get a).pairs

theorem pairs_leaf (hl : (h.get a).innerp = false) (d : Nat) : pairs h d a = (h.get a).pairs := by
  cases d <;> simp [pairs, hl]

theorem pairs_twig (hi : (h.get a).innerp = true) (d : Nat) : pairs h (d + 1) a = (h.get a).kids.flatMap (pairs h d) := by
  simp [pairs, hi]

/-- 高さ `d` の木の形。節は確保した番地にあり、`n` は 63 以下で、二つの節が番地を共有しない。 -/
def Shaped (h : Heap K Q) : Nat → Addr → Prop
  | 0, a => a < h.size ∧ (h.get a).innerp = false ∧ (h.get a).n ≤ 63
  | d + 1, a => a < h.size ∧ (h.get a).innerp = true ∧ (h.get a).n ≤ 63 ∧
      (∀ i, i ≤ (h.get a).n → Shaped h d ((h.get a).kid i)) ∧ Apart h d a

theorem Sub.shaped : ∀ {d cap : Nat} {a : Addr} {lo hi : Option K}, cap ≤ 63 → Sub h descp d cap a lo hi → Shaped h d a
  | 0, _, _, _, _, hc, hs => ⟨hs.1, hs.2.innerp, Nat.le_trans hs.2.n_le hc⟩
  | d + 1, _, _, _, _, hc, hs =>
      ⟨hs.1, hs.2.1.innerp, Nat.le_trans hs.2.1.n_le hc, fun i hi => (hs.2.1.kids i hi).shaped (by omega), hs.2.2⟩

namespace Shaped

theorem lt_size (hs : Shaped h d a) : a < h.size := by
  cases d with
  | zero => exact hs.1
  | succ d => exact hs.1

theorem n_le (hs : Shaped h d a) : (h.get a).n ≤ 63 := by
  cases d with
  | zero => exact hs.2.2
  | succ d => exact hs.2.2.1

theorem kid (hs : Shaped h (d + 1) a) {i : Nat} (hi' : i ≤ (h.get a).n) : Shaped h d ((h.get a).kid i) :=
  hs.2.2.2.1 i hi'

theorem apart (hs : Shaped h (d + 1) a) : Apart h d a := hs.2.2.2.2

theorem mem_lt_size : ∀ {d : Nat} {a : Addr}, Shaped h d a → Mem h d a x → x < h.size
  | 0, _, hs, hx => by cases hx; exact hs.1
  | d + 1, _, hs, hx => by
      rcases hx with rfl | ⟨i, hi', hx⟩
      · exact hs.1
      · exact (hs.kid hi').mem_lt_size hx

theorem kid_ne_self (hs : Shaped h (d + 1) a) {i : Nat} (hi' : i ≤ (h.get a).n) : (h.get a).kid i ≠ a := by
  intro he
  have hself := hs.apart.self i hi'
  rw [he] at hself
  exact hself (Mem.self h d a)

theorem kid_inj (hs : Shaped h (d + 1) a) {i j : Nat} (hi' : i ≤ (h.get a).n) (hj : j ≤ (h.get a).n) (hij : i ≠ j) :
    (h.get a).kid i ≠ (h.get a).kid j := by
  intro he
  have hkids := hs.apart.kids i j ((h.get a).kid i) hi' hj hij (Mem.self h d _)
  rw [he] at hkids
  exact hkids (Mem.self h d _)

theorem kids_nodup (hs : Shaped h (d + 1) a) : (h.get a).kids.Nodup := by
  refine List.Nodup.map_on (fun i hi' j hj he => ?_) List.nodup_range
  by_contra hij
  simp only [List.mem_range] at hi' hj
  exact hs.kid_inj (by omega) (by omega) hij he

end Shaped

theorem pairs_frame : ∀ {d : Nat} {a : Addr}, (∀ x, Mem h d a x → (h'.get x).n = (h.get x).n ∧
    (h'.get x).innerp = (h.get x).innerp ∧ (h'.get x).key = (h.get x).key ∧ (h'.get x).val = (h.get x).val) →
    pairs h' d a = pairs h d a
  | 0, a, hf => by
      obtain ⟨h₁, h₂, h₃, h₄⟩ := hf a rfl
      simp only [pairs, Node.pairs, Node.value, h₁, h₂, h₃, h₄]
  | d + 1, a, hf => by
      obtain ⟨h₁, h₂, h₃, h₄⟩ := hf a (Mem.self h (d + 1) a)
      have hk : (h'.get a).kids = (h.get a).kids := by
        rw [Node.kids, Node.kids, h₁]
        exact List.map_congr_left (fun i _ => by rw [Node.kid, Node.kid, h₄])
      have hkids : (h.get a).kids.flatMap (pairs h' d) = (h.get a).kids.flatMap (pairs h d) := by
        refine List.flatMap_congr (fun x hx => ?_)
        obtain ⟨i, hi', rfl⟩ := Node.mem_kids.mp hx
        exact pairs_frame (fun y hy => hf y (Mem.kid hi' hy))
      simp only [pairs, hk, hkids, Node.pairs, Node.value, h₁, h₂, h₃, h₄]

theorem pairs_eq_nil_iff (hi : (h.get a).innerp = true) :
    pairs h (d + 1) a = [] ↔ ∀ i, i ≤ (h.get a).n → pairs h d ((h.get a).kid i) = [] := by
  simp only [pairs_twig hi, List.flatMap_eq_nil_iff, Node.mem_kids]
  exact ⟨fun hall i hi' => hall _ ⟨i, hi', rfl⟩, fun hall x hx => by obtain ⟨i, hi', rfl⟩ := hx; exact hall i hi'⟩

/-- `node_free_p` は、組の並びが空であることを調べる。 -/
theorem Shaped.nodeFreeP_iff : ∀ {d fuel : Nat} {a : Addr}, d < fuel → Shaped h d a →
    (nodeFreeP h fuel a = true ↔ pairs h d a = [])
  | _, 0, _, hf, _ => absurd hf (Nat.not_lt_zero _)
  | 0, fuel + 1, a, _, hs => by
      have hn := hs.n_le
      simp only [nodeFreeP, hs.2.1, Bool.not_false, ↓reduceIte, decide_eq_true_eq]
      rw [Arr.le_scan_iff (by omega), pairs_leaf hs.2.1, Node.pairs, List.filter_eq_nil_iff]
      simp [span, Node.value]
  | d + 1, fuel + 1, a, hf, hs => by
      have hn := hs.n_le
      have ih : ∀ i, i ≤ (h.get a).n → (nodeFreeP h fuel ((h.get a).kid i) = true ↔ pairs h d ((h.get a).kid i) = []) :=
        fun i hi' => (hs.kid hi').nodeFreeP_iff (by omega)
      simp only [nodeFreeP, hs.2.1, Bool.not_true, Bool.false_eq_true, ↓reduceIte, decide_eq_true_eq]
      rw [Nat.lt_iff_add_one_le, Arr.le_scan_iff (by omega), pairs_eq_nil_iff hs.2.1]
      exact ⟨fun hall i hi' => (ih i hi').mp (hall i (by omega)), fun hall i hi' => (ih i (by omega)).mpr (hall i (by omega))⟩

/-! ## 二つに分けた節 -/

/-- 葉を分けると、組の並びも二つに分かれる。 -/
theorem Node.Cut.pairs (C : t.Cut t₁ t₂) (hl : t.innerp = false) (hn : t.n = 63) : t₁.pairs ++ t₂.pairs = t.pairs := by
  have h₁ : t₁.n = 32 := by rw [C.l_n, hl]; rfl
  have h₂ : t₂.n = 31 := C.r_n
  rw [Node.pairs, Node.pairs, Node.pairs, h₁, h₂, hn, show 63 = 32 + 31 from rfl, span_add, List.filter_append]
  congr 2
  · refine span_congr (fun j hj => ?_)
    simp only [Node.value]
    rw [C.l_key _ (by omega), C.l_val _ (by rw [piv_eq]; omega)]
  · refine span_congr (fun j hj => ?_)
    simp only [Node.value]
    rw [C.r_key _ (by rw [piv_eq]; omega), C.r_val _ (by rw [piv_eq]; omega), piv_eq,
      show 31 + 1 + (0 + j) = 0 + 32 + j by omega]

/-- 節を二つに分けて、その子の部分木が変わらなければ、二つの組の並びをつなぐと元の並びになる。 -/
theorem Shaped.pairs_cut (hs : Shaped h d c) (hn : (h.get c).n = 63) (C : (h.get c).Cut (h'.get l) (h'.get r))
    (hf : ∀ x, Mem h d c x → x ≠ c → (h'.get x).n = (h.get x).n ∧ (h'.get x).innerp = (h.get x).innerp ∧
      (h'.get x).key = (h.get x).key ∧ (h'.get x).val = (h.get x).val) : pairs h' d l ++ pairs h' d r = pairs h d c := by
  have hl := C.l_innerp
  have hr := C.r_innerp
  cases d with
  | zero =>
      rw [hs.2.1] at hl hr
      rw [pairs_leaf hl, pairs_leaf hr, pairs_leaf hs.2.1]
      exact C.pairs hs.2.1 hn
  | succ d =>
      rw [hs.2.1] at hl hr
      rw [pairs_twig hl, pairs_twig hr, pairs_twig hs.2.1, ← List.flatMap_append, ← C.kids hs.2.1 hn]
      refine List.flatMap_congr (fun x hx => ?_)
      obtain ⟨i, hi', rfl⟩ := Node.mem_kids.mp hx
      refine pairs_frame (fun y hy => hf y (Mem.kid hi' hy) ?_)
      rintro rfl
      exact hs.apart.self i hi' hy

/-! ## `node_split` -/

section NodeSplit
variable (hs : Shaped h (d + 1) a) (hidx : idx ≤ (h.get a).n)
include hs

theorem Shaped.spareIdx_le (hf : d < fuel) (hnul : spareIdx fuel h (h.get a) = nul) (hle : nul ≤ (h.get a).n) :
    pairs h d ((h.get a).kid nul) = [] := by
  have hn := hs.n_le
  have hstop := Arr.scan_stop (p := fun u : Ual Q => !nodeFreeP h fuel u.asT) (m := (h.get a).n + 1)
    (a := (h.get a).val) (by omega) (by unfold spareIdx at hnul; omega)
  rw [show (h.get a).val.scan (fun u : Ual Q => !nodeFreeP h fuel u.asT) ((h.get a).n + 1) = nul from hnul] at hstop
  exact ((hs.kid hle).nodeFreeP_iff hf).mp (by simpa [Node.kid] using hstop)

theorem Shaped.before_spareIdx (hf : d < fuel) (hnul : spareIdx fuel h (h.get a) = nul) {i : Nat} (hi' : i < nul) :
    pairs h d ((h.get a).kid i) ≠ [] := by
  have hle : nul ≤ (h.get a).n + 1 := hnul ▸ Arr.scan_le _ _ _
  have hhold := Arr.scan_holds (p := fun u : Ual Q => !nodeFreeP h fuel u.asT) (m := (h.get a).n + 1)
    (a := (h.get a).val) (j := i) (by unfold spareIdx at hnul; omega)
  intro hnil
  have hfree := ((hs.kid (by omega : i ≤ (h.get a).n)).nodeFreeP_iff hf).mpr hnil
  simp only [Node.kid] at hfree
  rw [hfree] at hhold; cases hhold

/-- 空いた子がないのは、どの子の下にも値が nil でない組があるときである。 -/
theorem Shaped.spareIdx_gt_iff (hf : d < fuel) :
    (h.get a).n < spareIdx fuel h (h.get a) ↔ ∀ i, i ≤ (h.get a).n → pairs h d ((h.get a).kid i) ≠ [] := by
  constructor
  · exact fun hlt i hi' => hs.before_spareIdx hf rfl (by omega)
  · intro hall
    by_contra hge
    exact hall _ (Nat.le_of_not_lt hge) (hs.spareIdx_le hf rfl (Nat.le_of_not_lt hge))

include hidx

theorem Shaped.splitted (hne : nul ≠ idx) (hnul : spareIdx fuel h (h.get a) = nul) :
    Splitted h (nodeSplit fuel h a idx) a idx nul :=
  nodeSplit_splitted hs.lt_size (fun _ hi' => hs.kid_ne_self hi') (fun _ hi' => (hs.kid hi').lt_size)
    (fun _ _ hi' hj hij => hs.kid_inj hi' hj hij) hidx hnul hne

variable (S : Splitted h h' a idx nul) (hnul : nul ≤ (h.get a).n + 1) (hne : nul ≠ idx)
include S hnul hne

/-- 使い回さない子の部分木の節は、分けた子を除いて中身が変わらない。 -/
theorem Shaped.split_same {m : Nat} (hm : m ≤ (h.get a).n) (hmn : m ≠ nul) (hx : Mem h d ((h.get a).kid m) x)
    (hxc : x ≠ (h.get a).kid idx) :
    (h'.get x).n = (h.get x).n ∧ (h'.get x).innerp = (h.get x).innerp ∧ (h'.get x).key = (h.get x).key ∧
      (h'.get x).val = (h.get x).val := by
  have hlt := (hs.kid hm).mem_lt_size hx
  have hxa : x ≠ a := by rintro rfl; exact hs.apart.self m hm hx
  have hxr : x ≠ spareAddr h (h.get a) nul := by
    rintro rfl
    unfold spareAddr at hx hlt
    split at hx
    · rename_i hn
      rw [if_pos hn] at hlt
      exact Nat.lt_irrefl _ hlt
    · exact hs.apart.kids nul m _ (by omega) hm hmn.symm (Mem.self h d _) hx
  rw [S.next_only hlt hxa hxc hxr]
  exact ⟨rfl, rfl, rfl, rfl⟩

theorem Shaped.split_kid {m : Nat} (hm : m ≤ (h.get a).n) (hmn : m ≠ nul) (hmi : m ≠ idx) :
    pairs h' d ((h.get a).kid m) = pairs h d ((h.get a).kid m) := by
  refine pairs_frame (fun x hx => hs.split_same hidx S hnul hne hm hmn hx ?_)
  rintro rfl
  exact hs.apart.kids m idx _ hm hidx hmi hx (Mem.self h d _)

/-- 分けた子と `RGHT` の組をつなぐと、分ける前の子の組になる。 -/
theorem Shaped.split_chld (hfull : (h.get ((h.get a).kid idx)).n = 63) :
    pairs h' d ((h.get a).kid idx) ++ pairs h' d (spareAddr h (h.get a) nul) = pairs h d ((h.get a).kid idx) :=
  (hs.kid hidx).pairs_cut hfull S.cut (fun _ hx hxc => hs.split_same hidx S hnul hne hidx hne.symm hx hxc)

/-- 分けた子と使い回した子のほかの子の並びでは、組の並びは変わらない。 -/
theorem Shaped.split_others {A C : List Addr} (hsub : ∀ x ∈ A ++ (h.get a).kid idx :: C, x ∈ (h.get a).kids)
    (hnd : (A ++ (h.get a).kid idx :: C).Nodup)
    (hsp : nul ≤ (h.get a).n → (h.get a).kid nul ∉ A ++ (h.get a).kid idx :: C)
    (hfull : (h.get ((h.get a).kid idx)).n = 63) :
    (A ++ (h.get a).kid idx :: spareAddr h (h.get a) nul :: C).flatMap (pairs h' d) =
      (A ++ (h.get a).kid idx :: C).flatMap (pairs h d) := by
  obtain ⟨_, hn₂, hdisj⟩ := List.nodup_append.mp hnd
  have hcC := (List.nodup_cons.mp hn₂).1
  have hside : ∀ L : List Addr, (∀ x ∈ L, x ∈ A ++ (h.get a).kid idx :: C) → (h.get a).kid idx ∉ L →
      L.flatMap (pairs h' d) = L.flatMap (pairs h d) := by
    intro L hL hcL
    refine List.flatMap_congr (fun x hx => ?_)
    obtain ⟨m, hm, rfl⟩ := Node.mem_kids.mp (hsub x (hL x hx))
    refine hs.split_kid hidx S hnul hne hm ?_ ?_
    · rintro rfl; exact hsp hm (hL _ hx)
    · rintro rfl; exact hcL hx
  rw [List.flatMap_append, List.flatMap_cons, List.flatMap_cons, List.flatMap_append, List.flatMap_cons,
    hside A (fun x hx => List.mem_append_left _ hx) (fun hm => hdisj _ hm _ List.mem_cons_self rfl),
    hside C (fun x hx => List.mem_append_right _ (List.mem_cons_of_mem _ hx)) hcC,
    ← hs.split_chld hidx S hnul hne hfull, List.append_assoc]

/-- `node_split` は、値が nil でない組の並びを変えない。 -/
theorem Shaped.nodeSplit_pairs (hn : (h.get a).n ≤ 62) (hfull : (h.get ((h.get a).kid idx)).n = 63)
    (hnil : nul ≤ (h.get a).n → pairs h d ((h.get a).kid nul) = []) : pairs h' (d + 1) a = pairs h (d + 1) a := by
  have hnd := hs.kids_nodup
  have hi : (h'.get a).innerp = true := by rw [S.parent, (splitParent_rest _ _ _ _ _).1]; exact hs.2.1
  rw [pairs_twig hi, pairs_twig hs.2.1]
  by_cases hf : (h.get a).n < nul
  · obtain ⟨A, C, hk, hk'⟩ := S.kids_fresh hn hidx hnul hne hf
    rw [hk] at hnd
    rw [hk', hk]
    exact hs.split_others hidx S hnul hne (fun x hx => by rw [hk]; exact hx) hnd (fun hle => by omega) hfull
  · have hle := Nat.le_of_not_lt hf
    obtain ⟨A, C, A', C', hk, hAC, hk', _⟩ := S.kids_spare hn hidx hnul hne hle
    rw [hk] at hnd
    have hmid := List.nodup_middle.mp hnd
    obtain ⟨hsp, hnd'⟩ := List.nodup_cons.mp hmid
    -- 空いた子は組を持たないので、元の並びから落としてよい。
    have hold : (h.get a).kids.flatMap (pairs h d) = (A' ++ (h.get a).kid idx :: C').flatMap (pairs h d) := by
      rw [hk, ← hAC, List.flatMap_append, List.flatMap_cons, hnil hle, List.nil_append, List.flatMap_append]
    have hsub : ∀ x ∈ A' ++ (h.get a).kid idx :: C', x ∈ (h.get a).kids := by
      intro x hx
      rw [← hAC] at hx
      rw [hk]
      rcases List.mem_append.mp hx with hx | hx
      · exact List.mem_append_left _ hx
      · exact List.mem_append_right _ (List.mem_cons_of_mem _ hx)
    rw [hAC] at hsp hnd'
    have hr : (h.get a).kid nul = spareAddr h (h.get a) nul := (if_neg hf).symm
    rw [hold, hk', hr]
    exact hs.split_others hidx S hnul hne hsub hnd' (fun _ => hsp) hfull

end NodeSplit

/-! ## `root_split` -/

/-- `root_split` は、値が nil でない組の並びを変えない。 -/
theorem Shaped.rootSplit_pairs (hs : Shaped h d a) (hn : (h.get a).n = 63) :
    pairs (rootSplit h a) (d + 1) a = pairs h d a := by
  have ha := hs.lt_size
  obtain ⟨h₁, h₂, _, _, h₅, h₆, _⟩ := rootSplit_root ha
  have hk : ((rootSplit h a).get a).kids = [h.size, h.size + 1] := by
    rw [Node.kids_eq, h₁, span_succ, span_succ, Nat.zero_add, h₅, h₆]; rfl
  rw [← hs.pairs_cut hn (rootSplit_cut ha) (fun x hx hxa => by
    rw [rootSplit_rest (hs.mem_lt_size hx) hxa]; exact ⟨rfl, rfl, rfl, rfl⟩), pairs_twig h₂, hk]
  simp only [List.flatMap_cons, List.flatMap_nil, List.append_nil]

end Books.Btree
