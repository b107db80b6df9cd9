import Books.Btree.Lemmas.Marks
import Books.Btree.Lemmas.SplitPairs

/-!
# 分割と `used` のビット

分割は `used` を移さない。`CHLD` のビットは元の位置のままで、`RGHT` のビットは、確保した節では空、使い回した節では
古いままである。分けた葉のビットがいつ足りるかを、分ける前の節の言葉で述べる。
-/

set_option linter.unusedSectionVars false

namespace Books.Btree

open Books.Lib

variable {K Q : Type} [LinearOrder K] [LinearOrder Q] [Zero Q]
variable {h h' : Heap K Q} {fuel idx nul : Nat} {a : Addr} {t t₁ t₂ : Node K Q}

/-! ## 二つに分けた葉 -/

theorem Node.Cut.l_marked_iff (C : t.Cut t₁ t₂) (hl : t.innerp = false) : t₁.Marked ↔
    ∀ i, i ≤ piv → (t.value i).nilP = false → t₁.used.getLsbD i = true := by
  have hn : t₁.n = piv + 1 := by rw [C.l_n, hl]; rfl
  have hv : ∀ i, i ≤ piv → t₁.value i = t.value i := fun i hi => by simp only [Node.value, C.l_val i hi]
  constructor
  · exact fun hm i hi hnil => hm i (by omega) (by rw [hv i hi]; exact hnil)
  · exact fun hall i hi hnil => hall i (by omega) (by rw [← hv i (by omega)]; exact hnil)

theorem Node.Cut.r_marked_iff (C : t.Cut t₁ t₂) : t₂.Marked ↔
    ∀ i, i < piv → (t.value (piv + 1 + i)).nilP = false → t₂.used.getLsbD i = true := by
  have hv : ∀ i, i < piv → t₂.value i = t.value (piv + 1 + i) :=
    fun i hi => by simp only [Node.value, C.r_val i (Nat.le_of_lt hi)]
  constructor
  · exact fun hm i hi hnil => hm i (by rw [C.r_n]; exact hi) (by rw [hv i hi]; exact hnil)
  · intro hall i hi hnil
    rw [C.r_n] at hi
    exact hall i hi (by rw [← hv i hi]; exact hnil)

/-! ## `root_split` -/

/-- 確保した二つの葉のビットは空なので、値のある添字があれば足りない。 -/
theorem rootSplit_marked_iff (ha : a < h.size) (hl : (h.get a).innerp = false) :
    ((rootSplit h a).get h.size).Marked ∧ ((rootSplit h a).get (h.size + 1)).Marked ↔
      ∀ i, i < 63 → ((h.get a).value i).nilP = true := by
  have C := rootSplit_cut ha
  have h₁ : ∀ i, ((rootSplit h a).get h.size).used.getLsbD i = false := by
    intro i; rw [rootSplit_left ha]; exact BitVec.getLsbD_zero
  have h₂ : ∀ i, ((rootSplit h a).get (h.size + 1)).used.getLsbD i = false := by
    intro i; rw [rootSplit_rght ha]; exact BitVec.getLsbD_zero
  rw [C.l_marked_iff hl, C.r_marked_iff]
  simp only [h₁, h₂, Bool.false_eq_true, imp_false, Bool.not_eq_false]
  constructor
  · rintro ⟨hleft, hrght⟩ i hi
    by_cases hle : i ≤ piv
    · exact hleft i hle
    · have := hrght (i - (piv + 1)) (by rw [piv_eq] at hle ⊢; omega)
      rwa [show piv + 1 + (i - (piv + 1)) = i by omega] at this
  · exact fun hall => ⟨fun i hi => hall i (by rw [piv_eq] at hi; omega),
      fun i hi => hall _ (by rw [piv_eq] at hi ⊢; omega)⟩

/-! ## `node_split` -/

/-- 後半の値のある添字では、`RGHT` になる節のビットが、移った先の添字で立っている。分ける子そのものを使い回すときは、
`n` の外の値も一つ移る。 -/
def splitsClean (fuel : Nat) (h : Heap K Q) (p : Node K Q) (idx : Nat) : Prop :=
  (∀ i, i < piv → ((h.get (p.kid idx)).value (piv + 1 + i)).nilP = false →
    (spareNode h p idx (spareIdx fuel h p)).used.getLsbD i = true) ∧
  (spareIdx fuel h p = idx → ((h.get (p.kid idx)).value 63).nilP = false →
    (h.get (p.kid idx)).used.getLsbD piv = true)

/-- 分ける子そのものが使い回す子であるとき、後半が前半に上書きされる。 -/
theorem nodeSplit_self (hs : Shaped h 1 a) (hidx : idx ≤ (h.get a).n) (hnul : spareIdx fuel h (h.get a) = idx) :
    (nodeSplit fuel h a idx).get ((h.get a).kid idx) =
      splitChld (splitRght (h.get ((h.get a).kid idx)) (h.get ((h.get a).kid idx))) ((h.get a).kid idx) := by
  have hcl := (hs.kid hidx).lt_size
  have hcp := hs.kid_ne_self hidx
  unfold nodeSplit
  simp only [hnul, splitSpare, if_neg (Nat.not_lt_of_le hidx)]
  by_cases h0 : idx = 0
  · simp only [h0, ne_eq, not_true_eq_false, ↓reduceIte]
    rw [h0] at hcl hcp
    rw [Heap.get_modify_eq _ (by simpa using hcl), Heap.get_modify_eq _ (by simpa using hcl),
      Heap.get_modify_ne _ hcp.symm]
  · have hvc : (h.get a).kid (idx - 1) ≠ (h.get a).kid idx := hs.kid_inj (by omega) hidx (by omega)
    simp only [h0, ne_eq, not_false_eq_true, ↓reduceIte]
    rw [Heap.get_modify_eq _ (by simpa using hcl), Heap.get_modify_eq _ (by simpa using hcl),
      Heap.get_modify_ne _ hcp.symm, Heap.get_modify_ne _ hvc]

theorem splitSelf_marked_iff (c : Node K Q) (rght : Addr) (hl : c.innerp = false) :
    (splitChld (splitRght c c) rght).Marked ↔
      ∀ i, i ≤ piv → (c.value (piv + 1 + i)).nilP = false → c.used.getLsbD i = true := by
  have C := Node.Cut.node c c rght none
  have hn : (splitChld (splitRght c c) rght).n = piv + 1 := by
    rw [show (splitChld (splitRght c c) rght).n = piv + (!c.innerp).toNat from rfl, hl]; rfl
  have hv : ∀ i, i ≤ piv → (splitChld (splitRght c c) rght).value i = c.value (piv + 1 + i) := by
    intro i hi
    have := C.r_val i hi
    simp only [Node.value]
    exact congrArg Ual.asV this
  constructor
  · exact fun hm i hi hnil => hm i (by omega) (by rw [hv i hi]; exact hnil)
  · exact fun hall i hi hnil => hall i (by omega) (by rw [← hv i (by omega)]; exact hnil)

/-- 分けた二つの葉のビットが足りるのは、`splitsClean` のときである。 -/
theorem nodeSplit_marked_iff (hs : Shaped h 1 a) (hidx : idx ≤ (h.get a).n)
    (hm : (h.get ((h.get a).kid idx)).Marked) (hfull : (h.get ((h.get a).kid idx)).n = 63) :
    ((nodeSplit fuel h a idx).get ((h.get a).kid idx)).Marked ∧
      ((nodeSplit fuel h a idx).get (spareAddr h (h.get a) (spareIdx fuel h (h.get a)))).Marked ↔
      splitsClean fuel h (h.get a) idx := by
  have hl : (h.get ((h.get a).kid idx)).innerp = false := (hs.kid hidx).2.1
  by_cases hne : spareIdx fuel h (h.get a) = idx
  · have hr : spareAddr h (h.get a) (spareIdx fuel h (h.get a)) = (h.get a).kid idx := by
      rw [hne, spareAddr, if_neg (Nat.not_lt_of_le hidx)]
    have hsp : spareNode h (h.get a) idx (spareIdx fuel h (h.get a)) = h.get ((h.get a).kid idx) := by
      rw [hne, spareNode, if_neg (Nat.not_lt_of_le hidx)]
    rw [hr, and_self, nodeSplit_self hs hidx hne, splitSelf_marked_iff _ _ hl, splitsClean, hsp]
    constructor
    · exact fun hall => ⟨fun i hi => hall i (Nat.le_of_lt hi), fun _ => hall piv (Nat.le_refl _)⟩
    · rintro ⟨hall, hlast⟩ i hi
      rcases Nat.lt_or_eq_of_le hi with hlt | rfl
      · exact hall i hlt
      · exact hlast hne
  · have S := hs.splitted hidx hne rfl
    have C := S.cut
    have hchld : ((nodeSplit fuel h a idx).get ((h.get a).kid idx)).used = (h.get ((h.get a).kid idx)).used := by
      rw [S.chld]; rfl
    have hrght : ((nodeSplit fuel h a idx).get (spareAddr h (h.get a) (spareIdx fuel h (h.get a)))).used =
        (spareNode h (h.get a) idx (spareIdx fuel h (h.get a))).used := by
      rw [S.rght]; rfl
    rw [C.l_marked_iff hl, C.r_marked_iff, hchld, hrght, splitsClean]
    constructor
    · exact fun hb => ⟨hb.2, fun he => absurd he hne⟩
    · exact fun hb => ⟨fun i hi hnil => hm i (by rw [hfull]; rw [piv_eq] at hi; omega) hnil, hb.1⟩

end Books.Btree
