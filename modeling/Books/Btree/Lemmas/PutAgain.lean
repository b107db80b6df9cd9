import Books.Btree.Lemmas.Run

/-!
# すでにあるキーの追加

キーの場所のビットが立っていて、根の分割を先送りしていなければ、`btree_put` は木を変えずに、その場所を返す。
-/

set_option linter.unusedSectionVars false

namespace Books.Btree

open Books.Lib

variable {K Q : Type} [LinearOrder K] [LinearOrder Q] [Zero Q]
variable {descp : Bool} {h : Heap K Q} {lo hi : Option K} {t : Node K Q} {d cap : Nat} {a : Addr} {k : K} {c : Cell}

/-! ## 同じものの書き込み -/

theorem Heap.set_get_self (h : Heap K Q) (a : Addr) : h.set a (h.get a) = h := by
  by_cases ha : a < h.cells.length
  · have hget : h.get a = h.cells[a] := by simp [Heap.get, ha]
    rw [hget, Heap.set, List.set_getElem_self]
  · exact Heap.set_of_le _ (Nat.le_of_not_lt ha)

theorem or_mark_of_set {u : BitVec 64} {i : Nat} (hu : u.getLsbD i = true) : u ||| (1#64 <<< i) = u := by
  refine BitVec.eq_of_getLsbD_eq (fun m hm => ?_)
  rw [getLsbD_mark u i hm]
  by_cases he : m = i
  · rw [he, hu]
    rfl
  · simp [he]

/-! ## 葉と内部の節 -/

theorem Node.LeafOk.leafAdd_again (ht : t.LeafOk descp cap lo hi) (hc : cap ≤ 63) {i : Nat} (hi' : i < t.n)
    (hk : t.key.get i = some k) (hu : t.used.getLsbD i = true) : t.leafAdd (some k) = (t, i) := by
  have hs := ht.seek_of_key hc hi' hk
  rw [Node.leafAdd_found (by rw [hs]; exact keyEq_iff.mpr ⟨k, rfl, hk⟩), hs, or_mark_of_set hu]

theorem Sub.leafAdd_again (hs : Sub h descp 0 62 a lo hi) (hc : CellAt h 0 a k c)
    (hu : (h.get c.t).used.getLsbD c.i = true) : leafAdd h a (some k) = ⟨h, false, c⟩ := by
  obtain ⟨t, i⟩ := c
  obtain rfl : t = a := hc.mem
  have hn := hs.2.n_le
  unfold leafAdd
  rw [hs.2.leafAdd_again (by decide) hc.lt hc.key hu]
  simp only [Heap.set_get_self, decide_eq_false (show ¬ 64 - 1 ≤ (h.get t).n by omega)]

theorem Sub.twigAdd_again : ∀ {d fuel : Nat} {a : Addr} {lo hi : Option K}, d < fuel → Sub h descp (d + 1) 62 a lo hi →
    CellAt h (d + 1) a k c → (h.get c.t).used.getLsbD c.i = true → twigAdd fuel h a (some k) = ⟨h, false, c⟩
  | _, 0, _, _, _, hf, _, _, _ => absurd hf (Nat.not_lt_zero _)
  | 0, fuel + 1, a, _, _, _, hs, hc, hu => by
      have hkid := hs.2.1.kids _ ((h.get a).seek_le (some k))
      have hn := hs.2.1.n_le
      unfold twigAdd
      simp only [hkid.2.innerp, Bool.not_false, if_true, hkid.leafAdd_again ((hs.cell_route (by decide)).mp hc) hu,
        Bool.false_eq_true, if_false, decide_eq_false (show ¬ 64 - 1 ≤ (h.get a).n by omega)]
  | d + 1, fuel + 1, a, _, _, hf, hs, hc, hu => by
      have hkid := hs.2.1.kids _ ((h.get a).seek_le (some k))
      have hn := hs.2.1.n_le
      have ih := Sub.twigAdd_again (Nat.lt_of_succ_lt_succ hf) hkid ((hs.cell_route (by decide)).mp hc) hu
      unfold twigAdd
      simp only [hkid.2.1.innerp, Bool.not_true, Bool.false_eq_true, if_false, ih,
        decide_eq_false (show ¬ 64 - 1 ≤ (h.get a).n by omega)]

/-! ## `btree_put` -/

theorem Inv.btreePut_again (I : Inv h descp d) (hc : CellAt h d root k c) (hu : (h.get c.t).used.getLsbD c.i = true)
    (hsp : (h.get root).splitp = false) : btreePut h root (some k) = (h, c) := by
  have hn : (h.get root).n ≤ 62 := by
    have hle := I.sub.n_le
    have hne : (h.get root).n ≠ 63 := by
      have hs := I.splitp
      rw [hsp] at hs
      exact of_decide_eq_false hs.symm
    omega
  have hs := I.sub.cap_mono hn
  have hadd : addRooted h (some k) = ⟨h, false, c⟩ := by
    unfold addRooted
    cases d with
    | zero =>
        rw [hs.2.innerp]
        exact hs.leafAdd_again hc hu
    | succ d =>
        rw [hs.2.1.innerp]
        exact hs.twigAdd_again (Nat.lt_of_succ_lt I.depth) hc hu
  rw [btreePut_eq, rooted, hsp, if_neg Bool.false_ne_true, hadd]
  have hroot : ({ h.get root with splitp := false } : Node K Q) = h.get root := by rw [← hsp]
  simp only [Heap.modify, hroot, Heap.set_get_self]

end Books.Btree
