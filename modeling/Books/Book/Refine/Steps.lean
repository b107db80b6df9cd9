import Books.Book.Refine.Lemmas

/-!
# 対応を保つ操作

`books.c` が木に対して行う操作は、どれも、木と順序つき写像との対応を保つ。
-/

set_option linter.unusedSectionVars false

namespace Books.Book

open Books.Btree

variable {K Q : Type} [LinearOrder K] [Zero K] [LinearOrder Q] [AddCommGroup Q]
variable {descp : Bool} {h h' : Tree K Q descp} {m : OrdMap K Q descp} {d : Nat} {k p : K} {c : Cell}

namespace Represents

theorem make (descp : Bool) : Represents (BTree.make descp : Tree K Q descp) (BTree.make descp : OrdMap K Q descp) := by
  refine ⟨⟨0, inv_makeBtree descp, linked_makeBtree descp⟩, ?_, fun _ => le_rfl, fun _ => shown_nil.symm⟩
  exact Heap.All.makeBtree (P := fun v : BtreeVal Q => 0 ≤ v.q) trivial le_rfl descp

/-! ## 追加 -/

/-- 返した場所の元の値は、写像の値と同じに見える。 -/
theorem put_old (R : Represents h m) (hs : safePut h p = true) :
    shown ((btreePut h root (some p)).1.load (btreePut h root (some p)).2) = shown (m.val p) := by
  obtain ⟨d, I, L⟩ := R.sound
  obtain ⟨hl, _⟩ := Bool.and_eq_true_iff.mp hs
  obtain ⟨d', P⟩ := I.put p
  rw [← find_at P.inv (P.live (by simpa using hl)), ← R.find]
  have hiff : ∀ w : BtreeVal Q, w.nilP = false → (Btree.find (btreePut h root (some p)).1 p = w ↔ Btree.find h p = w) := by
    intro w hw
    rw [P.inv.sub.find_iff P.inv.depth hw, P.has p w hw, I.sub.find_iff I.depth hw]
  cases hv : (Btree.find h p).nilP with
  | false => exact (hiff _ hv).mpr rfl
  | true =>
      have hnil : ∀ w : BtreeVal Q, w.nilP = false → Btree.find h p ≠ w := by
        rintro w hw rfl
        rw [hv] at hw
        cases hw
      rw [find_eq_nil_iff.mpr hnil]
      exact find_eq_nil_iff.mpr (fun w hw he => hnil w hw ((hiff w hw).mp he))

/-- 数量だけから決まる値の書き込みは、対応を保つ。 -/
theorem putVal (R : Represents h m) (hs : safePut h p = true) {f : BtreeVal Q → BtreeVal Q}
    (hf : ∀ o o', o.q = o'.q → f o = f o') (hpos : ∀ o, 0 ≤ o.q → 0 ≤ (f o).q) :
    Represents (Book.putVal h (some p) f).1 (Book.putVal m (some p) f).1 ∧
    shown (Book.putVal h (some p) f).2 = shown (Book.putVal m (some p) f).2 ∧ 0 ≤ (Book.putVal h (some p) f).2.q := by
  obtain ⟨d, I, L⟩ := R.sound
  obtain ⟨hl, hb⟩ := Bool.and_eq_true_iff.mp hs
  rw [Bool.not_eq_true'] at hl hb
  have hold := R.put_old hs
  have hnn : NonNeg (btreePut h root (some p)).1 :=
    Heap.All.btreePut (P := fun v : BtreeVal Q => 0 ≤ v.q) trivial le_rfl R.nonneg root trivial
  have hq : ((btreePut h root (some p)).1.load (btreePut h root (some p)).2).q = (m.val p).q := by
    rw [← shown_q_eq (nonNeg_iff_load.mp hnn _), hold, shown_q_eq (R.ideal p)]
  have hfv : f ((btreePut h root (some p)).1.load (btreePut h root (some p)).2) = f (m.val p) := hf _ _ hq
  have hreal : (Book.putVal h (some p) f).1 = step h (.put p (f (m.val p))) := by
    rw [← hfv]
    rfl
  refine ⟨⟨?_, ?_, fun k => ?_, fun k => ?_⟩, hold, nonNeg_iff_load.mp hnn _⟩
  · rw [hreal]
    exact I.linked_step L (.put p _) hb
  · rw [hreal]
    exact hnn.store (hpos _ (R.ideal p))
  · rw [putVal_val]
    split
    · exact hpos _ (R.ideal p)
    · exact R.ideal k
  · rw [hreal, putVal_val]
    by_cases hk : k = p
    · subst hk
      rw [if_pos rfl]
      cases hv : (f (m.val k)).nilP with
      | false =>
          rw [shown_of_live hv]
          exact (I.find_put hl hv k).mpr (Or.inl ⟨rfl, rfl⟩)
      | true =>
          rw [shown_of_nil hv]
          refine find_eq_nil_iff.mpr (fun w hw he => ?_)
          rcases (I.find_put hl hw k).mp he with ⟨_, rfl⟩ | ⟨hne, _⟩
          · rw [hv] at hw
            cases hw
          · exact hne rfl
    · rw [if_neg hk, I.find_put_ne hl hk]
      exact R.find k

/-! ## 一つの場所への書き込み -/

/-- 検索で着く場所への書き込みは、写像への書き込みに対応する。 -/
theorem store (R : Represents h m) {v : BtreeVal Q} (hg : btreeGet h root (some k) = some c) (hv : 0 ≤ v.q) :
    Represents (Heap.store h c v) (Book.putVal m (some k) fun _ => v).1 := by
  obtain ⟨d, I, L⟩ := R.sound
  have hc := (I.sub.btreeGet_iff (Nat.le_refl _) I.depth).mp hg
  have H : Heap.Same h (Heap.store h c v) := .store hc.leaf
  refine ⟨⟨d, I.same H, L.store I.sub hc.mem hc.leaf⟩, R.nonneg.store hv, fun k' => ?_, fun k' => ?_⟩
  · rw [putVal_val]
    split
    · exact hv
    · exact R.ideal k'
  · rw [putVal_val]
    by_cases hk : k' = k
    · have hi' : c.i < 64 := by
        have hlt := hc.lt
        have hle := I.sub.mem_n_le (Nat.le_refl _) hc.mem
        omega
      rw [if_pos hk, find_elim, btreeGet_same I H, hk, hg, Option.elim_some,
        load_store_eq (I.sub.mem_lt_size hc.mem) hi']
    · rw [if_neg hk, ← R.find k', find_elim, find_elim, btreeGet_same I H]
      cases hg' : btreeGet h root (some k') with
      | none => rfl
      | some c' =>
          have hne : c' ≠ c := by
            rintro rfl
            have hkey := ((I.sub.btreeGet_iff (Nat.le_refl _) I.depth).mp hg').key
            rw [hc.key] at hkey
            exact hk (Option.some.inj hkey).symm
          rw [Option.elim_some, Option.elim_some, load_store_ne hne]

/-- 値の見える場所では、木の値は写像の値である。 -/
theorem val_eq_load (R : Represents h m) (hg : btreeGet h root (some k) = some c) (hv : (Heap.load h c).nilP = false) :
    m.val k = Heap.load h c := by
  have hf : shown (Heap.load h c) = shown (m.val k) := by
    rw [← R.find k, find_elim, hg]
    rfl
  have hv' : (m.val k).nilP = false := by rw [← nilP_shown, ← hf, nilP_shown]; exact hv
  rw [shown_of_live hv, shown_of_live hv'] at hf
  exact hf.symm

/-! ## 消去 -/

theorem clr (R : Represents h m) : Represents (BTree.clr h) (BTree.clr m) := by
  obtain ⟨d, I, L⟩ := R.sound
  refine ⟨I.linked_step L .clr trivial, ?_, fun _ => le_rfl, fun k => ?_⟩
  · exact Heap.All.clrFrom (P := fun v : BtreeVal Q => 0 ≤ v.q) le_rfl _ _ _ R.nonneg
  · rw [clr_val, shown_nil]
    exact I.find_clr L k

/-! ## 反復 -/

/-- ビットのほかは変わらなければ、同じ写像を表す。 -/
theorem usedOnly (R : Represents h m) (U : Heap.UsedOnly h h') : Represents h' m := by
  obtain ⟨d, I, L⟩ := R.sound
  exact ⟨⟨d, I.same U.same, L.usedOnly I.sub U⟩, R.nonneg.usedOnly U, R.ideal,
    fun k => (find_same I U.same U.load_eq k).trans (R.find k)⟩

theorem nextTimes : ∀ (n : Nat) (h : Tree K Q descp) (it : BtreeIter K), Represents h m → Represents (Book.nextTimes n h it) m
  | 0, _, _, R => R
  | n + 1, h, it, R => nextTimes n _ _ (R.usedOnly (btreeIterNext_usedOnly h it))

theorem nextTimes_ideal : ∀ (n : Nat) (m : OrdMap K Q descp) (last : Option K), Book.nextTimes n m last = m
  | 0, _, _ => rfl
  | n + 1, m, last => nextTimes_ideal n m (BTree.iterNext m last).2.1

/-- 反復しながらの書き換えは、見えるキーの値を負にしなければ、対応を保つ。 -/
theorem eachVal (R : Represents h m) (M : AllMarked h) {go : Option K → Bool} {f : Option K → BtreeVal Q → BtreeVal Q}
    (hf : ∀ k, (m.val k).nilP = false → go (some k) = true → 0 ≤ (f (some k) (m.val k)).q) :
    Represents (Book.eachVal go f (BTree.bound h) h BTree.iter) (Book.eachVal go f (BTree.bound m) m BTree.iter) := by
  obtain ⟨d, I, L⟩ := R.sound
  obtain ⟨W, C, hm, hW, hlen⟩ := leafChain I L M
  obtain ⟨x, p, W', S⟩ := C.stands hm
  have hnd := liveOn_nodup (h := h) C.nodup
  have hlive := liveCells_length C hW hlen
  rw [hW] at S hnd
  have T : Touched h h W [] := ⟨.refl h, fun _ _ => rfl, hm, fun c hc => absurd hc List.not_mem_nil⟩
  obtain ⟨H, hload⟩ : Heap.Same h (Book.eachVal go f (BTree.bound h) h BTree.iter) ∧
      ∀ c, Heap.load (Book.eachVal go f (BTree.bound h) h BTree.iter) c =
        if c ∈ (liveCells h).takeWhile (fun c => go (cellKey h c)) then f (cellKey h c) (Heap.load h c) else Heap.load h c :=
    eachVal_stands C (liveCells h) (64 * Heap.size h + 1) h (.fresh root) [] x p W' T S (fun _ _ => List.not_mem_nil) hnd
      (by omega)
  have hval : ∀ k, (Book.eachVal go f (BTree.bound m) m BTree.iter).val k =
      if k ∈ (m.rest none).takeWhile (fun k => go (some k)) then f (some k) (m.val k) else m.val k :=
    eachVal_val go f (m.rest none) (m.keys.length + 1) m none rfl (Nat.lt_succ_of_le (m.rest_length none))
  -- 書き換えられる場所の値は、写像の値であり、書き換えた後も負でない。
  have hcell : ∀ c ∈ (liveCells h).takeWhile (fun c => go (cellKey h c)),
      0 ≤ (f (cellKey h c) (Heap.load h c)).q := by
    intro c hc
    obtain ⟨k, hk, hck, hfind, hv⟩ := mem_liveCells_key I ((List.takeWhile_prefix _).subset hc)
    have hgo : go (cellKey h c) = true := List.mem_takeWhile_imp (p := fun c => go (cellKey h c)) hc
    rw [hck] at hgo ⊢
    rw [← hfind, R.find_live (by rw [← nilP_shown, ← R.find, hfind]; exact hv)]
    exact hf k (by rw [← nilP_shown, ← R.find, hfind]; exact hv) hgo
  refine ⟨⟨d, I.same H, L.same I.sub H.size H.shape H.next (fun y hy hd => H.dead (fun i hi => ?_) hd)⟩, ?_, fun k => ?_,
    fun k => ?_⟩
  · have hout : (⟨y, i⟩ : Cell) ∉ (liveCells h).takeWhile (fun c => go (cellKey h c)) := by
      intro hin
      obtain ⟨k, hk, _⟩ := mem_liveCells_key I ((List.takeWhile_prefix _).subset hin)
      exact hy (I.sub.mem_blocks.mpr ⟨hk.mem, hk.leaf⟩)
    have hsame := hload ⟨y, i⟩
    rw [if_neg hout] at hsame
    exact (congrArg BtreeVal.nilP hsame).trans hi
  · refine nonNeg_iff_load.mpr (fun c => ?_)
    rw [hload]
    split
    · rename_i hc
      exact hcell c hc
    · exact nonNeg_iff_load.mp R.nonneg c
  · rw [hval]
    split
    · rename_i hk
      exact hf k (OrdMap.mem_rest_none.mp ((List.takeWhile_prefix _).subset hk))
        (List.mem_takeWhile_imp (p := fun k => go (some k)) hk)
    · exact R.ideal k
  · rw [hval, find_elim, btreeGet_same I H]
    cases hg : btreeGet h root (some k) with
    | none =>
        have hnil : Btree.find h k = .nil := by rw [find_elim, hg]; rfl
        have hv : (m.val k).nilP = true := by rw [← nilP_shown, ← R.find, hnil]; exact nilP_nil
        rw [if_neg (fun hin => ?_), shown_of_nil hv]
        · rfl
        · rw [OrdMap.mem_rest_none.mp ((List.takeWhile_prefix _).subset hin)] at hv
          cases hv
    | some c =>
        have hc := (I.sub.btreeGet_iff (Nat.le_refl _) I.depth).mp hg
        have hfind := (find_at I hc).symm.trans (R.find k)
        rw [Option.elim_some, hload, if_congr (R.mem_takeWhile I go hc) rfl rfl]
        by_cases hin : k ∈ (m.rest none).takeWhile (fun k => go (some k))
        · have hv := OrdMap.mem_rest_none.mp ((List.takeWhile_prefix _).subset hin)
          have hlv : (Heap.load h c).nilP = false := by rw [← nilP_shown, hfind, nilP_shown]; exact hv
          rw [shown_of_live hv, shown_of_live hlv] at hfind
          rw [if_pos hin, if_pos hin, hfind, show cellKey h c = some k from hc.key]
        · rw [if_neg hin, if_neg hin]
          exact hfind

/-- 反復で見える並びは、写像が返すキーと、その値である。 -/
theorem bookIterNexts (R : Represents h m) (M : AllMarked h) :
    Book.bookIterNexts (BTree.bound h) h BTree.iter = (m.rest none).map fun k => (some k, m.val k) := by
  obtain ⟨d, I, L⟩ := R.sound
  obtain ⟨W, C, hm, hW, hlen⟩ := leafChain I L M
  obtain ⟨x, p, W', S⟩ := C.stands hm
  have hnd := liveOn_nodup (h := h) C.nodup
  have hlive := liveCells_length C hW hlen
  rw [hW] at S hnd
  have T : Touched h h W [] := ⟨.refl h, fun _ _ => rfl, hm, fun c hc => absurd hc List.not_mem_nil⟩
  have hlist := bookIterNexts_stands C (liveCells h) (64 * Heap.size h + 1) h (.fresh root) [] x p W' T S
    (fun _ _ => List.not_mem_nil) hnd (by omega)
  refine hlist.trans ?_
  have hpair : (liveCells h).map (fun c => (cellKey h c, Heap.load h c)) =
      ((liveCells h).map (cellKey h)).map fun k => (k, k.elim .nil (Btree.find h)) := by
    rw [List.map_map]
    refine List.map_congr_left (fun c hc => ?_)
    obtain ⟨k, _, hck, hfind, _⟩ := mem_liveCells_key I hc
    rw [Function.comp_apply, hck, Option.elim_some, hfind]
  rw [hpair, R.liveCells_keys I, List.map_map]
  refine List.map_congr_left (fun k hk => ?_)
  rw [Function.comp_apply, Option.elim_some, R.find_live (OrdMap.mem_rest_none.mp hk)]

end Represents

end Books.Book
