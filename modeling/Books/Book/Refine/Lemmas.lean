import Books.Book.Refine.Spec
import Books.Book.Lemmas.Real
import Books.Btree.Lemmas.IterRun
import Books.Btree.Lemmas.Values
import Mathlib.Data.List.TakeWhile

/-!
# 木が表す順序つき写像

木の不変条件と葉のつながりの下で、木の値の場所と、理想の順序つき写像のキーを対応させる。木の操作ごとに、対応が保たれる
ことを示す。
-/

set_option linter.unusedSectionVars false

namespace Books.Book

open Books.Btree

variable {K Q : Type} [LinearOrder K] [Zero K] [LinearOrder Q] [AddCommGroup Q]
variable {descp : Bool} {h h' h₀ : Heap K Q} {m : OrdMap K Q descp} {d p n : Nat} {a x : Addr} {k : K} {c : Cell}
  {W W' : List Addr} {it : BtreeIter K} {ys rest : List Cell}

/-! ## 検索 -/

theorem find_elim (h : Heap K Q) (k : K) :
    find h k = (btreeGet h root (some k)).elim .nil fun c => shown (h.load c) := by
  unfold find shown
  cases btreeGet h root (some k) <;> rfl

theorem find_at (I : Inv h descp d) (hc : CellAt h d root k c) : find h k = shown (h.load c) := by
  rw [find_elim, (I.sub.btreeGet_iff (Nat.le_refl _) I.depth).mpr hc]
  rfl

/-- 形の同じ木では、検索は同じ場所に着く。 -/
theorem btreeGet_same (I : Inv h descp d) (H : h.Same h') (k : K) :
    btreeGet h' root (some k) = btreeGet h root (some k) := by
  have I' := I.same H
  refine Option.ext (fun c => ?_)
  rw [I'.sub.btreeGet_iff (Nat.le_refl _) I'.depth, I.sub.btreeGet_iff (Nat.le_refl _) I.depth,
    I.sub.cell_frame (fun y _ => H.shape y)]

theorem find_same (I : Inv h descp d) (H : h.Same h') (hload : ∀ c, h'.load c = h.load c) (k : K) :
    find h' k = find h k := by
  rw [find_elim, find_elim, btreeGet_same I H]
  simp only [hload]

/-- 確保した節の値の数量は、どれも負でない。 -/
abbrev NonNeg (h : Heap K Q) : Prop := h.All (fun _ => True) fun v => 0 ≤ v.q

theorem nonNeg_iff_load : NonNeg h ↔ ∀ c, 0 ≤ (h.load c).q :=
  ⟨fun H c => (H c.t).val c.i, fun H x => ⟨fun _ => trivial, fun i => H ⟨x, i⟩⟩⟩

/-! ## 反復する場所 -/

theorem length_flatMap_le {α β : Type} {f : α → List β} {b : Nat} : ∀ {l : List α}, (∀ x ∈ l, (f x).length ≤ b) →
    (l.flatMap f).length ≤ b * l.length
  | [], _ => Nat.zero_le _
  | x :: l, hf => by
      have hx := hf x List.mem_cons_self
      have hl := length_flatMap_le (fun y hy => hf y (List.mem_cons_of_mem x hy))
      rw [List.flatMap_cons, List.length_append, List.length_cons, Nat.mul_succ]
      omega

/-- 場所のキー。 -/
def cellKey (h : Heap K Q) (c : Cell) : Option K := (h.get c.t).key.get c.i

/-- 値が nil でない場所のビットが立っていれば、反復は、値が nil でない場所を葉の順に通る。 -/
theorem leafChain (I : Inv h descp d) (L : Linked h d) (M : AllMarked h) :
    ∃ W, LeafChain h root W ∧ (∀ x ∈ W, (h.get x).Marked) ∧ liveOn h W = liveCells h ∧ W.length ≤ h.size := by
  obtain ⟨W, R⟩ := I.row L
  have hl : leaves h = (blocks h d root).flatten := I.sub.leavesOf_eq I.depth
  refine ⟨_, ⟨R.seg.path, R.seg.lt, R.leaf, R.n_le⟩, fun x hx => ?_, ?_, R.length_lt⟩
  · rcases R.seg.woven.mem x hx with hb | hd
    · exact M x (hl ▸ hb)
    · intro i hi hv
      rw [hd.nil i hi] at hv
      cases hv
  · rw [liveCells, hl]
    exact R.seg.flatMap_cellsBy (P := Node.liveAt) (fun t i hP => by simpa [Node.liveAt] using hP)

theorem liveCells_length (C : LeafChain h root W) (hW : liveOn h W = liveCells h) (hlen : W.length ≤ h.size) :
    (liveCells h).length ≤ 63 * h.size := by
  have hle : (liveOn h W).length ≤ 63 * W.length := length_flatMap_le (fun x hx => by
    rw [List.length_map]
    exact (List.length_filter_le _ _).trans (by rw [List.length_range]; exact C.n_le x hx))
  rw [hW] at hle
  exact hle.trans (Nat.mul_le_mul_left 63 hlen)

/-! ## 反復の一巡り -/

section Loop

variable {go : Option K → Bool} {f : Option K → BtreeVal Q → BtreeVal Q}

theorem key_same (H : h.Same h') (c : Cell) : cellKey h' c = cellKey h c := by
  rw [cellKey, (H.shape c.t).key]; rfl

theorem unreached_snoc (hys : ∀ c' ∈ c :: rest, c' ∉ ys) (hc : c ∉ rest) : ∀ c' ∈ rest, c' ∉ ys ++ [c] := by
  intro c' hc' hin
  rcases List.mem_append.mp hin with hin | hin
  · exact hys c' (List.mem_cons_of_mem _ hc') hin
  · exact hc (List.mem_singleton.mp hin ▸ hc')

/-- 反復子の先の場所を読み続けると、その場所のキーと値が順に得られる。 -/
theorem bookIterNexts_stands (C : LeafChain h₀ root W) : ∀ (rest : List Cell) (fuel : Nat) (h : Tree K Q descp)
    (it : BtreeIter K)
    (ys : List Cell) (x : Addr) (p : Nat) (W' : List Addr), Touched h₀ h W ys → Stands h W it ys rest x p W' →
    (∀ c ∈ rest, c ∉ ys) → rest.Nodup → rest.length < fuel →
    bookIterNexts fuel h it = rest.map fun c => (cellKey h₀ c, h₀.load c)
  | _, 0, _, _, _, _, _, _, _, _, _, _, hf => absurd hf (Nat.not_lt_zero _)
  | [], fuel + 1, h, it, ys, x, p, W', T, S, _, _, _ => by
      obtain ⟨hfalse, _, _⟩ := S.next_nil T C
      simp only [bookIterNexts, BTree.iterNext, hfalse]
      rfl
  | c :: cs, fuel + 1, h, it, ys, x, p, W', T, S, hys, hnd, hf => by
      obtain ⟨htrue, hit, T', W'', S'⟩ := S.next_cons T C
      obtain ⟨hc, hcs⟩ := List.nodup_cons.mp hnd
      have hrest := bookIterNexts_stands C cs fuel (btreeIterNext h it).1 (btreeIterNext h it).2.1 (ys ++ [c]) c.t (c.i + 1)
        W'' T' S' (unreached_snoc hys hc) hcs (Nat.lt_of_succ_lt_succ hf)
      have hload : (btreeIterNext h it).1.load c = h₀.load c := by
        rw [(btreeIterNext_usedOnly h it).load_eq]
        exact T.load c (hys c List.mem_cons_self)
      have hkey : (btreeIterNext h it).2.1.k = cellKey h₀ c := by
        rw [hit]
        exact key_same T.same c
      have hv : (btreeIterNext h it).2.1.v = some c := by rw [hit]
      simp only [bookIterNexts, BTree.iterNext, BTree.iterKey, BTree.iterRef, BTree.load, htrue, if_true]
      rw [hrest, hkey, hv, List.map_cons, Option.getD_some, hload]

/-- 反復しながらの書き換えは、条件が続く間の場所の値だけを書き換える。 -/
theorem eachVal_stands (C : LeafChain h₀ root W) : ∀ (rest : List Cell) (fuel : Nat) (h : Tree K Q descp)
    (it : BtreeIter K)
    (ys : List Cell) (x : Addr) (p : Nat) (W' : List Addr), Touched h₀ h W ys → Stands h W it ys rest x p W' →
    (∀ c ∈ rest, c ∉ ys) → rest.Nodup → rest.length < fuel →
    h₀.Same (eachVal go f fuel h it) ∧
    ∀ c, Heap.load (eachVal go f fuel h it) c =
      if c ∈ rest.takeWhile (fun c => go (cellKey h₀ c)) then f (cellKey h₀ c) (h₀.load c) else h.load c
  | _, 0, _, _, _, _, _, _, _, _, _, _, hf => absurd hf (Nat.not_lt_zero _)
  | [], fuel + 1, h, it, ys, x, p, W', T, S, _, _, _ => by
      obtain ⟨hfalse, _, T'⟩ := S.next_nil T C
      simp only [eachVal, BTree.iterNext, hfalse, Bool.false_and, Bool.false_eq_true, if_false]
      exact ⟨T'.same, fun c => (btreeIterNext_usedOnly h it).load_eq c⟩
  | c :: cs, fuel + 1, h, it, ys, x, p, W', T, S, hys, hnd, hf => by
      obtain ⟨htrue, hit, T', W'', S'⟩ := S.next_cons T C
      obtain ⟨hc, hcs⟩ := List.nodup_cons.mp hnd
      have hload := (btreeIterNext_usedOnly h it).load_eq
      have hkey : (btreeIterNext h it).2.1.k = cellKey h₀ c := by
        rw [hit]
        exact key_same T.same c
      have hv : (btreeIterNext h it).2.1.v = some c := by rw [hit]
      simp only [eachVal, BTree.iterNext, BTree.iterKey, BTree.iterRef, BTree.load, BTree.store, htrue, Bool.true_and,
        hkey, hv, Option.getD_some]
      cases hgo : go (cellKey h₀ c) with
      | false =>
          rw [if_neg Bool.false_ne_true, List.takeWhile_cons_of_neg (by simp [hgo])]
          exact ⟨T'.same, fun c' => by rw [if_neg List.not_mem_nil]; exact hload c'⟩
      | true =>
          rw [if_pos rfl, List.takeWhile_cons_of_pos (by simp [hgo])]
          have hmem : c ∈ ys ++ [c] := List.mem_append_right _ List.mem_cons_self
          have hold : (btreeIterNext h it).1.load c = h₀.load c := by
            rw [hload]
            exact T.load c (hys c List.mem_cons_self)
          obtain ⟨hsame, hrest⟩ := eachVal_stands C cs fuel _ (btreeIterNext h it).2.1 (ys ++ [c]) c.t (c.i + 1) W''
            (T'.store C hmem) (S'.store (v := f (cellKey h₀ c) ((btreeIterNext h it).1.load c)) T' C hmem)
            (unreached_snoc hys hc) hcs (Nat.lt_of_succ_lt_succ hf)
          have hW := (T'.bits c hmem).1
          have hlt : c.t < (btreeIterNext h it).1.size := by rw [T'.same.size]; exact C.lt _ hW
          have hi : c.i < 64 := by
            have hn := (hit_of_mem (h := h) (x := x) (p := p) (W := W')
              (by rw [S.rest_eq]; exact List.mem_cons_self)).1
            have hn' := T.n_le C hW
            omega
          refine ⟨hsame, fun c' => (hrest c').trans ?_⟩
          by_cases he : c' = c
          · subst he
            rw [if_neg (fun hin => hc ((List.takeWhile_prefix _).subset hin)), if_pos List.mem_cons_self,
              load_store_eq hlt hi, hold]
          · rw [load_store_ne he, hload]
            simp only [List.mem_cons, he, false_or]

end Loop

/-! ## 対応 -/

/-- 木 `h` は、順序つき写像 `m` を表す。見えない値は、木でも写像でも、数量が 0 である。 -/
structure Represents (h : Heap K Q) (m : OrdMap K Q descp) : Prop where
  sound : ∃ d, Inv h descp d ∧ Linked h d
  nonneg : NonNeg h
  ideal : ∀ k, 0 ≤ (m.val k).q
  find : ∀ k, find h k = shown (m.val k)

theorem shown_q_eq {v : BtreeVal Q} (hv : 0 ≤ v.q) : (shown v).q = v.q := by
  rw [shown_q, max_eq_right hv]

theorem mem_liveCells_key (I : Inv h descp d) (hc : c ∈ liveCells h) : ∃ k, CellAt h d root k c ∧ cellKey h c = some k ∧
    find h k = h.load c ∧ (h.load c).nilP = false := by
  obtain ⟨⟨k, hk⟩, hv⟩ := I.mem_liveCells.mp hc
  refine ⟨k, hk, hk.key, ?_, hv⟩
  rw [find_at I hk, shown_of_live hv]

namespace Represents

/-- 値の見えるキーでは、木の値と写像の値が一致する。 -/
theorem find_live (R : Represents h m) (hv : (m.val k).nilP = false) : Btree.find h k = m.val k := by
  rw [R.find, shown_of_live hv]

/-- 葉の順に並べた場所のキーは、写像が返すキーである。 -/
theorem liveCells_keys (R : Represents h m) (I : Inv h descp d) :
    (liveCells h).map (cellKey h) = (m.rest none).map some := by
  obtain ⟨l, hl⟩ := I.exists_entries (liveCells h) (fun _ hc => hc)
  have hkeys : (liveCells h).map (cellKey h) = (l.map Prod.fst).map some := by
    calc (liveCells h).map (cellKey h) = ((liveCells h).map (entry h)).map Prod.fst := by rw [List.map_map]; rfl
      _ = (l.map Prod.fst).map some := by rw [← hl, List.map_map, List.map_map]; rfl
  have hmem : ∀ k, k ∈ l.map Prod.fst ↔ (m.val k).nilP = false := by
    intro k
    have hk : k ∈ l.map Prod.fst ↔ some k ∈ (liveCells h).map (cellKey h) := by
      rw [hkeys, List.mem_map_of_injective (Option.some_injective K)]
    rw [hk, List.mem_map]
    constructor
    · rintro ⟨c, hc, hck⟩
      obtain ⟨k', _, hk', hf, hv⟩ := mem_liveCells_key I hc
      rw [hck] at hk'
      cases hk'
      rw [← nilP_shown, ← R.find, hf]
      exact hv
    · intro hv
      obtain ⟨c, hc, hck, _⟩ := (I.find_cell (v := m.val k) hv).mp (R.find_live hv)
      exact ⟨c, hc, hck⟩
  have hsorted : (l.map Prod.fst).Pairwise (Before descp) := by
    have hp : ((liveCells h).map (cellKey h)).Pairwise
        (fun a b => ∀ y y', a = some y → b = some y' → Before descp y y') := List.pairwise_map.mpr I.liveCells_sorted
    rw [hkeys, List.pairwise_map] at hp
    exact hp.imp (fun hb => hb _ _ rfl rfl)
  have hnd : ∀ {l : List K}, l.Pairwise (Before descp) → l.Nodup := fun hl => hl.imp (fun hb => hb.ne)
  rw [hkeys]
  refine congrArg _ (List.Perm.eq_of_pairwise (fun a b _ _ hab hba => absurd hba hab.asymm) hsorted (m.rest_sorted none) ?_)
  refine (List.perm_ext_iff_of_nodup (hnd hsorted) (hnd (m.rest_sorted none))).mpr (fun k => ?_)
  rw [hmem, OrdMap.mem_rest_none]

/-- 条件が続く間の場所は、条件が続く間のキーの場所である。 -/
theorem mem_takeWhile (R : Represents h m) (I : Inv h descp d) (go : Option K → Bool) (hc : CellAt h d root k c) :
    c ∈ (liveCells h).takeWhile (fun c => go (cellKey h c)) ↔ k ∈ (m.rest none).takeWhile (fun k => go (some k)) := by
  have hmap : ((liveCells h).takeWhile fun c => go (cellKey h c)).map (cellKey h) =
      ((m.rest none).takeWhile fun k => go (some k)).map some := by
    have htw := congrArg (List.takeWhile go) (R.liveCells_keys I)
    rwa [List.takeWhile_map, List.takeWhile_map] at htw
  have hk : k ∈ (m.rest none).takeWhile (fun k => go (some k)) ↔
      some k ∈ ((liveCells h).takeWhile fun c => go (cellKey h c)).map (cellKey h) := by
    rw [hmap, List.mem_map_of_injective (Option.some_injective K)]
  rw [hk, List.mem_map]
  constructor
  · exact fun hin => ⟨c, hin, hc.key⟩
  · rintro ⟨c', hin, hk'⟩
    obtain ⟨k', hc', hck, _⟩ := mem_liveCells_key I ((List.takeWhile_prefix _).subset hin)
    rw [hk'] at hck
    cases hck
    rwa [I.sub.cell_unique (Nat.le_refl _) hc hc']

end Represents

end Books.Book
