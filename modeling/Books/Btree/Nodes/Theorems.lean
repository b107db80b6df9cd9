import Books.Btree.Lemmas.Iter
import Books.Btree.Nodes.Run
import Mathlib.Algebra.Order.BigOperators.Group.List
import Mathlib.Algebra.Order.Monoid.NatCast
import Mathlib.Data.Finset.Card
import Mathlib.Data.Finset.Dedup
import Mathlib.Tactic.Ring

/-!
# 木の高さと解放

どの実行の後でも、葉の深さは、追加したキーの種類の数の対数で抑えられる。`free_btree` は、根からたどれる節をちょうど一度ずつ
解放する。
-/

set_option linter.unusedSectionVars false

namespace Books.Btree

open Books.Lib

variable {K Q : Type} [LinearOrder K] [LinearOrder Q] [Zero Q]
variable {descp : Bool} {h : Heap K Q} {lo hi : Option K} {d cap fuel : Nat} {a x : Addr} {k : K}

/-! ## 深さ -/

theorem Sub.height_eq : ∀ {d cap fuel : Nat} {a : Addr} {lo hi : Option K}, d ≤ fuel → Sub h descp d cap a lo hi →
    height h fuel a = d
  | 0, _, 0, _, _, _, _, _ => rfl
  | 0, _, fuel + 1, _, _, _, _, hs => by
      rw [height, hs.2.innerp]
      rfl
  | d + 1, _, 0, _, _, _, hf, _ => absurd hf (Nat.not_succ_le_zero d)
  | d + 1, _, fuel + 1, _, _, _, hf, hs => by
      rw [height, hs.2.1.innerp, if_pos rfl, Sub.height_eq (Nat.le_of_succ_le_succ hf) (hs.2.1.kids 0 (Nat.zero_le _))]

theorem Sub.levelTree : ∀ {d cap : Nat} {a : Addr} {lo hi : Option K}, Sub h descp d cap a lo hi → LevelTree h d a
  | 0, _, _, _, _, hs => hs.2.innerp
  | _ + 1, _, _, _, _, hs => ⟨hs.2.1.innerp, fun i hi' => (hs.2.1.kids i hi').levelTree⟩

/-! ## キーの数 -/

/-- 部分木の葉にあるキーの場所。 -/
def cellsOf (h : Heap K Q) (d : Nat) (a : Addr) : List Cell :=
  (blocks h d a).flatten.flatMap (cellsBy (fun _ _ => true) h)

theorem cellsOf_zero (h : Heap K Q) (a : Addr) : (cellsOf h 0 a).length = (h.get a).n := by
  simp [cellsOf, blocks, cellsBy]

theorem cellsOf_succ (h : Heap K Q) (d : Nat) (a : Addr) :
    (cellsOf h (d + 1) a).length = ((h.get a).kids.map fun c => (cellsOf h d c).length).sum := by
  rw [cellsOf, blocks_flatten_succ, List.flatMap_assoc, List.length_flatMap]
  rfl

/-- 子の場所の数がどれも `b` 以上ならば、親の場所の数は、その子の数倍以上である。 -/
theorem mul_le_cellsOf {b : Nat} (hkids : ∀ c ∈ (h.get a).kids, b ≤ (cellsOf h d c).length) :
    ((h.get a).n + 1) * b ≤ (cellsOf h (d + 1) a).length := by
  rw [cellsOf_succ]
  have hsum := List.card_nsmul_le_sum ((h.get a).kids.map fun c => (cellsOf h d c).length) b (by
    intro l hl
    obtain ⟨c, hc, rfl⟩ := List.mem_map.mp hl
    exact hkids c hc)
  simpa [Node.kids] using hsum

/-- どの節にも 31 個以上のキーがある部分木の、場所の数。 -/
theorem Sub.le_cellsOf : ∀ {d cap : Nat} {a : Addr} {lo hi : Option K}, Sub h descp d cap a lo hi →
    (∀ x, Mem h d a x → 31 ≤ (h.get x).n) → 31 * 32 ^ d ≤ (cellsOf h d a).length
  | 0, _, a, _, _, _, hfill => by
      rw [cellsOf_zero]
      exact hfill a rfl
  | d + 1, _, a, _, _, hs, hfill => by
      have hkids : ∀ c ∈ (h.get a).kids, 31 * 32 ^ d ≤ (cellsOf h d c).length := by
        intro c hc
        obtain ⟨i, hi', rfl⟩ := Node.mem_kids.mp hc
        exact Sub.le_cellsOf (hs.2.1.kids i hi') (fun x hx => hfill x (Mem.kid hi' hx))
      have hn := hfill a (Mem.self h _ _)
      calc 31 * 32 ^ (d + 1) = 32 * (31 * 32 ^ d) := by rw [Nat.pow_succ]; ring
        _ ≤ ((h.get a).n + 1) * (31 * 32 ^ d) := Nat.mul_le_mul_right _ (Nat.succ_le_succ hn)
        _ ≤ _ := mul_le_cellsOf hkids

theorem Filled.le_cellsOf (F : Filled h) (hs : Sub h descp (d + 1) 63 root none none) :
    62 * 32 ^ d ≤ (cellsOf h (d + 1) root).length := by
  have hkids : ∀ c ∈ (h.get root).kids, 31 * 32 ^ d ≤ (cellsOf h d c).length := by
    intro c hc
    obtain ⟨i, hi', rfl⟩ := Node.mem_kids.mp hc
    refine (hs.2.1.kids i hi').le_cellsOf (fun x hx => F x (hs.reached_iff.mpr (Mem.kid hi' hx)) ?_)
    rintro rfl
    exact hs.2.2.self i hi' hx
  calc 62 * 32 ^ d = 2 * (31 * 32 ^ d) := by ring
    _ ≤ ((h.get root).n + 1) * (31 * 32 ^ d) := Nat.mul_le_mul_right _ (Nat.succ_le_succ hs.2.1.one_le)
    _ ≤ _ := mul_le_cellsOf hkids

/-- 葉にあるキーは、どれも異なる。 -/
theorem Sub.cellsOf_le {S : Finset K} (hs : Sub h descp d cap a lo hi) (H : KeysIn (fun k => k ∈ S) h) :
    (cellsOf h d a).length ≤ S.card := by
  have hkey : ∀ c ∈ cellsOf h d a, ∃ y, (h.get c.t).key.get c.i = some y := by
    intro c hc
    obtain ⟨x, hx, hc⟩ := List.mem_flatMap.mp hc
    obtain ⟨hm, hl⟩ := hs.mem_blocks.mp hx
    obtain ⟨y, hy⟩ := hs.cellsBy_at hm hl hc
    exact ⟨y, hy.key⟩
  have hnd : ((cellsOf h d a).map fun c => (h.get c.t).key.get c.i).Nodup := by
    rw [List.Nodup, List.pairwise_map]
    refine (hs.cellsBy_sorted _).imp_of_mem (fun {c c'} hc _ hb he => ?_)
    obtain ⟨y, hy⟩ := hkey c hc
    exact (hb y y hy (he ▸ hy)).ne rfl
  have hsub : ((cellsOf h d a).map fun c => (h.get c.t).key.get c.i) ⊆ (S.image some).toList := by
    intro o ho
    obtain ⟨c, hc, rfl⟩ := List.mem_map.mp ho
    obtain ⟨y, hy⟩ := hkey c hc
    rw [Finset.mem_toList, hy]
    exact Finset.mem_image_of_mem _ ((H c.t).key c.i y hy)
  have hle := (List.subperm_of_subset hnd hsub).length_le
  rw [List.length_map, Finset.length_toList] at hle
  exact hle.trans Finset.card_image_le

/-- どの操作の列の後でも、木は釣り合っていて、その深さは、追加したキーの種類の数の対数で抑えられる。 -/
theorem balanced_run (descp : Bool) (ops : List (Op K Q)) : Balanced (run descp ops) (putKeys ops).toFinset.card := by
  obtain ⟨d, I⟩ := inv_run descp ops
  have F := filled_run descp ops
  have hd := I.sub.height_eq (Nat.le_of_lt I.depth)
  unfold Balanced
  rw [hd]
  refine ⟨I.sub.levelTree, F, fun hpos => ?_⟩
  obtain ⟨d, rfl⟩ := Nat.exists_eq_succ_of_ne_zero hpos.ne'
  have H : KeysIn (fun k => k ∈ (putKeys ops).toFinset) (run descp ops) := by
    intro x
    exact ⟨fun i y hy => List.mem_toFinset.mpr ((keysIn_run descp ops x).key i y hy), (keysIn_run descp ops x).val⟩
  exact (F.le_cellsOf I.sub).trans (I.sub.cellsOf_le H)

/-! ## 解放 -/

/-- 部分木の節がまだ解放されていなければ、部分木の節だけを一度ずつ解放する。 -/
theorem Sub.freeBtree_eq : ∀ {d cap fuel : Nat} {a : Addr} {lo hi : Option K} (F : List Addr), d < fuel →
    Sub h descp d cap a lo hi → (∀ x, Mem h d a x → x ∉ F) →
    ∃ G, freeBtree h fuel F a = some (F ++ G) ∧ G.Nodup ∧ ∀ x, x ∈ G ↔ Mem h d a x
  | _, _, 0, _, _, _, _, hf, _, _ => absurd hf (Nat.not_lt_zero _)
  | 0, _, fuel + 1, a, _, _, F, _, hs, hF => by
      refine ⟨[a], ?_, List.nodup_singleton a, fun x => List.mem_singleton⟩
      rw [freeBtree, if_neg (hF a rfl), hs.2.innerp]
      rfl
  | d + 1, _, fuel + 1, a, lo, hi, F, hf, hs, hF => by
      have ha := hF a (Mem.self h _ _)
      -- 初めの `m` 個の子の節を解放した後。
      have hloop : ∀ m, m ≤ (h.get a).n + 1 → ∃ G, (List.range m).foldlM
          (fun F i => if a ∈ F then none else freeBtree h fuel F ((h.get a).kid i)) F = some (F ++ G) ∧ G.Nodup ∧
          ∀ x, x ∈ G ↔ ∃ i, i < m ∧ Mem h d ((h.get a).kid i) x := by
        intro m
        induction m with
        | zero =>
            intro _
            refine ⟨[], ?_, List.nodup_nil, fun x => ?_⟩
            · rw [List.append_nil]
              rfl
            · simp
        | succ m ih =>
            intro hm
            obtain ⟨G, hG, hnd, hmem⟩ := ih (Nat.le_of_succ_le hm)
            have hm' : m ≤ (h.get a).n := Nat.le_of_succ_le_succ hm
            have haG : a ∉ F ++ G := by
              intro hin
              rcases List.mem_append.mp hin with hin | hin
              · exact ha hin
              · obtain ⟨i, hi', hx⟩ := (hmem a).mp hin
                exact hs.2.2.self i (Nat.le_of_lt (Nat.lt_of_lt_of_le hi' hm')) hx
            have hapart : ∀ x, Mem h d ((h.get a).kid m) x → x ∉ G := by
              intro x hx hin
              obtain ⟨i, hi', hx'⟩ := (hmem x).mp hin
              exact hs.2.2.kids i m x (Nat.le_of_lt (Nat.lt_of_lt_of_le hi' hm')) hm' (Nat.ne_of_lt hi') hx' hx
            have hnew : ∀ x, Mem h d ((h.get a).kid m) x → x ∉ F ++ G := by
              intro x hx hin
              rcases List.mem_append.mp hin with hin | hin
              · exact hF x (Mem.kid hm' hx) hin
              · exact hapart x hx hin
            obtain ⟨G', hG', hnd', hmem'⟩ := (hs.2.1.kids m hm').freeBtree_eq (F ++ G) (Nat.lt_of_succ_lt_succ hf) hnew
            refine ⟨G ++ G', ?_, List.nodup_append'.mpr ⟨hnd, hnd', ?_⟩, fun x => ?_⟩
            · rw [List.range_succ, List.foldlM_append, hG]
              simp only [Option.bind_eq_bind, Option.bind_some, List.foldlM_cons, List.foldlM_nil, if_neg haG, hG',
                List.append_assoc]
              rfl
            · intro x hx hx'
              exact hapart x ((hmem' x).mp hx') hx
            · rw [List.mem_append, hmem, hmem']
              constructor
              · rintro (⟨i, hi', hx⟩ | hx)
                · exact ⟨i, Nat.lt_succ_of_lt hi', hx⟩
                · exact ⟨m, Nat.lt_succ_self m, hx⟩
              · rintro ⟨i, hi', hx⟩
                rcases Nat.lt_succ_iff_lt_or_eq.mp hi' with hlt | rfl
                · exact Or.inl ⟨i, hlt, hx⟩
                · exact Or.inr hx
      obtain ⟨G, hG, hnd, hmem⟩ := hloop _ (Nat.le_refl _)
      have haG : a ∉ G := by
        intro hin
        obtain ⟨i, hi', hx⟩ := (hmem a).mp hin
        exact hs.2.2.self i (Nat.le_of_lt_succ hi') hx
      refine ⟨G ++ [a], ?_, List.nodup_append'.mpr ⟨hnd, List.nodup_singleton a, ?_⟩, fun x => ?_⟩
      · rw [freeBtree, if_neg ha, hs.2.1.innerp, if_pos rfl, hG, Option.bind_eq_bind, Option.bind_some,
          if_neg (fun hin => (List.mem_append.mp hin).elim ha haG), List.append_assoc]
        rfl
      · intro x hx hx'
        rw [List.mem_singleton.mp hx'] at hx
        exact haG hx
      · rw [List.mem_append, hmem, List.mem_singleton]
        constructor
        · rintro (⟨i, hi', hx⟩ | rfl)
          · exact Mem.kid (Nat.le_of_lt_succ hi') hx
          · exact Mem.self h _ _
        · rintro (rfl | ⟨i, hi', hx⟩)
          · exact Or.inr rfl
          · exact Or.inl ⟨i, Nat.lt_succ_of_le hi', hx⟩

theorem Inv.freesReached (I : Inv h descp d) : FreesReached h := by
  obtain ⟨G, hG, hnd, hmem⟩ := I.sub.freeBtree_eq [] I.depth (fun _ _ => List.not_mem_nil)
  exact ⟨G, hG, hnd, fun x => (hmem x).trans I.sub.reached_iff.symm⟩

/-- どの操作の列の後でも、`free_btree` は、解放した節に触れず、根からたどれる節をちょうど一度ずつ解放する。 -/
theorem freeBtree_run (descp : Bool) (ops : List (Op K Q)) : FreesReached (run descp ops) := by
  obtain ⟨d, I⟩ := inv_run descp ops
  exact I.freesReached

/-- `free_btree` が、確保した節をすべて解放するのは、どの追加も空いた内部の節を使い回さないときで、そのときに限る。 -/
theorem freeBtree_all_iff (descp : Bool) (ops : List (Op K Q)) : FreesAll (run descp ops) ↔
    Throughout (fun h op => keepsNodes h op = true) (makeBtree descp) ops := by
  obtain ⟨d, I⟩ := inv_run descp ops
  obtain ⟨F, hF, hnd, hmem⟩ := I.freesReached
  rw [← allReached_run]
  constructor
  · rintro ⟨F', hF', hp⟩ x hx
    rw [hF] at hF'
    cases hF'
    exact (hmem x).mp (hp.mem_iff.mpr (List.mem_range.mpr hx))
  · intro hR
    refine ⟨F, hF, (List.perm_ext_iff_of_nodup hnd List.nodup_range).mpr (fun x => ?_)⟩
    rw [hmem, List.mem_range]
    exact ⟨fun hx => I.sub.mem_lt_size (I.sub.reached_iff.mp hx), hR x⟩

end Books.Btree
