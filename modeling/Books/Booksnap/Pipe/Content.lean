import Books.Booksnap.Lemmas.Content
import Books.Booksnap.Pipe.Line
import Books.Booksnap.Snap3.Lemmas.Delta

/-!
# 印字した気配の板

一枚の板について印字した気配を空の板に加えると、同じ気配が見える。見える数量が同じ板は、同じ行を印字する。
-/

set_option linter.unusedSectionVars false

namespace Books.Booksnap

open Books.Btree Books.Book Books.Book2book Books.Instr Books.Xquo Books.Lib

variable {K Q : Type} [LinearOrder K] [Zero K] [LinearOrder Q] [AddCommGroup Q]
variable {C : Codec K Q} {m t : Tv} {n : List UInt8} {s s' : Bool} {k : K} {q : BookQuo K Q}
variable {b b' : Book (OrdMap K Q)} {l : List (K × Q)} {y : K × Q} {inva : Tv}

/-! ## 印字する気配 -/

/-- 時刻 `m` に印字する気配。 -/
def bookQuos (m : Tv) (b : Book (OrdMap K Q)) : List (BookQuo K Q) :=
  [true, false].flatMap fun s => (Snap3.shownSide (b.get s)).map (lvl2Quo m s)

theorem snap2_eq (C : Codec K Q) (m : Tv) (n : List UInt8) (b : Book (OrdMap K Q)) :
    snap2 C m (some n) b = (bookQuos m b).map (lineOf C n) := by
  rw [snap2, bookQuos, List.map_flatMap]
  refine congrArg (List.flatMap · [true, false]) (funext fun s => ?_)
  rw [Snap3.levels_ordMap, Snap3.lifted, List.map_map, List.map_map]
  rfl

theorem mem_bookQuos (h : q ∈ bookQuos m b) : ∃ s y, q = lvl2Quo m s y := by
  obtain ⟨s, _, hq⟩ := List.mem_flatMap.mp h
  obtain ⟨y, _, rfl⟩ := List.mem_map.mp hq
  exact ⟨s, y, rfl⟩

theorem mem_shownSide {descp : Bool} {o : OrdMap K Q descp} :
    y ∈ Snap3.shownSide o ↔ (o.val y.1).nilP = false ∧ y.2 = (o.val y.1).q := by
  rw [Snap3.shownSide, ← Snap3.rest_none, List.mem_map]
  constructor
  · rintro ⟨k, hk, rfl⟩
    exact ⟨OrdMap.mem_rest_none.mp hk, rfl⟩
  · rintro ⟨hlive, hq⟩
    exact ⟨y.1, OrdMap.mem_rest_none.mpr hlive, by rw [← hq]⟩

theorem nodup_shownSide {descp : Bool} (o : OrdMap K Q descp) : ((Snap3.shownSide o).map Prod.fst).Nodup :=
  ((Snap3.sideOk_shownSide o).sorted.map Prod.fst fun _ _ h => h.ne)

/-! ## 板に加える -/

/-- 側 `s` の気配 `l` を順に加える。 -/
def addSide (t : Tv) (s : Bool) (l : List (K × Q)) (b : Book (OrdMap K Q)) : Book (OrdMap K Q) :=
  (l.map (lvl2Quo t s)).foldl (fun b q => (bookAdd b q).1) b

theorem addSide_cons : addSide t s (y :: l) b = addSide t s l (bookAdd b (lvl2Quo t s y)).1 := rfl

theorem stored_addSide_other (h : s' = s → k ∉ l.map Prod.fst) : (addSide t s l b).stored s' k = b.stored s' k := by
  induction l generalizing b with
  | nil => rfl
  | cons y l ih =>
      have hhead : ¬ (s' = s ∧ k = y.1) := fun hc => h hc.1 (by rw [List.map_cons, hc.2]; exact List.mem_cons_self)
      rw [addSide_cons, ih fun hs => mt (List.mem_cons_of_mem _) (h hs), stored_lvl2 rfl rfl rfl, if_neg hhead]

theorem stored_addSide (hnd : (l.map Prod.fst).Nodup) (hy : y ∈ l) : (addSide t s l b).stored s y.1 = ⟨y.2, t⟩ := by
  induction l generalizing b with
  | nil => exact absurd hy List.not_mem_nil
  | cons z l ih =>
      obtain ⟨hz, hnd⟩ := List.nodup_cons.mp hnd
      rw [addSide_cons]
      rcases List.mem_cons.mp hy with rfl | hy
      · rw [stored_addSide_other fun _ => hz, stored_lvl2 rfl rfl rfl, if_pos ⟨rfl, rfl⟩]
        rfl
      · exact ih hnd hy

theorem quotedBook_bookQuos (t : Tv) (b : Book (OrdMap K Q)) : quotedBook (bookQuos t b) =
    addSide t false (Snap3.shownSide (b.get false)) (addSide t true (Snap3.shownSide (b.get true)) makeBook) := by
  rw [quotedBook, bookQuos, List.flatMap_cons, List.flatMap_singleton, List.foldl_append]
  rfl

theorem stored_makeBook (s : Bool) (k : K) : (makeBook : Book (OrdMap K Q)).stored s k = .nil := by
  cases s <;> rfl

/-- 印字した気配だけの板には、同じ気配値と数量が見える。 -/
theorem visible_bookQuos (t : Tv) (b : Book (OrdMap K Q)) (s : Bool) (k : K) :
    (quotedBook (bookQuos t b)).visible s k = stampedAt t (b.visible s k) := by
  -- それぞれの側には、その側の気配だけが加わる。
  have hside : (quotedBook (bookQuos t b)).stored s k =
      (addSide t s (Snap3.shownSide (b.get s)) (makeBook : Book (OrdMap K Q))).stored s k := by
    rw [quotedBook_bookQuos]
    cases s with
    | true => exact stored_addSide_other fun h => absurd h (by decide)
    | false =>
        by_cases hk : k ∈ (Snap3.shownSide (b.get false)).map Prod.fst
        · obtain ⟨y, hy, rfl⟩ := List.mem_map.mp hk
          rw [stored_addSide (nodup_shownSide _) hy, stored_addSide (nodup_shownSide _) hy]
        · rw [stored_addSide_other fun _ => hk, stored_addSide_other fun _ => hk]
          exact stored_addSide_other fun h => absurd h (by decide)
  rw [Book.visible, hside, Book.visible, stampedAt, nilP_shown]
  cases hv : (b.stored s k).nilP with
  | true =>
      have hk : k ∉ (Snap3.shownSide (b.get s)).map Prod.fst := by
        intro hm
        obtain ⟨y, hy, rfl⟩ := List.mem_map.mp hm
        rw [Book.stored, (mem_shownSide.mp hy).1] at hv
        cases hv
      rw [stored_addSide_other fun _ => hk, stored_makeBook, shown_nil, if_pos rfl]
  | false =>
      have hy : (k, (b.stored s k).q) ∈ Snap3.shownSide (b.get s) := mem_shownSide.mpr ⟨hv, rfl⟩
      have hlive : (⟨(b.stored s k).q, t⟩ : BtreeVal Q).nilP = false := hv
      rw [stored_addSide (nodup_shownSide _) hy, shown_of_live hlive, shown_of_live hv, if_neg Bool.false_ne_true]

/-- 見える数量が同じ側は、同じ並びを示す。 -/
theorem shownSide_congr {descp : Bool} {o o' : OrdMap K Q descp}
    (h : ∀ k, (shown (o.val k)).q = (shown (o'.val k)).q) : Snap3.shownSide o = Snap3.shownSide o' := by
  have hq : ∀ v w : BtreeVal Q, (shown v).q = (shown w).q → v.nilP = false → w.nilP = false ∧ v.q = w.q := by
    intro v w hvw hv
    rw [shown_of_live hv] at hvw
    cases hw : w.nilP with
    | true =>
        rw [shown_of_nil hw] at hvw
        rw [BtreeVal.nilP, hvw] at hv
        exact absurd hv (by simp [BtreeVal.nil])
    | false =>
        rw [shown_of_live hw] at hvw
        exact ⟨rfl, hvw⟩
  have hmem : ∀ y, y ∈ Snap3.shownSide o ↔ y ∈ Snap3.shownSide o' := by
    intro y
    rw [mem_shownSide, mem_shownSide]
    constructor
    · rintro ⟨hv, he⟩
      obtain ⟨hw, hvw⟩ := hq _ _ (h y.1) hv
      exact ⟨hw, he.trans hvw⟩
    · rintro ⟨hv, he⟩
      obtain ⟨hw, hvw⟩ := hq _ _ (h y.1).symm hv
      exact ⟨hw, he.trans hvw⟩
  have hsorted := (Snap3.sideOk_shownSide o).sorted
  have hsorted' := (Snap3.sideOk_shownSide o').sorted
  have hnd : ∀ {l : List (K × Q)}, l.Pairwise (fun x y => Before descp x.1 y.1) → l.Nodup :=
    fun hl => hl.imp fun {x y} hxy he => hxy.ne (congrArg Prod.fst he)
  exact List.Perm.eq_of_pairwise (fun x y _ _ hxy hyx => absurd hyx hxy.asymm) hsorted hsorted'
    ((List.perm_ext_iff_of_nodup (hnd hsorted) (hnd hsorted')).mpr hmem)

theorem bookQuos_congr (h : ∀ s k, (b.visible s k).q = (b'.visible s k).q) (m : Tv) : bookQuos m b = bookQuos m b' := by
  rw [bookQuos, bookQuos]
  exact congrArg (List.flatMap · [true, false])
    (funext fun s => congrArg (List.map (lvl2Quo m s)) (shownSide_congr fun k => h s k))

/-- 時刻を `inva` だけずらして加えた気配は、時刻 `m` の写真でも見える。 -/
theorem visible_again (hm : m.toNat + inva.toNat < 2 ^ 64) (hn : m ≠ natv) (b : Book (OrdMap K Q)) (s : Bool) (k : K) :
    ((bookExp (quotedBook (bookQuos (m + inva) b)) (if inva ≠ 0 then m else 0)).visible s k).q = (b.visible s k).q := by
  have hq : ∀ v : BtreeVal Q, (stampedAt (m + inva) (shown v)).q = (shown v).q := by
    intro v
    rw [stampedAt, nilP_shown]
    cases hv : v.nilP with
    | true => rw [shown_of_nil hv]; rfl
    | false => rfl
  have hkeep : ∀ v w : BtreeVal Q, shown v = stampedAt (m + inva) (shown w) → shown (swept inva m v) = shown v := by
    intro v w hvw
    rw [swept, if_neg]
    rintro ⟨hi, _, hv, hle⟩
    rw [shown_of_live hv, stampedAt, nilP_shown] at hvw
    cases hw : w.nilP with
    | true =>
        rw [hw, if_pos rfl] at hvw
        rw [hvw, nilP_nil] at hv
        cases hv
    | false =>
        rw [hw, if_neg Bool.false_ne_true] at hvw
        have hpos : inva.toNat ≠ 0 := fun h => hi (UInt64.toNat_inj.mp h)
        rw [hvw, UInt64.le_iff_toNat_le, UInt64.toNat_add, Nat.mod_eq_of_lt hm] at hle
        omega
  have hvis := visible_bookQuos (m + inva) b s k
  rw [Book.visible] at hvis
  rw [Book.visible, stored_exp hn, hkeep _ _ hvis, hvis]
  exact hq _

end Books.Booksnap
