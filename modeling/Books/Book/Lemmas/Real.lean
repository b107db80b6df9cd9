import Books.Book.Spec
import Books.Btree.Lemmas.Levels

/-!
# `btree.c` の木の上の板

NaN のキーを加えない限り、板への操作は木の不変条件を保つ。
-/

set_option linter.unusedSectionVars false

namespace Books.Book

open Books.Btree

variable {K Q : Type} [LinearOrder K] [Zero K] [LinearOrder Q] [AddCommGroup Q]
variable {descp : Bool} {h : Heap K Q} {d : Nat} {a : Addr} {k : K} {it : BtreeIter K}

/-- 木の不変条件。 -/
def Sound (h : Heap K Q) (descp : Bool) : Prop := ∃ d, Inv h descp d

theorem Sound.step (S : Sound h descp) (op : Op K Q) : Sound (step h op) descp := by
  obtain ⟨d, I⟩ := S
  exact I.step_ok op

/-! ## 反復 -/

/-- 反復子は、根か葉を指す。 -/
def IterOk (h : Heap K Q) (it : BtreeIter K) : Prop := ∀ t, it.t = some t → t = root ∨ (h.get t).innerp = false

theorem iterFrom_leaf : ∀ (fuel : Nat) (h : Heap K Q) (it : BtreeIter K) (t : Addr) (i : Nat), LeafNext h →
    (h.get t).innerp = false → (iterFrom fuel h it t i).2.2 = true →
    ∃ c, (iterFrom fuel h it t i).2.1.v = some c ∧ (iterFrom fuel h it t i).2.1.t = some c.t ∧
      (h.get c.t).innerp = false
  | 0, _, _, _, _, _, _, hr => by cases hr
  | fuel + 1, h, it, t, i, hN, hl, hr => by
      have H := usedOnly_iterLeaf h t i
      have hnext : ((h.get t).iterLeaf i).1.next = (h.get t).next := by
        obtain ⟨w, hw, _⟩ := Node.iterLoop_used 64 (h.get t) ((h.get t).used >>> i) (ctzll ((h.get t).used >>> i))
          (i + ctzll ((h.get t).used >>> i))
        rw [Node.iterLeaf, hw]
      simp only [iterFrom] at hr ⊢
      cases hj : ((h.get t).iterLeaf i).2 with
      | some j => exact ⟨⟨t, j⟩, rfl, rfl, hl⟩
      | none =>
          simp only [hj] at hr
          cases hy : ((h.get t).iterLeaf i).1.next with
          | none => simp only [hy] at hr; cases hr
          | some y =>
              simp only [hy] at hr
              have hly := (hN t y hl (by rw [← hnext]; exact hy)).2
              obtain ⟨c, hc, hct, hcl⟩ := iterFrom_leaf fuel _ it y 0
                (hN.same H.same.size H.same.shape H.same.next) (by rw [(H.same.shape y).innerp]; exact hly) hr
              exact ⟨c, hc, hct, by rw [← (H.same.shape c.t).innerp]; exact hcl⟩

theorem iterBottom_fst (h : Heap K Q) : ∀ (fuel : Nat) (a : Addr) (i : Nat), (iterBottom h fuel a i).1 = bottom h fuel a
  | 0, _, _ => rfl
  | fuel + 1, a, i => by
      simp only [iterBottom, bottom]
      split
      · exact iterBottom_fst h fuel _ 0
      · rfl

/-- `btree_iter_next` が返す場所は、葉の中にある。 -/
theorem Inv.iterNext_leaf (I : Inv h descp d) (hit : IterOk h it) (hr : (btreeIterNext h it).2.2 = true) :
    ∃ c, (btreeIterNext h it).2.1.v = some c ∧ (btreeIterNext h it).2.1.t = some c.t ∧
      (h.get c.t).innerp = false := by
  unfold btreeIterNext at hr ⊢
  cases ht : it.t with
  | none => simp only [ht] at hr; cases hr
  | some t =>
      simp only [ht] at hr
      have hl : (h.get (iterBottom h h.size t it.i).1).innerp = false := by
        rcases hit t ht with rfl | hl
        · rw [iterBottom_fst]
          exact (I.sub.bottom_leaf (Nat.le_of_lt I.depth)).2
        · rw [iterBottom_leaf hl]; exact hl
      exact iterFrom_leaf _ _ _ _ _ I.leafNext hl hr

/-- 反復しながら値を書き換えても、木の不変条件は保たれる。 -/
theorem Sound.eachVal (go : Option K → Bool) (f : Option K → BtreeVal Q → BtreeVal Q) :
    ∀ (fuel : Nat) (h : Heap K Q) (it : BtreeIter K), Sound h descp → IterOk h it →
    Sound (Book.eachVal go f fuel (h : Tree K Q descp) it : Tree K Q descp) descp
  | 0, _, _, S, _ => S
  | fuel + 1, h, it, ⟨d, I⟩, hit => by
      have H := btreeIterNext_usedOnly h it
      have I' := I.same H.same
      simp only [Book.eachVal]
      split
      · rename_i hr
        have hr' : (btreeIterNext h it).2.2 = true := (Bool.and_eq_true_iff.mp hr).1
        obtain ⟨c, hv, ht, hl⟩ := Inv.iterNext_leaf I hit hr'
        have hl' : ((btreeIterNext h it).1.get c.t).innerp = false := by
          rw [(H.same.shape c.t).innerp]; exact hl
        have href : (btreeIterNext h it).2.1.v.getD ⟨root, 0⟩ = c := by rw [hv]; rfl
        refine Sound.eachVal go f fuel _ _ ⟨d, ?_⟩ (fun t ht' => ?_)
        · simp only [BTree.iterNext, BTree.iterRef, BTree.store, href]
          exact I'.same (.store hl')
        · simp only [BTree.iterNext, BTree.iterRef, BTree.store, href] at ht' ⊢
          rw [ht] at ht'
          cases ht'
          exact Or.inr (by rw [(sameShape_store hl' c.t).innerp]; exact hl')
      · exact ⟨d, I'⟩

theorem Sound.nextTimes : ∀ (n : Nat) (h : Heap K Q) (it : BtreeIter K), Sound h descp →
    Sound (Book.nextTimes n (h : Tree K Q descp) it : Tree K Q descp) descp
  | 0, _, _, S => S
  | n + 1, h, it, ⟨d, I⟩ => Sound.nextTimes n _ _ ⟨d, I.same (btreeIterNext_usedOnly h it).same⟩

theorem iterOk_fresh (h : Heap K Q) : IterOk h (.fresh root) := by
  intro t ht
  cases ht
  exact Or.inl rfl

/-! ## 板への操作 -/

/-- 両側の木の不変条件。 -/
def BookSound (b : Book (Tree K Q)) : Prop := ∀ s, Sound (b.get s) s

section Ops
variable {b : Book (Tree K Q)} {q : BookQuo K Q}

theorem BookSound.set {s : Bool} {t : Tree K Q s} (S : BookSound b) (St : Sound t s) : BookSound (b.set s t) := by
  intro s'
  by_cases hs : s' = s
  · subst hs; rw [Book.get_set_eq]; exact St
  · rw [Book.get_set_ne b t hs]; exact S s'

theorem Sound.putVal {s : Bool} {t : Tree K Q s} (St : Sound t s) (p : K) (f : BtreeVal Q → BtreeVal Q) :
    Sound (Book.putVal t (some p) f).1 s := St.step (.put p _)

theorem BookSound.clr (S : BookSound b) : BookSound (bookClr b) := by
  intro s
  cases s with
  | false => exact (S false).step .clr
  | true => exact (S true).step .clr

theorem BookSound.addLvl {s : Bool} (S : BookSound b) (hq : q.f = .lvl2 ∨ q.f = .lvl3 → q.p.isSome = true) :
    BookSound (Book.addLvl b s q).1 := by
  unfold Book.addLvl
  cases hf : q.f with
  | lvl0 => exact S
  | lvl1 =>
      simp only
      split
      · exact S
      · split
        · exact S.set ((S s).step .clr)
        · rename_i hp
          cases hp' : q.p with
          | none => rw [hp'] at hp; exact absurd rfl hp
          | some p => exact S.set (Sound.putVal ((S s).step .clr) p _)
  | lvl2 =>
      obtain ⟨p, hp⟩ := Option.isSome_iff_exists.mp (hq (Or.inl hf))
      simp only [hp]
      exact S.set ((S s).putVal p _)
  | lvl3 =>
      obtain ⟨p, hp⟩ := Option.isSome_iff_exists.mp (hq (Or.inr hf))
      simp only [hp]
      exact S.set ((S s).putVal p _)

/-- NaN のキーを加えない `book_add` は、木の不変条件を保つ。 -/
theorem BookSound.bookAdd (S : BookSound b) (hq : priced q = true) : BookSound (Book.bookAdd b q).1 := by
  have hside : q.s = .ask ∨ q.s = .bid → q.f = .lvl2 ∨ q.f = .lvl3 → q.p.isSome = true := by
    intro hs hf
    rcases hs with hs | hs <;> rcases hf with hf | hf <;> simpa [priced, hs, hf] using hq
  unfold Book.bookAdd
  cases hs : q.s with
  | unk => exact S
  | ask => exact S.addLvl (hside (Or.inl hs))
  | bid => exact S.addLvl (hside (Or.inr hs))
  | clr => exact S.clr
  | del =>
      intro s
      cases s with
      | false => exact Sound.eachVal _ _ _ _ _ (S false) (iterOk_fresh _)
      | true => exact Sound.eachVal _ _ _ _ _ (S true) (iterOk_fresh _)
  | other n => exact S

theorem BookSound.bookExp (S : BookSound b) (t : Tv) : BookSound (Book.bookExp b t) := by
  unfold Book.bookExp
  split
  · exact S
  · split
    · exact S.clr
    · intro s
      cases s with
      | false => exact Sound.eachVal _ _ _ _ _ (S false) (iterOk_fresh _)
      | true => exact Sound.eachVal _ _ _ _ _ (S true) (iterOk_fresh _)

theorem BookSound.bookStep (S : BookSound b) (op : BookOp K Q) (hop : ∀ q, op = .add q → priced q = true) :
    BookSound (Book.bookStep b op) := by
  cases op with
  | add q => exact S.bookAdd (hop q rfl)
  | exp t => exact S.bookExp t
  | iter s n => exact S.set (Sound.nextTimes n _ _ (S s))

theorem bookSound_makeBook : BookSound (makeBook : Book (Tree K Q)) := by
  intro s
  cases s with
  | false => exact ⟨0, inv_makeBtree false⟩
  | true => exact ⟨0, inv_makeBtree true⟩

theorem bookSound_run {ops : List (BookOp K Q)} (hops : ∀ q, .add q ∈ ops → priced q = true) :
    BookSound (bookRun ops : Book (Tree K Q)) := by
  have hfold : ∀ (ops : List (BookOp K Q)) (b : Book (Tree K Q)), BookSound b →
      (∀ q, .add q ∈ ops → priced q = true) → BookSound (ops.foldl Book.bookStep b) := by
    intro ops
    induction ops with
    | nil => exact fun _ S _ => S
    | cons op ops ih =>
        intro b S hops
        refine ih _ (S.bookStep op (fun q hq => hops q ?_)) (fun q hq => hops q (List.mem_cons_of_mem op hq))
        rw [hq]; exact List.mem_cons_self
  exact hfold ops _ bookSound_makeBook hops

end Ops

/-! ## キーの並び -/

theorem Sound.treeSorted (S : Sound h descp) : TreeSorted h descp := by
  obtain ⟨d, I⟩ := S
  have he : treeKeys h = ((leaves h).flatMap (cellsBy (fun _ _ => true) h)).map
      (fun c => (h.get c.t).key.get c.i) := by
    rw [treeKeys, List.map_flatMap]
    refine List.flatMap_congr (fun x _ => ?_)
    rw [cellsBy, List.filter_true, List.map_map]
    rfl
  refine ⟨I.treeInv, fun k hk => ?_, ?_⟩
  · rw [he, List.mem_map] at hk
    obtain ⟨c, hc, rfl⟩ := hk
    obtain ⟨⟨y, hy⟩, _⟩ := I.mem_cells.mp hc
    rw [hy.key]
    exact Option.some_ne_none y
  · rw [he, List.pairwise_map, show leaves h = (blocks h d root).flatten from I.sub.leavesOf_eq I.depth]
    exact I.sub.cellsBy_sorted _

theorem BookSound.bookSorted {b : Book (Tree K Q)} (S : BookSound b) : BookSorted b :=
  ⟨(S false).treeSorted, (S true).treeSorted⟩

/-- 値の見つかる気配値へのレベル 2 の気配は、その気配だけを書き換える。 -/
theorem BookSound.updatesLevel {b : Book (Tree K Q)} {s : Bool} {p : K} {v : BtreeVal Q} (S : BookSound b)
    (hp : (find (b.get s) p).nilP = false) : UpdatesLevel b s p v := by
  obtain ⟨d, I⟩ := S s
  have hadd : (Book.bookAdd b ⟨sideOf s, .lvl2, some p, v.q, v.t⟩).1 = b.set s (step (b.get s) (.put p v)) := by
    cases s <;> rfl
  -- キーのある葉は埋まらないので、返した場所は失われない。
  have hl : losesCell (b.get s) (some p) = false := by
    by_contra hl
    exact I.not_has_of_loses (by simpa using hl) ((I.sub.find_iff I.depth hp).mp rfl)
  have hne : (!s) ≠ s := by cases s <;> decide
  refine ⟨(S.bookAdd (by cases s <;> rfl)).bookSorted, ?_, fun k hk => ?_, ?_⟩
  · rw [hadd, Book.get_set_eq]
    cases hv : v.nilP with
    | false =>
        rw [shown, hv]
        exact (I.find_put hl hv p).mpr (Or.inl ⟨rfl, rfl⟩)
    | true =>
        rw [shown, hv]
        refine find_eq_nil_iff.mpr (fun w hw he => ?_)
        rcases (I.find_put hl hw p).mp he with ⟨_, rfl⟩ | ⟨hne, _⟩
        · rw [hv] at hw; cases hw
        · exact hne rfl
  · rw [hadd, Book.get_set_eq]
    exact I.find_put_ne hl hk
  · rw [hadd, Book.get_set_ne b _ hne]

end Books.Book
