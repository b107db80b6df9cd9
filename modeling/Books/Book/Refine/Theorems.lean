import Books.Book.Refine.Steps
import Mathlib.Algebra.Order.Group.Int

/-!
# 木の板と理想の板が同じに見えること

木の欠陥に触れず、数量を負にしない操作の列では、`btree.c` の木の上の板は、いつも理想の板と同じに見える。
-/

set_option linter.unusedSectionVars false

namespace Books.Book

open Books.Btree

variable {K Q : Type} [LinearOrder K] [Zero K] [LinearOrder Q] [AddCommGroup Q]
variable {b : Book (Tree K Q)} {m : Book (OrdMap K Q)} {s : Bool} {q : BookQuo K Q}

/-- 両側の木が、両側の写像を表す。 -/
def BookRepresents (b : Book (Tree K Q)) (m : Book (OrdMap K Q)) : Prop := ∀ s, Represents (b.get s) (m.get s)

theorem BookRepresents.sides {t : Tree K Q false} {t' : Tree K Q true} {o : OrdMap K Q false} {o' : OrdMap K Q true}
    (R : Represents t o) (R' : Represents t' o') : BookRepresents ⟨t, t'⟩ ⟨o, o'⟩ := by
  intro s
  cases s with
  | false => exact R
  | true => exact R'

theorem BookRepresents.set {t : Tree K Q s} {o : OrdMap K Q s} (R : BookRepresents b m) (Rt : Represents t o) :
    BookRepresents (b.set s t) (m.set s o) := by
  intro s'
  by_cases hs : s' = s
  · subst hs
    rw [Book.get_set_eq, Book.get_set_eq]
    exact Rt
  · rw [Book.get_set_ne b t hs, Book.get_set_ne m o hs]
    exact R s'

/-! ## 返す気配 -/

theorem SameReply.refl (r : BookQuo K Q) : SameReply r r := Or.inl rfl

/-- 返した気配の数量は、時刻を問わず等しい。 -/
theorem SameReply.q_eq {r r' : BookQuo K Q} (h : SameReply r r') : r'.q = r.q := by
  rcases h with rfl | ⟨_, h⟩
  · rfl
  · rw [h]

/-- 同じに見える値を返す気配は、等しい。 -/
theorem sameReply_of_shown {a : BookSide} {f : BookLvl} {p : Option K} {o o' : BtreeVal Q} (h : shown o = shown o')
    (hq : 0 ≤ o.q) (hq' : 0 ≤ o'.q) : SameReply ⟨a, f, p, o.q, o.t⟩ ⟨a, f, p, o'.q, o'.t⟩ := by
  have hqq : o'.q = o.q := by rw [← shown_q_eq hq, ← shown_q_eq hq', h]
  cases hv : o.nilP with
  | true =>
      have hz : o.q = 0 := le_antisymm (of_decide_eq_true hv) hq
      exact Or.inr ⟨hz, by rw [hqq]⟩
  | false =>
      have hv' : o'.nilP = false := by rw [← nilP_shown, ← h, nilP_shown]; exact hv
      rw [shown_of_live hv, shown_of_live hv'] at h
      exact Or.inl (by rw [h])

/-! ## `book_add` -/

/-- 側への気配の追加は、対応を保ち、同じ気配を返す。 -/
theorem BookRepresents.addLvl (R : BookRepresents b m) (hs : safeLvl (b.get s) q = true)
    (hneg : q.f = .lvl2 → ¬ q.q < 0) : BookRepresents (Book.addLvl b s q).1 (Book.addLvl m s q).1 ∧
    SameReply (Book.addLvl b s q).2 (Book.addLvl m s q).2 := by
  unfold safeLvl at hs
  unfold Book.addLvl
  cases hf : q.f with
  | lvl0 => exact ⟨R, .refl _⟩
  | lvl1 =>
      simp only [hf, Bool.or_eq_true, decide_eq_true_eq] at hs
      by_cases hq : q.q < 0
      · simp only [if_pos hq]
        exact ⟨R, .refl _⟩
      · have Rc := (R s).clr
        simp only [if_neg hq]
        cases hp : q.p with
        | none => exact ⟨R.set Rc, .refl _⟩
        | some p =>
            rw [hp] at hs
            simp only [Option.isNone_some, Bool.false_eq_true, if_false]
            obtain ⟨Rp, hold, hnn⟩ := Rc.putVal (hs.resolve_left hq) (f := fun _ => ⟨q.q, q.t⟩) (fun _ _ _ => rfl)
              (fun _ _ => not_lt.mp hq)
            exact ⟨R.set Rp, sameReply_of_shown hold hnn (Rc.ideal p)⟩
  | lvl2 =>
      simp only [hf, Option.any_eq_true] at hs
      obtain ⟨p, hp, hs⟩ := hs
      simp only [hp]
      obtain ⟨Rp, hold, hnn⟩ := (R s).putVal hs (f := fun _ => ⟨q.q, q.t⟩) (fun _ _ _ => rfl) (fun _ _ => not_lt.mp (hneg hf))
      exact ⟨R.set Rp, sameReply_of_shown hold hnn ((R s).ideal p)⟩
  | lvl3 =>
      simp only [hf, Option.any_eq_true] at hs
      obtain ⟨p, hp, hs⟩ := hs
      simp only [hp]
      obtain ⟨Rp, hold, hnn⟩ := (R s).putVal hs (f := fun o => ⟨if 0 ≤ q.q + o.q then q.q + o.q else 0, q.t⟩)
        (fun o o' ho => by rw [ho]) (fun o _ => by
          simp only
          split
          · rename_i hle
            exact hle
          · exact le_rfl)
      exact ⟨R.set Rp, sameReply_of_shown hold hnn ((R s).ideal p)⟩

/-- 見える数量に足りる約定は、対応を保つ。 -/
theorem Represents.delSide [IsOrderedAddMonoid Q] {h : Tree K Q s} {o : OrdMap K Q s} {past go : Option K → Option K → Bool}
    (R : Represents h o) (M : AllMarked h) (hpast : ∀ k p : K, past (some k) (some p) = decide (Before s k p))
    (hgo : ∀ k p : K, go (some k) (some p) = !decide (Before s p k)) (hnone : ∀ k, go k none = false)
    (hlack : ∀ p, q.p = some p → (o.val p).nilP = false → q.q ≤ (o.val p).q) :
    Represents (Book.delSide past go q h) (Book.delSide past go q o) := by
  refine R.eachVal M (fun k hv hk => ?_)
  cases hp : q.p with
  | none =>
      rw [hp, hnone] at hk
      cases hk
  | some p =>
      rw [hp, hgo, Bool.not_eq_true', decide_eq_false_iff_not] at hk
      simp only [hpast, decide_eq_true_eq]
      split
      · exact le_rfl
      · rename_i hkp
        rcases before_trichotomy s k p with hb | rfl | hb
        · exact absurd hb hkp
        · exact sub_nonneg.mpr (hlack k hp hv)
        · exact absurd hb hk

/-- 木の欠陥に触れず、負の数量も残さない `book_add` は、対応を保ち、同じ気配を返す。 -/
theorem BookRepresents.bookAdd [IsOrderedAddMonoid Q] (R : BookRepresents b m) (hs : safeAdd b q = true) :
    BookRepresents (Book.bookAdd b q).1 (Book.bookAdd m q).1 ∧ SameReply (Book.bookAdd b q).2 (Book.bookAdd m q).2 := by
  unfold safeAdd at hs
  unfold Book.bookAdd
  cases hside : q.s with
  | unk => exact ⟨R, .refl _⟩
  | other n => exact ⟨R, .refl _⟩
  | ask =>
      simp only [hside, Bool.and_eq_true, Bool.not_eq_true'] at hs
      exact R.addLvl (s := false) hs.1 (fun hf hq => by simp [hf, hq] at hs)
  | bid =>
      simp only [hside, Bool.and_eq_true, Bool.not_eq_true'] at hs
      exact R.addLvl (s := true) hs.1 (fun hf hq => by simp [hf, hq] at hs)
  | clr =>
      exact ⟨.sides (R false).clr (R true).clr, .refl _⟩
  | del =>
      simp only [hside, Bool.and_eq_true, decide_eq_true_eq, Bool.not_eq_true'] at hs
      obtain ⟨⟨hask, hbid⟩, hlack⟩ := hs
      have hle : ∀ s p, q.p = some p → ((m.get s).val p).nilP = false → q.q ≤ ((m.get s).val p).q := by
        intro s p hp hv
        have hl : lacksAt b s p q.q = false := by
          rw [hp] at hlack
          obtain ⟨h₁, h₂⟩ := Bool.or_eq_false_iff.mp hlack
          cases s with
          | false => exact h₁
          | true => exact h₂
        rw [lacksAt, (R s).find_live hv, hv] at hl
        exact not_lt.mp (of_decide_eq_false hl)
      refine ⟨.sides ?_ ?_, .refl _⟩
      · refine (R false).delSide hask (fun k p => ?_) (fun k p => ?_) pxLe_none (hle false)
        · simp [pxLt, Before]
        · simp [pxLe_eq, Before]
      · refine (R true).delSide hbid (fun k p => ?_) (fun k p => ?_) (fun _ => ?_) (hle true)
        · simp [pxLt, Before]
        · simp [pxLe_eq, Before]
        · rfl

/-! ## 実行 -/

theorem BookRepresents.bookExp (R : BookRepresents b m) (t : Tv)
    (hM : t ≠ 0 → t ≠ natv → AllMarked b.ask ∧ AllMarked b.bid) :
    BookRepresents (Book.bookExp b t) (Book.bookExp m t) := by
  unfold Book.bookExp
  by_cases h₀ : t = 0
  · rw [if_pos h₀, if_pos h₀]
    exact R
  · rw [if_neg h₀, if_neg h₀]
    by_cases h₁ : t = natv
    · rw [if_pos h₁, if_pos h₁]
      exact .sides (R false).clr (R true).clr
    · rw [if_neg h₁, if_neg h₁]
      obtain ⟨hask, hbid⟩ := hM h₀ h₁
      have hf : ∀ s k, 0 ≤ (if ((m.get s).val k).t ≤ t then (.nil : BtreeVal Q) else (m.get s).val k).q := by
        intro s k
        split
        · exact le_rfl
        · exact (R s).ideal k
      dsimp only
      refine .sides ((R false).eachVal hask (fun k _ _ => ?_)) ((R true).eachVal hbid (fun k _ _ => ?_))
      · exact hf false k
      · exact hf true k

theorem BookRepresents.bookStep [IsOrderedAddMonoid Q] (R : BookRepresents b m) (op : BookOp K Q)
    (hs : safeOp b op = true) : BookRepresents (Book.bookStep b op) (Book.bookStep m op) := by
  cases op with
  | add q => exact (R.bookAdd hs).1
  | exp t =>
      simp only [safeOp, Bool.or_eq_true, Bool.and_eq_true, decide_eq_true_eq] at hs
      exact R.bookExp t (fun h₀ h₁ => (hs.resolve_left (not_or.mpr ⟨h₀, h₁⟩)))
  | iter s n =>
      refine R.set ?_
      rw [Represents.nextTimes_ideal]
      exact Represents.nextTimes n _ _ (R s)

theorem BookRepresents.run [IsOrderedAddMonoid Q] : ∀ (ops : List (BookOp K Q)) (b : Book (Tree K Q))
    (m : Book (OrdMap K Q)), BookRepresents b m → SafeRun b ops →
    BookRepresents (ops.foldl Book.bookStep b) (ops.foldl Book.bookStep m)
  | [], _, _, R, _ => R
  | op :: ops, _, _, R, hs => BookRepresents.run ops _ _ (R.bookStep op hs.1) hs.2

theorem bookRepresents_makeBook : BookRepresents (makeBook : Book (Tree K Q)) makeBook := by
  exact .sides (Represents.make false) (Represents.make true)

/-- 理想の写像の反復は、返すキーと値を順に得る。 -/
theorem bookIterNexts_ideal {o : OrdMap K Q s} : ∀ (n : Nat) (last : Option K) (ks : List K), o.rest last = ks →
    ks.length < n → bookIterNexts n o last = ks.map fun k => (some k, o.val k)
  | 0, _, _, _, hn => absurd hn (Nat.not_lt_zero _)
  | n + 1, last, [], hr, _ => by
      have hk : o.nextKey last = none := by rw [o.nextKey_eq, hr]; rfl
      simp [bookIterNexts, BTree.iterNext, hk]
  | n + 1, last, k :: ks, hr, hn => by
      have hk : o.nextKey last = some k := by rw [o.nextKey_eq, hr]; rfl
      have hrest : o.rest (some k) = ks := OrdMap.rest_cons hr rfl (fun _ _ => rfl)
      simp only [bookIterNexts, BTree.iterNext, hk, Option.some_or, Option.isSome_some, if_true, BTree.iterKey, BTree.iterRef,
        BTree.load, Option.elim_some, List.map_cons]
      rw [bookIterNexts_ideal n (some k) ks hrest (Nat.lt_of_succ_lt_succ hn)]

theorem BookRepresents.refines [IsOrderedAddMonoid Q] (R : BookRepresents b m) : Refines b m where
  find s k := (R s).find k
  iter s M := by
    rw [bookIter, bookIter, (R s).bookIterNexts M]
    exact (bookIterNexts_ideal _ none _ rfl (Nat.lt_succ_of_le ((m.get s).rest_length none))).symm
  reply _ hs := (R.bookAdd hs).2

/-- 木の欠陥に触れず、負の数量も残さない操作の列では、木の板は理想の板と同じに見える。 -/
theorem tree_refines_run [IsOrderedAddMonoid Q] (ops : List (BookOp K Q)) (hops : SafeRun (makeBook : Book (Tree K Q)) ops) :
    Refines (bookRun ops : Book (Tree K Q)) (bookRun ops) :=
  (BookRepresents.run ops _ _ bookRepresents_makeBook hops).refines

/-- 追加、消去を伴う追加、約定、期限切れを一度ずつ行う。 -/
theorem tree_refines_run_each :
    SafeRun (makeBook : Book (Tree Int Int)) [.add ⟨.ask, .lvl2, some 5, 3, 1⟩, .add ⟨.ask, .lvl3, some 6, 2, 2⟩,
      .add ⟨.bid, .lvl1, some 4, 7, 3⟩, .add ⟨.del, .lvl2, some 6, 1, 4⟩, .iter false 2, .exp 2] ∧
    Refines (bookRun [.add ⟨.ask, .lvl2, some 5, 3, 1⟩, .add ⟨.ask, .lvl3, some 6, 2, 2⟩, .add ⟨.bid, .lvl1, some 4, 7, 3⟩,
      .add ⟨.del, .lvl2, some 6, 1, 4⟩, .iter false 2, .exp 2] : Book (Tree Int Int)) (bookRun
      [.add ⟨.ask, .lvl2, some 5, 3, 1⟩, .add ⟨.ask, .lvl3, some 6, 2, 2⟩, .add ⟨.bid, .lvl1, some 4, 7, 3⟩,
        .add ⟨.del, .lvl2, some 6, 1, 4⟩, .iter false 2, .exp 2]) := by
  have hops : SafeRun (makeBook : Book (Tree Int Int)) [.add ⟨.ask, .lvl2, some 5, 3, 1⟩, .add ⟨.ask, .lvl3, some 6, 2, 2⟩,
      .add ⟨.bid, .lvl1, some 4, 7, 3⟩, .add ⟨.del, .lvl2, some 6, 1, 4⟩, .iter false 2, .exp 2] :=
    ⟨by decide +kernel, by decide +kernel, by decide +kernel, by decide +kernel, by decide +kernel, by decide +kernel, trivial⟩
  exact ⟨hops, tree_refines_run _ hops⟩

end Books.Book
