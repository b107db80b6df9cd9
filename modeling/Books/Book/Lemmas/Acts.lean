import Books.Book.Lemmas.Add
import Mathlib.Data.List.TakeWhile

/-!
# 気配値ごとの働き

レベル 3 を除く気配は、木に入っている値を、気配値ごとに独立に変える。その変え方を `Act` で表す。
-/

set_option linter.unusedSectionVars false

namespace Books.Book

open Books.Btree

variable {K Q : Type} [LinearOrder K] [Zero K] [LinearOrder Q] [AddCommGroup Q]

/-- 一つの値の変え方。`change` は、見える値の数量だけを変える。 -/
inductive Act (Q : Type) where
  | keep
  | drop
  | put (q : Q)
  | change (f : Q → Q)

def Act.apply (t : Tv) (v : BtreeVal Q) : Act Q → BtreeVal Q
  | .keep => v
  | .drop => .nil
  | .put q => ⟨q, t⟩
  | .change f => if v.nilP then v else { v with q := f v.q }

/-- 側 `s₀` への気配 `q` が、側 `s` の気配値 `k` に行う働き。 -/
def actSide (q : BookQuo K Q) (s₀ s : Bool) (k : K) : Act Q :=
  match q.f with
  | .lvl1 => if q.q < 0 ∨ s ≠ s₀ then .keep else if q.p = some k then .put q.q else .drop
  | .lvl2 => if s = s₀ ∧ q.p = some k then .put q.q else .keep
  | _ => .keep

/-- 気配 `q` が、側 `s` の気配値 `k` に行う働き。 -/
def actOf (q : BookQuo K Q) (s : Bool) (k : K) : Act Q :=
  match q.s with
  | .ask => actSide q false s k
  | .bid => actSide q true s k
  | .clr => .drop
  | .del =>
      match q.p with
      | none => .keep
      | some p => if Before s p k then .keep else .change fun x => if Before s k p then 0 else x - q.q
  | _ => .keep

/-- 側 `BOOK_SIDE_ASK` か `BOOK_SIDE_BID` の、レベル 3 の気配でない。 -/
def levelled (q : BookQuo K Q) : Bool := !((decide (q.s = .ask) || decide (q.s = .bid)) && decide (q.f = .lvl3))

variable {b : Book (OrdMap K Q)} {s s' : Bool} {q : BookQuo K Q} {p k : K} {t : Tv}

theorem actOf_time (q : BookQuo K Q) (t : Tv) (s : Bool) (k : K) : actOf { q with t := t } s k = actOf q s k := rfl

theorem stored_side (hs : q.s = sideOf s') (hf : q.f ≠ .lvl3) (s : Bool) (k : K) :
    (bookAdd b q).1.stored s k = (actSide q s' s k).apply q.t (b.stored s k) := by
  unfold actSide
  cases hlvl : q.f with
  | lvl0 => rw [bookAdd_lvl0 hs hlvl]; rfl
  | lvl1 =>
      by_cases hq : q.q < 0
      · rw [bookAdd_lvl1_neg hs hlvl hq, if_pos (Or.inl hq)]
        rfl
      · by_cases hss : s = s'
        · rw [if_neg (not_or.mpr ⟨hq, not_not.mpr hss⟩)]
          cases hp : q.p with
          | none => rw [stored_lvl1_none hs hlvl hp hq, if_pos hss, if_neg (Option.some_ne_none k).symm]; rfl
          | some p =>
              rw [stored_lvl1 hs hlvl hp hq, if_pos hss]
              simp only [Option.some.injEq, eq_comm (a := p)]
              split <;> rfl
        · rw [if_pos (Or.inr hss)]
          cases hp : q.p with
          | none => rw [stored_lvl1_none hs hlvl hp hq, if_neg hss]; rfl
          | some p => rw [stored_lvl1 hs hlvl hp hq, if_neg hss]; rfl
  | lvl2 =>
      cases hp : q.p with
      | none =>
          rw [bookAdd_side hs, addLvl, hlvl, hp]
          simp only [putVal_none, Book.set_get]
          rw [if_neg (fun h => Option.some_ne_none _ h.2.symm)]
          rfl
      | some p =>
          rw [stored_lvl2 hs hlvl hp]
          simp only [Option.some.injEq, eq_comm (a := p)]
          split <;> rfl
  | lvl3 => exact absurd hlvl hf

/-- `book_add` は、レベル 3 でない気配では、値を気配値ごとに変える。 -/
theorem stored_bookAdd (hq : levelled q = true) (b : Book (OrdMap K Q)) (s : Bool) (k : K) :
    (bookAdd b q).1.stored s k = (actOf q s k).apply q.t (b.stored s k) := by
  unfold actOf
  cases hs : q.s with
  | unk => rw [bookAdd, hs]; rfl
  | ask =>
      refine stored_side (show q.s = sideOf false from hs) (fun hf => ?_) s k
      simp [levelled, hs, hf] at hq
  | bid =>
      refine stored_side (show q.s = sideOf true from hs) (fun hf => ?_) s k
      simp [levelled, hs, hf] at hq
  | clr => rw [stored_clr hs]; rfl
  | del =>
      cases hp : q.p with
      | none =>
          rw [bookAdd_del_none hs hp]
          rfl
      | some p =>
          rw [stored_del hs hp]
          by_cases hb : Before s p k
          · simp only [hb, not_true_eq_false, and_false, if_false, if_true]
            rfl
          · cases hv : (b.stored s k).nilP with
            | true => simp [hb, Act.apply, hv]
            | false => simp [hb, Act.apply, hv]
  | other n => rw [bookAdd, hs]; rfl

theorem stored_bookExp (b : Book (OrdMap K Q)) (t : Tv) (s : Bool) (k : K) : (bookExp b t).stored s k =
    if t = 0 then b.stored s k
    else if t = natv then .nil
    else if (b.stored s k).nilP = false ∧ (b.stored s k).t ≤ t then .nil else b.stored s k := by
  have hside : ∀ {s : Bool} (m : OrdMap K Q s), (eachVal (fun _ => true) (fun (_ : Option K) (v : BtreeVal Q) =>
      if v.t ≤ t then .nil else v) (BTree.bound m) m BTree.iter).val k =
      if (m.val k).nilP = false ∧ (m.val k).t ≤ t then .nil else m.val k := by
    intro s m
    have hloop := eachVal_val (fun _ => true) (fun (_ : Option K) (v : BtreeVal Q) => if v.t ≤ t then .nil else v)
      (m.rest none) (m.keys.length + 1) m none rfl (Nat.lt_succ_of_le (m.rest_length none)) k
    refine hloop.trans ?_
    rw [List.takeWhile_eq_self_iff.mpr (fun _ _ => rfl)]
    simp only [OrdMap.mem_rest_none]
    cases (m.val k).nilP with
    | true => simp
    | false => simp
  unfold bookExp
  split
  · rfl
  · split
    · cases s <;> rfl
    · cases s with
      | false => exact hside b.ask
      | true => exact hside b.bid

end Books.Book
