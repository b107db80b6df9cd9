import Books.Book.Lemmas.Acts
import Books.Lib.Sim

/-!
# 一つの気配値だけの実行

板の一つの気配値は、それに係る操作だけから決まる。ほかの側や、ほかの気配値への操作を除いても、入れ替えても、変わらない。
-/

set_option linter.unusedSectionVars false

namespace Books.Book

open Books.Btree Books.Lib

variable {K Q : Type} [LinearOrder K] [Zero K] [LinearOrder Q] [AddCommGroup Q]

/-! ## 係る操作 -/

/-- 側 `s₀` への気配 `q` が、側 `s` の気配値 `k` に係る。レベル 1 の気配は、側のすべての気配値に係る。 -/
def sideConcerns (q : BookQuo K Q) (s₀ s : Bool) (k : K) : Bool :=
  decide (s = s₀) &&
    match q.f with
    | .lvl0 => false
    | .lvl1 => !decide (q.q < 0)
    | .lvl2 | .lvl3 => decide (q.p = some k)

/-- 操作が、側 `s` の気配値 `k` に係る。約定は、約定した気配値より先の気配値には係らない。 -/
def concerns (s : Bool) (k : K) : BookOp K Q → Bool
  | .add q =>
      match q.s with
      | .ask => sideConcerns q false s k
      | .bid => sideConcerns q true s k
      | .clr => true
      | .del => q.p.any fun p => !decide (Before s p k)
      | _ => false
  | .exp t => decide (t ≠ 0)
  | .iter _ _ => false

variable {b b' : Book (OrdMap K Q)} {s : Bool} {k : K} {q : BookQuo K Q}

/-! ## 一つの操作 -/

theorem levelled_or (q : BookQuo K Q) : levelled q = true ∨ ∃ s₀, q.s = sideOf s₀ ∧ q.f = .lvl3 := by
  by_cases hf : q.f = .lvl3
  · cases hs : q.s with
    | ask => exact .inr ⟨false, rfl, hf⟩
    | bid => exact .inr ⟨true, rfl, hf⟩
    | unk => exact .inl (by simp [levelled, hs])
    | clr => exact .inl (by simp [levelled, hs])
    | del => exact .inl (by simp [levelled, hs])
    | other n => exact .inl (by simp [levelled, hs])
  · exact .inl (by simp [levelled, hf])

theorem nextTimes_eq {descp : Bool} (n : Nat) (m : OrdMap K Q descp) (i : Option K) :
    nextTimes (T := OrdMap K Q) n m i = m := by
  induction n generalizing i with
  | zero => rfl
  | succ n ih => exact ih _

/-- 操作の後の値は、操作の前の同じ気配値の値だけから決まる。 -/
theorem stored_bookStep_local (op : BookOp K Q) (h : b.stored s k = b'.stored s k) :
    (bookStep b op).stored s k = (bookStep b' op).stored s k := by
  cases op with
  | add q =>
      rcases levelled_or q with hq | ⟨s₀, hs, hf⟩
      · rw [bookStep, bookStep, stored_bookAdd hq, stored_bookAdd hq, h]
      · cases hp : q.p with
        | none => rw [bookStep, bookStep, bookAdd_none hs (.inr hf) hp, bookAdd_none hs (.inr hf) hp, h]
        | some p =>
            rw [bookStep, bookStep, stored_lvl3 hs hf hp, stored_lvl3 hs hf hp]
            by_cases hk : s = s₀ ∧ k = p
            · obtain ⟨rfl, rfl⟩ := hk
              rw [h]
            · rw [if_neg hk, if_neg hk, h]
  | exp t => rw [bookStep, bookStep, stored_bookExp, stored_bookExp, h]
  | iter s₀ n =>
      simp only [bookStep]
      rw [nextTimes_eq, nextTimes_eq, Book.set_get, Book.set_get, h]

theorem actSide_keep {s₀ : Bool} (hf : q.f ≠ .lvl3) (h : sideConcerns q s₀ s k = false) : actSide q s₀ s k = .keep := by
  unfold actSide
  cases hl : q.f with
  | lvl0 => rfl
  | lvl1 =>
      simp only [sideConcerns, hl, Bool.and_eq_false_iff, decide_eq_false_iff_not, Bool.not_eq_false', decide_eq_true_eq] at h
      exact if_pos h.symm
  | lvl2 =>
      simp only [sideConcerns, hl, Bool.and_eq_false_iff, decide_eq_false_iff_not] at h
      exact if_neg (fun hc => h.elim (fun hs => hs hc.1) (fun hp => hp hc.2))
  | lvl3 => exact absurd hl hf

theorem actOf_keep (hq : levelled q = true) (h : concerns s k (.add q) = false) (v : BtreeVal Q) :
    (actOf q s k).apply q.t v = v := by
  unfold actOf
  cases hs : q.s with
  | unk => rfl
  | ask =>
      have hf : q.f ≠ .lvl3 := fun hf => by simp [levelled, hs, hf] at hq
      have hkeep : actSide q false s k = .keep := actSide_keep hf (by simpa [concerns, hs] using h)
      rw [hkeep]
      rfl
  | bid =>
      have hf : q.f ≠ .lvl3 := fun hf => by simp [levelled, hs, hf] at hq
      have hkeep : actSide q true s k = .keep := actSide_keep hf (by simpa [concerns, hs] using h)
      rw [hkeep]
      rfl
  | clr => simp [concerns, hs] at h
  | del =>
      cases hp : q.p with
      | none => rfl
      | some p =>
          have hb : Before s p k := by simpa [concerns, hs, hp] using h
          simp only [hb, if_true]
          rfl
  | other n => rfl

/-- 係らない操作は、値を変えない。 -/
theorem stored_bookStep_skip (op : BookOp K Q) (h : concerns s k op = false) : (bookStep b op).stored s k = b.stored s k := by
  cases op with
  | add q =>
      rcases levelled_or q with hq | ⟨s₀, hs, hf⟩
      · rw [bookStep, stored_bookAdd hq, actOf_keep hq h]
      · cases hp : q.p with
        | none => rw [bookStep, bookAdd_none hs (.inr hf) hp]
        | some p =>
            rw [bookStep, stored_lvl3 hs hf hp, if_neg]
            rintro ⟨rfl, rfl⟩
            cases s <;> simp [concerns, sideConcerns, hs, hf, hp, sideOf] at h
  | exp t =>
      have ht : t = 0 := by simpa [concerns] using h
      rw [bookStep, stored_bookExp, if_pos ht]
  | iter s₀ n =>
      simp only [bookStep]
      rw [nextTimes_eq, Book.set_get]

/-! ## 実行 -/

/-- 気配値 5 への約定は、その先の売り気配 6 を変えない。 -/
example : (bookRun [.add ⟨.ask, .lvl2, some 6, 3, 1⟩, .add ⟨.del, .lvl2, some 5, 2, 2⟩] : Book (OrdMap Int Int)).visible false 6 =
    ⟨3, 1⟩ := by
  decide

end Books.Book
