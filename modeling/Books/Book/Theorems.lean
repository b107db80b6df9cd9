import Books.Book.Lemmas.Add

/-!
# 板の主定理
-/

set_option linter.unusedSectionVars false

namespace Books.Book

open Books.Btree

variable {K Q : Type} [LinearOrder K] [Zero K] [LinearOrder Q] [AddCommGroup Q]
variable {b : Book (OrdMap K Q)} {s : Bool} {q : BookQuo K Q} {p : K}

/-! ## `book_add` の変更 -/

theorem visible_update {v : BtreeVal Q} {b' : Book (OrdMap K Q)}
    (hb : ∀ s' k, b'.stored s' k = if s' = s ∧ k = p then v else b.stored s' k) :
    b'.visible = b.visible.update s p v := by
  funext s' k
  rw [Book.visible, hb, Levels.update]
  split <;> rfl

theorem visible_side (hs : q.s = sideOf s) (hp : q.p = some p) :
    (bookAdd b q).1.visible = sideAfter b.visible b.stored s p q := by
  unfold sideAfter
  cases hf : q.f with
  | lvl0 => rw [bookAdd_lvl0 hs hf]
  | lvl1 =>
      by_cases hq : q.q < 0
      · rw [bookAdd_lvl1_neg hs hf hq, if_pos hq]
      · simp only [if_neg hq]
        funext s' k
        rw [Book.visible, stored_lvl1 hs hf hp hq, Levels.single]
        split
        · split
          · rfl
          · exact shown_nil
        · rfl
  | lvl2 => exact visible_update (stored_lvl2 hs hf hp)
  | lvl3 => exact visible_update (stored_lvl3 hs hf hp)

theorem visible_del (hs : q.s = .del) (hp : q.p = some p) : (bookAdd b q).1.visible = b.visible.reduce p q.q := by
  funext s k
  rw [Book.visible, stored_del hs hp, Levels.reduce]
  simp only [Book.visible, nilP_shown]
  cases hv : (b.stored s k).nilP with
  | true =>
      have hnil := shown_of_nil hv
      simp [hnil]
  | false =>
      rw [shown_of_live hv]
      rcases before_trichotomy s k p with hb | rfl | hb
      · rw [if_pos ⟨rfl, hb.asymm⟩, if_pos hb, if_pos hb]
        exact shown_of_nil (by simp [BtreeVal.nilP])
      · have hirr : ¬ Before s k k := Before.irrefl k
        simp [hirr]
      · have hne : ¬ (k = p ∧ false = false) := fun h => hb.ne h.1.symm
        rw [if_neg (fun h => h.2 hb), if_neg hb.asymm, if_neg hne]
        exact shown_of_live hv

/-- `book_add` は、見える気配を `levelsAfter` のとおりに変え、ほかを変えない。受け付けない気配では `NOT_A_QUO` を返し、
板をそのままにする。 -/
theorem bookAdd_levels (b : Book (OrdMap K Q)) (s : BookSide) (f : BookLvl) (p : K) (x : Q) (t : Tv) :
    (bookAdd b ⟨s, f, some p, x, t⟩).1.visible = levelsAfter b.visible b.stored p ⟨s, f, some p, x, t⟩ ∧
    (rejected (⟨s, f, some p, x, t⟩ : BookQuo K Q) = true →
      bookAdd b ⟨s, f, some p, x, t⟩ = (b, notAQuo)) := by
  have hside : ∀ s', s = sideOf s' → rejected (⟨s, f, some p, x, t⟩ : BookQuo K Q) = true →
      bookAdd b ⟨s, f, some p, x, t⟩ = (b, notAQuo) := by
    intro s' hs hr
    have hr' : f = .lvl0 ∨ (f = .lvl1 ∧ x < 0) := by
      cases s' <;> subst hs <;> simpa [rejected, sideOf] using hr
    rcases hr' with hf | ⟨hf, hx⟩
    · exact bookAdd_lvl0 hs hf
    · exact bookAdd_lvl1_neg hs hf hx
  cases s with
  | unk => exact ⟨rfl, fun _ => rfl⟩
  | ask => exact ⟨visible_side (s := false) rfl rfl, hside false rfl⟩
  | bid => exact ⟨visible_side (s := true) rfl rfl, hside true rfl⟩
  | clr =>
      refine ⟨?_, fun hr => by cases hr⟩
      funext s k
      rw [Book.visible, stored_clr rfl]
      exact shown_nil
  | del => exact ⟨visible_del rfl rfl, fun hr => by cases hr⟩
  | other n => exact ⟨rfl, fun _ => rfl⟩

/-! ## 返す気配 -/

/-- 返る気配が前の状態を持つのは、レベル 1 でないか、気配値が見えていないときで、そのときに限る。 -/
theorem reports_iff (b : Book (OrdMap K Q)) (hb : ∀ s k, 0 ≤ (b.stored s k).q) (s : Bool) (f : BookLvl) (p : K) (x : Q)
    (t : Tv) (hf : f ≠ .lvl0) (hx : f = .lvl1 → 0 ≤ x) :
    Reports b s p (bookAdd b ⟨sideOf s, f, some p, x, t⟩).2 ↔ f ≠ .lvl1 ∨ (b.visible s p).nilP = true := by
  have hold : f = .lvl2 ∨ f = .lvl3 → Reports b s p (bookAdd b ⟨sideOf s, f, some p, x, t⟩).2 := by
    intro h
    rw [bookAdd_old rfl h rfl]
    refine ⟨rfl, ?_, fun hv => ?_⟩
    · rw [Book.visible, shown_q, max_eq_right (hb s p)]
    · rw [Book.visible, nilP_shown] at hv
      rw [Book.visible, shown_of_live hv]
  cases f with
  | lvl0 => exact absurd rfl hf
  | lvl1 =>
      rw [bookAdd_old_lvl1 rfl rfl rfl (not_lt.mpr (hx rfl))]
      constructor
      · rintro ⟨_, hq, _⟩
        exact Or.inr (decide_eq_true hq.symm.le)
      · rintro (h | h)
        · exact absurd rfl h
        · rw [Book.visible, nilP_shown] at h
          have hnil : b.visible s p = .nil := shown_of_nil h
          refine ⟨rfl, by rw [hnil]; rfl, fun hv => ?_⟩
          rw [hnil, nilP_nil] at hv
          cases hv
  | lvl2 => exact iff_of_true (hold (Or.inl rfl)) (Or.inl BookLvl.noConfusion)
  | lvl3 => exact iff_of_true (hold (Or.inr rfl)) (Or.inl BookLvl.noConfusion)

theorem reports_ask : (∀ s k, 0 ≤ ((makeBook : Book (OrdMap Int Int)).stored s k).q) ∧
    Reports (makeBook : Book (OrdMap Int Int)) false 5
      (bookAdd (makeBook : Book (OrdMap Int Int)) ⟨sideOf false, .lvl1, some 5, 2, 1⟩).2 := by
  have hb : ∀ s k, 0 ≤ ((makeBook : Book (OrdMap Int Int)).stored s k).q := by
    intro s k
    cases s <;> exact le_rfl
  exact ⟨hb, (reports_iff makeBook hb false .lvl1 5 2 1 BookLvl.noConfusion (fun _ => by decide)).mpr (Or.inr rfl)⟩

/-- 数量 2 の気配値へのレベル 1 の気配は、前の数量として 0 を返す。 -/
theorem lvl1_reports_zero : ¬ Reports (bookRun [.add ⟨.ask, .lvl2, some 5, 2, 1⟩] : Book (OrdMap Int Int)) false 5
    (bookAdd (bookRun [.add ⟨.ask, .lvl2, some 5, 2, 1⟩] : Book (OrdMap Int Int)) ⟨.ask, .lvl1, some 5, 3, 2⟩).2 := by
  rintro ⟨_, hq, _⟩
  exact absurd hq (by decide)

/-! ## 数量の増減 -/

section Increments
variable [IsOrderedAddMonoid Q] {d : Q}

/-- 0 に切り上げた数量に `d` を加えても、元の数量に加えるのと変わらない条件。 -/
theorem max_add_iff (v d : Q) : max 0 (d + v) = max 0 (max 0 v + d) ↔ 0 ≤ v ∨ d ≤ 0 := by
  rcases le_or_gt 0 v with hv | hv
  · rw [max_eq_right hv, add_comm v d]
    exact iff_of_true rfl (Or.inl hv)
  · rw [max_eq_left hv.le, zero_add]
    rcases le_or_gt d 0 with hd | hd
    · rw [max_eq_left hd, max_eq_left (add_nonpos hd hv.le)]
      exact iff_of_true rfl (Or.inr hd)
    · rw [max_eq_right hd.le]
      refine iff_of_false (fun he => ?_) (not_or.mpr ⟨not_le.mpr hv, not_le.mpr hd⟩)
      have hlt : max 0 (d + v) < d := max_lt hd (by simpa using hv)
      exact absurd he hlt.ne

theorem accumulates_iff (b : Book (OrdMap K Q)) (s : Bool) (p : K) (d : Q) :
    Accumulates b s p d ↔ 0 ≤ (b.stored s p).q ∨ d ≤ 0 := by
  have hafter : ∀ t, ((bookAdd b ⟨sideOf s, .lvl3, some p, d, t⟩).1.visible s p).q = max 0 (d + (b.stored s p).q) := by
    intro t
    rw [Book.visible, stored_lvl3 rfl rfl rfl, if_pos ⟨rfl, rfl⟩, shown_q]
    dsimp only
    split
    · rfl
    · rename_i hneg
      rw [max_self, max_eq_left (not_le.mp hneg).le]
  rw [← max_add_iff, ← shown_q]
  exact ⟨fun h => (hafter 0).symm.trans (h 0), fun h t => (hafter t).trans h⟩

theorem solvent_nonneg : ∀ {qs : List (BookQuo K Q)} {b : Book (OrdMap K Q)}, (∀ s k, 0 ≤ (b.stored s k).q) →
    Solvent b qs → ∀ s k, 0 ≤ (((qs.map .add).foldl bookStep b).stored s k).q
  | [], _, hb, _ => hb
  | q :: _, b, hb, hs => solvent_nonneg (b := (bookAdd b q).1) (stored_nonneg hb hs.1) hs.2

/-- 負の数量が残らない実行では、レベル 3 の気配は見える数量に加わる。どの実行の板でも、加わるのは、気配値の数量が負でないか、
減らすときで、そのときに限る。 -/
theorem accumulates_run (qs : List (BookQuo K Q)) :
    (Solvent makeBook qs → ∀ s p d, Accumulates (bookRun (qs.map .add) : Book (OrdMap K Q)) s p d) ∧
    ∀ s p d, Accumulates (bookRun (qs.map .add) : Book (OrdMap K Q)) s p d ↔
      0 ≤ ((bookRun (qs.map .add) : Book (OrdMap K Q)).stored s p).q ∨ d ≤ 0 := by
  refine ⟨fun hs s p d => (accumulates_iff _ s p d).mpr (Or.inl (solvent_nonneg (fun s k => ?_) hs s p)),
    fun s p d => accumulates_iff _ s p d⟩
  cases s <;> exact le_rfl

end Increments

theorem accumulates_run_ask : Solvent (makeBook : Book (OrdMap Int Int)) [⟨.ask, .lvl2, some 5, 2, 1⟩] ∧
    Accumulates (bookRun ([⟨.ask, .lvl2, some 5, 2, 1⟩].map .add) : Book (OrdMap Int Int)) false 5 (-3) := by
  have hs : Solvent (makeBook : Book (OrdMap Int Int)) [⟨.ask, .lvl2, some 5, 2, 1⟩] := ⟨by decide, trivial⟩
  exact ⟨hs, (accumulates_run [⟨.ask, .lvl2, some 5, 2, 1⟩]).1 hs false 5 (-3)⟩

/-- 数量 2 の気配値での数量 5 の約定は -3 を残し、次の 4 の増加は 1 しか見えない。 -/
theorem trade_eats_increment : ¬ ∀ qs : List (BookQuo Int Int), (∀ q ∈ qs, q.p.isSome = true) →
    ∀ s p d, Accumulates (bookRun (qs.map .add) : Book (OrdMap Int Int)) s p d := by
  intro h
  have hacc := h [⟨.ask, .lvl2, some 5, 2, 1⟩, ⟨.del, .lvl0, some 5, 5, 2⟩] (by decide) false 5 4 3
  exact absurd hacc (by decide)

end Books.Book
