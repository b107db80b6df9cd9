import Books.Book.Theorems
import Books.Book2book.Spec
import Books.Book2book.Lemmas.Line
import Books.Book2book.Lemmas.Unwind
import Mathlib.Algebra.Group.Basic

/-!
# 写しへの書き込み
-/

set_option linter.unusedSectionVars false

namespace Books.Book2book

open Books.Btree Books.Book Books.Xquo

variable {K Q : Type} [LinearOrder K] [Zero K] [LinearOrder Q] [AddCommGroup Q]
variable {C : Codec K Q} {line pre : List UInt8} {x : Xquo K Q} {q o : BookQuo K Q} {p : K} {s : Bool} {t t' : Tv}
variable {b r r' : Book (OrdMap K Q)}

theorem replay_append {ls ls' : List (List UInt8)} (h : replay C r ls = some r') :
    replay C r (ls ++ ls') = replay C r' ls' := by
  induction ls generalizing r with
  | nil => cases h; rfl
  | cons l ls ih =>
      rw [List.cons_append]
      simp only [replay, Option.bind_eq_bind] at h ⊢
      cases hx : readXquo C l with
      | none => rw [hx] at h; cases h
      | some x =>
          rw [hx] at h
          simp only [Option.bind_some] at h ⊢
          exact ih h

/-- 呼び出しの二つの気配だけで決まる行の列。 -/
theorem map_calls {α : Type} {cs : List (Arg (OrdMap K Q) K Q)} {ks : List α} {f : α → BookQuo K Q × BookQuo K Q}
    (h : cs.map (fun c => (c.q, c.o)) = ks.map f) (pr : BookQuo K Q → BookQuo K Q → List UInt8) :
    cs.map (fun c => pr c.q c.o) = ks.map fun k => pr (f k).1 (f k).2 := by
  have h' := congrArg (List.map fun y : BookQuo K Q × BookQuo K Q => pr y.1 y.2) h
  rw [List.map_map, List.map_map] at h'
  exact h'

/-- 印字した一行は、前置きの時刻をもつ気配として加わる。 -/
theorem replay_quoLine (hC : C.Exact) (hpre : PrefixOk pre) (s : Bool) (l : UInt8) (p : K) (y : Q)
    (ls : List (List UInt8)) :
    replay C r (quoLine C pre (sideByte (sideOf s)) l (some p) y :: ls) =
      replay C (bookAdd r ⟨sideOf s, lvlOfByte l, some p, y, strtotv (pre ++ [sideByte (sideOf s)])⟩).1 ls := by
  obtain ⟨i, z, hx⟩ := readXquo_quoLine hC hpre s l p y
  simp only [replay, hx, Option.bind_eq_bind, Option.bind_some]

theorem replay_prq2 (hC : C.Exact) (hpre : PrefixOk pre) (hs : q.s = sideOf s) (hp : q.p = some p)
    (o : BookQuo K Q) (ls : List (List UInt8)) :
    replay C r (prq2 C pre q o :: ls) =
      replay C (bookAdd r ⟨sideOf s, .lvl2, some p, q.q, strtotv (pre ++ [sideByte (sideOf s)])⟩).1 ls := by
  rw [prq2, hs, hp, replay_quoLine hC hpre]
  rfl

/-! ## 見える気配 -/

theorem shown_congr_iff {y y' : Q} : shown (⟨y, t⟩ : BtreeVal Q) = shown ⟨y', t'⟩ ↔
    (y ≤ 0 ∧ y' ≤ 0) ∨ (0 < y ∧ y = y' ∧ t = t') := by
  rcases le_or_gt y 0 with hy | hy
  · have hn : (⟨y, t⟩ : BtreeVal Q).nilP = true := decide_eq_true hy
    rw [shown_of_nil hn]
    constructor
    · intro h
      have hn' : (shown (⟨y', t'⟩ : BtreeVal Q)).nilP = true := by rw [← h]; exact nilP_nil
      rw [nilP_shown] at hn'
      exact Or.inl ⟨hy, of_decide_eq_true hn'⟩
    · rintro (⟨_, hy'⟩ | ⟨h, _⟩)
      · exact (shown_of_nil (decide_eq_true hy')).symm
      · exact absurd h (not_lt.mpr hy)
  · have hl : (⟨y, t⟩ : BtreeVal Q).nilP = false := decide_eq_false (not_le.mpr hy)
    rw [shown_of_live hl]
    constructor
    · intro h
      have hl' : (⟨y', t'⟩ : BtreeVal Q).nilP = false := by rw [← nilP_shown, ← h]; exact hl
      rw [shown_of_live hl'] at h
      cases h
      exact Or.inr ⟨hy, rfl, rfl⟩
    · rintro (⟨h, _⟩ | ⟨_, rfl, rfl⟩)
      · exact absurd h (not_le.mpr hy)
      · exact (shown_of_live hl).symm

theorem update_eq_update_iff {L : Levels K Q} {v w : BtreeVal Q} :
    L.update s p v = L.update s p w ↔ shown v = shown w := by
  constructor
  · intro h
    have hp := congrFun (congrFun h s) p
    simpa only [Levels.update, and_self, if_true] using hp
  · intro h
    unfold Levels.update
    rw [h]

theorem update_eq_self_iff {L : Levels K Q} {v : BtreeVal Q} : L.update s p v = L ↔ shown v = L s p := by
  constructor
  · intro h
    have hp := congrFun (congrFun h s) p
    simpa only [Levels.update, and_self, if_true] using hp
  · intro h
    funext s' k
    rw [Levels.update]
    split
    · rename_i he
      rw [h, he.1, he.2]
    · rfl

/-- 巻き戻しの行は、その気配値を見えなくする。 -/
theorem replay_zeros (hC : C.Exact) (hpre : PrefixOk pre) (o : K → BookQuo K Q) : ∀ (ks : List K)
    (r : Book (OrdMap K Q)), ∃ r', replay C r (ks.map fun k => prq2 C pre (zeroQuo s k) (o k)) = some r' ∧
      ∀ s' k, r'.visible s' k = if s' = s ∧ k ∈ ks then .nil else r.visible s' k
  | [], r => ⟨r, rfl, fun s' k => by simp⟩
  | p :: ks, r => by
      obtain ⟨r', hr', hv⟩ := replay_zeros hC hpre o ks
        (bookAdd r ⟨sideOf s, .lvl2, some p, 0, strtotv (pre ++ [sideByte (sideOf s)])⟩).1
      refine ⟨r', ?_, fun s' k => ?_⟩
      · rw [List.map_cons, replay_prq2 hC hpre rfl rfl]
        exact hr'
      · have hz : shown (⟨0, strtotv (pre ++ [sideByte (sideOf s)])⟩ : BtreeVal Q) = .nil :=
          shown_of_nil (decide_eq_true le_rfl)
        rw [hv, visible_update (stored_lvl2 rfl rfl rfl), Levels.update, hz]
        by_cases hs : s' = s
        · by_cases hk : k = p
          · simp [hs, hk]
          · simp [hs, hk]
        · simp [hs]

theorem shown_stored_iff {y : Q} {v : BtreeVal Q} :
    shown (⟨y, t⟩ : BtreeVal Q) = shown v ↔ (y ≤ 0 ∧ v.nilP = true) ∨ (0 < y ∧ v = ⟨y, t⟩) := by
  obtain ⟨y', t'⟩ := v
  rw [shown_congr_iff, BtreeVal.nilP, decide_eq_true_eq, BtreeVal.mk.injEq]
  simp only [eq_comm]

/-- レベル 3 の数量 `d` をそのまま印字してよい条件。 -/
theorem clip_congr_iff {d y : Q} :
    ((d ≤ 0 ∧ (if 0 ≤ d + y then d + y else 0) ≤ 0) ∨ (0 < d ∧ d = (if 0 ≤ d + y then d + y else 0) ∧ t = t')) ↔
      (d ≤ 0 ∧ d + y ≤ 0) ∨ (0 < d ∧ y = 0 ∧ t = t') := by
  by_cases h : 0 ≤ d + y
  · simp only [if_pos h]
    rw [left_eq_add]
  · have hle : d + y ≤ 0 := le_of_not_ge h
    simp only [if_neg h]
    constructor
    · rintro (⟨hd, _⟩ | ⟨hd, he, _⟩)
      · exact Or.inl ⟨hd, hle⟩
      · exact absurd he hd.ne'
    · rintro (⟨hd, _⟩ | ⟨hd, rfl, _⟩)
      · exact Or.inl ⟨hd, le_rfl⟩
      · rw [add_zero] at h
        exact absurd hd.le h

/-! ## 一つの行 -/

theorem advance_lvl1 {m : Prq} (hm : m.unwinds = true) (hs : q.s = sideOf s) (hf : q.f = .lvl1) :
    advance m b q =
      let u := unwindAll s (fun y => if s then pxLt q.p y else pxLt y q.p) b
      some ((bookAdd u.1 q).1, u.2 ++ [⟨(bookAdd u.1 q).1, q, (bookAdd u.1 q).2⟩]) := by
  have hquos : q.s.quos? = some s := by rw [hs]; cases s <;> rfl
  rw [advance, if_pos ⟨hf, hm⟩, hquos]

theorem advance_clr {m : Prq} (hm : m.unwinds = true) (hf : q.f ≠ .lvl1) (hs : q.s = .clr) :
    advance m b q =
      let u₁ := unwindAll true (fun _ => true) b
      let u₂ := unwindAll false (fun _ => true) u₁.1
      some (u₂.1, u₁.2 ++ u₂.2) := by
  rw [advance, if_neg (fun h => hf h.1), if_pos ⟨hs, hm⟩]

theorem advance_plain {m : Prq} (hf : q.f ≠ .lvl1) (hs : q.s ≠ .clr) :
    advance m b q = some ((bookAdd b q).1, [⟨(bookAdd b q).1, q, (bookAdd b q).2⟩]) := by
  rw [advance, if_neg (fun h => hf h.1), if_neg (fun h => hs h.1)]

/-- レベル 1 の行の後に、写しに見える気配。 -/
def lvl1Replica (b r : Book (OrdMap K Q)) (s : Bool) (p : K) (v : BtreeVal Q) : Levels K Q := fun s' k =>
  if s' = s ∧ k = p then shown v
  else if s' = s ∧ ((b.stored s k).nilP = false ∧ Before s k p) then .nil
  else r.visible s' k

/-- レベル 1 の行は、手前の気配を 0 にする行と、その気配の行になる。 -/
theorem replays_lvl1 (hC : C.Exact) (hx : readXquo C line = some x) (hs : x.q.s = sideOf s) (hf : x.q.f = .lvl1)
    (hp : x.q.p = some p) (hq : 0 ≤ x.q.q) :
    Replays C b r line x ↔
      lvl1Replica b r s p ⟨x.q.q, printedTv line x⟩ = b.visible.single s p ⟨x.q.q, x.q.t⟩ := by
  have hpre := prefixOk_prfx hx
  have hadv := advance_lvl1 (b := b) (m := .prq2) rfl hs hf
  rw [hp] at hadv
  obtain ⟨r₁, hr₁, hv₁⟩ := replay_zeros (s := s) hC hpre (oldQuo b s)
    (unwound b s fun y => if s then pxLt (some p) y else pxLt y (some p)) r
  set u := unwindAll s (fun y => if s then pxLt (some p) y else pxLt y (some p)) b with hu
  have hcalls : u.2.map (fun c => prq2 C (prfx line x) c.q c.o) =
      (unwound b s fun y => if s then pxLt (some p) y else pxLt y (some p)).map
        fun k => prq2 C (prfx line x) (zeroQuo s k) (oldQuo b s k) :=
    map_calls (unwindAll_calls b s _) (prq2 C (prfx line x))
  have hrep : replay C r ((u.2 ++ [Arg.mk (bookAdd u.1 x.q).1 x.q (bookAdd u.1 x.q).2]).map
      fun c : Arg (OrdMap K Q) K Q => prq2 C (prfx line x) c.q c.o) =
      some (bookAdd r₁ ⟨sideOf s, .lvl2, some p, x.q.q, printedTv line x⟩).1 := by
    rw [List.map_append, hcalls]
    refine (replay_append hr₁).trans ?_
    simp only [List.map_cons, List.map_nil]
    rw [replay_prq2 hC hpre hs hp, printedTv, hs]
    rfl
  have hrv : (bookAdd r₁ ⟨sideOf s, .lvl2, some p, x.q.q, printedTv line x⟩).1.visible =
      lvl1Replica b r s p ⟨x.q.q, printedTv line x⟩ := by
    rw [visible_update (stored_lvl2 rfl rfl rfl)]
    funext s' k
    rw [Levels.update, lvl1Replica, hv₁]
    simp only [mem_unwound_past]
  have hbv : (bookAdd u.1 x.q).1.visible = b.visible.single s p ⟨x.q.q, x.q.t⟩ := by
    rw [visible_side hs hp, sideAfter, hf]
    simp only [if_neg (not_lt.mpr hq)]
    funext s' k
    simp only [Levels.single, Book.visible, hu, unwindAll_stored]
    by_cases hs' : s' = s
    · simp [hs']
    · simp [hs']
  constructor
  · rintro ⟨b', out, r', ha, hr, hv⟩
    rw [hadv] at ha
    cases ha
    rw [hrep] at hr
    cases hr
    rw [← hrv, hv, hbv]
  · intro h
    exact ⟨_, _, _, hadv, hrep, by rw [hrv, h, hbv]⟩

/-- ほかのレベルの行は、読んだ数量をそのまま印字する。 -/
theorem replays_raw (hC : C.Exact) (hx : readXquo C line = some x) (hs : x.q.s = sideOf s) (hf : x.q.f ≠ .lvl1)
    (hp : x.q.p = some p) (hr : r.visible = b.visible) :
    Replays C b r line x ↔
      b.visible.update s p ⟨x.q.q, printedTv line x⟩ = sideAfter b.visible b.stored s p x.q := by
  have hpre := prefixOk_prfx hx
  have hne : x.q.s ≠ .clr := by rw [hs]; cases s <;> decide
  have hadv := advance_plain (b := b) (m := .prq2) hf hne
  have hrep : replay C r ([Arg.mk (bookAdd b x.q).1 x.q (bookAdd b x.q).2].map
      fun c : Arg (OrdMap K Q) K Q => prq2 C (prfx line x) c.q c.o) =
      some (bookAdd r ⟨sideOf s, .lvl2, some p, x.q.q, printedTv line x⟩).1 := by
    simp only [List.map_cons, List.map_nil]
    rw [replay_prq2 hC hpre hs hp, printedTv, hs]
    rfl
  have hrv : (bookAdd r ⟨sideOf s, .lvl2, some p, x.q.q, printedTv line x⟩).1.visible =
      b.visible.update s p ⟨x.q.q, printedTv line x⟩ := by
    rw [visible_update (stored_lvl2 rfl rfl rfl), hr]
  have hbv := visible_side (b := b) hs hp
  constructor
  · rintro ⟨b', out, r', ha, hr', hv⟩
    rw [hadv] at ha
    cases ha
    rw [hrep] at hr'
    cases hr'
    rw [← hrv, hv, hbv]
  · intro h
    exact ⟨_, _, _, hadv, hrep, by rw [hrv, h, hbv]⟩

end Books.Book2book
