import Books.Book.Lemmas.Top
import Books.Book2book.Lemmas.Routing

/-!
# 最後に印字した表

六つの出力は、どれも板から読んだ値の一部を覚えて、変化を検出する装置である。巻き戻さない実行では、受け付ける行ごとに、その板に
ついて一度だけ呼ばれるので、表が板に追いつくかどうかは、行ごとに決まる。
-/

set_option linter.unusedSectionVars false

namespace Books.Book2book

open Books.Btree Books.Book Books.Instr Books.Xquo Books.Lib

variable {K Q : Type} [LinearOrder K] [Zero K] [LinearOrder Q] [Field Q]

/-! ## 行ごとの呼び出し -/

section Step
variable {hash : List UInt8 → UInt32} {C : Codec K Q} {m : Prq} {st st' : State (OrdMap K Q)} {line : List UInt8}
variable {lines instr : List (List UInt8)} {out calls : List (Call (OrdMap K Q) K Q)} {k : Nat}

theorem advance_of_not_unwinds (hm : m.unwinds = false) (b : Book (OrdMap K Q)) (q : BookQuo K Q) :
    advance m b q = some ((bookAdd b q).1, [⟨(bookAdd b q).1, q, (bookAdd b q).2⟩]) := by
  have h : ∀ p : Prop, ¬ (p ∧ m.unwinds = true) := fun p hc => by simp [hm] at hc
  rw [advance, if_neg (h _), if_neg (h _)]

/-- 行の処理は、板 `k` を変えないか、変えた後の板で `prq` を一度呼ぶ。 -/
theorem mainStep_calls (hok : st.Ok) (hm : m.unwinds = false) (h : mainStep hash C m st line = some (st', out)) (k : Nat) :
    (out.filter (fun c => decide (c.k = k)) = [] ∧ bookAt st' k = bookAt st k) ∨
    ∃ c, out.filter (fun c => decide (c.k = k)) = [c] ∧ c.xb = bookAt st' k := by
  obtain ⟨x, _, ⟨_, rfl, rfl⟩ | ⟨_, hr, rfl⟩ | ⟨_, k₀, st₁, b, b', cs, hr, _, ha, rfl, rfl⟩⟩ := mainStep_cases h
  · exact Or.inl ⟨rfl, rfl⟩
  · refine Or.inl ⟨rfl, ?_⟩
    rw [bookAt, bookAt, hok.route_book hr, if_neg Route.noConfusion]
  · rw [advance_of_not_unwinds hm] at ha
    cases ha
    have hlt := hok.use_lt hr
    rw [List.map_singleton]
    by_cases hk : k₀ = k
    · subst hk
      refine Or.inr ⟨_, List.filter_cons_of_pos (decide_eq_true rfl), ?_⟩
      rw [bookAt, List.getElem?_set_self hlt]
      rfl
    · refine Or.inl ⟨by rw [List.filter_cons_of_neg (by simpa using hk)]; rfl, ?_⟩
      rw [bookAt, bookAt, List.getElem?_set_ne hk, hok.route_book hr, if_neg (fun he => hk (Route.use.inj he))]

theorem ok_mainLoop (h : mainLoop hash C m (initState hash instr) lines = some (st, calls)) : st.Ok :=
  mainLoop_rule (P := fun _ s _ => s.Ok) (ok_initTable instr) (fun _ hok hstep => ok_mainStep hok hstep) h

theorem bookAt_initState (k : Nat) : bookAt (initState hash instr : State (OrdMap K Q)) k = makeBook := initState_book k

/-! ## 実行 -/

variable {X M : Type} (d : Detector X M (Row K Q)) {figs : Book (OrdMap K Q) → X}
variable {prq : M → Book (OrdMap K Q) → Option (M × List (Row K Q))} {rows : List (Row K Q)}

theorem display_append (s : M × List (Row K Q)) :
    display prq k s (calls ++ out) = (display prq k s calls).bind fun s => display prq k s out := by
  rw [display, List.filter_append, List.foldlM_append]
  rfl

/-- 一行の後に、覚えた値は今の板のものになる。表が追いつくのは、変化を見落とさないときで、そのときに限る。 -/
theorem display_step (hok : st.Ok) (hm : m.unwinds = false)
    (hprq : ∀ x b, prq (d.rem x) b = some (d.emit (d.rem x) (figs b)))
    (h : mainStep hash C m st line = some (st', out)) (k : Nat) (rows : List (Row K Q)) :
    ∃ rows', display prq k (d.rem (figs (bookAt st k)), rows) out = some (d.rem (figs (bookAt st' k)), rows') ∧
      (rows = d.block (figs (bookAt st k)) →
        (rows' = d.block (figs (bookAt st' k)) ↔ d.Notices (figs (bookAt st k)) (figs (bookAt st' k)))) := by
  rcases mainStep_calls hok hm h k with ⟨hnil, hb⟩ | ⟨c, hc, hb⟩
  · rw [display, hnil, hb]
    exact ⟨rows, rfl, fun hr => ⟨fun _ => ⟨fun _ => rfl, id⟩, fun _ => hr⟩⟩
  · rw [display, hc, List.foldlM_cons, hprq, hb, Option.map_some, d.emit_rem]
    refine ⟨_, rfl, fun hr => ?_⟩
    rw [hr]
    exact d.refresh_eq_iff

/-- 覚えた値は、いつも今の板のものである。 -/
theorem display_run (hm : m.unwinds = false) (hprq : ∀ x b, prq (d.rem x) b = some (d.emit (d.rem x) (figs b)))
    (h : mainLoop hash C m (initState hash instr) lines = some (st, calls)) (k : Nat) (rows₀ : List (Row K Q)) :
    ∃ rows, display prq k (d.rem (figs makeBook), rows₀) calls = some (d.rem (figs (bookAt st k)), rows) := by
  have hinit : (initState hash instr : State (OrdMap K Q)).Ok := ok_initTable instr
  have hrule := mainLoop_rule (P := fun _ s cs => s.Ok ∧
    ∃ rows, display prq k (d.rem (figs makeBook), rows₀) cs = some (d.rem (figs (bookAt s k)), rows))
    ⟨hinit, rows₀, by rw [bookAt_initState]; rfl⟩ ?_ h
  · exact hrule.2
  · rintro _ line st cs st' out _ ⟨hok, rows, hrows⟩ hstep
    obtain ⟨rows', hrows', _⟩ := display_step d hok hm hprq hstep k rows
    refine ⟨ok_mainStep hok hstep, rows', ?_⟩
    rw [display_append, hrows, Option.bind_some, hrows']

/-- 最後に印字した表がいつも今の板の表であるのは、どの行でも変化を見落とさないときで、そのときに限る。 -/
theorem fresh_iff_everyLine {block : Book (OrdMap K Q) → Option (List (Row K Q))} (hm : m.unwinds = false)
    (hprq : ∀ x b, prq (d.rem x) b = some (d.emit (d.rem x) (figs b)))
    (hblock : ∀ b, block b = some (d.block (figs b))) :
    Fresh hash C m prq (d.rem (figs makeBook)) (d.block (figs makeBook)) block instr lines ↔
      EveryLine hash C m (fun b b' => d.Notices (figs b) (figs b')) instr lines := by
  constructor
  · intro hfresh pre line post calls out st st' hl h hstep k
    obtain ⟨rows, hrows⟩ := display_run d hm hprq h k (d.block (figs makeBook))
    obtain ⟨rows', hrows', hiff⟩ := display_step d (ok_mainLoop h) hm hprq hstep k rows
    -- 行の前の表も、後の表も、今の板の表である。
    have hbefore : rows = d.block (figs (bookAt st k)) := by
      obtain ⟨xb, rs, hd, hb⟩ := hfresh pre (line :: post) calls st hl h k
      rw [hrows] at hd
      cases hd
      rw [hblock] at hb
      exact (Option.some.inj hb).symm
    have hafter : rows' = d.block (figs (bookAt st' k)) := by
      have hl' : lines = (pre ++ [line]) ++ post := by rw [hl, List.append_assoc, List.singleton_append]
      obtain ⟨xb, rs, hd, hb⟩ := hfresh (pre ++ [line]) post (calls ++ out) st' hl' (mainLoop_concat h hstep) k
      rw [display_append, hrows, Option.bind_some, hrows'] at hd
      cases hd
      rw [hblock] at hb
      exact (Option.some.inj hb).symm
    exact (hiff hbefore).mp hafter
  · intro hevery pre post calls st hl h k
    have hrule := mainLoop_rule (P := fun done s cs => mainLoop hash C m (initState hash instr) done = some (s, cs) ∧
      display prq k (d.rem (figs makeBook), d.block (figs makeBook)) cs =
        some (d.rem (figs (bookAt s k)), d.block (figs (bookAt s k))))
      ⟨rfl, by rw [bookAt_initState]; rfl⟩ ?_ h
    · exact ⟨_, _, hrule.2, hblock _⟩
    · rintro done line s cs s' out hdone ⟨hloop, hd⟩ hstep
      obtain ⟨rest, hrest⟩ := hdone
      obtain ⟨rows', hrows', hiff⟩ := display_step d (ok_mainLoop hloop) hm hprq hstep k (d.block (figs (bookAt s k)))
      have hl' : lines = done ++ line :: (rest ++ post) := by
        rw [hl, ← hrest]
        simp
      have hnotices := hevery done line (rest ++ post) cs out s s' hl' hloop hstep k
      refine ⟨mainLoop_concat hloop hstep, ?_⟩
      rw [display_append, hd, Option.bind_some, hrows', (hiff rfl).mpr hnotices]

theorem everyLine_congr {P P' : Book (OrdMap K Q) → Book (OrdMap K Q) → Prop} (h : ∀ b b', P b b' ↔ P' b b') :
    EveryLine hash C m P instr lines ↔ EveryLine hash C m P' instr lines := by
  have he : P = P' := funext fun b => funext fun b' => propext (h b b')
  rw [he]

end Step

end Books.Book2book
