import Books.Book2book.Code
import Books.Instr.Lemmas
import Books.Lib.Run

/-!
# 入力の行の処理
-/

set_option linter.unusedSectionVars false

namespace Books.Book2book

open Books.Btree Books.Book Books.Instr Books.Xquo Books.Lib

variable {K Q : Type} [LinearOrder K] [Zero K] [LinearOrder Q] [AddCommGroup Q]
variable {T : Bool → Type} [BTree T K Q]
variable {hash : List UInt8 → UInt32} {C : Codec K Q} {m : Prq} {st st' : State T} {line : List UInt8}
variable {lines : List (List UInt8)} {x : Xquo K Q} {out : List (Call T K Q)}

theorem mainStep_cases (h : mainStep hash C m st line = some (st', out)) : ∃ x, readXquo C line = some x ∧
    ((x.q.s = .unk ∧ st' = st ∧ out = []) ∨
    (x.q.s ≠ .unk ∧ route hash (fun _ => makeBook) st (insOf line x) = some (.skip, st') ∧ out = []) ∨
    (x.q.s ≠ .unk ∧ ∃ k st₁ b b' cs, route hash (fun _ => makeBook) st (insOf line x) = some (.use k, st₁) ∧
      st₁.book[k]? = some b ∧ advance m b x.q = some (b', cs) ∧
      st' = { st₁ with book := st₁.book.set k b' } ∧ out = cs.map fun c => ⟨c, k, prfx line x⟩)) := by
  rw [mainStep, Option.bind_eq_bind, Option.bind_eq_some_iff] at h
  obtain ⟨x, hx, h⟩ := h
  refine ⟨x, hx, ?_⟩
  split at h
  · rename_i hs
    cases h
    exact Or.inl ⟨hs, rfl, rfl⟩
  · rename_i hs
    rw [Option.bind_eq_bind, Option.bind_eq_some_iff] at h
    obtain ⟨⟨r, st₁⟩, hr, h⟩ := h
    cases r with
    | skip =>
        cases h
        exact Or.inr (Or.inl ⟨hs, hr, rfl⟩)
    | use k =>
        simp only [Option.bind_eq_bind] at h
        rw [Option.bind_eq_some_iff] at h
        obtain ⟨b, hb, h⟩ := h
        rw [Option.bind_eq_some_iff] at h
        obtain ⟨⟨b', cs⟩, ha, h⟩ := h
        cases h
        exact Or.inr (Or.inr ⟨hs, k, st₁, b, b', cs, hr, hb, ha, rfl, rfl⟩)

theorem mainStep_accepted (hx : readXquo C line = some x) (hs : x.q.s ≠ .unk)
    (h : mainStep hash C m st line = some (st', out)) :
    (route hash (fun _ => makeBook) st (insOf line x) = some (.skip, st') ∧ out = []) ∨
    ∃ k st₁ b b' cs, route hash (fun _ => makeBook) st (insOf line x) = some (.use k, st₁) ∧
      st₁.book[k]? = some b ∧ advance m b x.q = some (b', cs) ∧
      st' = { st₁ with book := st₁.book.set k b' } ∧ out = cs.map fun c => ⟨c, k, prfx line x⟩ := by
  obtain ⟨y, hy, hcase⟩ := mainStep_cases h
  rw [hx] at hy
  cases hy
  rcases hcase with ⟨hs', _⟩ | ⟨_, hskip⟩ | ⟨_, huse⟩
  · exact absurd hs' hs
  · exact Or.inl hskip
  · exact Or.inr huse

theorem mainStep_refused (hx : readXquo C line = some x) (hs : x.q.s = .unk)
    (h : mainStep hash C m st line = some (st', out)) : st' = st ∧ out = [] := by
  obtain ⟨y, hy, hcase⟩ := mainStep_cases h
  rw [hx] at hy
  cases hy
  rcases hcase with ⟨_, hst, hout⟩ | ⟨hs', _⟩ | ⟨hs', _⟩
  · exact ⟨hst, hout⟩
  · exact absurd hs hs'
  · exact absurd hs hs'

theorem mainStep_isSome (hx : readXquo C line = some x) (hok : st.Ok)
    (hst : st.Assigned) (ha : ∀ b : Book T, (advance m b x.q).isSome = true) :
    (mainStep hash C m st line).isSome = true := by
  rw [mainStep, Option.bind_eq_bind, hx, Option.bind_some]
  split
  · rfl
  · cases hr : route hash (fun _ => makeBook) st (insOf line x) with
    | none => exact absurd hst (route_eq_none_iff.mp hr)
    | some y =>
        obtain ⟨r, st₁⟩ := y
        cases r with
        | skip => rfl
        | use k =>
            have hk := hok.use_lt hr
            obtain ⟨y, hy⟩ := Option.isSome_iff_exists.mp (ha (st₁.book.get ⟨k, hk⟩))
            simp only [Option.bind_eq_bind, Option.bind_some, List.getElem?_eq_getElem hk]
            rw [List.get_eq_getElem] at hy
            rw [hy]
            rfl

theorem mainLoop_eq_run : mainLoop hash C m st lines = run (mainStep hash C m) st lines := by
  induction lines generalizing st with
  | nil => rfl
  | cons line lines ih =>
      simp only [mainLoop, Lib.run, ih]

theorem mainLoop_cons (h : mainLoop hash C m st (line :: lines) = some (st', out)) :
    ∃ st₁ out₁ out₂, mainStep hash C m st line = some (st₁, out₁) ∧ mainLoop hash C m st₁ lines = some (st', out₂) ∧
      out = out₁ ++ out₂ := by
  simp only [mainLoop_eq_run] at h ⊢
  exact run_cons_eq_some_iff.mp h

theorem mainLoop_concat {st₁ : State T} {out₁ out₂ : List (Call T K Q)} (h₁ : mainLoop hash C m st lines = some (st₁, out₁))
    (h₂ : mainStep hash C m st₁ line = some (st', out₂)) :
    mainLoop hash C m st (lines ++ [line]) = some (st', out₁ ++ out₂) := by
  rw [mainLoop_eq_run] at h₁ ⊢
  exact run_concat h₁ h₂

theorem mainLoop_rule {P : List (List UInt8) → State T → List (Call T K Q) → Prop} (h₀ : P [] st [])
    (hstep : ∀ {done line st out st' out'}, done ++ [line] <+: lines → P done st out →
      mainStep hash C m st line = some (st', out') → P (done ++ [line]) st' (out ++ out'))
    (h : mainLoop hash C m st lines = some (st', out)) : P lines st' out :=
  run_rule h₀ hstep (mainLoop_eq_run.symm.trans h)

theorem ok_mainStep (hok : st.Ok) (h : mainStep hash C m st line = some (st', out)) : st'.Ok := by
  obtain ⟨x, _, ⟨_, rfl, _⟩ | ⟨_, hr, _⟩ | ⟨_, k, st₁, b, b', cs, hr, _, _, rfl, _⟩⟩ := mainStep_cases h
  · exact hok
  · exact hok.route hr
  · exact (hok.route hr).set k b'

theorem assigned_mainStep (hst : st.Assigned) (h : mainStep hash C m st line = some (st', out)) : st'.Assigned := by
  obtain ⟨x, _, ⟨_, rfl, _⟩ | ⟨_, hr, _⟩ | ⟨_, k, st₁, b, b', cs, hr, _, _, rfl, _⟩⟩ := mainStep_cases h
  · exact hst
  · exact hst.route hr
  · have hst₁ : st₁.Assigned := hst.route hr
    exact hst₁

/-- 処理が定まらないのは、巻き戻す出力で、側が `BOOK_SIDE_ASK` でも `BOOK_SIDE_BID` でもないレベル 1 の気配のときで、
そのときに限る。 -/
theorem advance_eq_none_iff {b : Book T} {q : BookQuo K Q} :
    advance m b q = none ↔ q.f = .lvl1 ∧ m.unwinds = true ∧ q.s.quos? = none := by
  unfold advance
  by_cases h : q.f = .lvl1 ∧ m.unwinds = true
  · rw [if_pos h]
    cases hs : q.s.quos? with
    | none => simp [h]
    | some s => simp
  · rw [if_neg h]
    have hne : ¬ (q.f = .lvl1 ∧ m.unwinds = true ∧ q.s.quos? = none) := fun hc => h ⟨hc.1, hc.2.1⟩
    simp only [hne, iff_false]
    split <;> exact Option.some_ne_none _

/-- 板の番号が代入され、どの行も読めて処理が定まっていれば、入力の全体が処理される。 -/
theorem mainLoop_isSome (hok : st.Ok) (hst : st.Assigned)
    (hl : ∀ l ∈ lines, ∃ x, readXquo C l = some x ∧ ¬ (x.q.f = .lvl1 ∧ m.unwinds = true ∧ x.q.s.quos? = none)) :
    (mainLoop hash C m st lines).isSome = true := by
  rw [mainLoop_eq_run]
  refine run_isSome (P := fun st => st.Ok ∧ st.Assigned) ⟨hok, hst⟩ ?_ ?_
  · rintro line st hmem ⟨hok, hst⟩
    obtain ⟨x, hx, hne⟩ := hl line hmem
    refine mainStep_isSome hx hok hst (fun b => ?_)
    rw [Option.isSome_iff_ne_none]
    exact fun h => hne (advance_eq_none_iff.mp h)
  · rintro line st st' out _ ⟨hok, hst⟩ hstep
    exact ⟨ok_mainStep hok hstep, assigned_mainStep hst hstep⟩

end Books.Book2book
