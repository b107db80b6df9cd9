import Books.Book2book.Lemmas.Main
import Books.Book2book.Spec
import Books.Instr.Owner

/-!
# 銘柄の板に加える行

表は、受け付けた行の銘柄の列に従う。行の板のほかは変わらないので、板は、その銘柄の行だけから決まる。
-/

set_option linter.unusedSectionVars false

namespace Books.Book2book

open Books.Btree Books.Book Books.Instr Books.Xquo

variable {K Q : Type} [LinearOrder K] [Zero K] [LinearOrder Q] [AddCommGroup Q]
variable {T : Bool → Type} [BTree T K Q]
variable {hash : List UInt8 → UInt32} {C : Codec K Q} {m : Prq} {st st' : State T} {line : List UInt8}
variable {lines instr seen all : List (List UInt8)} {x : Xquo K Q} {out : List (Call T K Q)} {k : Nat}

/-- 受け付ける行の処理は、板の番号を決め、その板だけを進める。 -/
theorem mainStep_books (hok : st.Ok) (hx : readXquo C line = some x) (hs : x.q.s ≠ .unk)
    (h : mainStep hash C m st line = some (st', out)) :
    ∃ r st₁, route hash (fun _ => makeBook) st (insOf line x) = some (r, st₁) ∧
      (∀ k, r = .use k → ∃ b', (advance m (st.book[k]?.getD makeBook) x.q).map Prod.fst = some b' ∧
        st'.book[k]? = some b') ∧
      ∀ k, r ≠ .use k → st'.book[k]? = st.book[k]? := by
  obtain ⟨hr, _⟩ | ⟨k₀, st₁, b, b', cs, hr, hb, ha, rfl, _⟩ := mainStep_accepted hx hs h
  · refine ⟨.skip, st', hr, fun k hk => (by cases hk), fun k hk => ?_⟩
    rw [hok.route_book hr, if_neg hk]
  · refine ⟨.use k₀, st₁, hr, fun k hk => ?_, fun k hk => ?_⟩
    · cases hk
      have hlt := (hok.use_lt hr)
      rw [hok.route_book hr, if_pos rfl] at hb
      cases hb
      refine ⟨b', by rw [ha]; rfl, ?_⟩
      rw [List.getElem?_set_self hlt]
    · have hne : k₀ ≠ k := fun he => hk (by rw [he])
      rw [List.getElem?_set_ne hne, hok.route_book hr, if_neg hk]

theorem follows_mainStep (hf : st.Follows hash instr seen) (h : mainStep hash C m st line = some (st', out)) :
    st'.Follows hash instr (seen ++ insList C (fun x => x.q.s ≠ .unk) [line]) := by
  obtain ⟨y, hy, ⟨hs, rfl, _⟩ | ⟨hs, hr, _⟩ | ⟨hs, k₀, st₁, b, b', cs, hr, _, _, rfl, _⟩⟩ := mainStep_cases h
  · rw [insList_singleton hy, if_neg (not_not.mpr hs), List.append_nil]
    exact hf
  · rw [insList_singleton hy, if_pos hs]
    exact (hf.route hr).1
  · rw [insList_singleton hy, if_pos hs]
    exact (hf.route hr).1.set k₀ b'

theorem mainStep_readable (h : mainStep hash C m st line = some (st', out)) : ∃ x, readXquo C line = some x := by
  obtain ⟨x, hx, _⟩ := mainStep_cases h
  exact ⟨x, hx⟩

/-- 表は、受け付けた行の銘柄の列に従う。 -/
theorem follows_mainLoop (h : mainLoop hash C m (initState hash instr) lines = some (st, out)) :
    st.Follows hash instr (insList C (fun x => x.q.s ≠ .unk) lines) ∧ ∀ l ∈ lines, (readXquo C l).isSome = true := by
  refine mainLoop_rule (P := fun done s _ => s.Follows hash instr (insList C (fun x => x.q.s ≠ .unk) done) ∧
    ∀ l ∈ done, (readXquo C l).isSome = true) ⟨follows_initTable, fun l hl => absurd hl List.not_mem_nil⟩ ?_ h
  rintro done line st out st' out' _ ⟨hf, hread⟩ hstep
  obtain ⟨x, hx⟩ := mainStep_readable hstep
  rw [insList_append]
  refine ⟨follows_mainStep hf hstep, fun l hl => ?_⟩
  rcases List.mem_append.mp hl with hl | hl
  · exact hread l hl
  · rw [List.mem_singleton.mp hl, hx]
    rfl

theorem assigned_mainLoop (hst : (initState hash instr : State T).Assigned)
    (h : mainLoop hash C m (initState hash instr) lines = some (st, out)) : st.Assigned :=
  mainLoop_rule (P := fun _ s _ => s.Assigned) hst (fun _ hs hstep => assigned_mainStep hs hstep) h

/-- 板の番号が代入されれば、行の板は、加えるべき板であり、その板だけが変わる。 -/
theorem routesLine (hf : st.Follows hash instr seen) (hst : st.Assigned) (hx : readXquo C line = some x)
    (hs : x.q.s ≠ .unk) : RoutesLine hash C m instr seen st line x := by
  cases hr : route hash (fun _ => makeBook) st (insOf line x) with
  | none => exact absurd hst (route_eq_none_iff.mp hr)
  | some y =>
      obtain ⟨r, st₁⟩ := y
      have hd := (hf.route hr).2
      refine ⟨by rw [hr]; exact hd, fun st' out h k => ?_⟩
      obtain ⟨r', st₂, hr', huse, hskip⟩ := mainStep_books hf.ok hx hs h
      rw [hr] at hr'
      cases hr'
      split
      · rename_i hk
        obtain ⟨b', hb', hst'⟩ := huse k (hd.use_iff.mpr hk)
        rw [hst', hb']
      · rename_i hk
        exact hskip k (fun hu => hk (hd.use_iff.mp hu))

/-- 銘柄を区別するハッシュでは、板は、その銘柄の行だけから決まる。 -/
theorem books_own (hinj : Set.InjOn hash (names instr all)) : ∀ {lines seen : List (List UInt8)} {st st' : State T}
    {out : List (Call T K Q)}, st.Follows hash instr seen → seen ++ insList C (fun x => x.q.s ≠ .unk) lines <+: all →
    mainLoop hash C m st lines = some (st', out) → ∀ k : Nat,
    advances m (st.book[k]?.getD makeBook) (ownQuos C (fun x => x.q.s ≠ .unk) instr all k lines) =
      some (st'.book[k]?.getD makeBook)
  | [], _, st, _, _, _, _, h, k => by
      cases h
      rfl
  | line :: lines, seen, st, st', out, hf, hpre, h, k => by
      obtain ⟨st₁, out₁, out₂, h₁, h₂, rfl⟩ := mainLoop_cons h
      obtain ⟨x, hx⟩ := mainStep_readable h₁
      have hf₁ := follows_mainStep hf h₁
      have hsplit : insList C (fun x => x.q.s ≠ .unk) (line :: lines) =
          insList C (fun x => x.q.s ≠ .unk) [line] ++ insList C (fun x => x.q.s ≠ .unk) lines := by
        rw [← insList_append, List.singleton_append]
      rw [hsplit, ← List.append_assoc] at hpre
      have hrest := books_own hinj hf₁ hpre h₂ k
      rw [ownQuos_cons, advances, List.foldlM_append]
      rw [advances] at hrest
      by_cases hs : x.q.s = .unk
      · rw [ownQuos_singleton hx, if_neg (fun hc => hc.1 hs)]
        obtain ⟨rfl, _⟩ := mainStep_refused hx hs h₁
        exact hrest
      · obtain ⟨r, st₂, hr, huse, hskip⟩ := mainStep_books hf.ok hx hs h₁
        have hd := (hf.route hr).2
        rw [insList_singleton hx, if_pos hs] at hpre
        have hown := owner_of_done hinj ((List.prefix_append _ _).trans hpre)
        rw [hown] at hd
        rw [ownQuos_singleton hx]
        by_cases hk : owner id instr all (insOf line x) = some k
        · obtain ⟨b', hb', hst₁⟩ := huse k (hd.use_iff.mpr hk)
          rw [if_pos ⟨hs, hk⟩, List.foldlM_cons, hb']
          rw [hst₁] at hrest
          exact hrest
        · rw [if_neg (fun hc => hk hc.2)]
          rw [hskip k (fun hu => hk (hd.use_iff.mp hu))] at hrest
          exact hrest

theorem initState_book (k : Nat) : ((initState hash instr : State T).book[k]?).getD makeBook = makeBook := by
  cases hb : (initState hash instr : State T).book[k]? with
  | none => rfl
  | some b =>
      obtain ⟨n, rfl⟩ := initTable_book (List.mem_of_getElem? hb)
      rfl

/-- 受け付けない行だけでは、何も変わらない。 -/
theorem mainLoop_refused (hl : ∀ l ∈ lines, ∃ y, readXquo C l = some y ∧ ¬ y.q.s ≠ .unk) :
    mainLoop hash C m st lines = some (st, []) := by
  induction lines with
  | nil => rfl
  | cons line lines ih =>
      obtain ⟨y, hy, hs⟩ := hl line List.mem_cons_self
      have hstep : mainStep hash C m st line = some (st, []) := by
        rw [mainStep, Option.bind_eq_bind, hy, Option.bind_some, if_pos (not_not.mp hs)]
        rfl
      rw [mainLoop, hstep, Option.bind_eq_bind, Option.bind_some]
      simp only [ih (fun l hmem => hl l (List.mem_cons_of_mem _ hmem))]
      rfl

/-- 板の番号が必ず代入されるのは、銘柄の指定がないか、すべてを受ける指定のほかにもあるか、受け付ける行がないときで、
そのときに限る。 -/
theorem book2book_routes_iff : Routes T hash C m instr lines ↔
    instr = [] ∨ (∃ n ∈ instr, catchAll n = false) ∨ insList C (fun x => x.q.s ≠ .unk) (readable C lines) = [] := by
  have hassigned : (initState hash instr : State T).Assigned ↔ instr = [] ∨ ∃ n ∈ instr, catchAll n = false :=
    assigned_initTable_iff
  rw [← or_assoc, ← hassigned]
  constructor
  · rintro ⟨hline, _⟩
    by_contra hno
    rw [not_or] at hno
    obtain ⟨pre, line, post, x, rfl, hpre, hx, hs⟩ := exists_first (insList_ne_nil_iff.mp hno.2)
    have hr := (hline pre line post [] x _ rfl (mainLoop_refused hpre) hx hs).1
    rw [route_eq_none_iff.mpr hno.1] at hr
    unfold Designates at hr
    split at hr
    · obtain ⟨tab, he⟩ := hr
      cases he
    · obtain ⟨tab, he, _⟩ := hr
      cases he
  · intro hcond
    refine ⟨fun pre line post out x st hl h hx hs => ?_, fun hinj out st h k b hb => ?_⟩
    · obtain ⟨hf, hread⟩ := follows_mainLoop h
      rcases hcond with hst | hnil
      · exact routesLine hf (assigned_mainLoop hst h) hx hs
      · rw [hl] at hnil
        exact absurd hnil (insList_ne_nil_iff.mpr ⟨line, mem_readable hread hx, x, hx, hs⟩)
    · have hinit : (initState hash instr : State T).Follows hash instr [] := follows_initTable
      have hrun := books_own hinj hinit (List.prefix_refl _) h k
      rwa [hb, initState_book] at hrun

end Books.Book2book
