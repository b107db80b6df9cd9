import Books.Booksnap.Lemmas.Main
import Books.Booksnap.Spec
import Books.Instr.Owner

/-!
# 銘柄の板に加える行

写真の前に古い気配を除くことは、どの板にも共通である。そのほかに変わるのは行の板だけなので、板は、その銘柄の行と写真の時刻
だけから決まる。
-/

set_option linter.unusedSectionVars false

namespace Books.Booksnap

open Books.Btree Books.Book Books.Instr Books.Xquo

variable {K Q : Type} [LinearOrder K] [Zero K] [LinearOrder Q] [AddCommGroup Q]
variable {hash : List UInt8 → UInt32} {cfg : Conf} {C : Codec K Q} {st st' : State K Q} {line : List UInt8}
variable {sfil lines instr seen all : List (List UInt8)} {x : Xquo K Q} {rs : List (Round K Q)} {k : Nat}

/-! ## 古い気配を除く操作 -/

theorem bookExp_makeBook (t : Tv) : bookExp (makeBook : Book (OrdMap K Q)) t = makeBook := by
  unfold bookExp
  split
  · rfl
  · split
    · rfl
    · rfl

theorem foldl_expOps_makeBook (rs : List (Round K Q)) :
    (expOps cfg rs).foldl bookStep (makeBook : Book (OrdMap K Q)) = makeBook := by
  induction rs with
  | nil => rfl
  | cons r rs ih =>
      rw [expOps, List.map_cons, List.foldl_cons, bookStep, bookExp_makeBook]
      exact ih

/-- `inva` が 0 ならば、古い気配を除いても何も変わらない。 -/
theorem foldl_expOps_zero (hinva : cfg.inva = 0) (rs : List (Round K Q)) (b : Book (OrdMap K Q)) :
    (expOps cfg rs).foldl bookStep b = b := by
  induction rs with
  | nil => rfl
  | cons r rs ih =>
      have hexp : bookStep b (.exp (if cfg.inva ≠ 0 then r.metr else 0) : BookOp K Q) = b := by
        rw [if_neg (not_not.mpr hinva)]
        rfl
      rw [expOps, List.map_cons, List.foldl_cons, hexp]
      exact ih

theorem rounds_book (ms : List Tv) (bs : List (Named K Q)) (k : Nat) : (rounds cfg ms bs).1[k]?.map Named.book =
    (bs[k]?.map Named.book).map fun b => (expOps cfg (rounds cfg ms bs).2).foldl bookStep b := by
  induction ms generalizing bs with
  | nil =>
      rw [Option.map_map]
      rfl
  | cons m ms ih =>
      have hexp : (expAll cfg m bs)[k]?.map Named.book =
          (bs[k]?.map Named.book).map fun b => bookExp b (if cfg.inva ≠ 0 then m else 0) := by
        rw [expAll, List.getElem?_map, Option.map_map, Option.map_map]
        rfl
      rw [rounds, ih, hexp, Option.map_map]
      rfl

/-! ## 行の処理 -/

/-- 受け付ける行の処理は、板の番号を決め、写真の前に古い気配を除き、決めた板に加える。 -/
theorem mainStep_books (hok : st.tab.Ok) (hx : readXquo C line = some x) (ha : Accepted x)
    (h : mainStep hash cfg C st line = some (st', rs)) :
    ∃ r tab, route hash makeNamed st.tab (insOf line x) = some (r, tab) ∧
      ∀ k, bookAt st' k = (expOps cfg rs ++ if r = .use k then [addOp cfg x.q] else []).foldl bookStep (bookAt st k) := by
  obtain ⟨c, _, ⟨tab, hr, rfl, rfl⟩ | ⟨k₀, ⟨tab, ms, c', b, hr, _, hb, rfl, rfl⟩⟩⟩ := mainStep_accepted hx ha h
  · refine ⟨.skip, tab, hr, fun k => ?_⟩
    rw [if_neg Route.noConfusion, bookAt, hok.route_book hr, if_neg Route.noConfusion]
    rfl
  · refine ⟨.use k₀, tab, hr, fun k => ?_⟩
    -- 写真の前の、板 `k` の気配。
    have htab : (tab.book[k]?.map Named.book).getD makeBook = bookAt st k := by
      rw [hok.route_book hr, bookAt]
      split
      · cases st.tab.book[k]? <;> rfl
      · rfl
    have hexp : ((rounds cfg ms tab.book).1[k]?.map Named.book).getD makeBook =
        (expOps cfg (rounds cfg ms tab.book).2).foldl bookStep (bookAt st k) := by
      rw [rounds_book, ← htab]
      cases tab.book[k]? with
      | none => exact (foldl_expOps_makeBook _).symm
      | some b => rfl
    rw [List.foldl_append, ← hexp, bookAt]
    split
    · rename_i he
      cases he
      have hlt := (List.getElem?_eq_some_iff.mp hb).1
      rw [List.getElem?_set_self hlt, hb]
      rfl
    · rename_i hne
      rw [List.getElem?_set_ne (fun he => hne (by rw [he]))]
      rfl

theorem follows_mainStep (hf : st.tab.Follows hash instr seen) (h : mainStep hash cfg C st line = some (st', rs)) :
    st'.tab.Follows hash instr (seen ++ insList C Accepted [line]) := by
  obtain ⟨y, hy, ⟨hna, rfl, _⟩ | ⟨ha, c, _, ⟨tab, hr, rfl, _⟩ | ⟨k₀, ⟨tab, ms, c', b, hr, _, _, rfl, _⟩⟩⟩⟩ := mainStep_cases h
  · rw [insList_singleton hy, if_neg hna, List.append_nil]
    exact hf
  · rw [insList_singleton hy, if_pos ha]
    exact (hf.route hr).1
  · rw [insList_singleton hy, if_pos ha]
    have hroute := (hf.route hr).1
    exact ⟨Table.Ok.rounds hroute.ok ms, hroute.conx, hroute.nctch, hroute.zbook⟩

theorem mainStep_readable (h : mainStep hash cfg C st line = some (st', rs)) : ∃ x, readXquo C line = some x := by
  obtain ⟨x, hx, _⟩ := mainStep_cases h
  exact ⟨x, hx⟩

/-- 表は、受け付けた行の銘柄の列に従う。 -/
theorem follows_mainLoop (h : mainLoop hash cfg C (initState hash sfil instr) lines = some (st, rs)) :
    st.tab.Follows hash instr (insList C Accepted lines) ∧ ∀ l ∈ lines, (readXquo C l).isSome = true := by
  refine mainLoop_rule (P := fun done s _ => s.tab.Follows hash instr (insList C Accepted done) ∧
    ∀ l ∈ done, (readXquo C l).isSome = true) ⟨follows_initTable, fun l hl => absurd hl List.not_mem_nil⟩ ?_ h
  rintro done line st rs st' rs' _ ⟨hf, hread⟩ hstep
  obtain ⟨x, hx⟩ := mainStep_readable hstep
  rw [insList_append]
  refine ⟨follows_mainStep hf hstep, fun l hl => ?_⟩
  rcases List.mem_append.mp hl with hl | hl
  · exact hread l hl
  · rw [List.mem_singleton.mp hl, hx]
    rfl

theorem assigned_mainLoop (hst : (initState hash sfil instr : State K Q).tab.Assigned)
    (h : mainLoop hash cfg C (initState hash sfil instr) lines = some (st, rs)) : st.tab.Assigned :=
  mainLoop_rule (P := fun _ s _ => s.tab.Assigned) hst (fun _ hs hstep => assigned_mainStep hs hstep) h

/-- 板の番号が代入されれば、行の板は、加えるべき板であり、その板だけに行が加わる。 -/
theorem routesLine (hf : st.tab.Follows hash instr seen) (hst : st.tab.Assigned) (hx : readXquo C line = some x)
    (ha : Accepted x) : RoutesLine hash cfg C instr seen st line x := by
  cases hr : route hash makeNamed st.tab (insOf line x) with
  | none => exact absurd hst (route_eq_none_iff.mp hr)
  | some y =>
      obtain ⟨r, tab⟩ := y
      have hd := (hf.route hr).2
      refine ⟨by rw [hr]; exact hd, fun st' rs h k => ?_⟩
      obtain ⟨r', tab', hr', hbooks⟩ := mainStep_books hf.ok hx ha h
      rw [hr] at hr'
      cases hr'
      rw [hbooks k]
      simp only [hd.use_iff]

/-! ## 行の列 -/

/-- 銘柄を区別するハッシュでは、板は、その銘柄の行と写真の時刻だけから決まる。 -/
theorem books_own (hinj : Set.InjOn hash (names instr all)) : ∀ {lines seen : List (List UInt8)} {st st' : State K Q}
    {rs : List (Round K Q)}, st.tab.Follows hash instr seen → seen ++ insList C Accepted lines <+: all →
    mainLoop hash cfg C st lines = some (st', rs) → ∀ k,
    bookAt st' k = (ownOps hash cfg C instr all k st lines).foldl bookStep (bookAt st k)
  | [], _, st, _, _, _, _, h, k => by
      cases h
      rfl
  | line :: lines, seen, st, st', rs, hf, hpre, h, k => by
      obtain ⟨st₁, rs₁, rs₂, h₁, h₂, rfl⟩ := mainLoop_cons h
      obtain ⟨x, hx⟩ := mainStep_readable h₁
      have hf₁ := follows_mainStep hf h₁
      have hsplit : insList C Accepted (line :: lines) = insList C Accepted [line] ++ insList C Accepted lines := by
        rw [← insList_append, List.singleton_append]
      rw [hsplit, ← List.append_assoc] at hpre
      rw [books_own hinj hf₁ hpre h₂ k, ownOps, h₁]
      simp only
      rw [List.foldl_append]
      congr 1
      rw [ownQuos_singleton hx]
      by_cases ha : Accepted x
      · obtain ⟨r, tab, hr, hbooks⟩ := mainStep_books hf.ok hx ha h₁
        have hd := (hf.route hr).2
        rw [insList_singleton hx, if_pos ha] at hpre
        rw [owner_of_done hinj ((List.prefix_append _ _).trans hpre)] at hd
        rw [hbooks k]
        simp only [hd.use_iff, ha, true_and]
        split <;> rfl
      · obtain ⟨rfl, rfl⟩ := mainStep_refused hx ha h₁
        rw [if_neg (fun hc => ha hc.1)]
        rfl

/-- `inva` が 0 ならば、板は、その銘柄の行の気配を順に加えたものである。 -/
theorem foldl_ownOps_zero (hinva : cfg.inva = 0) : ∀ {lines : List (List UInt8)} {st st' : State K Q}
    {rs : List (Round K Q)} (b : Book (OrdMap K Q)), mainLoop hash cfg C st lines = some (st', rs) →
    (ownOps hash cfg C instr all k st lines).foldl bookStep b =
      (ownQuos C Accepted instr all k lines).foldl (fun b q => (bookAdd b q).1) b
  | [], _, _, _, _, _ => rfl
  | line :: lines, st, st', rs, b, h => by
      obtain ⟨st₁, rs₁, rs₂, h₁, h₂, rfl⟩ := mainLoop_cons h
      have hadd : ∀ q : BookQuo K Q, bookStep b (addOp cfg q) = (bookAdd b q).1 := fun q => by
        rw [addOp, hinva, UInt64.add_zero]
        rfl
      rw [ownQuos_cons, ownOps, h₁]
      simp only
      rw [List.foldl_append, List.foldl_append, List.foldl_append, foldl_expOps_zero hinva, foldl_ownOps_zero hinva _ h₂]
      congr 1
      obtain ⟨x, hx⟩ := mainStep_readable h₁
      rw [ownQuos_singleton hx]
      split
      · exact hadd x.q
      · rfl

theorem bookAt_initState (k : Nat) : bookAt (initState hash sfil instr : State K Q) k = makeBook := by
  rw [bookAt]
  cases hb : (initState hash sfil instr : State K Q).tab.book[k]? with
  | none => rfl
  | some b =>
      obtain ⟨n, rfl⟩ := initTable_book (List.mem_of_getElem? hb)
      rfl

/-- 受け付けない行だけでは、何も変わらない。 -/
theorem mainLoop_refused (hl : ∀ l ∈ lines, ∃ y, readXquo C l = some y ∧ ¬ Accepted y) :
    mainLoop hash cfg C st lines = some (st, []) := by
  induction lines with
  | nil => rfl
  | cons line lines ih =>
      obtain ⟨y, hy, hna⟩ := hl line List.mem_cons_self
      have hstep : mainStep hash cfg C st line = some (st, []) := by
        rw [mainStep, Option.bind_eq_bind, hy, Option.bind_some]
        split
        · rfl
        · rename_i hs
          rw [if_pos (by_contra fun ht => hna ⟨hs, ht⟩)]
          rfl
      rw [mainLoop, hstep, Option.bind_eq_bind, Option.bind_some]
      simp only [ih (fun l hmem => hl l (List.mem_cons_of_mem _ hmem))]
      rfl

theorem acceptedTimes_readable {pre post : List (List UInt8)} (hpre : ∀ l ∈ pre, (readXquo C l).isSome = true)
    (hx : readXquo C line = some x) (ha : Accepted x) : acceptedTimes C (readable C (pre ++ line :: post)) =
      acceptedTimes C pre ++ x.q.t :: acceptedTimes C (readable C post) := by
  rw [readable_append hpre, readable_cons hx, acceptedTimes_append, acceptedTimes_cons hx, if_pos ha]

/-- 板の番号が必ず代入されるのは、銘柄の指定がないか、すべてを受ける指定のほかにもあるか、受け付ける最初の行で時計が
動き始めないか、受け付ける行がないときで、そのときに限る。 -/
theorem booksnap_routes_iff : Routes hash cfg C sfil instr lines ↔ instr = [] ∨ (∃ n ∈ instr, catchAll n = false) ∨
    ∀ t ∈ (acceptedTimes C (readable C lines)).head?, start cfg (initClock sfil) t = none := by
  have hassigned : (initState hash sfil instr : State K Q).tab.Assigned ↔ instr = [] ∨ ∃ n ∈ instr, catchAll n = false :=
    assigned_initTable_iff
  rw [← or_assoc, ← hassigned]
  constructor
  · rintro ⟨hline, _⟩
    by_contra hno
    rw [not_or] at hno
    obtain ⟨hno, hclock⟩ := hno
    obtain ⟨t, hclock⟩ := not_forall.mp hclock
    obtain ⟨ht, hstart⟩ := Classical.not_imp.mp hclock
    obtain ⟨line₀, hmem, x₀, hx₀, ha₀, _⟩ := mem_acceptedTimes.mp (List.mem_of_mem_head? ht)
    obtain ⟨pre, line, post, x, rfl, hpre, hx, ha⟩ := exists_first ⟨line₀, hmem, x₀, hx₀, ha₀⟩
    have hread : ∀ l ∈ pre, (readXquo C l).isSome = true := fun l hl => by
      obtain ⟨y, hy, _⟩ := hpre l hl
      rw [hy]
      rfl
    have hidle : Idle C pre := fun l hl y hy => by
      obtain ⟨y', hy', hna⟩ := hpre l hl
      rw [hy] at hy'
      cases hy'
      exact hna
    rw [acceptedTimes_readable hread hx ha, hidle.acceptedTimes] at ht
    cases ht
    have hr := (hline pre line post [] x _ rfl (mainLoop_refused hpre) hx ha (Option.isSome_iff_ne_none.mpr hstart)).1
    rw [route_eq_none_iff.mpr hno] at hr
    unfold Designates at hr
    split at hr
    · obtain ⟨tab, he⟩ := hr
      cases he
    · obtain ⟨tab, he, _⟩ := hr
      cases he
  · intro hcond
    refine ⟨fun pre line post rs x st hl h hx ha hstart => ?_, fun hinj rs st h k => ?_⟩
    · obtain ⟨hf, hread⟩ := follows_mainLoop h
      rcases hcond with hst | hnone
      · exact routesLine hf (assigned_mainLoop hst h) hx ha
      · rw [hl, acceptedTimes_readable hread hx ha] at hnone
        cases hts : acceptedTimes C pre with
        | nil =>
            obtain ⟨rfl, _⟩ := mainLoop_idle hts h
            rw [hts] at hnone
            have hstuck := hnone x.q.t rfl
            rw [initState, hstuck] at hstart
            cases hstart
        | cons t ts =>
            -- 受け付けた最初の行で、時計は動き始めている。
            obtain ⟨line', _, x', st₁, rs₁, _, _, hx', ha', ht', _, hstep, _⟩ := mainLoop_first hts h
            rw [hts] at hnone
            have hstuck := hnone t rfl
            obtain ⟨c, hc, _⟩ := mainStep_accepted hx' ha' hstep
            rw [ht', initState, hstuck] at hc
            cases hc
    · have hinit : (initState hash sfil instr : State K Q).tab.Follows hash instr [] := follows_initTable
      have hrun := books_own hinj hinit (List.prefix_refl _) h k
      rw [bookAt_initState] at hrun
      refine ⟨hrun, fun hinva => ?_⟩
      rw [hrun, foldl_ownOps_zero hinva _ h]
      rfl

end Books.Booksnap
