import Books.Booksnap.Lemmas.Clock
import Books.Instr.Lemmas
import Books.Lib.Run

/-!
# 入力の行の処理
-/

set_option linter.unusedSectionVars false

namespace Books.Booksnap

open Books.Btree Books.Book Books.Instr Books.Xquo Books.Lib

variable {K Q : Type} [LinearOrder K] [Zero K] [LinearOrder Q] [AddCommGroup Q]
variable {hash : List UInt8 → UInt32} {cfg : Conf} {C : Codec K Q} {st st' : State K Q} {line : List UInt8}
variable {lines : List (List UInt8)} {x : Xquo K Q} {rs : List (Round K Q)} {c : Clock} {t : Tv}

/-- 板 `k` に加える行の処理。 -/
structure Applies (hash : List UInt8 → UInt32) (cfg : Conf) (st : State K Q) (line : List UInt8) (x : Xquo K Q)
    (c : Clock) (k : Nat) (st' : State K Q) (rs : List (Round K Q)) : Prop where
  ex : ∃ tab ms c' b, route hash makeNamed st.tab (insOf line x) = some (.use k, tab) ∧
    shoot cfg c x.q.t = some (ms, c') ∧ (rounds cfg ms tab.book).1[k]? = some b ∧
    st' = ⟨{ tab with book := (rounds cfg ms tab.book).1.set k (badd cfg b x.q) }, c'⟩ ∧
    rs = (rounds cfg ms tab.book).2

theorem mainStep_cases (h : mainStep hash cfg C st line = some (st', rs)) : ∃ x, readXquo C line = some x ∧
    ((¬ Accepted x ∧ st' = st ∧ rs = []) ∨
    (Accepted x ∧ ∃ c, start cfg st.clock x.q.t = some c ∧
      ((∃ tab, route hash makeNamed st.tab (insOf line x) = some (.skip, tab) ∧ st' = ⟨tab, c⟩ ∧ rs = []) ∨
      ∃ k, Applies hash cfg st line x c k st' rs))) := by
  rw [mainStep, Option.bind_eq_bind, Option.bind_eq_some_iff] at h
  obtain ⟨x, hx, h⟩ := h
  refine ⟨x, hx, ?_⟩
  split at h
  · rename_i hs
    cases h
    exact Or.inl ⟨fun ha => ha.1 hs, rfl, rfl⟩
  · rename_i hs
    split at h
    · rename_i ht
      cases h
      exact Or.inl ⟨fun ha => ha.2 ht, rfl, rfl⟩
    · rename_i ht
      simp only [Option.bind_eq_bind] at h
      rw [Option.bind_eq_some_iff] at h
      obtain ⟨c, hc, h⟩ := h
      rw [Option.bind_eq_some_iff] at h
      obtain ⟨⟨r, tab⟩, hr, h⟩ := h
      refine Or.inr ⟨⟨hs, ht⟩, c, hc, ?_⟩
      cases r with
      | skip =>
          cases h
          exact Or.inl ⟨tab, hr, rfl, rfl⟩
      | use k =>
          simp only at h
          rw [Option.bind_eq_some_iff] at h
          obtain ⟨⟨ms, c'⟩, hm, h⟩ := h
          rw [Option.bind_eq_some_iff] at h
          obtain ⟨b, hb, h⟩ := h
          cases h
          exact Or.inr ⟨k, ⟨tab, ms, c', b, hr, hm, hb, rfl, rfl⟩⟩

theorem mainStep_accepted (hx : readXquo C line = some x) (ha : Accepted x)
    (h : mainStep hash cfg C st line = some (st', rs)) : ∃ c, start cfg st.clock x.q.t = some c ∧
      ((∃ tab, route hash makeNamed st.tab (insOf line x) = some (.skip, tab) ∧ st' = ⟨tab, c⟩ ∧ rs = []) ∨
      ∃ k, Applies hash cfg st line x c k st' rs) := by
  obtain ⟨y, hy, hcase⟩ := mainStep_cases h
  rw [hx] at hy
  cases hy
  rcases hcase with ⟨hna, _⟩ | ⟨_, happ⟩
  · exact absurd ha hna
  · exact happ

theorem mainStep_refused (hx : readXquo C line = some x) (hna : ¬ Accepted x)
    (h : mainStep hash cfg C st line = some (st', rs)) : st' = st ∧ rs = [] := by
  obtain ⟨y, hy, hcase⟩ := mainStep_cases h
  rw [hx] at hy
  cases hy
  rcases hcase with ⟨_, hst, hrs⟩ | ⟨ha, _⟩
  · exact ⟨hst, hrs⟩
  · exact absurd ha hna

theorem mainLoop_eq_run : mainLoop hash cfg C st lines = run (mainStep hash cfg C) st lines := by
  induction lines generalizing st with
  | nil => rfl
  | cons line lines ih =>
      simp only [mainLoop, Lib.run, ih]

theorem mainLoop_cons (h : mainLoop hash cfg C st (line :: lines) = some (st', rs)) :
    ∃ st₁ rs₁ rs₂, mainStep hash cfg C st line = some (st₁, rs₁) ∧ mainLoop hash cfg C st₁ lines = some (st', rs₂) ∧
      rs = rs₁ ++ rs₂ := by
  simp only [mainLoop_eq_run] at h ⊢
  exact run_cons_eq_some_iff.mp h

theorem mainLoop_rule {P : List (List UInt8) → State K Q → List (Round K Q) → Prop} (h₀ : P [] st [])
    (hstep : ∀ {done line st rs st' rs'}, done ++ [line] <+: lines → P done st rs →
      mainStep hash cfg C st line = some (st', rs') → P (done ++ [line]) st' (rs ++ rs'))
    (h : mainLoop hash cfg C st lines = some (st', rs)) : P lines st' rs :=
  run_rule h₀ hstep (mainLoop_eq_run.symm.trans h)

theorem mem_of_step {done : List (List UInt8)} (h : done ++ [line] <+: lines) : line ∈ lines :=
  h.subset (List.mem_append_right _ List.mem_cons_self)

theorem mainLoop_isSome {P : State K Q → Prop} (h₀ : P st)
    (hsome : ∀ {line st}, line ∈ lines → P st → (mainStep hash cfg C st line).isSome = true)
    (hstep : ∀ {line st st' rs}, line ∈ lines → P st → mainStep hash cfg C st line = some (st', rs) → P st') :
    (mainLoop hash cfg C st lines).isSome = true := by
  rw [mainLoop_eq_run]
  exact run_isSome h₀ hsome hstep

/-- 入力の全体の写真は、行ごとの写真の後に、最後の写真を加えたものである。 -/
theorem main_eq_some_iff {sfil instr : List (List UInt8)} : main hash cfg C sfil instr lines = some rs ↔
    ∃ st rs', mainLoop hash cfg C (initState hash sfil instr) lines = some (st, rs') ∧ rs = rs' ++ finalRound cfg st := by
  rw [main, Option.bind_eq_bind, Option.bind_eq_some_iff]
  constructor
  · rintro ⟨⟨st, rs'⟩, h, hrs⟩
    cases hrs
    exact ⟨st, rs', h, rfl⟩
  · rintro ⟨st, rs', h, rfl⟩
    exact ⟨⟨st, rs'⟩, h, rfl⟩

/-! ## 受け付ける行 -/

theorem acceptedTimes_cons (hx : readXquo C line = some x) : acceptedTimes C (line :: lines) =
    if Accepted x then x.q.t :: acceptedTimes C lines else acceptedTimes C lines := by
  unfold acceptedTimes
  split
  · rename_i ha
    rw [List.filterMap_cons_some]
    rw [hx, Option.bind_some, if_pos ha]
  · rename_i ha
    rw [List.filterMap_cons_none]
    rw [hx, Option.bind_some, if_neg ha]

theorem acceptedTimes_append {done : List (List UInt8)} : acceptedTimes C (done ++ lines) =
    acceptedTimes C done ++ acceptedTimes C lines := List.filterMap_append

theorem mem_acceptedTimes : t ∈ acceptedTimes C lines ↔
    ∃ line ∈ lines, ∃ x, readXquo C line = some x ∧ Accepted x ∧ x.q.t = t := by
  rw [acceptedTimes, List.mem_filterMap]
  refine exists_congr fun line => and_congr_right fun _ => ?_
  rw [Option.bind_eq_some_iff]
  refine exists_congr fun x => and_congr_right fun _ => ?_
  split
  · rename_i ha
    simp [ha]
  · rename_i ha
    simp [ha]

theorem Idle.acceptedTimes (h : Idle C lines) : acceptedTimes C lines = [] := by
  rw [List.eq_nil_iff_forall_not_mem]
  intro t ht
  obtain ⟨line, hmem, x, hx, ha, _⟩ := mem_acceptedTimes.mp ht
  exact h line hmem x hx ha

/-- 受け付ける行がなければ、何も変わらない。 -/
theorem mainLoop_idle (hts : acceptedTimes C lines = []) (h : mainLoop hash cfg C st lines = some (st', rs)) :
    st' = st ∧ rs = [] := by
  induction lines generalizing st rs with
  | nil =>
      cases h
      exact ⟨rfl, rfl⟩
  | cons line lines ih =>
      obtain ⟨st₁, rs₁, rs₂, h₁, h₂, rfl⟩ := mainLoop_cons h
      obtain ⟨x, hx, ⟨hna, rfl, rfl⟩ | ⟨ha, _⟩⟩ := mainStep_cases h₁
      · rw [acceptedTimes_cons hx, if_neg hna] at hts
        exact ih hts h₂
      · rw [acceptedTimes_cons hx, if_pos ha] at hts
        cases hts

/-- 受け付ける最初の行で、行の列を分ける。 -/
theorem mainLoop_first {t₁ : Tv} {ts : List Tv} (hts : acceptedTimes C lines = t₁ :: ts)
    (h : mainLoop hash cfg C st lines = some (st', rs)) : ∃ line lines' x st₁ rs₁ rs₂, line ∈ lines ∧
      readXquo C line = some x ∧ Accepted x ∧ x.q.t = t₁ ∧ acceptedTimes C lines' = ts ∧
      mainStep hash cfg C st line = some (st₁, rs₁) ∧ mainLoop hash cfg C st₁ lines' = some (st', rs₂) ∧ rs = rs₁ ++ rs₂ := by
  induction lines generalizing st rs with
  | nil => cases hts
  | cons line lines ih =>
      obtain ⟨st₁, rs₁, rs₂, h₁, h₂, rfl⟩ := mainLoop_cons h
      obtain ⟨x, hx, ⟨hna, rfl, rfl⟩ | ⟨ha, _⟩⟩ := mainStep_cases h₁
      · rw [acceptedTimes_cons hx, if_neg hna] at hts
        obtain ⟨line', lines', x', st₂, rs₃, rs₄, hmem, hrest⟩ := ih hts h₂
        exact ⟨line', lines', x', st₂, rs₃, rs₄, List.mem_cons_of_mem _ hmem, hrest⟩
      · rw [acceptedTimes_cons hx, if_pos ha] at hts
        cases hts
        exact ⟨line, lines, x, st₁, rs₁, rs₂, List.mem_cons_self, hx, ha, rfl, rfl, h₁, h₂, rfl⟩

/-! ## 写真 -/

theorem expAll_length (m : Tv) (bs : List (Named K Q)) : (expAll cfg m bs).length = bs.length := by
  rw [expAll, List.length_map]

theorem rounds_length : ∀ (ms : List Tv) (bs : List (Named K Q)), (rounds cfg ms bs).1.length = bs.length
  | [], _ => rfl
  | m :: ms, bs => by
      rw [rounds, rounds_length ms, expAll_length]

theorem rounds_metr : ∀ (ms : List Tv) (bs : List (Named K Q)), (rounds cfg ms bs).2.map Round.metr = ms
  | [], _ => rfl
  | m :: ms, bs => by
      rw [rounds, List.map_cons, rounds_metr ms]

theorem rounds_books : ∀ (ms : List Tv) (bs : List (Named K Q)), ∀ r ∈ (rounds cfg ms bs).2, r.books.length = bs.length
  | [], _, r, hr => absurd hr List.not_mem_nil
  | m :: ms, bs, r, hr => by
      rcases List.mem_cons.mp hr with rfl | hr
      · exact expAll_length m bs
      · rw [rounds_books ms _ r hr, expAll_length]

/-! ## 表 -/

theorem Table.Ok.rounds {tab : Table (Named K Q)} (h : tab.Ok) (ms : List Tv) {b : Named K Q} {k : Nat} :
    Table.Ok { tab with book := (Booksnap.rounds cfg ms tab.book).1.set k b } := by
  refine ⟨?_, h.grow⟩
  rw [List.length_set, rounds_length]
  exact h.length

theorem ok_mainStep (hok : st.tab.Ok) (h : mainStep hash cfg C st line = some (st', rs)) : st'.tab.Ok := by
  obtain ⟨x, _, ⟨_, rfl, _⟩ | ⟨_, c, _, ⟨tab, hr, rfl, _⟩ | ⟨k, ⟨tab, ms, c', b, hr, _, _, rfl, _⟩⟩⟩⟩ := mainStep_cases h
  · exact hok
  · exact hok.route hr
  · exact Table.Ok.rounds (hok.route hr) ms

theorem assigned_mainStep (hst : st.tab.Assigned) (h : mainStep hash cfg C st line = some (st', rs)) :
    st'.tab.Assigned := by
  obtain ⟨x, _, ⟨_, rfl, _⟩ | ⟨_, c, _, ⟨tab, hr, rfl, _⟩ | ⟨k, ⟨tab, ms, c', b, hr, _, _, rfl, _⟩⟩⟩⟩ := mainStep_cases h
  · exact hst
  · exact hst.route hr
  · have htab : tab.Assigned := hst.route hr
    exact htab

/-- 読めて、時計が追いつき、板の番号が決まれば、行の処理は定まる。 -/
theorem mainStep_isSome (hx : readXquo C line = some x) (hok : st.tab.Ok) (hst : st.tab.Assigned)
    (hclock : Accepted x → ∃ c, start cfg st.clock x.q.t = some c ∧ (shoot cfg c x.q.t).isSome = true) :
    (mainStep hash cfg C st line).isSome = true := by
  rw [mainStep, Option.bind_eq_bind, hx, Option.bind_some]
  split
  · rfl
  · rename_i hs
    split
    · rfl
    · rename_i ht
      obtain ⟨c, hc, hm⟩ := hclock ⟨hs, ht⟩
      obtain ⟨⟨ms, c'⟩, hm'⟩ := Option.isSome_iff_exists.mp hm
      simp only [Option.bind_eq_bind, hc, Option.bind_some]
      cases hr : route hash makeNamed st.tab (insOf line x) with
      | none => exact absurd hst (route_eq_none_iff.mp hr)
      | some y =>
          obtain ⟨r, tab⟩ := y
          cases r with
          | skip => rfl
          | use k =>
              have hk : k < (Booksnap.rounds cfg ms tab.book).1.length := by
                rw [rounds_length]
                exact hok.use_lt hr
              simp only [Option.bind_some, hm', List.getElem?_eq_getElem hk]
              rfl

/-- 銘柄の指定のない表では、受け付ける行は、必ず板に加わる。 -/
theorem applies_of_zbook (hz : st.tab.zbook = true) (hx : readXquo C line = some x) (ha : Accepted x)
    (h : mainStep hash cfg C st line = some (st', rs)) :
    st'.tab.zbook = true ∧ ∃ c k, start cfg st.clock x.q.t = some c ∧ Applies hash cfg st line x c k st' rs := by
  obtain ⟨c, hc, ⟨tab, hr, _⟩ | ⟨k, happ⟩⟩ := mainStep_accepted hx ha h
  · rcases route_cases hr with ⟨_, _, _, _, hz'⟩ | ⟨hk, _⟩ | ⟨hk, _⟩ | ⟨hk, _⟩
    · rw [hz] at hz'
      cases hz'
    · cases hk
    · cases hk
    · cases hk
  · refine ⟨?_, c, k, hc, happ⟩
    obtain ⟨tab, ms, c', b, hr, _, _, rfl, _⟩ := happ.ex
    rcases route_cases hr with ⟨_, rfl, _⟩ | ⟨_, rfl, _⟩ | ⟨_, rfl, _⟩ | ⟨_, rfl, _⟩
    · exact hz
    · exact hz
    · exact hz
    · exact hz

/-- 板に加わる行では、写真を撮る板も、行の後の板も、空でない。 -/
theorem Applies.books {k : Nat} (hok : st.tab.Ok) (h : Applies hash cfg st line x c k st' rs) :
    st'.tab.book ≠ [] ∧ ∀ r ∈ rs, r.books ≠ [] := by
  obtain ⟨tab, ms, c', b, hr, _, _, rfl, rfl⟩ := h.ex
  have hk := hok.use_lt hr
  refine ⟨fun he => ?_, fun r hmem he => ?_⟩
  · have hlen := congrArg List.length he
    simp only [List.length_set, rounds_length, List.length_nil] at hlen
    omega
  · have hlen := rounds_books ms tab.book r hmem
    rw [he, List.length_nil] at hlen
    omega

/-! ## 板の数 -/

theorem mainStep_grows (h : mainStep hash cfg C st line = some (st', rs)) : st.tab.book.length ≤ st'.tab.book.length ∧
    ∀ r ∈ rs, r.books.length = st'.tab.book.length := by
  have hroute : ∀ {u : Route} {tab : Table (Named K Q)} {ins : List UInt8},
      route hash makeNamed st.tab ins = some (u, tab) → st.tab.book.length ≤ tab.book.length := by
    intro u tab ins hr
    rcases route_cases hr with ⟨_, rfl, _⟩ | ⟨_, rfl, _⟩ | ⟨_, rfl, _⟩ | ⟨_, rfl, _⟩
    · exact Nat.le_refl _
    · exact Nat.le_refl _
    · exact Nat.le_refl _
    · rw [Table.add, List.length_append]
      exact Nat.le_add_right _ _
  obtain ⟨x, _, ⟨_, rfl, rfl⟩ | ⟨_, c, _, ⟨tab, hr, rfl, rfl⟩ | ⟨k, ⟨tab, ms, c', b, hr, _, _, rfl, rfl⟩⟩⟩⟩ := mainStep_cases h
  · exact ⟨Nat.le_refl _, fun r hr => absurd hr List.not_mem_nil⟩
  · exact ⟨hroute hr, fun r hr => absurd hr List.not_mem_nil⟩
  · simp only [List.length_set, rounds_length]
    exact ⟨hroute hr, rounds_books ms tab.book⟩

/-- 後の写真ほど、板の数は減らない。 -/
theorem main_grows {sfil instr : List (List UInt8)} (h : main hash cfg C sfil instr lines = some rs) :
    rs.Pairwise fun r r' => r.books.length ≤ r'.books.length := by
  obtain ⟨st, rs', hloop, rfl⟩ := main_eq_some_iff.mp h
  have hrule := mainLoop_rule (P := fun _ s r => (∀ y ∈ r, y.books.length ≤ s.tab.book.length) ∧
    r.Pairwise fun y y' => y.books.length ≤ y'.books.length) ⟨fun y hy => absurd hy List.not_mem_nil, .nil⟩ ?_ hloop
  · rw [List.pairwise_append]
    refine ⟨hrule.2, ?_, fun r hr r' hr' => ?_⟩
    · unfold finalRound
      split
      · exact List.pairwise_singleton _ _
      · exact .nil
    · unfold finalRound at hr'
      split at hr'
      · rw [List.mem_singleton.mp hr', expAll_length]
        exact hrule.1 r hr
      · exact absurd hr' List.not_mem_nil
  · rintro _ line st₁ rs₁ st₂ rs₂ _ ⟨hle, hsorted⟩ hstep
    obtain ⟨hgrow, hlen⟩ := mainStep_grows hstep
    refine ⟨fun y hy => ?_, ?_⟩
    · rcases List.mem_append.mp hy with hy | hy
      · exact Nat.le_trans (hle y hy) hgrow
      · exact Nat.le_of_eq (hlen y hy)
    · rw [List.pairwise_append]
      refine ⟨hsorted, List.pairwise_iff_forall_sublist.mpr fun {y y'} hsub => ?_, fun y hy y' hy' => ?_⟩
      · rw [hlen y (hsub.subset List.mem_cons_self), hlen y' (hsub.subset (List.mem_cons_of_mem _ List.mem_cons_self))]
      · rw [hlen y' hy']
        exact Nat.le_trans (hle y hy) hgrow

theorem Halts.start_shoot {cfg : Conf} {t : Tv} {c : Clock} (h : Halts cfg t c) :
    (start cfg c t).isSome = true ∧ (shoot cfg c t).isSome = true := by
  obtain ⟨⟨n, hn⟩, _⟩ := h
  have hb := startLoop_bound hn
  unfold start shoot
  constructor
  · split
    · exact hb
    · rfl
  · split
    · rfl
    · rw [shootLoop_isSome]
      exact hb

/-- 行が読めて、時計が追いつき、銘柄の指定がすべてを受けるものだけでなければ、写真は定まる。 -/
theorem main_isSome {sfil instr : List (List UInt8)} (hinstr : instr = [] ∨ ∃ n ∈ instr, catchAll n = false)
    (hread : ∀ line ∈ lines, (readXquo C line).isSome = true)
    (hhalt : ∀ line ∈ lines, ∀ x, readXquo C line = some x → Accepted x → ∀ c, Halts cfg x.q.t c) :
    (main hash cfg C sfil instr lines).isSome = true := by
  have hloop : (mainLoop hash cfg C (initState hash sfil instr) lines).isSome = true := by
    refine mainLoop_isSome (P := fun st => st.tab.Ok ∧ st.tab.Assigned)
      ⟨ok_initTable instr, assigned_initTable_iff.mpr hinstr⟩ ?_ ?_
    · intro line st hmem hst
      obtain ⟨x, hx⟩ := Option.isSome_iff_exists.mp (hread line hmem)
      refine mainStep_isSome hx hst.1 hst.2 (fun ha => ?_)
      obtain ⟨c, hc⟩ := Option.isSome_iff_exists.mp (hhalt line hmem x hx ha st.clock).start_shoot.1
      exact ⟨c, hc, (hhalt line hmem x hx ha c).start_shoot.2⟩
    · intro line st st' rs _ hst hstep
      exact ⟨ok_mainStep hst.1 hstep, assigned_mainStep hst.2 hstep⟩
  obtain ⟨⟨st, rs⟩, hrs⟩ := Option.isSome_iff_exists.mp hloop
  exact Option.isSome_iff_exists.mpr ⟨_, main_eq_some_iff.mpr ⟨st, rs, hrs, rfl⟩⟩

end Books.Booksnap
