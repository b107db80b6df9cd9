import Books.Booksnap.Lemmas.Main
import Books.Lib.Sorted

/-!
# 時刻を読む時計

`--stamps` の時計が、行ごとに写真を撮る時刻を求める。これから撮る時刻の並び `pending` を、行の時刻で二つに分けて進む。
-/

set_option linter.unusedSectionVars false

namespace Books.Booksnap

open Books.Btree Books.Book Books.Instr Books.Xquo Books.Lib

variable {cfg : Conf} {c c' : Clock} {t : Tv} {ms S : List Tv} {n : Nat}

/-- これから撮る写真の時刻。 -/
def pending (c : Clock) : List Tv := if c.metr = natv then [] else c.metr :: stampsOf c.sfil

theorem pending_nextStmp (c : Clock) : pending (nextStmp c) = stampsOf c.sfil := by
  unfold nextStmp pending stampsOf
  cases c.sfil with
  | nil => rfl
  | cons line sfil =>
      simp only [List.map_cons]
      by_cases h : strtotv line = natv
      · rw [if_pos h, List.takeWhile_cons_of_neg (by simpa using h)]
      · rw [if_neg h, List.takeWhile_cons_of_pos (by simpa using h)]

/-- 時計が `t` に追いついていれば、`t` より前の時刻は残っていない。 -/
theorem pending_of_le (h : t ≤ c.metr) :
    (pending c).takeWhile (fun s => decide (s < t)) = [] ∧ (pending c).dropWhile (fun s => decide (s < t)) = pending c := by
  unfold pending
  split
  · exact ⟨rfl, rfl⟩
  · have hneg : ¬ decide (c.metr < t) = true := by simpa using UInt64.not_lt.mpr h
    rw [List.takeWhile_cons_of_neg (p := fun s => decide (s < t)) hneg,
      List.dropWhile_cons_of_neg (p := fun s => decide (s < t)) hneg]
    exact ⟨rfl, rfl⟩

theorem pending_of_lt (h : c.metr < t) : pending c = c.metr :: stampsOf c.sfil := by
  rw [pending, if_neg (ne_natv_of_lt h)]

theorem startLoop_pending (hs : cfg.stamps = true) (h : startLoop cfg t n c = some c') :
    pending c' = (stampsOf c.sfil).dropWhile fun s => decide (s < t) := by
  induction n generalizing c with
  | zero => cases h
  | succ n ih =>
      rw [startLoop, next_stmp hs] at h
      split at h
      · rename_i hlt
        rw [ih h, ← pending_nextStmp c, pending_of_lt hlt, List.dropWhile_cons_of_pos (by simpa using hlt)]
      · rename_i hlt
        cases h
        rw [← pending_nextStmp, (pending_of_le (UInt64.not_lt.mp hlt)).2]

theorem shootLoop_pending (hs : cfg.stamps = true) (hc : c.metr < t) (h : shootLoop cfg t n c = some (ms, c')) :
    ms = (pending c).takeWhile (fun s => decide (s < t)) ∧ pending c' = (pending c).dropWhile fun s => decide (s < t) := by
  induction n generalizing c ms with
  | zero => cases h
  | succ n ih =>
      have hpos : decide (c.metr < t) = true := by simpa using hc
      rw [shootLoop, next_stmp hs] at h
      rw [pending_of_lt hc, List.takeWhile_cons_of_pos (p := fun s => decide (s < t)) hpos,
        List.dropWhile_cons_of_pos (p := fun s => decide (s < t)) hpos, ← pending_nextStmp]
      split at h
      · rename_i hlt
        obtain ⟨⟨ms', c₁⟩, hr, hms⟩ := Option.map_eq_some_iff.mp h
        cases hms
        obtain ⟨h₁, h₂⟩ := ih hlt hr
        exact ⟨by rw [← h₁], h₂⟩
      · rename_i hlt
        cases h
        obtain ⟨h₁, h₂⟩ := pending_of_le (UInt64.not_lt.mp hlt)
        exact ⟨by rw [h₁], h₂.symm⟩

theorem start_pending (hs : cfg.stamps = true) (h : start cfg c t = some c') :
    (c.metr = 0 ∧ pending c' = (stampsOf c.sfil).dropWhile fun s => decide (s < t)) ∨ (c.metr ≠ 0 ∧ c' = c) := by
  rw [start] at h
  split at h
  · rename_i h0
    exact Or.inl ⟨h0, startLoop_pending hs h⟩
  · rename_i h0
    cases h
    exact Or.inr ⟨h0, rfl⟩

theorem shoot_pending (hs : cfg.stamps = true) (h : shoot cfg c t = some (ms, c')) :
    ms = (pending c).takeWhile (fun s => decide (s < t)) ∧ pending c' = (pending c).dropWhile fun s => decide (s < t) := by
  rw [shoot] at h
  split at h
  · rename_i hle
    cases h
    obtain ⟨h₁, h₂⟩ := pending_of_le hle
    exact ⟨h₁.symm, h₂.symm⟩
  · rename_i hle
    exact shootLoop_pending hs (UInt64.not_le.mp hle) h

/-! ## 増える時刻 -/

theorem initial_lt (hS : S.Pairwise (· < ·)) (t : Tv) : Initial (fun s => decide (s < t)) S := by
  refine hS.imp fun {a b} hab hb => ?_
  simp only [decide_eq_true_eq] at hb ⊢
  exact UInt64.lt_trans hab hb

theorem not_decide_lt (s t : Tv) : (!decide (s < t)) = decide (t ≤ s) := by
  rw [← decide_not]
  exact decide_eq_decide.mpr UInt64.not_lt

/-- 写真を撮るべき時刻は、`t` で二つに分かれる。 -/
theorem takeWhile_from (hS : S.Pairwise (· < ·)) (t₀ t : Tv) :
    (S.filter fun s => decide (t₀ ≤ s)).takeWhile (fun s => decide (s < t)) =
      S.filter fun s => decide (t₀ ≤ s) && decide (s < t) := by
  rw [takeWhile_eq_filter ((initial_lt hS t).filter _), List.filter_filter]
  exact List.filter_congr fun s _ => Bool.and_comm _ _

theorem dropWhile_from (hS : S.Pairwise (· < ·)) {t₀ t : Tv} (h : t₀ ≤ t) :
    (S.filter fun s => decide (t₀ ≤ s)).dropWhile (fun s => decide (s < t)) = S.filter fun s => decide (t ≤ s) := by
  rw [dropWhile_eq_filter ((initial_lt hS t).filter _), List.filter_filter]
  refine List.filter_congr fun s _ => ?_
  by_cases hts : t ≤ s
  · simp [hts, UInt64.le_trans h hts]
  · simp [hts, UInt64.not_le.mp hts]

theorem filter_between (hS : S.Pairwise (· < ·)) {t₁ t₀ t : Tv} (h₁ : t₁ ≤ t₀) (h₂ : t₀ ≤ t) :
    (S.filter fun s => decide (t₁ ≤ s) && decide (s < t₀)) ++ (S.filter fun s => decide (t₀ ≤ s) && decide (s < t)) =
      S.filter fun s => decide (t₁ ≤ s) && decide (s < t) := by
  rw [← filter_split (initial_lt hS t₀) fun s => decide (t₁ ≤ s) && decide (s < t)]
  congr 1
  · refine List.filter_congr fun s _ => ?_
    by_cases hs : s < t₀
    · simp [hs, UInt64.lt_of_lt_of_le hs h₂]
    · simp [hs]
  · refine List.filter_congr fun s _ => ?_
    by_cases hs : s < t₀
    · simp [hs, UInt64.not_le.mpr hs]
    · simp [hs, UInt64.not_lt.mp hs, UInt64.le_trans h₁ (UInt64.not_lt.mp hs)]

/-! ## 実行 -/

section Run
variable {K Q : Type} [LinearOrder K] [Zero K] [LinearOrder Q] [AddCommGroup Q]
variable {hash : List UInt8 → UInt32} {C : Codec K Q} {st st' : State K Q} {line : List UInt8} {x : Xquo K Q}
variable {lines : List (List UInt8)} {rs rs' : List (Round K Q)} {ts : List Tv} {t₀ t₁ : Tv}

/-- 銘柄の指定のない表を持つ状態。 -/
structure Open (st : State K Q) : Prop where
  ok : st.tab.Ok
  zbook : st.tab.zbook = true

theorem open_init (sfil : List (List UInt8)) : Open (initState hash sfil [] : State K Q) :=
  have hok : (initTable hash (makeNamed (K := K) (Q := Q)) []).Ok := ok_initTable []
  ⟨hok, rfl⟩

theorem Open.step (hst : Open st) (hs : cfg.stamps = true) (hx : readXquo C line = some x) (ha : Accepted x)
    (h : mainStep hash cfg C st line = some (st', rs)) :
    Open st' ∧ ∃ c, start cfg st.clock x.q.t = some c ∧
      rs.map Round.metr = (pending c).takeWhile (fun s => decide (s < x.q.t)) ∧
      pending st'.clock = (pending c).dropWhile fun s => decide (s < x.q.t) := by
  obtain ⟨hz, c, k, hc, happ⟩ := applies_of_zbook hst.zbook hx ha h
  refine ⟨⟨ok_mainStep hst.ok h, hz⟩, c, hc, ?_⟩
  obtain ⟨tab, ms, c', b, _, hm, _, rfl, rfl⟩ := happ.ex
  rw [rounds_metr]
  exact shoot_pending hs hm

theorem open_mainStep (hst : Open st) (h : mainStep hash cfg C st line = some (st', rs)) : Open st' := by
  refine ⟨ok_mainStep hst.ok h, ?_⟩
  obtain ⟨x, hx, ⟨_, rfl, _⟩ | ⟨ha, _⟩⟩ := mainStep_cases h
  · exact hst.zbook
  · exact (applies_of_zbook hst.zbook hx ha h).1

theorem open_mainLoop (hst : Open st) (h : mainLoop hash cfg C st lines = some (st', rs)) : Open st' :=
  mainLoop_rule (P := fun _ s _ => Open s) hst (fun _ hst₁ hstep => open_mainStep hst₁ hstep) h

/-- 受け付ける行のある実行では、写真を撮る板は空でない。 -/
theorem Open.books (hst : Open st) (h : mainLoop hash cfg C st lines = some (st', rs)) :
    (∀ r ∈ rs, r.books ≠ []) ∧ (acceptedTimes C lines ≠ [] → st'.tab.book ≠ []) := by
  have hrule := mainLoop_rule (P := fun done s r => Open s ∧ (∀ y ∈ r, y.books ≠ []) ∧
    (acceptedTimes C done ≠ [] → s.tab.book ≠ [])) ⟨hst, fun y hy => absurd hy List.not_mem_nil, fun hne => absurd rfl hne⟩ ?_ h
  · exact hrule.2
  · rintro done line st₁ rs₁ st₂ rs₂ _ ⟨hst₁, hrs, hbook⟩ hstep
    have hst₂ : Open st₂ := open_mainStep hst₁ hstep
    obtain ⟨x, hx, ⟨hna, rfl, rfl⟩ | ⟨ha, _⟩⟩ := mainStep_cases hstep
    · refine ⟨hst₂, by rwa [List.append_nil], fun hne => hbook fun he => hne ?_⟩
      rw [acceptedTimes, List.filterMap_append, ← acceptedTimes, ← acceptedTimes, he, acceptedTimes_cons hx, if_neg hna]
      rfl
    · obtain ⟨_, c, k, _, happ⟩ := applies_of_zbook hst₁.zbook hx ha hstep
      obtain ⟨hb, hr⟩ := happ.books hst₁.ok
      refine ⟨hst₂, fun y hy => ?_, fun _ => hb⟩
      rcases List.mem_append.mp hy with hy | hy
      · exact hrs y hy
      · exact hr y hy

theorem Open.absorb (hst : Open st) (hm : st.clock.metr = natv) (hx : readXquo C line = some x) (ha : Accepted x) :
    ∃ k tab b, route hash makeNamed st.tab (insOf line x) = some (.use k, tab) ∧ tab.book[k]? = some b ∧
      mainStep hash cfg C st line = some (⟨{ tab with book := tab.book.set k (badd cfg b x.q) }, st.clock⟩, []) := by
  have hassigned : st.tab.Assigned := fun h => by
    rw [hst.zbook] at h
    cases h.2.1
  have hstart : start cfg st.clock x.q.t = some st.clock := by
    rw [start, if_neg]
    rw [hm]
    decide
  have hshoot : shoot cfg st.clock x.q.t = some ([], st.clock) := by
    rw [shoot, if_pos]
    rw [hm]
    exact le_natv _
  have hsome : (mainStep hash cfg C st line).isSome = true :=
    mainStep_isSome hx hst.ok hassigned fun _ => ⟨st.clock, hstart, by rw [hshoot]; rfl⟩
  obtain ⟨⟨st', rs⟩, hstep⟩ := Option.isSome_iff_exists.mp hsome
  obtain ⟨_, c, k, hc, happ⟩ := applies_of_zbook hst.zbook hx ha hstep
  obtain ⟨tab, ms, c', b, hr, hms, hb, rfl, rfl⟩ := happ.ex
  rw [hstart] at hc
  cases hc
  rw [hshoot] at hms
  cases hms
  exact ⟨k, tab, b, hr, hb, hstep⟩

/-- 時刻 0 が残っていない時計は、動いている。 -/
theorem metr_ne_zero (h : 0 ∉ pending c) : c.metr ≠ 0 := by
  intro h0
  have hne : c.metr ≠ natv := by
    rw [h0]
    decide
  rw [pending, if_neg hne, h0] at h
  exact h List.mem_cons_self

theorem le_getLastD (h : (t₀ :: ts).Pairwise (· ≤ ·)) : t₀ ≤ ts.getLastD t₀ := by
  cases ts with
  | nil => exact UInt64.le_refl _
  | cons t ts =>
      refine (List.pairwise_cons.mp h).1 _ ?_
      rw [List.getLastD_cons]
      exact List.getLastD_mem_cons

/-- 動いている時計は、行の列の間に、その間の時刻の写真を撮る。 -/
theorem mainLoop_stamps (hs : cfg.stamps = true) (hS : S.Pairwise (· < ·)) (hst : Open st)
    (hp : pending st.clock = S.filter fun s => decide (t₀ ≤ s)) (hts : acceptedTimes C lines = ts)
    (hsorted : (t₀ :: ts).Pairwise (· ≤ ·)) (h0 : ts = [] ∨ 0 ∉ S.filter fun s => decide (t₀ ≤ s))
    (h : mainLoop hash cfg C st lines = some (st', rs)) :
    rs.map Round.metr = (S.filter fun s => decide (t₀ ≤ s) && decide (s < ts.getLastD t₀)) ∧
    pending st'.clock = S.filter fun s => decide (ts.getLastD t₀ ≤ s) := by
  induction ts generalizing lines st t₀ rs with
  | nil =>
      obtain ⟨rfl, rfl⟩ := mainLoop_idle hts h
      refine ⟨?_, hp⟩
      refine (List.filter_eq_nil_iff.mpr fun s _ => ?_).symm
      simp [UInt64.not_lt]
  | cons t ts ih =>
      obtain ⟨line, lines', x, st₁, rs₁, rs₂, _, hx, ha, rfl, hts', h₁, h₂, rfl⟩ := mainLoop_first hts h
      have hzero := h0.resolve_left (List.cons_ne_nil _ _)
      obtain ⟨hst₁, c, hc, hms, hpend⟩ := hst.step hs hx ha h₁
      obtain ⟨hle, hrest⟩ := List.pairwise_cons.mp hsorted
      have hle' := hle x.q.t List.mem_cons_self
      rcases start_pending hs hc with ⟨hc0, _⟩ | ⟨_, rfl⟩
      · exact absurd hc0 (metr_ne_zero (by rwa [hp]))
      · rw [hp, takeWhile_from hS] at hms
        rw [hp, dropWhile_from hS hle'] at hpend
        have hzero' : 0 ∉ S.filter fun s => decide (x.q.t ≤ s) := by
          intro hmem
          rw [List.mem_filter, decide_eq_true_eq] at hmem
          exact hzero (List.mem_filter.mpr ⟨hmem.1, by simpa using UInt64.le_trans hle' hmem.2⟩)
        obtain ⟨h₃, h₄⟩ := ih hst₁ hpend hts' hrest (Or.inr hzero') h₂
        rw [List.getLastD_cons]
        refine ⟨?_, h₄⟩
        rw [List.map_append, hms, h₃, filter_between hS hle' (le_getLastD hrest)]

theorem mainStep_first (hs : cfg.stamps = true) {sfil : List (List UInt8)} (hS : (stampsOf sfil).Pairwise (· < ·))
    (hx : readXquo C line = some x) (ha : Accepted x)
    (h : mainStep hash cfg C (initState hash sfil []) line = some (st', rs)) :
    Open st' ∧ rs = [] ∧ pending st'.clock = (stampsOf sfil).filter fun s => decide (x.q.t ≤ s) := by
  obtain ⟨hst, c, hc, hms, hpend⟩ := (open_init sfil).step hs hx ha h
  rcases start_pending hs hc with ⟨_, hp⟩ | ⟨hne, _⟩
  · have hfrom : pending c = (stampsOf sfil).filter fun s => decide (x.q.t ≤ s) := by
      rw [hp, initState, initClock, dropWhile_eq_filter (initial_lt hS _)]
      exact List.filter_congr fun s _ => not_decide_lt s _
    rw [hfrom, takeWhile_from hS] at hms
    rw [hfrom, dropWhile_from hS (UInt64.le_refl _)] at hpend
    refine ⟨hst, ?_, hpend⟩
    rw [← List.map_eq_nil_iff, hms, List.filter_eq_nil_iff]
    intro s _
    simp [UInt64.not_lt]
  · exact absurd rfl hne

theorem finalRound_pending : (finalRound cfg st).map Round.metr = (pending st.clock).head?.toList := by
  unfold finalRound pending
  by_cases h : st.clock.metr = natv
  · rw [if_pos h, h, if_neg (UInt64.not_lt.mpr (UInt64.le_refl _))]
    rfl
  · have hlt : st.clock.metr < natv := UInt64.lt_of_le_of_ne (le_natv _) h
    rw [if_neg h, if_pos hlt]
    rfl

/-- 板のある写真だけならば、写真の時刻をすべて印字する。 -/
theorem times_main (hbook : st.tab.book ≠ []) (hrs : ∀ r ∈ rs, r.books ≠ []) :
    times (rs ++ finalRound cfg st) = rs.map Round.metr ++ (pending st.clock).head?.toList := by
  have hall : ∀ r ∈ rs ++ finalRound cfg st, (!r.books.isEmpty) = true := by
    intro r hr
    have hne : r.books ≠ [] := by
      rcases List.mem_append.mp hr with hr | hr
      · exact hrs r hr
      · unfold finalRound at hr
        split at hr
        · rw [List.mem_singleton.mp hr]
          simpa [expAll] using hbook
        · exact absurd hr List.not_mem_nil
    simpa using hne
  rw [times, List.filter_eq_self.mpr hall, List.map_append, finalRound_pending]

/-- 時刻 0 が残っていなければ、時刻 0 の写真は撮らない。 -/
theorem mainLoop_no_zero (hs : cfg.stamps = true) (h0 : 0 ∉ pending st.clock)
    (h : mainLoop hash cfg C st lines = some (st', rs)) : 0 ∉ rs.map Round.metr ∧ 0 ∉ pending st'.clock := by
  refine mainLoop_rule (P := fun _ s r => 0 ∉ r.map Round.metr ∧ 0 ∉ pending s.clock) ⟨List.not_mem_nil, h0⟩ ?_ h
  rintro _ line st₁ rs₁ st₂ rs₂ _ ⟨hrs, hst⟩ hstep
  obtain ⟨x, _, ⟨_, rfl, rfl⟩ | ⟨_, c, hc, hcase⟩⟩ := mainStep_cases hstep
  · rw [List.append_nil]
    exact ⟨hrs, hst⟩
  · rcases start_pending hs hc with ⟨hc0, _⟩ | ⟨_, rfl⟩
    · exact absurd hc0 (metr_ne_zero hst)
    · rcases hcase with ⟨tab, _, rfl, rfl⟩ | ⟨k, happ⟩
      · rw [List.append_nil]
        exact ⟨hrs, hst⟩
      · obtain ⟨tab, ms, c', b, _, hm, _, rfl, rfl⟩ := happ.ex
        obtain ⟨rfl, hpend⟩ := shoot_pending hs hm
        rw [List.map_append, rounds_metr, List.mem_append, not_or, hpend]
        exact ⟨⟨hrs, fun hmem => hst (List.takeWhile_subset _ hmem)⟩, fun hmem => hst (List.dropWhile_subset _ hmem)⟩

/-! ## 時刻 0 -/

theorem head_of_zero_mem (hS : S.Pairwise (· < ·)) (h : 0 ∈ S) : S.head? = some 0 := by
  cases S with
  | nil => exact absurd h List.not_mem_nil
  | cons s S =>
      rcases List.mem_cons.mp h with rfl | hmem
      · rfl
      · exact absurd ((List.pairwise_cons.mp hS).1 0 hmem) UInt64.not_lt_zero

theorem zero_mem_dueStamps (h : S.head? = some 0) (t : Tv) : 0 ∈ dueStamps S 0 t := by
  obtain ⟨S, rfl⟩ := List.head?_eq_some_iff.mp h
  rw [dueStamps, List.mem_append]
  by_cases ht : 0 < t
  · exact Or.inl (List.mem_filter.mpr ⟨List.mem_cons_self, by simpa using ht⟩)
  · refine Or.inr ?_
    rw [List.find?_cons_of_pos (by simpa using UInt64.not_lt.mp ht)]
    exact List.mem_cons_self

/-- 時計が時刻 0 にあれば、次の行は時計を動かし直し、時刻 0 の写真を失う。 -/
theorem lost_zero (hs : cfg.stamps = true) (hS : S.Pairwise (· < ·)) (hst : Open st) (hhead : S.head? = some 0)
    (hp : pending st.clock = S.filter fun s => decide (0 ≤ s)) (hts : acceptedTimes C lines = t₁ :: ts)
    (h : mainLoop hash cfg C st lines = some (st', rs)) : 0 ∉ times (rs ++ finalRound cfg st') := by
  obtain ⟨S, rfl⟩ := List.head?_eq_some_iff.mp hhead
  have hpos : 0 ∉ S := fun hmem => absurd ((List.pairwise_cons.mp hS).1 0 hmem) (UInt64.lt_irrefl 0)
  have hall : ((0 : Tv) :: S).filter (fun s => decide (0 ≤ s)) = 0 :: S := List.filter_eq_self.mpr fun s _ => by simp
  rw [hall, pending] at hp
  obtain ⟨line, lines', x, st₁, rs₁, rs₂, _, hx, ha, rfl, _, h₁, h₂, rfl⟩ := mainLoop_first hts h
  obtain ⟨_, c, hc, hms, hpend⟩ := hst.step hs hx ha h₁
  split at hp
  · cases hp
  · obtain ⟨hmetr, hrest⟩ := List.cons.inj hp
    rcases start_pending hs hc with ⟨_, hc'⟩ | ⟨hne, _⟩
    · have hzero : 0 ∉ pending c := by
        rw [hc', hrest]
        exact fun hmem => hpos (List.dropWhile_subset _ hmem)
      have hrs₁ : 0 ∉ rs₁.map Round.metr := by
        rw [hms]
        exact fun hmem => hzero (List.takeWhile_subset _ hmem)
      have hst₁ : 0 ∉ pending st₁.clock := by
        rw [hpend]
        exact fun hmem => hzero (List.dropWhile_subset _ hmem)
      obtain ⟨hrs₂, hst'⟩ := mainLoop_no_zero hs hst₁ h₂
      intro hmem
      have hmem' := (List.filter_sublist.map Round.metr).subset hmem
      rw [List.map_append, List.map_append, List.mem_append, List.mem_append, finalRound_pending] at hmem'
      rcases hmem' with (hmem' | hmem') | hmem'
      · exact hrs₁ hmem'
      · exact hrs₂ hmem'
      · exact hst' (List.mem_of_head? (Option.mem_toList.mp hmem'))
    · exact absurd hmetr hne

end Run

end Books.Booksnap
