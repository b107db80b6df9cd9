import Books.Booksnap.Lemmas.Main

/-!
# 刻みの時計

`--stamps` のない時計が、行ごとに写真を撮る時刻と、その後の時刻を求める。
-/

set_option linter.unusedSectionVars false

namespace Books.Booksnap

open Books.Btree Books.Book Books.Instr Books.Xquo

variable {cfg : Conf} {c c' : Clock} {t : Tv} {ms : List Tv}

/-- 動いている時計は、有効期限を加えても 64 ビットに収まり、`oldm` は `metr` より後にない。 -/
structure ClockOk (cfg : Conf) (c : Clock) : Prop where
  oldm : c.oldm ≤ c.metr
  small : c.metr.toNat + cfg.inva.toNat < 2 ^ 64

theorem clockOk_init (sfil : List (List UInt8)) : ClockOk cfg (initClock sfil) := by
  refine ⟨UInt64.le_refl _, ?_⟩
  have hi := cfg.inva.toNat_lt
  have h0 : (initClock sfil).metr.toNat = 0 := rfl
  omega

theorem Fits.le_roundUp (h : Fits cfg t) (hi : 0 < cfg.intv) :
    t ≤ roundUp cfg t ∧ (roundUp cfg t).toNat < t.toNat + cfg.intv.toNat := by
  unfold Fits at h
  exact roundUp_lt hi (by omega)

theorem Fits.halts (hf : Fits cfg t) (hs : cfg.stamps = false) (hi : 0 < cfg.intv) (c : Clock) : Halts cfg t c := by
  have htwo := startLoop_two hs (hf.le_roundUp hi).1 c
  exact ⟨⟨2, htwo⟩, 2, by rw [shootLoop_isSome]; exact htwo⟩

/-- 止まっている時計は、行の時刻の切り上げから動き始める。 -/
theorem start_intv (hs : cfg.stamps = false) (hi : 0 < cfg.intv) (hf : Fits cfg t) (h0 : c.metr = 0) :
    start cfg c t = some { c with metr := roundUp cfg t } := by
  have hnext : next cfg c t = { c with metr := roundUp cfg t } := by
    rw [next_intv hs, nextIntv, if_neg (fun h => h.2.1 h0)]
  rw [start, if_pos h0, Clock.bound, startLoop_succ_of_le (by rw [hnext]; exact (hf.le_roundUp hi).1), hnext]

theorem toNat_expiry (h : ClockOk cfg c) : (c.metr + cfg.inva).toNat = c.metr.toNat + cfg.inva.toNat := by
  rw [UInt64.toNat_add, Nat.mod_eq_of_lt h.small]

/-- 動いている時計が、行の前に撮る写真。 -/
theorem shoot_intv (hs : cfg.stamps = false) (hi : 0 < cfg.intv) (hf : Fits cfg t) (hok : ClockOk cfg c)
    (h0 : c.metr ≠ 0) (hlt : c.metr < t) :
    (¬ (cfg.inva ≠ 0 ∧ c.metr + cfg.inva < t) ∧ shoot cfg c t = some ([c.metr], { c with metr := roundUp cfg t })) ∨
    (cfg.inva ≠ 0 ∧ c.metr + cfg.inva < t ∧ roundUp cfg (c.metr + cfg.inva) < t ∧
      shoot cfg c t = some ([c.metr, roundUp cfg (c.metr + cfg.inva)], { c with metr := roundUp cfg t, oldm := t })) ∨
    (cfg.inva ≠ 0 ∧ c.metr + cfg.inva < t ∧ t ≤ roundUp cfg (c.metr + cfg.inva) ∧
      shoot cfg c t = some ([c.metr], { c with metr := roundUp cfg (c.metr + cfg.inva), oldm := t })) := by
  have hshoot : shoot cfg c t = shootLoop cfg t c.bound c := by rw [shoot, if_neg (UInt64.not_le.mpr hlt)]
  have hge := (hf.le_roundUp hi).1
  rw [hshoot, Clock.bound, shootLoop, next_intv hs]
  by_cases he : cfg.inva ≠ 0 ∧ c.metr + cfg.inva < t
  · -- `oldm` は `metr` より後にないので、有効期限の時刻に止まる。
    have hold : c.oldm < c.metr + cfg.inva := by
      have hle := UInt64.le_iff_toNat_le.mp hok.oldm
      have hpos : cfg.inva.toNat ≠ 0 := fun h => he.1 (UInt64.toNat_inj.mp h)
      rw [UInt64.lt_iff_toNat_lt, toNat_expiry hok]
      omega
    have hnext : nextIntv cfg c t = { c with metr := roundUp cfg (c.metr + cfg.inva), oldm := t } := by
      rw [nextIntv, if_pos ⟨he.1, h0, hold, he.2⟩]
    rw [hnext]
    by_cases hm : roundUp cfg (c.metr + cfg.inva) < t
    · refine Or.inr (Or.inl ⟨he.1, he.2, hm, ?_⟩)
      have hnext₂ : next cfg { c with metr := roundUp cfg (c.metr + cfg.inva), oldm := t } t =
          { c with metr := roundUp cfg t, oldm := t } := by
        rw [next_intv hs, nextIntv_direct (Or.inl (UInt64.le_refl _))]
      rw [if_pos hm, shootLoop, hnext₂, if_neg (UInt64.not_lt.mpr hge)]
      rfl
    · exact Or.inr (Or.inr ⟨he.1, he.2, UInt64.not_lt.mp hm, by rw [if_neg hm]⟩)
  · have hnext : nextIntv cfg c t = { c with metr := roundUp cfg t } := by
      rw [nextIntv, if_neg (fun h => he ⟨h.1, h.2.2.2⟩)]
    exact Or.inl ⟨he, by rw [hnext, if_neg (UInt64.not_lt.mpr hge)]⟩

theorem ClockOk.start (hs : cfg.stamps = false) (hi : 0 < cfg.intv) (hf : Fits cfg t) (hok : ClockOk cfg c)
    (h : start cfg c t = some c') : ClockOk cfg c' ∧ (c'.metr < t → c'.metr ≠ 0 ∧ c' = c) := by
  obtain ⟨hge, hlt⟩ := hf.le_roundUp hi
  have hle := UInt64.le_iff_toNat_le.mp hok.oldm
  by_cases h0 : c.metr = 0
  · rw [start_intv hs hi hf h0] at h
    cases h
    refine ⟨⟨?_, ?_⟩, fun hc => absurd hc (UInt64.not_lt.mpr hge)⟩
    · have h0' : c.metr.toNat = 0 := by rw [h0]; rfl
      rw [UInt64.le_iff_toNat_le]
      simp only
      omega
    · unfold Fits at hf
      simp only
      omega
  · rw [Booksnap.start, if_neg h0] at h
    cases h
    exact ⟨hok, fun _ => ⟨h0, rfl⟩⟩

theorem ClockOk.shoot (hs : cfg.stamps = false) (hi : 0 < cfg.intv) (hf : Fits cfg t) (hok : ClockOk cfg c)
    (h0 : c.metr < t → c.metr ≠ 0) (h : shoot cfg c t = some (ms, c')) : ClockOk cfg c' := by
  obtain ⟨hge, hlt⟩ := hf.le_roundUp hi
  have hge' := UInt64.le_iff_toNat_le.mp hge
  have hle := UInt64.le_iff_toNat_le.mp hok.oldm
  unfold Fits at hf
  by_cases ht : t ≤ c.metr
  · rw [Booksnap.shoot, if_pos ht] at h
    cases h
    exact hok
  · have ht' := UInt64.not_le.mp ht
    have ht'' := UInt64.lt_iff_toNat_lt.mp ht'
    rcases shoot_intv hs hi hf hok (h0 ht') ht' with ⟨_, he⟩ | ⟨_, _, _, he⟩ | ⟨_, hexp, hm, he⟩
    · rw [he] at h
      cases h
      refine ⟨UInt64.le_iff_toNat_le.mpr ?_, ?_⟩
      · simp only; omega
      · simp only; omega
    · rw [he] at h
      cases h
      refine ⟨hge, ?_⟩
      simp only; omega
    · rw [he] at h
      cases h
      refine ⟨hm, ?_⟩
      have hexp' := UInt64.lt_iff_toNat_lt.mp hexp
      have hr := (roundUp_lt (x := c.metr + cfg.inva) hi (by omega)).2
      simp only; omega

/-! ## 刻みの上の時計 -/

section Grid
variable {o : Int}

/-- 動いている時計は、`offs` より後の刻みにある。 -/
structure Ticking (cfg : Conf) (o : Int) (c : Clock) : Prop where
  ok : ClockOk cfg c
  grid : OnGrid cfg.intv o c.metr.toNat
  offs : cfg.offs < c.metr

theorem Ticking.ne_zero (h : Ticking cfg o c) : c.metr ≠ 0 := by
  intro h0
  have hlt := UInt64.lt_iff_toNat_lt.mp h.offs
  rw [h0] at hlt
  exact absurd hlt (Nat.not_lt_zero _)

/-- 行の時刻の切り上げに置いた時計。`oldm` は、行の時刻より後にない。 -/
theorem ticking_roundUp (hi : 0 < cfg.intv) (hoffs : OnGrid cfg.intv o cfg.offs.toNat) (hf : Fits cfg t) (ho : cfg.offs < t)
    (hc : c.metr = roundUp cfg t) (hold : c.oldm ≤ t) :
    Ticking cfg o c ∧ IsLeast (gridFrom cfg.intv o t.toNat) c.metr.toNat := by
  obtain ⟨hge, hlt⟩ := hf.le_roundUp hi
  unfold Fits at hf
  have hleast := roundUp_isLeast hi hoffs ho (by omega)
  rw [← hc] at hge hlt hleast
  refine ⟨⟨⟨UInt64.le_trans hold hge, by omega⟩, hleast.1.2, UInt64.lt_of_lt_of_le ho hge⟩, hleast⟩

theorem start_ticking (hs : cfg.stamps = false) (hi : 0 < cfg.intv) (hoffs : OnGrid cfg.intv o cfg.offs.toNat)
    (hf : Fits cfg t) (ho : cfg.offs < t) (hok : ClockOk cfg c) (hc : c.metr ≠ 0 → Ticking cfg o c)
    (h : start cfg c t = some c') :
    Ticking cfg o c' ∧ (c' = c ∨ (c.metr = 0 ∧ IsLeast (gridFrom cfg.intv o t.toNat) c'.metr.toNat)) := by
  by_cases h0 : c.metr = 0
  · rw [start_intv hs hi hf h0] at h
    cases h
    have hold : c.oldm ≤ t := by
      have hle := UInt64.le_iff_toNat_le.mp hok.oldm
      have h0' : c.metr.toNat = 0 := by rw [h0]; rfl
      rw [UInt64.le_iff_toNat_le]
      omega
    obtain ⟨ht, hl⟩ := ticking_roundUp (c := { c with metr := roundUp cfg t }) hi hoffs hf ho rfl hold
    exact ⟨ht, Or.inr ⟨h0, hl⟩⟩
  · rw [Booksnap.start, if_neg h0] at h
    cases h
    exact ⟨hc h0, Or.inl rfl⟩

/-- 行の前に写真を撮る時刻 `ms` と、その後の時計 `c'`。 -/
structure Shots (cfg : Conf) (o : Int) (c : Clock) (t : Tv) (ms : List Tv) (c' : Clock) : Prop where
  ticking : Ticking cfg o c'
  le : t ≤ c'.metr
  mono : c.metr ≤ c'.metr
  least : c'.metr ≠ c.metr → IsLeast (gridFrom cfg.intv o t.toNat) c'.metr.toNat
  length : ms.length ≤ 2
  sorted : ms.Pairwise (· < ·)
  mem : ∀ m ∈ ms, c.metr ≤ m ∧ m < t ∧ OnGrid cfg.intv o m.toNat
  expiry : cfg.inva ≠ 0 → ∀ p, IsLeast (gridFrom cfg.intv o (c.metr.toNat + cfg.inva.toNat)) p → p < t.toNat →
    ms.map UInt64.toNat = [c.metr.toNat, p]

theorem shoot_ticking (hs : cfg.stamps = false) (hi : 0 < cfg.intv) (hoffs : OnGrid cfg.intv o cfg.offs.toNat)
    (hf : Fits cfg t) (ho : cfg.offs < t) (hc : Ticking cfg o c) (h : shoot cfg c t = some (ms, c')) :
    Shots cfg o c t ms c' := by
  by_cases ht : t ≤ c.metr
  · rw [Booksnap.shoot, if_pos ht] at h
    cases h
    refine ⟨hc, ht, UInt64.le_refl _, fun hne => absurd rfl hne, Nat.zero_le _, .nil, fun m hm => absurd hm List.not_mem_nil,
      fun _ p hp hlt => ?_⟩
    have hle : c.metr.toNat + cfg.inva.toNat ≤ p := hp.1.1
    have := UInt64.le_iff_toNat_le.mp ht
    omega
  · have ht' := UInt64.not_le.mp ht
    have hone : ∀ m ∈ [c.metr], c.metr ≤ m ∧ m < t ∧ OnGrid cfg.intv o m.toNat := by
      intro m hm
      rw [List.mem_singleton.mp hm]
      exact ⟨UInt64.le_refl _, ht', hc.grid⟩
    -- 有効期限の時刻は、行の時刻より前ならば、やはり刻みに切り上げられる。
    have hleast : c.metr + cfg.inva < t → IsLeast (gridFrom cfg.intv o (c.metr.toNat + cfg.inva.toNat))
        (roundUp cfg (c.metr + cfg.inva)).toNat := by
      intro he
      have he' := UInt64.lt_iff_toNat_lt.mp he
      have hoffs' : cfg.offs < c.metr + cfg.inva := by
        have := UInt64.lt_iff_toNat_lt.mp hc.offs
        rw [UInt64.lt_iff_toNat_lt, toNat_expiry hc.ok]
        omega
      unfold Fits at hf
      have := roundUp_isLeast hi hoffs hoffs' (by omega)
      rwa [toNat_expiry hc.ok] at this
    have hold : c.oldm ≤ t := UInt64.le_trans hc.ok.oldm (UInt64.le_of_lt ht')
    rcases shoot_intv hs hi hf hc.ok hc.ne_zero ht' with ⟨hne, he⟩ | ⟨hinva, hexp, hm, he⟩ | ⟨hinva, hexp, hm, he⟩
    · rw [he] at h
      cases h
      obtain ⟨hT, hL⟩ := ticking_roundUp (c := { c with metr := roundUp cfg t }) hi hoffs hf ho rfl hold
      have hge := (hf.le_roundUp hi).1
      refine ⟨hT, hge, UInt64.le_trans (UInt64.le_of_lt ht') hge, fun _ => hL, Nat.le_succ 1,
        List.pairwise_singleton _ _, hone, fun hinva p hp hlt => ?_⟩
      refine absurd ⟨hinva, ?_⟩ hne
      have hle : c.metr.toNat + cfg.inva.toNat ≤ p := hp.1.1
      rw [UInt64.lt_iff_toNat_lt, toNat_expiry hc.ok]
      omega
    · rw [he] at h
      cases h
      obtain ⟨hT, hL⟩ := ticking_roundUp (c := { c with metr := roundUp cfg t, oldm := t }) hi hoffs hf ho rfl (UInt64.le_refl _)
      have hge := (hf.le_roundUp hi).1
      have hlt : c.metr < roundUp cfg (c.metr + cfg.inva) := by
        have hle : c.metr.toNat + cfg.inva.toNat ≤ _ := (hleast hexp).1.1
        have hpos : cfg.inva.toNat ≠ 0 := fun h => hinva (UInt64.toNat_inj.mp h)
        rw [UInt64.lt_iff_toNat_lt]
        omega
      refine ⟨hT, hge, UInt64.le_trans (UInt64.le_of_lt ht') hge, fun _ => hL, Nat.le_refl 2, ?_, fun m hmem => ?_,
        fun _ p hp _ => ?_⟩
      · exact List.Pairwise.cons (fun m hmem => by rw [List.mem_singleton.mp hmem]; exact hlt) (List.pairwise_singleton _ _)
      · rcases List.mem_cons.mp hmem with rfl | hmem
        · exact hone _ List.mem_cons_self
        · rw [List.mem_singleton.mp hmem]
          exact ⟨UInt64.le_of_lt hlt, hm, (hleast hexp).1.2⟩
      · rw [hp.unique (hleast hexp)]
        rfl
    · rw [he] at h
      cases h
      have hL := hleast hexp
      have hmetr : c.metr ≤ roundUp cfg (c.metr + cfg.inva) := UInt64.le_trans (UInt64.le_of_lt ht') hm
      -- 有効期限の刻みが行の時刻より前にないので、行の時刻以上の最小の刻みと一致する。
      have hL' : IsLeast (gridFrom cfg.intv o t.toNat) (roundUp cfg (c.metr + cfg.inva)).toNat := by
        refine ⟨⟨UInt64.le_iff_toNat_le.mp hm, hL.1.2⟩, fun m hmem => hL.2 ⟨?_, hmem.2⟩⟩
        have h₁ : t.toNat ≤ m := hmem.1
        have h₂ := UInt64.lt_iff_toNat_lt.mp hexp
        rw [toNat_expiry hc.ok] at h₂
        omega
      have hok : ClockOk cfg { c with metr := roundUp cfg (c.metr + cfg.inva), oldm := t } :=
        hc.ok.shoot hs hi hf (fun _ => hc.ne_zero) he
      refine ⟨⟨hok, hL.1.2, UInt64.lt_of_lt_of_le hc.offs hmetr⟩, hm, hmetr, fun _ => hL', Nat.le_succ 1,
        List.pairwise_singleton _ _, hone, fun _ p hp hlt => ?_⟩
      rw [hp.unique hL] at hlt
      exact absurd (UInt64.le_iff_toNat_le.mp hm) (Nat.not_le.mpr hlt)

end Grid

/-! ## 実行 -/

section Run
variable {K Q : Type} [LinearOrder K] [Zero K] [LinearOrder Q] [AddCommGroup Q]
variable {hash : List UInt8 → UInt32} {C : Codec K Q} {st st' : State K Q} {line : List UInt8} {o : Int}
variable {done lines : List (List UInt8)} {rs rs' : List (Round K Q)}

/-- 刻みの時計での、実行の不変条件。 -/
structure Beats (cfg : Conf) (C : Codec K Q) (o : Int) (done : List (List UInt8)) (st : State K Q)
    (rs : List (Round K Q)) : Prop where
  ok : ClockOk cfg st.clock
  idle : st.clock.metr = 0 → Idle C done
  ticking : st.clock.metr ≠ 0 → Ticking cfg o st.clock
  past : ∀ m ∈ rs.map Round.metr, m < st.clock.metr ∧ OnGrid cfg.intv o m.toNat
  sorted : (rs.map Round.metr).Pairwise (· < ·)

theorem beats_init (sfil instr : List (List UInt8)) : Beats (K := K) (Q := Q) cfg C o [] (initState hash sfil instr) [] :=
  ⟨clockOk_init sfil, fun _ _ hmem => absurd hmem List.not_mem_nil, fun h => absurd rfl h,
    fun _ hm => absurd hm List.not_mem_nil, .nil⟩

theorem Beats.shots (hs : cfg.stamps = false) (hi : 0 < cfg.intv) (hoffs : OnGrid cfg.intv o cfg.offs.toNat)
    {x : Xquo K Q} {k : Nat} (hx : Fits cfg x.q.t ∧ cfg.offs < x.q.t) (hb : Beats cfg C o done st rs)
    (hc : start cfg st.clock x.q.t = some c) (ha : Applies hash cfg st line x c k st' rs') :
    Shots cfg o c x.q.t (rs'.map Round.metr) st'.clock := by
  obtain ⟨hT, _⟩ := start_ticking hs hi hoffs hx.1 hx.2 hb.ok hb.ticking hc
  obtain ⟨tab, ms, c', b, _, hm, _, rfl, rfl⟩ := ha.ex
  rw [rounds_metr]
  exact shoot_ticking hs hi hoffs hx.1 hx.2 hT hm

theorem Beats.step (hs : cfg.stamps = false) (hi : 0 < cfg.intv) (hoffs : OnGrid cfg.intv o cfg.offs.toNat)
    (hline : ∀ x, readXquo C line = some x → Accepted x → Fits cfg x.q.t ∧ cfg.offs < x.q.t)
    (hb : Beats cfg C o done st rs) (h : mainStep hash cfg C st line = some (st', rs')) :
    Beats cfg C o (done ++ [line]) st' (rs ++ rs') := by
  obtain ⟨x, hx, ⟨hna, rfl, rfl⟩ | ⟨ha, c, hc, hcase⟩⟩ := mainStep_cases h
  · rw [List.append_nil]
    refine ⟨hb.ok, fun h0 l hmem y hy => ?_, hb.ticking, hb.past, hb.sorted⟩
    rcases List.mem_append.mp hmem with hmem | hmem
    · exact hb.idle h0 l hmem y hy
    · rw [List.mem_singleton.mp hmem, hx] at hy
      cases hy
      exact hna
  · obtain ⟨hf, ho⟩ := hline x hx ha
    obtain ⟨hT, hmove⟩ := start_ticking hs hi hoffs hf ho hb.ok hb.ticking hc
    have hle : st.clock.metr ≤ c.metr := by
      rcases hmove with rfl | ⟨h0, _⟩
      · exact UInt64.le_refl _
      · rw [h0, UInt64.le_iff_toNat_le]
        exact Nat.zero_le _
    rcases hcase with ⟨tab, _, rfl, rfl⟩ | ⟨k, happ⟩
    · rw [List.append_nil]
      exact ⟨hT.ok, fun h0 => absurd h0 hT.ne_zero, fun _ => hT,
        fun m hm => ⟨UInt64.lt_of_lt_of_le (hb.past m hm).1 hle, (hb.past m hm).2⟩, hb.sorted⟩
    · have hshots := hb.shots hs hi hoffs ⟨hf, ho⟩ hc happ
      refine ⟨hshots.ticking.ok, fun h0 => absurd h0 hshots.ticking.ne_zero, fun _ => hshots.ticking, fun m hm => ?_, ?_⟩
      · rw [List.map_append, List.mem_append] at hm
        rcases hm with hm | hm
        · exact ⟨UInt64.lt_of_lt_of_le (hb.past m hm).1 (UInt64.le_trans hle hshots.mono), (hb.past m hm).2⟩
        · obtain ⟨_, hlt, hgrid⟩ := hshots.mem m hm
          exact ⟨UInt64.lt_of_lt_of_le hlt hshots.le, hgrid⟩
      · rw [List.map_append, List.pairwise_append]
        refine ⟨hb.sorted, hshots.sorted, fun m hm m' hm' => ?_⟩
        exact UInt64.lt_of_lt_of_le (hb.past m hm).1 (UInt64.le_trans hle (hshots.mem m' hm').1)

theorem beats_run (hs : cfg.stamps = false) (hi : 0 < cfg.intv) (hoffs : OnGrid cfg.intv o cfg.offs.toNat)
    (hlines : ∀ line ∈ lines, ∀ x, readXquo C line = some x → Accepted x → Fits cfg x.q.t ∧ cfg.offs < x.q.t)
    {sfil instr : List (List UInt8)} (h : mainLoop hash cfg C (initState hash sfil instr) lines = some (st, rs)) :
    Beats cfg C o lines st rs :=
  mainLoop_rule (P := Beats cfg C o) (beats_init sfil instr)
    (fun hmem hb hstep => hb.step hs hi hoffs (hlines _ (mem_of_step hmem)) hstep) h

theorem mem_times {m : Tv} (h : m ∈ times rs) : m ∈ rs.map Round.metr :=
  (List.filter_sublist.map Round.metr).subset h

theorem Processes.metronomeLine (hs : cfg.stamps = false) (hi : 0 < cfg.intv) (hoffs : OnGrid cfg.intv o cfg.offs.toNat)
    (hlines : ∀ line ∈ lines, ∀ x, readXquo C line = some x → Accepted x → Fits cfg x.q.t ∧ cfg.offs < x.q.t)
    {sfil instr : List (List UInt8)} (h : Processes hash cfg C (initState hash sfil instr) lines st c t st' rs) :
    MetronomeLine cfg o st.clock c st'.clock t rs := by
  obtain ⟨pre, line, post, x, rs₀, k, tab, rfl, hpre, hx, ha, rfl, hc, hr, hstep⟩ := h
  have hb := beats_run hs hi hoffs (fun l hl => hlines l (List.mem_append_left _ hl)) hpre
  obtain ⟨hf, ho⟩ := hlines line (List.mem_append_right _ List.mem_cons_self) x hx ha
  obtain ⟨hT, hmove⟩ := start_ticking hs hi hoffs hf ho hb.ok hb.ticking hc
  have hshots : Shots cfg o c x.q.t (rs.map Round.metr) st'.clock := by
    obtain ⟨c₁, hc₁, ⟨tab₁, hr₁, _⟩ | ⟨k₁, happ⟩⟩ := mainStep_accepted hx ha hstep
    · rw [hr] at hr₁
      cases hr₁
    · rw [hc] at hc₁
      cases hc₁
      exact hb.shots hs hi hoffs ⟨hf, ho⟩ hc happ
  refine ⟨hshots.le, fun hne => ?_, ?_, fun hinva p hp hlt => ?_⟩
  · by_cases hc' : st'.clock.metr = c.metr
    · rcases hmove with rfl | ⟨_, hl⟩
      · exact absurd hc' hne
      · rwa [hc']
    · exact hshots.least hc'
  · rw [← List.length_map (f := Round.metr)]
    exact hshots.length
  · have := hshots.expiry hinva p hp hlt
    rwa [List.map_map] at this

/-- 動いている時計での最後の写真は、それまでの写真より後の刻みで撮る。 -/
theorem metronomic_of_beats (hb : Beats cfg C o done st rs) (hT : Ticking cfg o st.clock) :
    Metronomic cfg o (rs ++ finalRound cfg st) := by
  have hfinal : ∀ m ∈ (finalRound cfg st).map Round.metr, m = st.clock.metr := by
    intro m hm
    unfold finalRound at hm
    split at hm
    · exact List.mem_singleton.mp hm
    · exact absurd hm List.not_mem_nil
  have hsorted : ((finalRound cfg st).map Round.metr).Pairwise (· < ·) := by
    unfold finalRound
    split
    · exact List.pairwise_singleton _ _
    · exact .nil
  have hall : ((rs ++ finalRound cfg st).map Round.metr).Pairwise (· < ·) := by
    rw [List.map_append, List.pairwise_append]
    refine ⟨hb.sorted, hsorted, fun m hm m' hm' => ?_⟩
    rw [hfinal m' hm']
    exact (hb.past m hm).1
  refine ⟨fun m hm => ?_, hall.sublist (List.filter_sublist.map Round.metr)⟩
  have hm' := mem_times hm
  rw [List.map_append, List.mem_append] at hm'
  rcases hm' with hm' | hm'
  · exact (hb.past m hm').2
  · rw [hfinal m hm']
    exact hT.grid

theorem finalRound_init (sfil instr : List (List UInt8)) : finalRound (K := K) (Q := Q) cfg (initState hash sfil instr) =
    [⟨0, expAll cfg 0 (initTable hash makeNamed instr).book⟩] := by
  have h0 : (0 : Tv) < natv := by decide
  rw [finalRound, initState, initClock, if_pos h0]

end Run

end Books.Booksnap
