import Books.Booksnap.Lemmas.Content
import Books.Xquo.Theorems

/-!
# `booksnap` の主定理
-/

namespace Books.Booksnap

open Books.Btree Books.Book Books.Instr Books.Xquo

/-! ## 繰り返しの停止 -/

/-- 時計がどこにあっても時刻 `t` の行の繰り返しが終わるのは、`t` を刻みに切り上げても 64 ビットを超えないときで、そのときに限る。 -/
theorem loops_halt_iff (cfg : Conf) (hs : cfg.stamps = false) (hi : 0 < cfg.intv) (t : Tv) :
    (∀ c, Halts cfg t c) ↔ t.toNat + excess cfg t < 2 ^ 64 := by
  rw [← le_roundUp_iff hi]
  constructor
  · intro h
    by_contra ht
    -- `oldm` が最も後にある時計は、有効期限の時刻に止まらない。
    obtain ⟨⟨n, hn⟩, _⟩ := h ⟨0, natv, []⟩
    rw [startLoop_stuck hs (UInt64.not_le.mp ht) (Or.inl (le_natv t))] at hn
    cases hn
  · intro ht c
    have htwo := startLoop_two hs ht c
    exact ⟨⟨2, htwo⟩, 2, by rw [shootLoop_isSome]; exact htwo⟩

theorem loops_halt_second : Halts ⟨nsecs, 0, 0, false⟩ 5 (initClock []) :=
  (loops_halt_iff ⟨nsecs, 0, 0, false⟩ rfl (by decide) 5).mpr (by decide) (initClock [])

/-- 時刻 `18446744073.709551614` を一秒の刻みに切り上げると一周し、初めの繰り返しが終わらない。 -/
theorem start_loops_forever :
    strtotv [49, 56, 52, 52, 54, 55, 52, 52, 48, 55, 51, 46, 55, 48, 57, 53, 53, 49, 54, 49, 52, 9] = natv - 1 ∧
    ¬ Halts ⟨nsecs, 0, 0, false⟩ (natv - 1) (initClock []) := by
  refine ⟨by decide, fun h => ?_⟩
  obtain ⟨⟨n, hn⟩, _⟩ := h
  have hlt : roundUp ⟨nsecs, 0, 0, false⟩ (natv - 1) < natv - 1 := by decide
  rw [startLoop_stuck rfl hlt (Or.inr rfl)] at hn
  cases hn

/-! ## 刻みの時計 -/

section Metronome
variable {K Q : Type} [LinearOrder K] [Zero K] [LinearOrder Q] [AddCommGroup Q]

/-- 刻みの時計での写真の時刻。時計が動かないまま最後の写真を撮ると、その時刻は 0 になる。 -/
theorem metronome_iff (hash : List UInt8 → UInt32) (cfg : Conf) (C : Codec K Q) (o : Int)
    (sfil instr lines : List (List UInt8)) (hs : cfg.stamps = false) (hi : 0 < cfg.intv) (h₁ : -2 ^ 63 ≤ o)
    (h₂ : o < 2 ^ 63) (hoffs : cfg.offs = canonicalise cfg.intv o)
    (hlines : ∀ line ∈ lines, ∀ x, readXquo C line = some x → Accepted x → Fits cfg x.q.t ∧ cfg.offs < x.q.t) :
    ((instr = [] ∨ ∃ n ∈ instr, catchAll n = false) → (∀ line ∈ lines, (readXquo C line).isSome = true) →
      (main hash cfg C sfil instr lines).isSome = true) ∧
    ∀ rs, main hash cfg C sfil instr lines = some rs →
      ((Metronomic cfg o rs ∧ ∀ st c t st' rs',
        Processes hash cfg C (initState hash sfil instr) lines st c t st' rs' →
          MetronomeLine cfg o st.clock c st'.clock t rs') ↔
      instr = [] ∨ ¬ Idle C lines ∨ OnGrid cfg.intv o 0) := by
  have hgrid : OnGrid cfg.intv o cfg.offs.toNat := by
    rw [hoffs]
    exact canonicalise_onGrid hi h₁ h₂
  refine ⟨fun hinstr hread => main_isSome hinstr hread (fun l hl x hx ha => (hlines l hl x hx ha).1.halts hs hi), ?_⟩
  intro rs hrs
  obtain ⟨st, rs', hloop, rfl⟩ := main_eq_some_iff.mp hrs
  have hb := beats_run hs hi hgrid hlines hloop
  constructor
  · rintro ⟨⟨hall, _⟩, _⟩
    by_cases hinstr : instr = []
    · exact Or.inl hinstr
    · by_cases hidle : Idle C lines
      · -- 時計も板も初めのままなので、最後の写真の時刻は 0 である。
        obtain ⟨rfl, rfl⟩ := mainLoop_idle hidle.acceptedTimes hloop
        refine Or.inr (Or.inr (hall 0 ?_))
        have hne : (initTable hash (makeNamed (K := K) (Q := Q)) instr).book ≠ [] :=
          fun h => hinstr (initTable_book_eq_nil_iff.mp h)
        rw [List.nil_append, finalRound_init]
        simp [times, expAll, hne]
      · exact Or.inr (Or.inl hidle)
  · intro hcond
    refine ⟨?_, fun st c t st' rs' h => h.metronomeLine hs hi hgrid hlines⟩
    by_cases h0 : st.clock.metr = 0
    · obtain ⟨rfl, rfl⟩ := mainLoop_idle (hb.idle h0).acceptedTimes hloop
      rw [List.nil_append, finalRound_init]
      rcases hcond with rfl | hidle | hzero
      · exact ⟨fun m hm => absurd hm List.not_mem_nil, List.Pairwise.nil⟩
      · exact absurd (hb.idle h0) hidle
      · refine ⟨fun m hm => ?_, (List.pairwise_singleton _ _).sublist (List.filter_sublist.map Round.metr)⟩
        rw [List.mem_singleton.mp (mem_times hm)]
        exact hzero
    · exact metronomic_of_beats hb (hb.ticking h0)

/-- 一秒の刻みで、時刻 1 秒の行が一つある入力。 -/
theorem metronome_iff_ask : ∃ rs, main (fun _ => 0) ⟨nsecs, 5, 0, false⟩ intCodec [] [[88]] [askLine] = some rs ∧
    Metronomic ⟨nsecs, 5, 0, false⟩ 5 rs := by
  have hread : readXquo intCodec askLine = some ⟨⟨.ask, .lvl2, some 5, 1, nsecs⟩, 2, 1⟩ := by decide
  have hlines : ∀ line ∈ [askLine], ∀ x, readXquo intCodec line = some x → Accepted x →
      Fits ⟨nsecs, 5, 0, false⟩ x.q.t ∧ (5 : Tv) < x.q.t := by
    intro line hl x hx _
    rw [List.mem_singleton.mp hl, hread] at hx
    cases hx
    exact ⟨by unfold Fits; decide, by decide⟩
  obtain ⟨hsome, hiff⟩ := metronome_iff (fun _ => 0) ⟨nsecs, 5, 0, false⟩ intCodec 5 [] [[88]] [askLine] rfl (by decide)
    (by decide) (by decide) (by decide) hlines
  obtain ⟨rs, hrs⟩ := Option.isSome_iff_exists.mp (hsome (Or.inr ⟨[88], by decide, by decide⟩) (fun l hl => by
    rw [List.mem_singleton.mp hl, hread]
    rfl))
  refine ⟨rs, hrs, ((hiff rs hrs).mpr (Or.inr (Or.inl (fun hidle => ?_)))).1⟩
  exact hidle askLine List.mem_cons_self _ hread ⟨by decide, by decide⟩

/-- 入力が空でも、指定した銘柄の板の写真を時刻 0 で撮る。0 は、5 から一秒おきの刻みにない。 -/
theorem final_snapshot_at_zero : ∃ rs, main (fun _ => 0) ⟨nsecs, 5, 0, false⟩ intCodec [] [[88]] [] = some rs ∧
    canonicalise nsecs 5 = 5 ∧ times rs = [0] ∧ ¬ Metronomic ⟨nsecs, 5, 0, false⟩ 5 rs := by
  refine ⟨_, rfl, by decide, rfl, fun h => ?_⟩
  have hzero := h.1 0 List.mem_cons_self
  exact absurd hzero (by unfold OnGrid; decide)

end Metronome

/-! ## 時刻を読む時計 -/

section Stamps
variable {K Q : Type} [LinearOrder K] [Zero K] [LinearOrder Q] [AddCommGroup Q]

/-- `--stamps` のファイルの時刻が増えるときの、写真の時刻。初めの時刻と初めの行の時刻が共に 0 であると、次の行は、時計が
まだ動いていないとみなす。 -/
theorem stamps_iff (hash : List UInt8 → UInt32) (cfg : Conf) (C : Codec K Q) (sfil lines : List (List UInt8))
    (hs : cfg.stamps = true) (hS : (stampsOf sfil).Pairwise (· < ·)) {t₁ : Tv} {ts : List Tv}
    (hts : acceptedTimes C lines = t₁ :: ts) (hsorted : (t₁ :: ts).Pairwise (· ≤ ·)) :
    ((∀ line ∈ lines, (readXquo C line).isSome = true) → (main hash cfg C sfil [] lines).isSome = true) ∧
    ∀ rs, main hash cfg C sfil [] lines = some rs →
      ((times rs = dueStamps (stampsOf sfil) t₁ (ts.getLastD t₁) ∧ Absorbs hash cfg C (initState hash sfil []) lines) ↔
      ¬ ((stampsOf sfil).head? = some 0 ∧ t₁ = 0 ∧ ts ≠ [])) := by
  refine ⟨fun hread => main_isSome (Or.inl rfl) hread (fun l hl x _ _ c => halts_stmp hs c), fun rs hrs => ?_⟩
  obtain ⟨st, rs', hloop, rfl⟩ := main_eq_some_iff.mp hrs
  obtain ⟨line, lines', x, st₁, rs₁, rs₂, _, hx, ha, rfl, hts', h₁, h₂, rfl⟩ := mainLoop_first hts hloop
  obtain ⟨hst, rfl, hp⟩ := mainStep_first hs hS hx ha h₁
  constructor
  · rintro ⟨htimes, _⟩ ⟨hhead, h0, hne⟩
    obtain ⟨t₂, ts, rfl⟩ := List.exists_cons_of_ne_nil hne
    refine lost_zero hs hS hst hhead (by rw [hp, h0]) hts' h₂ ?_
    rw [List.nil_append] at htimes
    rw [htimes, h0]
    exact zero_mem_dueStamps hhead _
  · intro hcond
    refine ⟨?_, fun pre line post st rs₀ x hsplit hpre hm hx ha => ?_⟩
    · have h0 : ts = [] ∨ 0 ∉ (stampsOf sfil).filter fun s => decide (x.q.t ≤ s) := by
        by_contra hno
        rw [not_or, not_not, List.mem_filter, decide_eq_true_eq] at hno
        exact hcond ⟨head_of_zero_mem hS hno.2.1, UInt64.le_antisymm hno.2.2 UInt64.zero_le, hno.1⟩
      obtain ⟨hms, hpend⟩ := mainLoop_stamps hs hS hst hp hts' hsorted h0 h₂
      obtain ⟨hbooks, hbook⟩ := (open_init sfil).books hloop
      rw [times_main (hbook (by rw [hts]; exact List.cons_ne_nil _ _)) hbooks, List.nil_append, hms, hpend, List.head?_filter]
      rfl
    · have hopen : Open st := open_mainLoop (open_init sfil) hpre
      exact hopen.absorb hm hx ha

/-- 時刻 1 秒と 2 秒のファイルで、時刻 1 秒の行が一つある入力。 -/
theorem stamps_iff_ask : ∃ rs, main (fun _ => 0) ⟨1, 0, 0, true⟩ intCodec [[49, 10], [50, 10]] [] [askLine] = some rs ∧
    times rs = [nsecs] := by
  have hread : readXquo intCodec askLine = some ⟨⟨.ask, .lvl2, some 5, 1, nsecs⟩, 2, 1⟩ := by decide
  have hstamps : stampsOf [[49, 10], [50, 10]] = [nsecs, 2 * nsecs] := by decide
  have hts : acceptedTimes intCodec [askLine] = nsecs :: [] := by decide
  obtain ⟨hsome, hiff⟩ := stamps_iff (fun _ => 0) ⟨1, 0, 0, true⟩ intCodec [[49, 10], [50, 10]] [askLine] rfl
    (by rw [hstamps]; decide) hts (List.pairwise_singleton _ _)
  obtain ⟨rs, hrs⟩ := Option.isSome_iff_exists.mp (hsome (fun l hl => by
    rw [List.mem_singleton.mp hl, hread]
    rfl))
  refine ⟨rs, hrs, ((hiff rs hrs).mpr (fun h => h.2.2 rfl)).1.trans ?_⟩
  rw [hstamps]
  decide

/-- 時刻 `36028797018963968` 秒は、64 ビットの計算で 0 になる。 -/
def zeroLine : List UInt8 :=
  [51, 54, 48, 50, 56, 55, 57, 55, 48, 49, 56, 57, 54, 51, 57, 54, 56, 9, 88, 9, 65, 50, 9, 53, 9, 49, 10]

/-- 時刻 0 の行が二つあると、時刻 0 の写真を撮らない。 -/
theorem zero_stamp_lost : acceptedTimes intCodec [zeroLine, zeroLine] = [0, 0] ∧ stampsOf [zeroLine.take 17] = [0] ∧
    (main (fun _ => 0) ⟨1, 0, 0, true⟩ intCodec [zeroLine.take 17] [] [zeroLine, zeroLine]).map times = some [] ∧
    dueStamps (stampsOf [zeroLine.take 17]) 0 0 = [0] := by
  refine ⟨?_, ?_, ?_, ?_⟩ <;> decide

end Stamps

/-! ## 写真の中身 -/

section Content
variable {K Q : Type} [LinearOrder K] [Zero K] [LinearOrder Q] [AddCommGroup Q]

/-- 時刻の戻らない入力では、どの写真にも、その時刻までの気配から定まる中身が見える。 -/
theorem snapshots_show (hash : List UInt8 → UInt32) (cfg : Conf) (C : Codec K Q) (sfil instr lines : List (List UInt8))
    (hS : cfg.stamps = true → (stampsOf sfil).Pairwise (· ≤ ·)) (hi : cfg.stamps = false → 0 < cfg.intv)
    (hsorted : (acceptedTimes C lines).Pairwise (· ≤ ·))
    (hq : ∀ line ∈ lines, ∀ x, readXquo C line = some x → Accepted x → levelled x.q = true ∧ Fits cfg x.q.t) :
    ((instr = [] ∨ ∃ n ∈ instr, catchAll n = false) → (∀ line ∈ lines, (readXquo C line).isSome = true) →
      (main hash cfg C sfil instr lines).isSome = true) ∧
    ∀ rs, main hash cfg C sfil instr lines = some rs → ∃ tab, collect hash C instr lines = some tab ∧
      ∀ r ∈ rs, ShowsContent cfg.inva tab r := by
  refine ⟨fun hinstr hread => main_isSome hinstr hread (fun l hl x hx ha c => ?_), fun rs hrs => ?_⟩
  · cases hs : cfg.stamps with
    | true => exact halts_stmp hs c
    | false => exact (hq l hl x hx ha).2.halts hs (hi hs) c
  · obtain ⟨st, rs', hloop, rfl⟩ := main_eq_some_iff.mp hrs
    obtain ⟨tab, hcollect, htracks, hrs'⟩ := (snaps_run hS hi hsorted hq hloop).ex
    refine ⟨tab, hcollect, fun r hr => ?_⟩
    rcases List.mem_append.mp hr with hr | hr
    · exact (hrs' r hr).1
    · exact finalRound_shows htracks r hr

/-- 一秒の刻みと五秒の有効期限で、時刻 1 秒の行が一つある入力。 -/
theorem snapshots_show_ask : ∃ rs tab,
    main (fun _ => 0) ⟨nsecs, 0, 5 * nsecs, false⟩ intCodec [] [] [askLine] = some rs ∧
    collect (fun _ => 0) intCodec [] [askLine] = some tab ∧ ∀ r ∈ rs, ShowsContent (5 * nsecs) tab r := by
  have hread : readXquo intCodec askLine = some ⟨⟨.ask, .lvl2, some 5, 1, nsecs⟩, 2, 1⟩ := by decide
  have hts : acceptedTimes intCodec [askLine] = [nsecs] := by decide
  have hlines : ∀ line ∈ [askLine], ∀ x, readXquo intCodec line = some x → Accepted x →
      levelled x.q = true ∧ Fits ⟨nsecs, 0, 5 * nsecs, false⟩ x.q.t := by
    intro line hl x hx _
    rw [List.mem_singleton.mp hl, hread] at hx
    cases hx
    exact ⟨rfl, by unfold Fits; decide⟩
  obtain ⟨hsome, hshow⟩ := snapshots_show (fun _ => 0) ⟨nsecs, 0, 5 * nsecs, false⟩ intCodec [] [] [askLine]
    (fun h => by cases h) (fun _ => by decide) (by rw [hts]; exact List.pairwise_singleton _ _) hlines
  obtain ⟨rs, hrs⟩ := Option.isSome_iff_exists.mp (hsome (Or.inl rfl) (fun l hl => by
    rw [List.mem_singleton.mp hl, hread]
    rfl))
  obtain ⟨tab, htab, hall⟩ := hshow rs hrs
  exact ⟨rs, tab, hrs, htab, hall⟩

end Content

end Books.Booksnap
