import Books.Book2book.Lemmas.Main
import Books.Book2book.Lemmas.Replay
import Books.Booksnap.Lemmas.Metronome
import Books.Booksnap.Pipe.Content
import Books.Booksnap.Pipe.Labels
import Books.Instr.Blocks

/-!
# 印字した行の再入力

一度の写真で印字した行を読ませる。どちらのプログラムでも、行は、銘柄ごとにまとまった気配の列として表に加わる。
-/

set_option linter.unusedSectionVars false

namespace Books.Booksnap

open Books.Btree Books.Book Books.Book2book Books.Instr Books.Xquo Books.Lib

variable {K Q : Type} [LinearOrder K] [Zero K] [LinearOrder Q] [AddCommGroup Q]
variable {hash : List UInt8 → UInt32} {cfg : Conf} {C : Codec K Q} {line n : List UInt8} {q : BookQuo K Q} {m : Tv}
variable {r : Round K Q} {lines : List (List UInt8)} {l : List (List UInt8 × BookQuo K Q)} {c c₁ : Clock} {o : Int}

/-! ## 印字した行 -/

/-- 写真の気配を、銘柄ごとにまとめたもの。 -/
def blocks (r : Round K Q) : List (List UInt8 × List (BookQuo K Q)) := r.books.map fun b => (b.ins, bookQuos r.metr b.book)

theorem cont_eq {b : Named K Q} (h : Distinct hash (labels r.books)) (hb : b ∈ r.books) : b.cont = some b.ins ∧ Plain b.ins := by
  obtain ⟨ns, hns, _, hplain⟩ := h
  have hmem : b.cont ∈ ns.map some := by
    rw [← hns]
    exact List.mem_map_of_mem hb
  obtain ⟨n, hn, hcont⟩ := List.mem_map.mp hmem
  have hins : b.ins = n := by rw [Named.ins, ← hcont]; rfl
  rw [hins]
  exact ⟨hcont.symm, hplain n hn⟩

theorem nodup_blocks (h : Distinct hash (labels r.books)) : ((blocks r).map fun b => hash b.1).Nodup := by
  obtain ⟨ns, hns, hnd, _⟩ := h
  have hins : (blocks r).map (fun b => hash b.1) = ns.map hash := by
    have hmap := congrArg (List.map fun c : Option (List UInt8) => hash (c.getD [])) hns
    rw [labels, List.map_map, List.map_map] at hmap
    rw [blocks, List.map_map]
    exact hmap
  rw [hins]
  exact hnd

theorem lines_eq (h : Distinct hash (labels r.books)) : r.lines C = (tagged (blocks r)).map fun y => lineOf C y.1 y.2 := by
  rw [Round.lines, tagged, blocks, List.flatMap_map, List.map_flatMap]
  refine List.flatMap_congr fun b hb => ?_
  rw [(cont_eq h hb).1, snap2_eq, List.map_map]
  rfl

theorem mem_tagged (h : Distinct hash (labels r.books)) {y : List UInt8 × BookQuo K Q} (hy : y ∈ tagged (blocks r)) :
    Plain y.1 ∧ ∃ s z, y.2 = lvl2Quo r.metr s z := by
  obtain ⟨_, hb, hy⟩ := List.mem_flatMap.mp hy
  obtain ⟨b, hb', rfl⟩ := List.mem_map.mp hb
  obtain ⟨q, hq, rfl⟩ := List.mem_map.mp hy
  exact ⟨(cont_eq h hb').2, mem_bookQuos hq⟩

/-- 印字したバイト列は、同じ行に分かれる。 -/
theorem getlines_text (hL : OneLine C) (h : Distinct hash (labels r.books)) : getlines newline (r.text C) = r.lines C := by
  rw [Round.text, lines_eq h]
  refine getlines_flatten fun line hline => ?_
  obtain ⟨y, hy, rfl⟩ := List.mem_map.mp hline
  obtain ⟨hplain, s, z, he⟩ := mem_tagged h hy
  rw [he]
  exact isLine_lineOf hL hplain r.metr s z

/-- `line` は、時刻 `m` のレベル 2 の気配の行である。 -/
structure QuoLine (C : Codec K Q) (m : Tv) (line : List UInt8) (y : List UInt8 × BookQuo K Q) : Prop where
  spells : Spells C line y.1 y.2
  quo : ∃ s z, y.2 = lvl2Quo m s z

theorem quoLines (hC : C.Exact) (hm : 10 ^ 9 ≤ r.metr.toNat) (h : Distinct hash (labels r.books)) :
    List.Forall₂ (QuoLine C r.metr) (r.lines C) (tagged (blocks r)) := by
  rw [lines_eq h, List.forall₂_map_left_iff]
  refine List.forall₂_same.mpr fun y hy => ?_
  obtain ⟨hplain, s, z, he⟩ := mem_tagged h hy
  refine ⟨?_, s, z, he⟩
  rw [he]
  exact spells_lineOf hC hplain hm s z

/-! ## `book2book` -/

/-- 板に気配を加える。 -/
def addQuo (b : Book (OrdMap K Q)) (q : BookQuo K Q) : Book (OrdMap K Q) := (bookAdd b q).1

section Book2book
variable {md : Prq} {st st' : Book2book.State (OrdMap K Q)}

theorem sideOf_ne (s : Bool) : sideOf s ≠ .unk ∧ sideOf s ≠ .clr := by
  cases s <;> decide

theorem book2book_step (h : QuoLine C m line (n, q)) (hp : pourOne hash (fun _ => makeBook) addQuo st n q = some st') :
    ∃ out, Book2book.mainStep hash C md st line = some (st', out) := by
  obtain ⟨⟨x, hx, hq, hn⟩, s, z, he⟩ := h
  simp only at hq hn he
  have hunk : x.q.s ≠ .unk := by rw [hq, he]; exact (sideOf_ne s).1
  have hclr : q.s ≠ .clr := by rw [he]; exact (sideOf_ne s).2
  have hlvl : q.f ≠ .lvl1 := by rw [he]; exact fun h => by cases h
  rw [pourOne] at hp
  rw [Book2book.mainStep, Option.bind_eq_bind, hx, Option.bind_some, if_neg hunk, hn]
  split at hp
  · cases hp
  · rename_i tab hr
    cases hp
    rw [hr]
    exact ⟨_, rfl⟩
  · rename_i k tab hr
    obtain ⟨b, hb, rfl⟩ := Option.map_eq_some_iff.mp hp
    simp only [hr, Option.bind_eq_bind, Option.bind_some, hb, hq, advance_plain hlvl hclr]
    exact ⟨_, rfl⟩

theorem book2book_pour (h : List.Forall₂ (QuoLine C m) lines l) (hp : pour hash (fun _ => makeBook) addQuo st l = some st') :
    ∃ out, Book2book.mainLoop hash C md st lines = some (st', out) := by
  induction h generalizing st with
  | nil =>
      cases hp
      exact ⟨[], rfl⟩
  | @cons line y lines l hy _ ih =>
      rw [pour_cons] at hp
      obtain ⟨st₁, h₁, hp⟩ := Option.bind_eq_some_iff.mp hp
      obtain ⟨out₁, hstep⟩ : ∃ out₁, Book2book.mainStep hash C md st line = some (st₁, out₁) := book2book_step hy h₁
      obtain ⟨out₂, hloop⟩ := ih hp
      refine ⟨out₁ ++ out₂, ?_⟩
      simp only [Book2book.mainLoop, hstep, Option.bind_eq_bind, Option.bind_some, hloop]
      rfl

end Book2book

/-! ## `booksnap` -/

section Booksnap
variable {tab tab' : Table (Named K Q)}

theorem booksnap_step (h : QuoLine C m line (n, q)) (hm : m ≠ natv) (hc : start cfg c m = some c₁) (hle : m ≤ c₁.metr)
    (hp : pourOne hash makeNamed (badd cfg) tab n q = some tab') :
    mainStep hash cfg C ⟨tab, c⟩ line = some (⟨tab', c₁⟩, []) := by
  obtain ⟨⟨x, hx, hq, hn⟩, s, z, he⟩ := h
  simp only at hq hn he
  have hunk : x.q.s ≠ .unk := by rw [hq, he]; exact (sideOf_ne s).1
  have ht : x.q.t = m := by rw [hq, he]; rfl
  have hshoot : shoot cfg c₁ m = some ([], c₁) := by rw [shoot, if_pos hle]
  rw [pourOne] at hp
  rw [mainStep, Option.bind_eq_bind, hx, Option.bind_some, if_neg hunk, if_neg (by rw [ht]; exact hm), ht,
    Option.bind_eq_bind, hc, Option.bind_some, hn]
  split at hp
  · cases hp
  · rename_i tab₁ hr
    cases hp
    rw [hr]
    rfl
  · rename_i k tab₁ hr
    obtain ⟨b, hb, rfl⟩ := Option.map_eq_some_iff.mp hp
    simp only [hr, Option.bind_eq_bind, Option.bind_some, hshoot, rounds, hb, hq]
    rfl

/-- 時刻の同じ行を読む間、写真は撮らない。 -/
theorem booksnap_pour (h : List.Forall₂ (QuoLine C m) lines l) (hm : m ≠ natv) (hc : start cfg c m = some c₁)
    (hc₁ : start cfg c₁ m = some c₁) (hle : m ≤ c₁.metr) (hp : pour hash makeNamed (badd cfg) tab l = some tab') :
    mainLoop hash cfg C ⟨tab, c⟩ lines = some (⟨tab', if lines.isEmpty then c else c₁⟩, []) := by
  induction h generalizing tab c with
  | nil =>
      cases hp
      rfl
  | @cons line y lines l hy _ ih =>
      rw [pour_cons] at hp
      obtain ⟨tab₁, h₁, hp⟩ := Option.bind_eq_some_iff.mp hp
      have hloop := ih hc₁ hp
      rw [ite_self] at hloop
      simp only [mainLoop, booksnap_step hy hm hc hle h₁, Option.bind_eq_bind, Option.bind_some, hloop]
      rfl

theorem foldl_badd (qs : List (BookQuo K Q)) (b : Named K Q) : qs.foldl (badd cfg) b =
    { b with book := (qs.map fun q => { q with t := q.t + cfg.inva }).foldl (fun b q => (bookAdd b q).1) b.book } := by
  induction qs generalizing b with
  | nil => rfl
  | cons q qs ih => rw [List.foldl_cons, ih]; rfl

theorem shift_bookQuos (m d : Tv) (b : Book (OrdMap K Q)) :
    ((bookQuos m b).map fun q => { q with t := q.t + d }) = bookQuos (m + d) b := by
  rw [bookQuos, bookQuos, List.map_flatMap]
  refine congrArg (List.flatMap · [true, false]) (funext fun s => ?_)
  rw [List.map_map]
  rfl

end Booksnap

/-! ## 刻みの上の時計 -/

theorem roundUp_grid (hi : 0 < cfg.intv) (hoffs : OnGrid cfg.intv o cfg.offs.toNat) (hm : OnGrid cfg.intv o m.toNat)
    (ho : cfg.offs < m) : roundUp cfg m = m := by
  have hpos := toNat_pos hi
  have ho' : cfg.offs.toNat < m.toNat := UInt64.lt_iff_toNat_lt.mp ho
  have hword := m.toNat_lt
  have hdvd : (cfg.intv.toNat : Int) ∣ (m.toNat : Int) - cfg.offs.toNat := by
    have hsub := dvd_sub hm hoffs
    rwa [sub_sub_sub_cancel_right] at hsub
  obtain ⟨j, hj⟩ : cfg.intv.toNat ∣ m.toNat - cfg.offs.toNat := by
    rw [← Int.natCast_dvd_natCast, Nat.cast_sub (Nat.le_of_lt ho')]
    exact hdvd
  have hsub : (m - 1 - cfg.offs).toNat = m.toNat - 1 - cfg.offs.toNat := by
    have hone : (1 : UInt64).toNat = 1 := rfl
    rw [UInt64.toNat_sub, UInt64.toNat_sub, hone]
    omega
  -- `m` は刻みの上にあるので、切り上げに加える大きさは 0 である。
  have hexcess : excess cfg m = 0 := by
    obtain ⟨i, rfl⟩ : ∃ i, j = i + 1 := Nat.exists_eq_succ_of_ne_zero fun h => by rw [h, Nat.mul_zero] at hj; omega
    rw [Nat.mul_add, Nat.mul_one] at hj
    have hval : m.toNat - 1 - cfg.offs.toNat = (cfg.intv.toNat - 1) + cfg.intv.toNat * i := by omega
    rw [excess, hsub, hval, Nat.add_mul_mod_self_left, Nat.mod_eq_of_lt (by omega)]
    omega
  rw [← UInt64.toNat_inj, roundUp_toNat hi, hexcess, Nat.add_zero, Nat.mod_eq_of_lt hword]

theorem start_grid (hs : cfg.stamps = false) (hr : roundUp cfg m = m) (sfil : List (List UInt8)) :
    start cfg (initClock sfil) m = some ⟨m, 0, sfil⟩ := by
  have hnext : next cfg (initClock sfil) m = ⟨m, 0, sfil⟩ := by
    rw [next_intv hs, nextIntv, if_neg (fun h => h.2.1 rfl), hr]
    rfl
  have hle : m ≤ (next cfg (initClock sfil) m).metr := by
    rw [hnext]
    exact UInt64.le_refl _
  rw [start, if_pos (show (initClock sfil).metr = 0 from rfl), Clock.bound, startLoop_succ_of_le hle, hnext]

/-- 気配のある写真の時刻。 -/
structure Stamped (cfg : Conf) (o : Int) (m : Tv) : Prop where
  grid : OnGrid cfg.intv o m.toNat
  offs : cfg.offs < m
  second : 10 ^ 9 ≤ m.toNat
  small : m.toNat + cfg.inva.toNat < 2 ^ 64
  ne_natv : m ≠ natv

theorem Ticking.stamped (h : Ticking cfg o c) (hsec : 10 ^ 9 ≤ c.metr.toNat) (hn : c.metr ≠ natv) : Stamped cfg o c.metr :=
  ⟨h.grid, h.offs, hsec, h.ok.small, hn⟩

section Stamps
variable {st st' : State K Q} {rs rs' : List (Round K Q)} {done : List (List UInt8)}

/-- 実行の不変条件。時計が動いていれば、時刻は一秒以上である。 -/
structure Sets (cfg : Conf) (C : Codec K Q) (o : Int) (done : List (List UInt8)) (st : State K Q) (rs : List (Round K Q)) :
    Prop where
  beats : Beats cfg C o done st rs
  second : st.clock.metr ≠ 0 → 10 ^ 9 ≤ st.clock.metr.toNat
  past : ∀ r ∈ rs, Stamped cfg o r.metr

/-- 一秒以上の、64 ビットに収まる時刻の行だけを受け付ける。 -/
def FitLines (cfg : Conf) (C : Codec K Q) (lines : List (List UInt8)) : Prop :=
  ∀ line ∈ lines, ∀ x, readXquo C line = some x → Accepted x →
    (Fits cfg x.q.t ∧ cfg.offs < x.q.t) ∧ 10 ^ 9 ≤ x.q.t.toNat

theorem Sets.step (hs : cfg.stamps = false) (hi : 0 < cfg.intv) (hoffs : OnGrid cfg.intv o cfg.offs.toNat)
    (hline : ∀ x, readXquo C line = some x → Accepted x → (Fits cfg x.q.t ∧ cfg.offs < x.q.t) ∧ 10 ^ 9 ≤ x.q.t.toNat)
    (h : Sets cfg C o done st rs) (hstep : mainStep hash cfg C st line = some (st', rs')) :
    Sets cfg C o (done ++ [line]) st' (rs ++ rs') := by
  have hbeats := h.beats.step hs hi hoffs (fun x hx ha => (hline x hx ha).1) hstep
  obtain ⟨x, hx, ⟨_, rfl, rfl⟩ | ⟨ha, c, hc, hcase⟩⟩ := mainStep_cases hstep
  · refine ⟨hbeats, h.second, ?_⟩
    rw [List.append_nil]
    exact h.past
  · obtain ⟨hx', hsec⟩ := hline x hx ha
    obtain ⟨hT, hmove⟩ := start_ticking hs hi hoffs hx'.1 hx'.2 h.beats.ok h.beats.ticking hc
    -- 動き始めた時計は、行の時刻より前に戻らない。
    have hsec' : 10 ^ 9 ≤ c.metr.toNat := by
      rcases hmove with rfl | ⟨_, hleast⟩
      · exact h.second hT.ne_zero
      · exact Nat.le_trans hsec hleast.1.1
    rcases hcase with ⟨tab, _, rfl, rfl⟩ | ⟨k, happ⟩
    · refine ⟨hbeats, fun _ => hsec', ?_⟩
      rw [List.append_nil]
      exact h.past
    · have hshots := h.beats.shots hs hi hoffs hx' hc happ
      refine ⟨hbeats, fun _ => Nat.le_trans hsec' (UInt64.le_iff_toNat_le.mp hshots.mono), fun r hr => ?_⟩
      rcases List.mem_append.mp hr with hr | hr
      · exact h.past r hr
      · obtain ⟨hle, hlt, hgrid⟩ := hshots.mem r.metr (List.mem_map_of_mem hr)
        have hle' := UInt64.le_iff_toNat_le.mp hle
        have hlt' := UInt64.lt_iff_toNat_lt.mp hlt
        have hfits := hx'.1
        unfold Fits at hfits
        exact ⟨hgrid, UInt64.lt_of_lt_of_le hT.offs hle, by omega, by omega, ne_natv_of_lt hlt⟩

theorem sets_run (hs : cfg.stamps = false) (hi : 0 < cfg.intv) (hoffs : OnGrid cfg.intv o cfg.offs.toNat)
    (hlines : FitLines cfg C lines) {sfil instr : List (List UInt8)}
    (h : mainLoop hash cfg C (initState hash sfil instr) lines = some (st, rs)) : Sets cfg C o lines st rs :=
  mainLoop_rule (P := Sets cfg C o)
    ⟨beats_init sfil instr, fun hne => absurd rfl hne, fun _ hr => absurd hr List.not_mem_nil⟩
    (fun hmem hsets hstep => hsets.step hs hi hoffs (hlines _ (mem_of_step hmem)) hstep) h

/-- 気配を受け付けなければ、最後の写真は何も印字しない。 -/
theorem lines_idle {sfil instr : List (List UInt8)} (hidle : Idle C lines)
    (h : mainLoop hash cfg C (initState hash sfil instr) lines = some (st, rs)) :
    (⟨0, expAll cfg 0 st.tab.book⟩ : Round K Q).lines C = [] := by
  obtain ⟨rfl, -⟩ := mainLoop_idle hidle.acceptedTimes h
  have hfresh : ∀ b ∈ (initTable hash makeNamed instr : Table (Named K Q)).book, b.book = makeBook := by
    intro b hb
    unfold initTable at hb
    simp only at hb
    split at hb
    · exact absurd hb List.not_mem_nil
    · split at hb
      · rcases List.mem_append.mp hb with hb | hb
        · obtain ⟨_, _, rfl⟩ := List.mem_map.mp hb
          rfl
        · rw [List.mem_singleton.mp hb]
          rfl
      · obtain ⟨_, _, rfl⟩ := List.mem_map.mp hb
        rfl
  refine List.flatMap_eq_nil_iff.mpr fun b hb => ?_
  obtain ⟨b', hb', rfl⟩ := List.mem_map.mp hb
  have hbook : bookExp b'.book (if cfg.inva ≠ 0 then 0 else 0) = makeBook := by
    rw [ite_self, hfresh b' hb', bookExp, if_pos rfl]
  simp only [hbook]
  rfl

end Stamps

end Books.Booksnap
