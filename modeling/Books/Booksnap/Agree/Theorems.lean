import Books.Book2book.Theorems
import Books.Booksnap.Agree.Spec
import Books.Booksnap.Lemmas.Main
import Books.Lib.Sim

/-!
# 写真と、最後に印字した表の一致

有効期限がなければ、写真は板を変えない。二つのプログラムは、同じ行を同じ板に加えるので、一行ごとに板の表が対応する。
-/

set_option linter.unusedSectionVars false

namespace Books.Booksnap

open Books.Btree Books.Book Books.Book2book Books.Instr Books.Xquo Books.Lib

section Same
variable {K Q : Type} [LinearOrder K] [Zero K] [LinearOrder Q] [Field Q]
variable {hash : List UInt8 → UInt32} {cfg : Conf} {C : Codec K Q} {m : Prq} {st st' : Booksnap.State K Q}
variable {st₁ : Book2book.State (OrdMap K Q)} {line : List UInt8} {lines instr sfil : List (List UInt8)}
variable {rs : List (Round K Q)} {c c' : Clock} {t : Tv} {ms : List Tv}

/-! ## 写真 -/

theorem expAll_zero (hinva : cfg.inva = 0) (m : Tv) (bs : List (Named K Q)) : expAll cfg m bs = bs := by
  have hexp : ∀ b : Named K Q, { b with book := bookExp b.book (if cfg.inva ≠ 0 then m else 0) } = b := by
    intro b
    rw [if_neg (not_not.mpr hinva)]
    rfl
  rw [expAll, List.map_congr_left (fun b _ => hexp b), List.map_id']

/-- 有効期限がなければ、写真は板を変えない。 -/
theorem rounds_zero (hinva : cfg.inva = 0) : ∀ (ms : List Tv) (bs : List (Named K Q)),
    rounds cfg ms bs = (bs, ms.map fun m => ⟨m, bs⟩)
  | [], _ => rfl
  | m :: ms, bs => by
      rw [rounds, expAll_zero hinva, rounds_zero hinva ms]
      rfl

theorem shootLoop_lt : ∀ {n : Nat} {c c' : Clock} {ms : List Tv}, c.metr < t → shootLoop cfg t n c = some (ms, c') →
    ∀ m ∈ ms, m < t
  | 0, _, _, _, _, h => by cases h
  | n + 1, c, _, ms, hc, h => by
      rw [shootLoop] at h
      split at h
      · rename_i hlt
        obtain ⟨⟨ms', c₁⟩, hloop, he⟩ := Option.map_eq_some_iff.mp h
        cases he
        intro m hm
        rcases List.mem_cons.mp hm with rfl | hm
        · exact hc
        · exact shootLoop_lt hlt hloop m hm
      · cases h
        intro m hm
        rw [List.mem_singleton.mp hm]
        exact hc

/-- 行の前に撮る写真は、その行より古い。 -/
theorem shoot_lt (h : shoot cfg c t = some (ms, c')) : ∀ m ∈ ms, m < t := by
  unfold shoot at h
  split at h
  · cases h
    exact fun m hm => absurd hm List.not_mem_nil
  · rename_i hle
    exact shootLoop_lt (UInt64.not_le.mp hle) h

/-! ## 一行 -/

/-- 見出しを除いて同じ板である。 -/
def Twin (b : Named K Q) (b' : Book (OrdMap K Q)) : Prop := b.book = b'

theorem twin_initState : (Booksnap.initState hash sfil instr : Booksnap.State K Q).tab.Rel Twin (Book2book.initState hash instr) :=
  rel_initTable (R := Twin) (fun _ => rfl) instr

theorem Twin.map_book {tab : Table (Named K Q)} (h : tab.Rel Twin st₁) : tab.book.map Named.book = st₁.book := by
  rw [← List.forall₂_eq_eq_eq, List.forall₂_map_left_iff]
  exact h.book

theorem sameBooks_of_twin {tab : Table (Named K Q)} (h : tab.Rel Twin st₁) (t : Tv) : SameBooks ⟨t, tab.book⟩ st₁ := by
  intro k
  rw [← Twin.map_book h, List.getElem?_map]

/-- 一行の後も、板の表は対応する。行の前に撮る写真は、行の前の板を写す。 -/
theorem mainStep_twin (hinva : cfg.inva = 0) (hm : m.unwinds = false)
    (ht : ∀ x, readXquo C line = some x → x.q.s ≠ .unk → x.q.t ≠ natv) (hrel : st.tab.Rel Twin st₁) (hok : st₁.Ok)
    (h : Booksnap.mainStep hash cfg C st line = some (st', rs)) :
    ∃ st₁' out, Book2book.mainStep hash C m st₁ line = some (st₁', out) ∧ st'.tab.Rel Twin st₁' ∧
      ∀ r ∈ rs, (∃ x, readXquo C line = some x ∧ Accepted x ∧ r.metr < x.q.t) ∧ SameBooks r st₁ := by
  obtain ⟨x, hx, ⟨hna, rfl, rfl⟩ | ⟨ha, c, _, hcase⟩⟩ := Booksnap.mainStep_cases h
  · have hs : x.q.s = .unk := by
      by_contra hs
      exact hna ⟨hs, ht x hx hs⟩
    refine ⟨st₁, [], ?_, hrel, fun r hr => absurd hr List.not_mem_nil⟩
    rw [Book2book.mainStep, hx, Option.bind_eq_bind, Option.bind_some, if_pos hs]
    rfl
  · have hroute : Option.Rel (fun y y' => y.1 = y'.1 ∧ y.2.Rel Twin y'.2) (route hash makeNamed st.tab (insOf line x))
        (route hash (fun _ => makeBook) st₁ (insOf line x)) := hrel.route (fun _ => rfl) (insOf line x)
    rw [Book2book.mainStep, hx, Option.bind_eq_bind, Option.bind_some, if_neg ha.1]
    rcases hcase with ⟨tab, hr, rfl, rfl⟩ | ⟨k, ⟨tab, ms, c', b, hr, hshoot, hb, rfl, rfl⟩⟩
    · rw [hr] at hroute
      obtain ⟨⟨u, st₂⟩, hr₁, rfl, hrel₂⟩ := rel_some hroute
      rw [hr₁]
      exact ⟨st₂, [], rfl, hrel₂, fun r hr => absurd hr List.not_mem_nil⟩
    · rw [hr] at hroute
      obtain ⟨⟨u, st₂⟩, hr₁, rfl, hrel₂⟩ := rel_some hroute
      rw [rounds_zero hinva] at hb ⊢
      have hb₁ : st₂.book[k]? = some b.book := by
        rw [← Twin.map_book hrel₂, List.getElem?_map, hb]
        rfl
      have hadd : badd cfg b x.q = { b with book := (bookAdd b.book x.q).1 } := by
        rw [badd, hinva, UInt64.add_zero]
      rw [hr₁, hadd]
      simp only [Option.bind_eq_bind, Option.bind_some, hb₁, advance_of_not_unwinds hm]
      refine ⟨_, _, rfl, hrel₂.set k rfl, fun r hr => ?_⟩
      obtain ⟨t, ht, rfl⟩ := List.mem_map.mp hr
      refine ⟨⟨x, rfl, ha, shoot_lt hshoot t ht⟩, fun j => ?_⟩
      -- 板を選ぶ前も、その板は空とみなせる。
      rw [sameBooks_of_twin hrel₂ t j, hok.route_book hr₁]
      split
      · cases st₁.book[j]? <;> rfl
      · rfl

/-! ## 入力の全体 -/

theorem NextLater.append {pre done : List (List UInt8)} {r : Round K Q} (h : NextLater C done pre r) :
    NextLater C (done ++ [line]) pre r := by
  obtain ⟨l, post, x, rfl, hx⟩ := h
  exact ⟨l, post ++ [line], x, by rw [List.append_assoc, List.cons_append], hx⟩

theorem TakenAfter.prefix {pre : List (List UInt8)} {r : Round K Q} (h : TakenAfter C lines pre r) : ∃ post, lines = pre ++ post := by
  rcases h with rfl | ⟨line, post, _, hl, _⟩
  · exact ⟨[], (List.append_nil _).symm⟩
  · exact ⟨line :: post, hl⟩

/-- 行ごとに撮る写真の板は、その行の前までを読んだ `book2book` の板に等しい。 -/
theorem mainLoop_twin (hinva : cfg.inva = 0) (hm : m.unwinds = false) (htimed : Timed C lines)
    (h : Booksnap.mainLoop hash cfg C (Booksnap.initState hash sfil instr) lines = some (st, rs)) :
    ∃ st₁ calls, Book2book.mainLoop hash C m (Book2book.initState hash instr) lines = some (st₁, calls) ∧
      st.tab.Rel Twin st₁ ∧ ∀ r ∈ rs, ∃ pre st₂ calls₂, NextLater C lines pre r ∧
        Book2book.mainLoop hash C m (Book2book.initState hash instr) pre = some (st₂, calls₂) ∧ SameBooks r st₂ := by
  refine Booksnap.mainLoop_rule (P := fun done st rs => ∃ st₁ calls,
    Book2book.mainLoop hash C m (Book2book.initState hash instr) done = some (st₁, calls) ∧ st.tab.Rel Twin st₁ ∧
    ∀ r ∈ rs, ∃ pre st₂ calls₂, NextLater C done pre r ∧
      Book2book.mainLoop hash C m (Book2book.initState hash instr) pre = some (st₂, calls₂) ∧ SameBooks r st₂)
    ⟨_, [], rfl, twin_initState, fun r hr => absurd hr List.not_mem_nil⟩ ?_ h
  rintro done line st rs st' rs' hdone ⟨st₁, calls, hloop, hrel, hpast⟩ hstep
  obtain ⟨st₁', out, hstep₁, hrel', hnew⟩ :=
    mainStep_twin hinva hm (htimed line (mem_of_step hdone)) hrel (ok_mainLoop hloop) hstep
  refine ⟨st₁', calls ++ out, mainLoop_concat hloop hstep₁, hrel', fun r hr => ?_⟩
  rcases List.mem_append.mp hr with hr | hr
  · obtain ⟨pre, st₂, calls₂, hnext, hrest⟩ := hpast r hr
    exact ⟨pre, st₂, calls₂, hnext.append, hrest⟩
  · obtain ⟨⟨x, hx, ha, hlt⟩, hsame⟩ := hnew r hr
    exact ⟨done, st₁, calls, ⟨line, [], x, rfl, hx, ha, hlt⟩, hloop, hsame⟩

/-- どの写真の板も、写真より新しい行の前までを読んだ `book2book` の板に等しい。 -/
theorem main_sameBooks (hinva : cfg.inva = 0) (hm : m.unwinds = false) (htimed : Timed C lines)
    (h : Booksnap.main hash cfg C sfil instr lines = some rs) :
    ∀ r ∈ rs, ∃ pre st calls, TakenAfter C lines pre r ∧
      Book2book.mainLoop hash C m (Book2book.initState hash instr) pre = some (st, calls) ∧ SameBooks r st := by
  obtain ⟨st, rs', hloop, rfl⟩ := main_eq_some_iff.mp h
  obtain ⟨st₁, calls, hloop₁, hrel, hpast⟩ := mainLoop_twin (m := m) hinva hm htimed hloop
  intro r hr
  rcases List.mem_append.mp hr with hr | hr
  · obtain ⟨pre, st₂, calls₂, hnext, hrest⟩ := hpast r hr
    exact ⟨pre, st₂, calls₂, Or.inr hnext, hrest⟩
  · refine ⟨lines, st₁, calls, Or.inl rfl, hloop₁, ?_⟩
    unfold finalRound at hr
    split at hr
    · rw [List.mem_singleton.mp hr, expAll_zero hinva]
      exact sameBooks_of_twin hrel _
    · exact absurd hr List.not_mem_nil

/-! ## 表 -/

variable (C) (t) {cont : Option (List UInt8)} {b : Book (OrdMap K Q)}

theorem rowLine_eq (top : Book (OrdMap K Q) → Bool → Option (BookQuo K Q)) : rowLine C t cont (top b) =
    (block1 top b).map fun rows => tableText C (header t cont) (rows.map id) := by
  rw [rowLine, block1]
  cases top b true with
  | none => rfl
  | some bid =>
      cases top b false with
      | none => rfl
      | some ask => rfl

theorem rowLines_eq (ntop : Nat) (tops : Book (OrdMap K Q) → Bool → Option (List (K × Q))) : rowLines C t cont ntop (tops b) =
    (blockN ntop tops b).map fun rows => tableText C (header t cont) (rows.map id) := by
  rw [rowLines, blockN]
  cases tops b true with
  | none => rfl
  | some bids =>
      cases tops b false with
      | none => rfl
      | some asks =>
          simp only [Option.bind_eq_bind, Option.bind_some, List.map_id]
          rfl

/-- `snap1` は、空の数量の欄に 0 を印字する。 -/
theorem snap1_eq : some (snap1 C t cont b) =
    (block1 (fun b s => some (bookTop b s)) b).map fun rows => tableText C (header t cont) (rows.map filled) := by
  have hq : ∀ q : Q, some q = some ((if q ≠ 0 then some q else none).getD 0) := by
    intro q
    split
    · rfl
    · rename_i hq
      rw [not_not.mp hq]
      rfl
  have hrow : ∀ bid ask : BookQuo K Q, { row1 bid ask with bq := some bid.q, aq := some ask.q } = filled (row1 bid ask) := by
    intro bid ask
    rw [filled, row1, ← hq, ← hq]
  rw [snap1, hrow]
  rfl

/-- `book2book` の表が今の板を示していれば、写真は、その表を印字する。 -/
theorem agrees_of_fresh {M : Type} {prq : M → Book (OrdMap K Q) → Option (M × List (Row K Q))} {zero : M}
    {blank : List (Row K Q)} {block : Book (OrdMap K Q) → Option (List (Row K Q))} {f : Row K Q → Row K Q}
    {snap : Tv → Option (List UInt8) → Book (OrdMap K Q) → Option (List (List UInt8))} (hinva : cfg.inva = 0)
    (hm : m.unwinds = false) (htimed : Timed C lines) (h : Booksnap.main hash cfg C sfil instr lines = some rs)
    (hsnap : ∀ t cont b, snap t cont b = (block b).map fun rows => tableText C (header t cont) (rows.map f))
    (hfresh : Fresh hash C m prq zero blank block instr lines) : Agrees hash C m prq zero blank f snap instr lines rs := by
  intro r hr
  obtain ⟨pre, st, calls, htaken, hloop, hsame⟩ := main_sameBooks (m := m) hinva hm htimed h r hr
  refine ⟨pre, st, calls, htaken, hloop, hsame, fun k b hb => ?_⟩
  obtain ⟨post, hl⟩ := htaken.prefix
  obtain ⟨xb, rows, hshown, hblock⟩ := hfresh pre post calls st hl hloop k
  have hbook : b.book = Book2book.bookAt st k := by
    have hk := hsame k
    rw [hb] at hk
    exact hk
  exact ⟨xb, rows, hshown, by rw [hsnap, hbook, hblock]; rfl⟩

end Same

/-! ## 主定理 -/

section Agree
variable {K Q : Type} [LinearOrder K] [Zero K] [LinearOrder Q] [Field Q]

end Agree

end Books.Booksnap
