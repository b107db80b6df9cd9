import Books.Book2book.Lemmas.Display

/-!
# 六つの出力の検出

1 段の出力は、二つの気配の気配値だけを、`prq1` ではさらに数量を覚える。`ntop` 段の出力は、0 で埋めた配列を覚えるので、気配の数は
覚えない。示す気配がなくなると、行を一つも印字しない。
-/

set_option linter.unusedSectionVars false

namespace Books.Book2book

open Books.Btree Books.Book Books.Instr Books.Xquo Books.Lib

variable {K Q : Type} [LinearOrder K] [Zero K] [LinearOrder Q] [Field Q]

/-! ## 1 段の出力 -/

section One
variable {top : Book (OrdMap K Q) → Bool → Option (BookQuo K Q)} {sizes : Bool} {b b' : Book (OrdMap K Q)}
variable {x y : BookQuo K Q × BookQuo K Q}

theorem eq_of_pxEq {p p' : Option K} (h : pxEq p p' = true) : p = p' := by
  cases p with
  | none => cases h
  | some a =>
      cases p' with
      | none => cases h
      | some b => rw [of_decide_eq_true h]

theorem pxEq_self {p : Option K} (h : p.isSome = true) : pxEq p p = true := by
  obtain ⟨a, rfl⟩ := Option.isSome_iff_exists.mp h
  exact decide_eq_true rfl

/-- 買いと売りの気配の組を見る装置。 -/
def detector1 (sizes : Bool) : Detector (BookQuo K Q × BookQuo K Q) (Xone K Q) (Row K Q) where
  rem x := ⟨x.1.p, x.2.p, if sizes then x.1.q else 0, if sizes then x.2.q else 0⟩
  same m m' := pxEq m.bid m'.bid && pxEq m.ask m'.ask && (decide (m.bsz = m'.bsz) && decide (m.asz = m'.asz))
  block x := [row1 x.1 x.2]
  eq_of_same := by
    rintro ⟨bid, ask, bsz, asz⟩ ⟨bid', ask', bsz', asz'⟩ h
    simp only [Bool.and_eq_true, decide_eq_true_eq] at h
    obtain ⟨⟨hb, ha⟩, hB, hA⟩ := h
    rw [eq_of_pxEq hb, eq_of_pxEq ha, hB, hA]

/-- 板から読む気配の組。 -/
def figs1 (top : Book (OrdMap K Q) → Bool → Option (BookQuo K Q)) (b : Book (OrdMap K Q)) : BookQuo K Q × BookQuo K Q :=
  ((top b true).getD notAQuo, (top b false).getD notAQuo)

theorem top_eq (htop : ∀ b s, ∃ x, top b s = some x ∧ x.p.isSome = true) (b : Book (OrdMap K Q)) :
    top b true = some (figs1 top b).1 ∧ top b false = some (figs1 top b).2 := by
  obtain ⟨x, hx, _⟩ := htop b true
  obtain ⟨y, hy, _⟩ := htop b false
  rw [figs1, hx, hy]
  exact ⟨rfl, rfl⟩

theorem aligned1_emit (htop : ∀ b s, ∃ x, top b s = some x ∧ x.p.isSome = true) (x : BookQuo K Q × BookQuo K Q)
    (b : Book (OrdMap K Q)) : aligned1 sizes (top b) ((detector1 sizes).rem x) =
      some ((detector1 sizes).emit ((detector1 sizes).rem x) (figs1 top b)) := by
  obtain ⟨h₁, h₂⟩ := top_eq htop b
  rw [aligned1, h₁, h₂, Option.bind_eq_bind, Option.bind_some, Option.bind_some, Detector.emit]
  cases sizes with
  | false =>
      simp only [detector1, Bool.not_false, Bool.true_or, Bool.and_true, if_false, decide_true, Bool.false_eq_true]
      split <;> rfl
  | true =>
      simp only [detector1, Bool.not_true, Bool.false_or, if_true]
      split <;> rfl

theorem block1_eq (htop : ∀ b s, ∃ x, top b s = some x ∧ x.p.isSome = true) (b : Book (OrdMap K Q)) :
    block1 top b = some ((detector1 sizes).block (figs1 top b)) := by
  obtain ⟨h₁, h₂⟩ := top_eq htop b
  rw [block1, h₁, h₂]
  rfl

/-- 数量も覚えれば、変化を見落とさない。 -/
theorem notices1_true : (detector1 true : Detector _ (Xone K Q) _).Notices x y := by
  refine ⟨fun h => ?_, fun h => (by cases h)⟩
  have he := (detector1 true : Detector _ (Xone K Q) _).eq_of_same _ _ h
  simp only [detector1, if_true, Xone.mk.injEq] at he
  obtain ⟨hb, ha, hB, hA⟩ := he
  simp only [detector1, row1, hb, ha, hB, hA]

/-- 気配値だけを覚えると、気配値が変わらないときの数量の変化を見落とす。 -/
theorem notices1_false_iff (htop : ∀ b s, ∃ x, top b s = some x ∧ x.p.isSome = true) :
    (detector1 false : Detector _ (Xone K Q) _).Notices (figs1 top b) (figs1 top b') ↔ SizesFollow1 top b b' := by
  obtain ⟨h₁, h₂⟩ := top_eq htop b
  obtain ⟨h₁', h₂'⟩ := top_eq htop b'
  have hsome : ∀ {b s x}, top b s = some x → x.p.isSome = true := fun {b s x} hx => by
    obtain ⟨y, hy, hp⟩ := htop b s
    rw [hx] at hy
    cases hy
    exact hp
  generalize figs1 top b = x at *
  generalize figs1 top b' = y at *
  have hsame : (detector1 false : Detector _ (Xone K Q) _).same ((detector1 false).rem y) ((detector1 false).rem x) = true ↔
      y.1.p = x.1.p ∧ y.2.p = x.2.p := by
    simp only [detector1, Bool.false_eq_true, if_false, decide_true, Bool.and_true, Bool.and_eq_true]
    constructor
    · rintro ⟨hb, ha⟩
      exact ⟨eq_of_pxEq hb, eq_of_pxEq ha⟩
    · rintro ⟨hb, ha⟩
      rw [hb, ha]
      exact ⟨pxEq_self (hsome h₁), pxEq_self (hsome h₂)⟩
  have hblock : y.1.p = x.1.p → y.2.p = x.2.p → ((detector1 false : Detector _ (Xone K Q) _).block y =
      (detector1 false : Detector _ (Xone K Q) _).block x ↔ y.1.q = x.1.q ∧ y.2.q = x.2.q) := by
    intro hb ha
    have hcell : ∀ {q q' : Q}, (if q ≠ 0 then some q else none) = (if q' ≠ 0 then some q' else none) → q = q' := by
      intro q q' h
      split at h
      · split at h
        · exact Option.some.inj h
        · cases h
      · rename_i hq
        split at h
        · cases h
        · rename_i hq'
          rw [not_not.mp hq, not_not.mp hq']
    simp only [detector1, row1, List.cons.injEq, and_true, Row.mk.injEq]
    constructor
    · rintro ⟨_, _, hB, hA⟩
      exact ⟨hcell hB, hcell hA⟩
    · rintro ⟨hB, hA⟩
      rw [hb, ha, hB, hA]
      exact ⟨rfl, rfl, rfl, rfl⟩
  rw [Detector.Notices, SizesFollow1, hsame]
  simp only [Bool.forall_bool, h₁, h₂, h₁', h₂', Option.map_some, Option.some.injEq]
  constructor
  · rintro ⟨h, _⟩ ⟨ha, hb⟩
    exact ((hblock hb ha).mp (h ⟨hb, ha⟩)).symm
  · intro h
    refine ⟨fun hp => (hblock hp.1 hp.2).mpr ?_, fun hn => (by cases hn)⟩
    exact (h ⟨hp.2, hp.1⟩).symm

end One

/-! ## `ntop` 段の出力 -/

section Many
variable {tops : Book (OrdMap K Q) → Bool → Option (List (K × Q))} {sizes : Bool} {ntop : Nat} {b b' : Book (OrdMap K Q)}
variable {x y : List (K × Q) × List (K × Q)} {l l' : List (K × Q)}

theorem take_pad {α : Type} [Zero α] {n : Nat} (l : List α) : (pad n l).take l.length = l := by
  rw [pad, List.take_left]

/-- 0 でない値の列は、0 で埋めた配列から決まる。 -/
theorem takeWhile_pad {n : Nat} {l : List Q} (h : ∀ x ∈ l, x ≠ 0) : (pad n l).takeWhile (fun x => decide (x ≠ 0)) = l := by
  rw [pad, List.takeWhile_append_of_pos (fun x hx => decide_eq_true (h x hx))]
  cases n - l.length with
  | zero => rw [List.replicate_zero, List.takeWhile_nil, List.append_nil]
  | succ k => rw [List.replicate_succ, List.takeWhile_cons, if_neg (by simp), List.append_nil]

/-- 数量が 0 でなければ、気配値と数量の配列が、気配の列を決める。 -/
theorem eq_of_pad_eq {n : Nat} (hl : ∀ x ∈ l, x.2 ≠ 0) (hl' : ∀ x ∈ l', x.2 ≠ 0)
    (hp : pad n (l.map Prod.fst) = pad n (l'.map Prod.fst)) (hq : pad n (l.map Prod.snd) = pad n (l'.map Prod.snd)) :
    l = l' := by
  have hsnd : ∀ {l : List (K × Q)}, (∀ x ∈ l, x.2 ≠ 0) → ∀ q ∈ l.map Prod.snd, q ≠ 0 := by
    intro l h q hq
    obtain ⟨x, hx, rfl⟩ := List.mem_map.mp hq
    exact h x hx
  have hqs : l.map Prod.snd = l'.map Prod.snd := by
    rw [← takeWhile_pad (n := n) (hsnd hl), hq, takeWhile_pad (hsnd hl')]
  have hlen : (l.map Prod.fst).length = (l'.map Prod.fst).length := by
    have := congrArg List.length hqs
    simpa using this
  have hps : l.map Prod.fst = l'.map Prod.fst := by
    rw [← take_pad (n := n) (l.map Prod.fst), hp, hlen, take_pad]
  exact (List.zip_of_prod hps hqs).trans (List.zip_of_prod rfl rfl).symm

/-- 表の行は、二つの列の気配を示す。 -/
theorem rowsN_getElem (hb : x.1.length ≤ ntop) (i : Nat) :
    ((rowsN ntop x.1 x.2)[i]?.bind Row.bp = x.1[i]?.map Prod.fst ∧
      (rowsN ntop x.1 x.2)[i]?.bind Row.bq = x.1[i]?.map Prod.snd) ∧
    ((rowsN ntop x.1 x.2)[i]?.bind Row.ap = x.2[i]?.map Prod.fst ∧
      (rowsN ntop x.1 x.2)[i]?.bind Row.aq = x.2[i]?.map Prod.snd) := by
  have hn : ¬ (ntop < x.1.length ∧ ntop < x.2.length) := fun h => absurd h.1 (Nat.not_lt.mpr hb)
  rw [rowsN]
  simp only [if_neg hn, List.getElem?_map]
  rcases Nat.lt_or_ge i (if x.1.length < x.2.length then x.2.length else x.1.length) with hi | hi
  · rw [List.getElem?_range hi]
    exact ⟨⟨rfl, rfl⟩, rfl, rfl⟩
  · have hi₁ : x.1.length ≤ i := by split at hi <;> omega
    have hi₂ : x.2.length ≤ i := by split at hi <;> omega
    rw [List.getElem?_eq_none (by rw [List.length_range]; exact hi), List.getElem?_eq_none hi₁, List.getElem?_eq_none hi₂]
    exact ⟨⟨rfl, rfl⟩, rfl, rfl⟩

theorem rowsN_eq_iff (hx₁ : x.1.length ≤ ntop) (hy₁ : y.1.length ≤ ntop) :
    rowsN ntop y.1 y.2 = rowsN ntop x.1 x.2 ↔ y.1 = x.1 ∧ y.2 = x.2 := by
  constructor
  · intro h
    have hpair : ∀ {u v : Option (K × Q)}, u.map Prod.fst = v.map Prod.fst → u.map Prod.snd = v.map Prod.snd → u = v := by
      intro u v h₁ h₂
      cases u with
      | none => cases v with
        | none => rfl
        | some v => cases h₁
      | some u => cases v with
        | none => cases h₁
        | some v => rw [Prod.ext (Option.some.inj h₁) (Option.some.inj h₂)]
    have hx := fun i => rowsN_getElem hx₁ i
    have hy := fun i => rowsN_getElem hy₁ i
    refine ⟨List.ext_getElem? fun i => hpair ?_ ?_, List.ext_getElem? fun i => hpair ?_ ?_⟩
    · rw [← (hx i).1.1, ← (hy i).1.1, h]
    · rw [← (hx i).1.2, ← (hy i).1.2, h]
    · rw [← (hx i).2.1, ← (hy i).2.1, h]
    · rw [← (hx i).2.2, ← (hy i).2.2, h]
  · rintro ⟨h₁, h₂⟩
    rw [h₁, h₂]

/-- 買いと売りの気配の列の組を見る装置。 -/
def detectorN (sizes : Bool) (ntop : Nat) : Detector (List (K × Q) × List (K × Q)) (Xmany K Q) (Row K Q) where
  rem x := ⟨pad ntop (x.1.map Prod.fst), pad ntop (x.2.map Prod.fst),
    if sizes then pad ntop (x.1.map Prod.snd) else .replicate ntop 0,
    if sizes then pad ntop (x.2.map Prod.snd) else .replicate ntop 0⟩
  same m m' := (decide (m.bszs = m'.bszs) && decide (m.aszs = m'.aszs)) && decide (m.bids = m'.bids) &&
    decide (m.asks = m'.asks)
  block x := rowsN ntop x.1 x.2
  eq_of_same := by
    rintro ⟨bids, asks, bszs, aszs⟩ ⟨bids', asks', bszs', aszs'⟩ h
    simp only [Bool.and_eq_true, decide_eq_true_eq] at h
    obtain ⟨⟨⟨hB, hA⟩, hb⟩, ha⟩ := h
    rw [hb, ha, hB, hA]

/-- 板から読む気配の列の組。 -/
def figsN (tops : Book (OrdMap K Q) → Bool → Option (List (K × Q))) (b : Book (OrdMap K Q)) :
    List (K × Q) × List (K × Q) := ((tops b true).getD [], (tops b false).getD [])

theorem tops_eq (htops : ∀ b s, ∃ l, tops b s = some l ∧ l.length ≤ ntop) (b : Book (OrdMap K Q)) :
    tops b true = some (figsN tops b).1 ∧ tops b false = some (figsN tops b).2 ∧ (figsN tops b).1.length ≤ ntop := by
  obtain ⟨x, hx, hxl⟩ := htops b true
  obtain ⟨y, hy, _⟩ := htops b false
  rw [figsN, hx, hy]
  exact ⟨rfl, rfl, hxl⟩

theorem alignedN_emit (htops : ∀ b s, ∃ l, tops b s = some l ∧ l.length ≤ ntop) (x : List (K × Q) × List (K × Q))
    (b : Book (OrdMap K Q)) : alignedN sizes ntop (tops b) ((detectorN sizes ntop).rem x) =
      some ((detectorN sizes ntop).emit ((detectorN sizes ntop).rem x) (figsN tops b)) := by
  obtain ⟨h₁, h₂, _⟩ := tops_eq htops b
  rw [alignedN, h₁, h₂, Option.bind_eq_bind, Option.bind_some, Option.bind_some, Detector.emit]
  cases sizes with
  | false =>
      simp only [detectorN, Bool.not_false, Bool.true_or, Bool.true_and, if_false, decide_true, Bool.false_eq_true]
      split <;> rfl
  | true =>
      simp only [detectorN, Bool.not_true, Bool.false_or, if_true]
      split <;> rfl

theorem blockN_eq (htops : ∀ b s, ∃ l, tops b s = some l ∧ l.length ≤ ntop) (b : Book (OrdMap K Q)) :
    blockN ntop tops b = some ((detectorN sizes ntop).block (figsN tops b)) := by
  obtain ⟨h₁, h₂, _⟩ := tops_eq htops b
  rw [blockN, h₁, h₂]
  rfl

/-- 示す気配がなくなると、何も印字しない。 -/
theorem notEmptied_iff (htops : ∀ b s, ∃ l, tops b s = some l ∧ l.length ≤ ntop) :
    ((detectorN sizes ntop).block (figsN tops b') = [] → (detectorN sizes ntop).block (figsN tops b) = []) ↔
      NotEmptied tops b b' := by
  have hnil : ∀ b, (detectorN sizes ntop).block (figsN tops b) = [] ↔ ∀ s, tops b s = some [] := fun b => by
    obtain ⟨h₁, h₂, hl₁⟩ := tops_eq htops b
    have hempty : rowsN ntop (figsN tops b).1 (figsN tops b).2 = rowsN ntop [] [] ↔
        (figsN tops b).1 = [] ∧ (figsN tops b).2 = [] :=
      rowsN_eq_iff (x := ([], [])) (Nat.zero_le _) hl₁
    have hrows : rowsN ntop ([] : List (K × Q)) [] = [] := rfl
    rw [hrows] at hempty
    simp only [Bool.forall_bool, h₁, h₂, Option.some.injEq, and_comm (a := (figsN tops b).2 = [])]
    exact hempty
  rw [NotEmptied, hnil, hnil]

/-- 数量も覚えるとき、見落とすのは、示す気配がなくなる変化だけである。 -/
theorem noticesN_true_iff (htops : ∀ b s, ∃ l, tops b s = some l ∧ l.length ≤ ntop)
    (hpos : ∀ b s l, tops b s = some l → ∀ x ∈ l, x.2 ≠ 0) :
    (detectorN true ntop : Detector _ (Xmany K Q) _).Notices (figsN tops b) (figsN tops b') ↔ NotEmptied tops b b' := by
  rw [Detector.Notices, notEmptied_iff htops, and_iff_right_iff_imp]
  intro _ h
  obtain ⟨h₁, h₂, _⟩ := tops_eq htops b
  obtain ⟨h₁', h₂', _⟩ := tops_eq htops b'
  have he := (detectorN true ntop : Detector _ (Xmany K Q) _).eq_of_same _ _ h
  simp only [detectorN, if_true, Xmany.mk.injEq] at he
  obtain ⟨hb, ha, hB, hA⟩ := he
  have hbids := eq_of_pad_eq (hpos b' true _ h₁') (hpos b true _ h₁) hb hB
  have hasks := eq_of_pad_eq (hpos b' false _ h₂') (hpos b false _ h₂) ha hA
  simp only [detectorN, hbids, hasks]

/-- 気配値だけを覚えると、気配値の配列が変わらないときの、気配の数と数量の変化も見落とす。 -/
theorem noticesN_false_iff (htops : ∀ b s, ∃ l, tops b s = some l ∧ l.length ≤ ntop) :
    (detectorN false ntop : Detector _ (Xmany K Q) _).Notices (figsN tops b) (figsN tops b') ↔
      SizesFollowN ntop tops b b' ∧ NotEmptied tops b b' := by
  rw [Detector.Notices, notEmptied_iff htops]
  refine and_congr_left fun _ => ?_
  obtain ⟨h₁, h₂, hl₁⟩ := tops_eq htops b
  obtain ⟨h₁', h₂', hl₁'⟩ := tops_eq htops b'
  have hblock := rowsN_eq_iff hl₁ hl₁'
  rw [SizesFollowN]
  simp only [Bool.forall_bool, h₁, h₂, h₁', h₂', Option.map_some, Option.some.injEq]
  simp only [detectorN, Bool.false_eq_true, if_false, decide_true, Bool.and_true, Bool.true_and, Bool.and_eq_true,
    decide_eq_true_eq]
  rw [hblock]
  constructor
  · rintro h ⟨ha, hb⟩
    exact (h ⟨hb, ha⟩).symm
  · rintro h ⟨hb, ha⟩
    exact (h ⟨ha, hb⟩).symm

end Many

/-! ## 実行 -/

section Fresh
variable {hash : List UInt8 → UInt32} {C : Codec K Q} {m : Prq} {instr lines : List (List UInt8)} {sizes : Bool}
variable {top : Book (OrdMap K Q) → Bool → Option (BookQuo K Q)}
variable {tops : Book (OrdMap K Q) → Bool → Option (List (K × Q))} {ntop : Nat}

theorem fresh1_iff (hm : m.unwinds = false) (htop : ∀ b s, ∃ x, top b s = some x ∧ x.p.isSome = true)
    (hempty : ∀ s, top makeBook s = some notAQuo) :
    Fresh hash C m (fun xb b => aligned1 sizes (top b) xb) Xone.zero [⟨none, none, none, none⟩] (block1 top) instr lines ↔
      EveryLine hash C m (fun b b' => (detector1 sizes).Notices (figs1 top b) (figs1 top b')) instr lines := by
  have hfigs : figs1 top makeBook = (notAQuo, notAQuo) := by rw [figs1, hempty, hempty]; rfl
  have hzero : (detector1 sizes).rem (figs1 top makeBook) = Xone.zero := by
    rw [hfigs]
    cases sizes <;> rfl
  have hblank : (detector1 sizes).block (figs1 top makeBook) = [⟨none, none, none, none⟩] := by
    rw [hfigs]
    simp [detector1, row1, notAQuo]
  rw [← hzero, ← hblank]
  exact fresh_iff_everyLine _ hm (aligned1_emit htop) (block1_eq htop)

theorem freshN_iff (hm : m.unwinds = false) (htops : ∀ b s, ∃ l, tops b s = some l ∧ l.length ≤ ntop)
    (hempty : ∀ s, tops makeBook s = some []) :
    Fresh hash C m (fun xb b => alignedN sizes ntop (tops b) xb) (Xmany.zero ntop) [] (blockN ntop tops) instr lines ↔
      EveryLine hash C m (fun b b' => (detectorN sizes ntop).Notices (figsN tops b) (figsN tops b')) instr lines := by
  have hfigs : figsN tops makeBook = ([], []) := by rw [figsN, hempty, hempty]; rfl
  have hzero : (detectorN sizes ntop).rem (figsN tops makeBook) = Xmany.zero ntop := by
    rw [hfigs]
    cases sizes <;> rfl
  have hblank : (detectorN sizes ntop).block (figsN tops makeBook) = [] := by
    rw [hfigs]
    rfl
  have h : Fresh hash C m (fun xb b => alignedN sizes ntop (tops b) xb) ((detectorN sizes ntop).rem (figsN tops makeBook))
      ((detectorN sizes ntop).block (figsN tops makeBook)) (blockN ntop tops) instr lines ↔ _ :=
    fresh_iff_everyLine _ hm (alignedN_emit htops) (blockN_eq htops)
  rwa [hzero, hblank] at h

end Fresh

end Books.Book2book
