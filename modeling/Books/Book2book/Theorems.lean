import Books.Book2book.Lemmas.Mirror
import Books.Book2book.Lemmas.Modes
import Books.Book2book.Lemmas.Printers
import Books.Xquo.Theorems
import Mathlib.Algebra.Order.Group.Int
import Mathlib.Data.Rat.Floor

/-!
# `book2book` の主定理
-/

set_option linter.unusedSectionVars false

namespace Books.Book2book

open Books.Btree Books.Book Books.Instr Books.Xquo

variable {K Q : Type} [LinearOrder K] [Zero K] [LinearOrder Q] [AddCommGroup Q]
variable {C : Codec K Q} {line : List UInt8} {x : Xquo K Q} {p : K} {s : Bool} {b r : Book (OrdMap K Q)}

/-! ## レベル 2 の出力 -/

/-- 行 `2⇥X⇥A1⇥6⇥1`。 -/
def topLine : List UInt8 := [50, 9, 88, 9, 65, 49, 9, 54, 9, 49, 10]

/-- `topLine` から読む気配。 -/
def topQuo : Xquo Int Int := ⟨⟨.ask, .lvl1, some 6, 1, 2 * nsecs⟩, 2, 1⟩

/-- 気配値 `ps` に数量 1 の売り気配のある板。 -/
def askBook (ps : List Int) : Book (OrdMap Int Int) :=
  bookRun (ps.map fun p => .add ⟨.ask, .lvl2, some p, 1, nsecs⟩)

theorem readXquo_topLine : readXquo intCodec topLine = some topQuo := by
  decide

/-- 行 `2⇥X⇥A3⇥5⇥2`。 -/
def incLine : List UInt8 := [50, 9, 88, 9, 65, 51, 9, 53, 9, 50, 10]

/-- `incLine` から読む気配。 -/
def incQuo : Xquo Int Int := ⟨⟨.ask, .lvl3, some 5, 2, 2 * nsecs⟩, 2, 1⟩

theorem readXquo_incLine : readXquo intCodec incLine = some incQuo := by
  decide

/-- 行 `2⇥X⇥C⇥⇥`。 -/
def clrLine : List UInt8 := [50, 9, 88, 9, 67, 9, 9, 10]

theorem levelLine_askLine : LevelLine intCodec askLine :=
  ⟨⟨⟨.ask, .lvl2, some 5, 1, nsecs⟩, 2, 1⟩, by decide, Or.inl ⟨false, 5, rfl, rfl, rfl, by decide⟩⟩

theorem levelLine_clrLine : LevelLine intCodec clrLine :=
  ⟨⟨⟨.clr, .lvl0, none, 0, 2 * nsecs⟩, 2, 1⟩, by decide, Or.inr ⟨rfl, by decide⟩⟩

/-- 巻き戻しの有無が違う二つの出力でも、`SafeRun` であれば、どの行の後でも、どの板にも同じ気配が見える。 -/
theorem modes_agree_run (hash : List UInt8 → UInt32) (C : Codec K Q) (instr lines : List (List UInt8)) (m₁ m₂ : Prq)
    (hsafe : m₁.unwinds = m₂.unwinds ∨ SafeRun hash C (initState hash instr) lines) (n : Nat) :
    SameBooks (mainLoop hash C m₁ (initState hash instr) (lines.take n))
      (mainLoop hash C m₂ (initState hash instr) (lines.take n)) := by
  rcases hsafe with hm | hsafe
  · rw [mainLoop_congr hm]
    exact sameBooks_refl _
  · have hinit := rel_initState (K := K) (Q := Q) hash instr
    exact sameBooks_of_rel (rel_mainLoop hinit (hsafe.take n)) (rel_mainLoop hinit (hsafe.take n))

theorem modes_agree_run_ask :
    SafeRun (fun _ => 0) intCodec (initState (fun _ => 0) [] : State (OrdMap Int Int)) [askLine] ∧
    SameBooks (mainLoop (fun _ => 0) intCodec .prq2 (initState (fun _ => 0) [] : State (OrdMap Int Int)) ([askLine].take 1))
      (mainLoop (fun _ => 0) intCodec .prq1 (initState (fun _ => 0) []) ([askLine].take 1)) := by
  have hread : readXquo intCodec askLine = some ⟨⟨.ask, .lvl2, some 5, 1, nsecs⟩, 2, 1⟩ := by
    decide
  have hsafe : SafeRun (fun _ => 0) intCodec (initState (fun _ => 0) [] : State (OrdMap Int Int)) [askLine] := by
    refine ⟨fun x k st₁ b hx _ _ _ => ?_, fun _ _ _ => trivial⟩
    rw [hread] at hx
    cases hx
    exact ⟨fun hf => absurd hf (by decide), fun hs => absurd hs (by decide)⟩
  exact ⟨hsafe, modes_agree_run _ _ [] _ .prq2 .prq1 (Or.inr hsafe) 1⟩

/-- 行 `2⇥X⇥A1⇥6⇥-1`。 -/
def negLine : List UInt8 := [50, 9, 88, 9, 65, 49, 9, 54, 9, 45, 49, 10]

/-- 受け付けない負の数量のレベル 1 の気配が、巻き戻す出力だけで手前の気配を消す。 -/
theorem rejected_quote_unwinds :
    ¬ SameBooks (mainLoop (fun _ => 0) intCodec .prq2 (initState (fun _ => 0) [] : State (OrdMap Int Int))
        [askLine, negLine])
      (mainLoop (fun _ => 0) intCodec .prq1 (initState (fun _ => 0) []) [askLine, negLine]) := by
  intro h
  have h₂ : levelAt (mainLoop (fun _ => 0) intCodec .prq2 (initState (fun _ => 0) [] : State (OrdMap Int Int))
      [askLine, negLine]) 0 false 5 = some .nil := by
    decide
  have h₁ : levelAt (mainLoop (fun _ => 0) intCodec .prq1 (initState (fun _ => 0) [] : State (OrdMap Int Int))
      [askLine, negLine]) 0 false 5 = some ⟨1, nsecs⟩ := by
    decide
  have hlev := h.levelAt_eq 0 false 5
  rw [h₂, h₁] at hlev
  exact absurd hlev (by decide)

/-! ## 側の参照 -/

theorem addSides_inQuos (q : BookQuo K Q) : ∀ s ∈ addSides q, s.quos?.isSome = true := by
  intro s hs
  unfold addSides at hs
  cases hq : q.s with
  | unk => rw [hq] at hs; cases hs
  | ask =>
      simp only [hq] at hs
      split at hs
      · cases hs
      · rw [List.mem_singleton.mp hs]; rfl
  | bid =>
      simp only [hq] at hs
      split at hs
      · cases hs
      · rw [List.mem_singleton.mp hs]; rfl
  | clr =>
      simp only [hq] at hs
      rcases List.mem_cons.mp hs with rfl | hs
      · rfl
      · rw [List.mem_singleton.mp hs]; rfl
  | del =>
      simp only [hq] at hs
      rcases List.mem_cons.mp hs with rfl | hs
      · rfl
      · rw [List.mem_singleton.mp hs]; rfl
  | other n => rw [hq] at hs; cases hs

/-- 配列の外を指すのは、巻き戻す出力で、側が `BOOK_SIDE_ASK` でも `BOOK_SIDE_BID` でもないレベル 1 の気配である。 -/
theorem inQuos_iff {m : Prq} {q : BookQuo K Q} :
    InQuos m q ↔ ¬ (q.f = .lvl1 ∧ m.unwinds = true ∧ q.s.quos? = none) := by
  constructor
  · rintro h ⟨hf, hm, hs⟩
    have hused : q.s ∈ usedSides m q := by
      rw [usedSides, if_pos ⟨hf, hm⟩]
      exact List.mem_cons_self
    have hsome := h q.s hused
    rw [hs] at hsome
    cases hsome
  · intro h s hs
    unfold usedSides at hs
    split at hs
    · rename_i hc
      rcases List.mem_cons.mp hs with rfl | hs
      · rw [Option.isSome_iff_ne_none]
        exact fun hn => h ⟨hc.1, hc.2, hn⟩
      · exact addSides_inQuos q s hs
    · split at hs
      · rcases List.mem_cons.mp hs with rfl | hs
        · rfl
        · rw [List.mem_singleton.mp hs]; rfl
      · exact addSides_inQuos q s hs

/-- 一つの気配の処理が定まるのは、側の参照が配列の中にあるときで、そのときに限る。 -/
theorem advance_isSome_iff {T : Bool → Type} [BTree T K Q] {m : Prq} {b : Book T} {q : BookQuo K Q} :
    (advance m b q).isSome = true ↔ InQuos m q := by
  rw [Option.isSome_iff_ne_none, inQuos_iff, ne_eq, advance_eq_none_iff]

/-- 入力の全体で側の参照が配列の中にあるのは、巻き戻さない出力か、板に加えるレベル 1 の気配の側がすべて `BOOK_SIDE_ASK` か
`BOOK_SIDE_BID` のときで、そのときに限る。 -/
theorem inQuos_run_iff {T : Bool → Type} [BTree T K Q] (hash : List UInt8 → UInt32) (C : Codec K Q) (m : Prq)
    (instr lines : List (List UInt8)) :
    (∀ q ∈ applied hash C m (initState hash instr : State T) lines, InQuos m q) ↔
      m.unwinds = false ∨
      ∀ q ∈ applied hash C m (initState hash instr : State T) lines, q.f = .lvl1 → q.s = .ask ∨ q.s = .bid := by
  have hside : ∀ s : BookSide, s.quos? = none ↔ ¬ (s = .ask ∨ s = .bid) := by
    intro s
    cases s <;> simp [BookSide.quos?]
  simp only [inQuos_iff, hside]
  constructor
  · intro h
    cases hm : m.unwinds with
    | false => exact Or.inl rfl
    | true =>
        refine Or.inr (fun q hq hf => ?_)
        by_contra hs
        exact h q hq ⟨hf, hm, hs⟩
  · rintro (hm | h) q hq ⟨hf, hm', hs⟩
    · rw [hm] at hm'
      cases hm'
    · exact hs (h q hq hf)

/-- 行 `1⇥X⇥C1⇥⇥`。 -/
def clr1Line : List UInt8 := [49, 9, 88, 9, 67, 49, 9, 9, 10]

/-- レベル 1 の CLR の行は、`quos[2]` を引く。 -/
theorem clr1_outside_quos : ¬ ∀ q ∈ applied (fun _ => 0) intCodec .prq2
    (initState (fun _ => 0) [] : State (OrdMap Int Int)) [clr1Line], InQuos .prq2 q := by
  have happ : applied (fun _ => 0) intCodec .prq2 (initState (fun _ => 0) [] : State (OrdMap Int Int)) [clr1Line] =
      [⟨.clr, .lvl1, none, 0, nsecs⟩] := by
    decide
  intro h
  rw [happ] at h
  have hclr := h _ List.mem_cons_self .clr (by decide)
  cases hclr

/-! ## 変化の検出 -/

section Display
variable {K Q : Type} [LinearOrder K] [Zero K] [LinearOrder Q] [Field Q]

end Display

/-- 整数の気配値と、有理数の数量の変換。 -/
def ratCodec : Codec Int ℚ where
  strtopx := strToInt
  strtoqx s := (strToInt s).1
  pxtostr := intCodec.pxtostr
  qxtostr q := intToStr q.num

/-- 整数の桁に揃える。 -/
def toUnits : Quantize Int ℚ where
  val k := k
  px x _ := (x + 1 / 2).floor
  qx x _ := (x + 1 / 2).floor

section Stale
variable {K Q : Type} [LinearOrder K] [Zero K] [LinearOrder Q] [Field Q]

/-- すべての行の後に、板 `k` について最後に印字した表が、今の板の表に等しいか。 -/
def freshAt {M : Type} (hash : List UInt8 → UInt32) (C : Codec K Q) (m : Prq)
    (prq : M → Book (OrdMap K Q) → Option (M × List (Row K Q))) (zero : M) (blank : List (Row K Q))
    (block : Book (OrdMap K Q) → Option (List (Row K Q))) (instr lines : List (List UInt8)) (k : Nat) : Option Bool := do
  let r ← mainLoop hash C m (initState hash instr : State (OrdMap K Q)) lines
  let d ← display prq k (zero, blank) r.2
  let rows ← block (bookAt r.1 k)
  return decide (d.2 = rows)

theorem Fresh.freshAt {M : Type} {hash : List UInt8 → UInt32} {C : Codec K Q} {m : Prq}
    {prq : M → Book (OrdMap K Q) → Option (M × List (Row K Q))} {zero : M} {blank : List (Row K Q)}
    {block : Book (OrdMap K Q) → Option (List (Row K Q))} {instr lines : List (List UInt8)}
    (h : Fresh hash C m prq zero blank block instr lines) (k : Nat) :
    Book2book.freshAt hash C m prq zero blank block instr lines k ≠ some false := by
  intro hf
  simp only [Book2book.freshAt, Option.bind_eq_bind, Option.bind_eq_some_iff] at hf
  obtain ⟨⟨st, calls⟩, hrun, ⟨xb, shown⟩, hd, rows, hb, he⟩ := hf
  obtain ⟨xb', rows', hd', hb'⟩ := h lines [] calls st (List.append_nil _).symm hrun k
  rw [hd] at hd'
  rw [hb] at hb'
  cases hd'
  cases hb'
  exact absurd (Option.some.inj he) (by simp)

end Stale

/-- 行 `2⇥X⇥A2⇥5⇥0`。 -/
def goneLine : List UInt8 := [50, 9, 88, 9, 65, 50, 9, 53, 9, 48, 10]

/-- 行 `1⇥X⇥A2⇥0⇥1`。 -/
def freeLine : List UInt8 := [49, 9, 88, 9, 65, 50, 9, 48, 9, 49, 10]

/-- 行 `1⇥X⇥A2⇥6⇥1000`、`1⇥X⇥A2⇥5⇥1000`、`1⇥X⇥A2⇥5⇥100`。 -/
def thinningLines : List (List UInt8) :=
  [[49, 9, 88, 9, 65, 50, 9, 54, 9, 49, 48, 48, 48, 10], [49, 9, 88, 9, 65, 50, 9, 53, 9, 49, 48, 48, 48, 10],
    [49, 9, 88, 9, 65, 50, 9, 53, 9, 49, 48, 48, 10]]

end Books.Book2book
