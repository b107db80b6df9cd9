import Books.Book.Lemmas.Real
import Books.Xquo.Columns
import Mathlib.Algebra.Order.Group.Int

/-!
# 気配の行の主定理
-/

namespace Books.Xquo

open Books.Btree Books.Book

variable {K Q : Type} [LinearOrder K] [Zero K] [LinearOrder Q] [AddCommGroup Q]

/-! ## 木のキー -/

/-- 行の列を `read_xquo` で読み、順に `book_add` に渡す操作の列。 -/
def readOps (C : Codec K Q) (lines : List (List UInt8)) : List (BookOp K Q) :=
  (lines.filterMap (readXquo C)).map fun x => .add x.q

/-- レベル 2 と 3 の気配に気配値がある限り、木のキーに NaN はなく、真に並ぶ。見つかる気配値へのレベル 2 の気配は、その
気配だけを書き換える。 -/
theorem keepsKeys_run (ops : List (BookOp K Q)) (hops : ∀ q, .add q ∈ ops → priced q = true) :
    KeepsKeys (bookRun ops : Book (Tree K Q)) := by
  have S := bookSound_run hops
  exact ⟨S.bookSorted, fun s p v hp => S.updatesLevel hp⟩

/-- 気配値 5 の売り気配の行 `1⇥X⇥A2⇥5⇥1`。 -/
def askLine : List UInt8 := [49, 9, 88, 9, 65, 50, 9, 53, 9, 49, 10]

/-- 気配値のない売り気配の行 `1⇥X⇥A2⇥⇥1`。 -/
def nanLine : List UInt8 := [49, 9, 88, 9, 65, 50, 9, 9, 49, 10]

theorem readOps_askLine : readOps intCodec [askLine] = [.add ⟨.ask, .lvl2, some 5, 1, nsecs⟩] := by
  decide

theorem keepsKeys_run_ask : (∀ q, .add q ∈ readOps intCodec [askLine] → priced q = true) ∧
    KeepsKeys (bookRun (readOps intCodec [askLine]) : Book (Tree Int Int)) := by
  have hops : ∀ q, .add q ∈ readOps intCodec [askLine] → priced q = true := by
    intro q hq
    rw [readOps_askLine] at hq
    cases List.mem_singleton.mp hq
    rfl
  exact ⟨hops, keepsKeys_run _ hops⟩

/-- 気配値のない行の後では、売りの木に NaN のキーがあり、気配値 5 の行が二つ目の場所を作る。 -/
theorem nan_doubles_level : ¬ KeepsKeys (bookRun (readOps intCodec [askLine, nanLine]) : Book (Tree Int Int)) ∧
    treeKeys (bookRun (readOps intCodec [askLine, nanLine, askLine]) : Book (Tree Int Int)).ask =
      [some 5, none, some 5] := by
  have hkeys : treeKeys (bookRun (readOps intCodec [askLine, nanLine]) : Book (Tree Int Int)).ask = [none, some 5] := by
    decide
  refine ⟨fun h => ?_, by decide⟩
  have hnan := h.1.1.2.1 none
  rw [hkeys] at hnan
  exact hnan (by decide) rfl

/-! ## 正しい形の行 -/

section Columns
variable {C : Codec K Q} {T I S P X : List UInt8}

end Columns

end Books.Xquo
