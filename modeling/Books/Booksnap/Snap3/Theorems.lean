import Books.Booksnap.Lemmas.Main
import Books.Booksnap.Snap3.Lemmas.Delta
import Books.Booksnap.Snap3.Lemmas.Memory

/-!
# `snap3` の主定理
-/

namespace Books.Booksnap.Snap3

open Books.Btree Books.Book Books.Instr Books.Xquo

variable {K Q : Type} [LinearOrder K] [Zero K] [LinearOrder Q] [AddCommGroup Q]

/-! ## 差 -/

/-- 気配値 `p` に数量 1 の売り気配がある板。 -/
def askBook (p : Int) : Book (OrdMap Int Int) := (bookAdd makeBook ⟨.ask, .lvl2, some p, 1, 1⟩).1

theorem shownSide_askBook (p : Int) : shownSide ((askBook p).get false) = [(p, 1)] := by
  simp [shownSide, askBook, bookAdd, addLvl, putVal, BTree.put, BTree.store, BTree.load, makeBook, BTree.make, OrdMap.make,
    OrdMap.insert, OrdMap.set, insertKey, Book.get, Book.set, BtreeVal.nilP]

/-- 気配値 1 と 2 にそれぞれ数量 1 のある売りの側。 -/
def twoAsks : List (Int × Int) := [(1, 1), (2, 1)]

theorem sideOk_twoAsks : SideOk false twoAsks := by
  refine ⟨?_, by decide⟩
  simp [twoAsks, Before]

section Memory
variable {T : Bool → Type} [BTree T K Q]

/-- 写真の列のどの写真の初めにも一つ前の写真の同じ板を覚えているのは、場所を増やして失う気配がないときで、そのときに限る。 -/
theorem snap3_recalls_iff (nbook : Nat) (rounds : List (List (Book T)))
    (hgrow : rounds.Pairwise fun bs bs' => bs.length ≤ bs'.length) :
    ∃ aux xss, snap3Rounds (initSnap3 nbook) rounds = some (aux, xss) ∧
      (RecallsRun [] rounds xss ↔ LosesNothing ((nbook ||| 7) + 1) rounds) :=
  recalls_init_iff nbook hgrow

theorem snap3_recalls_ask : ∃ aux xss, snap3Rounds (initSnap3 0) [[askBook 1], [askBook 2, askBook 1]] = some (aux, xss) ∧
    RecallsRun [] [[askBook 1], [askBook 2, askBook 1]] xss := by
  obtain ⟨aux, xss, hrun, hiff⟩ := snap3_recalls_iff 0 [[askBook 1], [askBook 2, askBook 1]] (by
    refine List.pairwise_cons.mpr ⟨fun bs hbs => ?_, List.pairwise_singleton _ _⟩
    rw [List.mem_singleton.mp hbs]
    decide)
  exact ⟨aux, xss, hrun, hiff.mpr ⟨fun i hi => absurd hi (Nat.not_lt_zero i), trivial⟩⟩

/-- 九枚の板の写真を二度撮ると、二度目の初めには、前の写真を覚えていない。 -/
theorem growth_forgets : ∃ aux xss,
    snap3Rounds (initSnap3 0) [List.replicate 9 (askBook 1), List.replicate 9 (askBook 1)] = some (aux, xss) ∧
    ¬ RecallsRun [] [List.replicate 9 (askBook 1), List.replicate 9 (askBook 1)] xss := by
  have hlevels : levels (askBook 1) false = [(some 1, 1)] := by decide
  have hgrow : [List.replicate 9 (askBook 1), List.replicate 9 (askBook 1)].Pairwise
      fun bs bs' : List (Book (OrdMap Int Int)) => bs.length ≤ bs'.length := by
    simp
  obtain ⟨aux, xss, hrun, hiff⟩ := recalls_init_iff 0 hgrow
  refine ⟨aux, xss, hrun, fun h => ?_⟩
  have hempty := (hiff.mp h).1 0 (by decide) (askBook 1) rfl false
  rw [hlevels] at hempty
  cases hempty

/-- `main` が撮る写真も、この条件の下で前の写真を覚えている。 -/
theorem main_recalls {hash : List UInt8 → UInt32} {cfg : Conf} {C : Codec K Q} {sfil instr lines : List (List UInt8)}
    {rs : List (Round K Q)} (h : main hash cfg C sfil instr lines = some rs) (nbook : Nat) :
    ∃ aux xss, snap3Rounds (initSnap3 nbook) (rs.map fun r => r.books.map Named.book) = some (aux, xss) ∧
      (LosesNothing ((nbook ||| 7) + 1) (rs.map fun r => r.books.map Named.book) →
        RecallsRun [] (rs.map fun r => r.books.map Named.book) xss) := by
  have hgrow : (rs.map fun r => r.books.map Named.book).Pairwise fun bs bs' => bs.length ≤ bs'.length := by
    rw [List.pairwise_map]
    refine (main_grows h).imp fun {r r'} hle => ?_
    rw [List.length_map, List.length_map]
    exact hle
  obtain ⟨aux, xss, hrun, hiff⟩ := recalls_init_iff nbook hgrow
  exact ⟨aux, xss, hrun, hiff.mpr⟩

end Memory

end Books.Booksnap.Snap3
