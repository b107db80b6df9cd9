import Books.Book2book.Refine.Lemmas
import Books.Book2book.Theorems

/-!
# 木の上の出力

木の欠陥に触れず、数量を負にしない入力では、`book2book` の `prq2` と `prq3` は、木の上でも、理想の順序つき写像の上でも、同じ
行を印字する。
-/

set_option linter.unusedSectionVars false

namespace Books.Book2book

open Books.Btree Books.Book Books.Instr Books.Xquo

variable {K Q : Type} [LinearOrder K] [Zero K] [LinearOrder Q] [AddCommGroup Q]
variable {C : Codec K Q} {c : Call (Tree K Q) K Q} {c' : Call (OrdMap K Q) K Q}

/-- `prq2` は返した気配を読まず、`prq3` はその数量だけを読む。 -/
theorem SameCall.text_eq (h : SameCall c c') (delta : Bool) : quoText C delta c = quoText C delta c' := by
  unfold quoText
  cases delta with
  | false => rw [if_neg Bool.false_ne_true, if_neg Bool.false_ne_true, prq2, prq2, h.pre, h.q]
  | true => rw [if_pos rfl, if_pos rfl, prq3, prq3, h.pre, h.q, h.o.q_eq]

theorem map_sameCalls {α : Type} {f : Call (Tree K Q) K Q → α} {g : Call (OrdMap K Q) K Q → α}
    (hfg : ∀ c c', SameCall c c' → f c = g c') {cs : List (Call (Tree K Q) K Q)} {cs' : List (Call (OrdMap K Q) K Q)}
    (h : List.Forall₂ SameCall cs cs') : cs.map f = cs'.map g := by
  induction h with
  | nil => rfl
  | cons hc _ ih => rw [List.map_cons, List.map_cons, hfg _ _ hc, ih]

theorem sameOutput_of_rel {delta : Bool} {x : Option (State (Tree K Q) × List (Call (Tree K Q) K Q))}
    {y : Option (State (OrdMap K Q) × List (Call (OrdMap K Q) K Q))} [IsOrderedAddMonoid Q]
    (h : Option.Rel SameRun x y) : SameOutput C delta x y := by
  cases h with
  | none => trivial
  | some h =>
      obtain ⟨hst, hcs⟩ := h
      refine ⟨map_sameCalls (fun c c' h => ?_) hcs, hst.conx, hst.nctch, hst.zbook, ?_⟩
      · rw [h.k, h.text_eq]
      · exact hst.book.imp (fun _ _ R => R.refines)

/-- 行 `1⇥X⇥A2⇥5⇥1`、`2⇥X⇥A1⇥6⇥1`、`3⇥X⇥A3⇥7⇥2`、`4⇥X⇥C3⇥0⇥0`。 -/
def sweepLines : List (List UInt8) :=
  [askLine, topLine, [51, 9, 88, 9, 65, 51, 9, 55, 9, 50, 10], [52, 9, 88, 9, 67, 51, 9, 48, 9, 48, 10]]

end Books.Book2book
