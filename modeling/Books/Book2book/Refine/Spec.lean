import Books.Book.Refine.Spec
import Books.Book2book.Code
import Books.Instr.Lemmas

/-!
# 木の上の `book2book`

`prq2` か `prq3` で印字する `book2book` を、`btree.c` の木の上と、理想の順序つき写像の上で動かす。この二つの出力は板の中を
読まない。木の欠陥に触れない行の条件と、二つの実行が同じに見えることを定める。
-/

namespace Books.Book2book

open Books.Btree Books.Book Books.Instr Books.Xquo

variable {K Q : Type} [LinearOrder K] [Zero K] [LinearOrder Q] [AddCommGroup Q]

/-! ## 木の欠陥に触れない行 -/

/-- 一方の側の巻き戻しが、木の欠陥に触れない。値が nil でない場所のビットが立っていて、根の分割も先送りしていない。 -/
def safeUnwind (h : Heap K Q) : Bool := decide (AllMarked h) && !(h.get root).splitp

/-- 一つの気配の処理が、木の欠陥に触れず、負の数量も残さない。 -/
def safeAdvance (m : Prq) (b : Book (Tree K Q)) (q : BookQuo K Q) : Bool :=
  if q.f = .lvl1 ∧ m.unwinds = true then
    match q.s.quos? with
    | none => true
    | some s =>
        safeUnwind (b.get s) && safeAdd (unwindAll s (fun p => if s then pxLt q.p p else pxLt p q.p) b).1 q
  else if q.s = .clr ∧ m.unwinds = true then safeUnwind b.bid && safeUnwind b.ask
  else safeAdd b q

variable (hash : List UInt8 → UInt32)

/-- 入力の一行の処理が、木の欠陥に触れず、負の数量も残さない。 -/
def safeLine (C : Codec K Q) (m : Prq) (st : State (Tree K Q)) (line : List UInt8) : Bool :=
  match readXquo C line with
  | none => true
  | some x =>
      decide (x.q.s = .unk) ||
        match route hash (fun _ => makeBook) st (insOf line x) with
        | some (.use k, st) => st.book[k]?.all fun b => safeAdvance m b x.q
        | _ => true

/-- どの行の処理も、その行の前の表で `safeLine` を満たす。 -/
def safeLines (C : Codec K Q) (m : Prq) : State (Tree K Q) → List (List UInt8) → Bool
  | _, [] => true
  | st, line :: lines =>
      safeLine hash C m st line &&
        match mainStep hash C m st line with
        | none => true
        | some (st, _) => safeLines C m st lines

/-! ## 同じ出力 -/

/-- 板の中を読まない出力。`delta` は、数量の差を印字する `prq3` を表す。 -/
def quoPrq (delta : Bool) : Prq := if delta then .prq3 else .prq2

/-- `quoPrq` の出力が、一つの呼び出しで印字する行。 -/
def quoText {T : Bool → Type} (C : Codec K Q) (delta : Bool) (c : Call T K Q) : List UInt8 :=
  if delta then prq3 C c.pre c.q c.o else prq2 C c.pre c.q c.o

/-- どちらの実行も終わりまで進んで、同じ板の番号で同じ行を印字し、終わりの板も同じに見える。または、どちらの実行も定まらない。 -/
def SameOutput (C : Codec K Q) (delta : Bool) : Option (State (Tree K Q) × List (Call (Tree K Q) K Q)) →
    Option (State (OrdMap K Q) × List (Call (OrdMap K Q) K Q)) → Prop
  | some (st, cs), some (st', cs') =>
      (cs.map fun c => (c.k, quoText C delta c)) = (cs'.map fun c => (c.k, quoText C delta c)) ∧ st.Rel Refines st'
  | none, none => True
  | _, _ => False

end Books.Book2book
