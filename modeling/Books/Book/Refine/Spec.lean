import Books.Book.Lemmas.Add
import Books.Btree.Lemmas.Levels

/-!
# 木の板と理想の板

`btree.c` の木の上の板は、木の欠陥に触れず、数量も負にしない限り、理想の順序つき写像の上の板と同じに見える。欠陥に触れない
条件と、同じに見えることを定める。
-/

namespace Books.Book

open Books.Btree

variable {K Q : Type} [LinearOrder K] [Zero K] [LinearOrder Q] [AddCommGroup Q]

/-! ## 反復で見える気配 -/

section Generic
variable {T : Bool → Type} [BTree T K Q] {descp : Bool}

/-- `book_iter_next` を、偽を返すまで呼んで得る `i.p` と、`i.q`、`i.t` の並び。 -/
def bookIterNexts : Nat → T descp → BTree.Iter T → List (Option K × BtreeVal Q)
  | 0, _, _ => []
  | n + 1, t, i =>
      let r := BTree.iterNext t i
      if r.2.2 then (BTree.iterKey r.2.1, BTree.load r.1 (BTree.iterRef r.2.1)) :: bookIterNexts n r.1 r.2.1 else []

/-- `book_iter` の反復子から得る並び。 -/
def bookIter (b : Book T) (s : Bool) : List (Option K × BtreeVal Q) :=
  bookIterNexts (BTree.bound (b.get s)) (b.get s) BTree.iter

end Generic

/-! ## 木の欠陥に触れない操作 -/

/-- 気配値 `p` の追加は、返した場所を失わず、葉のつながりも壊さない。 -/
def safePut (h : Heap K Q) (p : K) : Bool := !losesCell h (some p) && !breaksChain h (some p)

/-- 値が nil でない場所のビットが、どの葉でも立っている。 -/
def AllMarked (h : Heap K Q) : Prop := ∀ x ∈ leaves h, (h.get x).Marked

instance (h : Heap K Q) : Decidable (AllMarked h) := inferInstanceAs (Decidable (∀ x ∈ leaves h, (h.get x).Marked))

/-- 一方の側への気配の追加が、木の欠陥に触れない。 -/
def safeLvl (h : Heap K Q) (q : BookQuo K Q) : Bool :=
  match q.f with
  | .lvl3 | .lvl2 => q.p.any (safePut h)
  | .lvl1 => decide (q.q < 0) || q.p.all (safePut (btreeClr h root))
  | .lvl0 => true

/-- 側 `s` で見つかる `p` の数量が、約定の数量 `x` に足りない。 -/
def lacksAt (b : Book (Tree K Q)) (s : Bool) (p : K) (x : Q) : Bool :=
  !(find (b.get s) p).nilP && decide ((find (b.get s) p).q < x)

/-- `book_add` が、木の欠陥に触れず、負の数量も残さない。 -/
def safeAdd (b : Book (Tree K Q)) (q : BookQuo K Q) : Bool :=
  match q.s with
  | .ask => safeLvl b.ask q && !(decide (q.f = .lvl2) && decide (q.q < 0))
  | .bid => safeLvl b.bid q && !(decide (q.f = .lvl2) && decide (q.q < 0))
  | .del => decide (AllMarked b.ask) && decide (AllMarked b.bid) &&
      !(q.p.any fun p => lacksAt b false p q.q || lacksAt b true p q.q)
  | _ => true

/-- 操作が、木の欠陥に触れず、負の数量も残さない。 -/
def safeOp (b : Book (Tree K Q)) : BookOp K Q → Bool
  | .add q => safeAdd b q
  | .exp t => decide (t = 0) || decide (t = natv) || (decide (AllMarked b.ask) && decide (AllMarked b.bid))
  | .iter _ _ => true

/-- どの段の操作も、その段の前の板で `safeOp` を満たす。 -/
def SafeRun : Book (Tree K Q) → List (BookOp K Q) → Prop
  | _, [] => True
  | b, op :: ops => safeOp b op = true ∧ SafeRun (bookStep b op) ops

/-! ## 同じに見える -/

/-- 返す気配が等しい。数量が 0 の気配の時刻は問わない。 -/
def SameReply (r r' : BookQuo K Q) : Prop := r' = r ∨ (r.q = 0 ∧ r' = { r with t := r'.t })

/-- 木の板 `b` は、理想の板 `m` と同じに見える。検索で見つかる値と、次の `book_add` が返す気配が等しく、ビットがすべて
立っていれば、反復で見える気配も等しい。 -/
structure Refines (b : Book (Tree K Q)) (m : Book (OrdMap K Q)) : Prop where
  find : ∀ s k, find (b.get s) k = m.visible s k
  iter : ∀ s, AllMarked (b.get s) → bookIter b s = bookIter m s
  reply : ∀ q, safeAdd b q = true → SameReply (bookAdd b q).2 (bookAdd m q).2

end Books.Book
