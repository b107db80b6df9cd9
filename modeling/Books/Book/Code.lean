import Books.Book.Tree

/-!
# `books.c` の関数

気配値の型 `K` と数量の型 `Q` は、`_Decimal32` と `_Decimal64` の両方の版を表すために変数にする。数量の計算は正確で
あるとする。気配値の NaN は `none` で表す。
-/

namespace Books.Book

open Books.Btree

/-- `book_side_t`。`read_xquo` は、名前のない値 5 から 15 も作る。 -/
inductive BookSide where
  | unk
  | ask
  | bid
  | clr
  | del
  | other (n : Fin 11)
deriving DecidableEq

/-- `book_lvl_t`。 -/
inductive BookLvl where
  | lvl0
  | lvl1
  | lvl2
  | lvl3
deriving DecidableEq

/-- `book_quo_t`。 -/
structure BookQuo (K Q : Type) where
  s : BookSide
  f : BookLvl
  p : Option K
  q : Q
  t : Tv
deriving DecidableEq

/-- `NATV`。 -/
def natv : Tv := 0xffffffffffffffff

/-- `NOT_A_QUO`。 -/
def notAQuo {K Q : Type} [Zero K] [Zero Q] : BookQuo K Q := ⟨.unk, .lvl0, some 0, 0, 0⟩

/-- `book_t`。売りの木は昇順、買いの木は降順である。 -/
structure Book (T : Bool → Type) where
  ask : T false
  bid : T true

namespace Book

variable {T : Bool → Type}

/-- `b.BOOK(s)`。側は木の向きで表す。 -/
def get (b : Book T) : (s : Bool) → T s
  | false => b.ask
  | true => b.bid

def set (b : Book T) : (s : Bool) → T s → Book T
  | false, t => { b with ask := t }
  | true, t => { b with bid := t }

@[simp] theorem get_set_eq (b : Book T) (s : Bool) (t : T s) : (b.set s t).get s = t := by
  cases s <;> rfl

@[simp] theorem set_get (b : Book T) (s : Bool) : b.set s (b.get s) = b := by
  cases s <;> rfl

theorem get_set_ne (b : Book T) {s s' : Bool} (t : T s) (h : s' ≠ s) : (b.set s t).get s' = b.get s' := by
  cases s <;> cases s' <;> first | rfl | exact absurd rfl h

end Book

/-- 側を表す `book_side_t`。 -/
def sideOf : Bool → BookSide
  | false => .ask
  | true => .bid

/-- `BIDX(s)` が配列 `quos` の中を指すときの、木の向き。 -/
def BookSide.quos? : BookSide → Option Bool
  | .ask => some false
  | .bid => some true
  | _ => none

variable {K Q : Type} [LinearOrder K] [Zero K] [LinearOrder Q] [AddCommGroup Q]
variable {T : Bool → Type} [BTree T K Q] {descp : Bool}

/-! ## 気配値の比較 -/

/-- `a < b`。NaN との比較は偽である。 -/
def pxLt : Option K → Option K → Bool
  | some a, some b => decide (a < b)
  | _, _ => false

/-- `a <= b`。 -/
def pxLe : Option K → Option K → Bool
  | some a, some b => decide (a ≤ b)
  | _, _ => false

/-- `a == b`。NaN との比較は偽である。 -/
def pxEq : Option K → Option K → Bool
  | some a, some b => decide (a = b)
  | _, _ => false

/-! ## `book_add` -/

/-- `make_book`。 -/
def makeBook : Book T := ⟨BTree.make false, BTree.make true⟩

/-- `book_clr`。 -/
def bookClr (b : Book T) : Book T := ⟨BTree.clr b.ask, BTree.clr b.bid⟩

/-- `book_add` の、木に値を書き込む部分。`f` は、元の値から書き込む値を作る。元の値も返す。 -/
def putVal (t : T descp) (p : Option K) (f : BtreeVal Q → BtreeVal Q) : T descp × BtreeVal Q :=
  let r := BTree.put t p
  let o := BTree.load r.1 r.2
  (BTree.store r.1 r.2 (f o), o)

/-- `book_add` の、側が `BOOK_SIDE_ASK` か `BOOK_SIDE_BID` のとき。 -/
def addLvl (b : Book T) (s : Bool) (q : BookQuo K Q) : Book T × BookQuo K Q :=
  match q.f with
  | .lvl3 =>
      let r := putVal (b.get s) q.p fun o => ⟨if 0 ≤ q.q + o.q then q.q + o.q else 0, q.t⟩
      (b.set s r.1, { q with q := r.2.q, t := r.2.t })
  | .lvl2 =>
      let r := putVal (b.get s) q.p fun _ => ⟨q.q, q.t⟩
      (b.set s r.1, { q with q := r.2.q, t := r.2.t })
  | .lvl1 =>
      if q.q < 0 then (b, notAQuo)
      else
        let t := BTree.clr (b.get s)
        if q.p.isNone then (b.set s t, q)
        else
          let r := putVal t q.p fun _ => ⟨q.q, q.t⟩
          (b.set s r.1, { q with q := r.2.q, t := r.2.t })
  | .lvl0 => (b, notAQuo)

/-- `for (btree_iter_t i = {.t = …}; btree_iter_next(&i) && …;) { i.v->q = …; }`。`go` は繰り返しを続ける条件、
`f` は値を書き換える式である。 -/
def eachVal (go : Option K → Bool) (f : Option K → BtreeVal Q → BtreeVal Q) : Nat → T descp → BTree.Iter T → T descp
  | 0, t, _ => t
  | n + 1, t, i =>
      let r := BTree.iterNext t i
      if r.2.2 && go (BTree.iterKey r.2.1) then
        let c := BTree.iterRef r.2.1
        eachVal go f n (BTree.store r.1 c (f (BTree.iterKey r.2.1) (BTree.load r.1 c))) r.2.1
      else r.1

/-- `BOOK_SIDE_DEL` の一方の側。`past` は、気配値が `q.p` より手前にあることを表す。 -/
def delSide (past : Option K → Option K → Bool) (go : Option K → Option K → Bool) (q : BookQuo K Q) (t : T descp) :
    T descp :=
  eachVal (fun k => go k q.p) (fun k v => { v with q := if past k q.p then 0 else v.q - q.q }) (BTree.bound t) t
    BTree.iter

/-- `book_add`。 -/
def bookAdd (b : Book T) (q : BookQuo K Q) : Book T × BookQuo K Q :=
  match q.s with
  | .bid => addLvl b true q
  | .ask => addLvl b false q
  | .clr => (bookClr b, q)
  | .del =>
      (⟨delSide pxLt pxLe q b.ask, delSide (fun k p => pxLt p k) (fun k p => pxLe p k) q b.bid⟩, q)
  | _ => (b, notAQuo)

/-! ## そのほかの操作 -/

/-- `book_exp`。 -/
def bookExp (b : Book T) (t : Tv) : Book T :=
  if t = 0 then b
  else if t = natv then bookClr b
  else
    let f := fun (_ : Option K) (v : BtreeVal Q) => if v.t ≤ t then .nil else v
    ⟨eachVal (fun _ => true) f (BTree.bound b.ask) b.ask BTree.iter,
      eachVal (fun _ => true) f (BTree.bound b.bid) b.bid BTree.iter⟩

/-- 作りたての反復子で `book_iter_next` を `n` 回呼んだ後の木。`book_top` などの読み出しも、木に対してはこの形をとる。 -/
def nextTimes : Nat → T descp → BTree.Iter T → T descp
  | 0, t, _ => t
  | n + 1, t, i => nextTimes n (BTree.iterNext t i).1 (BTree.iterNext t i).2.1

/-- 板への操作。 -/
inductive BookOp (K Q : Type) where
  | add (q : BookQuo K Q)
  | exp (t : Tv)
  | iter (s : Bool) (n : Nat)
deriving DecidableEq

def bookStep (b : Book T) : BookOp K Q → Book T
  | .add q => (bookAdd b q).1
  | .exp t => bookExp b t
  | .iter s n => b.set s (nextTimes n (b.get s) BTree.iter)

/-- `make_book` から操作の列を行った板。 -/
def bookRun (ops : List (BookOp K Q)) : Book T := ops.foldl bookStep makeBook

end Books.Book
