import Books.Instr.Code
import Books.Xquo.Code

/-!
# `book2book.c` の `main`

入力の行を一つずつ読み、銘柄の板に加え、`prq` に渡す。銘柄のハッシュ `hash` と、文字列の変換 `Codec` は変数にする。
C の未定義の動作に至る場合は `none` を返す。
-/

namespace Books.Book2book

open Books.Btree Books.Book Books.Instr Books.Xquo

/-- 出力の関数 `prq`。 -/
inductive Prq where
  | prq1
  | prq2
  | prq3
  | prqn
  | prqc
  | prqcn
  | prqv
  | prqvn
deriving DecidableEq

/-- `prq == prq2 || prq == prq3`。 -/
def Prq.unwinds (m : Prq) : Bool := decide (m = .prq2) || decide (m = .prq3)

variable {K Q : Type} [LinearOrder K] [Zero K] [LinearOrder Q] [AddCommGroup Q]
variable {T : Bool → Type} [BTree T K Q]

/-! ## 行の出力 -/

/-- `(char)(q.s ^ '@')`。 -/
def sideByte : BookSide → UInt8
  | .unk => 64
  | .ask => 65
  | .bid => 66
  | .clr => 67
  | .del => 68
  | .other n => UInt8.ofNat (n.val + 5) ^^^ 64

/-- 前置き・側・レベル・気配値・数量からなる行。 -/
def quoLine (C : Codec K Q) (pre : List UInt8) (s l : UInt8) (p : Option K) (x : Q) : List UInt8 :=
  pre ++ s :: l :: tab :: (C.pxtostr p ++ tab :: (C.qxtostr x ++ [newline]))

/-- `prq2`。 -/
def prq2 (C : Codec K Q) (pre : List UInt8) (q _o : BookQuo K Q) : List UInt8 :=
  quoLine C pre (sideByte q.s) 50 q.p q.q

/-- `prq3`。 -/
def prq3 (C : Codec K Q) (pre : List UInt8) (q o : BookQuo K Q) : List UInt8 :=
  quoLine C pre (sideByte q.s) 51 q.p (q.q - o.q)

/-- `prfz`。行の初めから銘柄の列の終わりまでの長さ。 -/
def prfz (x : Xquo K Q) : Nat := x.ins + x.inz + (decide (x.inz ≠ 0)).toNat

/-- `prfx`。 -/
def prfx (line : List UInt8) (x : Xquo K Q) : List UInt8 := line.take (prfz x)

/-! ## 板の更新 -/

/-- `prq` に渡す、呼び出しの時の板と、二つの気配。 -/
structure Arg (T : Bool → Type) (K Q : Type) where
  xb : Book T
  q : BookQuo K Q
  o : BookQuo K Q

/-- `book_iter_next` を呼び、条件 `go` が続く間、その気配値の数量を 0 にする。`prq` に渡すものを、順に返す。 -/
def unwind (s : Bool) (go : Option K → Bool) : Nat → Book T → BTree.Iter T → Book T × List (Arg T K Q)
  | 0, b, _ => (b, [])
  | n + 1, b, i =>
      let x := BTree.iterNext (b.get s) i
      let b := b.set s x.1
      if x.2.2 && go (BTree.iterKey x.2.1) then
        let r : BookQuo K Q := ⟨sideOf s, .lvl2, BTree.iterKey x.2.1, 0, 0⟩
        let o := bookAdd b r
        let rest := unwind s go n o.1 x.2.1
        (rest.1, ⟨o.1, r, o.2⟩ :: rest.2)
      else (b, [])

/-- 側 `s` を、作りたての反復子で始めから `unwind` する。 -/
def unwindAll (s : Bool) (go : Option K → Bool) (b : Book T) : Book T × List (Arg T K Q) :=
  unwind s go (BTree.bound (b.get s)) b BTree.iter

/-- `unwnd:` から後の、一つの気配の処理。板と、`prq` に渡すものを返す。 -/
def advance (m : Prq) (b : Book T) (q : BookQuo K Q) : Option (Book T × List (Arg T K Q)) :=
  if q.f = .lvl1 ∧ m.unwinds = true then
    match q.s.quos? with
    -- `book_iter` が配列 `quos` の外を読む。
    | none => none
    | some s =>
        let r := unwindAll s (fun p => if s then pxLt q.p p else pxLt p q.p) b
        let o := bookAdd r.1 q
        some (o.1, r.2 ++ [⟨o.1, q, o.2⟩])
  else if q.s = .clr ∧ m.unwinds = true then
    let r₁ := unwindAll true (fun _ => true) b
    let r₂ := unwindAll false (fun _ => true) r₁.1
    some (r₂.1, r₁.2 ++ r₂.2)
  else
    let o := bookAdd b q
    some (o.1, [⟨o.1, q, o.2⟩])

/-! ## 入力の行 -/

/-- `prq` の呼び出し。板の番号と、前置きを添える。 -/
structure Call (T : Bool → Type) (K Q : Type) extends Arg T K Q where
  k : Nat
  pre : List UInt8

variable (hash : List UInt8 → UInt32)

/-- 板の表。 -/
abbrev State (T : Bool → Type) := Table (Book T)

/-- 銘柄の指定から作る初めの表。 -/
def initState (instr : List (List UInt8)) : State T := initTable hash (fun _ => makeBook) instr

/-- 入力の一行。 -/
def mainStep (C : Codec K Q) (m : Prq) (st : State T) (line : List UInt8) : Option (State T × List (Call T K Q)) := do
  let x ← readXquo C line
  if x.q.s = .unk then return (st, [])
  let (r, st) ← route hash (fun _ => makeBook) st (insOf line x)
  match r with
  | .skip => return (st, [])
  | .use k =>
      let b ← st.book[k]?
      let (b, out) ← advance m b x.q
      return ({ st with book := st.book.set k b }, out.map fun c => ⟨c, k, prfx line x⟩)

/-- 入力の行の列。 -/
def mainLoop (C : Codec K Q) (m : Prq) (st : State T) : List (List UInt8) → Option (State T × List (Call T K Q))
  | [] => some (st, [])
  | line :: lines => do
      let (st, out) ← mainStep hash C m st line
      let (st, outs) ← mainLoop C m st lines
      return (st, out ++ outs)

end Books.Book2book
