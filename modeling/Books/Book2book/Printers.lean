import Books.Book.Top
import Books.Book2book.Code

/-!
# `book2book.c` の、板の上を印字する出力

`prq1`、`prqn` と、数量か金額でまとめる `prqc`、`prqcn`、`prqv`、`prqvn` を表す。板 `xb` の中に、前に印字した値を覚えていて、
変わったときだけ印字する。1 段の出力どうしと、`ntop` 段の出力どうしは、上から読む関数と、数量も覚えて比べるかどうかだけが違う。
`memcmp` は値の比較で表す。
-/

namespace Books.Book2book

open Books.Btree Books.Book Books.Xquo

variable {K Q : Type} [LinearOrder K] [Zero K] [LinearOrder Q] [Field Q]

/-! ## 印字する表 -/

/-- 表の一行。空の欄は `none` で表す。 -/
structure Row (K Q : Type) where
  bp : Option K
  ap : Option K
  bq : Option Q
  aq : Option Q
deriving DecidableEq

/-- 10 進数の文字列。 -/
def decimal (n : Nat) : List UInt8 := (Nat.toDigits 10 n).map fun c => UInt8.ofNat c.toNat

/-- 前置きをつけた、`i` 番目の行の文字列。 -/
def Row.text (C : Codec K Q) (pre : List UInt8) (i : Nat) (r : Row K Q) : List UInt8 :=
  let px := fun p : Option K => p.elim [] fun p => C.pxtostr (some p)
  let qx := fun q : Option Q => q.elim [] C.qxtostr
  pre ++ 99 :: (decimal (i + 1) ++ tab :: (px r.bp ++ tab :: (px r.ap ++ tab :: (qx r.bq ++ tab :: (qx r.aq ++ [newline])))))

/-- `fwrite` で書き出す文字列。 -/
def blockText (C : Codec K Q) (pre : List UInt8) (rows : List (Row K Q)) : List UInt8 :=
  rows.zipIdx.flatMap fun r => r.1.text C pre r.2

/-! ## 1 段の出力 -/

/-- `xbook_t` の `bid`、`ask`、`bsz`、`asz`。 -/
structure Xone (K Q : Type) where
  bid : Option K
  ask : Option K
  bsz : Q
  asz : Q

/-- `make_xbook` の、0 で埋めた値。 -/
def Xone.zero : Xone K Q := ⟨some 0, some 0, 0, 0⟩

def row1 (b a : BookQuo K Q) : Row K Q where
  bp := if b.q ≠ 0 then b.p else none
  ap := if a.q ≠ 0 then a.p else none
  bq := if b.q ≠ 0 then some b.q else none
  aq := if a.q ≠ 0 then some a.q else none

/-- 側から気配を読む `top` の気配を印字する。`sizes` は、数量も覚えて比べることを表す。 -/
def aligned1 (sizes : Bool) (top : Bool → Option (BookQuo K Q)) (xb : Xone K Q) : Option (Xone K Q × List (Row K Q)) := do
  let b ← top true
  let a ← top false
  if pxEq b.p xb.bid && pxEq a.p xb.ask && (!sizes || (decide (b.q = xb.bsz) && decide (a.q = xb.asz))) then
    return (xb, [])
  let xb := if sizes then ⟨b.p, a.p, b.q, a.q⟩ else { xb with bid := b.p, ask := a.p }
  return (xb, [row1 b a])

/-- `prq1`。 -/
def prq1 (xb : Xone K Q) (b : Book (OrdMap K Q)) : Option (Xone K Q × List (Row K Q)) :=
  aligned1 true (fun s => some (bookTop b s)) xb

/-- `prqc`。 -/
def prqc (R : Quantize K Q) (cqty : Q) (xb : Xone K Q) (b : Book (OrdMap K Q)) : Option (Xone K Q × List (Row K Q)) :=
  aligned1 false (fun s => bookCtop R b s cqty) xb

/-- `prqv`。 -/
def prqv (R : Quantize K Q) (cqty : Q) (xb : Xone K Q) (b : Book (OrdMap K Q)) : Option (Xone K Q × List (Row K Q)) :=
  aligned1 false (fun s => bookVtop R b s cqty) xb

/-! ## `ntop` 段の出力 -/

/-- `xbook_t` の `bids`、`asks`、`bszs`、`aszs`。 -/
structure Xmany (K Q : Type) where
  bids : List K
  asks : List K
  bszs : List Q
  aszs : List Q

/-- `make_xbook` の、0 で埋めた配列。 -/
def Xmany.zero (ntop : Nat) : Xmany K Q :=
  ⟨.replicate ntop 0, .replicate ntop 0, .replicate ntop 0, .replicate ntop 0⟩

/-- 0 で埋めた長さ `n` の配列に、前から書き込む。 -/
def pad {α : Type} [Zero α] (n : Nat) (l : List α) : List α := l ++ .replicate (n - l.length) 0

def rowsN (ntop : Nat) (b a : List (K × Q)) : List (Row K Q) :=
  let n := if ntop < b.length ∧ ntop < a.length then ntop else if b.length < a.length then a.length else b.length
  (List.range n).map fun i => ⟨b[i]?.map Prod.fst, a[i]?.map Prod.fst, b[i]?.map Prod.snd, a[i]?.map Prod.snd⟩

/-- 側から `ntop` 段までを読む `tops` の気配を印字する。 -/
def alignedN (sizes : Bool) (ntop : Nat) (tops : Bool → Option (List (K × Q))) (xb : Xmany K Q) :
    Option (Xmany K Q × List (Row K Q)) := do
  let b ← tops true
  let a ← tops false
  let bids := pad ntop (b.map Prod.fst)
  let asks := pad ntop (a.map Prod.fst)
  let bszs := pad ntop (b.map Prod.snd)
  let aszs := pad ntop (a.map Prod.snd)
  if (!sizes || (decide (bszs = xb.bszs) && decide (aszs = xb.aszs))) && decide (bids = xb.bids) &&
      decide (asks = xb.asks) then
    return (xb, [])
  let xb := if sizes then ⟨bids, asks, bszs, aszs⟩ else { xb with bids := bids, asks := asks }
  return (xb, rowsN ntop b a)

/-- `prqn`。 -/
def prqn (ntop : Nat) (xb : Xmany K Q) (b : Book (OrdMap K Q)) : Option (Xmany K Q × List (Row K Q)) :=
  alignedN true ntop (fun s => some (bookTops b s ntop)) xb

/-- `prqcn`。 -/
def prqcn (R : Quantize K Q) (cqty : Q) (ntop : Nat) (xb : Xmany K Q) (b : Book (OrdMap K Q)) :
    Option (Xmany K Q × List (Row K Q)) :=
  alignedN false ntop (fun s => bookCtops R b s cqty ntop) xb

/-- `prqvn`。 -/
def prqvn (R : Quantize K Q) (cqty : Q) (ntop : Nat) (xb : Xmany K Q) (b : Book (OrdMap K Q)) :
    Option (Xmany K Q × List (Row K Q)) :=
  alignedN false ntop (fun s => bookVtops R b s cqty ntop) xb

end Books.Book2book
