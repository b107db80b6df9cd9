import Books.Book2book.Printers
import Books.Booksnap.Code
import Books.Booksnap.Snap3.Code

/-!
# `booksnap.c` の出力

時刻 `metr` の板を印字する `snap1`、`snap12`、`snap2`、`snapn`、`snapc`、`snapcn`、`snapv`、`snapvn` を、`fwrite` で書き出す行の列で
表す。どの行も 256 バイトの領域に収まるものとする。
-/

namespace Books.Booksnap

open Books.Btree Books.Book Books.Book2book Books.Xquo Books.Lib

/-- C の文字列の、NUL の前までのバイト。 -/
def cstr (s : List UInt8) : List UInt8 := s.takeWhile fun c => decide (c ≠ 0)

/-- 時刻と銘柄の列。終わりのタブを含む。 -/
def header (metr : Tv) (cont : Option (List UInt8)) : List UInt8 :=
  let r := tvtostr (Buf.init fun _ => 0) 256 metr
  r.1.text r.2 ++ cont.elim [] (fun c => tab :: cstr c) ++ [tab]

section Levels
variable {K Q : Type} {T : Bool → Type} [BTree T K Q]

/-- `snap2`。 -/
def snap2 (C : Codec K Q) (metr : Tv) (cont : Option (List UInt8)) (b : Book T) : List (List UInt8) :=
  [true, false].flatMap fun s =>
    (Snap3.levels b s).map fun x => quoLine C (header metr cont) (sideByte (sideOf s)) 50 x.1 x.2

end Levels

variable {K Q : Type} [LinearOrder K] [Zero K] [LinearOrder Q] [Field Q]
variable (C : Codec K Q) (metr : Tv) (cont : Option (List UInt8)) (b : Book (OrdMap K Q))

/-- `snap12`。 -/
def snap12 : List (List UInt8) :=
  [true, false].flatMap fun s =>
    let q := bookTop b s
    if 0 < q.q then [quoLine C (header metr cont) (sideByte (sideOf s)) 49 q.p q.q] else []

/-- `snap1`。数量が 0 の側でも、数量の欄を印字する。 -/
def snap1 : List (List UInt8) :=
  let b := (bookTop b true, bookTop b false)
  let r : Row K Q := { row1 b.1 b.2 with bq := some b.1.q, aq := some b.2.q }
  [r.text C (header metr cont) 0]

/-- 二つの側の気配からなる一行。 -/
def rowLine (top : Bool → Option (BookQuo K Q)) : Option (List (List UInt8)) := do
  let b ← top true
  let a ← top false
  return [(row1 b a).text C (header metr cont) 0]

/-- 二つの側の気配の列からなる行。 -/
def rowLines (ntop : Nat) (tops : Bool → Option (List (K × Q))) : Option (List (List UInt8)) := do
  let b ← tops true
  let a ← tops false
  return (rowsN ntop b a).zipIdx.map fun r => r.1.text C (header metr cont) r.2

/-- `snapc`。 -/
def snapc (R : Quantize K Q) (cqty : Q) : Option (List (List UInt8)) := rowLine C metr cont fun s => bookCtop R b s cqty

/-- `snapv`。 -/
def snapv (R : Quantize K Q) (cqty : Q) : Option (List (List UInt8)) := rowLine C metr cont fun s => bookVtop R b s cqty

/-- `snapn`。 -/
def snapn (ntop : Nat) : Option (List (List UInt8)) := rowLines C metr cont ntop fun s => some (bookTops b s ntop)

/-- `snapcn`。 -/
def snapcn (R : Quantize K Q) (cqty : Q) (ntop : Nat) : Option (List (List UInt8)) :=
  rowLines C metr cont ntop fun s => bookCtops R b s cqty ntop

/-- `snapvn`。 -/
def snapvn (R : Quantize K Q) (cqty : Q) (ntop : Nat) : Option (List (List UInt8)) :=
  rowLines C metr cont ntop fun s => bookVtops R b s cqty ntop

end Books.Booksnap
