import Books.Dfp754.Spec
import Books.Print.Code
import Books.Xquo.Time.Lemmas

/-!
# 行の長さ

組み立てる行の、書き切ったときの長さを、入力だけから定める。
-/

namespace Books.Print

open Books.Btree Books.Book Books.Book2book Books.Xquo Books.Lib Books.Dfp754

/-- 書き込みは、すべて 256 バイトの領域に収まる。 -/
def Fits (l : Line) : Prop := l.buf.Within 256

/-- 数が 0 でないときにだけ書く欄の長さ。 -/
def lenIf (cond : Bool) (x : BitVec 64) : Nat := if cond then textLen x else 0

/-- `prq1` が印字しない条件。 -/
def Unchanged (D : DecOps) (xb : Xone (BitVec 64) (BitVec 64)) (b a : BookQuo (BitVec 64) (BitVec 64)) : Prop :=
  D.eq (pxWord b.p) (pxWord xb.bid) = true ∧ D.eq b.q xb.bsz = true ∧ D.eq (pxWord a.p) (pxWord xb.ask) = true ∧
    D.eq a.q xb.asz = true

/-- `prq1` の行の長さ。 -/
def prq1Len (D : DecOps) (b a : BookQuo (BitVec 64) (BitVec 64)) : Nat :=
  lenIf (D.nz b.q) (pxWord b.p) + lenIf (D.nz a.q) (pxWord a.p) + lenIf (D.nz b.q) b.q + lenIf (D.nz a.q) a.q + 7

/-- `prq2` と `prq3` の行の長さ。 -/
def quoLen (p : Option (BitVec 64)) (x : BitVec 64) : Nat := textLen (pxWord p) + textLen x + 5

/-- 見出しの長さ。 -/
def headerLen (metr : Tv) (cont : Option (List UInt8)) : Nat :=
  (stampText metr).length + cont.elim 0 (fun c => c.length + 1) + 4

/-- `snap1` の行の長さ。 -/
def snap1Len (D : DecOps) (metr : Tv) (cont : Option (List UInt8)) (b a : BookQuo (BitVec 64) (BitVec 64)) : Nat :=
  headerLen metr cont + lenIf (D.nz b.q) (pxWord b.p) + lenIf (D.nz a.q) (pxWord a.p) + textLen b.q + textLen a.q + 4

/-- `snap2` の一段の行の長さ。 -/
def levelLen (metr : Tv) (cont : Option (List UInt8)) (x : Option (BitVec 64) × BitVec 64) : Nat :=
  headerLen metr cont + textLen (pxWord x.1) + textLen x.2 + 2

end Books.Print
