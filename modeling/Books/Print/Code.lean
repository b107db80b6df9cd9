import Books.Book2book.Printers
import Books.Dfp754.Code
import Books.Lib.Buf

/-!
# 256 バイトの領域への印字

`book2book.c` の `prq1`・`prq2`・`prq3` と、`booksnap.c` の `snap1`・`snap2` は、一行を `char buf[256U]` に組み立てる。ここでは
書き込みの位置を、`Buf` の記録に残す。領域の大きさを超えた書き込みも、そのまま記録する。十進小数の比較と引き算は、コンパイラの
演算なので、変数 `DecOps` で与える。
-/

namespace Books.Print

open Books.Btree Books.Book Books.Book2book Books.Xquo Books.Lib Books.Dfp754

/-- `_Decimal64` の組込みの演算。`nz` は、条件としての値である。 -/
structure DecOps where
  eq : BitVec 64 → BitVec 64 → Bool
  nz : BitVec 64 → Bool
  sub : BitVec 64 → BitVec 64 → BitVec 64

/-- `sizeof(buf)`。 -/
def bufSize : Nat := 256

/-- `buf` と `len`。 -/
structure Line where
  buf : Buf UInt8
  len : Nat

namespace Line

/-- 初めの領域。中身は何でもよい。 -/
def init (mem : Nat → UInt8) : Line := ⟨Buf.init mem, 0⟩

/-- `buf[len++] = c;`。 -/
def byte (l : Line) (c : UInt8) : Line := ⟨l.buf.put l.len c, l.len + 1⟩

/-- `len += d64tostr(buf + len, sizeof(buf) - len, x);`。大きさは `size_t` の引き算で、`len` を超えると巨大な数になる。 -/
def num (l : Line) (x : BitVec 64) : Line :=
  let r := d64tostr ((2 ^ 64 + bufSize - l.len) % 2 ^ 64) x
  ⟨l.buf.puts l.len r.1, l.len + r.2⟩

/-- `if (cond) len += d64tostr(…);`。 -/
def numIf (l : Line) (cond : Bool) (x : BitVec 64) : Line := if cond then l.num x else l

/-- `len += memncpy(buf + len, s, strlen(s));`。 -/
def copy (l : Line) (s : List UInt8) : Line := ⟨l.buf.puts l.len s, l.len + s.length⟩

end Line

/-- 気配値の語。読めない気配値は `NANPX` である。 -/
def pxWord (p : Option (BitVec 64)) : BitVec 64 := p.getD nand64

variable (D : DecOps) (mem : Nat → UInt8)

/-! ## `book2book.c` -/

/-- `prq1`。`b` と `a` は `book_top` の気配である。覚える値と、組み立てた行を返す。 -/
def prq1 (xb : Xone (BitVec 64) (BitVec 64)) (b a : BookQuo (BitVec 64) (BitVec 64)) :
    Xone (BitVec 64) (BitVec 64) × Line :=
  if D.eq (pxWord b.p) (pxWord xb.bid) && D.eq b.q xb.bsz && D.eq (pxWord a.p) (pxWord xb.ask) && D.eq a.q xb.asz then
    (xb, .init mem)
  else
    let l := (((Line.init mem).byte 99).byte 49).byte tab
    let l := (l.numIf (D.nz b.q) (pxWord b.p)).byte tab
    let l := (l.numIf (D.nz a.q) (pxWord a.p)).byte tab
    let l := (l.numIf (D.nz b.q) b.q).byte tab
    (⟨b.p, a.p, b.q, a.q⟩, (l.numIf (D.nz a.q) a.q).byte newline)

/-- `prq2`。 -/
def prq2 (q : BookQuo (BitVec 64) (BitVec 64)) : Line :=
  let l := (((Line.init mem).byte (sideByte q.s)).byte 50).byte tab
  let l := (l.num (pxWord q.p)).byte tab
  (l.num q.q).byte newline

/-- `prq3`。 -/
def prq3 (q o : BookQuo (BitVec 64) (BitVec 64)) : Line :=
  let l := (((Line.init mem).byte (sideByte q.s)).byte 51).byte tab
  let l := (l.num (pxWord q.p)).byte tab
  (l.num (D.sub q.q o.q)).byte newline

/-! ## `booksnap.c` -/

/-- 時刻と銘柄と、`s` と `k` からなる見出し。 -/
def header (metr : Tv) (cont : Option (List UInt8)) (s k : UInt8) : Line :=
  let r := tvtostr (Buf.init mem) bufSize metr
  let l : Line := ⟨r.1, r.2⟩
  let l := match cont with
    | some c => (l.byte tab).copy c
    | none => l
  (((l.byte tab).byte s).byte k).byte tab

/-- `snap1`。`b` と `a` は `book_top` の気配である。 -/
def snap1 (metr : Tv) (cont : Option (List UInt8)) (b a : BookQuo (BitVec 64) (BitVec 64)) : Line :=
  let l := header mem metr cont 99 49
  let l := (l.numIf (D.nz b.q) (pxWord b.p)).byte tab
  let l := (l.numIf (D.nz a.q) (pxWord a.p)).byte tab
  let l := (l.num b.q).byte tab
  (l.num a.q).byte newline

/-- `snap2` の一段。 -/
def level (l : Line) (x : Option (BitVec 64) × BitVec 64) : Line :=
  (((l.num (pxWord x.1)).byte tab).num x.2).byte newline

/-- `snap2` の、一方の側の段。段ごとに `len` を見出しの後に戻す。 -/
def levels (l : Line) : List (Option (BitVec 64) × BitVec 64) → Line
  | [] => l
  | x :: xs => levels ⟨(level l x).buf, l.len⟩ xs

/-- `snap2`。`bids` と `asks` は、`book_iter` が返す段の列である。 -/
def snap2 (metr : Tv) (cont : Option (List UInt8)) (bids asks : List (Option (BitVec 64) × BitVec 64)) : Line :=
  let l := levels (header mem metr cont 66 50) bids
  levels ⟨l.buf.put (l.len - 3) 65, l.len⟩ asks

end Books.Print
