import Books.Book.Code
import Mathlib.Algebra.Field.Defs

/-!
# 板の上からの読み出し

`books.c` の `book_top`、`book_tops` と、数量か金額でまとめる `book_ctop`、`book_ctops`、`book_vtop`、`book_vtops` を表す。
指値までを上から取る `book_pdo` も表す。木は理想の順序つき写像とし、計算は正確であるとする。気配値を数量の型で表す `val` と、桁を揃える `quantizepx`、`quantizeqx`
は変数にする。
-/

namespace Books.Book

open Books.Btree

/-- 桁を揃える計算。`px x r` は `quantizepx((px_t)x, r)`、`qx` は `quantizeqx` である。 -/
structure Quantize (K Q : Type) where
  val : K → Q
  px : Q → K → K
  qx : Q → Q → Q

/-- `btree_iter_next` が真を返した後の、`i.k` と `*i.v`。 -/
structure Level (K Q : Type) where
  k : K
  v : BtreeVal Q

section Iterate
variable {K Q : Type} [LinearOrder K] [LinearOrder Q] [Zero Q] {descp : Bool}

/-- `btree_iter_next(&i)` を呼び続けて得る並び。 -/
def levelsFrom (m : OrdMap K Q descp) : Nat → Option K → List (Level K Q)
  | 0, _ => []
  | n + 1, last =>
      match m.nextKey last with
      | none => []
      | some k => ⟨k, m.val k⟩ :: levelsFrom m n (some k)

/-- `btree_iter_t i = {.t = b.BOOK(s)}` から得る並び。 -/
def sideLevels (b : Book (OrdMap K Q)) (s : Bool) : List (Level K Q) :=
  levelsFrom (b.get s) (BTree.bound (b.get s)) none

end Iterate

variable {K Q : Type} [LinearOrder K] [Zero K] [LinearOrder Q] [Field Q]

/-- `book_top`。 -/
def bookTop (b : Book (OrdMap K Q)) (s : Bool) : BookQuo K Q :=
  match sideLevels b s with
  | [] => notAQuo
  | l :: _ => ⟨sideOf s, .lvl1, some l.k, l.v.q, l.v.t⟩

/-- `book_tops`。配列 `p` と `q` の書き込んだ部分を返す。 -/
def bookTops (b : Book (OrdMap K Q)) (s : Bool) (n : Nat) : List (K × Q) :=
  ((sideLevels b s).take n).map fun l => (l.k, l.v.q)

/-- 繰り返しの変数。`c` は金額の、`C` は数量の和である。`i` は `i.k` と `i.v` であり、`NULL` は `none` で表す。 -/
structure Fill (K Q : Type) where
  c : Q
  C : Q
  i : Option (Level K Q)
  rest : List (Level K Q)

/-- 初めの変数。 -/
def Fill.start (b : Book (OrdMap K Q)) (s : Bool) : Fill K Q := ⟨0, 0, none, sideLevels b s⟩

variable (R : Quantize K Q)

/-- `for (; go && btree_iter_next(&i);) { c += i.k * i.v->q; C += i.v->q; }`。 -/
def fill (go : Q → Q → Bool) (c C : Q) (i : Option (Level K Q)) : List (Level K Q) → Fill K Q
  | [] => ⟨c, C, i, []⟩
  | l :: ls => if go c C then fill go (c + R.val l.k * l.v.q) (C + l.v.q) (some l) ls else ⟨c, C, i, l :: ls⟩

/-- 数量の和が `q` に届くまでの繰り返し。 -/
def fillQty (q : Q) (f : Fill K Q) : Fill K Q := fill R (fun _ C => decide (C < q)) f.c f.C f.i f.rest

/-- 金額の和が `v` に届くまでの繰り返し。 -/
def fillValue (v : Q) (f : Fill K Q) : Fill K Q := fill R (fun c _ => decide (c < v)) f.c f.C f.i f.rest

/-- `book_ctop`。`i.v` が `NULL` ならば `none` を返す。 -/
def bookCtop (b : Book (OrdMap K Q)) (s : Bool) (q : Q) : Option (BookQuo K Q) :=
  let f := fillQty R q (.start b s)
  if f.C < q then some notAQuo
  else do
    let l ← f.i
    let P := if q < f.C then f.c - R.val l.k * (f.C - q) else f.c
    return ⟨sideOf s, .lvl1, some (R.px (P / q) l.k), R.qx q l.v.q, l.v.t⟩

/-- `book_ctops` の、`j` についての繰り返し。残りの回数を `n`、`R` の値を `t` とする。 -/
def ctopsLoop (q : Q) : Nat → Q → Fill K Q → Option (List (K × Q))
  | 0, _, _ => some []
  | n + 1, t, f =>
      let f := fillQty R t f
      if f.C < t then some []
      else do
        let l ← f.i
        let rest ← ctopsLoop q n (t + q) f
        return (R.px ((f.c - R.val l.k * (f.C - t)) / t) l.k, R.qx t l.v.q) :: rest

/-- `book_ctops`。 -/
def bookCtops (b : Book (OrdMap K Q)) (s : Bool) (q : Q) (n : Nat) : Option (List (K × Q)) :=
  ctopsLoop R q n q (.start b s)

/-- `book_ctops` の、`q` が `NULL` のときの繰り返し。 -/
def ctopsOnlyP (q : Q) : Nat → Q → Fill K Q → Option (List K)
  | 0, _, _ => some []
  | n + 1, t, f =>
      let f := fillQty R t f
      if f.C < t then some []
      else do
        let l ← f.i
        let rest ← ctopsOnlyP q n (t + q) f
        return R.px ((f.c - R.val l.k * (f.C - t)) / t) l.k :: rest

/-- `q` が `NULL` のときの `book_ctops`。 -/
def bookCtopsOnlyP (b : Book (OrdMap K Q)) (s : Bool) (q : Q) (n : Nat) : Option (List K) :=
  ctopsOnlyP R q n q (.start b s)

/-- `book_vtop`。 -/
def bookVtop (b : Book (OrdMap K Q)) (s : Bool) (v : Q) : Option (BookQuo K Q) :=
  let f := fillValue R v (.start b s)
  if f.c < v then some notAQuo
  else do
    let l ← f.i
    let x := if v < f.c then f.C - (f.c - v) / R.val l.k else f.C
    return ⟨sideOf s, .lvl1, some (R.px (v / x) l.k), R.qx x l.v.q, l.v.t⟩

/-- `book_vtops` の、`j` についての繰り返し。残りの回数を `n`、`r` の値を `t` とする。 -/
def vtopsLoop (v : Q) : Nat → Q → Fill K Q → Option (List (K × Q))
  | 0, _, _ => some []
  | n + 1, t, f =>
      let f := fillValue R t f
      if f.c < t then some []
      else do
        let l ← f.i
        let rest ← vtopsLoop v n (t + v) f
        let x := f.C - (f.c - t) / R.val l.k
        return (R.px (t / x) l.k, R.qx x l.v.q) :: rest

/-- `book_vtops`。 -/
def bookVtops (b : Book (OrdMap K Q)) (s : Bool) (v : Q) (n : Nat) : Option (List (K × Q)) :=
  vtopsLoop R v n v (.start b s)

/-- `book_vtops` の、`q` が `NULL` のときの繰り返し。 -/
def vtopsOnlyP (v : Q) : Nat → Q → Fill K Q → Option (List K)
  | 0, _, _ => some []
  | n + 1, t, f =>
      let f := fillValue R t f
      if f.c < t then some []
      else do
        let l ← f.i
        let rest ← vtopsOnlyP v n (t + v) f
        let x := f.C - (f.c - t) / R.val l.k
        return R.px (t / x) l.k :: rest

/-- `q` が `NULL` のときの `book_vtops`。 -/
def bookVtopsOnlyP (b : Book (OrdMap K Q)) (s : Bool) (v : Q) (n : Nat) : Option (List K) :=
  vtopsOnlyP R v n v (.start b s)

/-! ## 指値まで上から取る -/

/-- `min_tv`。 -/
def minTv (t₁ t₂ : Tv) : Tv := if t₁ ≤ t₂ then t₁ else t₂

/-- `max_tv`。 -/
def maxTv (t₁ t₂ : Tv) : Tv := if t₂ ≤ t₁ then t₁ else t₂

/-- `book_pdo_t`。 -/
structure BookPdo (Q : Type) where
  base : Q
  term : Q
  yngt : Tv
  oldt : Tv
deriving DecidableEq

/-- 気配値が指値より悪くない。NaN の指値は、買いなら `-INFPX`、売りなら `INFPX` とみなすので、どの気配値も通す。 -/
def withinLmt (s : Bool) (lmt : Option K) (k : K) : Bool :=
  match lmt, s with
  | none, _ => true
  | some x, true => decide (x ≤ k)
  | some x, false => decide (k ≤ x)

/-- `book_pdo` の繰り返し。`q` は残りの数量である。 -/
def pdoLoop (s : Bool) (lmt : Option K) : List (Level K Q) → Q → BookPdo Q → BookPdo Q
  | [], _, r => r
  | l :: ls, q, r =>
      if decide (0 < q) && withinLmt s lmt l.k then
        let x := if l.v.q ≤ q then l.v.q else q
        pdoLoop s lmt ls (q - x) ⟨r.base + x, r.term + R.val l.k * x, maxTv r.yngt l.v.t, minTv r.oldt l.v.t⟩
      else r

/-- `book_pdo`。 -/
def bookPdo (b : Book (OrdMap K Q)) (s : Bool) (q : Q) (lmt : Option K) : BookPdo Q :=
  pdoLoop R s lmt (sideLevels b s) q ⟨0, 0, 0, natv⟩

end Books.Book
