import Books.Book.Top
import Books.Lib.Depth

/-!
# 板の厚みと、まとめた気配

側 `s` の気配の並びを、上から順に取る費用を定める。まとめた気配は、桁を揃える前の値で表す。
-/

namespace Books.Book

open Books.Btree Books.Lib

variable {K Q : Type} [LinearOrder K] [Zero K] [LinearOrder Q] [Field Q]

/-! ## 厚みと費用 -/

/-- 気配の数量。 -/
def qtyOf (l : Level K Q) : Q := l.v.q

/-- 数量の型で表した気配値。 -/
def Quantize.price (R : Quantize K Q) (l : Level K Q) : Q := R.val l.k

/-- 側の数量の和。 -/
def depth (b : Book (OrdMap K Q)) (s : Bool) : Q := amount qtyOf (sideLevels b s)

variable (R : Quantize K Q)

/-- 側の金額の和。 -/
def sideValue (b : Book (OrdMap K Q)) (s : Bool) : Q := worth R.price qtyOf (sideLevels b s)

/-- 側の上から数量 `q` を取る費用。 -/
def greedyCost (b : Book (OrdMap K Q)) (s : Bool) (q : Q) : Q := cost R.price qtyOf (sideLevels b s) q

/-! ## まとめた気配 -/

/-- 桁を揃える前のまとめた気配。`lvl` は、最後に取る気配である。 -/
structure RawQuo (K Q : Type) where
  price : Q
  qty : Q
  lvl : Level K Q

/-- 桁を揃えた気配。 -/
def RawQuo.top (x : RawQuo K Q) (s : Bool) : BookQuo K Q :=
  ⟨sideOf s, .lvl1, some (R.px x.price x.lvl.k), R.qx x.qty x.lvl.v.q, x.lvl.v.t⟩

/-- 桁を揃えた気配値と数量。 -/
def RawQuo.entry (x : RawQuo K Q) : K × Q := (R.px x.price x.lvl.k, R.qx x.qty x.lvl.v.q)

/-- 数量 `t` の目標に届いた変数から作る気配。 -/
def qtyRaw (t : Q) (f : Fill K Q) (l : Level K Q) : RawQuo K Q := ⟨(f.c - R.val l.k * (f.C - t)) / t, t, l⟩

/-- 金額 `t` の目標に届いた変数から作る気配。 -/
def valueRaw (t : Q) (f : Fill K Q) (l : Level K Q) : RawQuo K Q :=
  ⟨t / (f.C - (f.c - t) / R.val l.k), f.C - (f.c - t) / R.val l.k, l⟩

/-! ## 目標ごとの繰り返し -/

/-- 数量の和が目標 `t` に届いていない。 -/
def qtyGo (t : Q) (_ C : Q) : Bool := decide (C < t)

/-- 金額の和が目標 `t` に届いていない。 -/
def valueGo (t : Q) (c _ : Q) : Bool := decide (c < t)

/-- 目標 `t` に届くまでの繰り返し。`go` が `qtyGo` なら `fillQty`、`valueGo` なら `fillValue` である。 -/
def fillTo (go : Q → Q → Q → Bool) (t : Q) (f : Fill K Q) : Fill K Q := fill R (go t) f.c f.C f.i f.rest

/-- `j` についての繰り返しが、足りるかどうかの判定を越えた各回の、目標と変数。 -/
def stops (go : Q → Q → Q → Bool) (q : Q) : Nat → Q → Fill K Q → List (Q × Fill K Q)
  | 0, _, _ => []
  | n + 1, t, f =>
      let f := fillTo R go t f
      if go t f.c f.C then [] else (t, f) :: stops go q n (t + q) f

/-- 止まった変数から作る気配。`i.v` が `NULL` ならば `none` である。 -/
def readStop (raw : Q → Fill K Q → Level K Q → RawQuo K Q) (x : Q × Fill K Q) : Option (RawQuo K Q) :=
  x.2.i.map (raw x.1 x.2)

/-- `tops` は、`top ((j + 1) * q)` が初めて `NOT_A_QUO` になる `j` までの、気配値と数量である。`onlyP` は、その気配値である。 -/
def StepsAlike (top : Q → Option (BookQuo K Q)) (tops : Option (List (K × Q))) (onlyP : Option (List K)) (q : Q)
    (n : Nat) : Prop :=
  ∃ l, tops = some l ∧ onlyP = some (l.map Prod.fst) ∧ l.length ≤ n ∧
    (∀ j (hj : j < l.length), ∃ x, top ((j + 1 : Nat) * q) = some x ∧ x ≠ notAQuo ∧ x.p = some l[j].1 ∧ x.q = l[j].2) ∧
    (l.length < n → top ((l.length + 1 : Nat) * q) = some notAQuo)

/-- 目標 `t` に届いた変数での計算に、`NULL` の参照も、零での割り算もない。`pre` は、`i` より前の気配である。 -/
def QtySafe (ls : List (Level K Q)) (t : Q) (f : Fill K Q) : Prop :=
  ∃ pre l, f.i = some l ∧ ls = pre ++ l :: f.rest ∧ amount qtyOf pre < t ∧ 0 ≤ amount qtyOf pre

/-- 金額の目標では、`i` の気配値と、計算した数量とで割る。 -/
def ValueSafe (ls : List (Level K Q)) (t : Q) (f : Fill K Q) : Prop :=
  ∃ pre l, f.i = some l ∧ ls = pre ++ l :: f.rest ∧ 0 < R.val l.k ∧
    amount qtyOf pre < f.C - (f.c - t) / R.val l.k ∧ 0 ≤ amount qtyOf pre

/-! ## 気配値の順 -/

/-- 側 `s` で、`a` は `x` より悪くない。 -/
def NoWorse (s : Bool) (a x : Q) : Prop := if s then x ≤ a else a ≤ x

/-- まとめた気配値は、後ほど悪く、側の最良の気配値と、最後に取る気配値との間にある。 -/
structure PricesOrdered (val : K → Q) (b : Book (OrdMap K Q)) (s : Bool) (xs : List (RawQuo K Q)) : Prop where
  sorted : (xs.map RawQuo.price).Pairwise (NoWorse s)
  best : ∀ x ∈ xs, ∃ l, (sideLevels b s).head? = some l ∧ NoWorse s (val l.k) x.price
  last : ∀ x ∈ xs, (touched qtyOf (sideLevels b s) x.qty).getLast? = some x.lvl ∧ NoWorse s x.price (val x.lvl.k)

/-! ## 指値まで取る -/

/-- 側の、指値より悪くない気配。 -/
def withinLevels (b : Book (OrdMap K Q)) (s : Bool) (lmt : Option K) : List (Level K Q) :=
  (sideLevels b s).filter fun l => withinLmt s lmt l.k

/-- `lmt'` は、`lmt` より緩い。 -/
def Looser (s : Bool) : Option K → Option K → Prop
  | _, none => True
  | none, some _ => False
  | some x, some x' => if s then x' ≤ x else x ≤ x'

/-- `t` は、`ls` の時刻のうち最も新しいものである。並びが空なら 0 である。 -/
def Newest (ls : List (Level K Q)) (t : Tv) : Prop :=
  (∀ l ∈ ls, l.v.t ≤ t) ∧ (ls = [] ∧ t = 0 ∨ ∃ l ∈ ls, l.v.t = t)

/-- `t` は、`ls` の時刻のうち最も古いものである。並びが空なら `NATV` である。 -/
def Oldest (ls : List (Level K Q)) (t : Tv) : Prop :=
  (∀ l ∈ ls, t ≤ l.v.t) ∧ (ls = [] ∧ t = natv ∨ ∃ l ∈ ls, l.v.t = t)

end Books.Book
