import Books.Book.Code

/-!
# `booksnap.c` の `snap3`

前の写真の側を覚えておき、今の側との差を印字する。覚える場所 `snap3_aux` は、板の番号ごとにある。二つの側の処理は、比較の
向きだけが違うので、木の向き `descp` で表す。配列の外のバイトを読む場合も、読む位置を残す。
-/

namespace Books.Booksnap.Snap3

open Books.Btree Books.Book

variable {K Q : Type} [LinearOrder K] [Zero K] [LinearOrder Q] [AddCommGroup Q]
variable {T : Bool → Type} [BTree T K Q] {descp : Bool}

/-! ## 反復 -/

/-- `for (book_iter_t i = {.b = …}; book_iter_next(&i);)` の、`i.p` と `i.q` の並び。 -/
def iterList : Nat → T descp → BTree.Iter T → List (Option K × Q)
  | 0, _, _ => []
  | n + 1, t, i =>
      let r := BTree.iterNext t i
      if r.2.2 then (BTree.iterKey r.2.1, (BTree.load r.1 (BTree.iterRef r.2.1)).q) :: iterList n r.1 r.2.1 else []

/-- 板の一方の側の、気配値と数量の並び。 -/
def levels (b : Book T) (s : Bool) : List (Option K × Q) := iterList (BTree.bound (b.get s)) (b.get s) BTree.iter

/-! ## 覚えた側 -/

/-- `snap3_aux[ibk]` の一方の側。買いの側では `bn`、`bz`、`b`、`B`、売りの側では `an`、`az`、`a`、`A` である。 -/
structure Side (K Q : Type) where
  n : Nat
  z : Nat
  px : Nat → Option K
  qx : Nat → Q

structure Aux (K Q : Type) where
  ask : Side K Q
  bid : Side K Q

def Aux.get (a : Aux K Q) : Bool → Side K Q
  | false => a.ask
  | true => a.bid

/-- `calloc` した側。 -/
def Side.zero : Side K Q := ⟨0, 0, fun _ => none, fun _ => 0⟩

def Aux.zero : Aux K Q := ⟨.zero, .zero⟩

/-- `snap3_book` の一方の側の、`bi` 番目から書き込む繰り返し。 -/
def record (a : Side K Q) (bi : Nat) : List (Option K × Q) → Side K Q
  | [] => { a with n := bi }
  | (p, q) :: l =>
      let z := if a.z ≤ bi then (if a.z * 2 = 0 then 32 else a.z * 2) else a.z
      record { a with z := z, px := Function.update a.px bi p, qx := Function.update a.qx bi q } (bi + 1) l

/-- `snap3_book`。 -/
def snap3Book (a : Aux K Q) (b : Book T) : Aux K Q :=
  ⟨record a.ask 0 (levels b false), record a.bid 0 (levels b true)⟩

/-! ## 差の印字 -/

/-- 買いの側では `a > b`、売りの側では `a < b`。 -/
def ahead (descp : Bool) (a b : Option K) : Bool := if descp then pxLt b a else pxLt a b

/-- 買いの側では `a <= b`、売りの側では `a >= b`。 -/
def notAhead (descp : Bool) (a b : Option K) : Bool := if descp then pxLe a b else pxLe b a

/-- 印字する気配値と数量の差。どの条件も成り立たなければ、`continue` する。 -/
def choose (descp : Bool) (a : Side K Q) (p : Option K) (q : Q) (bi : Nat) : Option (Option K × Q) :=
  if a.n ≤ bi then some (p, q)
  else if pxEq p (a.px bi) then some (p, q - a.qx bi)
  else if ahead descp p (a.px bi) then some (p, q)
  else if ahead descp (a.px bi) p then some (a.px bi, -a.qx bi)
  else none

/-- 印字した行と、`pp` と `qp` を読んだ位置。 -/
structure Delta (K Q : Type) where
  out : List (Option K × Q)
  used : List Nat

def Delta.nil : Delta K Q := ⟨[], []⟩

def Delta.append (d d' : Delta K Q) : Delta K Q := ⟨d.out ++ d'.out, d.used ++ d'.used⟩

/-- `again_b:` か `again_a:` からの、今の側の一つの気配の処理。`bi` の次の値も返す。 -/
def again (descp : Bool) (a : Side K Q) (p : Option K) (q : Q) : Nat → Nat → Nat × Delta K Q
  | 0, bi => (bi, .nil)
  | fuel + 1, bi =>
      let used := if bi < a.n then [bi] else []
      match choose descp a p q bi with
      | none => (bi, ⟨[], used⟩)
      | some d =>
          if bi < a.n ∧ notAhead descp p (a.px bi) = true then
            if ahead descp (a.px (bi + 1)) p then
              let r := again descp a p q fuel (bi + 1)
              (r.1, (⟨[d], used ++ [bi + 1]⟩ : Delta K Q).append r.2)
            else (bi + 1, ⟨[d], used ++ [bi + 1]⟩)
          else (bi, ⟨[d], used⟩)

/-- 今の側の気配を順に処理する。 -/
def diff (descp : Bool) (a : Side K Q) (bi : Nat) : List (Option K × Q) → Delta K Q
  | [] => .nil
  | (p, q) :: l =>
      let r := again descp a p q (a.n + 1) bi
      r.2.append (diff descp a r.1 l)

/-! ## 板ごとの場所 -/

/-- `init_snap3`。並びの長さが `zbk` である。 -/
def initSnap3 (nbook : Nat) : List (Aux K Q) := List.replicate ((nbook ||| 7) + 1) .zero

/-- `while ((zbk *= 2U) < ibk);`。 -/
def doubled (ibk : Nat) : Nat → Nat → Nat
  | 0, zbk => zbk
  | fuel + 1, zbk => if zbk * 2 < ibk then doubled ibk fuel (zbk * 2) else zbk * 2

/-- 場所が足りなければ増やす。`realloc` で広げたものは `calloc` したもので置き換わる。 -/
def resize (aux : List (Aux K Q)) (ibk : Nat) : List (Aux K Q) :=
  if aux.length ≤ ibk then List.replicate (doubled ibk (ibk + 1) aux.length) .zero else aux

/-- 一枚の写真。`aux` は、場所を増やした後の `snap3_aux[ibk]` である。 -/
structure Shot (K Q : Type) where
  ibk : Nat
  zbk : Nat
  aux : Aux K Q
  bids : Delta K Q
  asks : Delta K Q

/-- `snap3`。 -/
def snap3 (aux : List (Aux K Q)) (ibk : Nat) (b : Book T) : Option (List (Aux K Q) × Shot K Q) := do
  let aux := resize aux ibk
  let a ← aux[ibk]?
  return (aux.set ibk (snap3Book a b),
    ⟨ibk, aux.length, a, diff true a.bid 0 (levels b true), diff false a.ask 0 (levels b false)⟩)

/-- `for (ibk = …; ibk < nbook + nctch; ibk++)`。 -/
def snap3Round (aux : List (Aux K Q)) (ibk : Nat) : List (Book T) → Option (List (Aux K Q) × List (Shot K Q))
  | [] => some (aux, [])
  | b :: bs => do
      let (aux, x) ← snap3 aux ibk b
      let (aux, xs) ← snap3Round aux (ibk + 1) bs
      return (aux, x :: xs)

/-- 写真を順に撮る。 -/
def snap3Rounds (aux : List (Aux K Q)) : List (List (Book T)) → Option (List (Aux K Q) × List (List (Shot K Q)))
  | [] => some (aux, [])
  | bs :: rs => do
      let (aux, xs) ← snap3Round aux 0 bs
      let (aux, xss) ← snap3Rounds aux rs
      return (aux, xs :: xss)

end Books.Booksnap.Snap3
