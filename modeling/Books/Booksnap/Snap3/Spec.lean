import Books.Booksnap.Snap3.Code

/-!
# 差の意味
-/

namespace Books.Booksnap.Snap3

open Books.Btree Books.Book

variable {K Q : Type} [LinearOrder K] [Zero K] [LinearOrder Q] [AddCommGroup Q]
variable {T : Bool → Type} [BTree T K Q]

/-! ## 側 -/

/-- 気配値に NaN のない並びを、NaN のありうる並びとみなす。 -/
def lifted (l : List (K × Q)) : List (Option K × Q) := l.map fun x => (some x.1, x.2)

/-- 側の気配値は木の向きに真に並び、数量は正である。 -/
structure SideOk (descp : Bool) (l : List (K × Q)) : Prop where
  sorted : l.Pairwise fun x y => Before descp x.1 y.1
  pos : ∀ x ∈ l, 0 < x.2

/-- 理想の木の、見える気配値と数量の並び。 -/
def shownSide {descp : Bool} (m : OrdMap K Q descp) : List (K × Q) :=
  (m.keys.filter fun k => !(m.val k).nilP).map fun k => (k, (m.val k).q)

/-- 側 `a` は、並び `l` を覚えている。 -/
def Remembers (a : Side K Q) (l : List (Option K × Q)) : Prop :=
  a.n = l.length ∧ ∀ i x, l[i]? = some x → a.px i = x.1 ∧ a.qx i = x.2

/-! ## 差 -/

/-- 並びの中の、気配値 `k` の数量の和。 -/
def qtyAt {P : Type} [DecidableEq P] (l : List (P × Q)) (k : P) : Q :=
  ((l.filter fun x => decide (x.1 = k)).map Prod.snd).sum

/-- 前の側に差を加えると今の側になり、同じ気配値を二度印字せず、覚えた気配の外を読まない。 -/
def Accounts (prev cur : List (K × Q)) (d : Delta K Q) : Prop :=
  (∀ k, qtyAt (lifted prev) k + qtyAt d.out k = qtyAt (lifted cur) k) ∧ (d.out.map Prod.fst).Nodup ∧
  ∀ j ∈ d.used, j < prev.length

/-- 差が正しく印字される場合。前の側が空であるか、最後の気配が変わらず、その直前にまとめて消えた気配 `r` があり、`r` より
手前では、気配は消えない。 -/
def Untroubled (descp : Bool) (prev cur : List (K × Q)) : Prop :=
  prev = [] ∨ ∃ a r c x, prev = a ++ r ++ [x] ∧ cur = c ++ [x] ∧ r ≠ [] ∧ (∀ y ∈ a, y.1 ∈ c.map Prod.fst) ∧
    ∀ y ∈ c, ∀ z ∈ r, Before descp y.1 z.1

/-! ## 板ごとの場所 -/

/-- 写真 `x` の初めに、前の写真の板 `b` を覚えている。前の写真がなければ、何も覚えていない。 -/
def Recalls (b : Option (Book T)) (x : Shot K Q) : Prop :=
  (∀ s, Remembers (x.aux.get s) (b.elim [] fun b => levels b s)) ∧ x.ibk < x.zbk

/-- 前の写真が `prev` であるとき、写真の列のどの写真の初めにも、一つ前の写真の同じ板を覚えている。 -/
def RecallsRun (prev : List (Book T)) : List (List (Book T)) → List (List (Shot K Q)) → Prop
  | [], [] => True
  | bs :: rs, xs :: xss => xs.length = bs.length ∧ (∀ (i : Nat) x, xs[i]? = some x → x.ibk = i ∧ Recalls prev[i]? x) ∧
      RecallsRun bs rs xss
  | _, _ => False

/-- `zbk` 個の場所で `n` 個の板の写真を撮った後の場所の数と、最後に増やした時の板の番号。 -/
def growth (zbk : Nat) : Nat → Nat × Nat
  | 0 => (zbk, 0)
  | n + 1 => if (growth zbk n).1 ≤ n then ((growth zbk n).1 * 2, n) else growth zbk n

/-- 次の写真があるとき、場所を増やした板より前の板には、気配がない。 -/
def LosesNothing (zbk : Nat) : List (List (Book T)) → Prop
  | bs :: bs' :: rs => (∀ i < (growth zbk bs.length).2, ∀ b, bs[i]? = some b → ∀ s, levels b s = []) ∧
      LosesNothing (growth zbk bs.length).1 (bs' :: rs)
  | _ => True

end Books.Booksnap.Snap3
