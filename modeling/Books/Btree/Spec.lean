import Books.Lib.Walk
import Books.Btree.Code

/-!
# 木の実行と、確かめる性質

`btree.h` の操作の列で作れる木と、その木について述べる性質を定める。
-/

namespace Books.Btree

open Books.Lib

variable {K Q : Type} [LinearOrder K] [LinearOrder Q] [Zero Q]

/-- 木の根の番地。 -/
def root : Addr := 0

/-- 木の向きで `a` が `b` より前にある。 -/
def Before (descp : Bool) (a b : K) : Prop := if descp then b < a else a < b

/-! ## 実行 -/

/-- 木への操作。`put` は、返った場所へ値を書き込むところまでを含む。`iter` は、作りたての反復子で
`btree_iter_next` を `m` 回呼ぶ。 -/
inductive Op (K Q : Type) where
  | put (k : K) (x : BtreeVal Q)
  | rem (k : K)
  | clr
  | iter (m : Nat)

/-- `btree_iter_next` を `m` 回呼ぶ。 -/
def iterTimes : Nat → Heap K Q → BtreeIter K → Heap K Q × BtreeIter K
  | 0, h, it => (h, it)
  | m + 1, h, it =>
      let r := btreeIterNext h it
      iterTimes m r.1 r.2.1

def step (h : Heap K Q) : Op K Q → Heap K Q
  | .put k x => (btreePut h root (some k)).1.store (btreePut h root (some k)).2 x
  | .rem k => (btreeRem h root (some k)).1
  | .clr => btreeClr h root
  | .iter m => (iterTimes m h (.fresh root)).1

/-- `make_btree(descp)` から操作の列を行った木。 -/
def run (descp : Bool) (ops : List (Op K Q)) : Heap K Q := ops.foldl step (makeBtree descp)

/-- `btree_get` で見つかる値。キーがないときと nil の値は、どちらも nil とみなす。 -/
def find (h : Heap K Q) (k : K) : BtreeVal Q :=
  match btreeGet h root (some k) with
  | some c => if (h.load c).nilP then .nil else h.load c
  | none => .nil

/-! ## 追加の仕様 -/

/-- `btree_put(k)` で返る場所に値 `v` を書き込むと、`k` では `v` が見つかり、ほかのキーで見つかる値は変わらない。 -/
def PutStores (h : Heap K Q) (k : K) (v : BtreeVal Q) : Prop :=
  find (step h (.put k v)) k = v ∧ ∀ k', k' ≠ k → find (step h (.put k v)) k' = find h k'

/-! ## 探索木の不変条件 -/

/-- 高さ `d` の部分木にキー `k` がある。 -/
def KeyUnder (h : Heap K Q) : Nat → Addr → K → Prop
  | 0, a, k => ∃ i, i < (h.get a).n ∧ (h.get a).key.get i = some k
  | d + 1, a, k => ∃ i, i ≤ (h.get a).n ∧ KeyUnder h d ((h.get a).kid i) k

/-- `key[0..n-1]` は NaN でなく、木の向きで真に単調である。 -/
def Node.KeysSorted (t : Node K Q) (descp : Bool) : Prop :=
  (∀ i, i < t.n → (t.key.get i).isSome) ∧
  ∀ i j a b, i < j → j < t.n → t.key.get i = some a → t.key.get j = some b → Before descp a b

/-- 高さ `d` の探索木。葉のキーは単調で残りは NaN、内部の節の子はすべて同じ高さで、子 `i` の下のキーは
区切り `i - 1` より後、区切り `i` より後でない。根でない節の `n` は 62 以下である。 -/
def SearchTree (h : Heap K Q) (descp : Bool) : Nat → Addr → Prop
  | 0, a =>
      (h.get a).innerp = false ∧ (h.get a).KeysSorted descp ∧
      ∀ i, (h.get a).n ≤ i → i < 64 → (h.get a).key.get i = none
  | d + 1, a =>
      (h.get a).innerp = true ∧ 1 ≤ (h.get a).n ∧ (h.get a).KeysSorted descp ∧
      ∀ i, i ≤ (h.get a).n →
        SearchTree h descp d ((h.get a).kid i) ∧ (h.get ((h.get a).kid i)).n ≤ 62 ∧
        ∀ k, KeyUnder h d ((h.get a).kid i) k →
          (∀ s, 0 < i → (h.get a).key.get (i - 1) = some s → Before descp s k) ∧
          (∀ s, i < (h.get a).n → (h.get a).key.get i = some s → ¬ Before descp s k)

/-- 木全体の不変条件。 -/
def TreeInv (h : Heap K Q) (descp : Bool) : Prop :=
  (∃ d, SearchTree h descp d root) ∧ (h.get root).n ≤ 63 ∧
  ((h.get root).n = 63 ↔ (h.get root).splitp = true)

/-! ## 葉のつながり -/

/-- 節 `a` の下の葉を、左から順に並べたもの。 -/
def leavesOf (h : Heap K Q) : Nat → Addr → List Addr
  | 0, _ => []
  | fuel + 1, a =>
      if (h.get a).innerp then
        ((List.range ((h.get a).n + 1)).map (h.get a).kid).flatMap (leavesOf h fuel)
      else [a]

/-- 根からたどれる葉を、左から順に並べたもの。 -/
def leaves (h : Heap K Q) : List Addr := leavesOf h h.size root

/-- 左端の葉から `next` をたどると、根からたどれる葉をちょうど一度ずつ左から順に通る。途中で出会うほかの節の値は、
すべて nil である。 -/
def ChainVisits (h : Heap K Q) : Prop :=
  ∃ W, Path (fun x => (h.get x).next) (some (bottom h h.size root)) W none ∧ W.Nodup ∧
    W.filter (fun x => decide (x ∈ leaves h)) = leaves h ∧
    ∀ x ∈ W, x ∉ leaves h → ∀ i, i < (h.get x).n → ((h.get x).value i).nilP = true

/-! ## 反復 -/

/-- `btree_iter_next` を、偽を返すまで呼んで得られるキーと値。`m` 回までに終わらなければ `none`。 -/
def iterAll : Nat → Heap K Q → BtreeIter K → Option (List (Option K × BtreeVal Q))
  | 0, _, _ => none
  | m + 1, h, it =>
      let r := btreeIterNext h it
      if r.2.2 then (iterAll m r.1 r.2.1).map ((r.2.1.k, r.2.1.v.elim .nil r.1.load) :: ·)
      else some []

/-- 反復を終わりまで続けると、値が nil でないキーが、その値とともに、木の向きに一度ずつ得られる。最初に得られるのは
`btree_top` の返す組である。 -/
def IterYields (h : Heap K Q) (descp : Bool) : Prop :=
  ∃ (m : Nat) (l : List (K × BtreeVal Q)), iterAll m h (.fresh root) = some (l.map fun e => (some e.1, e.2)) ∧
    l.Pairwise (fun e e' => Before descp e.1 e'.1) ∧
    (∀ k v, (k, v) ∈ l ↔ find h k = v ∧ v.nilP = false) ∧
    (l.head?.map fun e => (some e.1, e.2)) = (btreeTop h root).map fun r => (r.1, h.load r.2)

/-- 部分木 `a` の左端から `next` をたどった葉の並び。 -/
structure LeafChain (h : Heap K Q) (a : Addr) (W : List Addr) : Prop where
  path : Path (fun x => (h.get x).next) (some (bottom h h.size a)) W none
  lt : ∀ x ∈ W, x < h.size
  leaf : ∀ x ∈ W, (h.get x).innerp = false
  n_le : ∀ x ∈ W, (h.get x).n ≤ 63

/-- 葉の並び `W` の、値が nil でない場所を、葉の順、添字の順に並べたもの。 -/
def liveOn (h : Heap K Q) (W : List Addr) : List Cell :=
  W.flatMap fun x => ((List.range (h.get x).n).filter fun i => !((h.get x).value i).nilP).map (Cell.mk x)

/-- 作りたての反復子から、`btree_iter_next` の呼び出しと、すでに返った場所への書き込みを、好きな順に重ねた実行。
`m` は呼び出しの回数、`ys` は返った場所を返った順に並べたものである。 -/
inductive IterRun (h₀ : Heap K Q) (a : Addr) : Nat → Heap K Q → BtreeIter K → List Cell → Prop where
  | fresh : IterRun h₀ a 0 h₀ (.fresh a) []
  | next {m h it ys} : IterRun h₀ a m h it ys →
      IterRun h₀ a (m + 1) (btreeIterNext h it).1 (btreeIterNext h it).2.1
        (ys ++ if (btreeIterNext h it).2.2 then (btreeIterNext h it).2.1.v.toList else [])
  | store {m h it ys c} (x : BtreeVal Q) : IterRun h₀ a m h it ys → c ∈ ys → IterRun h₀ a m (h.store c x) it ys

/-- 値が nil の場所の `used` のビットを消しただけである。 -/
structure Heap.Unmarks (h h' : Heap K Q) : Prop where
  get : ∀ x, ∃ u, h'.get x = { h.get x with used := u }
  clears : ∀ x m, (h'.get x).used.getLsbD m ≠ (h.get x).used.getLsbD m →
    (h.get x).used.getLsbD m = true ∧ m < (h.get x).n ∧ ((h.get x).value m).nilP = true

/-- `btree_clr` は、値をすべて消す。 -/
def ClrReaches (h : Heap K Q) : Prop := ∀ k, find (btreeClr h root) k = .nil

/-- `btree_top` は、値が nil でないキーのうち最も前のものを返し、どのキーの値も nil のときに限り何も返さない。 -/
def TopReaches (h : Heap K Q) (descp : Bool) : Prop :=
  match btreeTop h root with
  | none => ∀ k, find h k = .nil
  | some (ko, c) => ∃ k, ko = some k ∧ find h k = h.load c ∧ (h.load c).nilP = false ∧
      ∀ k', Before descp k' k → find h k' = .nil

/-- 反復は、値が nil でないキーをすべて返す。 -/
def IterReaches (h : Heap K Q) : Prop :=
  ∃ m l, iterAll m h (.fresh root) = some l ∧ ∀ k, (find h k).nilP = false → (some k, find h k) ∈ l

/-- 値が nil でないキーの場所のビットは、すべて立っている。 -/
def UsedCovers (h : Heap K Q) : Prop :=
  ∀ k c, btreeGet h root (some k) = some c → (h.load c).nilP = false → (h.get c.t).used.getLsbD c.i = true

/-! ## 条件のつく実行 -/

/-- 操作の列のどの段でも、その段の前の木が条件 `P` を満たす。 -/
def Throughout (P : Heap K Q → Op K Q → Prop) : Heap K Q → List (Op K Q) → Prop
  | _, [] => True
  | h, op :: ops => P h op ∧ Throughout P (step h op) ops

end Books.Btree
