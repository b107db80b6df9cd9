import Books.Book.Code

/-!
# 見える気配

反復で見える気配と、`book_add` が見える気配に行うべき変更を定める。
-/

namespace Books.Book

open Books.Btree

variable {K Q : Type} [LinearOrder K] [LinearOrder Q] [AddCommGroup Q]

/-- 見える値。数量が正でない値は見えない。 -/
def shown (v : BtreeVal Q) : BtreeVal Q := if v.nilP then .nil else v

/-- 側と気配値から、見える数量と時刻への対応。見えない気配値は nil に対応する。 -/
abbrev Levels (K Q : Type) := Bool → K → BtreeVal Q

/-- 木に入っている値。見えない値も含む。 -/
def Book.stored (b : Book (OrdMap K Q)) : Levels K Q := fun s k => (b.get s).val k

/-- 見える気配。 -/
def Book.visible (b : Book (OrdMap K Q)) : Levels K Q := fun s k => shown (b.stored s k)

/-- 側 `s` の気配値 `p` を、`v` に置き換える。 -/
def Levels.update (L : Levels K Q) (s : Bool) (p : K) (v : BtreeVal Q) : Levels K Q :=
  fun s' k => if s' = s ∧ k = p then shown v else L s' k

/-- 側 `s` を、ただ一つの気配値 `p` にする。 -/
def Levels.single (L : Levels K Q) (s : Bool) (p : K) (v : BtreeVal Q) : Levels K Q :=
  fun s' k => if s' = s then (if k = p then shown v else .nil) else L s' k

/-- 両側から、`p` より手前の気配を除き、`p` の数量を `x` だけ減らす。 -/
def Levels.reduce (L : Levels K Q) (p : K) (x : Q) : Levels K Q :=
  fun s k =>
    if Before s k p then .nil
    else if k = p ∧ (L s k).nilP = false then shown { L s k with q := (L s k).q - x }
    else L s k

/-- 側 `s` への気配 `q` を加えた後に、見えるべき気配。`L` は見える気配、`S` は木に入っている値である。 -/
def sideAfter (L S : Levels K Q) (s : Bool) (p : K) (q : BookQuo K Q) : Levels K Q :=
  match q.f with
  | .lvl3 => L.update s p ⟨if 0 ≤ q.q + (S s p).q then q.q + (S s p).q else 0, q.t⟩
  | .lvl2 => L.update s p ⟨q.q, q.t⟩
  | .lvl1 => if q.q < 0 then L else L.single s p ⟨q.q, q.t⟩
  | .lvl0 => L

/-- 気配値 `p` の気配 `q` を加えた後に、見えるべき気配。 -/
def levelsAfter (L S : Levels K Q) (p : K) (q : BookQuo K Q) : Levels K Q :=
  match q.s with
  | .ask => sideAfter L S false p q
  | .bid => sideAfter L S true p q
  | .clr => fun _ _ => .nil
  | .del => L.reduce p q.q
  | _ => L

/-- `book_add` が受け付けない気配。 -/
def rejected (q : BookQuo K Q) : Bool :=
  match q.s with
  | .ask | .bid => decide (q.f = .lvl0) || (decide (q.f = .lvl1) && decide (q.q < 0))
  | .clr | .del => false
  | _ => true

/-! ## `book_add` の返す気配 -/

/-- 返った気配が、側 `s` の気配値 `p` の前の数量と時刻を持つ。見えない気配値の数量は 0 である。 -/
def Reports (b : Book (OrdMap K Q)) (s : Bool) (p : K) (r : BookQuo K Q) : Prop :=
  r.p = some p ∧ r.q = (b.visible s p).q ∧ ((b.visible s p).nilP = false → r.t = (b.visible s p).t)

/-! ## 数量の増減 -/

/-- レベル 3 の気配は、見える数量に `d` を加える。負になる数量は 0 である。 -/
def Accumulates [Zero K] (b : Book (OrdMap K Q)) (s : Bool) (p : K) (d : Q) : Prop :=
  ∀ t, ((bookAdd b ⟨sideOf s, .lvl3, some p, d, t⟩).1.visible s p).q = max 0 ((b.visible s p).q + d)

/-- 側 `s` に見える `p` の数量が、約定の数量 `x` に足りない。 -/
def Book.lacks (b : Book (OrdMap K Q)) (s : Bool) (p : K) (x : Q) : Bool :=
  !(b.visible s p).nilP && decide ((b.visible s p).q < x)

/-- 気配 `q` が、負の数量を木に残す。 -/
def overdraws (b : Book (OrdMap K Q)) (q : BookQuo K Q) : Bool :=
  match q.s with
  | .ask | .bid => decide (q.f = .lvl2) && decide (q.q < 0)
  | .del => q.p.any fun p => b.lacks false p q.q || b.lacks true p q.q
  | _ => false

/-- 気配の列のどれも、負の数量を木に残さない。 -/
def Solvent [Zero K] : Book (OrdMap K Q) → List (BookQuo K Q) → Prop
  | _, [] => True
  | b, q :: qs => overdraws b q = false ∧ Solvent (bookAdd b q).1 qs

/-! ## `btree.c` の木のキー -/

/-- 葉のキーを、左から順に並べたもの。 -/
def treeKeys (h : Heap K Q) : List (Option K) :=
  (leaves h).flatMap fun x => (List.range (h.get x).n).map (h.get x).key.get

/-- 木のキーに NaN がなく、木の向きに真に並んでいて、探索木の不変条件も成り立つ。 -/
def TreeSorted (h : Heap K Q) (descp : Bool) : Prop :=
  TreeInv h descp ∧ (∀ k ∈ treeKeys h, k ≠ none) ∧
  (treeKeys h).Pairwise fun a b => ∀ x y, a = some x → b = some y → Before descp x y

def BookSorted (b : Book (Tree K Q)) : Prop := TreeSorted b.ask false ∧ TreeSorted b.bid true

/-- 側 `s` の気配値 `p` へのレベル 2 の気配 `v` は、その気配だけを書き換え、キーの並びを保つ。 -/
def UpdatesLevel [Zero K] (b : Book (Tree K Q)) (s : Bool) (p : K) (v : BtreeVal Q) : Prop :=
  let b' := (bookAdd b ⟨sideOf s, .lvl2, some p, v.q, v.t⟩).1
  BookSorted b' ∧ find (b'.get s) p = shown v ∧ (∀ k, k ≠ p → find (b'.get s) k = find (b.get s) k) ∧
  b'.get (!s) = b.get (!s)

/-- 木のキーは並び、見つかる気配値へのレベル 2 の気配は、その気配だけを書き換える。 -/
def KeepsKeys [Zero K] (b : Book (Tree K Q)) : Prop :=
  BookSorted b ∧ ∀ s p v, (find (b.get s) p).nilP = false → UpdatesLevel b s p v

/-- `BOOK_SIDE_ASK` か `BOOK_SIDE_BID` のレベル 2 か 3 の気配には、気配値がある。 -/
def priced (q : BookQuo K Q) : Bool :=
  !((decide (q.s = .ask) || decide (q.s = .bid)) && (decide (q.f = .lvl2) || decide (q.f = .lvl3))) || q.p.isSome

end Books.Book
