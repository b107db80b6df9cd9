import Books.Btree.Spec

/-!
# 節の数と解放

`btree.c` の `free_btree` と、木の節の数について述べる性質を定める。
-/

namespace Books.Btree

variable {K Q : Type} [LinearOrder K] [LinearOrder Q] [Zero Q]

/-! ## `free_btree` -/

/-- `free_btree`。`F` は、すでに解放した節を、解放した順に並べたものである。解放した節を読むか、もう一度解放すると、`none`
を返す。`free_btree_val` は何もしない。 -/
def freeBtree (h : Heap K Q) : Nat → List Addr → Addr → Option (List Addr)
  | 0, _, _ => none
  | fuel + 1, F, t =>
      if t ∈ F then none
      else if (h.get t).innerp then do
        let F ← (List.range ((h.get t).n + 1)).foldlM
          (fun F i => if t ∈ F then none else freeBtree h fuel F ((h.get t).kid i)) F
        if t ∈ F then none else return F ++ [t]
      else some (F ++ [t])

/-! ## たどれる節 -/

/-- 節 `a` から子をたどって着く節。 -/
inductive Reached (h : Heap K Q) : Addr → Addr → Prop where
  | self (a : Addr) : Reached h a a
  | kid {a x : Addr} {i : Nat} : (h.get a).innerp = true → i ≤ (h.get a).n → Reached h ((h.get a).kid i) x → Reached h a x

/-- 左端の葉までの深さ。 -/
def height (h : Heap K Q) : Nat → Addr → Nat
  | 0, _ => 0
  | fuel + 1, a => if (h.get a).innerp then height h fuel ((h.get a).kid 0) + 1 else 0

/-- 深さ `d` のどの葉も、根から同じ深さにある。 -/
def LevelTree (h : Heap K Q) : Nat → Addr → Prop
  | 0, a => (h.get a).innerp = false
  | d + 1, a => (h.get a).innerp = true ∧ ∀ i, i ≤ (h.get a).n → LevelTree h d ((h.get a).kid i)

/-! ## 使い捨てる節 -/

/-- キー `k` の追加が、埋まった内部の節を分けるときに、空いた内部の節を使い回す。使い回した節の子は、どこからもたどれなく
なる。 -/
def wastes (h : Heap K Q) : Nat → Addr → Option K → Bool
  | 0, _, _ => false
  | fuel + 1, a, k =>
      let c := (h.get a).kid ((h.get a).seek k)
      if !(h.get c).innerp then false
      else
        let r := twigAdd fuel h c k
        wastes h fuel c k || (r.splitp && decide (spareIdx fuel r.heap (r.heap.get a) ≤ (r.heap.get a).n))

/-- `btree_put` が始めに行う、先送りした根の分割を済ませた木で、`wastes` が真である。 -/
def putWastes (h : Heap K Q) (k : Option K) : Bool :=
  let h := if (h.get root).splitp then rootSplit h root else h
  (h.get root).innerp && wastes h h.size root k

/-- 節を使い捨てない操作。 -/
def keepsNodes (h : Heap K Q) : Op K Q → Bool
  | .put k _ => !putWastes h (some k)
  | _ => true

/-- 追加したキー。 -/
def putKeys (ops : List (Op K Q)) : List K :=
  ops.filterMap fun
    | .put k _ => some k
    | _ => none

/-- 木の解放は、解放した節に触れずに終わり、根からたどれる節をちょうど一度ずつ解放する。 -/
def FreesReached (h : Heap K Q) : Prop :=
  ∃ F, freeBtree h h.size [] root = some F ∧ F.Nodup ∧ ∀ x, x ∈ F ↔ Reached h root x

/-- 木の解放は、確保した節をすべて解放する。 -/
def FreesAll (h : Heap K Q) : Prop := ∃ F, freeBtree h h.size [] root = some F ∧ F.Perm (List.range h.size)

/-- どの葉も同じ深さにあり、根でない節には 31 個以上のキーがある。深さは、追加したキーの種類の数 `m` の対数で抑えられる。 -/
def Balanced (h : Heap K Q) (m : Nat) : Prop :=
  LevelTree h (height h h.size root) root ∧ (∀ x, Reached h root x → x ≠ root → 31 ≤ (h.get x).n) ∧
  (0 < height h h.size root → 62 * 32 ^ (height h h.size root - 1) ≤ m)

end Books.Btree
