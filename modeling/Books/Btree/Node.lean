import Books.Lib.Arr
import Mathlib.Order.Lattice
import Mathlib.Algebra.Order.Ring.Int

/-!
# B+ 木の節とヒープ

`btree.c` の `struct btree_s` と、その節を番地で指すヒープを定める。キーの型 `K` と数量の型 `Q` は、`_Decimal32` と
`_Decimal64` の両方の版を表すために変数にする。キーの NaN は `none` で表す。
-/

set_option linter.unusedSectionVars false

namespace Books.Btree

open Books.Lib

/-- 節の番地。`btree_t` のうち `NULL` でないもの。 -/
abbrev Addr := Nat

/-- `tv_t`。 -/
abbrev Tv := UInt64

/-- `btree_val_t`。 -/
structure BtreeVal (Q : Type) where
  q : Q
  t : Tv
deriving DecidableEq

/-- `btree_ual_t`。葉では値、内部の節では子の番地を持つ。 -/
inductive Ual (Q : Type) where
  | v (x : BtreeVal Q)
  | t (a : Addr)

/-- `struct btree_s`。 -/
structure Node (K Q : Type) where
  n : Nat
  innerp : Bool
  descp : Bool
  splitp : Bool
  used : BitVec 64
  key : Arr 64 (Option K)
  val : Arr 64 (Ual Q)
  next : Option Addr

/-- 確保した節の並び。番地は並びの添字である。 -/
structure Heap (K Q : Type) where
  cells : List (Node K Q)

/-- 値の入る場所 `&t->val[i].v`。 -/
structure Cell where
  t : Addr
  i : Nat
deriving DecidableEq

variable {K Q : Type} [Zero Q]

/-- `btree_val_nil`。 -/
def BtreeVal.nil : BtreeVal Q := ⟨0, 0⟩

/-- `btree_val_nil_p`。 -/
def BtreeVal.nilP [LinearOrder Q] (v : BtreeVal Q) : Bool := decide (v.q ≤ 0)

instance : Inhabited (Ual Q) := ⟨.v .nil⟩

/-- 共用体を値として読む。 -/
def Ual.asV : Ual Q → BtreeVal Q
  | .v x => x
  | .t _ => .nil

/-- 共用体を子の番地として読む。 -/
def Ual.asT : Ual Q → Addr
  | .v _ => 0
  | .t a => a

/-- `make_btree` が返す節。`calloc` で 0 にし、キーを NaN で埋める。 -/
def Node.make (descp : Bool) : Node K Q where
  n := 0
  innerp := false
  descp := descp
  splitp := false
  used := 0
  key := Arr.const 64 none
  val := Arr.const 64 (.v .nil)
  next := none

instance : Inhabited (Node K Q) := ⟨.make false⟩

/-- 子の番地 `t->val[i].t`。 -/
def Node.kid (t : Node K Q) (i : Nat) : Addr := (t.val.get i).asT

/-- 値 `t->val[i].v`。 -/
def Node.value (t : Node K Q) (i : Nat) : BtreeVal Q := (t.val.get i).asV

/-! ## キーの比較 -/

/-- 走査を続ける条件。`descp` が偽なら `k > x`、真なら `k < x` で、NaN との比較は偽である。 -/
def keyPast [LinearOrder K] (descp : Bool) : Option K → Option K → Bool
  | some k, some x => if descp then decide (k < x) else decide (x < k)
  | _, _ => false

/-- `k == x`。NaN はどのキーとも等しくない。 -/
def keyEq [LinearOrder K] : Option K → Option K → Bool
  | some k, some x => decide (k = x)
  | _, _ => false

/-- `for (i = 0U; i < t->n && k > t->key[i]; i++);`（`descp` なら逆の比較）。 -/
def Node.seek [LinearOrder K] (t : Node K Q) (k : Option K) : Nat := t.key.scan (keyPast t.descp k) t.n

/-! ## ヒープ -/

namespace Heap

def size (h : Heap K Q) : Nat := h.cells.length

def get (h : Heap K Q) (a : Addr) : Node K Q := h.cells.getD a default

def set (h : Heap K Q) (a : Addr) (t : Node K Q) : Heap K Q := ⟨h.cells.set a t⟩

def modify (h : Heap K Q) (a : Addr) (f : Node K Q → Node K Q) : Heap K Q := h.set a (f (h.get a))

/-- 節を一つ確保する。番地は `h.size` になる。 -/
def push (h : Heap K Q) (t : Node K Q) : Heap K Q := ⟨h.cells ++ [t]⟩

def load (h : Heap K Q) (c : Cell) : BtreeVal Q := (h.get c.t).value c.i

def store (h : Heap K Q) (c : Cell) (x : BtreeVal Q) : Heap K Q :=
  h.modify c.t fun t => { t with val := t.val.set c.i (.v x) }

@[simp] theorem size_set (h : Heap K Q) (a : Addr) (t : Node K Q) : (h.set a t).size = h.size := by
  simp [size, set]

@[simp] theorem size_modify (h : Heap K Q) (a : Addr) (f : Node K Q → Node K Q) :
    (h.modify a f).size = h.size := by
  simp [modify]

@[simp] theorem size_push (h : Heap K Q) (t : Node K Q) : (h.push t).size = h.size + 1 := by
  simp [size, push]

@[simp] theorem size_store (h : Heap K Q) (c : Cell) (x : BtreeVal Q) : (h.store c x).size = h.size := by
  simp [store]

theorem get_set_eq {h : Heap K Q} {a : Addr} (t : Node K Q) (ha : a < h.size) : (h.set a t).get a = t := by
  simp only [size] at ha
  simp [get, set, ha]

theorem get_set_ne {h : Heap K Q} {a b : Addr} (t : Node K Q) (hne : a ≠ b) : (h.set a t).get b = h.get b := by
  simp [get, set, hne]

theorem set_of_le {h : Heap K Q} {a : Addr} (t : Node K Q) (ha : h.size ≤ a) : h.set a t = h := by
  simp only [set, List.set_eq_of_length_le ha]

theorem get_of_le {h : Heap K Q} {a : Addr} (ha : h.size ≤ a) : h.get a = default := by
  simp only [size] at ha
  simp [get, List.getElem?_eq_none ha]

theorem get_modify_eq {h : Heap K Q} {a : Addr} (f : Node K Q → Node K Q) (ha : a < h.size) :
    (h.modify a f).get a = f (h.get a) :=
  get_set_eq _ ha

theorem get_modify_ne {h : Heap K Q} {a b : Addr} (f : Node K Q → Node K Q) (hne : a ≠ b) :
    (h.modify a f).get b = h.get b :=
  get_set_ne _ hne

theorem get_push_lt {h : Heap K Q} {a : Addr} (t : Node K Q) (ha : a < h.size) :
    (h.push t).get a = h.get a := by
  simp only [size] at ha
  simp [get, push, List.getElem?_append_left ha]

theorem get_push_eq (h : Heap K Q) (t : Node K Q) : (h.push t).get h.size = t := by
  simp [get, push, size]

end Heap

end Books.Btree
