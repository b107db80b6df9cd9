import Books.Btree.Lemmas.Order

/-!
# 気配の木

`books.c` は `btree.h` の操作だけを通して木を使う。その操作を `BTree` にまとめ、`btree.c` の木と、値を失わない理想の
順序つき写像の二つを与える。木の型は、向き `descp` ごとに分ける。
-/

namespace Books.Book

open Books.Btree

/-- `btree.h` の操作。`Ref` は `btree_val_t*`、`Iter` は `btree_iter_t` である。`bound` は、作りたての反復子で
`btree_iter_next` が真を返しうる回数の上限で、繰り返しの上限に使う。 -/
class BTree (T : Bool → Type) (K Q : outParam Type) where
  Ref : Type
  Iter : Type
  make : (descp : Bool) → T descp
  put : {descp : Bool} → T descp → Option K → T descp × Ref
  load : {descp : Bool} → T descp → Ref → BtreeVal Q
  store : {descp : Bool} → T descp → Ref → BtreeVal Q → T descp
  clr : {descp : Bool} → T descp → T descp
  iter : Iter
  iterNext : {descp : Bool} → T descp → Iter → T descp × Iter × Bool
  iterKey : Iter → Option K
  iterRef : Iter → Ref
  bound : {descp : Bool} → T descp → Nat

section Real
variable {K Q : Type} [LinearOrder K] [LinearOrder Q] [Zero Q]

/-- `btree.c` の木。向きは根の `descp` が持つ。 -/
abbrev Tree (K Q : Type) (_ : Bool) : Type := Heap K Q

instance : BTree (Tree K Q) K Q where
  Ref := Cell
  Iter := BtreeIter K
  make := makeBtree
  put h k := btreePut h root k
  load := Heap.load
  store := Heap.store
  clr h := btreeClr h root
  iter := .fresh root
  iterNext := btreeIterNext
  iterKey it := it.k
  iterRef it := it.v.getD ⟨root, 0⟩
  bound h := 64 * h.size + 1

end Real

/-! ## 理想の木 -/

variable {K Q : Type} [LinearOrder K] {descp : Bool}

instance (a b : K) : Decidable (Before descp a b) := inferInstanceAs (Decidable (if descp then b < a else a < b))

/-- キー `k` を、木の向きの順に挿入する。あればそのままにする。 -/
def insertKey (descp : Bool) (k : K) : List K → List K
  | [] => [k]
  | x :: xs => if k = x then x :: xs else if Before descp k x then k :: x :: xs else x :: insertKey descp k xs

theorem mem_insertKey {k y : K} : ∀ {xs : List K}, y ∈ insertKey descp k xs ↔ y = k ∨ y ∈ xs
  | [] => by simp [insertKey]
  | x :: xs => by
      simp only [insertKey]
      split
      · rename_i he
        rw [he]; simp
      · split
        · simp
        · rw [List.mem_cons, mem_insertKey, List.mem_cons]
          exact or_left_comm

theorem sorted_insertKey {k : K} : ∀ {xs : List K}, xs.Pairwise (Before descp) →
    (insertKey descp k xs).Pairwise (Before descp)
  | [], _ => by simp [insertKey]
  | x :: xs, hs => by
      obtain ⟨hx, hxs⟩ := List.pairwise_cons.mp hs
      simp only [insertKey]
      split
      · exact hs
      · rename_i hne
        split
        · rename_i hb
          refine List.pairwise_cons.mpr ⟨fun y hy => ?_, hs⟩
          rcases List.mem_cons.mp hy with rfl | hy
          · exact hb
          · exact hb.trans (hx y hy)
        · rename_i hb
          refine List.pairwise_cons.mpr ⟨fun y hy => ?_, sorted_insertKey hxs⟩
          rcases mem_insertKey.mp hy with rfl | hy
          · rcases before_trichotomy descp x y with h | h | h
            · exact h
            · exact absurd h.symm hne
            · exact absurd h hb
          · exact hx y hy

/-- 理想の順序つき写像。一度書き込んだ値は、nil とみなされる値も含めて、書き換えるまで残る。 -/
structure OrdMap (K Q : Type) [LinearOrder K] [Zero Q] (descp : Bool) where
  keys : List K
  val : K → BtreeVal Q
  sorted : keys.Pairwise (Before descp)
  absent : ∀ k, k ∉ keys → val k = .nil

namespace OrdMap

section Ops
variable [Zero Q]

def make (descp : Bool) : OrdMap K Q descp := ⟨[], fun _ => .nil, List.Pairwise.nil, fun _ _ => rfl⟩

/-- キー `k` の場所を用意する。値は変えない。 -/
def insert (m : OrdMap K Q descp) (k : K) : OrdMap K Q descp where
  keys := insertKey descp k m.keys
  val := m.val
  sorted := sorted_insertKey m.sorted
  absent y hy := m.absent y (fun h => hy (mem_insertKey.mpr (Or.inr h)))

/-- 用意した場所に値を書き込む。 -/
def set (m : OrdMap K Q descp) (k : K) (v : BtreeVal Q) : OrdMap K Q descp where
  keys := m.keys
  val y := if y = k ∧ k ∈ m.keys then v else m.val y
  sorted := m.sorted
  absent y hy := by
    have hne : ¬ (y = k ∧ k ∈ m.keys) := by
      rintro ⟨rfl, hk⟩
      exact hy hk
    rw [if_neg hne]
    exact m.absent y hy

def clear (m : OrdMap K Q descp) : OrdMap K Q descp := ⟨m.keys, fun _ => .nil, m.sorted, fun _ _ => rfl⟩

variable [LinearOrder Q]

/-- 前に返したキー `last` より後の、値が nil でない最初のキー。 -/
def nextKey (m : OrdMap K Q descp) (last : Option K) : Option K :=
  m.keys.find? fun k => !(m.val k).nilP && last.all fun l => decide (Before descp l k)

end Ops

instance [Zero Q] [LinearOrder Q] : BTree (OrdMap K Q) K Q where
  Ref := Option K
  Iter := Option K
  make := make
  put m k := (k.elim m m.insert, k)
  load m c := c.elim .nil m.val
  store m c v := c.elim m fun k => m.set k v
  clr := clear
  iter := none
  iterNext m last := (m, (m.nextKey last).or last, (m.nextKey last).isSome)
  iterKey last := last
  iterRef last := last
  bound m := m.keys.length + 1

end OrdMap

end Books.Book
