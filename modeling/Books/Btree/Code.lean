import Books.Btree.Node

/-!
# `btree.c` の関数

節の番地をたどる再帰と繰り返しは、回数の上限 `fuel` を取る。呼び出し側は、確保した節の個数 `h.size` を渡す。
-/

namespace Books.Btree

open Books.Lib

variable {K Q : Type} [LinearOrder K] [LinearOrder Q] [Zero Q]

/-- `countof(t->key) / 2U - 1U`。 -/
def piv : Nat := 64 / 2 - 1

/-- `node_free_p`。葉ならすべての値が nil、内部の節ならすべての子が空いている。 -/
def nodeFreeP (h : Heap K Q) : Nat → Addr → Bool
  | 0, _ => false
  | fuel + 1, a =>
      let t := h.get a
      if !t.innerp then
        decide (t.n ≤ t.val.scan (fun u => u.asV.nilP) t.n)
      else
        decide (t.n < t.val.scan (fun u => nodeFreeP h fuel u.asT) (t.n + 1))

/-- `root_split`。左右の節を確保し、根の中身を移す。`used` は移さない。 -/
def rootSplit (h : Heap K Q) (root : Addr) : Heap K Q :=
  let r := h.get root
  let left := h.size
  let rght := h.size + 1
  let l : Node K Q := .make r.descp
  let g : Node K Q := .make r.descp
  let h := h.push { l with
    key := l.key.copy 0 r.key 0 (piv + 1)
    val := l.val.copy 0 r.val 0 (piv + 1)
    innerp := r.innerp
    n := piv + (!r.innerp).toNat
    next := some rght }
  let h := h.push { g with
    key := g.key.copy 0 r.key (piv + 1) piv
    val := g.val.copy 0 r.val (piv + 1) (piv + 1)
    innerp := r.innerp
    n := piv
    next := none }
  h.modify root fun r =>
    { r with
      key := (r.key.set 0 (r.key.get piv)).fill 1 none
      val := (r.val.set 0 (.t left)).set 1 (.t rght)
      n := 1
      innerp := true
      next := none }

/-- `node_split` の `RGHT` の用意。空いた子がなければ節を確保し、あればその子を使い回す。 -/
def splitSpare (h : Heap K Q) (p : Node K Q) (idx nul : Nat) : Heap K Q × Addr :=
  if p.n < nul then
    (h.push (.make (h.get (p.kid idx)).descp), h.size)
  else
    let rght := p.kid nul
    if nul ≠ 0 then
      (h.modify (p.kid (nul - 1)) fun s => { s with next := (h.get rght).next }, rght)
    else
      (h, rght)

/-- `node_split` の親の `memmove`。空いた場所を `idx` の右へ寄せ、`idx` の新しい位置を返す。 -/
def splitShift (p : Node K Q) (idx nul : Nat) : Node K Q × Nat :=
  if idx < nul then
    ({ p with
       key := p.key.copy (idx + 1) p.key idx (nul - idx)
       val := p.val.copy (idx + 1) p.val idx (nul - idx) }, idx)
  else if nul < idx then
    ({ p with
       key := p.key.copy nul p.key (nul + 1) (idx - nul)
       val := p.val.copy nul p.val (nul + 1) (idx - nul) }, idx - 1)
  else
    (p, idx)

/-- `node_split` の `PaReNT` の変更。`s` は子の中央のキー。 -/
def splitParent (p : Node K Q) (idx nul : Nat) (s : Option K) (rght : Addr) : Node K Q :=
  let r := splitShift p idx nul
  { r.1 with
    n := p.n + (decide (p.n < nul)).toNat
    key := r.1.key.set r.2 s
    val := r.1.val.set (r.2 + 1) (.t rght) }

/-- `node_split` の `RGHT` の変更。 -/
def splitRght (r c : Node K Q) : Node K Q :=
  { r with
    key := (r.key.copy 0 c.key (piv + 1) piv).fill piv none
    val := r.val.copy 0 c.val (piv + 1) (piv + 1)
    innerp := c.innerp
    next := c.next
    n := piv }

/-- `node_split` の `CHLD` の変更。 -/
def splitChld (c : Node K Q) (rght : Addr) : Node K Q :=
  { c with
    n := piv + (!c.innerp).toNat
    next := some rght
    key := c.key.fill (piv + (!c.innerp).toNat) none }

/-- 空いた子の添字。なければ `p->n` より大きい。 -/
def spareIdx (fuel : Nat) (h : Heap K Q) (p : Node K Q) : Nat :=
  p.val.scan (fun u => !nodeFreeP h fuel u.asT) (p.n + 1)

/-- `node_split`。`PRNT` の `idx` 番目の子を二つに分ける。 -/
def nodeSplit (fuel : Nat) (h : Heap K Q) (prnt : Addr) (idx : Nat) : Heap K Q :=
  let p := h.get prnt
  let chld := p.kid idx
  let nul := spareIdx fuel h p
  let (h, rght) := splitSpare h p idx nul
  let h := h.modify prnt fun p => splitParent p idx nul ((h.get chld).key.get piv) rght
  let h := h.modify rght fun r => splitRght r (h.get chld)
  h.modify chld fun c => splitChld c rght

/-! ## 検索 -/

/-- `leaf_get`。 -/
def leafGet (h : Heap K Q) (t : Addr) (k : Option K) : Option Cell :=
  let i := (h.get t).seek k
  if keyEq k ((h.get t).key.get i) then some ⟨t, i⟩ else none

/-- `twig_get`。 -/
def twigGet (h : Heap K Q) : Nat → Addr → Option K → Option Cell
  | 0, _, _ => none
  | fuel + 1, t, k =>
      let c := (h.get t).kid ((h.get t).seek k)
      if !(h.get c).innerp then leafGet h c k else twigGet h fuel c k

/-- `btree_get`。 -/
def btreeGet (h : Heap K Q) (t : Addr) (k : Option K) : Option Cell :=
  if !(h.get t).innerp then leafGet h t k else twigGet h h.size t k

/-! ## 追加 -/

/-- `leaf_add` が空いた場所 `nul` を `i` へ寄せる部分。`used` のビットも同じだけずらす。 -/
def Node.leafShift (t : Node K Q) (i nul : Nat) : Node K Q × Nat :=
  if i < nul then
    let msk := ((t.used >>> i) &&& ((1#64 <<< (nul - i)) - 1#64)) <<< i
    ({ t with
       used := (t.used ^^^ msk) ^^^ (msk <<< 1)
       key := t.key.copy (i + 1) t.key i (nul - i)
       val := t.val.copy (i + 1) t.val i (nul - i) }, i)
  else if nul < i then
    let msk := ((t.used >>> nul) &&& ((1#64 <<< (i - nul)) - 1#64)) <<< nul
    let i := i - 1
    ({ t with
       used := (t.used ^^^ msk) ^^^ (msk >>> 1)
       key := t.key.copy nul t.key (nul + 1) (i - nul)
       val := t.val.copy nul t.val (nul + 1) (i - nul) }, i)
  else
    (t, i)

/-- nil でない値が先頭から続く個数。すべて nil でなければ `t->n`。 -/
def Node.nulIdx (t : Node K Q) : Nat := t.val.scan (fun u => !u.asV.nilP) t.n

/-- `leaf_add` が節に行う変更と、キー `k` の入った添字。 -/
def Node.leafAdd (t : Node K Q) (k : Option K) : Node K Q × Nat :=
  let i := t.seek k
  if keyEq k (t.key.get i) then
    ({ t with used := t.used ||| (1#64 <<< i) }, i)
  else
    let nul := t.nulIdx
    let (t', i) := t.leafShift i nul
    ({ t' with
       n := t.n + (!decide (nul < t.n)).toNat
       key := t'.key.set i k
       val := t'.val.set i (.v .nil)
       used := t'.used ||| (1#64 <<< i) }, i)

/-- `leaf_add` と `twig_add` の結果。戻り値の `cell` と、引数で返す `*splitp`。 -/
structure Added (K Q : Type) where
  heap : Heap K Q
  splitp : Bool
  cell : Cell

/-- `leaf_add`。 -/
def leafAdd (h : Heap K Q) (t : Addr) (k : Option K) : Added K Q :=
  let r := (h.get t).leafAdd k
  ⟨h.set t r.1, decide (64 - 1 ≤ r.1.n), ⟨t, r.2⟩⟩

/-- `twig_add`。 -/
def twigAdd : Nat → Heap K Q → Addr → Option K → Added K Q
  | 0, h, t, _ => ⟨h, false, ⟨t, 0⟩⟩
  | fuel + 1, h, t, k =>
      let i := (h.get t).seek k
      let c := (h.get t).kid i
      let r := if !(h.get c).innerp then leafAdd h c k else twigAdd fuel h c k
      let h := if r.splitp then nodeSplit fuel r.heap t i else r.heap
      ⟨h, decide (64 - 1 ≤ (h.get t).n), r.cell⟩

/-- `btree_put`。前の追加で根が埋まっていたら、先に根を分ける。 -/
def btreePut (h : Heap K Q) (t : Addr) (k : Option K) : Heap K Q × Cell :=
  let h := if (h.get t).splitp then rootSplit h t else h
  let r := if !(h.get t).innerp then leafAdd h t k else twigAdd h.size h t k
  (r.heap.modify t fun t => { t with splitp := r.splitp }, r.cell)

/-- `make_btree`。根の番地は 0 になる。 -/
def makeBtree (descp : Bool) : Heap K Q := ⟨[.make descp]⟩

/-! ## 削除と走査 -/

/-- `btree_rem`。 -/
def btreeRem (h : Heap K Q) (t : Addr) (k : Option K) : Heap K Q × BtreeVal Q :=
  match btreeGet h t k with
  | some c => (h.store c .nil, h.load c)
  | none => (h, .nil)

/-- `for (; t->innerp; t = t->val->t);`。 -/
def bottom (h : Heap K Q) : Nat → Addr → Addr
  | 0, t => t
  | fuel + 1, t => if (h.get t).innerp then bottom h fuel ((h.get t).kid 0) else t

/-- `for (size_t i = 0U; i < t->n; i++) t->val[i].v = btree_val_nil;`。 -/
def Node.clear (t : Node K Q) : Node K Q := { t with val := t.val.copy 0 (Arr.const 64 (.v .nil)) 0 t.n }

/-- `btree_clr` の `do … while ((t = t->next))`。 -/
def clrFrom : Nat → Heap K Q → Addr → Heap K Q
  | 0, h, _ => h
  | fuel + 1, h, t =>
      let h := h.modify t Node.clear
      match (h.get t).next with
      | none => h
      | some t => clrFrom fuel h t

/-- `btree_clr`。 -/
def btreeClr (h : Heap K Q) (t : Addr) : Heap K Q := clrFrom h.size h (bottom h h.size t)

/-- nil の値が先頭から続く個数。 -/
def Node.topIdx (t : Node K Q) : Nat := t.val.scan (fun u => u.asV.nilP) t.n

/-- `btree_top` の `do … while ((t = t->next))`。 -/
def topFrom (h : Heap K Q) : Nat → Addr → Option (Option K × Cell)
  | 0, _ => none
  | fuel + 1, t =>
      let i := (h.get t).topIdx
      if i < (h.get t).n then
        some ((h.get t).key.get i, ⟨t, i⟩)
      else
        match (h.get t).next with
        | none => none
        | some t => topFrom h fuel t

/-- `btree_top`。 -/
def btreeTop (h : Heap K Q) (t : Addr) : Option (Option K × Cell) := topFrom h h.size (bottom h h.size t)

/-! ## 反復 -/

/-- `__builtin_ctzll`。0 に対しては 64 とする。 -/
def ctzll (u : BitVec 64) : Nat := (List.range 64).findIdx fun j => u.getLsbD j

/-- `btree_iter_t`。 -/
structure BtreeIter (K : Type) where
  t : Option Addr
  i : Nat
  k : Option K
  v : Option Cell

/-- 作りたての反復子 `{t, 0}`。 -/
def BtreeIter.fresh (t : Addr) : BtreeIter K := ⟨some t, 0, none, none⟩

/-- `btree_iter_next` の一つの葉の中の繰り返し。nil の値を通り過ぎるたびに `used` のビットを消す。
見つけた添字を返す。 -/
def Node.iterLoop : Nat → Node K Q → BitVec 64 → Nat → Nat → Node K Q × Option Nat
  | 0, t, _, _, _ => (t, none)
  | fuel + 1, t, u, sh, i =>
      if i < t.n then
        if !(t.value i).nilP then (t, some i)
        else
          let t := { t with used := (t.used ||| (1#64 <<< i)) ^^^ (1#64 <<< i) }
          let u := u >>> (sh + 1)
          let sh := ctzll u
          iterLoop fuel t u sh (i + (sh + 1))
      else (t, none)

/-- 葉 `t` の添字 `i` からの探索。 -/
def Node.iterLeaf (t : Node K Q) (i : Nat) : Node K Q × Option Nat :=
  let u := t.used >>> i
  t.iterLoop 64 u (ctzll u) (i + ctzll u)

/-- `btree_iter_next` の `do … while ((iter->t = iter->t->next))`。 -/
def iterFrom : Nat → Heap K Q → BtreeIter K → Addr → Nat → Heap K Q × BtreeIter K × Bool
  | 0, h, it, _, _ => (h, it, false)
  | fuel + 1, h, it, t, i =>
      let r := (h.get t).iterLeaf i
      let h := h.set t r.1
      match r.2 with
      | some i => (h, ⟨some t, i + 1, r.1.key.get i, some ⟨t, i⟩⟩, true)
      | none =>
          match r.1.next with
          | none => (h, { it with t := none, i := 0, v := none }, false)
          | some t => iterFrom fuel h it t 0

/-- `for (; iter->t->innerp; iter->t = iter->t->val->t, iter->i = 0U);`。 -/
def iterBottom (h : Heap K Q) : Nat → Addr → Nat → Addr × Nat
  | 0, t, i => (t, i)
  | fuel + 1, t, i => if (h.get t).innerp then iterBottom h fuel ((h.get t).kid 0) 0 else (t, i)

/-- `btree_iter_next`。 -/
def btreeIterNext (h : Heap K Q) (it : BtreeIter K) : Heap K Q × BtreeIter K × Bool :=
  match it.t with
  | none => (h, { it with v := none }, false)
  | some t =>
      let p := iterBottom h h.size t it.i
      iterFrom h.size h it p.1 p.2

end Books.Btree
