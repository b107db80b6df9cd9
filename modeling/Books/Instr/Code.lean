import Mathlib.Data.List.Basic

/-!
# 銘柄の振り分け

`booksnap.c` と `book2book.c` の `main` が共に行う、銘柄の指定の読み取りと、行の板の決定を表す。板の型 `B` と、板を
作る関数 `mk` は変数にする。`mk` は、板の見出しを受け取る。
-/

namespace Books.Instr

variable {B : Type} (hash : List UInt8 → UInt32) (mk : Option (List UInt8) → B)

/-- `main` の板の表。`conx` の長さが `nbook` である。`book` は、すべてを受ける板があるとき、`conx` より一つ長い。
`zbook` は、銘柄の指定がなく、板を増やすことを表す。 -/
structure Table (B : Type) where
  conx : List UInt32
  book : List B
  nctch : Bool
  zbook : Bool

/-- すべての銘柄を受ける指定。空の文字列か `*` である。 -/
def catchAll (name : List UInt8) : Bool := name.isEmpty || decide (name = [42])

/-- `"ALL"`。 -/
def allName : List UInt8 := [65, 76, 76]

/-- 銘柄の指定から作る初めの表。 -/
def initTable (instr : List (List UInt8)) : Table B :=
  let names := instr.filter fun n => !catchAll n
  if instr.isEmpty then ⟨[], [], false, true⟩
  else if names.length < instr.length then
    ⟨names.map hash, names.map (fun n => mk (some n)) ++ [mk (if names.isEmpty then none else some allName)], true, false⟩
  else ⟨names.map hash, names.map (fun n => mk (some n)), false, false⟩

/-- 行の板。`skip` は、行を読み飛ばすことを表す。 -/
inductive Route where
  | skip
  | use (k : Nat)
deriving DecidableEq

/-- 銘柄 `ins` の行の板の番号 `k` を決める。`conx` が空で、板を増やすこともないとき、`k` は代入されない。すべてを受ける
板があれば、代入されない `k` を使うので、`none` を返す。 -/
def route (st : Table B) (ins : List UInt8) : Option (Route × Table B) :=
  if st.conx.isEmpty && !st.zbook then
    if st.nctch then none else some (.skip, st)
  else if st.conx.idxOf (hash ins) < st.conx.length then some (.use (st.conx.idxOf (hash ins)), st)
  else if st.nctch then some (.use st.conx.length, st)
  else if !st.zbook then some (.skip, st)
  else some (.use st.conx.length, { st with conx := st.conx ++ [hash ins], book := st.book ++ [mk (some ins)] })

end Books.Instr
