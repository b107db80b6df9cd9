import Books.Instr.Code
import Books.Xquo.Code
import Mathlib.Data.Set.Basic

/-!
# 行の板の決まり方

銘柄の指定 `instr` と、これまでに受け付けた行の銘柄の列 `seen` から、行を加えるべき板を定める。銘柄は `key` で比べる。`key`
はハッシュか恒等写像である。
-/

namespace Books.Instr

open Books.Book Books.Xquo

variable {α B : Type} [DecidableEq α] (key : List UInt8 → α)

/-- 板の銘柄。指定がなければ、行の銘柄を初めて現れた順に並べる。 -/
def keys (instr seen : List (List UInt8)) : List α :=
  if instr = [] then (seen.map key).eraseDups else (instr.filter fun n => !catchAll n).map key

/-- 銘柄 `ins` の行を加えるべき板。一致する初めの板であり、なければすべてを受ける板である。どちらもなければ、行は読み飛ばす。 -/
def owner (instr seen : List (List UInt8)) (ins : List UInt8) : Option Nat :=
  if key ins ∈ keys key instr seen then some ((keys key instr seen).idxOf (key ins))
  else if instr.any catchAll then some (keys key instr seen).length
  else none

/-- 板の番号が代入され、板 `o` を指す。番号は `nbook + nctch` より小さい。 -/
def Designates (o : Option Nat) (y : Option (Route × Table B)) : Prop :=
  match o with
  | none => ∃ tab, y = some (.skip, tab)
  | some k => ∃ tab, y = some (.use k, tab) ∧ k < tab.conx.length + tab.nctch.toNat

/-- 銘柄の指定と行に現れる銘柄。 -/
def names (instr seen : List (List UInt8)) : Set (List UInt8) := {n | (n ∈ instr ∧ catchAll n = false) ∨ n ∈ seen}

/-! ## 受け付ける行 -/

section Lines
variable {K Q : Type} [Zero K] [Zero Q] (C : Codec K Q) (acc : Xquo K Q → Prop) [DecidablePred acc]

/-- 受け付ける行の銘柄を順に並べたもの。 -/
def insList (lines : List (List UInt8)) : List (List UInt8) :=
  lines.filterMap fun l => (readXquo C l).bind fun x => if acc x then some (insOf l x) else none

/-- 板 `k` の銘柄の行だけから読む気配。`all` は、受け付けるすべての行の銘柄である。 -/
def ownQuos (instr all : List (List UInt8)) (k : Nat) (lines : List (List UInt8)) : List (BookQuo K Q) :=
  lines.filterMap fun l => (readXquo C l).bind fun x =>
    if acc x ∧ owner id instr all (insOf l x) = some k then some x.q else none

/-- 行の列のうち、読めるものが続く初めの部分。 -/
def readable (lines : List (List UInt8)) : List (List UInt8) := lines.takeWhile fun l => (readXquo C l).isSome

end Lines

end Books.Instr
