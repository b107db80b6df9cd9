import Books.Booksnap.Code
import Books.Lib.Peek

/-!
# `booksnap.c` の時間の指定

`--interval`・`--offset`・`--invalidate` の値を読む部分である。値の後には、単位を表す文字列が付く。文字列はバイトの並びで表し、
後には NUL が続く。NUL より先を読む実行は、`Fault` になる。
-/

namespace Books.Booksnap

open Books.Btree Books.Book Books.Xquo Books.Lib

/-- `USECS`。 -/
def usecs : UInt64 := 1000000

/-- `MSECS`。 -/
def msecs : UInt64 := 1000

/-- `sufstrtotv` の終わりの検査。`if (*++str != '\0') return NATV; return r;`。 -/
def finish (str : List UInt8) (p : Int) (r : Tv) : Except Fault Tv := do
  let c ← peek 0 str (p + 1)
  return if c = 0 then r else natv

/-- `sufstrtotv`。単位のナノ秒を返す。 -/
def sufstrtotv (str : List UInt8) : Except Fault Tv := do
  let c ← peek 0 str 0
  if c = 0 then finish str (-1) 0
  else if c = 115 ∨ c = 83 then finish str 0 nsecs
  else if c = 109 ∨ c = 77 then
    let d ← peek 0 str 1
    if d = 0 then finish str 0 (60 * nsecs)
    else if d = 115 ∨ d = 83 then finish str 1 usecs
    else return natv
  else if c = 104 ∨ c = 72 then finish str 0 (60 * 60 * msecs)
  -- 次のバイトを見ずに、その先へ進む。
  else if c = 117 ∨ c = 85 then finish str 1 msecs
  else if c = 110 ∨ c = 78 then finish str 1 1
  else return natv

/-- `mult ?: d`。 -/
def orElse (mult d : Tv) : Tv := if mult = 0 then d else mult

/-- 符号のある数を `LONG_MIN` と `LONG_MAX` の間に抑える。 -/
def clampLong (z : Int) : Int := max (-2 ^ 63) (min z (2 ^ 63 - 1))

/-- `strtol(s, &on, 10)`。値と、読んだバイトの数を返す。 -/
def strtol (s : List UInt8) : Int × Nat :=
  let ws := s.takeWhile isspace
  let r := s.drop ws.length
  let sg := (r.take 1).takeWhile issign
  let ds := (r.drop sg.length).takeWhile isdigit
  if ds.isEmpty then (0, 0)
  else (clampLong (if sg = [45] then -digitsVal ds else digitsVal ds), ws.length + sg.length + ds.length)

/-- `main` の `--interval` を読む部分。読めない値では `none` を返す。 -/
def readInterval (arg : List UInt8) : Except Fault (Option Tv) := do
  let r := strtoul arg
  if r.1 = 0 then return none
  let mult ← sufstrtotv (arg.drop r.2)
  return if mult = natv then none else some (r.1 * orElse mult nsecs)

/-- `main` の `--offset` を、`o` に読む部分。 -/
def readOffset (arg : List UInt8) : Except Fault (Option Int) := do
  let r := strtol arg
  let mult ← sufstrtotv (arg.drop r.2)
  return if r.1 ≠ 0 ∧ mult = natv then none else some ((r.1 * (orElse mult nsecs).toNat).bmod (2 ^ 64))

/-- `main` の `--invalidate` を読む部分。単位がなければ `intv` を単位とする。 -/
def readInvalidate (intv : Tv) (arg : List UInt8) : Except Fault (Option Tv) := do
  let r := strtoul arg
  let x ← sufstrtotv (arg.drop r.2)
  return if x = natv then none else some (r.1 * orElse x intv)

/-- 与えられない引数には、既定の値を使う。 -/
def argOr {α : Type} (d : α) (read : List UInt8 → Except Fault (Option α)) : Option (List UInt8) → Except Fault (Option α)
  | none => return some d
  | some arg => read arg

/-- `main` が引数から時刻の指定を決める部分。 -/
def readConf (interval offset invalidate : Option (List UInt8)) (stamps : Bool) : Except Fault (Option Conf) := do
  let some intv ← argOr nsecs readInterval interval | return none
  let some o ← argOr 0 readOffset offset | return none
  let offs := if stamps then UInt64.ofInt o else canonicalise intv o
  let intv := if stamps then 1 else intv
  let some inva ← argOr 0 (readInvalidate intv) invalidate | return none
  return some ⟨intv, offs, inva, stamps⟩

end Books.Booksnap
