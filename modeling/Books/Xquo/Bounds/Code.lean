import Books.Dfp754.Code
import Books.Lib.Peek
import Books.Xquo.Code

/-!
# 位置で読む `read_xquo`

行のバイトを、ポインタの位置で一つずつ読む。行の後の NUL より先や、行の初めより前を読む実行は `Fault` になる。丸めの繰り返しが
上限 `fuel` で終わらない実行は `spin` になる。十進小数の形 `form` は、`bcd64tobid` か `bcd64todpd` である。
-/

namespace Books.Xquo

open Books.Btree Books.Book Books.Lib Books.Dfp754

variable (line : List UInt8)

/-- 走査の上限。NUL で止まる走査は、これだけ回れば終わる。 -/
def scanFuel : Nat := line.length + 1

/-- 行の走査。 -/
def scanAt (f : UInt8 → Bool) (p : Int) : Except Fault Int := skipWhile 0 line f (scanFuel line) p

/-! ## 時刻 -/

/-- 数字の並びの値と、その後の位置。 -/
def digitsAt : Nat → Int → Nat → Except Fault (Nat × Int)
  | 0, _, _ => .error .spin
  | fuel + 1, p, n => do
      let c ← peek 0 line p
      if isdigit c then digitsAt fuel (p + 1) (10 * n + (c.toNat - 48)) else return (n, p)

/-- `strtoul(line + p, &on, 10)`。値と `on` を返す。 -/
def strtoulAt (p : Int) : Except Fault (UInt64 × Int) := do
  let ws ← scanAt line isspace p
  let c ← peek 0 line ws
  let d := if issign c then ws + 1 else ws
  let r ← digitsAt line (scanFuel line) d 0
  if r.2 = d then return (0, p)
  else
    let u := if 2 ^ 64 ≤ r.1 then 0xffffffffffffffff else if c = 45 then 0 - UInt64.ofNat r.1 else UInt64.ofNat r.1
    return (u, r.2)

/-- `strtotv(line, NULL)`。 -/
def strtotvAt : Except Fault Tv := do
  let r ← strtoulAt line 0
  if r.1 = 0 then return natv
  let c ← peek 0 line r.2
  if c = 46 then
    let x ← strtoulAt line (r.2 + 1)
    let len := (x.2 - (r.2 + 1)).toNat
    return if 9 < len then natv else if len % 3 ≠ 0 then natv else r.1 * nsecs + x.1 * fracScale len
  else return r.1 * nsecs

/-! ## 十進小数 -/

/-- 読みかけの状態。`sp` は位置である。 -/
structure RdAt where
  sp : Int
  mant : BitVec 64
  expo : Int
  nd : Nat
  roff : Int

/-- 数字を `nd` 個まで `mant` に詰める。`nd` が尽きたことは、`*sp` を読んだ後で調べる。 -/
def pickAt (de : Int) : Nat → Int → BitVec 64 → Int → Except Fault RdAt
  | 0, sp, mant, expo => do
      let _ ← peek 0 line sp
      return ⟨sp, mant, expo, 0, 0⟩
  | nd + 1, sp, mant, expo => do
      let c ← peek 0 line sp
      if Dfp754.isdigit c then pickAt de nd (sp + 1) (mant <<< 4 ||| U c) (expo + de) else return ⟨sp, mant, expo, nd + 1, 0⟩

/-- `*sp >= '5' && *sp <= '9'`。 -/
def offAt (sp : Int) : Except Fault Int := do
  let c ← peek 0 line sp
  return if decide (53 ≤ c) && decide (c ≤ 57) then 1 else 0

/-- 小数点の左側。 -/
def readIntAt (sp : Int) : Except Fault RdAt := do
  let r ← pickAt line 0 15 sp 0 0
  let o ← offAt line r.sp
  let e ← scanAt line Dfp754.isdigit r.sp
  return { r with sp := e, expo := r.expo + (e - r.sp), roff := r.roff + o }

/-- 小数点の右側。 -/
def readFracAt (r : RdAt) : Except Fault RdAt := do
  let c ← peek 0 line r.sp
  if c = 46 ∧ 0 < r.nd then
    let x ← pickAt line (-1) r.nd (r.sp + 1) r.mant r.expo
    let o ← offAt line x.sp
    let e ← scanAt line Dfp754.isdigit x.sp
    return { x with sp := e, roff := r.roff + o }
  else if c = 46 then
    let o ← offAt line r.sp
    let e ← scanAt line Dfp754.isdigit (r.sp + 1)
    return { r with sp := e, roff := r.roff + o }
  else return r

/-- `strtobcd64(line + src, &on)`。値と `on` を返す。 -/
def strtobcd64At (fuel : Nat) (src : Int) : Except Fault (Bcd 64 × Int) := do
  let c ← peek 0 line src
  let sign := if c = 45 then 1 else 0
  let sp ← scanAt line (fun c => decide (c = 48)) (if c = 45 then src + 1 else if c = 43 then src + 1 else src)
  let r ← readIntAt line sp
  let r ← readFracAt line r
  match if r.roff = 0 then some r.mant else roundBcd64 fuel r.mant (if sign = 0 then 1 else -1) with
  | some m => return (⟨m, r.expo, sign⟩, r.sp)
  | none => .error .spin

/-! ## 気配の行 -/

/-- `memrchr(line, c, n)`。語ごとに読む部分も、同じ範囲のバイトを読む。 -/
def memrchrAt (c : UInt8) : Nat → Except Fault (Option Int)
  | 0 => return none
  | n + 1 => do
      let b ← peek 0 line n
      if b = c then return some n else memrchrAt c n

/-- `for (; lp > line && lp[-1] != '\t'; lp--);`。 -/
def rewindAt : Nat → Except Fault Int
  | 0 => return 0
  | lp + 1 => do
      let c ← peek 0 line lp
      if c = tab then return (lp + 1 : Nat) else rewindAt lp

/-- `xquo_t`。`ins` は行の中の位置で、`inz` はポインタの差である。 -/
structure XquoAt where
  q : BookQuo (BitVec 64) (BitVec 64)
  ins : Int
  inz : Int
deriving DecidableEq

/-- 銘柄の列。 -/
def instrAt (lp : Int) : Except Fault (Int × Int) := do
  if 0 < lp then
    let e := lp - 1
    let j ← memrchrAt line tab e.toNat
    let ins := j.elim 0 (· + 1)
    return (ins, e - ins)
  else return (0, 0)

/-- `read_xquo`。`NOT_A_XQUO` には `none` を返す。 -/
def readXquoAt (form : Bcd 64 → BitVec 64) (fuel : Nat) : Except Fault (Option XquoAt) := do
  let t ← strtotvAt line
  let some l₁ ← memrchrAt line tab line.length | return none
  let q ← strtobcd64At line fuel (l₁ + 1)
  let some l₂ ← memrchrAt line tab l₁.toNat | return none
  let r ← strtobcd64At line fuel (l₂ + 1)
  let p := if r.2 ≤ l₂ + 1 then none else some (form r.1)
  let f ← peek 0 line (l₂ - 1)
  let lp ← rewindAt line (l₂ - 1).toNat
  let c ← peek 0 line lp
  if sideOfByte c = .unk then return none
  let i ← instrAt line lp
  return some ⟨⟨sideOfByte c, lvlOfByte f, p, form q.1, t⟩, i.1, i.2⟩

end Books.Xquo
