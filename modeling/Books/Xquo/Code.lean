import Books.Book.Code
import Books.Lib.Buf

/-!
# `xquo.c` の関数

行はバイトの並びで表す。行の後には NUL が続く。十進小数と文字列の変換 `strtod64` と `d64tostr` は、`Codec` で与える。
-/

namespace Books.Xquo

open Books.Btree Books.Book

/-- 行の `i` 番目のバイト。終わりより後は NUL とする。 -/
def charAt (line : List UInt8) (i : Nat) : UInt8 := line.getD i 0

/-- `'\t'`。 -/
def tab : UInt8 := 9

/-- `'\n'`。 -/
def newline : UInt8 := 10

/-- `memrchr(line, c, n)`。見つけた位置を返す。 -/
def memrchr (line : List UInt8) (c : UInt8) : Nat → Option Nat
  | 0 => none
  | n + 1 => if charAt line n = c then some n else memrchr line c n

/-! ## 時刻 -/

def isspace (c : UInt8) : Bool := decide (c = 32) || (decide (9 ≤ c) && decide (c ≤ 13))

def isdigit (c : UInt8) : Bool := decide (48 ≤ c) && decide (c ≤ 57)

def issign (c : UInt8) : Bool := decide (c = 43) || decide (c = 45)

/-- 数字の並びの値。 -/
def digitsVal (ds : List UInt8) : Nat := ds.foldl (fun n c => 10 * n + (c.toNat - 48)) 0

/-- `strtoul(s, &on, 10)`。値と、読んだバイトの数を返す。桁あふれでは `ULONG_MAX` を返す。 -/
def strtoul (s : List UInt8) : UInt64 × Nat :=
  let ws := s.takeWhile isspace
  let r := s.drop ws.length
  let sg := (r.take 1).takeWhile issign
  let ds := (r.drop sg.length).takeWhile isdigit
  if ds.isEmpty then (0, 0)
  else
    let n := digitsVal ds
    let u := if 2 ^ 64 ≤ n then 0xffffffffffffffff else if sg = [45] then 0 - UInt64.ofNat n else UInt64.ofNat n
    (u, ws.length + sg.length + ds.length)

/-- `NSECS`。 -/
def nsecs : UInt64 := 1000000000

/-- 小数部の桁数に応じて `x *= MSECS` を重ねた係数。 -/
def fracScale (len : Nat) : UInt64 :=
  if len = 9 then 1 else if len = 6 then 1000 else if len = 3 then 1000000 else 1000000000

/-- `strtotv(ln, NULL)`。 -/
def strtotv (ln : List UInt8) : Tv :=
  let r := strtoul ln
  if r.1 = 0 then natv
  else if charAt ln r.2 = 46 then
    let x := strtoul (ln.drop (r.2 + 1))
    if 9 < x.2 then natv
    else if x.2 % 3 ≠ 0 then natv
    else r.1 * nsecs + x.1 * fracScale x.2
  else r.1 * nsecs

/-- `for (; ts > 0U; ts /= 10U, i++) buf[i] = (ts % 10U) ^ '0';`。書き終えた位置を返す。64 ビットの数は二十桁までである。 -/
def secsLoop : Nat → Lib.Buf UInt8 → Nat → UInt64 → Lib.Buf UInt8 × Nat
  | 0, b, i, _ => (b, i)
  | fuel + 1, b, i, ts =>
      if 0 < ts then secsLoop fuel (b.put i ((ts % 10).toUInt8 ^^^ 48)) (i + 1) (ts / 10) else (b, i)

/-- `for (size_t j = 9U; j > 0U; tn /= 10U, j--) buf[i + j] = (tn % 10U) ^ '0';`。 -/
def nanosLoop (i : Nat) : Nat → UInt64 → Lib.Buf UInt8 → Lib.Buf UInt8
  | 0, _, b => b
  | j + 1, tn, b => nanosLoop i j (tn / 10) (b.put (i + (j + 1)) ((tn % 10).toUInt8 ^^^ 48))

/-- `tvtostr(buf, bsz, t)`。 -/
def tvtostr (buf : Lib.Buf UInt8) (bsz : Nat) (t : Tv) : Lib.Buf UInt8 × Nat :=
  let ts := t / nsecs
  let tn := t % nsecs
  if bsz < 19 then (buf, 0)
  else
    let r := secsLoop 20 (buf.put 0 48) (if ts = 0 then 1 else 0) ts
    let i := r.2
    (nanosLoop i 9 tn ((r.1.flip 0 (i - 1)).put i 46), i + 10)

/-! ## 気配の行 -/

/-- 気配値と数量の文字列への変換。`strtopx` は、値と、読んだバイトの数を返す。 -/
structure Codec (K Q : Type) where
  strtopx : List UInt8 → K × Nat
  strtoqx : List UInt8 → Q
  pxtostr : Option K → List UInt8
  qxtostr : Q → List UInt8

/-- `xquo_t`。`ins` は行の中の位置で表す。 -/
structure Xquo (K Q : Type) where
  q : BookQuo K Q
  ins : Nat
  inz : Nat
deriving DecidableEq

variable {K Q : Type} [Zero K] [Zero Q]

/-- `NOT_A_XQUO`。 -/
def notAXquo : Xquo K Q := ⟨notAQuo, 0, 0⟩

/-- `f ^= '0'; f & -(f < 4U)`。 -/
def lvlOfByte (c : UInt8) : BookLvl :=
  let f := c ^^^ 48
  if f = 1 then .lvl1 else if f = 2 then .lvl2 else if f = 3 then .lvl3 else .lvl0

/-- `book_side_t` の値 `x`。 -/
def sideOfCode (x : UInt8) : BookSide :=
  if x = 0 then .unk
  else if x = 1 then .ask
  else if x = 2 then .bid
  else if x = 3 then .clr
  else if x = 4 then .del
  else .other (Fin.ofNat 11 (x.toNat - 5))

/-- 側を表すバイト。C の `s ^ '@' < NBOOK_SIDES` は `s ^ ('@' < NBOOK_SIDES)` と読まれる。 -/
def sideOfByte (c : UInt8) : BookSide :=
  let s := c &&& 0xdf
  let lt : UInt8 := if (64 : UInt8) < 5 then 1 else 0
  let msk : UInt8 := if decide (s ^^^ lt ≠ 0) || decide (s = 84) then 0xff else 0
  sideOfCode (s &&& msk &&& 0xf)

/-- `for (; lp > line && lp[-1] != '\t'; lp--);`。 -/
def rewind (line : List UInt8) : Nat → Nat
  | 0 => 0
  | lp + 1 => if charAt line lp = tab then lp + 1 else rewind line lp

/-- 銘柄の列の位置と長さ。`lp` は側の列の初めである。 -/
def instrOf (line : List UInt8) (lp : Nat) : Nat × Nat :=
  match lp with
  | 0 => (0, 0)
  | lp + 1 =>
      match memrchr line tab lp with
      | some j => (j + 1, lp - (j + 1))
      | none => (0, lp)

/-- `read_xquo`。行の外のバイトを読む場合は `none` を返す。 -/
def readXquo (C : Codec K Q) (line : List UInt8) : Option (Xquo K Q) :=
  let t := strtotv line
  match memrchr line tab line.length with
  | none => some notAXquo
  | some l₁ =>
      let q := C.strtoqx (line.drop (l₁ + 1))
      match memrchr line tab l₁ with
      | none => some notAXquo
      | some 0 => none
      | some (l₂ + 1) =>
          let r := C.strtopx (line.drop (l₂ + 2))
          let p := if r.2 = 0 then none else some r.1
          let f := lvlOfByte (charAt line l₂)
          let lp := rewind line l₂
          let s := sideOfByte (charAt line lp)
          if s = .unk then some notAXquo
          else some ⟨⟨s, f, p, q, t⟩, (instrOf line lp).1, (instrOf line lp).2⟩

/-- 行 `line` の銘柄。 -/
def insOf (line : List UInt8) (x : Xquo K Q) : List UInt8 := (line.drop x.ins).take x.inz

end Books.Xquo
