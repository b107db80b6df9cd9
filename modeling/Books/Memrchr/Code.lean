import Books.Lib.Bytes
import Books.Xquo.Code

/-!
# `memrchr.c` の関数

`memrchr` を、語を単位に読むとおりに表す。番地 `base` から始まる `n` バイトのほかを読む実行と、揃っていない語を読む実行は、
`Trap` になる。語の大きさ `L`、バイトの順序、番地は、機械ごとに違う。
-/

namespace Books.Memrchr

open Books.Lib Books.Xquo

/-- 機械と、探す領域の番地。`L` は `sizeof (longword)` である。 -/
structure Machine where
  L : Nat
  order : Endian
  base : Nat
  pos : 0 < L

/-! ## すべてのバイトが同じ語 -/

/-- `for (i = 64; i < sizeof (longword) * 8; i *= 2)` の繰り返し。 -/
def spread {w : Nat} : Nat → Nat → BitVec w → BitVec w
  | 0, _, v => v
  | fuel + 1, i, v => if i < w then spread fuel (i * 2) (v ||| v <<< i) else v

/-- 四つのバイトの語を、`longword` の大きさまで広げる。 -/
def widen (L : Nat) (v : BitVec (8 * L)) : BitVec (8 * L) :=
  if 0xffffffff < (BitVec.allOnes (8 * L)).toNat then
    let v := v ||| v <<< 31 <<< 1
    if 8 < L then spread L 64 v else v
  else v

/-- `repeated_one`。 -/
def repeatedOne (L : Nat) : BitVec (8 * L) := widen L 0x01010101#(8 * L)

/-- `repeated_c`。 -/
def repeatedC (L : Nat) (c : UInt8) : BitVec (8 * L) :=
  let b := c.toBitVec.setWidth (8 * L)
  let v := b ||| b <<< 8
  widen L (v ||| v <<< 16)

example : repeatedC 8 9 = 0x0909090909090909#64 := by decide

/-! ## 三つの繰り返し -/

variable (M : Machine) (line : List UInt8) (n : Nat) (c : UInt8)

/-- 探す領域。 -/
def block : Block := ⟨charAt line, n, M.base, M.order⟩

/-- 初めの繰り返しの結果。見つけた位置か、残りの位置と長さである。 -/
inductive Scan where
  | found (p : Int)
  | rest (p : Int) (m : Nat)

/-- 終わりのバイトを、番地が揃うまで一つずつ調べる。 -/
def alignLoop : Nat → Int → Except Trap Scan
  | 0, p => return .rest p 0
  | m + 1, p =>
      if (M.base + p) % M.L ≠ 0 then do
        let b ← (block M line n).byte (p - 1)
        if b = c then return .found (p - 1) else alignLoop m (p - 1)
      else return .rest p (m + 1)

/-- 語を一つずつ調べる。`c` を含む語で止まり、位置をその語の後に戻す。 -/
def wordLoop : Nat → Int → Nat → Except Trap (Int × Nat)
  | 0, _, _ => .error .spin
  | fuel + 1, p, m =>
      if M.L ≤ m then do
        let v ← (block M line n).word M.L true (p - M.L)
        if zeroBytes (repeatedOne M.L) (v ^^^ repeatedC M.L c) ≠ 0 then return (p - M.L + M.L, m)
        else wordLoop fuel (p - M.L) (m - M.L)
      else return (p, m)

/-- 残りのバイトを一つずつ調べる。 -/
def byteLoop : Nat → Int → Except Trap (Option Int)
  | 0, _ => return none
  | m + 1, p => do
      let b ← (block M line n).byte (p - 1)
      if b = c then return some (p - 1) else byteLoop m (p - 1)

/-- `memrchr (line, c, n)`。見つけた位置を返す。 -/
def memrchr : Except Trap (Option Int) := do
  match ← alignLoop M line n c n n with
  | .found p => return some p
  | .rest p m => do
      let r ← wordLoop M line n c (m + 1) p m
      byteLoop M line n c r.2 r.1

end Books.Memrchr
