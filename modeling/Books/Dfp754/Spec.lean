import Books.Lib.Packed
import Books.Dfp754.Code
import Mathlib.Algebra.Order.Field.Rat
import Mathlib.Algebra.Order.Field.Power
import Mathlib.Algebra.Order.Ring.Abs
import Mathlib.Data.List.DropRight

/-!
# 十進小数の符号と文字列

二つの符号（二進の仮数を持つ形と、三桁ずつ詰めた形）が表す十進小数と、整った文字列とを、コードに依らずに定める。
-/

namespace Books.Dfp754

open Books.Lib

variable {w : Nat}

/-- 十進小数。値は `coef * 10 ^ expo` で、`neg` は負号である。 -/
structure Dec where
  neg : Bool
  coef : Nat
  expo : Int
deriving DecidableEq

/-! ## 符号 -/

/-- 二進の仮数を持つ形が表す十進小数。仮数の欄は `p` ビットである。 -/
def bidDec (p : Nat) (bias : Int) (x : BitVec w) : Dec :=
  if fld x (w - 3) 2 = 3 then ⟨x.msb, 2 ^ p + fld x 0 (p - 2), fld x (p - 2) (w - 1 - p) - bias⟩
  else ⟨x.msb, fld x 0 p, fld x p (w - 1 - p) - bias⟩

/-- 十ビットに詰めた三桁の値。 -/
def decletVal (n : Nat) : Nat :=
  let pq := n / 256 % 4
  let r := n / 128 % 2
  let st := n / 32 % 4
  let u := n / 16 % 2
  let v := n / 8 % 2
  let wx := n / 2 % 4
  let y := n % 2
  if v = 0 then 100 * (2 * pq + r) + 10 * (2 * st + u) + (2 * wx + y)
  else if wx = 0 then 100 * (2 * pq + r) + 10 * (2 * st + u) + (8 + y)
  else if wx = 1 then 100 * (2 * pq + r) + 10 * (8 + u) + (2 * st + y)
  else if wx = 2 then 100 * (8 + r) + 10 * (2 * st + u) + (2 * pq + y)
  else if st = 0 then 100 * (8 + r) + 10 * (8 + u) + (2 * pq + y)
  else if st = 1 then 100 * (8 + r) + 10 * (2 * pq + u) + (8 + y)
  else if st = 2 then 100 * (2 * pq + r) + 10 * (8 + u) + (8 + y)
  else 100 * (8 + r) + 10 * (8 + u) + (8 + y)

/-- 組合せの欄が持つ、先頭の桁。 -/
def leadOf (comb : Nat) : Nat := if comb / 8 = 3 then 8 + comb % 2 else comb % 8

/-- 組合せの欄が持つ、指数の上の二ビット。 -/
def topOf (comb : Nat) : Nat := if comb / 8 = 3 then comb / 2 % 4 else comb / 8

/-- 三桁ずつ詰めた形が表す十進小数。三桁の組は `k` 個、指数の続きは `c` ビットである。 -/
def dpdDec (k c : Nat) (bias : Int) (x : BitVec w) : Dec :=
  let comb := fld x (10 * k + c) 5
  ⟨x.msb, leadOf comb * 1000 ^ k + recode decletVal 1024 1000 k x.toNat,
    (topOf comb * 2 ^ c + fld x (10 * k) c : Nat) - bias⟩

/-! ## 読み戻し -/

/-- 符号の値。 -/
def IsSign (s : Int) : Prop := s = 0 ∨ s = 1 ∨ s = -1

/-- 三桁の組より上に残る、仮数の先頭の桁。 -/
def leadDigit (k : Nat) (b : Bcd w) : Nat := b.mant.toNat / 4096 ^ k

/-- 指数の欄に入る数。 -/
def biased (bias : Int) (b : Bcd w) : Nat := (b.expo + bias).toNat

/-- 三桁ずつ詰めた語から、元の仮数・指数・符号が読み戻される。 -/
def ReadsBack64 (b : Bcd 64) : Prop :=
  bcdDpd64 (bcd64todpd b) = b.mant ∧ quantexpdpd64 (bcd64todpd b) = b.expo ∧
    (signBits (bcd64todpd b) = 0 ↔ b.sign = 0)

def ReadsBack32 (b : Bcd 32) : Prop :=
  bcdDpd32 (bcd32todpd b) = b.mant ∧ quantexpdpd32 (bcd32todpd b) = b.expo ∧
    (signBits (bcd32todpd b) = 0 ↔ b.sign = 0)

instance (b : Bcd 64) : Decidable (ReadsBack64 b) := inferInstanceAs (Decidable (_ ∧ _))

instance (b : Bcd 32) : Decidable (ReadsBack32 b) := inferInstanceAs (Decidable (_ ∧ _))

/-- 符号・先頭の桁・指数の欄が、どれも空である。 -/
def BlankHead (k : Nat) (bias : Int) (b : Bcd w) : Prop := b.sign = 0 ∧ leadDigit k b = 0 ∧ biased bias b = 0

/-! ## 桁を揃える計算 -/

/-- 絶対値。 -/
def Dec.mag (d : Dec) : ℚ := d.coef * 10 ^ d.expo

/-- 有限の数。組合せの欄の上の四ビットは、無限大と NaN では、どれも立っている。 -/
def BidFinite (x : BitVec w) : Prop := fld x (w - 5) 4 ≠ 15

instance (x : BitVec w) : Decidable (BidFinite x) := inferInstanceAs (Decidable (_ ≠ _))

/-- `y` は、`x` を `r` の指数に揃えた数である。指数を上げるときの誤差は一番下の桁の半分以下であり、下げるときは値を変えず、
`nd` 桁に収まる限り `r` の指数に近づける。 -/
structure Quantised (nd : Nat) (x r y : Dec) : Prop where
  neg : y.neg = x.neg
  shorten : x.expo < r.expo → y.expo = r.expo ∧ |y.mag - x.mag| ≤ 1 / 2 * 10 ^ r.expo
  extend : r.expo ≤ x.expo → y.mag = x.mag ∧
    IsLeast {e | r.expo ≤ e ∧ e ≤ x.expo ∧ (e = x.expo ∨ x.coef * 10 ^ (x.expo - e).toNat < 10 ^ nd)} y.expo

/-- 落とす部分が半分以上であるか、`44…4` 以下である。 -/
def RoundsOnce (x r : Dec) : Prop :=
  10 ^ (r.expo - x.expo).toNat ≤ 2 * (x.coef % 10 ^ (r.expo - x.expo).toNat) ∨
    9 * (x.coef % 10 ^ (r.expo - x.expo).toNat) ≤ 4 * (10 ^ (r.expo - x.expo).toNat - 1)

instance (x r : Dec) : Decidable (RoundsOnce x r) := inferInstanceAs (Decidable (_ ∨ _))

/-- `quantexpdpd64` が読む指数。先頭の桁が 8 以上なら、指数の上の一ビットを落とし、先頭の桁の下のビットを混ぜる。 -/
def dpdExpo (d : Dec) : Int :=
  if 8 * 10 ^ 15 ≤ d.coef then
    (256 * ((d.expo + 398).toNat / 256 % 2) + 128 * max (d.coef / 10 ^ 15 % 2) ((d.expo + 398).toNat % 256 / 128) +
      (d.expo + 398).toNat % 128 : Nat) - 398
  else d.expo

/-- 二つの形で同じに揃う条件。仮数が 15 桁に収まるときは、揃える指数が共に正しく読まれるか、共に届かない所にあることであり、
収まらないときは、どちらの仮数も零になることである。 -/
def QuantiseAlike (x r : Dec) : Prop :=
  x.coef < 10 ^ 15 ∧ (dpdExpo r = r.expo ∨ max r.expo (dpdExpo r) ≤ x.expo ∧
      10 ^ 14 ≤ x.coef * 10 ^ (x.expo - max r.expo (dpdExpo r)).toNat) ∨
    10 ^ 15 ≤ x.coef ∧ x.expo < r.expo ∧ 9 * x.coef ≤ 4 * (10 ^ (r.expo - x.expo).toNat - 1) ∧ dpdExpo r = r.expo ∧
      (x.coef % 10 ^ 15 = 0 ∨ dpdExpo x ≤ r.expo ∧
        9 * (x.coef % 10 ^ 15) ≤ 4 * (10 ^ (r.expo - dpdExpo x).toNat - 1))

instance (x r : Dec) : Decidable (QuantiseAlike x r) := inferInstanceAs (Decidable (_ ∨ _))

/-! ## 文字列 -/

/-- 符号、整数部 `ip`、小数部 `fp` からなる文字列。 -/
def decText (neg : Bool) (ip fp : List UInt8) : List UInt8 :=
  (if neg then [45] else []) ++ ip ++ if fp = [] then [] else 46 :: fp

/-- 整った文字列。桁の数は、ただ一つの `0` の整数部を除いて `nd` 以下である。 -/
structure Canonical (nd : Nat) (neg : Bool) (ip fp : List UInt8) : Prop where
  ip_ne : ip ≠ []
  ip_digit : ∀ c ∈ ip, isdigit c = true
  fp_digit : ∀ c ∈ fp, isdigit c = true
  lead : ip = [48] ∨ ip.headD 0 ≠ 48
  len : (if ip = [48] then 0 else ip.length) + fp.length ≤ nd
  nonzero : neg = true → ∃ c ∈ ip ++ fp, c ≠ 48

/-- 符号の後の、先頭の `0` を除いた整数部の数字。 -/
def intDigits (src : List UInt8) : List UInt8 := (digitsOf src).takeWhile isdigit

/-- 小数点の後の数字。 -/
def fracDigits (src : List UInt8) : List UInt8 :=
  let sp := (digitsOf src).dropWhile isdigit
  if sp.headD 0 = 46 then sp.tail.takeWhile isdigit else []

/-- 仮数に残る数字。 -/
def kept (nd : Nat) (src : List UInt8) : List UInt8 :=
  (intDigits src).take nd ++ (fracDigits src).take (nd - (intDigits src).length)

/-- 仮数から溢れて、丸めに使われる数字。 -/
def cut (nd : Nat) (src : List UInt8) : List UInt8 :=
  if nd ≤ (intDigits src).length then (intDigits src).drop nd
  else (fracDigits src).drop (nd - (intDigits src).length)

/-- 残した数字の指数。 -/
def textExpo (nd : Nat) (src : List UInt8) : Int :=
  ((intDigits src).length - nd : Nat) - ((fracDigits src).take (nd - (intDigits src).length)).length

/-- 読み残し。 -/
def textRest (src : List UInt8) : List UInt8 :=
  let sp := (digitsOf src).dropWhile isdigit
  if sp.headD 0 = 46 then sp.tail.dropWhile isdigit else sp

/-- 並びにある文字だけを調べる。 -/
instance decidableDigits (ds : List UInt8) (p : UInt8 → Prop) [DecidablePred p] : Decidable (∀ c ∈ ds, p c) := List.decidableBAll p ds

/-- 溢れた数字の初めが `5` 以上である。 -/
def RoundsUp (nd : Nat) (src : List UInt8) : Prop := 53 ≤ (cut nd src).headD 0

instance (nd : Nat) (src : List UInt8) : Decidable (RoundsUp nd src) := inferInstanceAs (Decidable (_ ≤ _))

/-- 零の仮数を、さらに減らす丸めになる。 -/
def Stuck (nd : Nat) (src : List UInt8) : Prop := RoundsUp nd src ∧ src.headD 0 = 45 ∧ ∀ c ∈ kept nd src, c = 48

instance (nd : Nat) (src : List UInt8) : Decidable (Stuck nd src) := inferInstanceAs (Decidable (_ ∧ _))

/-- 繰り上げが、仮数の一番上の桁から溢れる。 -/
def Spills (nd : Nat) (src : List UInt8) : Prop := RoundsUp nd src ∧ src.headD 0 ≠ 45 ∧ ∀ c ∈ kept nd src, c = 57

instance (nd : Nat) (src : List UInt8) : Decidable (Spills nd src) := inferInstanceAs (Decidable (_ ∧ _))

/-- 仮数の桁の数が `digits` の十進小数を、指数なしで書く文字の数。整数部は、少なくとも一桁である。 -/
def plainLen (neg : Bool) (digits : Nat) (expo : Int) : Nat :=
  (-expo).toNat + (if expo < 0 then 1 else 0) + expo.toNat + max 1 (digits - (-expo).toNat) + (if neg then 1 else 0)

/-- `d64tostr` が書く文字の数。仮数は下の 16 桁を書き、零には符号も指数も付けない。 -/
def textLen (x : BitVec 64) : Nat :=
  if isnand64 x then 3
  else if isinfd64 x then 3 + x.msb.toNat
  else
    let d := bidDec 53 398 x
    plainLen (d.neg && decide (d.coef ≠ 0)) (Nat.digits 10 (d.coef % 10 ^ 16)).length (if x = 0 then 0 else d.expo)

/-! ## 読み取りの性質 -/

/-- 十分に多く回れば、`a` を返す。 -/
def Returns {α : Type} (f : Nat → Option α) (a : α) : Prop := ∃ n, ∀ fuel, n ≤ fuel → f fuel = some a

/-- 繰り返しが終わる。 -/
def Terminates {α : Type} (f : Nat → Option α) : Prop := ∃ a, Returns f a

/-- 二つの形で読んでも、同じ十進小数を得る。仮数は 15 桁に収まる。 -/
def ParsesAlike64 (src : List UInt8) : Prop :=
  ∃ b x y rest, Returns (fun fuel => strtobcd64 fuel src) (b, rest) ∧ Returns (fun fuel => strtobid64 fuel src) (x, rest) ∧
    Returns (fun fuel => strtodpd64 fuel src) (y, rest) ∧ b.mant.toNat < 16 ^ 15 ∧ bidDec 53 398 x = dpdDec 5 8 398 y

def ParsesAlike32 (src : List UInt8) : Prop :=
  ∃ b x y rest, Returns (fun fuel => strtobcd32 fuel src) (b, rest) ∧ Returns (fun fuel => strtobid32 fuel src) (x, rest) ∧
    Returns (fun fuel => strtodpd32 fuel src) (y, rest) ∧ b.mant.toNat < 16 ^ 7 ∧ bidDec 23 101 x = dpdDec 2 6 101 y

/-- 負号は、仮数と指数を変えない。 -/
def SignSymmetric (strto : Nat → List UInt8 → Option (Bcd w × List UInt8)) (src : List UInt8) : Prop :=
  ∃ m e rest, Returns (fun fuel => strto fuel src) (⟨m, e, 0⟩, rest) ∧
    Returns (fun fuel => strto fuel (45 :: src)) (⟨m, e, 1⟩, rest)

/-- 符号のない文字列。小数点があれば、`fp` は小数部である。 -/
def plainText (ip : List UInt8) (fp : Option (List UInt8)) : List UInt8 := ip ++ fp.elim [] fun ds => 46 :: ds

/-- 数字の値。 -/
def digitOf (c : UInt8) : Nat := (c - 48).toNat

/-- 数字の並びを、基数 `b` で読んだ値。 -/
def val (b : Nat) (ds : List UInt8) : Nat := Nat.ofDigits b (ds.reverse.map digitOf)

/-- 末尾の 9 を除いた数字。 -/
def unnined (ds : List UInt8) : List UInt8 := ds.rdropWhile fun c => decide (c = 57)

/-- 符号のない文字列の、正確な値。 -/
def textVal (ip : List UInt8) (fp : Option (List UInt8)) : ℚ :=
  val 10 (ip ++ fp.getD []) / 10 ^ (fp.getD []).length

/-- 詰めた十進の値。 -/
def Bcd.value (b : Bcd w) : ℚ := recode id 16 10 (w / 4) b.mant.toNat * 10 ^ b.expo

/-- 文字列を読み切り、誤差は一番下の桁の半分以下である。先頭の `0` の後の数字が `nd` 個以下ならば、誤差はない。 -/
def CorrectlyRounded (strto : Nat → List UInt8 → Option (Bcd w × List UInt8)) (nd : Nat) (ip : List UInt8)
    (fp : Option (List UInt8)) : Prop :=
  ∃ b : Bcd w, Returns (fun fuel => strto fuel (plainText ip fp)) (b, []) ∧ Digits (· < 10) 16 (w / 4) b.mant.toNat ∧
    |b.value - textVal ip fp| ≤ 1 / 2 * 10 ^ b.expo ∧
    ((ip.dropWhile fun c => decide (c = 48)).length + (fp.getD []).length ≤ nd → b.value = textVal ip fp)

end Books.Dfp754
