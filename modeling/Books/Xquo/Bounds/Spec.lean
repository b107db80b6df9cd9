import Mathlib.Data.BitVec
import Books.Dfp754.Spec
import Books.Xquo.Bounds.Code

/-!
# 行の範囲

`read_xquo` が行の外を読まないことと、返す銘柄の列が行の中にあることを定める。
-/

namespace Books.Xquo

open Books.Lib Books.Dfp754

/-- 銘柄の列は、長さ `llen` の行の中にある。 -/
def XquoAt.Within (x : XquoAt) (llen : Nat) : Prop :=
  0 ≤ x.ins ∧ x.ins ≤ llen ∧ 0 ≤ x.inz ∧ x.ins + x.inz ≤ llen

/-- 行と NUL の他を読まず、受け入れた気配の銘柄は行の中にある。 -/
def ReadsInside (form : Bcd 64 → BitVec 64) (line : List UInt8) : Prop :=
  ∀ fuel, Inside (readXquoAt line form fuel) ∧ ∀ x, readXquoAt line form fuel = .ok (some x) → x.Within line.length

/-- タブで始まり、他にタブが一つだけある行で、数量 `X` も気配値 `P` も読み終えられるもの。 -/
def BareQuote (line : List UInt8) : Prop :=
  ∃ P X, line = tab :: (P ++ tab :: X) ∧ tab ∉ P ∧ tab ∉ X ∧ ¬ Stuck 15 X ∧ ¬ Stuck 15 (P ++ tab :: X)

/-- `xquo_t`。 -/
def XquoAt.toXquo (x : XquoAt) : Xquo (BitVec 64) (BitVec 64) := ⟨x.q, x.ins.toNat, x.inz.toNat⟩

/-- 十進小数の変換は、`strtobcd64` で読み、`form` で組み立てる。 -/
structure Codec.Words (C : Codec (BitVec 64) (BitVec 64)) (form : Bcd 64 → BitVec 64) (fuel : Nat) : Prop where
  px : ∀ s b rest, strtobcd64 fuel s = some (b, rest) → C.strtopx s = (form b, s.length - rest.length)
  qx : ∀ s b rest, strtobcd64 fuel s = some (b, rest) → C.strtoqx s = form b

/-- 二進の仮数を持つ形の変換。丸めが終わらない文字列には 0 を当てる。 -/
def bidCodec (fuel : Nat) : Codec (BitVec 64) (BitVec 64) where
  strtopx s := (strtobid64 fuel s).elim (0, 0) fun r => (r.1, s.length - r.2.length)
  strtoqx s := (strtobid64 fuel s).elim 0 fun r => r.1
  pxtostr p := (d64tostr 256 (p.getD nand64)).1
  qxtostr x := (d64tostr 256 x).1

end Books.Xquo
