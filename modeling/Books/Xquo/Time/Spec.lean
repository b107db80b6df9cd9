import Books.Xquo.Spec

/-!
# 時刻の文字列の意味

時刻の文字列は、秒の数字 `S` と、小数点の後の数字 `F` からなる。`strtotv` が返すべき値と、`tvtostr` が守るべき領域の大きさを定める。
-/

namespace Books.Xquo

open Books.Btree Books.Book Books.Lib

/-- 時刻の文字列。`none` は小数点のない文字列 `S` で、`some F` は文字列 `S.F` である。 -/
def timeText (S : List UInt8) : Option (List UInt8) → List UInt8
  | none => S
  | some F => S ++ 46 :: F

/-- 小数部の数字。 -/
def fracDigits (F : Option (List UInt8)) : List UInt8 := F.getD []

/-- 小数部の桁数は 0、3、6、9 のいずれかである。 -/
def FracLen (F : Option (List UInt8)) : Prop :=
  (fracDigits F).length = 0 ∨ (fracDigits F).length = 3 ∨ (fracDigits F).length = 6 ∨ (fracDigits F).length = 9

instance instDecidableFracLen (F : Option (List UInt8)) : Decidable (FracLen F) := inferInstanceAs (Decidable (_ ∨ _))

/-- 小数部が表すナノ秒。 -/
def fracNanos (F : Option (List UInt8)) : Nat := digitsVal (fracDigits F) * 10 ^ (9 - (fracDigits F).length)

/-- 文字列が表すナノ秒。桁あふれはない。 -/
def timeNanos (S : List UInt8) (F : Option (List UInt8)) : Nat := digitsVal S * 10 ^ 9 + fracNanos F

/-- `strtotv` が返すべき時刻。表せないときは `NATV` である。 -/
def exactTime (S : List UInt8) (F : Option (List UInt8)) : Tv :=
  if digitsVal S ≠ 0 ∧ FracLen F ∧ timeNanos S F < 2 ^ 64 - 1 then UInt64.ofNat (timeNanos S F) else natv

/-- `tvtostr` は、何も書かずに 0 を返すか、領域の大きさを守って、書いたバイトの数を返す。 -/
def RespectsSize (bsz : Nat) (t : Tv) : Prop :=
  ∀ mem : Nat → UInt8,
    ((tvtostr (Buf.init mem) bsz t).2 = 0 ∧ (tvtostr (Buf.init mem) bsz t).1.log = []) ∨
    ((tvtostr (Buf.init mem) bsz t).1.Within bsz ∧
      ∀ k, k ∈ (tvtostr (Buf.init mem) bsz t).1.log ↔ k < (tvtostr (Buf.init mem) bsz t).2)

end Books.Xquo
