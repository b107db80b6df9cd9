import Books.Booksnap.Options.Code

/-!
# 時間の単位

使い方の説明が挙げる単位と、引数の値が表す時間を定める。
-/

namespace Books.Booksnap

open Books.Btree Books.Book Books.Xquo Books.Lib

/-- 小文字。 -/
def lower (c : UInt8) : UInt8 := if 65 ≤ c ∧ c ≤ 90 then c + 32 else c

/-- 説明にある単位のナノ秒。空の文字列は 0、説明にない文字列は `NATV` である。 -/
def unitOf (s : List UInt8) : Tv :=
  let u := s.map lower
  if u = [] then 0
  else if u = [110, 115] then 1
  else if u = [117, 115] then 1000
  else if u = [109, 115] then 1000000
  else if u = [115] then 1000000000
  else if u = [109] then 60 * 1000000000
  else if u = [104] then 60 * 60 * 1000000000
  else natv

/-- `ns`・`us`・`ms`・`s`・`m`・`h` のいずれかである。 -/
def IsUnit (s : List UInt8) : Prop := unitOf s ≠ 0 ∧ unitOf s ≠ natv

/-- 時間の単位 `h`。 -/
def IsHours (s : List UInt8) : Prop := s.map lower = [104]

/-- 誤って読まれる文字列。単位 `h` と、`u` か `n` で始まる二バイトまでの文字列のうち `us` と `ns` でないものである。 -/
def Misread (s : List UInt8) : Prop :=
  IsHours s ∨
    ((s.map lower).headD 0 = 117 ∨ (s.map lower).headD 0 = 110) ∧ s.length ≤ 2 ∧ (s.map lower).tail ≠ [115]

instance instDecidableIsUnit (s : List UInt8) : Decidable (IsUnit s) := inferInstanceAs (Decidable (_ ∧ _))

instance instDecidableIsHours (s : List UInt8) : Decidable (IsHours s) := inferInstanceAs (Decidable (_ = _))

instance instDecidableMisread (s : List UInt8) : Decidable (Misread s) := inferInstanceAs (Decidable (_ ∨ _))

/-- 読んだ値は、桁あふれのない `n` ナノ秒である。 -/
def Denotes (r : Except Fault (Option Tv)) (n : Nat) : Prop := ∃ v : Tv, r = .ok (some v) ∧ v.toNat = n

/-- 間隔は、正でなければならない。 -/
def DenotesPos (r : Except Fault (Option Tv)) (n : Nat) : Prop := if n = 0 then r = .ok none else Denotes r n

/-- 符号つきの数。 -/
def signed (neg : Bool) (n : Nat) : Int := if neg then -n else n

/-- 負号。 -/
def minus (neg : Bool) : List UInt8 := if neg then [45] else []

end Books.Booksnap
