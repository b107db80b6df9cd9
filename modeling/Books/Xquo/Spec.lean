import Books.Xquo.Code

/-!
# 正しい形の行

列が揃った行から `read_xquo` が読むべきものを定める。
-/

namespace Books.Xquo

open Books.Btree Books.Book

variable {K Q : Type} [Zero K] [Zero Q]

/-- 時刻・銘柄・側とレベル・気配値・数量の五つの列からなる行。 -/
def columns (T I S P Q : List UInt8) : List UInt8 :=
  T ++ tab :: (I ++ tab :: (S ++ tab :: (P ++ tab :: (Q ++ [newline]))))

/-- 一つ以上の数字の並び。 -/
def Digits (u : List UInt8) : Prop := u ≠ [] ∧ ∀ c ∈ u, isdigit c = true

/-- 時刻の列。数字か、小数点で区切った数字である。 -/
def TimeText (T : List UInt8) : Prop := Digits T ∨ ∃ u v, Digits u ∧ Digits v ∧ T = u ++ 46 :: v

/-- タブも改行も NUL も含まない。 -/
def Plain (u : List UInt8) : Prop := tab ∉ u ∧ newline ∉ u ∧ 0 ∉ u

/-- 側の列の初めの文字が表す側。大文字と小文字を区別しない。 -/
def sideOfLetter (c : UInt8) : Option BookSide :=
  if c = 65 ∨ c = 97 then some .ask
  else if c = 66 ∨ c = 98 then some .bid
  else if c = 67 ∨ c = 99 then some .clr
  else if c = 68 ∨ c = 100 then some .del
  else if c = 84 ∨ c = 116 then some .del
  else none

/-- 側の列の終わりの文字が表すレベル。 -/
def lvlOfLetter (c : UInt8) : BookLvl :=
  if c = 49 then .lvl1 else if c = 50 then .lvl2 else if c = 51 then .lvl3 else .lvl0

/-- 五つの列から読むべき気配。 -/
def quoOfColumns (C : Codec K Q) (T I S P X : List UInt8) : Xquo K Q :=
  match sideOfLetter (charAt S 0) with
  | none => notAXquo
  | some s =>
      ⟨⟨s, lvlOfLetter (charAt S (S.length - 1)), if (C.strtopx P).2 = 0 then none else some (C.strtopx P).1,
        C.strtoqx X, strtotv T⟩, T.length + 1, I.length⟩

/-- 文字列の変換は、列の終わりで止まる。 -/
structure Codec.Stops (C : Codec K Q) : Prop where
  px : ∀ P rest, tab ∉ P → C.strtopx (P ++ tab :: rest) = C.strtopx P
  qx : ∀ X, newline ∉ X → C.strtoqx (X ++ [newline]) = C.strtoqx X

end Books.Xquo
