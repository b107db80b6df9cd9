import Books.Hash.Code

/-!
# ハッシュの定義

機械によらない値を、入力のバイトの並びの畳み込みとして定める。
-/

namespace Books.Hash

open Books.Lib

/-- 四つのバイトの語。 -/
def le32 (bs : List UInt8) : U32 := BitVec.ofNat 32 (leNat bs)

/-- 入力の語の列と、残りのバイト。 -/
def words : List UInt8 → List U32 × List UInt8
  | b₀ :: b₁ :: b₂ :: b₃ :: bs => (le32 [b₀, b₁, b₂, b₃] :: (words bs).1, (words bs).2)
  | bs => ([], bs)

/-- 四つずつの語を加えた値と、残りの語。 -/
def lanes : Lanes → List U32 → Lanes × List U32
  | v, x₁ :: x₂ :: x₃ :: x₄ :: xs => lanes (v.step x₁ x₂ x₃ x₄) xs
  | v, xs => (v, xs)

/-- 長さ `n` の入力の、語の列 `ws` と残りのバイト `tail` から定まる値。 -/
def digest (n : Nat) (ws : List U32) (tail : List UInt8) : U32 :=
  let h := if 16 ≤ n then ((lanes Lanes.init ws).1.merge, (lanes Lanes.init ws).2) else (prime5, ws)
  avalanche (tail.foldl byteStep (h.2.foldl wordStep (h.1 + BitVec.ofNat 32 n)))

/-- 入力の値。 -/
def xxh32 (bs : List UInt8) : U32 := digest bs.length (words bs).1 (words bs).2

/-- 長さ `n` の入力で、位置 `i` のバイトと共に読まれる位置のまとまり。語の位置は語ごとに、残りの位置は一つずつまとまる。 -/
def unit (n i : Nat) : Nat := if i < 4 * (n / 4) then i / 4 else i

/-- 同じ長さの入力が、まとまり `k` のほかで等しい。 -/
def AgreeOff (k : Nat) (as bs : List UInt8) : Prop :=
  as.length = bs.length ∧ ∀ i, unit as.length i ≠ k → as[i]? = bs[i]?

end Books.Hash
