import Books.Lib.Bytes
import Books.Lib.Word

/-!
# `hash.c` の関数

`hash` を、機械のバイトの順序と番地によって読み方を変えるとおりに表す。入力のほかを読む実行と、揃った番地を求めながら揃っていない
番地を読む実行は、`Trap` になる。
-/

namespace Books.Hash

open Books.Lib

/-- `U32`。 -/
abbrev U32 := BitVec 32

/-- 機械と入力の番地。`useless` は、`XXH_USELESS_ALIGN_BRANCH` が定義されていることを表す。 -/
structure Machine where
  order : Endian
  useless : Bool
  base : Nat

def prime1 : U32 := 2654435761#32

def prime2 : U32 := 2246822519#32

def prime3 : U32 := 3266489917#32

def prime4 : U32 := 668265263#32

def prime5 : U32 := 374761393#32

/-- `XXH_swap32`。 -/
def swap32 (x : U32) : U32 :=
  ((x <<< 24) &&& 0xff000000#32) ||| ((x <<< 8) &&& 0x00ff0000#32) ||| ((x >>> 8) &&& 0x0000ff00#32) |||
    ((x >>> 24) &&& 0x000000ff#32)

/-! ## 読み取り -/

variable (B : Block) (endian : Endian) (align : Bool)

/-- `XXH_readLE32_align`。`align` が偽なら、揃っていない番地も読める。 -/
def readLE32 (p : Int) : Except Trap U32 := do
  let x ← B.word 4 align p
  return if endian = .little then x else swap32 x

/-! ## `XXH32_endian_align` -/

/-- `v1` から `v4`。 -/
structure Lanes where
  v1 : U32
  v2 : U32
  v3 : U32
  v4 : U32

/-- `v += x * PRIME32_2; v = XXH_rotl32(v, 13); v *= PRIME32_1;`。 -/
def round (v x : U32) : U32 := rotl (v + x * prime2) 13 * prime1

/-- 四つの値に、語を一つずつ加える。 -/
def Lanes.step (v : Lanes) (x1 x2 x3 x4 : U32) : Lanes := ⟨round v.v1 x1, round v.v2 x2, round v.v3 x3, round v.v4 x4⟩

/-- 四つの値の初め。 -/
def Lanes.init : Lanes := ⟨prime1 + prime2, prime2, 0, -prime1⟩

/-- 四つの値を合わせる。 -/
def Lanes.merge (v : Lanes) : U32 := rotl v.v1 1 + rotl v.v2 7 + rotl v.v3 12 + rotl v.v4 18

/-- `do { … } while (p <= limit)` の繰り返し。`limit` は `bEnd - 16` である。 -/
def lanesLoop : Nat → Int → Lanes → Except Trap (Int × Lanes)
  | 0, _, _ => .error .spin
  | fuel + 1, p, v => do
      let x1 ← readLE32 B endian align p
      let x2 ← readLE32 B endian align (p + 4)
      let x3 ← readLE32 B endian align (p + 8)
      let x4 ← readLE32 B endian align (p + 12)
      if p + 16 ≤ (B.size : Int) - 16 then lanesLoop fuel (p + 16) (v.step x1 x2 x3 x4)
      else return (p + 16, v.step x1 x2 x3 x4)

/-- `h32 += x * PRIME32_3; h32 = XXH_rotl32(h32, 17) * PRIME32_4;`。 -/
def wordStep (h32 x : U32) : U32 := rotl (h32 + x * prime3) 17 * prime4

/-- `while (p+4<=bEnd)` の繰り返し。 -/
def wordsLoop : Nat → Int → U32 → Except Trap (Int × U32)
  | 0, _, _ => .error .spin
  | fuel + 1, p, h32 =>
      if p + 4 ≤ B.size then do
        let x ← readLE32 B endian align p
        wordsLoop fuel (p + 4) (wordStep h32 x)
      else return (p, h32)

/-- `h32 += (*p) * PRIME32_5; h32 = XXH_rotl32(h32, 11) * PRIME32_1;`。 -/
def byteStep (h32 : U32) (b : UInt8) : U32 := rotl (h32 + b.toBitVec.setWidth 32 * prime5) 11 * prime1

/-- `while (p<bEnd)` の繰り返し。 -/
def bytesLoop : Nat → Int → U32 → Except Trap U32
  | 0, _, _ => .error .spin
  | fuel + 1, p, h32 =>
      if p < B.size then do
        let b ← B.byte p
        bytesLoop fuel (p + 1) (byteStep h32 b)
      else return h32

/-- 終わりのかき混ぜ。 -/
def avalanche (h32 : U32) : U32 := xorshr (xorshr (xorshr h32 15 * prime2) 13 * prime3) 16

/-- `XXH32_endian_align`。 -/
def endianAlign : Except Trap U32 := do
  let r ← if 16 ≤ B.size then do
      let r ← lanesLoop B endian align (B.size + 1) 0 Lanes.init
      pure (r.1, r.2.merge)
    else pure (0, prime5)
  let h32 := r.2 + BitVec.ofNat 32 B.size
  let r ← wordsLoop B endian align (B.size + 1) r.1 h32
  let h32 ← bytesLoop B (B.size + 1) r.1 r.2
  return avalanche h32

/-! ## `hash` -/

/-- 語を置いたバイト。 -/
def Endian.store (e : Endian) (x : U32) : List UInt8 :=
  let bs := (List.range 4).map fun k => UInt8.ofNat (fld x (8 * k) 8)
  match e with
  | .little => bs
  | .big => bs.reverse

/-- `XXH_CPU_LITTLE_ENDIAN`。`1` を置いた領域の初めのバイトである。 -/
def detected (e : Endian) : Endian := if (Endian.store e 1).headD 0 = 1 then .little else .big

/-- 入力の領域。 -/
def block (M : Machine) (input : List UInt8) : Block := ⟨fun i => input.getD i 0, input.length, M.base, M.order⟩

/-- `hash(input, len)`。 -/
def hash (M : Machine) (input : List UInt8) : Except Trap U32 :=
  let endian := detected M.order
  let B := block M input
  if M.useless = false ∧ M.base &&& 3 = 0 then
    if endian = .little then endianAlign B .little true else endianAlign B .big true
  else if endian = .little then endianAlign B .little false
  else endianAlign B .big false

example : hash ⟨.big, false, 2⟩ [69, 83, 72, 54] = hash ⟨.little, true, 0⟩ [69, 83, 72, 54] := by decide

end Books.Hash
