import Books.Lib.Field

/-!
# `dfp754_d64.c` と `dfp754_d32.c` の関数

`_Decimal64` と `_Decimal32` は、64 ビットと 32 ビットの語である。二つのファイルは、語の長さと定数を除いて同じ形をしている。
形は語の長さ `w` に関して一度だけ書き、それぞれの関数は、その定数を当てて定める。文字列はバイトの並びで表し、後には NUL が
続く。
-/

namespace Books.Dfp754

open Books.Lib

variable {w : Nat}

/-- `bcd64_t` と `bcd32_t`。 -/
structure Bcd (w : Nat) where
  mant : BitVec w
  expo : Int
  sign : Int
deriving DecidableEq

/-- `U(x)`。 -/
def U (c : UInt8) : BitVec w := BitVec.ofNat w (c - 48).toNat

/-- `C(x)`。 -/
def C (x : BitVec w) : UInt8 := UInt8.ofNat (x + 48).toNat

def isdigit (c : UInt8) : Bool := decide (48 ≤ c) && decide (c ≤ 57)

/-! ## 文字列を詰めた十進に読む -/

/-- `while ((x = (mant & 0b1111U) + roff) > 9) { mant >>= 4U; sh += 4U; }`。出口での `mant`、`x`、`sh` を返す。 -/
def roundLoop (roff : Int) : Nat → BitVec w → Nat → Option (BitVec w × BitVec w × Nat)
  | 0, _, _ => none
  | fuel + 1, mant, sh =>
      let x := (mant &&& 0xf) + BitVec.ofInt w roff
      if 9 < x then roundLoop roff fuel (mant >>> 4) (sh + 4) else some (mant, x, sh)

/-- `round_bcd64` と `round_bcd32`。`~0b1111U` は 32 ビットの数である。 -/
def roundBcd (o : Join) (fuel : Nat) (mant : BitVec w) (roff : Int) : Option (BitVec w) :=
  (roundLoop roff fuel mant 0).map fun r => o.app (r.1 &&& 0xfffffff0) r.2.1 <<< r.2.2

/-- 読みかけの状態。 -/
structure Rd (w : Nat) where
  sp : List UInt8
  mant : BitVec w
  expo : Int
  nd : Nat
  roff : Int

/-- 数字を `nd` 個まで `mant` に詰める。一つ読むごとに `expo` に `de` を足す。 -/
def pickDigits (de : Int) : Nat → List UInt8 → BitVec w → Int → Rd w
  | 0, sp, mant, expo => ⟨sp, mant, expo, 0, 0⟩
  | nd + 1, [], mant, expo => ⟨[], mant, expo, nd + 1, 0⟩
  | nd + 1, c :: sp, mant, expo =>
      if isdigit c then pickDigits de nd sp (mant <<< 4 ||| U c) (expo + de) else ⟨c :: sp, mant, expo, nd + 1, 0⟩

/-- `*sp >= '5' && *sp <= '9'`。 -/
def offDigit (sp : List UInt8) : Int := if decide (53 ≤ sp.headD 0) && decide (sp.headD 0 ≤ 57) then 1 else 0

/-- 小数点の左側。 -/
def readInt (nd : Nat) (sp : List UInt8) : Rd w :=
  let r := pickDigits 0 nd sp 0 0
  { r with
    sp := r.sp.dropWhile isdigit
    expo := r.expo + (r.sp.takeWhile isdigit).length
    roff := r.roff + offDigit r.sp }

/-- 小数点の右側。 -/
def readFrac (r : Rd w) : Rd w :=
  if r.sp.headD 0 = 46 ∧ 0 < r.nd then
    let r' := pickDigits (-1) r.nd r.sp.tail r.mant r.expo
    { r' with
      sp := r'.sp.dropWhile isdigit
      roff := r.roff + offDigit r'.sp }
  else if r.sp.headD 0 = 46 then
    { r with
      sp := r.sp.tail.dropWhile isdigit
      roff := r.roff + offDigit r.sp }
  else r

/-- `src` の符号。 -/
def signOf (src : List UInt8) : Int := if src.headD 0 = 45 then 1 else 0

/-- 符号と、先頭の `0` を除いた残り。 -/
def digitsOf (src : List UInt8) : List UInt8 :=
  let sp := if src.headD 0 = 45 then src.tail else if src.headD 0 = 43 then src.tail else src
  sp.dropWhile (fun c => decide (c = 48))

/-- `strtobcd64` と `strtobcd32`。値と、読み残しを返す。 -/
def strtobcd (o : Join) (nd fuel : Nat) (src : List UInt8) : Option (Bcd w × List UInt8) :=
  let r := readFrac (readInt nd (digitsOf src))
  let mant := if r.roff = 0 then some r.mant else roundBcd o fuel r.mant (if signOf src = 0 then 1 else -1)
  mant.map fun m => (⟨m, r.expo, signOf src⟩, r.sp)

def roundBcd64 : Nat → BitVec 64 → Int → Option (BitVec 64) := roundBcd .xor

def roundBcd32 : Nat → BitVec 32 → Int → Option (BitVec 32) := roundBcd .or

def strtobcd64 : Nat → List UInt8 → Option (Bcd 64 × List UInt8) := strtobcd .xor 15

def strtobcd32 : Nat → List UInt8 → Option (Bcd 32 × List UInt8) := strtobcd .or 7

/-! ## 詰めた十進を文字列に書く -/

/-- 書きかけの状態。`out` は `buf` から `bp` まで、`room` は `ep - bp` である。 -/
structure Pr (w : Nat) where
  out : List UInt8
  room : Nat
  b : Bcd w

/-- `for (; go(b) && bp < ep; b = next(b)) *bp++ = chr(b);`。 -/
def emit (go : Bcd w → Bool) (chr : Bcd w → UInt8) (next : Bcd w → Bcd w) : Nat → List UInt8 → Bcd w → Pr w
  | 0, out, b => ⟨out, 0, b⟩
  | room + 1, out, b =>
      if go b then emit go chr next room (out ++ [chr b]) (next b) else ⟨out, room + 1, b⟩

/-- `if (cond && bp < ep) *bp++ = c;`。 -/
def Pr.put (p : Pr w) (cond : Bool) (c : UInt8) : Pr w :=
  if cond ∧ 0 < p.room then { p with out := p.out ++ [c], room := p.room - 1 } else p

/-- 仮数の一番下の桁を落とす。 -/
def Bcd.shift (b : Bcd w) : Bcd w := { b with mant := b.mant >>> 4 }

/-- 仮数の一番下の桁の文字。 -/
def Bcd.chr (b : Bcd w) : UInt8 := C (b.mant &&& 0xf)

/-- 小数点の右側を書く。 -/
def emitFrac (bsz : Nat) (b : Bcd w) : Pr w :=
  emit (fun b => decide (b.expo < 0)) Bcd.chr (fun b => { b.shift with expo := b.expo + 1 }) bsz [] b

/-- 小数点の左側の、仮数より下の `0` を書く。 -/
def emitZeros (p : Pr w) : Pr w :=
  emit (fun b => decide (0 < b.expo)) (fun _ => 48) (fun b => { b with expo := b.expo - 1 }) p.room p.out p.b

/-- 仮数の残りを書く。 -/
def emitMant (p : Pr w) : Pr w :=
  if p.b.mant ≠ 0 then emit (fun b => decide (b.mant ≠ 0)) Bcd.chr Bcd.shift p.room p.out p.b else p.put true 48

/-- `for (char *ip = buf, *jp = bp - 1; ip < jp; ip++, jp--)`。両端から入れ替える。 -/
def reverseLoop : Nat → Nat → List UInt8 → List UInt8
  | _, 0, buf => buf
  | ip, jp + 1, buf =>
      if ip < jp + 1 then
        reverseLoop (ip + 1) jp ((buf.set ip (buf.getD (jp + 1) 0)).set (jp + 1) (buf.getD ip 0))
      else buf

/-- `bcd64tostr` と `bcd32tostr`。`buf` に書いたバイトと、戻り値を返す。 -/
def bcdtostr (bsz : Nat) (b : Bcd w) : List UInt8 × Nat :=
  let p := emitFrac bsz b
  let p := p.put (decide (p.out ≠ [])) 46
  let p := emitMant (emitZeros p)
  let p := p.put (decide (p.b.sign ≠ 0)) 45
  let n := p.out.length
  let buf := (p.put true 0).out
  (reverseLoop 0 (n - 1) buf, n)

def bcd64tostr : Nat → Bcd 64 → List UInt8 × Nat := bcdtostr

def bcd32tostr (bsz : Nat) (mant : BitVec 32) (e s : Int) : List UInt8 × Nat := bcdtostr bsz ⟨mant, e, s⟩

/-! ## 二進の仮数を持つ形 -/

/-- `(int64_t)b >> 63U`。 -/
def signBits (x : BitVec w) : Int := (x.sshiftRight (w - 1)).toInt

/-- `mant_bid64` と `mant_bid32`。 -/
def mantBid (p : Nat) (x : BitVec w) : BitVec w :=
  if x &&& (3#w <<< (w - 3)) = 3#w <<< (w - 3) then (4#w <<< (p - 2)) ^^^ (x &&& mask (p - 2)) else x &&& mask p

/-- `quantexpbid64` と `quantexpbid32`。 -/
def quantexpBid (p : Nat) (bias : Int) (x : BitVec w) : Int :=
  if x = 0 then 0
  else if x &&& (3#w <<< (w - 3)) ≠ 3#w <<< (w - 3) then ((x >>> p) &&& mask (w - 1 - p)).toNat - bias
  else ((x >>> (p - 2)) &&& mask (w - 1 - p)).toNat - bias

/-- `assemble_bid`。 -/
def assemble (p : Nat) (m ex s : BitVec w) : BitVec w :=
  let u := s <<< (w - 1)
  if m &&& (1#w <<< p) ≠ 0 then u ^^^ (3#w <<< (w - 3)) ^^^ (ex <<< (p - 2)) ^^^ (m &&& mask (p - 2))
  else u ^^^ (ex <<< p) ^^^ (m &&& mask p)

/-- 仮数の下の桁から順に、`m` の十進の桁として足す。 -/
def bidLoop : Nat → BitVec w → BitVec w → BitVec w
  | 0, _, m => m
  | i + 1, mant, m => bidLoop i (mant >>> 4) (m * 10 + (mant &&& 0xf))

/-- `(x & hi) >> s ^ (x & lo) << s`。 -/
def swapHalves (s : Nat) (hi lo x : BitVec w) : BitVec w := ((x &&& hi) >>> s) ^^^ ((x &&& lo) <<< s)

def mirror64 (x : BitVec 64) : BitVec 64 :=
  swapHalves 4 0xf0f0f0f0f0f0f0f0 0x0f0f0f0f0f0f0f0f
    (swapHalves 8 0xff00ff00ff00ff00 0x00ff00ff00ff00ff
      (swapHalves 16 0xffff0000ffff0000 0x0000ffff0000ffff (swapHalves 32 0xffffffff00000000 0x00000000ffffffff x)))

def mirror32 (x : BitVec 32) : BitVec 32 :=
  swapHalves 4 0xf0f0f0f0 0x0f0f0f0f (swapHalves 8 0xff00ff00 0x00ff00ff (swapHalves 16 0xffff0000 0x0000ffff x))

def mantBid64 : BitVec 64 → BitVec 64 := mantBid 53

def mantBid32 : BitVec 32 → BitVec 32 := mantBid 23

def quantexpbid64 : BitVec 64 → Int := quantexpBid 53 398

def quantexpbid32 : BitVec 32 → Int := quantexpBid 23 101

def assembleBid64 : BitVec 64 → BitVec 64 → BitVec 64 → BitVec 64 := assemble 53

def assembleBid32 : BitVec 32 → BitVec 32 → BitVec 32 → BitVec 32 := assemble 23

def bcd64tobid (b : Bcd 64) : BitVec 64 :=
  assembleBid64 (bidLoop 15 (mirror64 b.mant >>> 4) 0) (BitVec.ofInt 64 (b.expo + 398)) (BitVec.ofInt 64 b.sign)

def bcd32tobid (b : Bcd 32) : BitVec 32 :=
  assembleBid32 (bidLoop 7 (mirror32 b.mant >>> 4) 0) (BitVec.ofInt 32 (b.expo + 101)) (BitVec.ofInt 32 b.sign)

def strtobid64 (fuel : Nat) (src : List UInt8) : Option (BitVec 64 × List UInt8) :=
  (strtobcd64 fuel src).map fun r => (bcd64tobid r.1, r.2)

def strtobid32 (fuel : Nat) (src : List UInt8) : Option (BitVec 32 × List UInt8) :=
  (strtobcd32 fuel src).map fun r => (bcd32tobid r.1, r.2)

/-- `bid64tostr` で、二進の仮数を詰めた十進に直す。 -/
def rebcdLoop : Nat → BitVec w → BitVec w → BitVec w
  | 0, _, bcdm => bcdm
  | i + 1, m, bcdm => rebcdLoop i (m / 10) ((bcdm >>> 4) ^^^ ((m % 10) <<< (w - 4)))

def bid64tostr (bsz : Nat) (x : BitVec 64) : List UInt8 × Nat :=
  let m := mantBid64 x
  let s := if m ≠ 0 then signBits x else 0
  bcd64tostr bsz ⟨rebcdLoop 16 m 0, quantexpbid64 x, s⟩

/-- `NAND64`。 -/
def nand64 : BitVec 64 := 0x7c00000000000000

/-- `isnand64` の組込み関数。 -/
def isnand64 (x : BitVec 64) : Bool := decide (x &&& 0x7c00000000000000 = 0x7c00000000000000)

/-- `isinfd64` の組込み関数。 -/
def isinfd64 (x : BitVec 64) : Bool := decide (x &&& 0x7c00000000000000 = 0x7800000000000000)

/-- `d64tostr` で、`buf[0] = '-'` の後に `"inf"` を `z` バイト写す。 -/
def infOut (neg : Bool) (z : Nat) : List UInt8 :=
  if neg then 45 :: [105, 110, 102, 0].take z else if z = 0 then [45] else [105, 110, 102].take z

def d64tostr (bsz : Nat) (x : BitVec 64) : List UInt8 × Nat :=
  if isnand64 x then ([110, 97, 110].take (min 3 bsz), min 3 bsz)
  else if isinfd64 x then
    let z := min (3 + x.msb.toNat) bsz
    (infOut x.msb z, z)
  else bid64tostr bsz x

/-- `bid32tostr` で、二進の仮数を詰めた十進に直す。上から入れた桁は、入れた後に下へ送る。 -/
def rebcdLoop32 : Nat → BitVec 32 → BitVec 32 → BitVec 32
  | 0, _, bcdm => bcdm
  | i + 1, m, bcdm => rebcdLoop32 i (m / 10) ((bcdm ^^^ ((m % 10) <<< 28)) >>> 4)

def bid32tostr (bsz : Nat) (x : BitVec 32) : List UInt8 × Nat :=
  let m := mantBid32 x
  let s := if m ≠ 0 then signBits x else 0
  bcd32tostr bsz (rebcdLoop32 7 m 0) (quantexpbid32 x) s

def isnand32 (x : BitVec 32) : Bool := decide (x &&& 0x7c000000 = 0x7c000000)

def isinfd32 (x : BitVec 32) : Bool := decide (x &&& 0x7c000000 = 0x78000000)

def d32tostr (bsz : Nat) (x : BitVec 32) : List UInt8 × Nat :=
  if isnand32 x then ([110, 97, 110].take (min 3 bsz), min 3 bsz)
  else if isinfd32 x then
    let z := min (3 + x.msb.toNat) bsz
    (infOut x.msb z, z)
  else bid32tostr bsz x

/-- 切り詰めの繰り返し。一桁ごとに四捨五入する。 -/
def truncBid : Nat → BitVec w → BitVec w
  | 0, m => m
  | n + 1, m => truncBid n (m / 10 + if 5 ≤ m % 10 then 1 else 0)

/-- 伸ばす繰り返し。`lim` に届くか、`n` 桁伸ばすまで続く。 -/
def expandBid (lim : BitVec w) : Nat → BitVec w → Int → BitVec w × Int
  | 0, m, ex => (m, ex)
  | n + 1, m, ex => if m < lim then expandBid lim n (m * 10) (ex - 1) else (m, ex)

/-- `quantizebid64` と `quantizebid32`。仮数を伸ばすのは、`lim` に届くまでである。 -/
def quantizeBid (p : Nat) (bias : Int) (lim x r : BitVec w) : BitVec w :=
  let er := quantexpBid p bias r
  let ex := quantexpBid p bias x
  let m := truncBid (er - ex).toNat (mantBid p x)
  let e := expandBid lim (max ex er - er).toNat m (max ex er)
  assemble p e.1 (BitVec.ofInt w (e.2 + bias)) (BitVec.ofInt w (signBits x))

def quantizebid64 : BitVec 64 → BitVec 64 → BitVec 64 := quantizeBid 53 398 100000000000000

def quantizebid32 : BitVec 32 → BitVec 32 → BitVec 32 := quantizeBid 23 101 1000000

/-! ## 三桁ずつ詰めた形 -/

/-- `pack_declet` で、桁が 8 以上なら下のビットだけを残す。 -/
def smallDigit (d : BitVec 32) : BitVec 32 := if 8 ≤ d then d &&& 1 else d

def packDeclet (x : BitVec 32) : BitVec 32 :=
  let x0 := x &&& 0xf
  let x1 := (x >>> 4) &&& 0xf
  let x2 := (x >>> 8) &&& 0xf
  let d0 := smallDigit x0
  let d1 := smallDigit x1
  let d2 := smallDigit x2
  let res := (d2 <<< 7) ||| (d1 <<< 4) ||| d0
  match decide (8 ≤ x2), decide (8 ≤ x1), decide (8 ≤ x0) with
  | false, false, false => res
  | false, false, true => res ||| (0b100#32 <<< 1)
  | false, true, false => (res &&& ~~~0b1110#32) ||| ((0b101#32 <<< 1) ||| ((d0 &&& 0b110) <<< 4))
  | false, true, true => res ||| ((0b100#32 <<< 4) ||| (0b111#32 <<< 1))
  | true, false, false => (res &&& ~~~0b1110#32) ||| (((d0 &&& 0b110) <<< 7) ||| (0b110#32 <<< 1))
  | true, false, true =>
      (res &&& ~~~0b1100000#32) ||| (((d1 &&& 0b110) <<< 7) ||| (0b010#32 <<< 4) ||| (0b111#32 <<< 1))
  | true, true, false => (res &&& ~~~0b1110#32) ||| (((d0 &&& 0b110) <<< 7) ||| (0b111#32 <<< 1))
  | true, true, true => res ||| ((0b110#32 <<< 4) ||| (0b111#32 <<< 1))

/-- `unpack_declet` の、三桁とも小さい場合。 -/
def trivialDeclet (x : BitVec 32) : BitVec 32 :=
  (x &&& 0b1111) ||| (x &&& 0b1110000) ||| ((x &&& 0b1110000000) <<< 1)

/-- 大きい上の桁。 -/
def largeHigh (x : BitVec 32) : BitVec 32 := (0b1000#32 <<< 8) ||| ((x &&& 0b0010000000) <<< 1)

/-- 大きい中の桁。 -/
def largeMid (x : BitVec 32) : BitVec 32 := (0b1000#32 <<< 4) ||| (x &&& 0b0000010000)

/-- 大きい下の桁。 -/
def largeLow (x : BitVec 32) : BitVec 32 := (0b1000#32 <<< 0) ||| (x &&& 0b0000000001)

def unpackDeclet (x : BitVec 32) : BitVec 32 :=
  if x &&& 0b1000 = 0 then trivialDeclet x
  else
    let s := (x >>> 1) &&& 0b111
    let t := (x >>> 5) &&& 0b11
    if s = 0b100 then trivialDeclet x
    else if s = 0b101 then
      ((x &&& 0b1110000000) <<< 1) ||| largeMid x ||| (((x &&& 0b1100000) >>> 4) ||| (x &&& 0b1))
    else if s = 0b110 then
      largeHigh x ||| (x &&& 0b1110000) ||| (((x &&& 0b1100000000) >>> 7) ||| (x &&& 0b1))
    else if t = 0b10 then ((x &&& 0b1110000000) <<< 1) ||| largeMid x ||| largeLow x
    else if t = 0b01 then
      largeHigh x ||| (((x &&& 0b1100000000) >>> 3) ||| (x &&& 0b0000010000)) ||| largeLow x
    else if t = 0b00 then largeHigh x ||| largeMid x ||| (((x &&& 0b1100000000) >>> 7) ||| (x &&& 0b1))
    else largeHigh x ||| largeMid x ||| largeLow x

/-- 仮数の下から `k` 個の三桁を詰める。`u` の `pos` ビット目から置き、残りの仮数と共に返す。 -/
def packDeclets (o : Join) : Nat → Nat → BitVec w → BitVec w → BitVec w × BitVec w
  | 0, _, m, u => (m, u)
  | k + 1, pos, m, u =>
      packDeclets o k (pos + 10) (m >>> 12)
        (o.app u ((packDeclet ((m &&& 0xfff).setWidth 32)).setWidth w <<< pos))

/-- 指数のビットを並べ替える。`big` は、先頭の桁が 8 以上であることを表す。 -/
def spreadExpo (o : Join) (c : Nat) (big : Bool) (rex : BitVec 32) : BitVec 32 :=
  if big then
    o.app (o.app ((rex &&& (3#32 <<< c)) <<< 1) (rex &&& mask c)) (3#32 <<< (c + 3))
  else o.app ((rex &&& (3#32 <<< c)) <<< 3) (rex &&& mask c)

/-- `bcd64todpd` と `bcd32todpd`。三桁の組は `k` 個、指数の続きは `c` ビットである。 -/
def bcdtodpd (o : Join) (k c : Nat) (bias : Int) (b : Bcd w) : BitVec w :=
  let r := packDeclets o k 0 b.mant (BitVec.ofInt w b.sign <<< (w - 1))
  let rex := spreadExpo o c (decide (8 ≤ r.1)) (BitVec.ofInt 32 (b.expo + bias))
  o.app (o.app r.2 (rex.setWidth w <<< (10 * k))) ((r.1 &&& 0x7) <<< (10 * k + c))

/-- `mant_dpd64` と `mant_dpd32`。 -/
def mantDpd (k c : Nat) (x : BitVec w) : BitVec w :=
  let b := x >>> (10 * k + c)
  if b &&& 0b11000 = 0b11000 then (x &&& mask (10 * k)) ^^^ (((b &&& 0b1) ||| 0b1000) <<< (10 * k))
  else (x &&& mask (10 * k)) ^^^ ((b &&& 0b111) <<< (10 * k))

/-- `quantexpdpd64` と `quantexpdpd32`。長い形の指数は、`ms` ビット目からの二ビットを上に置く。 -/
def quantexpDpd (k c ms : Nat) (bias : Int) (x : BitVec w) : Int :=
  let b := x >>> (10 * k)
  if b = 0 then 0
  else if b &&& (3#w <<< (c + 3)) ≠ 3#w <<< (c + 3) then
    (((b &&& (3#w <<< (c + 3))) >>> 3) ||| (b &&& mask c)).toNat - bias
  else (((b &&& (3#w <<< ms)) >>> 1) ||| (b &&& mask c)).toNat - bias

/-- `unpack_declet((m >> pos) & 0x3ffU)`。 -/
def decletAt (m : BitVec w) (pos : Nat) : BitVec w := (unpackDeclet (((m >>> pos) &&& 0x3ff).setWidth 32)).setWidth w

/-- `j` 番目から 0 番目までの三桁を、`b` の下に続ける。 -/
def unpackDeclets (o : Join) (m : BitVec w) : Nat → BitVec w → BitVec w
  | 0, b => o.app b (decletAt m 0)
  | j + 1, b => unpackDeclets o m j (o.app b (decletAt m (10 * (j + 1))) <<< 12)

def bcd64todpd : Bcd 64 → BitVec 64 := bcdtodpd .xor 5 8 398

def bcd32todpd : Bcd 32 → BitVec 32 := bcdtodpd .or 2 6 101

def mantDpd64 : BitVec 64 → BitVec 64 := mantDpd 5 8

def mantDpd32 : BitVec 32 → BitVec 32 := mantDpd 2 6

def quantexpdpd64 : BitVec 64 → Int := quantexpDpd 5 8 8 398

def quantexpdpd32 : BitVec 32 → Int := quantexpDpd 2 6 7 101

def strtodpd64 (fuel : Nat) (src : List UInt8) : Option (BitVec 64 × List UInt8) :=
  (strtobcd64 fuel src).map fun r => (bcd64todpd r.1, r.2)

def strtodpd32 (fuel : Nat) (src : List UInt8) : Option (BitVec 32 × List UInt8) :=
  (strtobcd32 fuel src).map fun r => (bcd32todpd r.1, r.2)

/-- `dpd64tostr` が取り出す、詰めた十進の仮数。 -/
def bcdDpd64 (x : BitVec 64) : BitVec 64 := unpackDeclets .xor (mantDpd64 x) 4 ((mantDpd64 x >>> 50) <<< 12)

/-- `dpd32tostr` が取り出す、詰めた十進の仮数。 -/
def bcdDpd32 (x : BitVec 32) : BitVec 32 := unpackDeclets .or (mantDpd32 x) 1 ((mantDpd32 x &&& 0xf00000) >>> 8)

/-- 詰めた十進の切り詰め。四捨五入の繰り上げは、次の桁に足すだけで、先へは送らない。 -/
def truncDpd : Nat → BitVec w → BitVec w
  | 0, b => b
  | n + 1, b => truncDpd n ((b >>> 4) + if 5 ≤ b &&& 0xf then 1 else 0)

/-- `for (i = 0U; (b & 0xfU) >= 10U; b >>= 4U, b++, i++);`。 -/
def flipLoop : Nat → BitVec w → Nat → BitVec w × Nat
  | 0, b, i => (b, i)
  | n + 1, b, i => if 10 ≤ b &&& 0xf then flipLoop n ((b >>> 4) + 1) (i + 1) else (b, i)

/-- 残しておいた繰り上げを送る。語の桁の数だけ回れば、繰り返しは終わる。 -/
def flipUp (b : BitVec w) : BitVec w :=
  let r := flipLoop w b 0
  r.1 <<< (4 * r.2)

def expandDpd (lim : BitVec w) : Nat → BitVec w → Int → BitVec w × Int
  | 0, b, ex => (b, ex)
  | n + 1, b, ex => if b < lim then expandDpd lim n (b <<< 4) (ex - 1) else (b, ex)

def quantizedpd64 (x r : BitVec 64) : BitVec 64 :=
  let er := quantexpdpd64 r
  let ex := quantexpdpd64 x
  let m := mantDpd64 x
  let b := unpackDeclets .xor m 4 ((m &&& 0x3c000000000000) >>> 8)
  let b := flipUp (truncDpd (er - ex).toNat b)
  let e := expandDpd 0x100000000000000 (max ex er - er).toNat b (max ex er)
  bcd64todpd ⟨e.1, e.2, signBits x⟩

def quantizedpd32 (x r : BitVec 32) : BitVec 32 :=
  let er := quantexpdpd32 r
  let ex := quantexpdpd32 x
  let m := mantDpd32 x
  let b := unpackDeclets .or m 1 ((m &&& 0xf00000) >>> 8)
  let b := flipUp (truncDpd (er - ex).toNat b)
  let e := expandDpd 0x1000000 (max ex er - er).toNat b (max ex er)
  bcd32todpd ⟨e.1, e.2, signBits x⟩

/-- `dpd64tostr`。仮数が 0 のときは、そのまま詰めた十進とし、符号を付けない。 -/
def dpd64tostr (bsz : Nat) (x : BitVec 64) : List UInt8 × Nat :=
  let m := mantDpd64 x
  if m ≠ 0 then bcd64tostr bsz ⟨bcdDpd64 x, quantexpdpd64 x, signBits x⟩ else bcd64tostr bsz ⟨m, quantexpdpd64 x, 0⟩

/-- `HAVE_DFP754_DPD_LITERALS` での `d64tostr`。 -/
def d64tostrDpd (bsz : Nat) (x : BitVec 64) : List UInt8 × Nat :=
  if isnand64 x then ([110, 97, 110].take (min 3 bsz), min 3 bsz)
  else if isinfd64 x then
    let z := min (3 + x.msb.toNat) bsz
    (infOut x.msb z, z)
  else dpd64tostr bsz x

/-- `dpd32tostr`。 -/
def dpd32tostr (bsz : Nat) (x : BitVec 32) : List UInt8 × Nat :=
  let m := mantDpd32 x
  if m ≠ 0 then bcd32tostr bsz (bcdDpd32 x) (quantexpdpd32 x) (signBits x) else bcd32tostr bsz m (quantexpdpd32 x) 0

/-- `HAVE_DFP754_DPD_LITERALS` での `d32tostr`。 -/
def d32tostrDpd (bsz : Nat) (x : BitVec 32) : List UInt8 × Nat :=
  if isnand32 x then ([110, 97, 110].take (min 3 bsz), min 3 bsz)
  else if isinfd32 x then
    let z := min (3 + x.msb.toNat) bsz
    (infOut x.msb z, z)
  else dpd32tostr bsz x

/-! ## 指数の付け替え -/

/-- `a` ビット目から `len` ビットの指数の欄に `n` を足すために、xor する語。 -/
def flipBid (a len : Nat) (x : BitVec w) (n : Int) : BitVec w :=
  let u := (x >>> a) &&& mask len
  ((u ^^^ (u + BitVec.ofInt w n)) &&& mask len) <<< a

/-- `scalbnbid64` と `scalbnbid32`。 -/
def scalbnBid (p : Nat) (x : BitVec w) (n : Int) : BitVec w :=
  if x &&& (3#w <<< (w - 3)) = 3#w <<< (w - 3) then x ^^^ flipBid (p - 2) (w - 1 - p) x n
  else x ^^^ flipBid p (w - 1 - p) x n

/-- 三桁ずつ詰めた形で、指数に `n` を足すために、xor する語。指数の上の二ビットは、続きより `d` ビット離れている。 -/
def flipDpd (o : Join) (k c d : Nat) (x : BitVec w) (n : Int) : BitVec w :=
  let u := ((x >>> (10 * k)) &&& mask c) ^^^ ((x >>> (10 * k + d)) &&& (3#w <<< c))
  let u := u ^^^ (u + BitVec.ofInt w n)
  o.app (u &&& mask c) ((u &&& (3#w <<< c)) <<< d) <<< (10 * k)

/-- `scalbndpd64` と `scalbndpd32`。 -/
def scalbnDpd (o : Join) (k c : Nat) (x : BitVec w) (n : Int) : BitVec w :=
  if x &&& (3#w <<< (w - 3)) = 3#w <<< (w - 3) then x ^^^ flipDpd o k c 1 x n
  else x ^^^ flipDpd o k c 3 x n

def scalbnbid64 : BitVec 64 → Int → BitVec 64 := scalbnBid 53

def scalbnbid32 : BitVec 32 → Int → BitVec 32 := scalbnBid 23

def scalbndpd64 : BitVec 64 → Int → BitVec 64 := scalbnDpd .xor 5 8

def scalbndpd32 : BitVec 32 → Int → BitVec 32 := scalbnDpd .or 2 6

end Books.Dfp754
