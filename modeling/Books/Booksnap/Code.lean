import Books.Book.Code
import Books.Instr.Code
import Books.Xquo.Code

/-!
# `booksnap.c` の `main`

入力の行を一つずつ読み、時計 `metr` が行の時刻に追いつくまで板の写真を撮り、行を板に加える。木は理想の順序つき写像とする。
`next` を繰り返しても行の時刻に追いつかない場合と、C の未定義の動作に至る場合は `none` を返す。
-/

namespace Books.Booksnap

open Books.Btree Books.Book Books.Instr Books.Xquo

/-! ## 時計 -/

/-- 時刻の指定。`stamps` は、`--stamps` のファイルから時刻を読むことを表す。 -/
structure Conf where
  intv : Tv
  offs : Tv
  inva : Tv
  stamps : Bool

/-- `main` の、`--offset` の値 `o` から `offs` を決める部分。 -/
def canonicalise (intv : Tv) (o : Int) : Tv :=
  if 0 < o then UInt64.ofNat o.toNat % intv
  else if o < 0 then intv - UInt64.ofNat (-o).toNat % intv
  else 0

/-- `metr` と、`_next_intv` の静的変数 `oldm` と、`--stamps` のファイルの残りの行。 -/
structure Clock where
  metr : Tv
  oldm : Tv
  sfil : List (List UInt8)

/-- 実行の初めの時計。 -/
def initClock (sfil : List (List UInt8)) : Clock := ⟨0, 0, sfil⟩

/-- `_next_intv` の、時刻を切り上げる計算。 -/
def roundUp (cfg : Conf) (newm : Tv) : Tv := ((newm - 1 - cfg.offs) / cfg.intv + 1) * cfg.intv + cfg.offs

/-- `metr = _next_intv(newm)`。 -/
def nextIntv (cfg : Conf) (c : Clock) (newm : Tv) : Clock :=
  if cfg.inva ≠ 0 ∧ c.metr ≠ 0 ∧ c.oldm < c.metr + cfg.inva ∧ c.metr + cfg.inva < newm then
    { c with metr := roundUp cfg (c.metr + cfg.inva), oldm := newm }
  else { c with metr := roundUp cfg newm }

/-- `metr = _next_stmp(newm)`。ファイルが尽きるか、時刻を読めなければ、`metr` は `NATV` になる。 -/
def nextStmp (c : Clock) : Clock :=
  match c.sfil with
  | [] => { c with metr := natv }
  | line :: sfil => { c with metr := strtotv line, sfil := sfil }

/-- `metr = next(newm)`。 -/
def next (cfg : Conf) (c : Clock) (newm : Tv) : Clock := if cfg.stamps then nextStmp c else nextIntv cfg c newm

/-- `while ((metr = next(t)) < t);`。 -/
def startLoop (cfg : Conf) (t : Tv) : Nat → Clock → Option Clock
  | 0, _ => none
  | n + 1, c => if (next cfg c t).metr < t then startLoop cfg t n (next cfg c t) else some (next cfg c t)

/-- `do { … } while ((metr = next(t)) < t);`。写真を撮る時刻も返す。 -/
def shootLoop (cfg : Conf) (t : Tv) : Nat → Clock → Option (List Tv × Clock)
  | 0, _ => none
  | n + 1, c =>
      if (next cfg c t).metr < t then (shootLoop cfg t n (next cfg c t)).map fun r => (c.metr :: r.1, r.2)
      else some ([c.metr], next cfg c t)

/-- 繰り返しの上限。これだけ繰り返しても終わらなければ、終わることはない。 -/
def Clock.bound (c : Clock) : Nat := c.sfil.length + 3

/-- 時計が動いていなければ、動かし始める。 -/
def start (cfg : Conf) (c : Clock) (t : Tv) : Option Clock :=
  if c.metr = 0 then startLoop cfg t c.bound c else some c

/-- 時刻 `t` の行の前に写真を撮る時刻と、その後の時計。 -/
def shoot (cfg : Conf) (c : Clock) (t : Tv) : Option (List Tv × Clock) :=
  if t ≤ c.metr then some ([], c) else shootLoop cfg t c.bound c

/-! ## 入力の行 -/

variable {K Q : Type} [LinearOrder K] [Zero K] [LinearOrder Q] [AddCommGroup Q]

/-- 見出し `cont` のついた板。 -/
structure Named (K Q : Type) [LinearOrder K] [LinearOrder Q] [AddCommGroup Q] where
  cont : Option (List UInt8)
  book : Book (OrdMap K Q)

/-- 見出しのついた空の板。 -/
def makeNamed (cont : Option (List UInt8)) : Named K Q := ⟨cont, makeBook⟩

/-- 一度の写真。`snap` に渡す板を順に並べる。 -/
structure Round (K Q : Type) [LinearOrder K] [LinearOrder Q] [AddCommGroup Q] where
  metr : Tv
  books : List (Named K Q)

structure State (K Q : Type) [LinearOrder K] [LinearOrder Q] [AddCommGroup Q] where
  tab : Table (Named K Q)
  clock : Clock

/-- 時刻 `m` の写真の前に、古い気配を除く。 -/
def expAll (cfg : Conf) (m : Tv) (bs : List (Named K Q)) : List (Named K Q) :=
  bs.map fun b => { b with book := bookExp b.book (if cfg.inva ≠ 0 then m else 0) }

/-- 時刻の列の写真を順に撮る。 -/
def rounds (cfg : Conf) : List Tv → List (Named K Q) → List (Named K Q) × List (Round K Q)
  | [], bs => (bs, [])
  | m :: ms, bs =>
      let r := rounds cfg ms (expAll cfg m bs)
      (r.1, ⟨m, expAll cfg m bs⟩ :: r.2)

/-- `badd:` の、行を板に加える部分。 -/
def badd (cfg : Conf) (b : Named K Q) (q : BookQuo K Q) : Named K Q :=
  { b with book := (bookAdd b.book { q with t := q.t + cfg.inva }).1 }

variable (hash : List UInt8 → UInt32)

def initState (sfil instr : List (List UInt8)) : State K Q := ⟨initTable hash makeNamed instr, initClock sfil⟩

/-- 入力の一行。 -/
def mainStep (cfg : Conf) (C : Codec K Q) (st : State K Q) (line : List UInt8) : Option (State K Q × List (Round K Q)) := do
  let x ← readXquo C line
  if x.q.s = .unk then return (st, [])
  if x.q.t = natv then return (st, [])
  let clock ← start cfg st.clock x.q.t
  let (r, tab) ← route hash makeNamed st.tab (insOf line x)
  match r with
  | .skip => return (⟨tab, clock⟩, [])
  | .use k =>
      let (ms, clock) ← shoot cfg clock x.q.t
      let (bs, rs) := rounds cfg ms tab.book
      let b ← bs[k]?
      return (⟨{ tab with book := bs.set k (badd cfg b x.q) }, clock⟩, rs)

/-- 入力の行の列。 -/
def mainLoop (cfg : Conf) (C : Codec K Q) (st : State K Q) :
    List (List UInt8) → Option (State K Q × List (Round K Q))
  | [] => some (st, [])
  | line :: lines => do
      let (st, rs) ← mainStep hash cfg C st line
      let (st, rss) ← mainLoop cfg C st lines
      return (st, rs ++ rss)

/-- 最後の写真。 -/
def finalRound (cfg : Conf) (st : State K Q) : List (Round K Q) :=
  if st.clock.metr < natv then [⟨st.clock.metr, expAll cfg st.clock.metr st.tab.book⟩] else []

/-- 入力の全体で撮る写真。 -/
def main (cfg : Conf) (C : Codec K Q) (sfil instr lines : List (List UInt8)) : Option (List (Round K Q)) := do
  let (st, rs) ← mainLoop hash cfg C (initState hash sfil instr) lines
  return rs ++ finalRound cfg st

end Books.Booksnap
