import Books.Book.Spec
import Books.Book2book.Printers
import Books.Instr.Spec
import Books.Lib.Detect

/-!
# 出力の読み戻し

印字した行を別の板に加えたときに、内部の板と同じ気配が見えることを定める。
-/

namespace Books.Book2book

open Books.Btree Books.Book Books.Instr Books.Xquo

variable {K Q : Type} [LinearOrder K] [Zero K] [LinearOrder Q] [AddCommGroup Q]
variable {T : Bool → Type} [BTree T K Q]

/-- 行の列を順に読み、板に加える。 -/
def replay (C : Codec K Q) (r : Book T) : List (List UInt8) → Option (Book T)
  | [] => some r
  | line :: lines => do
      let x ← readXquo C line
      replay C (bookAdd r x.q).1 lines

/-- 板 `b` で一つの行を処理して印字した `prq2` の行を、板 `r` に加えると、同じ気配が見える。 -/
def Replays (C : Codec K Q) (b r : Book (OrdMap K Q)) (line : List UInt8) (x : Xquo K Q) : Prop :=
  ∃ b' out r', advance .prq2 b x.q = some (b', out) ∧
    replay C r (out.map fun c => prq2 C (prfx line x) c.q c.o) = some r' ∧ r'.visible = b'.visible

/-- 印字した行から読む時刻。 -/
def printedTv (line : List UInt8) (x : Xquo K Q) : Tv := strtotv (prfx line x ++ [sideByte x.q.s])

/-- 側 `s` の気配値 `p` への気配を、そのままレベル 2 の行として印字してよい条件。レベル 3 では、元の数量が 0 であるか、
加えた後も前も見えないことである。受け付けないレベル 0 では、同じ気配がすでに見えていることである。 -/
def RawPrintOk (b : Book (OrdMap K Q)) (s : Bool) (p : K) (q : BookQuo K Q) (t : Tv) : Prop :=
  match q.f with
  | .lvl0 => (q.q ≤ 0 ∧ (b.stored s p).nilP = true) ∨ (0 < q.q ∧ b.stored s p = ⟨q.q, t⟩)
  | .lvl1 => False
  | .lvl2 => q.q ≤ 0 ∨ t = q.t
  | .lvl3 => (q.q ≤ 0 ∧ q.q + (b.stored s p).q ≤ 0) ∨ (0 < q.q ∧ (b.stored s p).q = 0 ∧ t = q.t)

/-! ## レベル 3 の出力 -/

/-- 気配値と負でない数量のあるレベル 2 の気配か、レベル 1 でない CLR。 -/
def LevelQuo (q : BookQuo K Q) : Prop :=
  (∃ s p, q.s = sideOf s ∧ q.f = .lvl2 ∧ q.p = some p ∧ 0 ≤ q.q) ∨ (q.s = .clr ∧ q.f ≠ .lvl1)

/-- `read_xquo` が `LevelQuo` を返す行。 -/
def LevelLine (C : Codec K Q) (line : List UInt8) : Prop := ∃ x, readXquo C line = some x ∧ LevelQuo x.q

/-- 板 `k` について `prq3` が印字した行。 -/
def printed3 (C : Codec K Q) (calls : List (Call T K Q)) (k : Nat) : List (List UInt8) :=
  (calls.filter fun c => decide (c.k = k)).map fun c => prq3 C c.pre c.q c.o

/-- 見える気配値と数量が同じである。 -/
def SameQuantities (b r : Book (OrdMap K Q)) : Prop := ∀ s k, (r.visible s k).q = (b.visible s k).q

/-! ## 出力の選択 -/

/-- 巻き戻しと `book_add` が同じ結果になる気配。レベル 1 の気配は側が `BOOK_SIDE_ASK` か `BOOK_SIDE_BID` であり、数量が負
ならば手前に何も見えていない。CLR では、負の数量が入っていない。 -/
def SafeQuo (b : Book (OrdMap K Q)) (q : BookQuo K Q) : Prop :=
  (q.f = .lvl1 → ∃ s, q.s = sideOf s ∧
    (q.q < 0 → ∀ p, q.p = some p → ∀ k, Before s k p → (b.stored s k).nilP = true)) ∧
  (q.s = .clr → ∀ s k, 0 ≤ (b.stored s k).q)

/-- 巻き戻さない実行で、行を加える板と気配が、いつも `SafeQuo` である。 -/
def SafeRun (hash : List UInt8 → UInt32) (C : Codec K Q) : State (OrdMap K Q) → List (List UInt8) → Prop
  | _, [] => True
  | st, line :: lines =>
      (∀ x k st₁ b, readXquo C line = some x → x.q.s ≠ .unk →
        route hash (fun _ => makeBook) st (insOf line x) = some (.use k, st₁) → st₁.book[k]? = some b → SafeQuo b x.q) ∧
      ∀ st₁ out, mainStep hash C .prq1 st line = some (st₁, out) → SafeRun hash C st₁ lines

/-- 同じ銘柄の板に、同じ気配が見える。どちらも定まらないことも許す。 -/
def SameBooks : Option (State (OrdMap K Q) × List (Call (OrdMap K Q) K Q)) →
    Option (State (OrdMap K Q) × List (Call (OrdMap K Q) K Q)) → Prop
  | some (st₁, _), some (st₂, _) => st₁.conx = st₂.conx ∧ st₁.book.map Book.visible = st₂.book.map Book.visible
  | none, none => True
  | _, _ => False

/-! ## 側の参照 -/

/-- `book_add` が配列 `quos` を引く側。 -/
def addSides (q : BookQuo K Q) : List BookSide :=
  match q.s with
  | .ask | .bid => if rejected q then [] else [q.s]
  | .clr => [.bid, .ask]
  | .del => [.ask, .bid]
  | _ => []

/-- `unwnd:` から後に、`book_iter` と `book_add` が配列 `quos` を引く側。 -/
def usedSides (m : Prq) (q : BookQuo K Q) : List BookSide :=
  if q.f = .lvl1 ∧ m.unwinds = true then q.s :: addSides q
  else if q.s = .clr ∧ m.unwinds = true then [.bid, .ask]
  else addSides q

/-- どの側も配列 `quos` の中を指す。 -/
def InQuos (m : Prq) (q : BookQuo K Q) : Prop := ∀ s ∈ usedSides m q, s.quos?.isSome = true

/-- 入力の行のうち、受け付けて板に加える気配を、順に並べたもの。 -/
def applied (hash : List UInt8 → UInt32) (C : Codec K Q) (m : Prq) : State T → List (List UInt8) → List (BookQuo K Q)
  | _, [] => []
  | st, line :: lines =>
      let here :=
        match readXquo C line with
        | none => []
        | some x =>
            if x.q.s = .unk then []
            else
              match route hash (fun _ => makeBook) st (insOf line x) with
              | some (.use _, _) => [x.q]
              | _ => []
      match mainStep hash C m st line with
      | none => here
      | some (st, _) => here ++ applied hash C m st lines

/-! ## 銘柄の板 -/

/-- 気配の列を順に板に加える。 -/
def advances (m : Prq) (b : Book T) (qs : List (BookQuo K Q)) : Option (Book T) :=
  qs.foldlM (fun b q => (advance m b q).map Prod.fst) b

/-- 行の板は、加えるべき板である。その板だけが変わる。`seen` は、前の行の銘柄である。 -/
def RoutesLine (hash : List UInt8 → UInt32) (C : Codec K Q) (m : Prq) (instr seen : List (List UInt8)) (st : State T)
    (line : List UInt8) (x : Xquo K Q) : Prop :=
  Designates (owner hash instr (seen ++ [insOf line x]) (insOf line x))
    (route hash (fun _ => makeBook) st (insOf line x)) ∧
  ∀ st' out, mainStep hash C m st line = some (st', out) → ∀ k : Nat, st'.book[k]? =
    if owner hash instr (seen ++ [insOf line x]) (insOf line x) = some k
    then (advance m (st.book[k]?.getD makeBook) x.q).map Prod.fst
    else st.book[k]?

/-- どの行でも `RoutesLine` が成り立つ。ハッシュが銘柄を区別すれば、どの板も、その銘柄の行だけから作った板に等しい。 -/
def Routes (T : Bool → Type) [BTree T K Q] (hash : List UInt8 → UInt32) (C : Codec K Q) (m : Prq)
    (instr lines : List (List UInt8)) : Prop :=
  (∀ pre line post out x, ∀ st : State T, lines = pre ++ line :: post →
    mainLoop hash C m (initState hash instr) pre = some (st, out) → readXquo C line = some x → x.q.s ≠ .unk →
    RoutesLine hash C m instr (insList C (fun x => x.q.s ≠ .unk) pre) st line x) ∧
  (Set.InjOn hash (names instr (insList C (fun x => x.q.s ≠ .unk) lines)) → ∀ out, ∀ st : State T,
    mainLoop hash C m (initState hash instr) lines = some (st, out) → ∀ (k : Nat) b, st.book[k]? = some b →
    advances m makeBook (ownQuos C (fun x => x.q.s ≠ .unk) instr (insList C (fun x => x.q.s ≠ .unk) lines) k lines) =
      some b)

/-! ## 最後に印字した表 -/

section Display
variable {K Q : Type} [LinearOrder K] [Zero K] [LinearOrder Q] [Field Q]

/-- 板 `k`。まだなければ空の板とする。 -/
def bookAt (st : State (OrdMap K Q)) (k : Nat) : Book (OrdMap K Q) := st.book[k]?.getD makeBook

/-- 板 `k` についての呼び出しの後の、覚えた値と、最後に印字した表。印字する行がなければ、表はそのままである。 -/
def display {M : Type} (prq : M → Book (OrdMap K Q) → Option (M × List (Row K Q))) (k : Nat) (s : M × List (Row K Q))
    (calls : List (Call (OrdMap K Q) K Q)) : Option (M × List (Row K Q)) :=
  (calls.filter fun c => decide (c.k = k)).foldlM
    (fun s c => (prq s.1 c.xb).map fun r => (r.1, Lib.Detector.refresh s.2 r.2)) s

/-- 板から作る 1 段の表。 -/
def block1 (top : Book (OrdMap K Q) → Bool → Option (BookQuo K Q)) (b : Book (OrdMap K Q)) : Option (List (Row K Q)) := do
  let bid ← top b true
  let ask ← top b false
  return [row1 bid ask]

/-- 板から作る `ntop` 段の表。 -/
def blockN (ntop : Nat) (tops : Book (OrdMap K Q) → Bool → Option (List (K × Q))) (b : Book (OrdMap K Q)) :
    Option (List (Row K Q)) := do
  let bids ← tops b true
  let asks ← tops b false
  return rowsN ntop bids asks

/-- どの行の後でも、どの銘柄でも、最後に印字した表は、今の板から作る表と同じ気配値と数量を示す。印字する前の表は `blank` である。 -/
def Fresh {M : Type} (hash : List UInt8 → UInt32) (C : Codec K Q) (m : Prq)
    (prq : M → Book (OrdMap K Q) → Option (M × List (Row K Q))) (zero : M) (blank : List (Row K Q))
    (block : Book (OrdMap K Q) → Option (List (Row K Q))) (instr lines : List (List UInt8)) : Prop :=
  ∀ pre post calls, ∀ st : State (OrdMap K Q), lines = pre ++ post →
    mainLoop hash C m (initState hash instr) pre = some (st, calls) →
    ∀ k, ∃ xb rows, display prq k (zero, blank) calls = some (xb, rows) ∧ block (bookAt st k) = some rows

/-- どの行でも、行の前と後の板について `P` が成り立つ。 -/
def EveryLine (hash : List UInt8 → UInt32) (C : Codec K Q) (m : Prq)
    (P : Book (OrdMap K Q) → Book (OrdMap K Q) → Prop) (instr lines : List (List UInt8)) : Prop :=
  ∀ pre line post calls calls', ∀ st st' : State (OrdMap K Q), lines = pre ++ line :: post →
    mainLoop hash C m (initState hash instr) pre = some (st, calls) → mainStep hash C m st line = some (st', calls') →
    ∀ k, P (bookAt st k) (bookAt st' k)

/-- まとめた気配値がどちらの側でも変わらなければ、示す数量も変わらない。 -/
def SizesFollow1 (top : Book (OrdMap K Q) → Bool → Option (BookQuo K Q)) (b b' : Book (OrdMap K Q)) : Prop :=
  (∀ s, (top b' s).map BookQuo.p = (top b s).map BookQuo.p) → ∀ s, (top b' s).map BookQuo.q = (top b s).map BookQuo.q

/-- 0 で埋めた気配値の列がどちらの側でも変わらなければ、示す気配の数も数量も変わらない。 -/
def SizesFollowN (ntop : Nat) (tops : Book (OrdMap K Q) → Bool → Option (List (K × Q))) (b b' : Book (OrdMap K Q)) : Prop :=
  (∀ s, (tops b' s).map (fun l => pad ntop (l.map Prod.fst)) = (tops b s).map fun l => pad ntop (l.map Prod.fst)) →
    ∀ s, tops b' s = tops b s

/-- 示す気配のあった板が、どちらの側にも示す気配のない板にならない。 -/
def NotEmptied (tops : Book (OrdMap K Q) → Bool → Option (List (K × Q))) (b b' : Book (OrdMap K Q)) : Prop :=
  (∀ s, tops b' s = some []) → ∀ s, tops b s = some []

end Display

end Books.Book2book
