import Books.Book.Spec
import Books.Booksnap.Code
import Books.Instr.Spec
import Mathlib.Order.Bounds.Basic

/-!
# 写真の時刻と中身
-/

namespace Books.Booksnap

open Books.Btree Books.Book Books.Instr Books.Xquo

/-! ## 時計 -/

/-- `roundUp` が時刻 `x` に加える大きさ。 -/
def excess (cfg : Conf) (x : Tv) : Nat := cfg.intv.toNat - 1 - (x - 1 - cfg.offs).toNat % cfg.intv.toNat

/-- `--offset` が `o` の刻み。`o` から `intv` おきにある。 -/
def OnGrid (intv : Tv) (o : Int) (m : Nat) : Prop := (intv.toNat : Int) ∣ (m : Int) - o

/-- 時刻 `x` 以上の刻み。 -/
def gridFrom (intv : Tv) (o : Int) (x : Nat) : Set Nat := {m | x ≤ m ∧ OnGrid intv o m}

/-- 行の時刻は、刻みと有効期限を加えても 64 ビットに収まる。 -/
def Fits (cfg : Conf) (t : Tv) : Prop := t.toNat + cfg.intv.toNat + cfg.inva.toNat < 2 ^ 64

/-- 時刻 `t` の行で、二つの繰り返しが終わる。 -/
def Halts (cfg : Conf) (t : Tv) (c : Clock) : Prop :=
  (∃ n, (startLoop cfg t n c).isSome = true) ∧ ∃ n, (shootLoop cfg t n c).isSome = true

/-- `--stamps` のファイルから順に読める時刻。読めない行で終わる。 -/
def stampsOf (sfil : List (List UInt8)) : List Tv := (sfil.map strtotv).takeWhile fun s => decide (s ≠ natv)

/-- 初めの行の時刻 `t₁` から終わりの行の時刻 `tₙ` までに、写真を撮るべき時刻。 -/
def dueStamps (stamps : List Tv) (t₁ tₙ : Tv) : List Tv :=
  (stamps.filter fun s => decide (t₁ ≤ s) && decide (s < tₙ)) ++ (stamps.find? fun s => decide (tₙ ≤ s)).toList

section Lines
variable {K Q : Type} [LinearOrder K] [Zero K] [LinearOrder Q] [AddCommGroup Q]

/-- 読んだ気配が、時計と板を動かす。 -/
def Accepted (x : Xquo K Q) : Prop := x.q.s ≠ .unk ∧ x.q.t ≠ natv

instance (x : Xquo K Q) : Decidable (Accepted x) := inferInstanceAs (Decidable (_ ∧ _))

/-- 時計と板を動かす行の時刻。 -/
def acceptedTimes (C : Codec K Q) (lines : List (List UInt8)) : List Tv :=
  lines.filterMap fun l => (readXquo C l).bind fun x => if Accepted x then some x.q.t else none

/-- 時計と板を動かす行がない。 -/
def Idle (C : Codec K Q) (lines : List (List UInt8)) : Prop :=
  ∀ line ∈ lines, ∀ x, readXquo C line = some x → ¬ Accepted x

/-- 行の列の途中で、時刻 `t` の行を板に加える。`st` は行の前の状態、`c` は動き始めた後の時計、`st'` は行の後の状態、`rs` は撮る写真である。 -/
def Processes (hash : List UInt8 → UInt32) (cfg : Conf) (C : Codec K Q) (st₀ : State K Q) (lines : List (List UInt8))
    (st : State K Q) (c : Clock) (t : Tv) (st' : State K Q) (rs : List (Round K Q)) : Prop :=
  ∃ pre line post x rs₀ k tab, lines = pre ++ line :: post ∧ mainLoop hash cfg C st₀ pre = some (st, rs₀) ∧
    readXquo C line = some x ∧ Accepted x ∧ x.q.t = t ∧ start cfg st.clock t = some c ∧
    route hash makeNamed st.tab (insOf line x) = some (.use k, tab) ∧ mainStep hash cfg C st line = some (st', rs)

/-- 時刻が尽きた後も、受け付ける行は、写真を撮らずに板に加わる。 -/
def Absorbs (hash : List UInt8 → UInt32) (cfg : Conf) (C : Codec K Q) (st₀ : State K Q) (lines : List (List UInt8)) : Prop :=
  ∀ pre line post st rs₀ x, lines = pre ++ line :: post → mainLoop hash cfg C st₀ pre = some (st, rs₀) →
    st.clock.metr = natv → readXquo C line = some x → Accepted x →
    ∃ k tab b, route hash makeNamed st.tab (insOf line x) = some (.use k, tab) ∧ tab.book[k]? = some b ∧
      mainStep hash cfg C st line = some (⟨{ tab with book := tab.book.set k (badd cfg b x.q) }, st.clock⟩, [])

/-- 撮った写真の時刻。板のない写真は、何も印字しない。 -/
def times (rs : List (Round K Q)) : List Tv := (rs.filter fun r => !r.books.isEmpty).map Round.metr

/-- 写真の時刻は刻みにあり、真に増える。 -/
def Metronomic (cfg : Conf) (o : Int) (rs : List (Round K Q)) : Prop :=
  (∀ m ∈ times rs, OnGrid cfg.intv o m.toNat) ∧ (times rs).Pairwise (· < ·)

/-- 時刻 `t` の行を板に加えるときの時計の動き。`old` は行の前の、`c` は動き始めた後の、`c'` は行の後の時計である。時計は
`t` に追いつき、動けば `t` 以上の最小の刻みになる。写真は二枚までで、有効期限の刻みが `t` より前ならば、それが二枚目である。 -/
def MetronomeLine (cfg : Conf) (o : Int) (old c c' : Clock) (t : Tv) (rs : List (Round K Q)) : Prop :=
  t ≤ c'.metr ∧ (c'.metr ≠ old.metr → IsLeast (gridFrom cfg.intv o t.toNat) c'.metr.toNat) ∧ rs.length ≤ 2 ∧
  (cfg.inva ≠ 0 → ∀ p, IsLeast (gridFrom cfg.intv o (c.metr.toNat + cfg.inva.toNat)) p → p < t.toNat →
    rs.map (fun r => r.metr.toNat) = [c.metr.toNat, p])

end Lines

/-! ## 写真の中身 -/

section Content
variable {K Q : Type} [LinearOrder K] [Zero K] [LinearOrder Q] [AddCommGroup Q]

/-- 板の代わりに、板に加わる気配の列を持つ表での、入力の一行。 -/
def collectStep (hash : List UInt8 → UInt32) (C : Codec K Q) (tab : Table (List (BookQuo K Q))) (line : List UInt8) :
    Option (Table (List (BookQuo K Q))) := do
  let x ← readXquo C line
  if Accepted x then
    let (r, tab) ← route hash (fun _ => []) tab (insOf line x)
    match r with
    | .skip => return tab
    | .use k =>
        let qs ← tab.book[k]?
        return { tab with book := tab.book.set k (qs ++ [x.q]) }
  else return tab

/-- 行の列から、板ごとの気配の列を集める。 -/
def collect (hash : List UInt8 → UInt32) (C : Codec K Q) (instr lines : List (List UInt8)) :
    Option (Table (List (BookQuo K Q))) :=
  lines.foldlM (collectStep hash C) (initTable hash (fun _ => []) instr)

/-- 空の板に気配の列を順に加えた板。 -/
def quotedBook (qs : List (BookQuo K Q)) : Book (OrdMap K Q) := qs.foldl (fun b q => (bookAdd b q).1) makeBook

/-- 時刻 `m` に見える値。最後の更新から `inva` だけ経った値は見えない。 -/
def lapse (inva m : Tv) (v : BtreeVal Q) : BtreeVal Q :=
  if inva ≠ 0 ∧ v.t.toNat + inva.toNat ≤ m.toNat then .nil else v

/-- 時刻 `m` に見えるべき気配。`m` までの気配を加えた板から、`inva` だけ更新のない気配を除く。 -/
def levelsAt (inva m : Tv) (qs : List (BookQuo K Q)) : Levels K Q := fun s p =>
  lapse inva m ((quotedBook (qs.filter fun q => decide (q.t ≤ m))).visible s p)

/-- 写真の板には、それぞれの板の見えるべき数量が見える。写真にない板には、写真の時刻までの気配がない。 -/
def ShowsContent (inva : Tv) (tab : Table (List (BookQuo K Q))) (r : Round K Q) : Prop :=
  r.books.length ≤ tab.book.length ∧ ∀ (k : Nat) qs, tab.book[k]? = some qs →
    (∀ b, r.books[k]? = some b → ∀ s p, (b.book.visible s p).q = (levelsAt inva r.metr qs s p).q) ∧
    (r.books[k]? = none → qs.filter (fun q => decide (q.t ≤ r.metr)) = [])

end Content

/-! ## 銘柄の板 -/

section Routing
variable {K Q : Type} [LinearOrder K] [Zero K] [LinearOrder Q] [AddCommGroup Q]

/-- 写真 `rs` の前に、どの板からも古い気配を除く操作。 -/
def expOps (cfg : Conf) (rs : List (Round K Q)) : List (BookOp K Q) :=
  rs.map fun r => .exp (if cfg.inva ≠ 0 then r.metr else 0)

/-- 気配 `q` を板に加える操作。 -/
def addOp (cfg : Conf) (q : BookQuo K Q) : BookOp K Q := .add { q with t := q.t + cfg.inva }

/-- 板 `k`。まだなければ空の板とする。 -/
def bookAt (st : State K Q) (k : Nat) : Book (OrdMap K Q) := (st.tab.book[k]?.map Named.book).getD makeBook

/-- 行の板は、加えるべき板である。写真の前に古い気配を除くことのほかに変わる板は、その板だけである。`seen` は、前の行の銘柄である。 -/
def RoutesLine (hash : List UInt8 → UInt32) (cfg : Conf) (C : Codec K Q) (instr seen : List (List UInt8)) (st : State K Q)
    (line : List UInt8) (x : Xquo K Q) : Prop :=
  Designates (owner hash instr (seen ++ [insOf line x]) (insOf line x)) (route hash makeNamed st.tab (insOf line x)) ∧
  ∀ st' rs, mainStep hash cfg C st line = some (st', rs) → ∀ k, bookAt st' k =
    (expOps cfg rs ++ if owner hash instr (seen ++ [insOf line x]) (insOf line x) = some k then [addOp cfg x.q] else []).foldl
      bookStep (bookAt st k)

/-- 板 `k` の銘柄の行だけを加える操作の列。古い気配を除く時刻は、どの板にも共通である。 -/
def ownOps (hash : List UInt8 → UInt32) (cfg : Conf) (C : Codec K Q) (instr all : List (List UInt8)) (k : Nat) :
    State K Q → List (List UInt8) → List (BookOp K Q)
  | _, [] => []
  | st, line :: lines =>
      match mainStep hash cfg C st line with
      | none => []
      | some (st', rs) =>
          expOps cfg rs ++ (ownQuos C Accepted instr all k [line]).map (addOp cfg) ++
            ownOps hash cfg C instr all k st' lines

/-- 時計が動き始めるどの行でも `RoutesLine` が成り立つ。ハッシュが銘柄を区別すれば、どの板も、その銘柄の行だけから作った板に等しい。 -/
def Routes (hash : List UInt8 → UInt32) (cfg : Conf) (C : Codec K Q) (sfil instr lines : List (List UInt8)) : Prop :=
  (∀ pre line post rs x, ∀ st : State K Q, lines = pre ++ line :: post →
    mainLoop hash cfg C (initState hash sfil instr) pre = some (st, rs) → readXquo C line = some x → Accepted x →
    (start cfg st.clock x.q.t).isSome = true → RoutesLine hash cfg C instr (insList C Accepted pre) st line x) ∧
  (Set.InjOn hash (names instr (insList C Accepted lines)) → ∀ rs, ∀ st : State K Q,
    mainLoop hash cfg C (initState hash sfil instr) lines = some (st, rs) → ∀ k,
    bookAt st k = bookRun (ownOps hash cfg C instr (insList C Accepted lines) k (initState hash sfil instr) lines) ∧
    (cfg.inva = 0 → bookAt st k = quotedBook (ownQuos C Accepted instr (insList C Accepted lines) k lines)))

end Routing

end Books.Booksnap
