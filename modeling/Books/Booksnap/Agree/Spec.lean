import Books.Book2book.Spec
import Books.Booksnap.Printers
import Books.Booksnap.Spec

/-!
# 写真と、最後に印字した表

`booksnap` の写真を、同じ入力を読む `book2book` の板と、`book2book` が最後に印字した表に比べる。
-/

namespace Books.Booksnap

open Books.Btree Books.Book Books.Book2book Books.Instr Books.Xquo

/-! ## 板 -/

section Same
variable {K Q : Type} [LinearOrder K] [Zero K] [LinearOrder Q] [AddCommGroup Q]

/-- 側のある行は、どれも時刻が読める。 -/
def Timed (C : Codec K Q) (lines : List (List UInt8)) : Prop :=
  ∀ line ∈ lines, ∀ x, readXquo C line = some x → x.q.s ≠ .unk → x.q.t ≠ natv

/-- `pre` の次の行は、写真 `r` より新しい。 -/
def NextLater (C : Codec K Q) (lines pre : List (List UInt8)) (r : Round K Q) : Prop :=
  ∃ line post x, lines = pre ++ line :: post ∧ readXquo C line = some x ∧ Accepted x ∧ r.metr < x.q.t

/-- 写真 `r` は、`pre` を読んだ後に撮る。残りの行があれば、その初めの行は、写真より新しい。 -/
def TakenAfter (C : Codec K Q) (lines pre : List (List UInt8)) (r : Round K Q) : Prop :=
  pre = lines ∨ NextLater C lines pre r

/-- 写真の板は、`book2book` の同じ番号の板に等しい。どちらかにない板は、空である。 -/
def SameBooks (r : Round K Q) (st : Book2book.State (OrdMap K Q)) : Prop :=
  ∀ k : Nat, (r.books[k]?.map Named.book).getD makeBook = st.book[k]?.getD makeBook

end Same

/-! ## 表 -/

section Table
variable {K Q : Type} [LinearOrder K] [Zero K] [LinearOrder Q] [Field Q]

/-- 表を印字した行。 -/
def tableText (C : Codec K Q) (pre : List UInt8) (rows : List (Row K Q)) : List (List UInt8) :=
  rows.zipIdx.map fun r => r.1.text C pre r.2

/-- 空の数量の欄に 0 を入れた行。 -/
def filled (r : Row K Q) : Row K Q := { r with bq := some (r.bq.getD 0), aq := some (r.aq.getD 0) }

/-- どの写真でも、どの板でも、`snap` は、写真の時刻までの行を読んだ `book2book` が最後に印字した表を印字する。表の行には `f` を
施す。 -/
def Agrees {M : Type} (hash : List UInt8 → UInt32) (C : Codec K Q) (m : Prq)
    (prq : M → Book (OrdMap K Q) → Option (M × List (Row K Q))) (zero : M) (blank : List (Row K Q))
    (f : Row K Q → Row K Q) (snap : Tv → Option (List UInt8) → Book (OrdMap K Q) → Option (List (List UInt8)))
    (instr lines : List (List UInt8)) (rs : List (Round K Q)) : Prop :=
  ∀ r ∈ rs, ∃ pre st calls, TakenAfter C lines pre r ∧
    Book2book.mainLoop hash C m (Book2book.initState hash instr : Book2book.State (OrdMap K Q)) pre = some (st, calls) ∧
    SameBooks r st ∧ ∀ (k : Nat) b, r.books[k]? = some b → ∃ xb rows, display prq k (zero, blank) calls = some (xb, rows) ∧
      snap r.metr b.cont b.book = some (tableText C (header r.metr b.cont) (rows.map f))

end Table

end Books.Booksnap
