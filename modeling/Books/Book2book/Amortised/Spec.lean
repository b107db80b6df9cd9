import Books.Book.Lemmas.Ideal
import Books.Book2book.Spec

/-!
# 見える気配の数

巻き戻しの手間は、見えている気配の数で払う。
-/

namespace Books.Book2book

open Books.Btree Books.Book Books.Instr Books.Xquo

variable {K Q : Type} [LinearOrder K] [Zero K] [LinearOrder Q] [AddCommGroup Q]

/-- 板の両側に見える気配値の数。 -/
def shownLevels (b : Book (OrdMap K Q)) : Nat := ((b.get true).rest none).length + ((b.get false).rest none).length

/-- すべての板に見える気配値の数。 -/
def allLevels (st : State (OrdMap K Q)) : Nat := (st.book.map shownLevels).sum

end Books.Book2book
