import Books.Book2book.Lemmas.Routing
import Books.Booksnap.Lemmas.Routing
import Books.Xquo.Theorems

/-!
# 振り分けの主定理
-/

namespace Books.Instr

open Books.Btree Books.Book Books.Xquo

variable {K Q : Type} [LinearOrder K] [Zero K] [LinearOrder Q] [AddCommGroup Q]

/-- 板の番号が必ず代入され、行が銘柄の板だけに加わるのは、銘柄の指定がないか、すべてを受ける指定のほかにもあるか、番号を使う
行に至らないときで、そのときに限る。 -/
theorem routes_iff (T : Bool → Type) [BTree T K Q] (hash : List UInt8 → UInt32) (C : Codec K Q) (m : Book2book.Prq)
    (cfg : Booksnap.Conf) (sfil instr lines : List (List UInt8)) :
    (Book2book.Routes T hash C m instr lines ↔ instr = [] ∨ (∃ n ∈ instr, catchAll n = false) ∨
      insList C (fun x => x.q.s ≠ .unk) (readable C lines) = []) ∧
    (Booksnap.Routes hash cfg C sfil instr lines ↔ instr = [] ∨ (∃ n ∈ instr, catchAll n = false) ∨
      ∀ t ∈ (Booksnap.acceptedTimes C (readable C lines)).head?, Booksnap.start cfg (Booksnap.initClock sfil) t = none) :=
  ⟨Book2book.book2book_routes_iff, Booksnap.booksnap_routes_iff⟩

/-- `--instr '*'` だけを指定すると、一行目の板の番号が代入されない。 -/
theorem star_unrouted :
    ¬ Book2book.Routes (OrdMap Int Int) (fun _ => 0) intCodec .prq1 [[42]] [askLine] ∧
    ¬ Booksnap.Routes (fun _ => 0) ⟨nsecs, 0, 0, false⟩ intCodec [] [[42]] [askLine] := by
  have hnone : ¬ ∃ n ∈ [[(42 : UInt8)]], catchAll n = false := by decide
  constructor
  · rw [Book2book.book2book_routes_iff]
    rintro (hnil | hname | hidle)
    · cases hnil
    · exact hnone hname
    · exact absurd hidle (by decide)
  · rw [Booksnap.booksnap_routes_iff]
    rintro (hnil | hname | hidle)
    · cases hnil
    · exact hnone hname
    · have hstart : (Booksnap.start ⟨nsecs, 0, 0, false⟩ (Booksnap.initClock []) nsecs).isSome = true := by decide
      have hhead : (Booksnap.acceptedTimes intCodec (readable intCodec [askLine])).head? = some nsecs := by decide
      rw [hidle nsecs hhead] at hstart
      cases hstart

end Books.Instr
