import Books.Booksnap.Printers
import Books.Booksnap.Spec
import Books.Lib.Lines
import Books.Xquo.Spec

/-!
# 印字した写真の読み戻し

`booksnap -2` を、標準入力のバイト列から標準出力のバイト列への関数とみなす。一度の写真で印字したバイト列を、`book2book` か、もう一度
`booksnap -2` に読ませる。
-/

namespace Books.Booksnap

open Books.Btree Books.Book Books.Instr Books.Xquo Books.Lib

variable {K Q : Type} [LinearOrder K] [Zero K] [LinearOrder Q] [AddCommGroup Q]

/-- 一度の写真で、`snap2` が印字する行の列。 -/
def Round.lines (C : Codec K Q) (r : Round K Q) : List (List UInt8) := r.books.flatMap fun b => snap2 C r.metr b.cont b.book

/-- 一度の写真で印字するバイト列。 -/
def Round.text (C : Codec K Q) (r : Round K Q) : List UInt8 := (r.lines C).flatten

/-- `booksnap -2`。標準入力と `--stamps` のファイルを行に分けて読む。 -/
def booksnap2 (hash : List UInt8 → UInt32) (cfg : Conf) (C : Codec K Q) (sfil : List UInt8) (instr : List (List UInt8))
    (stdin : List UInt8) : Option (List UInt8) :=
  (main hash cfg C (getlines newline sfil) instr (getlines newline stdin)).map fun rs => rs.flatMap (Round.text C)

/-- 書いた文字列に改行がない。 -/
structure OneLine (C : Codec K Q) : Prop where
  px : ∀ p, newline ∉ C.pxtostr (some p)
  qx : ∀ x, newline ∉ C.qxtostr x

/-- 見える値の時刻を `m` にした値。 -/
def stampedAt (m : Tv) (v : BtreeVal Q) : BtreeVal Q := if v.nilP then .nil else ⟨v.q, m⟩

/-- 板に、印字する気配がある。 -/
def Named.shows (b : Named K Q) : Bool := [true, false].any fun s => !(Snap3.levels b.book s).isEmpty

/-- 板 `b` の銘柄。 -/
def Named.ins (b : Named K Q) : List UInt8 := b.cont.getD []

/-- 板の見出し `cs` は、タブも改行も NUL も含まない、ハッシュの異なる銘柄である。 -/
def Distinct (hash : List UInt8 → UInt32) (cs : List (Option (List UInt8))) : Prop :=
  ∃ ns : List (List UInt8), cs = ns.map some ∧ (ns.map hash).Nodup ∧ ∀ n ∈ ns, Plain n

end Books.Booksnap
