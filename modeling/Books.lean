import Books.Lib.Arr
import Books.Lib.Bytes
import Books.Memrchr.Theorems
import Books.Lib.Word
import Books.Hash.Theorems
import Books.Hash.Routing
import Books.Btree.Lemmas.NodeSplit
import Books.Btree.Lemmas.Cells
import Books.Btree.Lemmas.Put
import Books.Btree.Lemmas.Run
import Books.Btree.Lemmas.Levels
import Books.Btree.Theorems
import Books.Book.Theorems
import Books.Book.Projection
import Books.Book.Refine.Theorems
import Books.Book2book.Refine.Theorems
import Books.Btree.Lemmas.Values
import Books.Btree.Lemmas.PutAgain
import Books.Btree.Nodes.Theorems
import Books.Book.Lemmas.Real
import Books.Xquo.Columns
import Books.Xquo.Theorems
import Books.Xquo.Time.Theorems
import Books.Xquo.Bounds.Theorems
import Books.Book2book.Lemmas.Mirror
import Books.Book2book.Lemmas.Modes
import Books.Book2book.Theorems
import Books.Book2book.Amortised.Theorems
import Books.Booksnap.Agree.Theorems
import Books.Booksnap.Pipe.Theorems
import Books.Instr.Blocks
import Books.Booksnap.Theorems
import Books.Booksnap.Options.Theorems
import Books.Booksnap.Snap3.Theorems
import Books.Booksnap.Lemmas.Content
import Books.Book.Lemmas.Acts
import Books.Print.Theorems
import Books.Instr.Theorems
import Books.Btree.Lemmas.IterRun
import Books.Btree.Lemmas.SplitMarks
import Books.Lib.Field
import Books.Lib.Packed
import Books.Lib.HalfUp
import Books.Dfp754.Code
import Books.Dfp754.Spec
import Books.Dfp754.Lemmas.Declet
import Books.Dfp754.Lemmas.Bid
import Books.Dfp754.Lemmas.Mirror
import Books.Dfp754.Lemmas.DpdPack
import Books.Dfp754.Lemmas.Dpd
import Books.Dfp754.Lemmas.DpdRead
import Books.Dfp754.Lemmas.DpdBack
import Books.Dfp754.Lemmas.Parse
import Books.Dfp754.Lemmas.Round
import Books.Dfp754.Lemmas.RoundText
import Books.Dfp754.Lemmas.Strto
import Books.Dfp754.Lemmas.Correct
import Books.Dfp754.Lemmas.Quantize
import Books.Dfp754.Lemmas.QuantizeDpd
import Books.Dfp754.Lemmas.QuantizeAlike
import Books.Dfp754.Lemmas.Codec
import Books.Dfp754.Lemmas.Tostr
import Books.Dfp754.Lemmas.Length
import Books.Dfp754.Lemmas.DpdTostr
import Books.Dfp754.Theorems
import Books.Dfp754.Builds
import Books.Dfp754.Scalbn
import Books.Dfp754.Quantize32
import Books.Consol.Spec
import Books.Consol.Lemmas.Fill
import Books.Consol.Lemmas.Quotes
import Books.Consol.Lemmas.Pdo
import Books.Consol.Lemmas.Ordered
import Books.Consol.Theorems
import Books.Lib.Depth
import Books.Consol.Theorems
import Books.Xquo.Time.Lemmas
import Books.Xquo.Bounds.Lemmas
