import Books.Hash.Theorems
import Books.Book2book.Lemmas.Routing
import Books.Booksnap.Lemmas.Routing
import Books.Xquo.Lemmas

/-!
# ハッシュによる振り分け

銘柄を `hash` で比べる板が、銘柄そのものの板であることを示す。
-/

namespace Books.Hash

open Books.Btree Books.Book Books.Xquo Books.Instr

/-- `hx_t` としての値。 -/
def hx (M : Machine) (ins : List UInt8) : UInt32 :=
  match hash M ins with
  | .ok x => UInt32.ofBitVec x
  | .error _ => 0

/-- どの二つの銘柄も、同じ長さで、まとまり `k` のほかで等しい。 -/
def Alike (k : Nat) (ns : Set (List UInt8)) : Prop := ∀ a ∈ ns, ∀ b ∈ ns, AgreeOff k a b

theorem hx_injOn {M : Machine} {k : Nat} {ns : Set (List UInt8)} (h : Alike k ns) : Set.InjOn (hx M) ns := by
  intro a ha b hb he
  obtain ⟨align, hrun, hal⟩ := hash_dispatch M a
  obtain ⟨align', hrun', hal'⟩ := hash_dispatch M b
  rw [hx, hx, hrun, hrun', endianAlign_eq M a align hal, endianAlign_eq M b align' hal'] at he
  exact xxh32_inj (h a ha b hb) (congrArg UInt32.toBitVec he)

section Programs
variable {K Q : Type} [LinearOrder K] [Zero K] [LinearOrder Q] [AddCommGroup Q]

/-- `book2book` と `booksnap` のどの板も、その銘柄の行だけから決まる。 -/
def OwnBooks (T : Bool → Type) [BTree T K Q] (hash : List UInt8 → UInt32) (C : Codec K Q) (m : Book2book.Prq)
    (cfg : Booksnap.Conf) (sfil instr lines : List (List UInt8)) : Prop :=
  (∀ out, ∀ st : Book2book.State T, Book2book.mainLoop hash C m (Book2book.initState hash instr) lines = some (st, out) →
    ∀ (k : Nat) b, st.book[k]? = some b → Book2book.advances m makeBook
      (ownQuos C (fun x => x.q.s ≠ .unk) instr (insList C (fun x => x.q.s ≠ .unk) lines) k lines) = some b) ∧
  (∀ rs, ∀ st : Booksnap.State K Q,
    Booksnap.mainLoop hash cfg C (Booksnap.initState hash sfil instr) lines = some (st, rs) → ∀ k,
    Booksnap.bookAt st k = bookRun (Booksnap.ownOps hash cfg C instr (insList C Booksnap.Accepted lines) k
      (Booksnap.initState hash sfil instr) lines))

/-- 銘柄が一つの語か一バイトでだけ区別されるなら、ハッシュで比べる板は、銘柄の板である。 -/
theorem alike_names_own_books (T : Bool → Type) [BTree T K Q] (M : Machine) (C : Codec K Q) (m : Book2book.Prq)
    (cfg : Booksnap.Conf) (sfil instr lines : List (List UInt8)) (j : Nat)
    (h : Alike j (names instr (insList C (fun x => x.q.s ≠ .unk) lines))) :
    OwnBooks T (hx M) C m cfg sfil instr lines := by
  have hinj : Set.InjOn (hx M) (names instr (insList C (fun x => x.q.s ≠ .unk) lines)) := hx_injOn h
  constructor
  · intro out st hrun k b hb
    have hfollows : (Book2book.initState (hx M) instr : Book2book.State T).Follows (hx M) instr [] := follows_initTable
    have hown := Book2book.books_own hinj hfollows (by rw [List.nil_append]) hrun k
    rw [Book2book.initState_book, hb] at hown
    exact hown
  · intro rs st hrun k
    -- `booksnap` が受け付ける行は、側の分かる行のうち、時刻のあるものである。
    have hsub : names instr (insList C Booksnap.Accepted lines) ⊆ names instr (insList C (fun x => x.q.s ≠ .unk) lines) := by
      rintro n (hn | hn)
      · exact .inl hn
      · refine .inr ?_
        obtain ⟨l, hl, he⟩ := List.mem_filterMap.mp hn
        refine List.mem_filterMap.mpr ⟨l, hl, ?_⟩
        obtain ⟨x, hx, he⟩ := Option.bind_eq_some_iff.mp he
        rw [hx, Option.bind_some]
        split at he
        · rename_i hacc
          rw [if_pos hacc.1]
          exact he
        · cases he
    have hfollows : (Booksnap.initState (hx M) sfil instr : Booksnap.State K Q).tab.Follows (hx M) instr [] := follows_initTable
    rw [Booksnap.books_own (hinj.mono hsub) hfollows (by rw [List.nil_append]) hrun k, Booksnap.bookAt_initState]
    rfl

end Programs

/-- `ESH6` の行と `ESM6` の行。 -/
def monthLines : List (List UInt8) :=
  [[49, 9, 69, 83, 72, 54, 9, 65, 50, 9, 53, 9, 49, 10], [49, 9, 69, 83, 77, 54, 9, 65, 50, 9, 55, 9, 49, 10]]

theorem alike_names_own_books_months :
    Alike 0 (names [] (insList intCodec (fun x => x.q.s ≠ .unk) monthLines)) ∧
    OwnBooks (OrdMap Int Int) (hx ⟨.big, false, 2⟩) intCodec .prq1 ⟨nsecs, 0, 0, false⟩ [] [] monthLines := by
  have hins : insList intCodec (fun x => x.q.s ≠ .unk) monthLines = [[69, 83, 72, 54], [69, 83, 77, 54]] := by decide
  have hmem : ∀ n ∈ names [] (insList intCodec (fun x => x.q.s ≠ .unk) monthLines),
      n = [69, 83, 72, 54] ∨ n = [69, 83, 77, 54] := by
    rintro n (⟨hn, -⟩ | hn)
    · exact absurd hn List.not_mem_nil
    · rw [hins] at hn
      simpa using hn
  have halike : Alike 0 (names [] (insList intCodec (fun x => x.q.s ≠ .unk) monthLines)) := by
    intro a ha b hb
    rcases hmem a ha with rfl | rfl <;> rcases hmem b hb with rfl | rfl <;> exact agreeOff_four
  exact ⟨halike, alike_names_own_books (OrdMap Int Int) ⟨.big, false, 2⟩ intCodec .prq1 ⟨nsecs, 0, 0, false⟩ [] [] monthLines
    0 halike⟩

end Books.Hash
