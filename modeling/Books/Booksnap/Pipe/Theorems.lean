import Books.Booksnap.Pipe.Run
import Books.Xquo.Theorems

/-!
# 印字した写真の読み戻しの主定理
-/

namespace Books.Booksnap

open Books.Btree Books.Book Books.Book2book Books.Instr Books.Xquo Books.Lib

variable {K Q : Type} [LinearOrder K] [Zero K] [LinearOrder Q] [AddCommGroup Q]
variable {hash : List UInt8 → UInt32} {cfg : Conf} {C : Codec K Q} {r : Round K Q} {m : Tv}

theorem intCodec_oneLine : OneLine intCodec := by
  have hdigits : ∀ fuel k, newline ∉ natToStr fuel k := fun fuel k hm => absurd (natToStr_isdigit fuel k _ hm) (by decide)
  have hint : ∀ z, newline ∉ intToStr z := by
    intro z
    unfold intToStr
    split
    · exact fun hm => (List.mem_cons.mp hm).elim (by decide) (hdigits _ _)
    · exact hdigits _ _
  exact ⟨hint, hint⟩

/-- 銘柄の指定がなければ、初めの見出しはない。 -/
theorem distinct_nil (hash : List UInt8 → UInt32) : Distinct hash (initTable hash id []).book :=
  ⟨[], rfl, List.nodup_nil, fun _ hn => absurd hn List.not_mem_nil⟩

/-! ## `book2book` への入力 -/

theorem shows_eq (b : Named K Q) (m : Tv) : b.shows = !(bookQuos m b.book).isEmpty := by
  have hside : ∀ s, (Snap3.levels b.book s).isEmpty = ((Snap3.shownSide (b.book.get s)).map (lvl2Quo m s)).isEmpty := by
    intro s
    rw [Snap3.levels_ordMap, Snap3.lifted, List.isEmpty_map, List.isEmpty_map]
  rw [Named.shows, bookQuos]
  simp only [List.any_cons, List.any_nil, Bool.or_false, List.flatMap_cons, List.flatMap_nil, List.append_nil, hside]
  cases (Snap3.shownSide (b.book.get true)).map (lvl2Quo m true) with
  | nil => rfl
  | cons => rfl

theorem filter_blocks (r : Round K Q) : ((blocks r).filter fun b => !b.2.isEmpty) =
    (r.books.filter Named.shows).map fun b => (b.ins, bookQuos r.metr b.book) := by
  rw [blocks, List.filter_map]
  refine congrArg _ (List.filter_congr fun b _ => ?_)
  exact (shows_eq b r.metr).symm

theorem booksnap2_nil (hash : List UInt8 → UInt32) (cfg : Conf) (C : Codec K Q) : booksnap2 hash cfg C [] [] [] = some [] := by
  have hfinal : ((finalRound cfg (initState hash [] [] : State K Q)).flatMap (Round.text C)) = [] := by
    unfold finalRound
    split
    · rfl
    · rfl
  rw [booksnap2]
  exact congrArg some hfinal

/-- 再び撮る写真は、同じ行を印字する。 -/
theorem lines_again (hm : r.metr.toNat + cfg.inva.toNat < 2 ^ 64) (hn : r.metr ≠ natv) (h : Distinct hash (labels r.books)) :
    (⟨r.metr, expAll cfg r.metr (((blocks r).filter fun b => !b.2.isEmpty).map fun b =>
      b.2.foldl (badd cfg) (makeNamed (some b.1)))⟩ : Round K Q).lines C = r.lines C := by
  have hsnap : ∀ b : Named K Q, snap2 C r.metr (some b.ins) (bookExp ((bookQuos r.metr b.book).foldl (badd cfg)
      (makeNamed (some b.ins))).book (if cfg.inva ≠ 0 then r.metr else 0)) = snap2 C r.metr (some b.ins) b.book := by
    intro b
    rw [foldl_badd, shift_bookQuos, snap2_eq, snap2_eq]
    exact congrArg _ (bookQuos_congr (fun s k => visible_again hm hn b.book s k) r.metr)
  have hempty : ∀ b : Named K Q, b.shows = false → snap2 C r.metr (some b.ins) b.book = [] := by
    intro b hb
    rw [shows_eq b r.metr, Bool.not_eq_false', List.isEmpty_iff] at hb
    rw [snap2_eq, hb, List.map_nil]
  rw [filter_blocks, Round.lines, Round.lines, expAll, List.map_map, List.map_map, List.flatMap_map]
  have hcont : ∀ b ∈ r.books, snap2 C r.metr b.cont b.book = snap2 C r.metr (some b.ins) b.book :=
    fun b hb => by rw [(cont_eq h hb).1]
  rw [List.flatMap_congr hcont]
  refine Eq.trans (List.flatMap_congr (g := fun b : Named K Q => snap2 C r.metr (some b.ins) b.book) fun b _ => ?_) ?_
  · simp only [Function.comp_apply, foldl_badd, makeNamed]
    have hb := hsnap b
    rw [foldl_badd] at hb
    exact hb
  · -- 何も印字しない板を除いても、行は変わらない。
    generalize r.books = bs
    induction bs with
    | nil => rfl
    | cons b bs ih =>
        rw [List.flatMap_cons]
        cases hb : b.shows with
        | true => rw [List.filter_cons_of_pos hb, List.flatMap_cons, ih]
        | false => rw [List.filter_cons_of_neg (by rw [hb]; decide), ih, hempty b hb, List.nil_append]

end Books.Booksnap
