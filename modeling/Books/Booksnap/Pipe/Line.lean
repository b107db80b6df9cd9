import Books.Booksnap.Pipe.Spec
import Books.Xquo.Columns
import Books.Xquo.Time.Lemmas
import Mathlib.Data.List.TakeWhile

/-!
# 写真の一行
-/

set_option linter.unusedSectionVars false

namespace Books.Booksnap

open Books.Btree Books.Book Books.Book2book Books.Instr Books.Xquo Books.Lib

variable {K Q : Type} [LinearOrder K] [Zero K] [LinearOrder Q] [AddCommGroup Q]
variable {C : Codec K Q} {m t : Tv} {n : List UInt8} {p : K} {x : Q} {s : Bool} {l : UInt8} {q : BookQuo K Q}

/-! ## 見出し -/

theorem cstr_plain (h : (0 : UInt8) ∉ n) : cstr n = n :=
  List.takeWhile_eq_self_iff.mpr fun _ hc => decide_eq_true fun he => h (he ▸ hc)

theorem header_eq (h : (0 : UInt8) ∉ n) (m : Tv) : header m (some n) = stampText m ++ tab :: (n ++ [tab]) := by
  have hret : (tvtostr (Buf.init fun _ => 0) 256 m).2 = (stampText m).length := by rw [tvtostr_eq (by decide)]
  rw [header, hret, tvtostr_text (by decide), Option.elim_some, cstr_plain h, List.append_assoc, List.cons_append]

/-- 一秒以上の時刻は、時刻の列から読み戻せる。 -/
theorem strtotv_stampText (ht : 10 ^ 9 ≤ t.toNat) (rest : List UInt8) : strtotv (stampText t ++ tab :: rest) = t := by
  have hword := UInt64.toNat_lt t
  have hts : (t / nsecs).toNat = t.toNat / 10 ^ 9 := UInt64.toNat_div ..
  have hsecs : secsText t = Xquo.decimal (t / nsecs).toNat :=
    if_neg fun h => by rw [h, UInt64.toNat_zero] at hts; omega
  have hval : digitsVal (secsText t) = t.toNat / 10 ^ 9 := by rw [hsecs, digitsVal_decimal, hts]
  have hdigits : Digits (secsText t) := ⟨List.length_pos_iff.mp (secsText_pos t), by rw [hsecs]; exact decimal_isdigit _⟩
  have hnanos : fracNanos (some (padded 9 (t % nsecs).toNat)) = t.toNat % 10 ^ 9 := by
    rw [fracNanos, fracDigits, Option.getD_some, length_padded, digitsVal_padded, UInt64.toNat_mod]
    exact (Nat.mul_one _).trans (Nat.mod_mod _ _)
  have hfrac : ∀ c ∈ fracDigits (some (padded 9 (t % nsecs).toNat)), isdigit c = true := padded_isdigit _ _
  have hfull : some (padded 9 (t % nsecs).toNat) = some [] → halts tab = true := fun h => by
    have hlen := congrArg List.length (Option.some.inj h)
    rw [length_padded] at hlen
    exact absurd hlen (by decide)
  have hread : ¬ (digitsVal (secsText t) = 0 ∨ ¬ FracLen (some (padded 9 (t % nsecs).toNat))) :=
    not_or.mpr ⟨by omega, not_not.mpr (Or.inr (Or.inr (Or.inr (length_padded _ _))))⟩
  rw [show stampText t = timeText (secsText t) (some (padded 9 (t % nsecs).toNat)) from rfl,
    strtotv_text hdigits hfrac (by decide) (by decide) hfull, if_neg hread, hval, hnanos,
    Nat.min_eq_left (by omega), Nat.div_add_mod', UInt64.ofNat_toNat]

theorem newline_stampText (t : Tv) : newline ∉ stampText t := by
  have hdigit : ∀ {u : List UInt8}, (∀ c ∈ u, isdigit c = true) → newline ∉ u := fun h hm => absurd (h _ hm) (by decide)
  have hsecs : newline ∉ secsText t := by
    unfold secsText
    split
    · decide
    · exact hdigit (decimal_isdigit _)
  rw [stampText, List.mem_append, List.mem_cons]
  exact not_or.mpr ⟨hsecs, not_or.mpr ⟨by decide, hdigit (padded_isdigit _ _)⟩⟩

/-! ## 行の読み戻し -/

/-- 気配 `q` を、銘柄 `n` の行として印字する。 -/
def lineOf (C : Codec K Q) (n : List UInt8) (q : BookQuo K Q) : List UInt8 :=
  quoLine C (header q.t (some n)) (sideByte q.s) 50 q.p q.q

/-- 側 `s` のレベル 2 の気配。 -/
def lvl2Quo (m : Tv) (s : Bool) (y : K × Q) : BookQuo K Q := ⟨sideOf s, .lvl2, some y.1, y.2, m⟩

theorem lineOf_columns (h : (0 : UInt8) ∉ n) (m : Tv) (s : Bool) (y : K × Q) : lineOf C n (lvl2Quo m s y) =
    columns (stampText m) n [sideByte (sideOf s), 50] (C.pxtostr (some y.1)) (C.qxtostr y.2) := by
  rw [lineOf, quoLine, lvl2Quo, header_eq h, columns]
  simp only [List.append_assoc, List.cons_append, List.nil_append]

/-- 行 `line` は、銘柄 `n` の気配 `q` を表す。 -/
def Spells (C : Codec K Q) (line n : List UInt8) (q : BookQuo K Q) : Prop :=
  ∃ x, readXquo C line = some x ∧ x.q = q ∧ insOf line x = n

theorem spells_lineOf (hC : C.Exact) (hn : Plain n) (hm : 10 ^ 9 ≤ m.toNat) (s : Bool) (y : K × Q) :
    Spells C (lineOf C n (lvl2Quo m s y)) n (lvl2Quo m s y) := by
  have hS : tab ∉ [sideByte (sideOf s), 50] := by cases s <;> decide
  have hside : sideOfByte (charAt [sideByte (sideOf s), 50] 0) = sideOf s := by cases s <;> decide
  have hunk : sideOf s ≠ .unk := by cases s <;> decide
  have hlvl : lvlOfByte (charAt [sideByte (sideOf s), 50] ([sideByte (sideOf s), 50].length - 1)) = .lvl2 := by
    cases s <;> decide
  have hread := readXquo_columns (C := C) (T := stampText m) hn.1 hS (hC.px_tab y.1) (hC.qx_tab y.2) (List.cons_ne_nil _ _)
  have htv : strtotv (columns (stampText m) n [sideByte (sideOf s), 50] (C.pxtostr (some y.1)) (C.qxtostr y.2)) = m :=
    strtotv_stampText hm _
  have hne : (C.pxtostr (some y.1)).length ≠ 0 := fun h => hC.px_ne y.1 (List.eq_nil_of_length_eq_zero h)
  rw [hside, hlvl, htv, if_neg hunk, hC.px, if_neg hne, hC.qx] at hread
  refine ⟨_, (congrArg (readXquo C) (lineOf_columns hn.2.2 m s y)).trans hread, rfl, ?_⟩
  rw [lineOf_columns hn.2.2, insOf, columns, drop_after]
  exact List.take_left' rfl

/-- 印字した行には、終わりにだけ改行がある。 -/
theorem isLine_lineOf (hL : OneLine C) (hn : Plain n) (m : Tv) (s : Bool) (y : K × Q) :
    IsLine newline (lineOf C n (lvl2Quo m s y)) := by
  refine ⟨stampText m ++ tab :: (n ++ tab :: ([sideByte (sideOf s), 50] ++ tab :: (C.pxtostr (some y.1) ++ tab ::
    C.qxtostr y.2))), ?_, ?_⟩
  · have hS : newline ∉ [sideByte (sideOf s), 50] := by cases s <;> decide
    have htab : newline ≠ tab := by decide
    simp only [List.mem_append, List.mem_cons (a := newline) (b := tab), not_or]
    exact ⟨newline_stampText m, htab, hn.2.1, htab, hS, htab, hL.px y.1, htab, hL.qx y.2⟩
  · rw [lineOf_columns hn.2.2, columns]
    simp only [List.append_assoc, List.cons_append]

end Books.Booksnap
