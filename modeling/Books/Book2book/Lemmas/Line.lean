import Books.Xquo.Lemmas
import Books.Book2book.Code

/-!
# 出力の行の読み戻し
-/

set_option linter.unusedSectionVars false

namespace Books.Book2book

open Books.Btree Books.Book Books.Xquo

variable {K Q : Type} [LinearOrder K] [Zero K] [LinearOrder Q] [AddCommGroup Q]
variable {C : Codec K Q} {line pre : List UInt8} {x : Xquo K Q} {p : K} {y : Q}

/-- 前置きは、空か、タブで終わる。 -/
def PrefixOk (pre : List UInt8) : Prop := pre = [] ∨ ∃ u, pre = u ++ [tab]

/-- 長さ `n` の前置きは、`n` が 0 か、直前のバイトがタブであればよい。 -/
theorem prefixOk_take {n : Nat} (h : n = 0 ∨ charAt line (n - 1) = tab) : PrefixOk (line.take n) := by
  rcases Nat.eq_zero_or_pos n with rfl | hn
  · exact Or.inl rfl
  · have ht := h.resolve_left (by omega)
    have hlt := lt_length_of_tab ht
    refine Or.inr ⟨line.take (n - 1), ?_⟩
    have he : line.take (n - 1 + 1) = line.take (n - 1) ++ [line.get ⟨n - 1, hlt⟩] := List.take_succ_eq_append_getElem hlt
    rw [Nat.sub_add_cancel hn] at he
    rw [he, ← ht, charAt, List.getD_eq_getElem _ _ hlt]
    rfl

theorem instrOf_prfz {lp : Nat} (h : lp = 0 ∨ charAt line (lp - 1) = tab) :
    (instrOf line lp).1 + (instrOf line lp).2 + (decide ((instrOf line lp).2 ≠ 0)).toNat = 0 ∨
    charAt line ((instrOf line lp).1 + (instrOf line lp).2 + (decide ((instrOf line lp).2 ≠ 0)).toNat - 1) = tab := by
  cases lp with
  | zero => exact Or.inl rfl
  | succ lp =>
      have ht : charAt line lp = tab := h.resolve_left (Nat.succ_ne_zero lp)
      cases hm : memrchr line tab lp with
      | none =>
          have hi : instrOf line (lp + 1) = (0, lp) := by simp [instrOf, hm]
          simp only [hi]
          by_cases h0 : lp = 0
          · subst h0; exact Or.inl rfl
          · refine Or.inr ?_
            simp only [ne_eq, h0, not_false_eq_true, decide_true, Bool.toNat_true, Nat.zero_add, Nat.add_sub_cancel]
            exact ht
      | some j =>
          obtain ⟨hj, hjt⟩ := memrchr_some hm
          have hi : instrOf line (lp + 1) = (j + 1, lp - (j + 1)) := by simp [instrOf, hm]
          simp only [hi]
          refine Or.inr ?_
          by_cases h0 : lp - (j + 1) = 0
          · simp only [h0, Nat.add_zero, ne_eq, not_true_eq_false, decide_false, Bool.toNat_false, Nat.add_sub_cancel]
            exact hjt
          · simp only [ne_eq, h0, not_false_eq_true, decide_true, Bool.toNat_true, Nat.add_sub_cancel]
            rw [show j + 1 + (lp - (j + 1)) = lp by omega]
            exact ht

/-- 受け付けた行の前置きは、空か、タブで終わる。 -/
theorem prefixOk_prfx (hx : readXquo C line = some x) : PrefixOk (prfx line x) := by
  refine prefixOk_take ?_
  unfold readXquo at hx
  simp only at hx
  split at hx
  · cases hx; exact Or.inl rfl
  · split at hx
    · cases hx; exact Or.inl rfl
    · cases hx
    · split at hx
      · cases hx; exact Or.inl rfl
      · cases hx
        exact instrOf_prfz (rewind_start _)

/-! ## 行の読み戻し -/

theorem sideByte_sideOf (s : Bool) : sideByte (sideOf s) ≠ tab ∧ halts (sideByte (sideOf s)) = true ∧
    sideOfByte (sideByte (sideOf s)) = sideOf s ∧ sideOf s ≠ .unk := by
  cases s <;> decide

/-- `prq2` と `prq3` の行を読み戻すと、書いた気配が得られる。時刻は、前置きから読む。 -/
theorem readXquo_quoLine (hC : C.Exact) (hpre : PrefixOk pre) (s : Bool) (l : UInt8) (p : K) (y : Q) :
    ∃ i z, readXquo C (quoLine C pre (sideByte (sideOf s)) l (some p) y) =
      some ⟨⟨sideOf s, lvlOfByte l, some p, y, strtotv (pre ++ [sideByte (sideOf s)])⟩, i, z⟩ := by
  obtain ⟨hs, hh, hside, hunk⟩ := sideByte_sideOf s
  have hB : tab ∉ C.qxtostr y ++ [newline] := by
    rw [List.mem_append, List.mem_singleton]
    rintro (h | h)
    · exact hC.qx_tab y h
    · exact absurd h (by decide)
  -- 行を、タブで区切って書き直す。
  set A := pre ++ [sideByte (sideOf s), l] with hA
  set P := C.pxtostr (some p) with hP
  set B := C.qxtostr y ++ [newline] with hBdef
  have hline : quoLine C pre (sideByte (sideOf s)) l (some p) y = A ++ tab :: (P ++ tab :: B) := by
    simp [quoLine, hA, hP, hBdef]
  have hline₂ : A ++ tab :: (P ++ tab :: B) = (A ++ tab :: P) ++ tab :: B := by simp
  have hAlen : A.length = pre.length + 1 + 1 := by simp [hA]
  have h₁ : memrchr (A ++ tab :: (P ++ tab :: B)) tab (A ++ tab :: (P ++ tab :: B)).length =
      some (A ++ tab :: P).length := by
    rw [hline₂]; exact memrchr_last hB
  have h₂ : memrchr (A ++ tab :: (P ++ tab :: B)) tab (A ++ tab :: P).length = some (pre.length + 1 + 1) := by
    rw [hline₂, memrchr_append_left (Nat.le_refl _), memrchr_last (hC.px_tab p), hAlen]
  have hq : (A ++ tab :: (P ++ tab :: B)).drop ((A ++ tab :: P).length + 1) = B := by
    rw [hline₂, show (A ++ tab :: P) ++ tab :: B = ((A ++ tab :: P) ++ [tab]) ++ B by simp]
    exact List.drop_left' List.length_append
  have hp : (A ++ tab :: (P ++ tab :: B)).drop (pre.length + 1 + 2) = P ++ tab :: B := by
    rw [show A ++ tab :: (P ++ tab :: B) = (A ++ [tab]) ++ (P ++ tab :: B) by simp]
    exact List.drop_left' (by simp [hAlen])
  have hlt : charAt (A ++ tab :: (P ++ tab :: B)) (pre.length + 1) = l := by
    rw [hA, List.append_assoc]; exact charAt_append_right 1
  have hst : charAt (A ++ tab :: (P ++ tab :: B)) pre.length = sideByte (sideOf s) := by
    rw [hA, List.append_assoc]; exact charAt_append_right 0
  have hrew : rewind (A ++ tab :: (P ++ tab :: B)) (pre.length + 1) = pre.length := by
    refine rewind_eq (Nat.le_succ _) ?_ (fun j h₁ h₂ => ?_)
    · rcases hpre with rfl | ⟨u, rfl⟩
      · exact Or.inl rfl
      · refine Or.inr ?_
        rw [hA, List.append_assoc, charAt_append_left (by simp)]
        rw [List.length_append, List.length_singleton, Nat.add_sub_cancel]
        exact charAt_append_right (v := [tab]) 0
    · obtain rfl : j = pre.length := by omega
      rw [hst]; exact hs
  have htv : strtotv (A ++ tab :: (P ++ tab :: B)) = strtotv (pre ++ [sideByte (sideOf s)]) := by
    rw [hA, List.append_assoc]
    exact strtotv_halts hh pre _
  have hne : P.length ≠ 0 := fun h => hC.px_ne p (List.eq_nil_of_length_eq_zero h)
  refine ⟨(instrOf (A ++ tab :: (P ++ tab :: B)) pre.length).1, (instrOf (A ++ tab :: (P ++ tab :: B)) pre.length).2, ?_⟩
  rw [hline]
  simp only [readXquo, h₁, h₂, hq, hp, hlt, hrew, hst, hside, htv, if_neg hunk]
  rw [hBdef, hC.qx, hP, hC.px, if_neg (by rw [← hP]; exact hne)]

end Books.Book2book
