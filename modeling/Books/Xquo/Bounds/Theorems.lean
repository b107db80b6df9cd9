import Books.Xquo.Bounds.Lemmas
import Books.Xquo.Bounds.Spec

/-!
# 行の範囲の主定理
-/

namespace Books.Xquo

open Books.Btree Books.Book Books.Lib Books.Dfp754

variable {line : List UInt8} {form : Bcd 64 → BitVec 64} {fuel l₁ m e₁ e₂ : Nat} {b₁ b₂ : Bcd 64}

/-! ## 読み取りの場合分け -/

theorem readXquoAt_bare (h₁ : memrchr line tab line.length = none) : readXquoAt line form fuel = .ok none := by
  simp only [readXquoAt, strtotvAt_eq, ok_bind, memrchrAt_eq tab (Nat.le_refl _), h₁, Option.map_none]
  rfl

section Quantity
variable (h₁ : memrchr line tab line.length = some l₁)
include h₁

theorem tab_lt : l₁ < line.length := (memrchr_some h₁).1

theorem readXquoAt_qtySpin (hq : strtobcd64At line fuel (l₁ + 1 : Nat) = .error .spin) :
    readXquoAt line form fuel = .error .spin := by
  simp only [readXquoAt, strtotvAt_eq, ok_bind, memrchrAt_eq tab (Nat.le_refl _), h₁, Option.map_some, ← Int.natCast_succ, hq,
    error_bind]

variable (hq : strtobcd64At line fuel (l₁ + 1 : Nat) = .ok (b₁, (e₁ : Int)))
include hq

theorem readXquoAt_noPrice (h₂ : memrchr line tab l₁ = none) : readXquoAt line form fuel = .ok none := by
  have hle := Nat.le_of_lt (tab_lt h₁)
  simp only [readXquoAt, strtotvAt_eq, ok_bind, memrchrAt_eq tab (Nat.le_refl _), h₁, Option.map_some, ← Int.natCast_succ, hq,
    Int.toNat_natCast, memrchrAt_eq tab hle, h₂, Option.map_none]
  rfl

theorem readXquoAt_pxSpin {l₂ : Nat} (h₂ : memrchr line tab l₁ = some l₂)
    (hp : strtobcd64At line fuel (l₂ + 1 : Nat) = .error .spin) : readXquoAt line form fuel = .error .spin := by
  have hle := Nat.le_of_lt (tab_lt h₁)
  simp only [readXquoAt, strtotvAt_eq, ok_bind, memrchrAt_eq tab (Nat.le_refl _), h₁, Option.map_some, ← Int.natCast_succ, hq,
    Int.toNat_natCast, memrchrAt_eq tab hle, h₂, hp, error_bind]

/-- 気配値の前のタブが行の初めにあると、行の前のバイトを読む。 -/
theorem readXquoAt_before (h₂ : memrchr line tab l₁ = some 0) (hp : strtobcd64At line fuel (0 + 1 : Nat) = .ok (b₂, (e₂ : Int))) :
    readXquoAt line form fuel = .error (.outside (-1)) := by
  have hle := Nat.le_of_lt (tab_lt h₁)
  have hout : peek 0 line (((0 : Nat) : Int) - 1) = .error (.outside (-1)) := peek_neg (by decide)
  simp only [readXquoAt, strtotvAt_eq, ok_bind, memrchrAt_eq tab (Nat.le_refl _), h₁, Option.map_some, ← Int.natCast_succ, hq,
    Int.toNat_natCast, memrchrAt_eq tab hle, h₂, hp, hout, error_bind]

theorem readXquoAt_read (h₂ : memrchr line tab l₁ = some (m + 1))
    (hp : strtobcd64At line fuel (m + 1 + 1 : Nat) = .ok (b₂, (e₂ : Int))) :
    readXquoAt line form fuel = .ok (if sideOfByte (charAt line (rewind line m)) = .unk then none
      else some ⟨⟨sideOfByte (charAt line (rewind line m)), lvlOfByte (charAt line m),
        if e₂ ≤ m + 1 + 1 then none else some (form b₂), form b₁, strtotv line⟩,
        (instrOf line (rewind line m)).1, (instrOf line (rewind line m)).2⟩) := by
  have hle := Nat.le_of_lt (tab_lt h₁)
  have hm : m ≤ line.length := by
    have := (memrchr_some h₂).1
    omega
  have hr := Nat.le_trans (rewind_le line m) hm
  have hpred : ((m + 1 : Nat) : Int) - 1 = m := by omega
  have hon : ((e₂ : Int) ≤ (m + 1 + 1 : Nat)) = (e₂ ≤ m + 1 + 1) := propext Int.ofNat_le
  simp only [readXquoAt, strtotvAt_eq, ok_bind, memrchrAt_eq tab (Nat.le_refl _), h₁, Option.map_some, ← Int.natCast_succ, hq,
    Int.toNat_natCast, memrchrAt_eq tab hle, h₂, hp, hpred, peek_eq hm, rewindAt_eq hm, peek_eq hr, ← charAt_eq_headD,
    (instrAt_eq hr).1, hon, pure_ok]
  split <;> rfl

end Quantity

/-- 二つのタブがあり、数量も気配値も読み終えた行。 -/
structure Parsed (line : List UInt8) (fuel l₁ l₂ : Nat) (b₁ b₂ : Bcd 64) (e₁ e₂ : Nat) : Prop where
  qtyTab : memrchr line tab line.length = some l₁
  pxTab : memrchr line tab l₁ = some l₂
  qty : strtobcd64 fuel (line.drop (l₁ + 1)) = some (b₁, line.drop e₁)
  px : strtobcd64 fuel (line.drop (l₂ + 1)) = some (b₂, line.drop e₂)
  qtyAt : strtobcd64At line fuel (l₁ + 1 : Nat) = .ok (b₁, (e₁ : Int))
  pxAt : strtobcd64At line fuel (l₂ + 1 : Nat) = .ok (b₂, (e₂ : Int))
  pxEnd : e₂ ≤ line.length

/-- 読み取りは、丸めの途中で終わらないか、タブが二つないか、二つの数を読み終えるかである。 -/
theorem readXquoAt_cases (line : List UInt8) (form : Bcd 64 → BitVec 64) (fuel : Nat) :
    readXquoAt line form fuel = .error .spin ∨
    (readXquoAt line form fuel = .ok none ∧ (memrchr line tab line.length).bind (memrchr line tab) = none) ∨
    ∃ l₁ l₂ b₁ b₂ e₁ e₂, Parsed line fuel l₁ l₂ b₁ b₂ e₁ e₂ := by
  cases h₁ : memrchr line tab line.length with
  | none => exact Or.inr (Or.inl ⟨readXquoAt_bare h₁, rfl⟩)
  | some l₁ =>
      have hl₁ : l₁ + 1 ≤ line.length := tab_lt h₁
      rcases strtobcd64At_cases fuel hl₁ with ⟨b₁, e₁, -, hq, hqAt⟩ | ⟨-, hqAt⟩
      · cases h₂ : memrchr line tab l₁ with
        | none => exact Or.inr (Or.inl ⟨readXquoAt_noPrice h₁ hqAt h₂, h₂⟩)
        | some l₂ =>
            have hl₂ : l₂ + 1 ≤ line.length := Nat.le_trans (memrchr_some h₂).1 (Nat.le_of_lt hl₁)
            rcases strtobcd64At_cases fuel hl₂ with ⟨b₂, e₂, he₂, hp, hpAt⟩ | ⟨-, hpAt⟩
            · exact Or.inr (Or.inr ⟨l₁, l₂, b₁, b₂, e₁, e₂, h₁, h₂, hq, hp, hqAt, hpAt, he₂⟩)
            · exact Or.inl (readXquoAt_pxSpin h₁ hqAt h₂ hpAt)
      · exact Or.inl (readXquoAt_qtySpin h₁ hqAt)

/-! ## 並びで読む関数との対応 -/

theorem readXquo_noTabs (C : Codec (BitVec 64) (BitVec 64)) (h : (memrchr line tab line.length).bind (memrchr line tab) = none) :
    readXquo C line = some notAXquo := by
  cases h₁ : memrchr line tab line.length with
  | none => simp only [readXquo, h₁]
  | some l₁ =>
      rw [h₁, Option.bind_some] at h
      simp only [readXquo, h₁, h]

/-- 位置で読む `read_xquo` が返す気配は、並びで読む `read_xquo` の気配である。行の外を読むのは、並びで読む方が `none` を
返すときに限る。 -/
theorem readXquoAt_refines {C : Codec (BitVec 64) (BitVec 64)} (hC : C.Words form fuel) :
    (∀ r, readXquoAt line form fuel = .ok r → readXquo C line = some (r.elim notAXquo XquoAt.toXquo)) ∧
    ∀ i, readXquoAt line form fuel = .error (.outside i) → readXquo C line = none := by
  rcases readXquoAt_cases line form fuel with hspin | ⟨hnone, htabs⟩ | ⟨l₁, l₂, b₁, b₂, e₁, e₂, h⟩
  · rw [hspin]
    exact ⟨fun _ hr => (by cases hr), fun _ hi => (by cases hi)⟩
  · rw [hnone]
    refine ⟨fun r hr => ?_, fun _ hi => (by cases hi)⟩
    cases hr
    exact readXquo_noTabs C htabs
  · cases l₂ with
    | zero =>
        rw [readXquoAt_before h.qtyTab h.qtyAt h.pxTab h.pxAt]
        refine ⟨fun _ hr => (by cases hr), fun i _ => ?_⟩
        simp only [readXquo, h.qtyTab, h.pxTab]
    | succ m =>
        rw [readXquoAt_read h.qtyTab h.qtyAt h.pxTab h.pxAt]
        refine ⟨fun r hr => ?_, fun _ hi => (by cases hi)⟩
        have hend := h.pxEnd
        have htab := (memrchr_some h.pxTab).1
        have hlen := tab_lt h.qtyTab
        have hon : ((line.drop (m + 1 + 1)).length - (line.drop e₂).length = 0) = (e₂ ≤ m + 1 + 1) := by
          rw [List.length_drop, List.length_drop]
          exact propext (by omega)
        cases hr
        simp only [readXquo, h.qtyTab, h.pxTab, hC.px _ _ _ h.px, hC.qx _ _ _ h.qty, hon]
        split <;> rfl

theorem bidCodec_words (fuel : Nat) : (bidCodec fuel).Words bcd64tobid fuel where
  px s b rest h := by simp only [bidCodec, strtobid64, h, Option.map_some, Option.elim_some]
  qx s b rest h := by simp only [bidCodec, strtobid64, h, Option.map_some, Option.elim_some]

/-! ## 行の範囲 -/

/-- 二つのタブだけの行では、数量も気配値も読み終えられるなら、行の前のバイトを読む。 -/
theorem bare_reads_before (h : BareQuote line) (form : Bcd 64 → BitVec 64) :
    ∃ fuel, readXquoAt line form fuel = .error (.outside (-1)) := by
  obtain ⟨P, X, rfl, hP, hX, hqty, hpx⟩ := h
  have hcons : tab :: (P ++ tab :: X) = (tab :: P) ++ tab :: X := rfl
  have h₁ : memrchr (tab :: (P ++ tab :: X)) tab (tab :: (P ++ tab :: X)).length = some (P.length + 1) := by
    rw [hcons, memrchr_last hX, List.length_cons]
  have h₂ : memrchr (tab :: (P ++ tab :: X)) tab (P.length + 1) = some 0 := by
    rw [hcons, memrchr_append_left (Nat.le_of_eq (List.length_cons ..).symm)]
    exact memrchr_last (A := []) hP
  have hdrop : (tab :: (P ++ tab :: X)).drop (P.length + 1 + 1) = X := by
    rw [hcons]
    exact drop_after (tab :: P) tab X
  have hle : P.length + 1 + 1 ≤ (tab :: (P ++ tab :: X)).length := by simp
  have hle₀ : 0 + 1 ≤ (tab :: (P ++ tab :: X)).length := by simp
  obtain ⟨n₁, hn₁⟩ := reads_at hle (by rw [hdrop]; exact hqty)
  obtain ⟨n₂, hn₂⟩ := reads_at hle₀ hpx
  obtain ⟨b₁, e₁, hq⟩ := hn₁ (max n₁ n₂) (Nat.le_max_left _ _)
  obtain ⟨b₂, e₂, hp⟩ := hn₂ (max n₁ n₂) (Nat.le_max_right _ _)
  exact ⟨max n₁ n₂, readXquoAt_before h₁ hq h₂ hp⟩

/-- 行の外を読むのは、二つのタブだけの行に限る。 -/
theorem bare_of_before (h : Parsed line fuel l₁ 0 b₁ b₂ e₁ e₂) : BareQuote line := by
  obtain ⟨hline, hX⟩ := memrchr_split (Nat.le_refl _) h.qtyTab
  have hle := Nat.le_of_lt (tab_lt h.qtyTab)
  obtain ⟨-, hP⟩ := memrchr_split hle h.pxTab
  obtain ⟨hlt, hc⟩ := memrchr_some h.pxTab
  rw [List.take_length] at hX
  have hhead : line.take l₁ = tab :: (line.take l₁).drop 1 := by
    have hpos : 0 < (line.take l₁).length := by
      rw [List.length_take]
      omega
    rw [charAt, List.getD_eq_getElem _ _ (by omega)] at hc
    have hcons := List.drop_eq_getElem_cons hpos
    rw [List.drop_zero, List.getElem_take, hc] at hcons
    exact hcons
  have hbare : line = tab :: ((line.take l₁).drop 1 ++ tab :: line.drop (l₁ + 1)) := by
    rw [← List.cons_append, ← hhead]
    exact hline
  have hqty := not_stuck (by rw [h.qty]; exact Option.some_ne_none _)
  have hpx := not_stuck (by rw [h.px]; exact Option.some_ne_none _)
  have htail : line.drop (0 + 1) = (line.take l₁).drop 1 ++ tab :: line.drop (l₁ + 1) := by
    conv_lhs => rw [hbare]
    rfl
  rw [htail] at hpx
  exact ⟨(line.take l₁).drop 1, line.drop (l₁ + 1), hbare, hP, hX, hqty, hpx⟩

/-- `read_xquo` が行の外を読むのは、タブで始まり、他にタブが一つだけある行で、数量と気配値を読み終えられるときに限る。 -/
theorem readsInside_iff (form : Bcd 64 → BitVec 64) (line : List UInt8) : ReadsInside form line ↔ ¬ BareQuote line := by
  constructor
  · intro h hbare
    obtain ⟨fuel, hout⟩ := bare_reads_before hbare form
    exact (h fuel).1 (-1) hout
  · intro hbare fuel
    rcases readXquoAt_cases line form fuel with hspin | ⟨hnone, -⟩ | ⟨l₁, l₂, b₁, b₂, e₁, e₂, h⟩
    · rw [hspin]
      exact ⟨inside_spin, fun x he => by cases he⟩
    · rw [hnone]
      exact ⟨inside_ok none, fun x he => by cases he⟩
    · cases l₂ with
      | zero => exact absurd (bare_of_before h) hbare
      | succ m =>
          rw [readXquoAt_read h.qtyTab h.qtyAt h.pxTab h.pxAt]
          refine ⟨inside_ok _, fun x he => ?_⟩
          have hm : m ≤ line.length := by
            have htab := (memrchr_some h.pxTab).1
            have hlen := tab_lt h.qtyTab
            omega
          have hins := (instrAt_eq (Nat.le_trans (rewind_le line m) hm)).2
          split at he
          · cases he
          · cases he
            exact ⟨by simp, by simp only; omega, by simp, by simp only; omega⟩

/-- 行 `⇥5⇥1` では、行の前のバイトを読む。 -/
theorem bare_line_escapes : ¬ ReadsInside bcd64tobid [9, 53, 9, 49, 10] := by
  intro h
  exact (h 1).1 (-1) (by decide)

end Books.Xquo
