import Books.Xquo.Code
import Mathlib.Data.List.GetD

/-!
# 行の読み書き

`prq2` と `prq3` の形の行を `read_xquo` で読み戻すと、元の気配が得られる。
-/

set_option linter.unusedSectionVars false

namespace Books.Xquo

open Books.Btree Books.Book

variable {K Q : Type} [Zero K] [Zero Q]
variable {line u v w : List UInt8} {c : UInt8} {i j n lp : Nat}

/-! ## バイトの位置 -/

theorem charAt_append_left (h : i < u.length) : charAt (u ++ v) i = charAt u i := by
  rw [charAt, charAt, List.getD_append _ _ _ _ h]

theorem charAt_append_right (i : Nat) : charAt (u ++ v) (u.length + i) = charAt v i := by
  rw [charAt, charAt, List.getD_append_right _ _ _ _ (Nat.le_add_right _ _), Nat.add_sub_cancel_left]

theorem charAt_mem (h : i < u.length) : charAt u i ∈ u := by
  rw [charAt, List.getD_eq_getElem _ _ h]
  exact List.getElem_mem h

theorem drop_after (u : List UInt8) (c : UInt8) (v : List UInt8) : (u ++ c :: v).drop (u.length + 1) = v := by
  rw [List.drop_append, List.drop_eq_nil_of_le (Nat.le_succ _), Nat.add_sub_cancel_left]
  rfl

theorem lt_length_of_tab (h : charAt line i = tab) : i < line.length := by
  by_contra hle
  rw [charAt, List.getD_eq_default _ _ (Nat.le_of_not_lt hle)] at h
  exact absurd h (by decide)

theorem memrchr_some : ∀ {n : Nat}, memrchr line c n = some i → i < n ∧ charAt line i = c
  | 0, h => by cases h
  | n + 1, h => by
      rw [memrchr] at h
      split at h
      · rename_i hc
        cases h
        exact ⟨Nat.lt_succ_self _, hc⟩
      · exact ⟨Nat.lt_succ_of_lt (memrchr_some h).1, (memrchr_some h).2⟩

theorem memrchr_eq : ∀ {n : Nat}, i < n → charAt line i = c → (∀ j, i < j → j < n → charAt line j ≠ c) →
    memrchr line c n = some i
  | 0, h, _, _ => absurd h (Nat.not_lt_zero _)
  | n + 1, h, hc, hj => by
      rw [memrchr]
      by_cases he : i = n
      · subst he; rw [if_pos hc]
      · rw [if_neg (hj n (by omega) (Nat.lt_succ_self n))]
        exact memrchr_eq (by omega) hc (fun j h₁ h₂ => hj j h₁ (Nat.lt_succ_of_lt h₂))

theorem memrchr_append_left {c : UInt8} {A B : List UInt8} : ∀ {n : Nat}, n ≤ A.length →
    memrchr (A ++ B) c n = memrchr A c n
  | 0, _ => rfl
  | n + 1, h => by
      rw [memrchr, memrchr, charAt_append_left h, memrchr_append_left (Nat.le_of_lt h)]

theorem memrchr_last {A B : List UInt8} (hB : tab ∉ B) :
    memrchr (A ++ tab :: B) tab (A ++ tab :: B).length = some A.length := by
  have htab : charAt (A ++ tab :: B) A.length = tab := charAt_append_right (v := tab :: B) 0
  refine memrchr_eq (by simp) htab (fun j hj hjl hc => hB ?_)
  obtain ⟨m, rfl⟩ : ∃ m, j = A.length + (m + 1) := ⟨j - A.length - 1, by omega⟩
  rw [List.length_append, List.length_cons] at hjl
  rw [charAt_append_right] at hc
  have hm : charAt B m = tab := hc
  rw [← hm]
  exact charAt_mem (by omega)

theorem rewind_start : ∀ lp : Nat, rewind line lp = 0 ∨ charAt line (rewind line lp - 1) = tab
  | 0 => Or.inl rfl
  | lp + 1 => by
      rw [rewind]
      split
      · rename_i h
        exact Or.inr h
      · exact rewind_start lp

theorem rewind_eq : ∀ {lp : Nat}, i ≤ lp → (i = 0 ∨ charAt line (i - 1) = tab) →
    (∀ j, i ≤ j → j < lp → charAt line j ≠ tab) → rewind line lp = i
  | 0, h, _, _ => by rw [rewind]; omega
  | lp + 1, h, hi, hj => by
      rw [rewind]
      by_cases he : i = lp + 1
      · subst he
        rw [if_pos (by simpa using hi)]
      · rw [if_neg (hj lp (by omega) (Nat.lt_succ_self lp))]
        exact rewind_eq (by omega) hi (fun j h₁ h₂ => hj j h₁ (Nat.lt_succ_of_lt h₂))

/-! ## 時刻を読む範囲 -/

/-- 数にも空白にも小数点にもならないバイト。 -/
def halts (c : UInt8) : Bool := !isspace c && !isdigit c && !issign c && !decide (c = 46)

theorem takeWhile_halts {f : UInt8 → Bool} (hc : f c = false) : (u ++ c :: v).takeWhile f = (u ++ [c]).takeWhile f := by
  induction u with
  | nil => simp [hc]
  | cons x u ih =>
      rw [List.cons_append, List.cons_append, List.takeWhile_cons, List.takeWhile_cons, ih]

theorem takeWhile_halts_length {f : UInt8 → Bool} (hc : f c = false) :
    ((u ++ [c]).takeWhile f).length ≤ u.length := by
  induction u with
  | nil => simp [hc]
  | cons x u ih =>
      rw [List.cons_append, List.takeWhile_cons]
      split
      · simpa using ih
      · simp

theorem halts_iff : halts c = true ↔ isspace c = false ∧ isdigit c = false ∧ issign c = false ∧ c ≠ 46 := by
  simp [halts, and_assoc]

/-- `strtoul` は、止まるバイトより先を読まない。 -/
theorem strtoul_halts (hc : halts c = true) (u v : List UInt8) :
    strtoul (u ++ c :: v) = strtoul (u ++ [c]) ∧ (strtoul (u ++ [c])).2 ≤ u.length := by
  obtain ⟨h₁, h₂, h₃, _⟩ := halts_iff.mp hc
  have hws := takeWhile_halts_length (u := u) h₁
  have hdrop : ∀ v, (u ++ c :: v).drop ((u ++ [c]).takeWhile isspace).length =
      u.drop ((u ++ [c]).takeWhile isspace).length ++ c :: v := fun v => List.drop_append_of_le_length hws
  have htake : ∀ x v : List UInt8, (x ++ c :: v).take 1 = (x ++ [c]).take 1 := by
    intro x v
    cases x <;> rfl
  have hsg : ∀ x : List UInt8, (((x ++ [c]).take 1).takeWhile issign).length ≤ x.length := by
    intro x
    cases x with
    | nil => simp [h₃]
    | cons y x =>
        refine Nat.le_trans (List.takeWhile_prefix _).length_le ?_
        simp
  have hdrop₂ : ∀ x v : List UInt8, (x ++ c :: v).drop (((x ++ [c]).take 1).takeWhile issign).length =
      x.drop (((x ++ [c]).take 1).takeWhile issign).length ++ c :: v :=
    fun x v => List.drop_append_of_le_length (hsg x)
  constructor
  · simp only [strtoul, takeWhile_halts h₁, hdrop, htake, hdrop₂, takeWhile_halts h₂]
  · simp only [strtoul, hdrop, hdrop₂]
    split
    · exact Nat.zero_le _
    · have hds := takeWhile_halts_length (u := (u.drop ((u ++ [c]).takeWhile isspace).length).drop
        (((u.drop ((u ++ [c]).takeWhile isspace).length ++ [c]).take 1).takeWhile issign).length) h₂
      have hsg' := hsg (u.drop ((u ++ [c]).takeWhile isspace).length)
      rw [List.length_drop, List.length_drop] at hds
      rw [List.length_drop] at hsg'
      simp only
      omega

/-- `strtotv` は、止まるバイトより先を読まない。 -/
theorem strtotv_halts (hc : halts c = true) (u v : List UInt8) : strtotv (u ++ c :: v) = strtotv (u ++ [c]) := by
  obtain ⟨h₁, h₂⟩ := strtoul_halts hc u v
  have hne := (halts_iff.mp hc).2.2.2
  unfold strtotv
  rw [h₁]
  have hchar : charAt (u ++ c :: v) (strtoul (u ++ [c])).2 = charAt (u ++ [c]) (strtoul (u ++ [c])).2 := by
    rcases Nat.lt_or_eq_of_le h₂ with hlt | he
    · rw [charAt_append_left hlt, charAt_append_left hlt]
    · have hu : ∀ v, charAt (u ++ c :: v) u.length = c := fun v => charAt_append_right (v := c :: v) 0
      rw [he, hu, hu]
  simp only [hchar]
  split
  · rfl
  · split
    · rename_i hdot
      -- 小数点は `u` の中にある。
      have hlt : (strtoul (u ++ [c])).2 < u.length := by
        refine Nat.lt_of_le_of_ne h₂ (fun he => ?_)
        rw [he] at hdot
        exact hne ((charAt_append_right (v := [c]) 0).symm.trans hdot)
      have hdrop : ∀ v, (u ++ c :: v).drop ((strtoul (u ++ [c])).2 + 1) =
          u.drop ((strtoul (u ++ [c])).2 + 1) ++ c :: v := fun v => List.drop_append_of_le_length hlt
      rw [hdrop, hdrop, (strtoul_halts hc _ v).1]
    · rfl

/-! ## 文字列の変換 -/

/-- 正確な変換。書いた文字列を読み戻すと、元の値が得られる。文字列にタブはない。 -/
structure Codec.Exact (C : Codec K Q) : Prop where
  px : ∀ p rest, C.strtopx (C.pxtostr (some p) ++ tab :: rest) = (p, (C.pxtostr (some p)).length)
  px_ne : ∀ p, C.pxtostr (some p) ≠ []
  px_tab : ∀ p, tab ∉ C.pxtostr (some p)
  qx : ∀ x, C.strtoqx (C.qxtostr x ++ [newline]) = x
  qx_tab : ∀ x, tab ∉ C.qxtostr x

/-- 自然数の十進表記。 -/
def natToStr : Nat → Nat → List UInt8
  | 0, _ => []
  | fuel + 1, n => if n < 10 then [UInt8.ofNat (48 + n)] else natToStr fuel (n / 10) ++ [UInt8.ofNat (48 + n % 10)]

/-- 整数の十進表記。 -/
def intToStr (z : Int) : List UInt8 :=
  if z < 0 then 45 :: natToStr (z.natAbs + 1) z.natAbs else natToStr (z.natAbs + 1) z.natAbs

/-- 整数の読み取り。値と、読んだバイトの数を返す。 -/
def strToInt (s : List UInt8) : Int × Nat :=
  match s with
  | [] => (0, 0)
  | c :: r =>
      if c = 45 then (-(digitsVal (r.takeWhile isdigit) : Int), (r.takeWhile isdigit).length + 1)
      else (digitsVal (s.takeWhile isdigit), (s.takeWhile isdigit).length)

/-- 整数の気配値と数量の変換。 -/
def intCodec : Codec Int Int where
  strtopx := strToInt
  strtoqx s := (strToInt s).1
  pxtostr p := p.elim [110, 97, 110] intToStr
  qxtostr := intToStr

theorem toNat_digit {n : Nat} (hn : n < 10) : (UInt8.ofNat (48 + n)).toNat = 48 + n := by
  rw [UInt8.toNat_ofNat']
  omega

theorem isdigit_digit {n : Nat} (hn : n < 10) : isdigit (UInt8.ofNat (48 + n)) = true := by
  have h := toNat_digit hn
  simp only [isdigit, Bool.and_eq_true, decide_eq_true_eq, UInt8.le_iff_toNat_le, h]
  constructor
  · exact Nat.le_add_right 48 n
  · have : (57 : UInt8).toNat = 57 := rfl
    omega

theorem natToStr_isdigit : ∀ (fuel n : Nat), ∀ c ∈ natToStr fuel n, isdigit c = true
  | 0, _, _, hc => by cases hc
  | fuel + 1, n, c, hc => by
      rw [natToStr] at hc
      split at hc
      · rename_i hn
        rw [List.mem_singleton.mp hc]
        exact isdigit_digit hn
      · rcases List.mem_append.mp hc with hc | hc
        · exact natToStr_isdigit fuel _ c hc
        · rw [List.mem_singleton.mp hc]
          exact isdigit_digit (Nat.mod_lt _ (by decide))

theorem digitsVal_concat (ds : List UInt8) (c : UInt8) : digitsVal (ds ++ [c]) = 10 * digitsVal ds + (c.toNat - 48) := by
  simp [digitsVal]

theorem digitsVal_natToStr : ∀ (fuel n : Nat), n < fuel → digitsVal (natToStr fuel n) = n
  | 0, _, h => absurd h (Nat.not_lt_zero _)
  | fuel + 1, n, h => by
      rw [natToStr]
      split
      · rename_i hn
        have hd := digitsVal_concat [] (UInt8.ofNat (48 + n))
        rw [List.nil_append, toNat_digit hn] at hd
        rw [hd, digitsVal, List.foldl_nil]
        omega
      · rw [digitsVal_concat, digitsVal_natToStr fuel (n / 10) (by omega), toNat_digit (Nat.mod_lt _ (by decide))]
        omega

theorem natToStr_ne_nil (fuel n : Nat) : natToStr (fuel + 1) n ≠ [] := by
  rw [natToStr]
  split <;> simp

theorem takeWhile_isdigit {ds : List UInt8} (hd : ∀ c ∈ ds, isdigit c = true) (hc : isdigit c = false)
    (rest : List UInt8) : (ds ++ c :: rest).takeWhile isdigit = ds := by
  rw [List.takeWhile_append_of_pos hd, List.takeWhile_cons_of_neg (by simp [hc]), List.append_nil]

theorem strToInt_intToStr (z : Int) (hc : isdigit c = false) (rest : List UInt8) :
    strToInt (intToStr z ++ c :: rest) = (z, (intToStr z).length) := by
  have hd := natToStr_isdigit (z.natAbs + 1) z.natAbs
  have hv := digitsVal_natToStr (z.natAbs + 1) z.natAbs (Nat.lt_succ_self _)
  have ht := takeWhile_isdigit hd hc rest
  unfold intToStr
  split
  · simp only [List.cons_append, strToInt, ↓reduceIte, ht, hv, List.length_cons, Prod.mk.injEq, and_true]
    omega
  · cases hs : natToStr (z.natAbs + 1) z.natAbs with
    | nil => exact absurd hs (natToStr_ne_nil _ _)
    | cons x xs =>
        have hx : x ≠ 45 := by
          rintro rfl
          exact absurd (hd 45 (by rw [hs]; exact List.mem_cons_self)) (by decide)
        rw [hs, List.cons_append] at ht
        rw [List.cons_append, strToInt, if_neg hx, ht, ← hs, hv, Prod.mk.injEq]
        exact ⟨by omega, rfl⟩

theorem intToStr_tab (z : Int) : tab ∉ intToStr z := by
  have hd : tab ∉ natToStr (z.natAbs + 1) z.natAbs :=
    fun hm => absurd (natToStr_isdigit _ _ tab hm) (by decide)
  unfold intToStr
  split
  · rw [List.mem_cons]
    rintro (h | h)
    · exact absurd h (by decide)
    · exact hd h
  · exact hd

theorem intToStr_ne_nil (z : Int) : intToStr z ≠ [] := by
  unfold intToStr
  split
  · exact List.cons_ne_nil _ _
  · exact natToStr_ne_nil _ _

theorem intCodec_exact : intCodec.Exact where
  px p rest := strToInt_intToStr p (by decide) rest
  px_ne := intToStr_ne_nil
  px_tab := intToStr_tab
  qx x := congrArg Prod.fst (strToInt_intToStr x (c := newline) (by decide) [])
  qx_tab := intToStr_tab

end Books.Xquo
