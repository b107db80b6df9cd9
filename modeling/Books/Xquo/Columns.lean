import Books.Xquo.Lemmas
import Books.Xquo.Spec

/-!
# 列の読み取り
-/

set_option linter.unusedSectionVars false

namespace Books.Xquo

open Books.Btree Books.Book

variable {K Q : Type} [Zero K] [Zero Q]
variable {C : Codec K Q} {T I S P X u v rest : List UInt8} {c : UInt8}

/-! ## 時刻 -/

theorem isspace_of_isdigit (h : isdigit c = true) : isspace c = false := by
  obtain ⟨h₁, h₂⟩ := Bool.and_eq_true_iff.mp h
  have h₁' : 48 ≤ c.toNat := UInt8.le_iff_toNat_le.mp (of_decide_eq_true h₁)
  rw [isspace, Bool.or_eq_false_iff, Bool.and_eq_false_iff]
  refine ⟨decide_eq_false (fun he => ?_), Or.inr (decide_eq_false (fun hle => ?_))⟩
  · rw [he] at h₁'
    exact absurd h₁' (by decide)
  · have hle' : c.toNat ≤ 13 := UInt8.le_iff_toNat_le.mp hle
    omega

theorem issign_of_isdigit (h : isdigit c = true) : issign c = false := by
  rw [issign, Bool.or_eq_false_iff]
  constructor
  · exact decide_eq_false (fun he => by rw [he] at h; exact absurd h (by decide))
  · exact decide_eq_false (fun he => by rw [he] at h; exact absurd h (by decide))

theorem takeWhile_digits (hu : ∀ c ∈ u, isdigit c = true) (hrest : ∀ c, rest.head? = some c → isdigit c = false) :
    (u ++ rest).takeWhile isdigit = u := by
  rw [List.takeWhile_append_of_pos hu]
  cases rest with
  | nil => rw [List.takeWhile_nil, List.append_nil]
  | cons c rest =>
      rw [List.takeWhile_cons_of_neg (by rw [hrest c rfl]; decide), List.append_nil]

/-- `strtoul` は、数字でないバイトまでの値を返し、2^64 以上では `ULONG_MAX` を返す。 -/
theorem strtoul_run (hu : Digits u) (hrest : ∀ c, rest.head? = some c → isdigit c = false) : strtoul (u ++ rest) =
    (if 2 ^ 64 ≤ digitsVal u then 0xffffffffffffffff else UInt64.ofNat (digitsVal u), u.length) := by
  obtain ⟨hne, hd⟩ := hu
  obtain ⟨x, u', rfl⟩ := List.exists_cons_of_ne_nil hne
  have hx := hd x List.mem_cons_self
  have hws : (x :: u' ++ rest).takeWhile isspace = [] := by
    rw [List.cons_append, List.takeWhile_cons_of_neg (by rw [isspace_of_isdigit hx]; decide)]
  have hsg : ((x :: u' ++ rest).take 1).takeWhile issign = [] := by
    rw [List.cons_append, List.take_succ_cons, List.takeWhile_cons_of_neg (by rw [issign_of_isdigit hx]; decide)]
  have hds := takeWhile_digits hd hrest
  simp only [strtoul, hws, List.length_nil, List.drop_zero, hsg, hds, List.isEmpty_cons]
  simp

theorem strtoul_digits (hu : Digits u) (hrest : ∀ c, rest.head? = some c → isdigit c = false) :
    strtoul (u ++ rest) = strtoul u ∧ (strtoul u).2 = u.length := by
  have h₀ : strtoul (u ++ []) = _ := strtoul_run hu (fun c hc => by cases hc)
  rw [List.append_nil] at h₀
  rw [strtoul_run hu hrest, h₀]
  exact ⟨rfl, rfl⟩

theorem head_tab (rest : List UInt8) (c : UInt8) (hc : (tab :: rest).head? = some c) : isdigit c = false := by
  cases hc
  decide

/-- 時刻の列の後に続くものは、時刻に影響しない。 -/
theorem strtotv_column (hT : TimeText T) (rest : List UInt8) : strtotv (T ++ tab :: rest) = strtotv T := by
  rcases hT with hT | ⟨u, v, hu, hv, rfl⟩
  · obtain ⟨h₁, h₂⟩ := strtoul_digits hT (head_tab rest)
    have hc₁ : charAt (T ++ tab :: rest) T.length = tab := charAt_append_right (v := tab :: rest) 0
    have hc₂ : charAt T T.length = 0 := by rw [charAt, List.getD_eq_default _ _ (Nat.le_refl _)]
    have hn₁ : ¬ tab = 46 := by decide
    have hn₂ : ¬ (0 : UInt8) = 46 := by decide
    unfold strtotv
    simp only [h₁, h₂, hc₁, hc₂, if_neg hn₁, if_neg hn₂]
  · have hdot : ∀ w : List UInt8, ∀ c, (46 :: w).head? = some c → isdigit c = false := by
      intro w c hc
      cases hc
      decide
    have hu₁ : ∀ w, strtoul (u ++ 46 :: w) = strtoul u := fun w => (strtoul_digits hu (hdot w)).1
    have hlen := (strtoul_digits hu (hdot [])).2
    have hc : ∀ w, charAt (u ++ 46 :: w) u.length = 46 := fun w => charAt_append_right (v := 46 :: w) 0
    have hdrop : ∀ w, (u ++ 46 :: w).drop (u.length + 1) = w := drop_after u 46
    have hv₁ := (strtoul_digits hv (head_tab rest)).1
    rw [List.append_assoc, List.cons_append]
    unfold strtotv
    simp only [hu₁, hlen, hc, hdrop, hv₁]

/-! ## 文字の分類 -/

theorem forall_byte {p : UInt8 → Prop} (h : ∀ n < 256, p (UInt8.ofNat n)) (c : UInt8) : p c := by
  have hc := h c.toNat (UInt8.toNat_lt c)
  rwa [UInt8.ofNat_toNat] at hc

theorem lvlOfByte_eq (c : UInt8) : lvlOfByte c = lvlOfLetter c :=
  forall_byte (p := fun c => lvlOfByte c = lvlOfLetter c) (by decide +kernel) c

/-- 側の読み取りが正しい文字。 -/
theorem sideOfByte_eq_iff (c : UInt8) : sideOfByte c = (sideOfLetter c).getD .unk ↔
    (sideOfLetter c).isSome = true ∨ c % 16 = 0 :=
  forall_byte (p := fun c => sideOfByte c = (sideOfLetter c).getD .unk ↔ (sideOfLetter c).isSome = true ∨ c % 16 = 0)
    (by decide +kernel) c

theorem sideOfLetter_ne_unk (c : UInt8) : sideOfLetter c ≠ some .unk :=
  forall_byte (p := fun c => sideOfLetter c ≠ some .unk) (by decide +kernel) c

/-! ## 列の位置 -/

/-- 五つの列の行から `read_xquo` が読むもの。 -/
theorem readXquo_columns (hI : tab ∉ I) (hS : tab ∉ S) (hP : tab ∉ P) (hX : tab ∉ X) (hne : S ≠ []) :
    readXquo C (columns T I S P X) =
      if sideOfByte (charAt S 0) = .unk then some notAXquo
      else some ⟨⟨sideOfByte (charAt S 0), lvlOfByte (charAt S (S.length - 1)),
        if (C.strtopx (P ++ tab :: (X ++ [newline]))).2 = 0 then none
        else some (C.strtopx (P ++ tab :: (X ++ [newline]))).1,
        C.strtoqx (X ++ [newline]), strtotv (columns T I S P X)⟩, T.length + 1, I.length⟩ := by
  have hB : tab ∉ X ++ [newline] := by
    rw [List.mem_append, List.mem_singleton]
    rintro (h | h)
    · exact hX h
    · exact absurd h (by decide)
  set B := X ++ [newline] with hBdef
  -- 行を、それぞれのタブで区切って書き直す。
  have h₁ : columns T I S P X = (T ++ tab :: (I ++ tab :: (S ++ tab :: P))) ++ tab :: B := by simp [columns, hBdef]
  have h₂ : columns T I S P X = (T ++ tab :: (I ++ tab :: S)) ++ tab :: (P ++ tab :: B) := by simp [columns, hBdef]
  have h₃ : columns T I S P X = (T ++ tab :: (I ++ [tab])) ++ (S ++ tab :: (P ++ tab :: B)) := by simp [columns, hBdef]
  have h₄ : columns T I S P X = (T ++ tab :: I) ++ tab :: (S ++ tab :: (P ++ tab :: B)) := by simp [columns, hBdef]
  obtain ⟨n, hn⟩ : ∃ n, S.length = n + 1 := Nat.exists_eq_succ_of_ne_zero (fun h => hne (List.eq_nil_of_length_eq_zero h))
  have hm₁ : memrchr (columns T I S P X) tab (columns T I S P X).length =
      some (T ++ tab :: (I ++ tab :: (S ++ tab :: P))).length := by
    rw [h₁]; exact memrchr_last hB
  have hlp : (T ++ tab :: (I ++ tab :: S)).length = (T ++ tab :: (I ++ [tab])).length + n + 1 := by
    simp only [List.length_append, List.length_cons, List.length_nil, hn]; omega
  have hm₂ : memrchr (columns T I S P X) tab (T ++ tab :: (I ++ tab :: (S ++ tab :: P))).length =
      some ((T ++ tab :: (I ++ [tab])).length + n + 1) := by
    rw [h₁, memrchr_append_left (Nat.le_refl _), ← hlp,
      show T ++ tab :: (I ++ tab :: (S ++ tab :: P)) = (T ++ tab :: (I ++ tab :: S)) ++ tab :: P by simp]
    exact memrchr_last hP
  have hq : (columns T I S P X).drop ((T ++ tab :: (I ++ tab :: (S ++ tab :: P))).length + 1) = B := by
    rw [h₁]; exact drop_after _ tab B
  have hp : (columns T I S P X).drop ((T ++ tab :: (I ++ [tab])).length + n + 2) = P ++ tab :: B := by
    rw [show (T ++ tab :: (I ++ [tab])).length + n + 2 = (T ++ tab :: (I ++ tab :: S)).length + 1 by omega, h₂]
    exact drop_after _ tab _
  have hS₀ : ∀ i < S.length, charAt (columns T I S P X) ((T ++ tab :: (I ++ [tab])).length + i) = charAt S i := by
    intro i hi
    rw [h₃, charAt_append_right, charAt_append_left hi]
  have hrew : rewind (columns T I S P X) ((T ++ tab :: (I ++ [tab])).length + n) = (T ++ tab :: (I ++ [tab])).length := by
    refine rewind_eq (Nat.le_add_right _ _) (Or.inr ?_) (fun j hj₁ hj₂ => ?_)
    · rw [h₄, show (T ++ tab :: (I ++ [tab])).length - 1 = (T ++ tab :: I).length + 0 by simp]
      exact charAt_append_right 0
    · obtain ⟨i, rfl⟩ := Nat.exists_eq_add_of_le hj₁
      have hi : i < S.length := by omega
      rw [hS₀ i hi]
      exact fun h => hS (h ▸ charAt_mem hi)
  have hins : instrOf (columns T I S P X) (T ++ tab :: (I ++ [tab])).length = (T.length + 1, I.length) := by
    have hlen : (T ++ tab :: (I ++ [tab])).length = (T ++ tab :: I).length + 1 := by simp; omega
    have hm : memrchr (columns T I S P X) tab (T ++ tab :: I).length = some T.length := by
      rw [h₄, memrchr_append_left (Nat.le_refl _)]
      exact memrchr_last hI
    rw [hlen, instrOf, hm]
    simp only [List.length_append, List.length_cons]
    rw [show T.length + (I.length + 1) - (T.length + 1) = I.length by omega]
  have hfirst : charAt (columns T I S P X) (T ++ tab :: (I ++ [tab])).length = charAt S 0 := hS₀ 0 (by omega)
  simp only [readXquo, hm₁, hm₂, hq, hp, hrew, hins, hS₀ n (by omega), hfirst]
  rw [hn, Nat.add_sub_cancel]

/-! ## 整数の変換 -/

theorem takeWhile_stop {f : UInt8 → Bool} (hc : f c = false) : (u ++ c :: v).takeWhile f = u.takeWhile f := by
  induction u with
  | nil => rw [List.nil_append, List.takeWhile_cons_of_neg (by rw [hc]; decide), List.takeWhile_nil]
  | cons x u ih => rw [List.cons_append, List.takeWhile_cons, List.takeWhile_cons, ih]

theorem strToInt_stop (hc : isdigit c = false) (hne : c ≠ 45) (P rest : List UInt8) :
    strToInt (P ++ c :: rest) = strToInt P := by
  cases P with
  | nil =>
      have hnil : (c :: rest).takeWhile isdigit = [] := List.takeWhile_cons_of_neg (by rw [hc]; decide)
      simp only [List.nil_append, strToInt, if_neg hne, hnil]
      rfl
  | cons x P =>
      have hP := takeWhile_stop (u := P) (v := rest) hc
      have hxP := takeWhile_stop (u := x :: P) (v := rest) hc
      rw [List.cons_append] at hxP ⊢
      rw [strToInt, strToInt, hP, hxP]

theorem intCodec_stops : intCodec.Stops where
  px P rest _ := strToInt_stop (by decide) (by decide) P rest
  qx X _ := congrArg Prod.fst (strToInt_stop (by decide) (by decide) X [])

end Books.Xquo
