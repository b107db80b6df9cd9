import Books.Hash.Lemmas

/-!
# ハッシュの主定理

機械によらない値であること、一つのまとまりだけが違う入力は衝突しないことを示す。
-/

namespace Books.Hash

open Books.Lib

variable {as bs : List UInt8} {k n : Nat}

/-- バイトの順序、番地、番地が揃っているかを調べるかどうかによらず、入力の中だけを読んで同じ値を返す。 -/
theorem hash_portable (M : Machine) (bs : List UInt8) : hash M bs = .ok (xxh32 bs) := by
  obtain ⟨align, hrun, hal⟩ := hash_dispatch M bs
  rw [hrun, endianAlign_eq M bs align hal]

/-! ## 一歩の単射 -/

theorem round_inj_left (x : U32) : Function.Injective (fun v => round v x) := fun _ _ h =>
  add_inj _ (rotl_inj (by decide) (mul_inj (d := 244002641#32) (by decide) h))

theorem round_inj_right (v : U32) : Function.Injective (fun x => round v x) := by
  intro x y h
  have hsum := rotl_inj (by decide) (mul_inj (d := 244002641#32) (by decide) h)
  exact mul_inj (d := 3066638151#32) (by decide) ((BitVec.add_right_inj v).mp hsum)

theorem wordStep_inj_left (x : U32) : Function.Injective (fun h => wordStep h x) := fun _ _ h =>
  add_inj _ (rotl_inj (by decide) (mul_inj (d := 2701016015#32) (by decide) h))

theorem wordStep_inj_right (h32 : U32) : Function.Injective (fun x => wordStep h32 x) := by
  intro x y h
  have hsum := rotl_inj (by decide) (mul_inj (d := 2701016015#32) (by decide) h)
  exact mul_inj (d := 2828982549#32) (by decide) ((BitVec.add_right_inj h32).mp hsum)

theorem byteStep_inj_left (b : UInt8) : Function.Injective (fun h => byteStep h b) := fun _ _ h =>
  add_inj _ (rotl_inj (by decide) (mul_inj (d := 244002641#32) (by decide) h))

theorem byteStep_inj_right (h32 : U32) : Function.Injective (fun b => byteStep h32 b) := by
  intro a b h
  have hsum := rotl_inj (by decide) (mul_inj (d := 244002641#32) (by decide) h)
  have hwide := mul_inj (d := 2923004241#32) (by decide) ((BitVec.add_right_inj h32).mp hsum)
  have hnat := congrArg BitVec.toNat hwide
  rw [BitVec.toNat_setWidth, BitVec.toNat_setWidth, Nat.mod_eq_of_lt (Nat.lt_trans a.toBitVec.isLt (by decide)),
    Nat.mod_eq_of_lt (Nat.lt_trans b.toBitVec.isLt (by decide))] at hnat
  exact UInt8.toNat_inj.mp hnat

theorem avalanche_inj : Function.Injective avalanche := fun _ _ h =>
  xorshr_inj (by decide) (mul_inj (d := 3066638151#32) (by decide)
    (xorshr_inj (by decide) (mul_inj (d := 2828982549#32) (by decide) (xorshr_inj (by decide) h))))

/-! ## 四つの値 -/

/-- 四つの値のうち、ちょうど一つが違う。 -/
def Lanes.OneOff (v v' : Lanes) : Prop :=
  (v.v1 ≠ v'.v1 ∧ v.v2 = v'.v2 ∧ v.v3 = v'.v3 ∧ v.v4 = v'.v4) ∨
  (v.v1 = v'.v1 ∧ v.v2 ≠ v'.v2 ∧ v.v3 = v'.v3 ∧ v.v4 = v'.v4) ∨
  (v.v1 = v'.v1 ∧ v.v2 = v'.v2 ∧ v.v3 ≠ v'.v3 ∧ v.v4 = v'.v4) ∨
  (v.v1 = v'.v1 ∧ v.v2 = v'.v2 ∧ v.v3 = v'.v3 ∧ v.v4 ≠ v'.v4)

theorem Lanes.OneOff.step {v v' : Lanes} (h : v.OneOff v') (x₁ x₂ x₃ x₄ : U32) :
    (v.step x₁ x₂ x₃ x₄).OneOff (v'.step x₁ x₂ x₃ x₄) := by
  rcases h with ⟨h₁, h₂, h₃, h₄⟩ | ⟨h₁, h₂, h₃, h₄⟩ | ⟨h₁, h₂, h₃, h₄⟩ | ⟨h₁, h₂, h₃, h₄⟩
  · exact .inl ⟨(round_inj_left x₁).ne h₁, congrArg (round · x₂) h₂, congrArg (round · x₃) h₃, congrArg (round · x₄) h₄⟩
  · exact .inr (.inl ⟨congrArg (round · x₁) h₁, (round_inj_left x₂).ne h₂, congrArg (round · x₃) h₃, congrArg (round · x₄) h₄⟩)
  · exact .inr (.inr (.inl ⟨congrArg (round · x₁) h₁, congrArg (round · x₂) h₂, (round_inj_left x₃).ne h₃,
      congrArg (round · x₄) h₄⟩))
  · exact .inr (.inr (.inr ⟨congrArg (round · x₁) h₁, congrArg (round · x₂) h₂, congrArg (round · x₃) h₃,
      (round_inj_left x₄).ne h₄⟩))

theorem Lanes.OneOff.merge {v v' : Lanes} (h : v.OneOff v') : v.merge ≠ v'.merge := by
  intro he
  rw [Lanes.merge, Lanes.merge] at he
  rcases h with ⟨h₁, h₂, h₃, h₄⟩ | ⟨h₁, h₂, h₃, h₄⟩ | ⟨h₁, h₂, h₃, h₄⟩ | ⟨h₁, h₂, h₃, h₄⟩
  · rw [h₂, h₃, h₄] at he
    exact h₁ (rotl_inj (by decide) (add_inj _ (add_inj _ (add_inj _ he))))
  · rw [h₁, h₃, h₄] at he
    exact h₂ (rotl_inj (by decide) ((BitVec.add_right_inj _).mp (add_inj _ (add_inj _ he))))
  · rw [h₁, h₂, h₄] at he
    exact h₃ (rotl_inj (by decide) ((BitVec.add_right_inj _).mp (add_inj _ he)))
  · rw [h₁, h₂, h₃] at he
    exact h₄ (rotl_inj (by decide) ((BitVec.add_right_inj _).mp he))

theorem lanes_oneOff {v v' : Lanes} (h : v.OneOff v') (ws : List U32) :
    (lanes v ws).1.OneOff (lanes v' ws).1 ∧ (lanes v ws).2 = (lanes v' ws).2 := by
  induction v, ws using lanes.induct generalizing v' with
  | case1 v x₁ x₂ x₃ x₄ xs ih => exact ih (h.step x₁ x₂ x₃ x₄)
  | case2 v xs hshort =>
      have h4 : xs.length < 4 := by
        rcases xs with _ | ⟨x₁, _ | ⟨x₂, _ | ⟨x₃, _ | ⟨x₄, xs⟩⟩⟩⟩
        · decide
        · simp
        · simp
        · simp
        · exact absurd rfl (hshort x₁ x₂ x₃ x₄ xs)
      rw [lanes_short h4, lanes_short h4]
      exact ⟨h, rfl⟩

/-- 一つの語の違いは、四つの値の一つか、残りの語の一つに現れる。 -/
theorem lanes_at {x y : U32} (hne : x ≠ y) : ∀ (v : Lanes) (xs zs : List U32),
    ((lanes v (xs ++ x :: zs)).1.OneOff (lanes v (xs ++ y :: zs)).1 ∧
      (lanes v (xs ++ x :: zs)).2 = (lanes v (xs ++ y :: zs)).2) ∨
    ((lanes v (xs ++ x :: zs)).1 = (lanes v (xs ++ y :: zs)).1 ∧ ∃ xs' zs',
      (lanes v (xs ++ x :: zs)).2 = xs' ++ x :: zs' ∧ (lanes v (xs ++ y :: zs)).2 = xs' ++ y :: zs') := by
  intro v xs zs
  by_cases hshort : (xs ++ x :: zs).length < 4
  · have hshort' : (xs ++ y :: zs).length < 4 := by simpa using hshort
    rw [lanes_short hshort, lanes_short hshort']
    exact .inr ⟨rfl, xs, zs, rfl, rfl⟩
  · match xs, zs with
    | a :: b :: c :: d :: xs, zs => exact lanes_at hne (v.step a b c d) xs zs
    | [a, b, c], zs =>
        have hoff : (v.step a b c x).OneOff (v.step a b c y) := .inr (.inr (.inr ⟨rfl, rfl, rfl, (round_inj_right v.v4).ne hne⟩))
        exact .inl (lanes_oneOff hoff zs)
    | [a, b], d :: zs =>
        have hoff : (v.step a b x d).OneOff (v.step a b y d) := .inr (.inr (.inl ⟨rfl, rfl, (round_inj_right v.v3).ne hne, rfl⟩))
        exact .inl (lanes_oneOff hoff zs)
    | [a], c :: d :: zs =>
        have hoff : (v.step a x c d).OneOff (v.step a y c d) := .inr (.inl ⟨rfl, (round_inj_right v.v2).ne hne, rfl, rfl⟩)
        exact .inl (lanes_oneOff hoff zs)
    | [], b :: c :: d :: zs =>
        have hoff : (v.step x b c d).OneOff (v.step y b c d) := .inl ⟨(round_inj_right v.v1).ne hne, rfl, rfl, rfl⟩
        exact .inl (lanes_oneOff hoff zs)
    | [a, b], [] => exact absurd (by simp) hshort
    | [a], [] => exact absurd (by simp) hshort
    | [a], [c] => exact absurd (by simp) hshort
    | [], [] => exact absurd (by simp) hshort
    | [], [b] => exact absurd (by simp) hshort
    | [], [b, c] => exact absurd (by simp) hshort

/-! ## 入力の値 -/

theorem digest_tail_inj {ws : List U32} {ts us : List UInt8} {a b : UInt8}
    (h : digest n ws (ts ++ a :: us) = digest n ws (ts ++ b :: us)) : a = b :=
  foldl_inj_at byteStep_inj_left byteStep_inj_right (avalanche_inj h)

theorem digest_word_inj {xs zs : List U32} {x y : U32} {tail : List UInt8}
    (h : digest n (xs ++ x :: zs) tail = digest n (xs ++ y :: zs) tail) : x = y := by
  by_contra hne
  have hwords := foldl_inj byteStep_inj_left tail (avalanche_inj h)
  beta_reduce at hwords
  by_cases h16 : 16 ≤ n
  · rw [if_pos h16, if_pos h16] at hwords
    rcases lanes_at hne Lanes.init xs zs with ⟨hoff, hrest⟩ | ⟨hsame, xs', zs', hx, hy⟩
    · simp only [hrest] at hwords
      exact hoff.merge (add_inj _ (foldl_inj wordStep_inj_left _ hwords))
    · simp only [hx, hy, hsame] at hwords
      exact hne (foldl_inj_at wordStep_inj_left wordStep_inj_right hwords)
  · rw [if_neg h16, if_neg h16] at hwords
    exact hne (foldl_inj_at wordStep_inj_left wordStep_inj_right hwords)

theorem xxh32_inj (h : AgreeOff k as bs) (he : xxh32 as = xxh32 bs) : as = bs := by
  rw [xxh32, xxh32, h.1] at he
  by_cases hk : k < as.length / 4
  · obtain ⟨xs, x, y, zs, hx, hy, htail, hsame⟩ := words_at h hk
    rw [hx, hy, htail] at he
    exact hsame (digest_word_inj he)
  · rcases words_tail_at h (Nat.le_of_not_lt hk) with hall | ⟨ts, a, b, us, ha, hb, hw, hsame⟩
    · exact hall
    · rw [ha, hb, hw] at he
      exact hsame (digest_tail_inj he)

/-- 同じ長さで、一つの語か残りの一バイトだけが違う入力は、どの機械で計算しても衝突しない。 -/
theorem hash_separates (M M' : Machine) (k : Nat) (as bs : List UInt8) (h : AgreeOff k as bs) (hne : as ≠ bs) :
    hash M as ≠ hash M' bs := by
  intro he
  obtain ⟨align, hrun, hal⟩ := hash_dispatch M as
  obtain ⟨align', hrun', hal'⟩ := hash_dispatch M' bs
  rw [hrun, hrun', endianAlign_eq M as align hal, endianAlign_eq M' bs align' hal', Except.ok.injEq] at he
  exact hne (xxh32_inj h he)

/-- 四バイトの銘柄は、どの二つも、一つの語のほかで等しい。 -/
theorem agreeOff_four {a₀ a₁ a₂ a₃ b₀ b₁ b₂ b₃ : UInt8} : AgreeOff 0 [a₀, a₁, a₂, a₃] [b₀, b₁, b₂, b₃] := by
  refine ⟨rfl, fun i hi => ?_⟩
  have hge : 4 ≤ i := by
    by_contra hlt
    exact hi (unit_head (n := 0) (by omega))
  rw [List.getElem?_eq_none hge, List.getElem?_eq_none hge]

/-- `ESH6` と `ESM6`。 -/
theorem hash_separates_months :
    hash ⟨.little, true, 0⟩ [69, 83, 72, 54] ≠ hash ⟨.big, false, 2⟩ [69, 83, 77, 54] :=
  hash_separates _ _ 0 _ _ agreeOff_four (by decide)

end Books.Hash
