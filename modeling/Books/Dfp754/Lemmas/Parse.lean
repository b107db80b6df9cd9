import Books.Dfp754.Spec

/-!
# 文字列の読み取り
-/

namespace Books.Dfp754

open Books.Lib

variable {w : Nat}

/-! ## 数字の並びの値 -/

theorem digitOf_lt {c : UInt8} (h : isdigit c = true) : digitOf c < 10 := by
  simp only [isdigit, Bool.and_eq_true, decide_eq_true_eq] at h
  have h1 : c.toNat ≤ 57 := UInt8.le_iff_toNat_le.1 h.2
  rw [digitOf, UInt8.toNat_sub_of_le c 48 h.1, show (48 : UInt8).toNat = 48 from rfl]
  omega

@[simp] theorem val_nil (b : Nat) : val b [] = 0 := rfl

theorem val_append (b : Nat) (ds es : List UInt8) : val b (ds ++ es) = val b ds * b ^ es.length + val b es := by
  rw [val, List.reverse_append, List.map_append, Nat.ofDigits_append, List.length_map, List.length_reverse, ← val, ← val]
  ring

theorem val_snoc (b : Nat) (ds : List UInt8) (c : UInt8) : val b (ds ++ [c]) = val b ds * b + digitOf c := by
  rw [val_append, List.length_singleton, pow_one]
  simp [val]

theorem val_lt {b : Nat} (hb : 10 ≤ b) {ds : List UInt8} (h : ∀ c ∈ ds, isdigit c = true) : val b ds < b ^ ds.length := by
  have hlt := Nat.ofDigits_lt_base_pow_length (b := b) (l := ds.reverse.map digitOf) (by omega) (fun d hd => by
    obtain ⟨c, hc, rfl⟩ := List.mem_map.1 hd
    exact Nat.lt_of_lt_of_le (digitOf_lt (h c (List.mem_reverse.1 hc))) hb)
  rwa [List.length_map, List.length_reverse] at hlt

theorem val_recode {k : Nat} {ds : List UInt8} (h : ∀ c ∈ ds, isdigit c = true) (hk : ds.length ≤ k) :
    recode id 10 16 k (val 10 ds) = val 16 ds := by
  induction ds using List.reverseRecOn generalizing k with
  | nil => rw [val_nil, val_nil, recode_zero_right rfl]
  | append_singleton ds c ih =>
      have hc : digitOf c < 10 := digitOf_lt (h c (by simp))
      rw [List.length_append, List.length_singleton] at hk
      obtain ⟨j, rfl⟩ : ∃ j, k = j + 1 := ⟨k - 1, by omega⟩
      have hmod : (val 10 ds * 10 + digitOf c) % 10 = digitOf c := by omega
      have hdiv : (val 10 ds * 10 + digitOf c) / 10 = val 10 ds := by omega
      rw [val_snoc, val_snoc, recode_succ, hmod, hdiv, ih (fun d hd => h d (by simp [hd])) (by omega), id]
      ring

theorem val_digits {ds : List UInt8} (h : ∀ c ∈ ds, isdigit c = true) (k : Nat) : Digits (· < 10) 16 k (val 16 ds) := by
  rcases Nat.le_total ds.length k with hk | hk
  · rw [← val_recode h hk]
    exact digits_recode (by decide) (Nat.le_refl _) (by decide)
  · have hd : Digits (· < 10) 16 ds.length (val 16 ds) := by
      rw [← val_recode h (Nat.le_refl _)]
      exact digits_recode (by decide) (Nat.le_refl _) (by decide)
    exact hd.mono hk

/-! ## 仮数に詰める -/

/-- 数字を一つ詰める。 -/
def push (mant : BitVec w) (c : UInt8) : BitVec w := mant <<< 4 ||| U c

theorem U_toNat (hw : 4 ≤ w) {c : UInt8} (h : isdigit c = true) : (U c : BitVec w).toNat = digitOf c := by
  have hd := digitOf_lt h
  have h16 : (2 : Nat) ^ 4 ≤ 2 ^ w := Nat.pow_le_pow_right (by decide) hw
  rw [digitOf] at hd
  rw [U, BitVec.toNat_ofNat, digitOf, Nat.mod_eq_of_lt (by omega)]

theorem push_toNat (hw : 4 ≤ w) {mant : BitVec w} {c : UInt8} (hc : isdigit c = true) (h : mant.toNat * 16 < 2 ^ w) :
    (push mant c).toNat = mant.toNat * 16 + digitOf c := by
  have hU := U_toNat hw hc
  have hd := digitOf_lt hc
  refine (Join.toNat_eq (k := 4) .or (fld_shl_low (by omega)) (by rw [hU]; omega)).trans ?_
  rw [toNat_shl h, hU]
  rfl

theorem pushes_toNat {ds : List UInt8} (h : ∀ c ∈ ds, isdigit c = true) (hw : 4 * ds.length ≤ w) :
    (ds.foldl push (0 : BitVec w)).toNat = val 16 ds := by
  induction ds using List.reverseRecOn with
  | nil => exact BitVec.toNat_zero
  | append_singleton ds c ih =>
      rw [List.length_append, List.length_singleton] at hw
      have hds : ∀ d ∈ ds, isdigit d = true := fun d hd => h d (by simp [hd])
      have hlt := val_lt (b := 16) (by decide) hds
      have hv := ih hds (by omega)
      have hfit : val 16 ds * 16 < 2 ^ w := by
        have hpow : (16 : Nat) ^ ds.length * 16 ≤ 2 ^ w := by
          rw [← Nat.pow_succ, show (16 : Nat) = 2 ^ 4 from rfl, ← Nat.pow_mul]
          exact Nat.pow_le_pow_right (by decide) (by omega)
        omega
      rw [List.foldl_append, List.foldl_cons, List.foldl_nil, push_toNat (by omega) (h c (by simp)) (by rw [hv]; exact hfit),
        hv, val_snoc]

/-! ## 数字を拾う繰り返し -/

/-- 拾われる数字は、初めの数字の並びの、`nd` 個までである。 -/
theorem pickDigits_eq (de : Int) (nd : Nat) (sp : List UInt8) (mant : BitVec w) (expo : Int) :
    pickDigits de nd sp mant expo =
      ⟨sp.drop ((sp.takeWhile isdigit).take nd).length, ((sp.takeWhile isdigit).take nd).foldl push mant,
        expo + de * ((sp.takeWhile isdigit).take nd).length, nd - ((sp.takeWhile isdigit).take nd).length, 0⟩ := by
  induction nd generalizing sp mant expo with
  | zero => cases sp <;> simp [pickDigits]
  | succ nd ih =>
      cases sp with
      | nil => simp [pickDigits]
      | cons c sp =>
          by_cases hc : isdigit c = true
          · have hexpo : expo + de + de * ((sp.takeWhile isdigit).take nd).length =
                expo + de * (((sp.takeWhile isdigit).take nd).length + 1 : Nat) := by push_cast; ring
            rw [pickDigits, if_pos hc, ih, List.takeWhile_cons_of_pos hc, List.take_succ_cons, List.length_cons,
              List.drop_succ_cons, List.foldl_cons, hexpo, Nat.add_sub_add_right]
            rfl
          · rw [pickDigits, if_neg hc, List.takeWhile_cons_of_neg hc]
            simp

variable {nd : Nat} {sp src : List UInt8}

theorem mem_takeWhile_digit {c : UInt8} (h : c ∈ sp.takeWhile isdigit) : isdigit c = true := by
  have hall := List.all_takeWhile (p := isdigit) (l := sp)
  exact List.all_eq_true.1 hall c h

theorem headD_dropWhile (sp : List UInt8) : isdigit ((sp.dropWhile isdigit).headD 0) = false := by
  induction sp with
  | nil => rfl
  | cons c sp ih =>
      rw [List.dropWhile_cons]
      split
      · exact ih
      · rename_i hc
        exact Bool.eq_false_iff.2 hc

theorem drop_take (n : Nat) (l r : List UInt8) : (l ++ r).drop (l.take n).length = l.drop n ++ r := by
  rw [List.length_take, List.drop_append]
  rcases Nat.le_total n l.length with h | h
  · rw [Nat.min_eq_left h, Nat.sub_eq_zero_of_le h, List.drop_zero]
  · rw [Nat.min_eq_right h, Nat.sub_self, List.drop_zero, List.drop_length, List.drop_of_length_le h]

theorem drop_digits (n : Nat) (sp : List UInt8) :
    sp.drop ((sp.takeWhile isdigit).take n).length = (sp.takeWhile isdigit).drop n ++ sp.dropWhile isdigit := by
  rw [← drop_take, List.takeWhile_append_dropWhile]

theorem takeWhile_rest (n : Nat) (sp : List UInt8) :
    ((sp.takeWhile isdigit).drop n ++ sp.dropWhile isdigit).takeWhile isdigit = (sp.takeWhile isdigit).drop n := by
  rw [List.takeWhile_append_of_pos (fun c hc => mem_takeWhile_digit (List.mem_of_mem_drop hc))]
  have hz : (sp.dropWhile isdigit).takeWhile isdigit = [] := by
    have hd := headD_dropWhile sp
    cases hr : sp.dropWhile isdigit with
    | nil => rfl
    | cons c r =>
        rw [hr] at hd
        exact List.takeWhile_cons_of_neg (by simpa using hd)
  rw [hz, List.append_nil]

theorem dropWhile_rest (n : Nat) (sp : List UInt8) :
    ((sp.takeWhile isdigit).drop n ++ sp.dropWhile isdigit).dropWhile isdigit = sp.dropWhile isdigit := by
  rw [List.dropWhile_append_of_pos (fun c hc => mem_takeWhile_digit (List.mem_of_mem_drop hc))]
  have hd := headD_dropWhile sp
  cases hr : sp.dropWhile isdigit with
  | nil => rfl
  | cons c r =>
      rw [hr] at hd
      exact List.dropWhile_cons_of_neg (by simpa using hd)

/-- 丸めの桁は、残りの数字の初めにある。 -/
theorem offDigit_rest (n : Nat) (sp : List UInt8) :
    offDigit ((sp.takeWhile isdigit).drop n ++ sp.dropWhile isdigit) =
      if 53 ≤ ((sp.takeWhile isdigit).drop n).headD 0 then 1 else 0 := by
  have hd := headD_dropWhile sp
  cases hr : (sp.takeWhile isdigit).drop n with
  | nil =>
      have hno : ¬ (53 ≤ (sp.dropWhile isdigit).headD 0 ∧ (sp.dropWhile isdigit).headD 0 ≤ 57) := by
        rintro ⟨h1, h2⟩
        have h3 : (48 : UInt8) ≤ (sp.dropWhile isdigit).headD 0 := UInt8.le_trans (by decide) h1
        rw [isdigit, decide_eq_true h3, decide_eq_true h2] at hd
        exact Bool.noConfusion hd
      rw [offDigit, List.nil_append, if_neg (by simpa using hno), if_neg (by decide)]
  | cons c r =>
      have hc : isdigit c = true := mem_takeWhile_digit (List.mem_of_mem_drop (by rw [hr]; exact List.mem_cons_self))
      have h57 : c ≤ 57 := by
        simp only [isdigit, Bool.and_eq_true, decide_eq_true_eq] at hc
        exact hc.2
      rw [offDigit, List.cons_append, List.headD_cons, List.headD_cons]
      simp only [h57, decide_true, Bool.and_true, decide_eq_true_eq]

/-! ## 文字列全体 -/

theorem readInt_eq (nd : Nat) (sp : List UInt8) : (readInt nd sp : Rd w) =
    ⟨sp.dropWhile isdigit, ((sp.takeWhile isdigit).take nd).foldl push 0, ((sp.takeWhile isdigit).length - nd : Nat),
      nd - (sp.takeWhile isdigit).length, if 53 ≤ ((sp.takeWhile isdigit).drop nd).headD 0 then 1 else 0⟩ := by
  simp only [readInt, pickDigits_eq, drop_digits, takeWhile_rest, dropWhile_rest, offDigit_rest]
  simp
  omega

/-- 小数点で終わる整数部の後には、丸めの桁がない。 -/
theorem offDigit_point (h : sp.headD 0 = 46) : offDigit sp = 0 := by
  rw [offDigit, h]
  rfl

theorem fracDigits_point (h : ((digitsOf src).dropWhile isdigit).headD 0 = 46) :
    fracDigits src = ((digitsOf src).dropWhile isdigit).tail.takeWhile isdigit := by
  rw [fracDigits]
  exact if_pos h

theorem offDigit_frac (h : ((digitsOf src).dropWhile isdigit).headD 0 = 46) (n : Nat) :
    offDigit (((digitsOf src).dropWhile isdigit).tail.drop ((fracDigits src).take n).length) =
      if 53 ≤ ((fracDigits src).drop n).headD 0 then 1 else 0 := by
  rw [fracDigits_point h, drop_digits, offDigit_rest]

theorem read_eq (nd : Nat) (src : List UInt8) : readFrac (readInt nd (digitsOf src) : Rd w) =
    ⟨textRest src, (kept nd src).foldl push 0, textExpo nd src,
      nd - (intDigits src).length - ((fracDigits src).take (nd - (intDigits src).length)).length,
      if RoundsUp nd src then 1 else 0⟩ := by
  rw [readInt_eq, readFrac, ← intDigits]
  by_cases hp : ((digitsOf src).dropWhile isdigit).headD 0 = 46
  · have hrest : textRest src = ((digitsOf src).dropWhile isdigit).tail.dropWhile isdigit := by
      rw [textRest]
      exact if_pos hp
    rcases Nat.lt_or_ge (intDigits src).length nd with hnd | hnd
    · have hcut : cut nd src = (fracDigits src).drop (nd - (intDigits src).length) := by rw [cut, if_neg (by omega)]
      have hnone : (intDigits src).drop nd = [] := List.drop_of_length_le (Nat.le_of_lt hnd)
      rw [if_pos ⟨hp, by simp only; omega⟩]
      simp only [pickDigits_eq]
      rw [← fracDigits_point hp, offDigit_frac hp, hnone, if_neg (show ¬ 53 ≤ ([] : List UInt8).headD 0 by decide), zero_add,
        Rd.mk.injEq]
      refine ⟨?_, ?_, ?_, rfl, ?_⟩
      · rw [hrest, fracDigits_point hp, drop_digits, dropWhile_rest]
      · rw [kept, List.foldl_append]
      · rw [textExpo]
        omega
      · simp only [RoundsUp, hcut]
    · have hcut : cut nd src = (intDigits src).drop nd := by rw [cut, if_pos hnd]
      have hz : nd - (intDigits src).length = 0 := Nat.sub_eq_zero_of_le hnd
      rw [if_neg (by simp only; omega), if_pos hp]
      simp only
      rw [offDigit_point hp, add_zero, hz, List.take_zero, Rd.mk.injEq]
      refine ⟨hrest.symm, ?_, ?_, rfl, ?_⟩
      · rw [kept, hz, List.take_zero, List.append_nil]
      · rw [textExpo, hz, List.take_zero, List.length_nil]
        omega
      · simp only [RoundsUp, hcut]
  · have hfrac : fracDigits src = [] := by
      rw [fracDigits]
      exact if_neg hp
    have hrest : textRest src = (digitsOf src).dropWhile isdigit := by
      rw [textRest]
      exact if_neg hp
    have hcut : (cut nd src).headD 0 = ((intDigits src).drop nd).headD 0 := by
      rw [cut]
      split
      · rfl
      · rename_i hnd
        rw [hfrac, List.drop_nil, List.drop_of_length_le (by omega)]
    rw [if_neg (fun h => hp h.1), if_neg hp, hfrac, List.take_nil, Rd.mk.injEq]
    refine ⟨hrest.symm, ?_, ?_, by simp, ?_⟩
    · rw [kept, hfrac, List.take_nil, List.append_nil]
    · rw [textExpo, hfrac, List.take_nil, List.length_nil]
      omega
    · simp only [RoundsUp, hcut]

/-- 文字列の読み取りは、残した数字を詰め、溢れた数字があれば丸める。 -/
theorem strtobcd_eq (o : Join) (nd fuel : Nat) (src : List UInt8) : (strtobcd o nd fuel src : Option (Bcd w × List UInt8)) =
    (if RoundsUp nd src then roundBcd o fuel ((kept nd src).foldl push 0) (if signOf src = 0 then 1 else -1)
      else some ((kept nd src).foldl push 0)).map fun m => (⟨m, textExpo nd src, signOf src⟩, textRest src) := by
  simp only [strtobcd, read_eq]
  by_cases h : RoundsUp nd src
  · simp only [if_pos h]
    rfl
  · simp only [if_neg h]
    rfl

/-! ## 残した数字 -/

theorem mem_fracDigits {c : UInt8} (h : c ∈ fracDigits src) : isdigit c = true := by
  rw [fracDigits] at h
  split at h
  · exact mem_takeWhile_digit h
  · exact absurd h List.not_mem_nil

theorem kept_digit : ∀ c ∈ kept nd src, isdigit c = true := by
  intro c hc
  rcases List.mem_append.1 hc with h | h
  · exact mem_takeWhile_digit (List.mem_of_mem_take h)
  · exact mem_fracDigits (List.mem_of_mem_take h)

theorem kept_length : (kept nd src).length ≤ nd := by
  rw [kept, List.length_append, List.length_take, List.length_take]
  omega

/-- 丸めるのは、残した数字が `nd` 個あるときに限る。 -/
theorem kept_length_of_rounds (h : RoundsUp nd src) : (kept nd src).length = nd := by
  rw [kept, List.length_append, List.length_take, List.length_take]
  rw [RoundsUp, cut] at h
  split at h
  · omega
  · by_contra hne
    rw [List.drop_of_length_le (by omega)] at h
    exact absurd h (by decide)

theorem kept_toNat (hw : 4 * nd ≤ w) : ((kept nd src).foldl push (0 : BitVec w)).toNat = val 16 (kept nd src) :=
  pushes_toNat kept_digit (Nat.le_trans (Nat.mul_le_mul_left 4 kept_length) hw)

theorem kept_lt : val 16 (kept nd src) < 16 ^ nd :=
  Nat.lt_of_lt_of_le (val_lt (by decide) kept_digit) (Nat.pow_le_pow_right (by decide) kept_length)

theorem signOf_isSign (src : List UInt8) : IsSign (signOf src) := by
  rw [signOf]
  split
  · exact Or.inr (Or.inl rfl)
  · exact Or.inl rfl

end Books.Dfp754
