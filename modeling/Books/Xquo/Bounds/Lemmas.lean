import Books.Dfp754.Lemmas.Strto
import Books.Xquo.Bounds.Code
import Books.Xquo.Lemmas

/-!
# 位置と読み残し

位置で読む関数は、その位置から後のバイトの並びを読む関数と同じ値を返し、読み終えた位置は並びの中にある。
-/

namespace Books.Xquo

open Books.Btree Books.Book Books.Lib Books.Dfp754

variable {line l : List UInt8} {f : UInt8 → Bool} {k n nd fuel : Nat} {c : UInt8}

/-! ## 走査 -/

theorem charAt_eq_headD (line : List UInt8) (i : Nat) : charAt line i = (line.drop i).headD 0 := by
  rcases Nat.lt_or_ge i line.length with h | h
  · rw [charAt, List.getD_eq_getElem _ _ h, List.drop_eq_getElem_cons h, List.headD_cons]
  · rw [charAt, List.getD_eq_default _ _ h, List.drop_of_length_le h, List.headD_nil]

theorem drop_takeWhile (f : UInt8 → Bool) (l : List UInt8) : l.drop (l.takeWhile f).length = l.dropWhile f := by
  induction l with
  | nil => rfl
  | cons c l ih =>
      rw [List.takeWhile_cons, List.dropWhile_cons]
      split
      · rw [List.length_cons, List.drop_succ_cons, ih]
      · rw [List.length_nil, List.drop_zero]

theorem drop_scan (f : UInt8 → Bool) (line : List UInt8) (k : Nat) :
    line.drop (k + ((line.drop k).takeWhile f).length) = (line.drop k).dropWhile f := by
  rw [← List.drop_drop, drop_takeWhile]

theorem scan_le (f : UInt8 → Bool) (h : k ≤ line.length) : k + ((line.drop k).takeWhile f).length ≤ line.length := by
  have hle := (List.takeWhile_prefix f (l := line.drop k)).length_le
  rw [List.length_drop] at hle
  omega

theorem scanAt_eq (hf : f 0 = false) (h : k ≤ line.length) :
    scanAt line f k = .ok (k + ((line.drop k).takeWhile f).length : Nat) :=
  skipWhile_eq hf h (by rw [scanFuel]; omega)

/-- 初めのバイトが NUL でなければ、次の位置も並びの中にある。 -/
theorem succ_le (hc : (line.drop k).headD 0 ≠ 0) : k + 1 ≤ line.length := by
  by_contra h
  rw [List.drop_of_length_le (by omega), List.headD_nil] at hc
  exact hc rfl

/-! ## 時刻 -/

theorem digitsAt_eq (h : k ≤ line.length) (hfuel : line.length - k < fuel) (n : Nat) : digitsAt line fuel k n =
    .ok (((line.drop k).takeWhile isdigit).foldl (fun n c => 10 * n + (c.toNat - 48)) n,
      (k + ((line.drop k).takeWhile isdigit).length : Nat)) := by
  induction fuel generalizing k n with
  | zero => exact absurd hfuel (Nat.not_lt_zero _)
  | succ fuel ih =>
      rw [digitsAt, peek_eq h, ok_bind]
      rcases Nat.lt_or_eq_of_le h with hlt | rfl
      · obtain ⟨c, hc⟩ : ∃ c, line.drop k = c :: line.drop (k + 1) := ⟨_, List.drop_eq_getElem_cons hlt⟩
        rw [hc, List.headD_cons, List.takeWhile_cons]
        by_cases hd : isdigit c = true
        · have hnext := ih (k := k + 1) hlt (by omega) (10 * n + (c.toNat - 48))
          rw [if_pos hd, if_pos hd, List.length_cons, List.foldl_cons, ← Int.natCast_succ, hnext, Nat.add_right_comm, Nat.add_assoc]
        · rw [if_neg hd, if_neg hd]
          rfl
      · rw [List.drop_length, List.headD_nil, if_neg (by decide)]
        rfl

/-- 符号は、一つまでである。 -/
theorem sign_take (r : List UInt8) :
    (r.take 1).takeWhile issign = if issign (r.headD 0) then [r.headD 0] else [] := by
  cases r with
  | nil => rfl
  | cons c r =>
      rw [List.take_succ_cons, List.take_zero, List.headD_cons]
      by_cases hc : issign c = true
      · rw [if_pos hc, List.takeWhile_cons_of_pos hc, List.takeWhile_nil]
      · rw [if_neg hc, List.takeWhile_cons_of_neg hc]

theorem sign_minus (r : List UInt8) : (r.take 1).takeWhile issign = [45] ↔ r.headD 0 = 45 := by
  rw [sign_take]
  by_cases hs : issign (r.headD 0) = true
  · rw [if_pos hs, List.cons.injEq, and_iff_left rfl]
  · rw [if_neg hs]
    exact iff_of_false (List.cons_ne_nil _ _).symm (fun h45 => hs (by rw [h45]; rfl))

theorem strtoulAt_eq (h : k ≤ line.length) :
    strtoulAt line k = .ok ((strtoul (line.drop k)).1, (k + (strtoul (line.drop k)).2 : Nat)) := by
  have hws := scan_le isspace h
  set e := k + ((line.drop k).takeWhile isspace).length with he
  have hr : (line.drop k).drop ((line.drop k).takeWhile isspace).length = line.drop e := List.drop_drop
  -- 符号の後の位置も、並びの中にある。
  obtain ⟨d, hd, hdle, hdrop, hlen⟩ : ∃ d : Nat, (if issign ((line.drop e).headD 0) then (e : Int) + 1 else e) = d ∧
      d ≤ line.length ∧ (line.drop e).drop (((line.drop e).take 1).takeWhile issign).length = line.drop d ∧
      d = e + (((line.drop e).take 1).takeWhile issign).length := by
    rw [sign_take]
    by_cases hs : issign ((line.drop e).headD 0) = true
    · refine ⟨e + 1, by rw [if_pos hs]; rfl, succ_le (fun h0 => ?_), by rw [if_pos hs, List.drop_drop]; rfl, by rw [if_pos hs]; rfl⟩
      rw [h0] at hs
      exact absurd hs (by decide)
    · exact ⟨e, by rw [if_neg hs], hws, by rw [if_neg hs]; rfl, by rw [if_neg hs]; rfl⟩
  have hdig : digitsAt line (scanFuel line) d 0 = _ := digitsAt_eq hdle (by rw [scanFuel]; omega) 0
  rw [← digitsVal] at hdig
  simp only [strtoulAt, scanAt_eq (f := isspace) rfl h, ← he, ok_bind, peek_eq hws, hd, hdig, strtoul, hr, hdrop]
  by_cases hds : (line.drop d).takeWhile isdigit = []
  · rw [hds, if_pos (by rw [List.length_nil, Nat.add_zero])]
    rfl
  · have hpos := List.length_pos_iff.mpr hds
    have hne : ¬ ((line.drop d).takeWhile isdigit).isEmpty = true := fun h => hds (List.isEmpty_iff.mp h)
    have hend : d + ((line.drop d).takeWhile isdigit).length = k + (((line.drop k).takeWhile isspace).length +
        (((line.drop e).take 1).takeWhile issign).length + ((line.drop d).takeWhile isdigit).length) := by omega
    rw [if_neg (by omega), if_neg hne, hend]
    simp only [sign_minus, pure_ok]

theorem strtoul_le (s : List UInt8) : (strtoul s).2 ≤ s.length := by
  have hws := (List.takeWhile_prefix isspace (l := s)).length_le
  have hsg := (List.takeWhile_prefix issign (l := (s.drop (s.takeWhile isspace).length).take 1)).length_le
  have hds := (List.takeWhile_prefix isdigit (l := (s.drop (s.takeWhile isspace).length).drop
    (((s.drop (s.takeWhile isspace).length).take 1).takeWhile issign).length)).length_le
  rw [List.length_take, List.length_drop] at hsg
  rw [List.length_drop, List.length_drop] at hds
  simp only [strtoul]
  split
  · exact Nat.zero_le _
  · simp only
    omega

theorem strtotvAt_eq (line : List UInt8) : strtotvAt line = .ok (strtotv line) := by
  have hread : strtoulAt line 0 = .ok ((strtoul line).1, ((strtoul line).2 : Int)) := by
    have h : strtoulAt line (0 : Nat) = _ := strtoulAt_eq (Nat.zero_le _)
    rw [List.drop_zero, Nat.zero_add] at h
    exact h
  have hpeek : peek 0 line (strtoul line).2 = .ok (charAt line (strtoul line).2) := by
    rw [peek_eq (strtoul_le line), charAt_eq_headD]
  simp only [strtotvAt, hread, ok_bind, strtotv]
  split
  · rfl
  · rw [hpeek, ok_bind]
    split
    · rename_i hdot
      rw [charAt_eq_headD] at hdot
      have hle : (strtoul line).2 + 1 ≤ line.length := succ_le (by rw [hdot]; decide)
      have hlen : ((((strtoul line).2 + 1 + (strtoul (line.drop ((strtoul line).2 + 1))).2 : Nat) : Int) -
          (((strtoul line).2 : Int) + 1)).toNat = (strtoul (line.drop ((strtoul line).2 + 1))).2 := by omega
      rw [← Int.natCast_succ, strtoulAt_eq hle, ok_bind]
      simp only [Int.natCast_succ, hlen]
      rfl
    · rfl

/-! ## 十進小数 -/

/-- `x` は、`r` の読み残しの位置を指す。 -/
def Reads (line : List UInt8) (r : Rd 64) (x : Except Fault RdAt) : Prop :=
  ∃ k : Nat, k ≤ line.length ∧ r.sp = line.drop k ∧ x = .ok ⟨k, r.mant, r.expo, r.nd, r.roff⟩

theorem pickAt_reads (de : Int) (nd : Nat) (h : k ≤ line.length) (mant : BitVec 64) (expo : Int) :
    Reads line (pickDigits de nd (line.drop k) mant expo) (pickAt line de nd k mant expo) := by
  induction nd generalizing k mant expo with
  | zero =>
      refine ⟨k, h, ?_, ?_⟩
      · rw [pickDigits]
      · rw [pickAt, peek_eq h, ok_bind, pickDigits]
        rfl
  | succ nd ih =>
      rcases Nat.lt_or_eq_of_le h with hlt | rfl
      · rw [pickAt, peek_eq h, ok_bind, List.drop_eq_getElem_cons hlt, List.headD_cons, pickDigits]
        split
        · exact ih hlt _ _
        · exact ⟨k, h, (List.drop_eq_getElem_cons hlt).symm, rfl⟩
      · rw [pickAt, peek_eq h, ok_bind, List.drop_length, List.headD_nil, if_neg (by decide), pickDigits]
        exact ⟨_, Nat.le_refl _, List.drop_length.symm, rfl⟩

theorem offAt_eq (h : k ≤ line.length) : offAt line k = .ok (offDigit (line.drop k)) := by
  rw [offAt, peek_eq h, ok_bind]
  rfl

theorem readIntAt_reads (h : k ≤ line.length) : Reads line (readInt 15 (line.drop k)) (readIntAt line k) := by
  obtain ⟨j, hj, hsp, hpick⟩ := pickAt_reads 0 15 h 0 0
  refine ⟨j + ((line.drop j).takeWhile Dfp754.isdigit).length, scan_le _ hj, ?_, ?_⟩
  · rw [drop_scan, ← hsp]
    rfl
  · simp only [readIntAt, hpick, ok_bind, offAt_eq hj, scanAt_eq (f := Dfp754.isdigit) rfl hj, readInt, hsp, pure_ok]
    congr 2
    omega

theorem readFracAt_reads {r : Rd 64} {x : RdAt} (h : Reads line r (.ok x)) : Reads line (readFrac r) (readFracAt line x) := by
  obtain ⟨k, hk, hsp, hx⟩ := h
  cases hx
  have hpeek : peek 0 line k = .ok (r.sp.headD 0) := by rw [peek_eq hk, hsp]
  simp only [readFracAt, readFrac, hpeek, ok_bind]
  split
  · rename_i hdot
    have hle : k + 1 ≤ line.length := succ_le (by rw [← hsp, hdot.1]; decide)
    have htail : r.sp.tail = line.drop (k + 1) := by rw [hsp, List.tail_drop]
    obtain ⟨j, hj, hsp', hpick⟩ := pickAt_reads (-1) r.nd hle r.mant r.expo
    refine ⟨j + ((line.drop j).takeWhile Dfp754.isdigit).length, scan_le _ hj, ?_, ?_⟩
    · rw [drop_scan, ← hsp', htail]
    · simp only [← Int.natCast_succ, hpick, ok_bind, offAt_eq hj, scanAt_eq (f := Dfp754.isdigit) rfl hj, htail, hsp', pure_ok]
  · split
    · rename_i hdot
      have hle : k + 1 ≤ line.length := succ_le (by rw [← hsp, hdot]; decide)
      have htail : r.sp.tail = line.drop (k + 1) := by rw [hsp, List.tail_drop]
      refine ⟨k + 1 + ((line.drop (k + 1)).takeWhile Dfp754.isdigit).length, scan_le _ hle, ?_, ?_⟩
      · rw [drop_scan, htail]
      · simp only [← Int.natCast_succ, ok_bind, offAt_eq hk, scanAt_eq (f := Dfp754.isdigit) rfl hle, hsp, pure_ok]
    · exact ⟨k, hk, hsp, rfl⟩

/-- 符号と先頭の `0` の後の位置。 -/
theorem digitsOf_at (h : k ≤ line.length) : ∃ d : Nat, d ≤ line.length ∧
    (if (line.drop k).headD 0 = 45 then (k : Int) + 1 else if (line.drop k).headD 0 = 43 then (k : Int) + 1 else k) = d ∧
    digitsOf (line.drop k) = (line.drop d).dropWhile fun c => decide (c = 48) := by
  by_cases hm : (line.drop k).headD 0 = 45
  · refine ⟨k + 1, succ_le (by rw [hm]; decide), by rw [if_pos hm]; rfl, ?_⟩
    rw [digitsOf, if_pos hm, List.tail_drop]
  · by_cases hp : (line.drop k).headD 0 = 43
    · refine ⟨k + 1, succ_le (by rw [hp]; decide), by rw [if_neg hm, if_pos hp]; rfl, ?_⟩
      rw [digitsOf, if_neg hm, if_pos hp, List.tail_drop]
    · refine ⟨k, h, by rw [if_neg hm, if_neg hp], ?_⟩
      rw [digitsOf, if_neg hm, if_neg hp]

/-- 位置で読む `strtobcd64` は、丸めが終わらないときの他は、並びを読む `strtobcd64` と同じ値を返す。 -/
theorem strtobcd64At_cases (fuel : Nat) (h : k ≤ line.length) :
    (∃ b, ∃ e : Nat, e ≤ line.length ∧ strtobcd64 fuel (line.drop k) = some (b, line.drop e) ∧
      strtobcd64At line fuel k = .ok (b, (e : Int))) ∨
    (strtobcd64 fuel (line.drop k) = none ∧ strtobcd64At line fuel k = .error .spin) := by
  obtain ⟨d, hd, hstart, hdigits⟩ := digitsOf_at h
  have hscan := scanAt_eq (f := fun c => decide (c = 48)) rfl hd
  have hle := scan_le (fun c => decide (c = 48)) hd
  have hsp := drop_scan (fun c => decide (c = 48)) line d
  rw [← hdigits] at hsp
  obtain ⟨j, hj, hjsp, hint⟩ := readIntAt_reads hle
  obtain ⟨e, he, hesp, hfrac⟩ := readFracAt_reads ⟨j, hj, hjsp, rfl⟩
  rw [hsp] at hint hesp hfrac
  have hsign : (if (line.drop k).headD 0 = 45 then (1 : Int) else 0) = signOf (line.drop k) := rfl
  simp only [strtobcd64At, peek_eq h, ok_bind, hstart, hscan, hint, hfrac, hsign]
  rw [strtobcd64, strtobcd]
  cases hround : (if (readFrac (readInt 15 (digitsOf (line.drop k)))).roff = 0 then
      some (readFrac (readInt 15 (digitsOf (line.drop k)))).mant
    else roundBcd64 fuel (readFrac (readInt 15 (digitsOf (line.drop k)))).mant
      (if signOf (line.drop k) = 0 then 1 else -1) : Option (BitVec 64)) with
  | none => exact Or.inr ⟨congrArg (Option.map _) hround, rfl⟩
  | some m =>
      refine Or.inl ⟨⟨m, (readFrac (readInt 15 (digitsOf (line.drop k)))).expo, signOf (line.drop k)⟩, e, he, ?_, rfl⟩
      rw [← hesp]
      exact congrArg (Option.map _) hround

/-! ## 行の走査 -/

theorem memrchrAt_eq (c : UInt8) (h : n ≤ line.length) :
    memrchrAt line c n = .ok (Option.map (fun i : Nat => (i : Int)) (memrchr line c n)) := by
  induction n with
  | zero => rfl
  | succ n ih =>
      have hn : n ≤ line.length := Nat.le_of_succ_le h
      rw [memrchrAt, peek_eq hn, ok_bind, ← charAt_eq_headD, memrchr, ih hn]
      split <;> rfl

theorem rewindAt_eq (h : n ≤ line.length) : rewindAt line n = .ok (rewind line n : Int) := by
  induction n with
  | zero => rfl
  | succ n ih =>
      have hn : n ≤ line.length := Nat.le_of_succ_le h
      rw [rewindAt, peek_eq hn, ok_bind, ← charAt_eq_headD, rewind, ih hn]
      split <;> rfl

theorem rewind_le (line : List UInt8) (n : Nat) : rewind line n ≤ n := by
  induction n with
  | zero => exact Nat.le_refl 0
  | succ n ih =>
      rw [rewind]
      split
      · exact Nat.le_refl _
      · exact Nat.le_succ_of_le ih

/-- 銘柄の列は、行の中にある。 -/
theorem instrAt_eq (h : n ≤ line.length) : instrAt line n = .ok (((instrOf line n).1 : Int), ((instrOf line n).2 : Int)) ∧
    (instrOf line n).1 + (instrOf line n).2 ≤ line.length := by
  cases n with
  | zero => exact ⟨rfl, Nat.zero_le _⟩
  | succ n =>
      have hn : n ≤ line.length := Nat.le_of_succ_le h
      have hpos : (0 : Int) < (n + 1 : Nat) := Int.natCast_pos.mpr (Nat.succ_pos n)
      have hpred : ((n + 1 : Nat) : Int) - 1 = n := by omega
      simp only [instrAt, if_pos hpos, hpred, Int.toNat_natCast, memrchrAt_eq tab hn, ok_bind, instrOf]
      cases hm : memrchr line tab n with
      | none => exact ⟨by simp, by rw [Nat.zero_add]; exact hn⟩
      | some j =>
          have hj := (memrchr_some hm).1
          have hdiff : (n : Int) - (j + 1) = (n - (j + 1) : Nat) := by omega
          simp only [Option.map_some, Option.elim_some, pure_ok, hdiff]
          exact ⟨rfl, by omega⟩

/-- 見つけたバイトの後に、同じバイトはない。 -/
theorem memrchr_after : ∀ {n i : Nat}, memrchr line c n = some i → ∀ j, i < j → j < n → charAt line j ≠ c
  | 0, _, h => by cases h
  | n + 1, i, h => by
      rw [memrchr] at h
      intro j hij hjn
      split at h
      · cases h
        omega
      · rename_i hn
        rcases Nat.lt_or_eq_of_le (Nat.le_of_lt_succ hjn) with hlt | rfl
        · exact memrchr_after h j hij hlt
        · exact hn

/-- 見つけたバイトの前と後。 -/
theorem memrchr_split {i : Nat} (hn : n ≤ line.length) (h : memrchr line c n = some i) :
    line = line.take i ++ c :: line.drop (i + 1) ∧ c ∉ (line.take n).drop (i + 1) := by
  obtain ⟨hi, hc⟩ := memrchr_some h
  have hlt : i < line.length := Nat.lt_of_lt_of_le hi hn
  refine ⟨?_, fun hmem => ?_⟩
  · rw [charAt, List.getD_eq_getElem _ _ hlt] at hc
    rw [← hc, ← List.drop_eq_getElem_cons hlt, List.take_append_drop]
  · obtain ⟨j, hj, he⟩ := List.getElem_of_mem hmem
    rw [List.length_drop, List.length_take] at hj
    rw [List.getElem_drop, List.getElem_take] at he
    refine memrchr_after h (i + 1 + j) (by omega) (by omega) ?_
    rw [charAt, List.getD_eq_getElem _ _ (by omega), he]

/-! ## 読み取りの停止 -/

theorem not_stuck (h : strtobcd64 fuel l ≠ none) : ¬ Stuck 15 l :=
  fun hs => h (strtobcd_stuck .xor (by decide) (by decide) hs fuel)

theorem reads_at (h : k ≤ line.length) (hs : ¬ Stuck 15 (line.drop k)) :
    ∃ n, ∀ fuel, n ≤ fuel → ∃ b, ∃ e : Nat, strtobcd64At line fuel k = .ok (b, (e : Int)) := by
  have hret : ∃ m : BitVec 64, m.toNat = parsedMant 15 (line.drop k) ∧ Returns (fun fuel => strtobcd64 fuel (line.drop k)) _ :=
    strtobcd_returns .xor (by decide) (by decide) hs
  obtain ⟨m, -, n, hn⟩ := hret
  refine ⟨n, fun fuel hfuel => ?_⟩
  rcases strtobcd64At_cases fuel h with ⟨b, e, -, -, he⟩ | ⟨hnone, -⟩
  · exact ⟨b, e, he⟩
  · have hsome : strtobcd64 fuel (line.drop k) = some _ := hn fuel hfuel
    rw [hnone] at hsome
    cases hsome

end Books.Xquo
