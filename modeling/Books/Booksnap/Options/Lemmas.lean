import Books.Booksnap.Options.Spec
import Books.Xquo.Time.Lemmas

/-!
# 単位と倍数
-/

namespace Books.Booksnap

open Books.Btree Books.Book Books.Xquo Books.Lib

variable {s r ds : List UInt8} {a b c : UInt8} {n : Nat} {u v : Tv}

/-! ## 単位の文字列 -/

theorem finish_eq {i : Nat} (h : i ≤ s.length) (t : Tv) :
    finish s ((i : Int) - 1) t = .ok (if (s.drop i).headD 0 = 0 then t else natv) := by
  rw [finish, Int.sub_add_cancel, peek_eq h, ok_bind]
  rfl

theorem finish_beyond {i : Nat} (h : s.length < i) (t : Tv) : finish s ((i : Int) - 1) t = .error (.outside i) := by
  rw [finish, Int.sub_add_cancel, peek_beyond (by omega), error_bind]

/-- NUL のない並びでは、NUL は並びの後にだけある。 -/
theorem headD_zero (h : 0 ∉ r) : r.headD 0 = 0 ↔ r = [] := by
  cases r with
  | nil => exact iff_of_true rfl rfl
  | cons b r =>
      rw [List.headD_cons]
      exact iff_of_false (fun hb => h (hb ▸ List.mem_cons_self)) (List.cons_ne_nil _ _)

/-- 小文字 `x` とその大文字 `y` は、`lower` で `x` になるバイトである。 -/
theorem lower_iff {x y : UInt8} (hx : 97 ≤ x ∧ x ≤ 122) (hy : y + 32 = x) (c : UInt8) : c = x ∨ c = y ↔ lower c = x := by
  subst hy
  unfold lower
  split <;> grind

theorem lower_s (c : UInt8) : c = 115 ∨ c = 83 ↔ lower c = 115 := lower_iff (by decide) (by decide) c

theorem lower_m (c : UInt8) : c = 109 ∨ c = 77 ↔ lower c = 109 := lower_iff (by decide) (by decide) c

theorem lower_h (c : UInt8) : c = 104 ∨ c = 72 ↔ lower c = 104 := lower_iff (by decide) (by decide) c

theorem lower_u (c : UInt8) : c = 117 ∨ c = 85 ↔ lower c = 117 := lower_iff (by decide) (by decide) c

theorem lower_n (c : UInt8) : c = 110 ∨ c = 78 ↔ lower c = 110 := lower_iff (by decide) (by decide) c

/-- 一バイト飛ばして終わりを見る枝。 -/
theorem finish_skip (hr : 0 ∉ r) (t : Tv) : finish (a :: r) 1 t =
    if r = [] then .error (.outside 2) else .ok (if r.tail = [] then t else natv) := by
  cases r with
  | nil => rw [if_pos rfl]; exact finish_beyond (s := [a]) (i := 2) (by simp) t
  | cons b r =>
      have h₂ : finish (a :: b :: r) 1 t = .ok (if r.headD 0 = 0 then t else natv) :=
        finish_eq (s := a :: b :: r) (i := 2) (by simp) t
      have hr' : 0 ∉ r := fun h => hr (List.mem_cons_of_mem _ h)
      rw [h₂, if_neg (List.cons_ne_nil _ _), List.tail_cons]
      simp only [headD_zero hr']

theorem finish_next (hr : 0 ∉ r) (t : Tv) : finish (a :: r) 0 t = .ok (if r = [] then t else natv) := by
  have h₁ : finish (a :: r) 0 t = .ok (if r.headD 0 = 0 then t else natv) := finish_eq (s := a :: r) (i := 1) (by simp) t
  rw [h₁]
  simp only [headD_zero hr]

/-- `sufstrtotv` が返すもの。 -/
theorem sufstrtotv_cons (ha : a ≠ 0) (hr : 0 ∉ r) : sufstrtotv (a :: r) =
    if lower a = 115 then .ok (if r = [] then nsecs else natv)
    else if lower a = 109 then .ok (if r = [] then 60 * nsecs else if r.map lower = [115] then usecs else natv)
    else if lower a = 104 then .ok (if r = [] then 60 * 60 * msecs else natv)
    else if lower a = 117 then if r = [] then .error (.outside 2) else .ok (if r.tail = [] then msecs else natv)
    else if lower a = 110 then if r = [] then .error (.outside 2) else .ok (if r.tail = [] then 1 else natv)
    else .ok natv := by
  have h₀ : peek 0 (a :: r) 0 = .ok a := peek_eq (i := 0) (Nat.zero_le _)
  have h₁ : peek 0 (a :: r) 1 = .ok (r.headD 0) := peek_eq (s := a :: r) (i := 1) (by simp)
  simp only [sufstrtotv, h₀, ok_bind, if_neg ha, lower_s, lower_m, lower_h, lower_u, lower_n, h₁, headD_zero hr,
    finish_next hr, finish_skip hr]
  cases r with
  | nil => simp
  | cons b r =>
      by_cases hb : lower b = 115
      · by_cases hnil : r = []
        · simp [hb, hnil]
        · simp [hb, hnil]
      · simp [hb]

theorem unitOf_cons (a : UInt8) (r : List UInt8) : unitOf (a :: r) =
    if lower a = 115 then if r = [] then nsecs else natv
    else if lower a = 109 then if r = [] then 60 * nsecs else if r.map lower = [115] then usecs else natv
    else if lower a = 104 then if r = [] then 60 * 60 * nsecs else natv
    else if lower a = 117 then if r.map lower = [115] then msecs else natv
    else if lower a = 110 then if r.map lower = [115] then 1 else natv
    else natv := by
  have hne : (a :: r).map lower ≠ [] := List.cons_ne_nil _ _
  have hcons : ∀ x : UInt8, ∀ y : List UInt8, (a :: r).map lower = x :: y ↔ lower a = x ∧ r.map lower = y :=
    fun x y => List.cons_eq_cons
  have hnil : r.map lower = [] ↔ r = [] := List.map_eq_nil_iff
  simp only [unitOf, if_neg hne, hcons, hnil]
  grind [nsecs, usecs, msecs]

/-- 一バイト飛ばす枝が正しいのは、飛ばすバイトが `s` であるか、その先にもバイトがあるときである。 -/
theorem skip_iff {t : Tv} (ht : t ≠ natv) :
    (if r = [] then (.error (.outside 2) : Except Fault Tv) else .ok (if r.tail = [] then t else natv)) =
      .ok (if r.map lower = [115] then t else natv) ↔ ¬ (r.length ≤ 1 ∧ r.map lower ≠ [115]) := by
  cases r with
  | nil => simp
  | cons b r =>
      cases r with
      | nil => by_cases hb : lower b = 115 <;> simp [hb, ht]
      | cons c r => simp

theorem hours_cons : IsHours (a :: r) ↔ lower a = 104 ∧ r = [] := by
  rw [IsHours, List.map_cons, List.cons.injEq, List.map_eq_nil_iff]

theorem misread_cons : Misread (a :: r) ↔ (lower a = 104 ∧ r = []) ∨
    (lower a = 117 ∨ lower a = 110) ∧ r.length ≤ 1 ∧ r.map lower ≠ [115] := by
  rw [Misread, hours_cons, List.map_cons, List.headD_cons, List.tail_cons, List.length_cons, Nat.add_le_add_iff_right (n := 1)]

/-- `sufstrtotv` が単位を正しく返すのは、誤って読まれる文字列の他である。 -/
theorem sufstrtotv_iff (hs : 0 ∉ s) : sufstrtotv s = .ok (unitOf s) ↔ ¬ Misread s := by
  cases s with
  | nil => decide
  | cons a r =>
      obtain ⟨ha, hr⟩ := not_or.mp (mt List.mem_cons.mpr hs)
      rw [sufstrtotv_cons (Ne.symm ha) hr, unitOf_cons, misread_cons]
      by_cases hsec : lower a = 115
      · simp [hsec]
      · by_cases hmin : lower a = 109
        · simp [hmin]
        · by_cases hhour : lower a = 104
          · by_cases hnil : r = []
            · simp [hhour, hnil]
              decide
            · simp [hhour, hnil]
          · by_cases hmicro : lower a = 117
            · simpa [hmicro] using skip_iff (r := r) (t := msecs) (by decide)
            · by_cases hnano : lower a = 110
              · simpa [hnano] using skip_iff (r := r) (t := 1) (by decide)
              · simp [hsec, hmin, hhour, hmicro, hnano]

/-- `sufstrtotv` が単位に対して返す値。 -/
def codeUnit (s : List UInt8) : Tv := if IsHours s then 60 * 60 * msecs else unitOf s

theorem unit_cons (h : IsUnit (a :: r)) (hu : lower a = 117 ∨ lower a = 110) : r.map lower = [115] := by
  by_contra hne
  refine h.2 ?_
  rw [unitOf_cons]
  rcases hu with hu | hu <;> simp [hu, hne]

theorem sufstrtotv_unit (hs : 0 ∉ s) (h : IsUnit s) : sufstrtotv s = .ok (codeUnit s) := by
  cases s with
  | nil => exact absurd rfl h.1
  | cons a r =>
      obtain ⟨ha, hr⟩ := not_or.mp (mt List.mem_cons.mpr hs)
      unfold codeUnit
      split
      · rename_i hhour
        obtain ⟨hhour, hnil⟩ := hours_cons.mp hhour
        rw [sufstrtotv_cons (Ne.symm ha) hr]
        simp [hhour, hnil]
      · rename_i hhour
        refine (sufstrtotv_iff hs).mpr (fun hm => ?_)
        rcases misread_cons.mp hm with hm | ⟨hu, -, hne⟩
        · exact hhour (hours_cons.mpr hm)
        · exact hne (unit_cons h hu)

theorem unitOf_hours (h : IsHours s) : unitOf s = 60 * 60 * nsecs := by
  rw [IsHours] at h
  simp only [unitOf, h]
  rfl

/-- `sufstrtotv` が返す単位は、説明の単位を超えず、違うのは `h` だけである。 -/
theorem codeUnit_spec (h : IsUnit s) : 0 < (codeUnit s).toNat ∧ (codeUnit s).toNat ≤ (unitOf s).toNat ∧ codeUnit s ≠ natv ∧
    ((codeUnit s).toNat = (unitOf s).toNat ↔ ¬ IsHours s) := by
  unfold codeUnit
  split
  · rename_i hhour
    rw [unitOf_hours hhour]
    exact ⟨by decide, by decide, by decide, iff_of_false (by decide) (not_not.mpr hhour)⟩
  · rename_i hhour
    exact ⟨Nat.pos_of_ne_zero (fun h0 => h.1 (UInt64.toNat.inj h0)), Nat.le_refl _, h.2, iff_of_true rfl hhour⟩

/-- 単位の前の数字は、単位で止まる。 -/
theorem unit_head (h : IsUnit s) : ∀ c, s.head? = some c → isdigit c = false := by
  intro c hc
  cases s with
  | nil => cases hc
  | cons a r =>
      cases hc
      have hletter : lower c = 115 ∨ lower c = 109 ∨ lower c = 104 ∨ lower c = 117 ∨ lower c = 110 := by
        by_contra hno
        simp only [not_or] at hno
        refine h.2 ?_
        rw [unitOf_cons]
        simp [hno]
      exact forall_byte (p := fun c => lower c = 115 ∨ lower c = 109 ∨ lower c = 104 ∨ lower c = 117 ∨ lower c = 110 →
        isdigit c = false) (by decide +kernel) c hletter

/-! ## 倍数 -/

/-- 抑えた倍数と、説明の単位以下の単位との積が正確であるのは、単位が正しいか倍数が 0 で、積が桁に収まるときである。 -/
theorem scale_iff (hv : 0 < v.toNat) (hle : v.toNat ≤ u.toNat) :
    (UInt64.ofNat (min n (2 ^ 64 - 1)) * v).toNat = n * u.toNat ↔ (v.toNat = u.toNat ∨ n = 0) ∧ n * u.toNat < 2 ^ 64 := by
  have hmul : (UInt64.ofNat (min n (2 ^ 64 - 1)) * v).toNat = min n (2 ^ 64 - 1) * v.toNat % 2 ^ 64 := by
    rw [UInt64.toNat_mul, UInt64.toNat_ofNat_of_lt' (by rw [UInt64.size]; omega)]
  have hnu : n ≤ n * u.toNat := Nat.le_mul_of_pos_right n (Nat.lt_of_lt_of_le hv hle)
  have hnv : n * v.toNat ≤ n * u.toNat := Nat.mul_le_mul_left n hle
  rw [hmul]
  constructor
  · intro h
    have hlt : n * u.toNat < 2 ^ 64 := h ▸ Nat.mod_lt _ (by decide)
    rw [Nat.min_eq_left (by omega), Nat.mod_eq_of_lt (by omega)] at h
    refine ⟨?_, hlt⟩
    rcases Nat.eq_zero_or_pos n with h0 | hpos
    · exact Or.inr h0
    · exact Or.inl (Nat.eq_of_mul_eq_mul_left hpos h)
  · rintro ⟨hunit, hlt⟩
    rw [Nat.min_eq_left (by omega), Nat.mod_eq_of_lt (by omega)]
    rcases hunit with hunit | rfl
    · rw [hunit]
    · rw [Nat.zero_mul, Nat.zero_mul]

theorem clamp_bmod_iff {z : Int} {m k : Nat} (hv : 0 < m) (hle : m ≤ k) :
    (clampLong z * m).bmod (2 ^ 64) = z * k ↔ (m = k ∨ z = 0) ∧ -2 ^ 63 ≤ z * k ∧ z * k < 2 ^ 63 := by
  have hkz : z.natAbs ≤ (z * k).natAbs := by
    rw [Int.natAbs_mul, Int.natAbs_natCast]
    exact Nat.le_mul_of_pos_right _ (Nat.lt_of_lt_of_le hv hle)
  have hmk : (z * m).natAbs ≤ (z * k).natAbs := by
    rw [Int.natAbs_mul, Int.natAbs_mul, Int.natAbs_natCast, Int.natAbs_natCast]
    exact Nat.mul_le_mul_left _ hle
  have hsign : ∀ j : Nat, 0 < j → (0 ≤ z * (j : Int) ↔ 0 ≤ z) :=
    fun j hj => Int.mul_nonneg_iff_of_pos_right (Int.natCast_pos.mpr hj)
  have hsignm := hsign m hv
  have hsignk := hsign k (Nat.lt_of_lt_of_le hv hle)
  have hexact : -2 ^ 63 ≤ z * k ∧ z * k < 2 ^ 63 → (clampLong z * m).bmod (2 ^ 64) = z * m := by
    rintro ⟨hlo, hhi⟩
    have hclamp : clampLong z = z := by
      rw [clampLong]
      omega
    rw [hclamp, Int.bmod_eq_of_le (by omega) (by omega)]
  constructor
  · intro h
    have hlo := Int.le_bmod (x := clampLong z * m) (m := 2 ^ 64) (by decide)
    have hhi := Int.bmod_lt (x := clampLong z * m) (m := 2 ^ 64) (by decide)
    have hrange : -2 ^ 63 ≤ z * k ∧ z * k < 2 ^ 63 := by
      rw [h] at hlo hhi
      omega
    rw [hexact hrange] at h
    refine ⟨?_, hrange⟩
    by_cases hz : z = 0
    · exact Or.inr hz
    · exact Or.inl (Int.ofNat.inj (Int.eq_of_mul_eq_mul_left hz h))
  · rintro ⟨hunit, hrange⟩
    rw [hexact hrange]
    rcases hunit with rfl | rfl
    · rfl
    · rw [Int.zero_mul, Int.zero_mul]

/-! ## 引数の読み取り -/

theorem strtol_run (hd : Digits ds) (neg : Bool) (hs : ∀ c, s.head? = some c → isdigit c = false) :
    strtol (minus neg ++ (ds ++ s)) = (clampLong (signed neg (digitsVal ds)), (minus neg ++ ds).length) := by
  obtain ⟨hne, hdigit⟩ := hd
  have htake := takeWhile_digits hdigit hs
  cases neg with
  | true =>
      have hws : (45 :: (ds ++ s)).takeWhile isspace = [] := List.takeWhile_cons_of_neg (by decide)
      have hsg : ((45 :: (ds ++ s)).take 1).takeWhile issign = [45] := rfl
      simp only [minus, signed, if_true, List.singleton_append, strtol, hws, List.length_nil, List.drop_zero, hsg,
        List.drop_succ_cons, htake, List.length_cons]
      rw [if_neg (by rw [List.isEmpty_iff]; exact hne), Nat.zero_add, Nat.add_comm]
  | false =>
      obtain ⟨x, u, rfl⟩ := List.exists_cons_of_ne_nil hne
      have hx := hdigit x List.mem_cons_self
      have hws : (x :: u ++ s).takeWhile isspace = [] := by
        rw [List.cons_append, List.takeWhile_cons_of_neg (by rw [isspace_of_isdigit hx]; decide)]
      have hsg : ((x :: u ++ s).take 1).takeWhile issign = [] := by
        rw [List.cons_append, List.take_succ_cons, List.takeWhile_cons_of_neg (by rw [issign_of_isdigit hx]; decide)]
      have hminus : minus false = [] := rfl
      simp only [hminus, List.nil_append, strtol, hws, List.length_nil, List.drop_zero, hsg, htake, List.isEmpty_cons]
      simp [signed]

theorem orElse_eq (h : 0 < v.toNat) (d : Tv) : orElse v d = v :=
  if_neg (fun h0 => by rw [h0] at h; exact absurd h (by decide))

section Readers
variable (hd : Digits ds) (hs : 0 ∉ s) (h : IsUnit s)
include hd hs h

omit hs in
theorem strtoul_unit : strtoul (ds ++ s) = (UInt64.ofNat (min (digitsVal ds) (2 ^ 64 - 1)), ds.length) := by
  rw [strtoul_run hd (unit_head h), saturated_eq]

theorem readInterval_unit : readInterval (ds ++ s) =
    .ok (if digitsVal ds = 0 then none else some (UInt64.ofNat (min (digitsVal ds) (2 ^ 64 - 1)) * codeUnit s)) := by
  obtain ⟨hpos, -, hnatv, -⟩ := codeUnit_spec h
  have hzero : UInt64.ofNat (min (digitsVal ds) (2 ^ 64 - 1)) = 0 ↔ digitsVal ds = 0 := saturated_zero _
  simp only [readInterval, strtoul_unit hd h, List.drop_left, sufstrtotv_unit hs h, ok_bind, hzero, if_neg hnatv,
    orElse_eq hpos]
  split <;> rfl

theorem readInvalidate_unit (intv : Tv) : readInvalidate intv (ds ++ s) =
    .ok (some (UInt64.ofNat (min (digitsVal ds) (2 ^ 64 - 1)) * codeUnit s)) := by
  obtain ⟨hpos, -, hnatv, -⟩ := codeUnit_spec h
  simp only [readInvalidate, strtoul_unit hd h, List.drop_left, sufstrtotv_unit hs h, ok_bind, if_neg hnatv,
    orElse_eq hpos]
  rfl

theorem readOffset_unit (neg : Bool) : readOffset (minus neg ++ (ds ++ s)) =
    .ok (some ((clampLong (signed neg (digitsVal ds)) * (codeUnit s).toNat).bmod (2 ^ 64))) := by
  obtain ⟨hpos, -, hnatv, -⟩ := codeUnit_spec h
  have hdrop : (minus neg ++ (ds ++ s)).drop (minus neg ++ ds).length = s := by
    rw [← List.append_assoc, List.drop_left]
  simp only [readOffset, strtol_run hd neg (unit_head h), hdrop, sufstrtotv_unit hs h, ok_bind, hnatv, and_false, if_false,
    orElse_eq hpos]
  rfl

end Readers

end Books.Booksnap
