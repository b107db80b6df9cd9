import Books.Dfp754.Lemmas.Strto
import Mathlib.Tactic.Linarith
import Mathlib.Tactic.FieldSimp

/-!
# 文字列の値と読み取った値
-/

namespace Books.Dfp754

open Books.Lib

variable {N nd : Nat} {src ds ip : List UInt8} {fp : Option (List UInt8)}

/-! ## 末尾の 9 -/

theorem val_nines (t : Nat) : val 10 (List.replicate t 57) + 1 = 10 ^ t := by
  induction t with
  | zero => rfl
  | succ t ih =>
      have h9 : digitOf 57 = 9 := rfl
      rw [List.replicate_succ', val_snoc, h9, Nat.pow_succ, ← ih]
      ring

theorem unnined_append (hlen : ds.length = N) (hd : ∀ c ∈ ds, isdigit c = true) :
    ds = unnined ds ++ List.replicate (trail 9 N (val 16 ds)) 57 := by
  induction ds using List.reverseRecOn generalizing N with
  | nil =>
      subst hlen
      rfl
  | append_singleton ds c ih =>
      rw [List.length_append, List.length_singleton] at hlen
      subst hlen
      have hc := digitOf_lt (hd c (by simp))
      have hmod : (val 16 ds * 16 + digitOf c) % 16 = digitOf c := by omega
      have hdiv : (val 16 ds * 16 + digitOf c) / 16 = val 16 ds := by omega
      have hih := ih rfl (fun d h => hd d (by simp [h]))
      have h9 : digitOf c = 9 ↔ c = 57 := digitOf_inj (d := 57)
      rw [val_snoc, trail, hmod, hdiv, unnined]
      by_cases h57 : c = 57
      · rw [if_pos (h9.2 h57), List.rdropWhile_concat_pos _ ds c (by simpa using h57), List.replicate_succ', ← List.append_assoc,
          ← unnined, ← hih, h57]
      · rw [if_neg (mt h9.1 h57), List.rdropWhile_concat_neg _ ds c (by simpa using h57)]
        simp

theorem unnined_digit (hd : ∀ c ∈ ds, isdigit c = true) : ∀ c ∈ unnined ds, isdigit c = true :=
  fun c hc => hd c ((List.rdropWhile_prefix _ _).subset hc)

variable (hlen : ds.length = N) (hd : ∀ c ∈ ds, isdigit c = true)
include hlen hd

theorem unnined_length : (unnined ds).length = N - trail 9 N (val 16 ds) := by
  have h := congrArg List.length (unnined_append hlen hd)
  rw [List.length_append, List.length_replicate] at h
  omega

theorem unnined_div : val 16 ds / 16 ^ trail 9 N (val 16 ds) = val 16 (unnined ds) := by
  have hnine : ∀ c ∈ List.replicate (trail 9 N (val 16 ds)) 57, isdigit c = true := fun c hc => by
    rw [List.eq_of_mem_replicate hc]
    decide
  have hlt := val_lt (b := 16) (by decide) hnine
  rw [List.length_replicate] at hlt
  have hval := congrArg (val 16) (unnined_append hlen hd)
  rw [val_append, List.length_replicate] at hval
  refine Nat.div_eq_of_lt_le (by omega) ?_
  rw [Nat.succ_mul]
  omega

theorem unnined_succ : 10 ^ trail 9 N (val 16 ds) * (val 10 (unnined ds) + 1) = val 10 ds + 1 := by
  have hval := congrArg (val 10) (unnined_append hlen hd)
  have h9 := val_nines (trail 9 N (val 16 ds))
  rw [val_append, List.length_replicate] at hval
  rw [hval, Nat.add_assoc, h9]
  ring

omit hlen hd

/-- 桁の数は、基数に依らない。 -/
theorem val_lt_iff (hd : ∀ c ∈ ds, isdigit c = true) (l : Nat) : val 16 ds < 16 ^ l ↔ val 10 ds < 10 ^ l := by
  have hk : ds.length ≤ max ds.length l := le_max_left _ _
  have hlt : val 16 ds < 16 ^ max ds.length l :=
    Nat.lt_of_lt_of_le (val_lt (by decide) hd) (Nat.pow_le_pow_right (by decide) hk)
  rw [← val_ten hd hk]
  exact (recode_lt_iff (val_digits hd _) hlt (by decide) (by decide) (le_max_right _ _)).symm

/-! ## 読み取った仮数の値 -/

/-- 切り上げた仮数の値。末尾の 9 の上の桁は、下の 32 ビットだけが残る。 -/
theorem coef_rounds (hr : RoundsUp nd src) (h45 : src.headD 0 ≠ 45) :
    recode id 16 10 (nd + 1) (parsedMant nd src) = 10 ^ trail 9 nd (val 16 (kept nd src)) *
      (recode id 16 10 (nd - trail 9 nd (val 16 (kept nd src))) (val 16 (unnined (kept nd src)) % 16 ^ 8) + 1) := by
  have hlen : (kept nd src).length = nd := kept_length_of_rounds hr
  have hcar : carried src = 9 := if_pos (signOf_eq_zero.2 h45)
  have hroff : roffOf src = 1 := if_pos (signOf_eq_zero.2 h45)
  have hstem : stem 9 nd (val 16 (kept nd src)) = val 16 (unnined (kept nd src)) % 16 ^ 8 := by
    rw [stem, unnined_div hlen kept_digit]
    rfl
  rcases Nat.lt_or_ge (trail 9 nd (val 16 (kept nd src))) nd with ht | ht
  · have hdig : Digits (· < 10) 16 nd (val 16 (kept nd src)) := val_digits kept_digit nd
    have hc : Carry 1 9 := Or.inl ⟨rfl, rfl⟩
    have hlt := rounded_lt hdig kept_lt hc ht
    have hrec := rounded_recode hdig hc ht
    rw [parsedMant, if_pos hr, hcar, hroff, recode_of_lt rfl hlt (Nat.le_succ nd), ← hstem]
    exact_mod_cast hrec
  · -- どの数字も 9 なら、仮数は `16 ^ nd` になる。
    have htop : trail 9 nd (val 16 (kept nd src)) = nd := Nat.le_antisymm (trail_le 9 nd _) ht
    have hone : recode id 16 10 (nd + 1) (1 * 16 ^ nd) = 10 ^ nd * recode id 16 10 1 1 := recode_shl rfl (by decide) nd
    rw [parsedMant, if_pos hr, hcar, hroff, rounded_nines kept_lt htop, htop, Nat.sub_self, recode_zero, Nat.zero_add,
      ← Nat.one_mul (16 ^ nd), hone]
    rfl

/-- 末尾の 9 を除いた数字が 8 桁に収まれば、切り上げた値は一つ大きい。 -/
theorem coef_rounds_fit (hr : RoundsUp nd src) (h45 : src.headD 0 ≠ 45) (hfit : val 10 (unnined (kept nd src)) < 10 ^ 8) :
    recode id 16 10 (nd + 1) (parsedMant nd src) = val 10 (kept nd src) + 1 := by
  have hlen : (kept nd src).length = nd := kept_length_of_rounds hr
  have hdig : ∀ c ∈ unnined (kept nd src), isdigit c = true := unnined_digit kept_digit
  have hul := unnined_length hlen kept_digit
  have hval : recode id 16 10 (nd - trail 9 nd (val 16 (kept nd src))) (val 16 (unnined (kept nd src))) =
      val 10 (unnined (kept nd src)) := val_ten hdig (Nat.le_of_eq hul)
  have hlt : val 16 (unnined (kept nd src)) < 16 ^ 8 := (val_lt_iff hdig 8).2 hfit
  rw [coef_rounds hr h45, Nat.mod_eq_of_lt hlt, hval, unnined_succ hlen kept_digit]

/-- そうでなければ、切り上げた値は大きく減る。 -/
theorem coef_rounds_wrap (hr : RoundsUp nd src) (h45 : src.headD 0 ≠ 45) (hfit : 10 ^ 8 ≤ val 10 (unnined (kept nd src))) :
    recode id 16 10 (nd + 1) (parsedMant nd src) + 10 ^ 8 ≤ val 10 (kept nd src) + 1 := by
  have hlen : (kept nd src).length = nd := kept_length_of_rounds hr
  have hdig : ∀ c ∈ unnined (kept nd src), isdigit c = true := unnined_digit kept_digit
  have hul := unnined_length hlen kept_digit
  have hge : 16 ^ 8 ≤ val 16 (unnined (kept nd src)) := Nat.le_of_not_lt (mt (val_lt_iff hdig 8).1 (by omega))
  have hlt : val 16 (unnined (kept nd src)) < 16 ^ (nd - trail 9 nd (val 16 (kept nd src))) := by
    rw [← hul]
    exact val_lt (by decide) hdig
  have h8 : 8 ≤ nd - trail 9 nd (val 16 (kept nd src)) :=
    Nat.le_of_lt ((Nat.pow_lt_pow_iff_right (by decide)).1 (Nat.lt_of_le_of_lt hge hlt))
  have hval : recode id 16 10 (nd - trail 9 nd (val 16 (kept nd src))) (val 16 (unnined (kept nd src))) =
      val 10 (unnined (kept nd src)) := val_ten hdig (Nat.le_of_eq hul)
  have hwrap := recode_mod_add_le (val_digits hdig _) hlt h8 (by decide) hge
  rw [hval] at hwrap
  rw [coef_rounds hr h45, ← unnined_succ hlen kept_digit]
  have hpos : 0 < 10 ^ trail 9 nd (val 16 (kept nd src)) := Nat.pow_pos (by decide)
  have hmono := Nat.mul_le_mul_left (10 ^ trail 9 nd (val 16 (kept nd src))) (Nat.succ_le_succ hwrap)
  have hstep := Nat.le_mul_of_pos_left (10 ^ 8) hpos
  rw [Nat.succ_eq_add_one, Nat.add_right_comm, Nat.mul_add] at hmono
  exact Nat.le_trans (Nat.add_le_add_left hstep _) hmono

theorem coef_plain (hr : ¬ RoundsUp nd src) : recode id 16 10 (nd + 1) (parsedMant nd src) = val 10 (kept nd src) := by
  rw [parsedMant, if_neg hr, val_ten kept_digit (Nat.le_succ_of_le kept_length)]

/-! ## 溢れた数字 -/

/-- 仮数に残らない数字。 -/
def lost (nd : Nat) (src : List UInt8) : List UInt8 :=
  (intDigits src).drop nd ++ (fracDigits src).drop (nd - (intDigits src).length)

theorem kept_append_lost (nd : Nat) (src : List UInt8) : kept nd src ++ lost nd src = intDigits src ++ fracDigits src := by
  rw [kept, lost]
  rcases Nat.le_total (intDigits src).length nd with h | h
  · rw [List.take_of_length_le h, List.drop_of_length_le h, List.nil_append, List.append_assoc, List.take_append_drop]
  · rw [Nat.sub_eq_zero_of_le h, List.take_zero, List.drop_zero, List.append_nil, ← List.append_assoc, List.take_append_drop]

theorem lost_digit : ∀ c ∈ lost nd src, isdigit c = true := by
  intro c hc
  rcases List.mem_append.1 hc with h | h
  · exact mem_takeWhile_digit (List.mem_of_mem_drop h)
  · exact mem_fracDigits (List.mem_of_mem_drop h)

theorem textExpo_lost (nd : Nat) (src : List UInt8) :
    textExpo nd src = ((lost nd src).length : Int) - (fracDigits src).length := by
  rw [textExpo, lost, List.length_append, List.length_drop, List.length_drop, List.length_take]
  omega

theorem half_iff (hd : ∀ c ∈ ds, isdigit c = true) : 53 ≤ ds.headD 0 ↔ 10 ^ ds.length ≤ 2 * val 10 ds := by
  cases ds with
  | nil => decide
  | cons c ds =>
      have hc := digitOf_lt (hd c List.mem_cons_self)
      have hlt := val_lt (Nat.le_refl 10) (fun d h => hd d (List.mem_cons_of_mem c h))
      have hsplit : val 10 (c :: ds) = digitOf c * 10 ^ ds.length + val 10 ds := by
        rw [← List.singleton_append, val_append]
        simp [val]
      have h5 : 53 ≤ c ↔ 5 ≤ digitOf c := by
        have hdc := hd c List.mem_cons_self
        simp only [isdigit, Bool.and_eq_true, decide_eq_true_eq] at hdc
        have h1 : 48 ≤ c.toNat := UInt8.le_iff_toNat_le.1 hdc.1
        rw [digitOf, UInt8.toNat_sub_of_le c 48 hdc.1, UInt8.le_iff_toNat_le, show (48 : UInt8).toNat = 48 from rfl,
          show (53 : UInt8).toNat = 53 from rfl]
        omega
      rw [List.headD_cons, h5, List.length_cons, Nat.pow_succ, hsplit]
      constructor
      · intro h
        nlinarith
      · intro h
        by_contra hlt5
        nlinarith

/-- 溢れた数字の初めを見て丸める。ただし、整数部がちょうど `nd` 桁のときは丸めない。 -/
theorem roundsUp_iff : RoundsUp nd src ↔ (intDigits src).length ≠ nd ∧ 53 ≤ (lost nd src).headD 0 := by
  rw [RoundsUp, cut, lost]
  rcases Nat.lt_trichotomy (intDigits src).length nd with h | h | h
  · have hnone : (intDigits src).drop nd = [] := List.drop_of_length_le (by omega)
    rw [if_neg (by omega), hnone, List.nil_append]
    exact ⟨fun h5 => ⟨by omega, h5⟩, fun h5 => h5.2⟩
  · rw [if_pos (by omega), List.drop_of_length_le (by omega)]
    exact ⟨fun h5 => absurd h5 (by decide), fun h5 => absurd h h5.1⟩
  · obtain ⟨c, r, hr⟩ := List.exists_cons_of_ne_nil (l := (intDigits src).drop nd) (by
      rw [ne_eq, List.drop_eq_nil_iff]
      omega)
    rw [if_pos (by omega), hr]
    exact ⟨fun h5 => ⟨by omega, h5⟩, fun h5 => h5.2⟩

/-! ## 符号のない文字列 -/

section Plain

variable (hip : ∀ c ∈ ip, isdigit c = true)
include hip

theorem headD_plain (fp : Option (List UInt8)) : (plainText ip fp).headD 0 ≠ 45 ∧ (plainText ip fp).headD 0 ≠ 43 := by
  cases ip with
  | nil =>
      cases fp with
      | none => exact ⟨by decide, by decide⟩
      | some fs => exact ⟨(by decide : (46 : UInt8) ≠ 45), (by decide : (46 : UInt8) ≠ 43)⟩
  | cons c ip =>
      have hc := hip c List.mem_cons_self
      refine ⟨fun h => ?_, fun h => ?_⟩
      all_goals
        have hcv : c = _ := h
        rw [hcv] at hc
        exact absurd hc (by decide)

theorem digitsOf_plain :
    digitsOf (plainText ip fp) = (ip.dropWhile fun c => decide (c = 48)) ++ fp.elim [] fun ds => 46 :: ds := by
  obtain ⟨h45, h43⟩ := headD_plain hip fp
  have htail : (fp.elim [] fun ds => 46 :: ds).dropWhile (fun c => decide (c = 48)) = fp.elim [] fun ds => 46 :: ds := by
    cases fp <;> rfl
  simp only [digitsOf, if_neg h45, if_neg h43]
  rw [plainText, List.dropWhile_append]
  split
  · rename_i hempty
    rw [htail, List.isEmpty_iff.1 hempty, List.nil_append]
  · rfl

theorem plain_parts (hfp : ∀ c ∈ fp.getD [], isdigit c = true) :
    intDigits (plainText ip fp) = (ip.dropWhile fun c => decide (c = 48)) ∧ fracDigits (plainText ip fp) = fp.getD [] ∧
      textRest (plainText ip fp) = [] := by
  have hint : ∀ c ∈ ip.dropWhile fun c => decide (c = 48), isdigit c = true :=
    fun c hc => hip c ((List.dropWhile_suffix _).subset hc)
  have htake : ∀ ds : List UInt8, (∀ c ∈ ds, isdigit c = true) → ds.takeWhile isdigit = ds :=
    fun ds h => List.takeWhile_eq_self_iff.2 h
  have hdrop : ∀ ds : List UInt8, (∀ c ∈ ds, isdigit c = true) → ds.dropWhile isdigit = [] :=
    fun ds h => List.dropWhile_eq_nil_iff.2 h
  have hpoint : ∀ ds : List UInt8, (46 :: ds).takeWhile isdigit = [] ∧ (46 :: ds).dropWhile isdigit = 46 :: ds :=
    fun ds => ⟨List.takeWhile_cons_of_neg (by decide), List.dropWhile_cons_of_neg (by decide)⟩
  simp only [intDigits, fracDigits, textRest, digitsOf_plain hip, List.takeWhile_append_of_pos hint,
    List.dropWhile_append_of_pos hint]
  cases fp with
  | none => exact ⟨List.append_nil _, rfl, rfl⟩
  | some fs =>
      refine ⟨?_, ?_, ?_⟩
      · rw [Option.elim_some, (hpoint fs).1, List.append_nil]
      · rw [Option.elim_some, (hpoint fs).2]
        exact htake fs hfp
      · rw [Option.elim_some, (hpoint fs).2]
        exact hdrop fs hfp

end Plain

/-! ## 値と誤差 -/

theorem val_dropWhile (b : Nat) (ds : List UInt8) : val b (ds.dropWhile fun c => decide (c = 48)) = val b ds := by
  induction ds with
  | nil => rfl
  | cons c ds ih =>
      rw [List.dropWhile_cons]
      split
      · rename_i hc
        rw [ih, of_decide_eq_true hc, ← List.singleton_append, val_append]
        simp [val, digitOf]
      · rfl

/-- 溢れた数字の、一番下の桁を 1 とした値。 -/
def lostVal (nd : Nat) (src : List UInt8) : ℚ := val 10 (lost nd src) / 10 ^ (lost nd src).length

theorem lostVal_bounds (nd : Nat) (src : List UInt8) : 0 ≤ lostVal nd src ∧ lostVal nd src < 1 := by
  have hlt : (val 10 (lost nd src) : ℚ) < 10 ^ (lost nd src).length := by
    have hv : val 10 (lost nd src) < 10 ^ (lost nd src).length := val_lt (Nat.le_refl 10) lost_digit
    exact_mod_cast hv
  exact ⟨by unfold lostVal; positivity, (div_lt_one (by positivity)).2 hlt⟩

theorem lostVal_half (nd : Nat) (src : List UInt8) :
    1 / 2 ≤ lostVal nd src ↔ 10 ^ (lost nd src).length ≤ 2 * val 10 (lost nd src) := by
  rw [lostVal, div_le_div_iff₀ (by norm_num) (by positivity), one_mul, mul_comm]
  exact_mod_cast Iff.rfl

theorem textVal_eq (nd : Nat) (hip : ∀ c ∈ ip, isdigit c = true) (hfp : ∀ c ∈ fp.getD [], isdigit c = true) :
    textVal ip fp = (val 10 (kept nd (plainText ip fp)) + lostVal nd (plainText ip fp)) * 10 ^ textExpo nd (plainText ip fp) := by
  obtain ⟨hint, hfrac, _⟩ := plain_parts hip hfp
  have hval : val 10 (ip ++ fp.getD []) = val 10 (kept nd (plainText ip fp)) * 10 ^ (lost nd (plainText ip fp)).length +
      val 10 (lost nd (plainText ip fp)) := by
    rw [← val_append, kept_append_lost, hint, hfrac, val_append, val_append, val_dropWhile]
  rw [textVal, hval, textExpo_lost, hfrac, lostVal, zpow_sub₀ (by norm_num), zpow_natCast, zpow_natCast]
  push_cast
  field_simp

theorem coef_near_iff (h45 : src.headD 0 ≠ 45) :
    |(recode id 16 10 (nd + 1) (parsedMant nd src) : ℚ) - (val 10 (kept nd src) + lostVal nd src)| ≤ 1 / 2 ↔
      (RoundsUp nd src → val 10 (unnined (kept nd src)) < 10 ^ 8) ∧
      ((intDigits src).length = nd → 2 * val 10 (fracDigits src) ≤ 10 ^ (fracDigits src).length) := by
  obtain ⟨h0, h1⟩ := lostVal_bounds nd src
  have hhalf : 53 ≤ (lost nd src).headD 0 ↔ 1 / 2 ≤ lostVal nd src := (half_iff lost_digit).trans (lostVal_half nd src).symm
  by_cases hr : RoundsUp nd src
  · obtain ⟨hne, h5⟩ := roundsUp_iff.1 hr
    have hge := hhalf.1 h5
    by_cases hfit : val 10 (unnined (kept nd src)) < 10 ^ 8
    · have hnear : |(val 10 (kept nd src) + 1 : ℚ) - (val 10 (kept nd src) + lostVal nd src)| ≤ 1 / 2 := by
        rw [abs_le]
        constructor <;> linarith
      rw [coef_rounds_fit hr h45 hfit, Nat.cast_succ]
      exact iff_of_true hnear ⟨fun _ => hfit, fun h => absurd h hne⟩
    · have hwrap := coef_rounds_wrap hr h45 (Nat.le_of_not_lt hfit)
      have hq : (recode id 16 10 (nd + 1) (parsedMant nd src) : ℚ) + 10 ^ 8 ≤ val 10 (kept nd src) + 1 := by
        exact_mod_cast hwrap
      refine iff_of_false (fun hn => ?_) (fun h => hfit (h.1 hr))
      have hlo := (abs_le.1 hn).1
      norm_num at hq hlo
      linarith
  · rw [coef_plain hr, sub_add_cancel_left, abs_neg, abs_of_nonneg h0]
    by_cases hI : (intDigits src).length = nd
    · have hlost : lost nd src = fracDigits src := by
        rw [lost, List.drop_of_length_le (Nat.le_of_eq hI), hI, Nat.sub_self, List.drop_zero, List.nil_append]
      have hle : lostVal nd src ≤ 1 / 2 ↔ 2 * val 10 (fracDigits src) ≤ 10 ^ (fracDigits src).length := by
        rw [lostVal, hlost, div_le_div_iff₀ (by positivity) (by norm_num), one_mul, mul_comm]
        exact_mod_cast Iff.rfl
      rw [hle]
      exact ⟨fun h => ⟨fun h' => absurd h' hr, fun _ => h⟩, fun h => h.2 hI⟩
    · have hlt : ¬ 1 / 2 ≤ lostVal nd src := fun h => hr (roundsUp_iff.2 ⟨hI, hhalf.2 h⟩)
      exact iff_of_true (by linarith) ⟨fun h' => absurd h' hr, fun h => absurd h hI⟩

theorem lost_nil (h : (intDigits src).length + (fracDigits src).length ≤ nd) : lost nd src = [] := by
  rw [lost, List.drop_of_length_le (by omega), List.drop_of_length_le (by omega), List.nil_append]

theorem near_scale {c x p : ℚ} (hp : 0 < p) : |c * p - x * p| ≤ 1 / 2 * p ↔ |c - x| ≤ 1 / 2 := by
  rw [← sub_mul, abs_mul, abs_of_pos hp, mul_le_mul_iff_left₀ hp]

theorem correctlyRounded_iff {w : Nat} (o : Join) (hw : 32 ≤ w) (hN : w / 4 = nd + 1) (hip : ∀ c ∈ ip, isdigit c = true)
    (hfp : ∀ c ∈ fp.getD [], isdigit c = true) :
    CorrectlyRounded (strtobcd o nd : Nat → List UInt8 → Option (Bcd w × List UInt8)) nd ip fp ↔
      (RoundsUp nd (plainText ip fp) → val 10 (unnined (kept nd (plainText ip fp))) < 10 ^ 8) ∧
      ((ip.dropWhile fun c => decide (c = 48)).length = nd → 2 * val 10 (fp.getD []) ≤ 10 ^ (fp.getD []).length) := by
  obtain ⟨h45, _⟩ := headD_plain hip fp
  obtain ⟨hint, hfrac, hrest⟩ := plain_parts hip hfp
  have hs : ¬ Stuck nd (plainText ip fp) := fun h => h45 h.2.1
  obtain ⟨m, hm, hret⟩ := strtobcd_returns (w := w) o hw (by omega) hs
  have hpow : (0 : ℚ) < 10 ^ textExpo nd (plainText ip fp) := zpow_pos (by norm_num) _
  have hnear : _ ↔ (RoundsUp nd (plainText ip fp) → _) ∧ _ := coef_near_iff h45
  rw [hint, hfrac] at hnear
  rw [hrest] at hret
  rw [← hnear, ← hm, ← near_scale hpow, ← textVal_eq nd hip hfp]
  constructor
  · rintro ⟨b, hb, _, hle, _⟩
    have he : b = ⟨m, textExpo nd (plainText ip fp), signOf (plainText ip fp)⟩ := congrArg Prod.fst (hb.unique hret)
    rw [he, Bcd.value, hN] at hle
    exact hle
  · intro hle
    refine ⟨_, hret, ?_, ?_, fun hlen => ?_⟩
    · rw [hN, hm]
      exact parsed_digits_succ hs
    · rw [Bcd.value, hN]
      exact hle
    · have hlost : lost nd (plainText ip fp) = [] := lost_nil (by rw [hint, hfrac]; exact hlen)
      have hr : ¬ RoundsUp nd (plainText ip fp) := fun h => absurd (roundsUp_iff.1 h).2 (by rw [hlost]; decide)
      rw [textVal_eq nd hip hfp, Bcd.value, hN, hm, coef_plain hr, lostVal, hlost]
      simp

end Books.Dfp754
