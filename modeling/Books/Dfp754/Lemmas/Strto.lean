import Books.Dfp754.Lemmas.RoundText
import Books.Dfp754.Lemmas.Mirror
import Books.Dfp754.Lemmas.DpdBack

/-!
# `strtobcd64` と `strtobcd32` の結果
-/

namespace Books.Dfp754

open Books.Lib

variable {w N M s nd : Nat} {src ds : List UInt8} {o : Join}

/-! ## 返す値 -/

section Returns
variable {α β : Type} {f : Nat → Option α} {a b : α}

theorem Returns.unique (ha : Returns f a) (hb : Returns f b) : a = b := by
  obtain ⟨n, hn⟩ := ha
  obtain ⟨k, hk⟩ := hb
  have h := (hn (max n k) (le_max_left n k)).symm.trans (hk (max n k) (le_max_right n k))
  exact Option.some.inj h

theorem Returns.map (h : Returns f a) (g : α → β) : Returns (fun fuel => (f fuel).map g) (g a) := by
  obtain ⟨n, hn⟩ := h
  refine ⟨n, fun fuel hfuel => ?_⟩
  show (f fuel).map g = some (g a)
  rw [hn fuel hfuel, Option.map_some]

theorem not_terminates (h : ∀ fuel, f fuel = none) : ¬ Terminates f := by
  rintro ⟨a, n, hn⟩
  have h1 := hn n (Nat.le_refl n)
  rw [h n] at h1
  cases h1

end Returns

/-! ## 同じ数字の並び -/

theorem digitOf_inj {c d : UInt8} : digitOf c = digitOf d ↔ c = d := by
  refine ⟨fun h => ?_, fun h => by rw [h]⟩
  have hsub : c - 48 = d - 48 := UInt8.toNat_inj.1 h
  simpa using hsub

theorem trail_eq_iff (hd : ∀ c ∈ ds, isdigit c = true) (hlen : ds.length = N) :
    trail s N (val 16 ds) = N ↔ ∀ c ∈ ds, digitOf c = s := by
  induction ds using List.reverseRecOn generalizing N with
  | nil =>
      subst hlen
      simp [trail]
  | append_singleton ds c ih =>
      rw [List.length_append, List.length_singleton] at hlen
      subst hlen
      have hc := digitOf_lt (hd c (by simp))
      have hmod : (val 16 ds * 16 + digitOf c) % 16 = digitOf c := by omega
      have hdiv : (val 16 ds * 16 + digitOf c) / 16 = val 16 ds := by omega
      have hih := ih (fun d h => hd d (by simp [h])) rfl
      rw [val_snoc, trail, hmod, hdiv, List.forall_mem_append, List.forall_mem_singleton, ← hih]
      split
      · rename_i hs
        simp [hs]
      · rename_i hs
        simp [hs]

theorem val_eq_zero {b : Nat} (h : ∀ c ∈ ds, c = 48) : val b ds = 0 := by
  induction ds using List.reverseRecOn with
  | nil => rfl
  | append_singleton ds c ih =>
      rw [val_snoc, ih (fun d hd => h d (by simp [hd])), h c (by simp), Nat.zero_mul]
      rfl

theorem val_ten (hd : ∀ c ∈ ds, isdigit c = true) (hk : ds.length ≤ N) : recode id 16 10 N (val 16 ds) = val 10 ds := by
  have hlt : val 10 ds < 10 ^ N := Nat.lt_of_lt_of_le (val_lt (Nat.le_refl 10) hd) (Nat.pow_le_pow_right (by decide) hk)
  rw [← val_recode hd hk, recode_inv (digits_lt (by decide) (by decide) N _), Nat.mod_eq_of_lt hlt]

/-! ## 丸めの向き -/

/-- `roff` の初めの値に、符号を付けたもの。 -/
def roffOf (src : List UInt8) : Int := if signOf src = 0 then 1 else -1

/-- 丸めで送られる桁。 -/
def carried (src : List UInt8) : Nat := if signOf src = 0 then 9 else 0

theorem signOf_eq_zero : signOf src = 0 ↔ src.headD 0 ≠ 45 := by
  rw [signOf]
  split
  · rename_i h
    exact ⟨fun h0 => absurd h0 (by decide), fun hne => absurd h hne⟩
  · rename_i h
    exact ⟨fun _ => h, fun _ => rfl⟩

theorem carry_of (src : List UInt8) : Carry (roffOf src) (carried src) := by
  rw [roffOf, carried]
  split
  · exact Or.inl ⟨rfl, rfl⟩
  · exact Or.inr ⟨rfl, rfl⟩

/-- 残した数字がどれも送られるのは、零を減らすときと、9 の並びを増やすときである。 -/
theorem all_carried (h : RoundsUp nd src) :
    trail (carried src) nd (val 16 (kept nd src)) = nd ↔ Stuck nd src ∨ Spills nd src := by
  rw [trail_eq_iff kept_digit (kept_length_of_rounds h), Stuck, Spills]
  by_cases hs : src.headD 0 = 45
  · have hcar : carried src = digitOf 48 := by
      rw [carried, if_neg (fun h0 => signOf_eq_zero.1 h0 hs)]
      rfl
    have hall : (∀ c ∈ kept nd src, digitOf c = digitOf 48) ↔ ∀ c ∈ kept nd src, c = 48 :=
      forall₂_congr fun _ _ => digitOf_inj
    rw [hcar, hall]
    exact ⟨fun hk => Or.inl ⟨h, hs, hk⟩, fun hor => hor.elim (fun hk => hk.2.2) (fun hk => absurd hs hk.2.1)⟩
  · have hcar : carried src = digitOf 57 := by
      rw [carried, if_pos (signOf_eq_zero.2 hs)]
      rfl
    have hall : (∀ c ∈ kept nd src, digitOf c = digitOf 57) ↔ ∀ c ∈ kept nd src, c = 57 :=
      forall₂_congr fun _ _ => digitOf_inj
    rw [hcar, hall]
    exact ⟨fun hk => Or.inr ⟨h, hs, hk⟩, fun hor => hor.elim (fun hk => absurd hk.2.1 hs) (fun hk => hk.2.2)⟩

theorem trail_lt (h : RoundsUp nd src) (hs : ¬ Stuck nd src) (hp : ¬ Spills nd src) :
    trail (carried src) nd (val 16 (kept nd src)) < nd := by
  have hle := trail_le (carried src) nd (val 16 (kept nd src))
  have hne := mt (all_carried h).1 (by simp [hs, hp])
  omega

theorem trail_or (h : RoundsUp nd src) (hs : ¬ Stuck nd src) :
    trail (carried src) nd (val 16 (kept nd src)) < nd ∨ carried src = 9 := by
  by_cases hp : Spills nd src
  · exact Or.inr (if_pos (signOf_eq_zero.2 hp.2.1))
  · exact Or.inl (trail_lt h hs hp)

/-! ## 読み取った仮数 -/

/-- 読み取った仮数。 -/
def parsedMant (nd : Nat) (src : List UInt8) : Nat :=
  if RoundsUp nd src then rounded (roffOf src) (carried src) nd (val 16 (kept nd src)) else val 16 (kept nd src)

theorem strtobcd_returns (o : Join) (hw : 32 ≤ w) (hN : 4 * (nd + 1) ≤ w) (hs : ¬ Stuck nd src) :
    ∃ m : BitVec w, m.toNat = parsedMant nd src ∧
      Returns (fun fuel => strtobcd o nd fuel src) (⟨m, textExpo nd src, signOf src⟩, textRest src) := by
  have hv : ((kept nd src).foldl push (0 : BitVec w)).toNat = val 16 (kept nd src) := kept_toNat (by omega)
  rw [parsedMant]
  by_cases h : RoundsUp nd src
  · have hdig : Digits (· < 10) 16 nd ((kept nd src).foldl push (0 : BitVec w)).toNat := by
      rw [hv]
      exact val_digits kept_digit nd
    obtain ⟨m, hm, hret⟩ := roundBcd_eq o hw hN (carry_of src) hdig (by rw [hv]; exact kept_lt)
      (by rw [hv]; exact trail_or h hs)
    rw [hv] at hm
    refine ⟨m, by rw [if_pos h, hm], trail (carried src) nd ((kept nd src).foldl push (0 : BitVec w)).toNat + 1,
      fun fuel hfuel => ?_⟩
    have hr := hret fuel
    rw [if_pos (by omega), roffOf] at hr
    show strtobcd o nd fuel src = _
    rw [strtobcd_eq, if_pos h, hr, Option.map_some]
  · refine ⟨_, by rw [if_neg h, ← hv], 0, fun fuel _ => ?_⟩
    show strtobcd o nd fuel src = _
    rw [strtobcd_eq, if_neg h, Option.map_some]

/-- 零を減らす丸めは、終わらない。 -/
theorem strtobcd_stuck (o : Join) (hw : 5 ≤ w) (hN : 4 * nd ≤ w) (hs : Stuck nd src) (fuel : Nat) :
    (strtobcd o nd fuel src : Option (Bcd w × List UInt8)) = none := by
  obtain ⟨h, hneg, hall⟩ := hs
  have hzero : val 16 (kept nd src) = 0 := val_eq_zero hall
  have hmant : (kept nd src).foldl push (0 : BitVec w) = 0 := by
    refine BitVec.eq_of_toNat_eq ?_
    rw [kept_toNat hN, hzero]
    exact BitVec.toNat_zero.symm
  rw [strtobcd_eq, if_pos h, hmant, if_neg (fun h0 => signOf_eq_zero.1 h0 hneg), roundBcd, roundLoop_zero hw]
  rfl

/-! ## 停止 -/

theorem strtobcd_terminates_iff (o : Join) (hw : 32 ≤ w) (hN : 4 * (nd + 1) ≤ w) :
    Terminates (fun fuel => (strtobcd o nd fuel src : Option (Bcd w × List UInt8))) ↔ ¬ Stuck nd src := by
  constructor
  · intro hterm hs
    exact not_terminates (strtobcd_stuck o (by omega) (by omega) hs) hterm
  · intro hs
    obtain ⟨m, _, hret⟩ := strtobcd_returns o hw hN hs
    exact ⟨_, hret⟩

theorem roundBcd_terminates_iff (o : Join) (hw : 32 ≤ w) (hN : 4 * (N + 1) ≤ w) {mant : BitVec w} {roff : Int}
    (hd : Digits (· < 10) 16 N mant.toNat) (hM : mant.toNat < 16 ^ N) (hr : roff = 1 ∨ roff = -1) :
    Terminates (fun fuel => roundBcd o fuel mant roff) ↔ ¬ (roff = -1 ∧ mant = 0) := by
  constructor
  · rintro hterm ⟨rfl, rfl⟩
    refine not_terminates (fun fuel => ?_) hterm
    rw [roundBcd, roundLoop_zero (by omega)]
    rfl
  · intro hne
    obtain ⟨s, hc, ht⟩ : ∃ s, Carry roff s ∧ (trail s N mant.toNat < N ∨ s = 9) := by
      rcases hr with rfl | rfl
      · exact ⟨9, Or.inl ⟨rfl, rfl⟩, Or.inr rfl⟩
      · refine ⟨0, Or.inr ⟨rfl, rfl⟩, Or.inl (Nat.lt_of_le_of_ne (trail_le 0 N _) fun hN => hne ⟨rfl, ?_⟩)⟩
        exact BitVec.eq_of_toNat_eq ((eq_zero_of_trail hN hM).trans BitVec.toNat_zero.symm)
    obtain ⟨r, _, hret⟩ := roundBcd_eq o hw hN hc hd hM ht
    refine ⟨r, trail s N mant.toNat + 1, fun fuel hfuel => ?_⟩
    show roundBcd o fuel mant roff = some r
    rw [hret fuel, if_pos (by omega)]

/-! ## 負号 -/

section Negative

variable (h45 : src.headD 0 ≠ 45) (h43 : src.headD 0 ≠ 43)
include h45 h43

theorem digitsOf_neg : digitsOf (45 :: src) = digitsOf src := by
  have hneg : digitsOf (45 :: src) = src.dropWhile (fun c => decide (c = 48)) := rfl
  have hpos : digitsOf src = src.dropWhile (fun c => decide (c = 48)) := by
    simp only [digitsOf, if_neg h45, if_neg h43]
  rw [hneg, hpos]

theorem text_neg (nd : Nat) : kept nd (45 :: src) = kept nd src ∧ cut nd (45 :: src) = cut nd src ∧
    textExpo nd (45 :: src) = textExpo nd src ∧ textRest (45 :: src) = textRest src := by
  have hint : intDigits (45 :: src) = intDigits src := by rw [intDigits, digitsOf_neg h45 h43, ← intDigits]
  have hfrac : fracDigits (45 :: src) = fracDigits src := by rw [fracDigits, digitsOf_neg h45 h43, ← fracDigits]
  refine ⟨?_, ?_, ?_, ?_⟩
  · rw [kept, hint, hfrac, ← kept]
  · rw [cut, hint, hfrac, ← cut]
  · rw [textExpo, hint, hfrac, ← textExpo]
  · rw [textRest, digitsOf_neg h45 h43, ← textRest]

/-- 負号で仮数と指数が変わらないのは、切り上げのないときに限る。 -/
theorem signSymmetric_iff (o : Join) (hw : 32 ≤ w) (hN : 4 * (nd + 2) ≤ w) :
    SignSymmetric (strtobcd o (nd + 1) : Nat → List UInt8 → Option (Bcd w × List UInt8)) src ↔ ¬ RoundsUp (nd + 1) src := by
  obtain ⟨hkept, hcut, hexpo, hrest⟩ := text_neg h45 h43 (nd + 1)
  have hup : RoundsUp (nd + 1) (45 :: src) ↔ RoundsUp (nd + 1) src := by rw [RoundsUp, RoundsUp, hcut]
  have hsign : signOf src = 0 := signOf_eq_zero.2 h45
  have hneg : signOf (45 :: src) = 1 := rfl
  constructor
  · rintro ⟨m, e, rest, hpos, hminus⟩ hr
    have hstuck : ¬ Stuck (nd + 1) (45 :: src) := (strtobcd_terminates_iff o hw hN).1 ⟨_, hminus⟩
    obtain ⟨m₁, hm₁, hret₁⟩ := strtobcd_returns o hw hN (fun hs : Stuck (nd + 1) src => h45 hs.2.1)
    obtain ⟨m₂, hm₂, hret₂⟩ := strtobcd_returns o hw hN hstuck
    have he₁ : m₁ = m := congrArg (fun x => x.1.mant) (hret₁.unique hpos)
    have he₂ : m₂ = m := congrArg (fun x => x.1.mant) (hret₂.unique hminus)
    have hdig : Digits (· < 10) 16 (nd + 1) (val 16 (kept (nd + 1) src)) := val_digits kept_digit (nd + 1)
    rw [he₁, parsedMant, if_pos hr, roffOf, carried, hsign] at hm₁
    rw [he₂, parsedMant, if_pos (hup.2 hr), roffOf, carried, hneg, hkept, hm₁] at hm₂
    exact rounded_ne hdig.head hm₂
  · intro hr
    refine ⟨(kept (nd + 1) src).foldl push 0, textExpo (nd + 1) src, textRest src, ⟨0, fun fuel _ => ?_⟩, 0, fun fuel _ => ?_⟩
    · show strtobcd o (nd + 1) fuel src = _
      rw [strtobcd_eq, if_neg hr, hsign]
      rfl
    · show strtobcd o (nd + 1) fuel (45 :: src) = _
      rw [strtobcd_eq, if_neg (mt hup.1 hr), hneg, hkept, hexpo, hrest]
      rfl

end Negative

/-! ## 読み取った仮数の桁 -/

theorem parsed_digits (hs : ¬ Stuck nd src) (hp : ¬ Spills nd src) :
    Digits (· < 10) 16 nd (parsedMant nd src) ∧ parsedMant nd src < 16 ^ nd := by
  have hdig : Digits (· < 10) 16 nd (val 16 (kept nd src)) := val_digits kept_digit nd
  rw [parsedMant]
  split
  · rename_i h
    exact ⟨rounded_digits hdig (carry_of src) (trail_lt h hs hp), rounded_lt hdig kept_lt (carry_of src) (trail_lt h hs hp)⟩
  · exact ⟨hdig, kept_lt⟩

theorem parsed_spills (hp : Spills nd src) : parsedMant nd src = 16 ^ nd := by
  have hcar : carried src = 9 := if_pos (signOf_eq_zero.2 hp.2.1)
  have hroff : roffOf src = 1 := if_pos (signOf_eq_zero.2 hp.2.1)
  have ht := (all_carried hp.1).2 (Or.inr hp)
  rw [hcar] at ht
  rw [parsedMant, if_pos hp.1, hcar, hroff, rounded_nines kept_lt ht]

theorem parsed_digits_succ (hs : ¬ Stuck nd src) : Digits (· < 10) 16 (nd + 1) (parsedMant nd src) := by
  by_cases hp : Spills nd src
  · have h1 : Digits (· < 10) 16 1 1 := by decide
    rw [parsed_spills hp, ← Nat.one_mul (16 ^ nd)]
    exact digits_shl (by decide) (by decide) h1 nd
  · obtain ⟨hd, hlt⟩ := parsed_digits hs hp
    exact digits_succ hd (by decide) hlt

/-- 仮数が `nd` 桁に収まるのは、読み取りが終わり、繰り上げが溢れないときである。 -/
theorem strtobcd_fits (o : Join) (hw : 32 ≤ w) (hN : 4 * (nd + 1) ≤ w) (hs : ¬ Stuck nd src) (hp : ¬ Spills nd src) :
    ∃ m : BitVec w, Returns (fun fuel => strtobcd o nd fuel src) (⟨m, textExpo nd src, signOf src⟩, textRest src) ∧
      Digits (· < 10) 16 nd m.toNat ∧ m.toNat < 16 ^ nd := by
  obtain ⟨m, hm, hret⟩ := strtobcd_returns o hw hN hs
  exact ⟨m, hret, by rw [hm]; exact parsed_digits hs hp⟩

theorem fits_of_returns (o : Join) (hw : 32 ≤ w) (hN : 4 * (nd + 1) ≤ w) {b : Bcd w} {rest : List UInt8}
    (hb : Returns (fun fuel => strtobcd o nd fuel src) (b, rest)) (hlt : b.mant.toNat < 16 ^ nd) :
    ¬ Stuck nd src ∧ ¬ Spills nd src := by
  have hs : ¬ Stuck nd src := (strtobcd_terminates_iff o hw hN).1 ⟨_, hb⟩
  refine ⟨hs, fun hp => ?_⟩
  obtain ⟨m, hm, hret⟩ := strtobcd_returns o hw hN hs
  have he : m = b.mant := congrArg (fun z => z.1.mant) (hret.unique hb)
  rw [parsed_spills hp, he] at hm
  omega

/-! ## 二つの形 -/

theorem alike64 {b : Bcd 64} (hd : Digits (· < 10) 16 15 b.mant.toNat) (hm : b.mant.toNat < 16 ^ 15) (hlo : -398 ≤ b.expo)
    (hhi : b.expo ≤ 369) (hs : IsSign b.sign) : bidDec 53 398 (bcd64tobid b) = dpdDec 5 8 398 (bcd64todpd b) := by
  have hlead : leadDigit 5 b = 0 := Nat.div_eq_of_lt hm
  have h : DpdIn 5 8 398 b := ⟨rfl, by decide, by decide, hd, fun h8 => by omega, by omega, by omega, hs⟩
  rw [bcd64tobid_dec hd hlo hhi hs, bcd64todpd, h.dec, hlead, if_neg (by decide), Nat.zero_mul, Nat.zero_add]

theorem alike32 {b : Bcd 32} (hd : Digits (· < 10) 16 7 b.mant.toNat) (hm : b.mant.toNat < 16 ^ 7) (hlo : -101 ≤ b.expo)
    (hhi : b.expo ≤ 90) (hs : IsSign b.sign) : bidDec 23 101 (bcd32tobid b) = dpdDec 2 6 101 (bcd32todpd b) := by
  have hlead : leadDigit 2 b < 10 := (dpdIn32 hd hm hlo hhi hs).2
  have h : DpdIn 2 6 101 b := (dpdIn32 hd hm hlo hhi hs).1
  have hrec : recode id 16 10 7 b.mant.toNat = leadDigit 2 b * 1000 ^ 2 + recode id 16 10 6 b.mant.toNat := by
    have h6 : b.mant.toNat / 16 ^ 6 % 16 = leadDigit 2 b := Nat.mod_eq_of_lt (by omega)
    rw [recode_snoc, h6, id]
    ring
  have hback : (if 8 ≤ leadDigit 2 b then 8 + leadDigit 2 b % 2 else leadDigit 2 b) = leadDigit 2 b := by
    split <;> omega
  rw [bcd32tobid_dec hd hlo hhi hs, bcd32todpd, h.dec, hrec, hback]

end Books.Dfp754
