import Books.Dfp754.Lemmas.Tostr

/-!
# 書く文字の数

`bcd64tostr` は、領域の大きさで打ち切られるほかは、決まった数の文字を書く。
-/

namespace Books.Dfp754

open Books.Lib

variable {w room bsz n t : Nat} {out : List UInt8} {b b' : Bcd w} {p : Pr w}

/-! ## 書きかけの状態 -/

/-- 大きさ `bsz` の領域に、`t` 文字を書こうとした状態。書き切れたなら、残りは `b` である。 -/
structure Wrote (bsz t : Nat) (b : Bcd w) (p : Pr w) : Prop where
  length : p.out.length = min bsz t
  room : p.room = bsz - p.out.length
  rest : t ≤ bsz → p.b = b

theorem Wrote.full (h : Wrote bsz t b p) (hfull : bsz < t) (k : Nat) (b' : Bcd w) : Wrote bsz (t + k) b' p :=
  ⟨by rw [h.length, Nat.min_eq_left (by omega), Nat.min_eq_left (by omega)], h.room, fun hle => absurd hle (by omega)⟩

theorem emit_none {go : Bcd w → Bool} {chr : Bcd w → UInt8} {next : Bcd w → Bcd w} (h : p.room = 0) :
    emit go chr next p.room p.out p.b = p := by
  cases p
  cases h
  rfl

theorem put_none (h : p.room = 0) (cond : Bool) (c : UInt8) : p.put cond c = p := by
  rw [Pr.put, if_neg (by omega)]

/-- 条件が `n` 回続いた後で止まる繰り返しの、書く文字の数。 -/
theorem emit_count {go : Bcd w → Bool} (chr : Bcd w → UInt8) {next : Bcd w → Bcd w} (hgo : ∀ i < n, go (next^[i] b) = true)
    (hstop : go (next^[n] b) = false) (room : Nat) (out : List UInt8) :
    (emit go chr next room out b).out.length = out.length + min room n ∧
    (emit go chr next room out b).room = room - n ∧ (n ≤ room → (emit go chr next room out b).b = next^[n] b) := by
  induction n generalizing room out b with
  | zero =>
      have hstop₀ : go b = false := hstop
      rw [emit_stop hstop₀]
      exact ⟨by simp, rfl, fun _ => rfl⟩
  | succ n ih =>
      cases room with
      | zero => exact ⟨by simp [emit], by simp [emit], fun h => absurd h (by omega)⟩
      | succ room =>
          have hstep : ∀ i < n, go (next^[i] (next b)) = true := fun i hi => hgo (i + 1) (by omega)
          obtain ⟨h₁, h₂, h₃⟩ := ih hstep hstop room (out ++ [chr b])
          have hgo₀ : go b = true := hgo 0 (Nat.succ_pos n)
          rw [emit, if_pos hgo₀]
          rw [List.length_append, List.length_singleton] at h₁
          exact ⟨by omega, by omega, fun h => h₃ (by omega)⟩

theorem emit_wrote (h : Wrote bsz t b p) (n : Nat) (go : Bcd w → Bool) (chr : Bcd w → UInt8) (next : Bcd w → Bcd w)
    (hgo : ∀ i < n, go (next^[i] b) = true) (hstop : go (next^[n] b) = false) :
    Wrote bsz (t + n) (next^[n] b) (emit go chr next p.room p.out p.b) := by
  have hroom := h.room
  have hlen := h.length
  rcases Nat.lt_or_ge bsz t with hfull | hle
  · rw [emit_none (by omega)]
    exact h.full hfull n _
  · rw [h.rest hle]
    obtain ⟨h₁, h₂, h₃⟩ := emit_count chr hgo hstop p.room p.out
    exact ⟨by omega, by omega, fun _ => h₃ (by omega)⟩

theorem put_wrote (h : Wrote bsz t b p) (cond k : Bool) (hk : t < bsz → cond = k) (c : UInt8) :
    Wrote bsz (t + k.toNat) b (p.put cond c) := by
  have hroom := h.room
  have hlen := h.length
  rcases Nat.lt_or_ge t bsz with hlt | hge
  · rw [hk hlt]
    cases k with
    | false =>
        rw [put_false]
        exact h
    | true =>
        rw [Pr.put, if_pos ⟨rfl, by omega⟩]
        exact ⟨by simp only [List.length_append, List.length_singleton, Bool.toNat_true]; omega,
          by simp only [List.length_append, List.length_singleton]; omega, fun _ => h.rest (by omega)⟩
  · rw [put_none (by omega)]
    exact ⟨by omega, hroom, fun hle => h.rest (by omega)⟩

/-! ## 繰り返しの残り -/

theorem frac_iter (b : Bcd w) (i : Nat) : (fun b : Bcd w => { b.shift with expo := b.expo + 1 })^[i] b =
    ⟨b.mant >>> (4 * i), b.expo + i, b.sign⟩ := by
  induction i with
  | zero => simp
  | succ i ih =>
      rw [Function.iterate_succ_apply', ih, Nat.mul_succ, BitVec.shiftRight_add]
      simp only [Bcd.shift, Bcd.mk.injEq, true_and, and_true]
      push_cast
      ring

theorem zeros_iter (b : Bcd w) (i : Nat) : (fun b : Bcd w => { b with expo := b.expo - 1 })^[i] b =
    ⟨b.mant, b.expo - i, b.sign⟩ := by
  induction i with
  | zero => simp
  | succ i ih =>
      rw [Function.iterate_succ_apply', ih]
      simp only [Bcd.mk.injEq, true_and, and_true]
      push_cast
      ring

theorem shift_iter (b : Bcd w) (i : Nat) : Bcd.shift^[i] b = ⟨b.mant >>> (4 * i), b.expo, b.sign⟩ := by
  induction i with
  | zero => simp
  | succ i ih =>
      rw [Function.iterate_succ_apply', ih, Nat.mul_succ, BitVec.shiftRight_add]
      rfl

/-! ## 桁の数 -/

theorem digits_div_length {q : Nat} (hq : 1 < q) (m k : Nat) :
    (Nat.digits q (m / q ^ k)).length = (Nat.digits q m).length - k := by
  have hiff : ∀ l, (Nat.digits q (m / q ^ k)).length ≤ l ↔ (Nat.digits q m).length - k ≤ l := by
    intro l
    rw [Nat.digits_length_le_iff hq, Nat.div_lt_iff_lt_mul (Nat.pow_pos (by omega)), ← Nat.pow_add,
      ← Nat.digits_length_le_iff hq]
    omega
  exact Nat.le_antisymm ((hiff _).mpr (Nat.le_refl _)) ((hiff _).mp (Nat.le_refl _))

/-- 仮数の桁の数。 -/
def nibbles (m : BitVec w) : Nat := (Nat.digits 16 m.toNat).length

theorem shr_nibble (m : BitVec w) (i : Nat) : (m >>> (4 * i)).toNat = m.toNat / 16 ^ i := by
  rw [toNat_shr, Nat.pow_mul]

theorem nibbles_shr (m : BitVec w) (i : Nat) : nibbles (m >>> (4 * i)) = nibbles m - i := by
  rw [nibbles, shr_nibble, digits_div_length (by decide), nibbles]

theorem shr_eq_zero_iff (m : BitVec w) (i : Nat) : m >>> (4 * i) = 0 ↔ nibbles m ≤ i := by
  rw [← BitVec.toNat_inj, shr_nibble, show (0 : BitVec w).toNat = 0 from BitVec.toNat_zero, nibbles,
    Nat.digits_length_le_iff (by decide), Nat.div_eq_zero_iff_lt (Nat.pow_pos (by decide))]

/-! ## `bcd64tostr` が書く文字の数 -/

/-- 詰めた十進を書く文字の数。 -/
def bcdLen (b : Bcd w) : Nat := plainLen (decide (b.sign ≠ 0)) (nibbles b.mant) b.expo

theorem emitFrac_wrote (bsz : Nat) (b : Bcd w) : Wrote bsz (-b.expo).toNat
    ⟨b.mant >>> (4 * (-b.expo).toNat), b.expo + (-b.expo).toNat, b.sign⟩ (emitFrac bsz b) := by
  have h₀ : Wrote bsz 0 b (⟨[], bsz, b⟩ : Pr w) := ⟨by simp, by simp, fun _ => rfl⟩
  have h := emit_wrote h₀ (-b.expo).toNat (fun b => decide (b.expo < 0)) Bcd.chr (fun b => { b.shift with expo := b.expo + 1 })
    (fun i hi => by rw [frac_iter]; simp only [decide_eq_true_eq]; omega)
    (by rw [frac_iter]; simp only [decide_eq_false_iff_not]; omega)
  rw [frac_iter, Nat.zero_add] at h
  exact h

theorem emitZeros_wrote (h : Wrote bsz t b p) :
    Wrote bsz (t + b.expo.toNat) ⟨b.mant, b.expo - b.expo.toNat, b.sign⟩ (emitZeros p) := by
  have hz := emit_wrote h b.expo.toNat (fun b => decide (0 < b.expo)) (fun _ => 48) (fun b => { b with expo := b.expo - 1 })
    (fun i hi => by rw [zeros_iter]; simp only [decide_eq_true_eq]; omega)
    (by rw [zeros_iter]; simp only [decide_eq_false_iff_not]; omega)
  rw [zeros_iter] at hz
  exact hz

theorem emitMant_wrote (h : Wrote bsz t b p) :
    ∃ b', b'.sign = b.sign ∧ Wrote bsz (t + max 1 (nibbles b.mant)) b' (emitMant p) := by
  have hroom := h.room
  have hlen := h.length
  rcases Nat.lt_or_ge bsz t with hfull | hle
  · have hnone : p.room = 0 := by omega
    refine ⟨b, rfl, ?_⟩
    rw [emitMant]
    split
    · rw [emit_none hnone]
      exact h.full hfull _ _
    · rw [put_none hnone]
      exact h.full hfull _ _
  · have hzero : b.mant = 0 ↔ nibbles b.mant ≤ 0 := shr_eq_zero_iff b.mant 0
    rw [emitMant, h.rest hle]
    by_cases h0 : b.mant = 0
    · have hnil := hzero.mp h0
      rw [if_neg (not_not_intro h0), Nat.max_eq_left (by omega)]
      have hput := put_wrote h true true (fun _ => rfl) 48
      exact ⟨b, rfl, hput⟩
    · refine ⟨Bcd.shift^[nibbles b.mant] b, by rw [shift_iter], ?_⟩
      have hpos : 1 ≤ nibbles b.mant := Nat.lt_of_not_le (fun hnil => h0 (hzero.mpr hnil))
      rw [if_pos h0, Nat.max_eq_right hpos]
      have hm := emit_wrote h (nibbles b.mant) (fun b => decide (b.mant ≠ 0)) Bcd.chr Bcd.shift
        (fun i hi => by rw [shift_iter]; simp only [decide_eq_true_eq, ne_eq, shr_eq_zero_iff]; omega)
        (by rw [shift_iter]; simp only [decide_eq_false_iff_not, ne_eq, not_not, shr_eq_zero_iff]; exact Nat.le_refl _)
      rw [h.rest hle] at hm
      exact hm

theorem length_reverseLoop (ip jp : Nat) (buf : List UInt8) : (reverseLoop ip jp buf).length = buf.length := by
  induction jp generalizing ip buf with
  | zero => rfl
  | succ jp ih =>
      rw [reverseLoop]
      split
      · rw [ih, List.length_set, List.length_set]
      · rfl

/-- `bcd64tostr` は、大きさの限りで打ち切って、戻り値の数の文字を書く。余りがあれば NUL も書く。 -/
theorem bcdtostr_length (bsz : Nat) (b : Bcd w) :
    (bcdtostr bsz b).2 = min bsz (bcdLen b) ∧ (bcdtostr bsz b).1.length = min bsz (bcdLen b + 1) := by
  have hfrac := emitFrac_wrote bsz b
  have hpoint := put_wrote hfrac (decide ((emitFrac bsz b).out ≠ [])) (decide (b.expo < 0)) (fun hlt => by
    have hl := hfrac.length
    rw [Nat.min_eq_right (Nat.le_of_lt hlt)] at hl
    rw [decide_eq_decide, ← List.length_pos_iff, hl]
    omega) 46
  have hzeros := emitZeros_wrote hpoint
  obtain ⟨b', hsign, hmant⟩ := emitMant_wrote hzeros
  have hneg := put_wrote hmant (decide ((emitMant (emitZeros ((emitFrac bsz b).put
    (decide ((emitFrac bsz b).out ≠ [])) 46))).b.sign ≠ 0)) (decide (b.sign ≠ 0))
    (fun hlt => by rw [hmant.rest (Nat.le_of_lt hlt), hsign]) 45
  have hnul := put_wrote hneg true true (fun _ => rfl) 0
  have htotal : (-b.expo).toNat + (decide (b.expo < 0)).toNat + (b.expo + ((-b.expo).toNat : Int)).toNat +
      max 1 (nibbles (b.mant >>> (4 * (-b.expo).toNat))) + (decide (b.sign ≠ 0)).toNat = bcdLen b := by
    rw [bcdLen, plainLen, nibbles_shr]
    have hneg' : (decide (b.sign ≠ 0)).toNat = if decide (b.sign ≠ 0) = true then 1 else 0 := by
      cases decide (b.sign ≠ 0) <;> rfl
    have hdot : (decide (b.expo < 0)).toNat = if b.expo < 0 then 1 else 0 := by
      by_cases h : b.expo < 0 <;> simp [h]
    rw [hneg', hdot]
    omega
  rw [htotal] at hneg hnul
  refine ⟨hneg.length, ?_⟩
  simp only [bcdtostr]
  rw [length_reverseLoop]
  exact hnul.length

/-! ## `d64tostr` が書く文字の数 -/

/-- 詰めた十進は、二進の仮数と同じ桁の数を持つ。 -/
theorem nibbles_rebcd (m : BitVec 64) : nibbles (rebcdLoop 16 m 0) = (Nat.digits 10 (m.toNat % 10 ^ 16)).length := by
  have hval : (rebcdLoop 16 m 0).toNat = recode id 10 16 16 m.toNat := by
    have h := rebcd_toNat (K := 15) (f := rebcdLoop) (g := fun m v => (v >>> 4) ^^^ ((m % 10) <<< (64 - 4))) (by decide)
      (fun _ _ => rfl) (fun _ _ _ => rfl) (fun m v _ => rebcd_step m v) (Nat.le_refl 16) m 0 (by decide)
    rw [h]
    simp
  have hdig : Digits (· < 10) 16 16 (recode id 10 16 16 m.toNat) := digits_recode (by decide) (Nat.le_refl _) (by decide)
  have hm : Digits (· < 16) 10 16 m.toNat := digits_lt (by decide) (by decide) _ _
  have hlt : recode id 10 16 16 m.toNat < 16 ^ 16 := recode_lt hm
  have hinv : recode id 16 10 16 (recode id 10 16 16 m.toNat) = m.toNat % 10 ^ 16 := recode_inv hm
  rw [nibbles, hval, ← recode_digits_length hdig hlt (by decide) (by decide), hinv]

theorem bid64tostr_length (bsz : Nat) {x : BitVec 64} (hnan : isnand64 x = false) (hinf : isinfd64 x = false) :
    (bid64tostr bsz x).2 = min bsz (textLen x) ∧ (bid64tostr bsz x).1.length = min bsz (textLen x + 1) := by
  have hcoef : (mantBid64 x).toNat = (bidDec 53 398 x).coef := mantBid_eq (by decide) (by decide)
  have hexpo : quantexpbid64 x = if x = 0 then 0 else (bidDec 53 398 x).expo := by
    split
    · rename_i h
      rw [h]
      rfl
    · rename_i h
      exact quantexpBid_eq (by decide) h
  have hzero : mantBid64 x ≠ 0 ↔ (bidDec 53 398 x).coef ≠ 0 := by
    rw [← hcoef, ne_eq, ne_eq, ← BitVec.toNat_inj]
    rfl
  have hsign : decide ((if mantBid64 x ≠ 0 then signBits x else 0) ≠ 0) =
      ((bidDec 53 398 x).neg && decide ((bidDec 53 398 x).coef ≠ 0)) := by
    rw [bidDec_neg]
    by_cases h0 : mantBid64 x ≠ 0
    · rw [if_pos h0, signBits_eq, decide_eq_true (hzero.mp h0), Bool.and_true]
      cases x.msb <;> rfl
    · rw [if_neg h0, decide_eq_false (mt hzero.mpr h0), Bool.and_false]
      rfl
  have hlen : bcdLen (⟨rebcdLoop 16 (mantBid64 x) 0, quantexpbid64 x, if mantBid64 x ≠ 0 then signBits x else 0⟩ : Bcd 64) =
      textLen x := by
    rw [bcdLen, textLen, hnan, hinf, nibbles_rebcd, hcoef, hexpo, hsign]
    rfl
  have h := bcdtostr_length bsz (⟨rebcdLoop 16 (mantBid64 x) 0, quantexpbid64 x, if mantBid64 x ≠ 0 then signBits x else 0⟩ : Bcd 64)
  rw [hlen] at h
  exact h

/-- `d64tostr` は、大きさの限りで打ち切って、戻り値の数の文字を書く。余りがあるとき、書くバイトは高々一つ多い。 -/
theorem d64tostr_length (bsz : Nat) (x : BitVec 64) :
    (d64tostr bsz x).2 = min bsz (textLen x) ∧ (textLen x < bsz → (d64tostr bsz x).1.length ≤ textLen x + 1) := by
  rw [d64tostr]
  by_cases hnan : isnand64 x = true
  · have hlen : textLen x = 3 := if_pos hnan
    rw [if_pos hnan, hlen, Nat.min_comm]
    exact ⟨rfl, fun h => by simp⟩
  · by_cases hinf : isinfd64 x = true
    · have hlen : textLen x = 3 + x.msb.toNat := (if_neg hnan).trans (if_pos hinf)
      rw [if_neg hnan, if_pos hinf, hlen, Nat.min_comm]
      refine ⟨rfl, fun h => ?_⟩
      rw [Nat.min_eq_right (Nat.le_of_lt h)]
      cases x.msb <;> decide
    · obtain ⟨hret, hbytes⟩ := bid64tostr_length bsz (Bool.eq_false_iff.mpr hnan) (Bool.eq_false_iff.mpr hinf)
      rw [if_neg hnan, if_neg hinf]
      exact ⟨hret, fun h => by rw [hbytes]; exact Nat.min_le_right _ _⟩

end Books.Dfp754
