import Books.Xquo.Columns
import Books.Xquo.Time.Spec
import Mathlib.Data.Nat.Digits.Lemmas

/-!
# 時刻を書く繰り返し
-/

namespace Books.Xquo

open Books.Btree Books.Book Books.Lib

variable {b : Buf UInt8} {bsz i j k n : Nat} {t : Tv}

/-! ## 数字 -/

/-- 数 `d` の数字。 -/
def digitChar (d : Nat) : UInt8 := UInt8.ofNat (48 + d)

/-- 下から `w` 桁の数字。足りない桁は `'0'` で埋める。 -/
def padded : Nat → Nat → List UInt8
  | 0, _ => []
  | w + 1, n => padded w (n / 10) ++ [digitChar (n % 10)]

/-- 十進の数字。0 には数字がない。 -/
def decimal (n : Nat) : List UInt8 := ((Nat.digits 10 n).map digitChar).reverse

theorem xor_digit : ∀ d < 10, UInt8.ofNat d ^^^ 48 = digitChar d := by decide

theorem byte_digit (ts : UInt64) : (ts % 10).toUInt8 ^^^ 48 = digitChar (ts.toNat % 10) := by
  have hd : (ts % 10).toUInt8 = UInt8.ofNat (ts.toNat % 10) := by
    apply UInt8.toNat.inj
    rw [UInt64.toNat_toUInt8, UInt64.toNat_mod, UInt8.toNat_ofNat']
    rfl
  rw [hd, xor_digit _ (Nat.mod_lt _ (by decide))]

theorem padded_isdigit (w n : Nat) : ∀ c ∈ padded w n, isdigit c = true := by
  induction w generalizing n with
  | zero => exact fun c hc => absurd hc List.not_mem_nil
  | succ w ih =>
      intro c hc
      rcases List.mem_append.mp hc with hc | hc
      · exact ih _ c hc
      · rw [List.mem_singleton.mp hc]
        exact isdigit_digit (Nat.mod_lt _ (by decide))

theorem length_padded (w n : Nat) : (padded w n).length = w := by
  induction w generalizing n with
  | zero => rfl
  | succ w ih => rw [padded, List.length_append, ih, List.length_singleton]

theorem digitsVal_padded (w n : Nat) : digitsVal (padded w n) = n % 10 ^ w := by
  induction w generalizing n with
  | zero => rw [Nat.pow_zero, Nat.mod_one]; rfl
  | succ w ih =>
      rw [padded, digitsVal_concat, ih, digitChar, toNat_digit (Nat.mod_lt _ (by decide)), Nat.pow_succ', Nat.mod_mul]
      omega

theorem decimal_isdigit (n : Nat) : ∀ c ∈ decimal n, isdigit c = true := by
  intro c hc
  obtain ⟨d, hd, rfl⟩ := List.mem_map.mp (List.mem_reverse.mp hc)
  exact isdigit_digit (Nat.digits_lt_base (by decide) hd)

theorem length_decimal (n : Nat) : (decimal n).length = (Nat.digits 10 n).length := by
  rw [decimal, List.length_reverse, List.length_map]

theorem digitsVal_decimal (n : Nat) : digitsVal (decimal n) = n := by
  have key : ∀ ds : List Nat, (∀ d ∈ ds, d < 10) → digitsVal (ds.map digitChar).reverse = Nat.ofDigits 10 ds := by
    intro ds
    induction ds with
    | nil => exact fun _ => rfl
    | cons d ds ih =>
        intro hd
        obtain ⟨hd₀, hds⟩ := List.forall_mem_cons.mp hd
        rw [List.map_cons, List.reverse_cons, digitsVal_concat, ih hds, digitChar, toNat_digit hd₀, Nat.ofDigits_cons]
        omega
  rw [decimal, key _ (fun d hd => Nat.digits_lt_base (by decide) hd), Nat.ofDigits_digits]

/-! ## 秒を書く繰り返し -/

theorem secsLoop_zero (fuel : Nat) (b : Buf UInt8) (i : Nat) : secsLoop fuel b i 0 = (b, i) := by
  cases fuel with
  | zero => rfl
  | succ fuel => rw [secsLoop, if_neg (by decide)]

/-- 一桁を書き、残りの桁に進む。 -/
theorem secsLoop_succ {ts : UInt64} (h : 0 < ts) (fuel : Nat) (b : Buf UInt8) (i : Nat) :
    secsLoop (fuel + 1) b i ts = secsLoop fuel (b.put i (digitChar (ts.toNat % 10))) (i + 1) (ts / 10) := by
  rw [secsLoop, if_pos h, byte_digit]

theorem digits_pos {ts : UInt64} (h : 0 < ts) :
    Nat.digits 10 ts.toNat = ts.toNat % 10 :: Nat.digits 10 (ts / 10).toNat := by
  have hp : 0 < ts.toNat := UInt64.lt_iff_toNat_lt.mp h
  rw [Nat.digits_def' (by decide) hp, UInt64.toNat_div]
  rfl

theorem div_ten_lt {ts : UInt64} {fuel : Nat} (h : ts.toNat < 10 ^ (fuel + 1)) : (ts / 10).toNat < 10 ^ fuel := by
  rw [UInt64.toNat_div]
  refine Nat.div_lt_of_lt_mul (Nat.lt_of_lt_of_eq h ?_)
  rw [Nat.pow_succ']
  rfl

theorem word_zero_or_pos (ts : UInt64) : ts = 0 ∨ 0 < ts :=
  (Nat.eq_zero_or_pos ts.toNat).imp (fun h => UInt64.toNat.inj h) UInt64.lt_iff_toNat_lt.mpr

/-- `r` は、位置 `i` から秒の数字を下の桁から並べた領域と、その後の位置である。 -/
structure WroteSecs (b : Buf UInt8) (i : Nat) (ts : UInt64) (r : Buf UInt8 × Nat) : Prop where
  next : r.2 = i + (Nat.digits 10 ts.toNat).length
  text : r.1.text (i + (Nat.digits 10 ts.toNat).length) = b.text i ++ (Nat.digits 10 ts.toNat).map digitChar
  log : ∀ k, k ∈ r.1.log ↔ (i ≤ k ∧ k < i + (Nat.digits 10 ts.toNat).length) ∨ k ∈ b.log

theorem wroteSecs_zero (b : Buf UInt8) (i : Nat) : WroteSecs b i 0 (b, i) := by
  have hnil : Nat.digits 10 (0 : UInt64).toNat = [] := Nat.digits_zero 10
  refine ⟨?_, ?_, fun k => ?_⟩
  · rw [hnil, List.length_nil, Nat.add_zero]
  · rw [hnil, List.length_nil, List.map_nil, List.append_nil, Nat.add_zero]
  · rw [hnil, List.length_nil]
    exact ⟨Or.inr, fun hk => hk.resolve_left (by omega)⟩

/-- 繰り返しは、秒の数字を下の桁から並べる。 -/
theorem secsLoop_text {fuel : Nat} {ts : UInt64} (h : ts.toNat < 10 ^ fuel) (b : Buf UInt8) (i : Nat) :
    WroteSecs b i ts (secsLoop fuel b i ts) := by
  induction fuel generalizing b i ts with
  | zero =>
      obtain rfl : ts = 0 := UInt64.toNat.inj (Nat.lt_one_iff.mp h)
      exact wroteSecs_zero b i
  | succ fuel ih =>
      rcases word_zero_or_pos ts with rfl | hpos
      · rw [secsLoop_zero]
        exact wroteSecs_zero b i
      · have hrest := ih (div_ten_lt h) (b.put i (digitChar (ts.toNat % 10))) (i + 1)
        have hlen : i + (ts.toNat % 10 :: Nat.digits 10 (ts / 10).toNat).length =
            i + 1 + (Nat.digits 10 (ts / 10).toNat).length := by rw [List.length_cons]; omega
        rw [secsLoop_succ hpos]
        refine ⟨?_, ?_, fun k => ?_⟩
        · rw [digits_pos hpos, hlen]
          exact hrest.next
        · rw [digits_pos hpos, hlen, hrest.text, Buf.text_put, List.append_assoc, List.map_cons, List.singleton_append]
        · rw [digits_pos hpos, hlen, hrest.log, Buf.put_log, List.mem_cons, ← or_assoc]
          exact or_congr (by omega) Iff.rfl

/-! ## ナノ秒を書く繰り返し -/

theorem nanosLoop_succ (i j : Nat) (tn : UInt64) (b : Buf UInt8) :
    nanosLoop i (j + 1) tn b = nanosLoop i j (tn / 10) (b.put (i + (j + 1)) (digitChar (tn.toNat % 10))) := by
  rw [nanosLoop, byte_digit]

theorem nanosLoop_mem (h : k ≤ i ∨ i + j < k) (tn : UInt64) (b : Buf UInt8) : (nanosLoop i j tn b).mem k = b.mem k := by
  induction j generalizing b tn with
  | zero => rfl
  | succ j ih => rw [nanosLoop_succ, ih (by omega), Buf.put_mem_ne (by omega)]

theorem nanosLoop_text (i j : Nat) (tn : UInt64) (b : Buf UInt8) :
    (nanosLoop i j tn b).text (i + 1 + j) = b.text (i + 1) ++ padded j tn.toNat := by
  induction j generalizing b tn with
  | zero => rw [padded, List.append_nil]; rfl
  | succ j ih =>
      have hfirst : (b.put (i + (j + 1)) (digitChar (tn.toNat % 10))).text (i + 1) = b.text (i + 1) :=
        Buf.text_congr fun k hk => Buf.put_mem_ne (by omega)
      have hlast : (nanosLoop i (j + 1) tn b).mem (i + 1 + j) = digitChar (tn.toNat % 10) := by
        rw [nanosLoop_succ, nanosLoop_mem (by omega), show i + (j + 1) = i + 1 + j by omega, Buf.put_mem_eq]
      rw [← Nat.add_assoc, Buf.text_succ, hlast, nanosLoop_succ, ih, hfirst, List.append_assoc, padded, UInt64.toNat_div]
      rfl

theorem mem_log_nanosLoop (tn : UInt64) (b : Buf UInt8) :
    k ∈ (nanosLoop i j tn b).log ↔ (i < k ∧ k ≤ i + j) ∨ k ∈ b.log := by
  induction j generalizing b tn with
  | zero => exact ⟨Or.inr, fun hk => hk.resolve_left (by omega)⟩
  | succ j ih =>
      rw [nanosLoop_succ, ih, Buf.put_log, List.mem_cons, ← or_assoc]
      exact or_congr (by omega) Iff.rfl

/-! ## `tvtostr` -/

/-- 秒の文字列。 -/
def secsText (t : Tv) : List UInt8 := if t / nsecs = 0 then [48] else decimal (t / nsecs).toNat

/-- 時刻の文字列。 -/
def stampText (t : Tv) : List UInt8 := secsText t ++ 46 :: padded 9 (t % nsecs).toNat

theorem secsText_pos (t : Tv) : 0 < (secsText t).length := by
  unfold secsText
  split
  · exact Nat.one_pos
  · rename_i h
    rw [length_decimal, List.length_pos_iff]
    exact Nat.digits_ne_nil_iff_ne_zero.mpr (fun h₀ => h (UInt64.toNat.inj h₀))

theorem length_stampText (t : Tv) : (stampText t).length = (secsText t).length + 10 := by
  rw [stampText, List.length_append, List.length_cons, length_padded]

/-- 秒の桁数は、秒の大きさで決まる。 -/
theorem secsText_le_iff (hn : 0 < n) : (secsText t).length ≤ n ↔ (t / nsecs).toNat < 10 ^ n := by
  unfold secsText
  split
  · rename_i h
    rw [h, UInt64.toNat_zero, List.length_singleton]
    exact ⟨fun _ => Nat.pow_pos (by decide), fun _ => hn⟩
  · rw [length_decimal, Nat.digits_length_le_iff (by decide)]

/-- 秒を書いた後の領域。 -/
def secsBuf (buf : Buf UInt8) (t : Tv) : Buf UInt8 × Nat :=
  secsLoop 20 (buf.put 0 48) (if t / nsecs = 0 then 1 else 0) (t / nsecs)

theorem secsBuf_spec (buf : Buf UInt8) (t : Tv) : (secsBuf buf t).2 = (secsText t).length ∧
    (secsBuf buf t).1.text (secsText t).length = (secsText t).reverse ∧
    ∀ k, k ∈ (secsBuf buf t).1.log ↔ k < (secsText t).length ∨ k ∈ buf.log := by
  unfold secsBuf secsText
  by_cases hts : t / nsecs = 0
  · rw [if_pos hts, if_pos hts, hts, secsLoop_zero]
    refine ⟨rfl, Buf.text_put buf 0 48, fun k => ?_⟩
    rw [Buf.put_log, List.mem_cons, List.length_singleton, Nat.lt_one_iff]
  · rw [if_neg hts, if_neg hts]
    have hlt : (t / nsecs).toNat < 10 ^ 20 := Nat.lt_trans (UInt64.toNat_lt _) (by decide)
    have hlen : 0 < (Nat.digits 10 (t / nsecs).toNat).length :=
      List.length_pos_iff.mpr (Nat.digits_ne_nil_iff_ne_zero.mpr (fun h₀ => hts (UInt64.toNat.inj h₀)))
    obtain ⟨h₁, h₂, h₃⟩ := secsLoop_text hlt (buf.put 0 48) 0
    rw [Nat.zero_add] at h₁ h₂
    rw [length_decimal, decimal, List.reverse_reverse]
    refine ⟨h₁, h₂, fun k => ?_⟩
    rw [h₃, Buf.put_log, List.mem_cons, ← or_assoc]
    exact or_congr (by omega) Iff.rfl

theorem tvtostr_eq (h : 19 ≤ bsz) (buf : Buf UInt8) (t : Tv) : tvtostr buf bsz t =
    (nanosLoop (secsText t).length 9 (t % nsecs)
      (((secsBuf buf t).1.flip 0 ((secsText t).length - 1)).put (secsText t).length 46), (stampText t).length) := by
  have h₂ := (secsBuf_spec buf t).1
  rw [length_stampText, ← h₂, tvtostr, if_neg (Nat.not_lt.mpr h)]
  rfl

theorem tvtostr_short (h : bsz < 19) (buf : Buf UInt8) (t : Tv) : tvtostr buf bsz t = (buf, 0) := by
  rw [tvtostr, if_pos h]

/-- `tvtostr` が返す数の文字は、時刻の文字列である。 -/
theorem tvtostr_text (h : 19 ≤ bsz) (buf : Buf UInt8) (t : Tv) :
    (tvtostr buf bsz t).1.text (stampText t).length = stampText t := by
  rw [tvtostr_eq h, length_stampText]
  rw [show (secsText t).length + 10 = (secsText t).length + 1 + 9 by omega, nanosLoop_text, Buf.text_put, Buf.text_flip,
    (secsBuf_spec buf t).2.1, List.reverse_reverse, List.append_assoc, List.singleton_append, stampText]

theorem mem_log_tvtostr (h : 19 ≤ bsz) (buf : Buf UInt8) (t : Tv) :
    k ∈ (tvtostr buf bsz t).1.log ↔ k < (stampText t).length ∨ k ∈ buf.log := by
  have hpos := secsText_pos t
  rw [tvtostr_eq h, mem_log_nanosLoop, Buf.put_log, List.mem_cons, length_stampText]
  have hsec := (secsBuf_spec buf t).2.2 k
  constructor
  · rintro (hk | rfl | hk)
    · exact Or.inl (by omega)
    · exact Or.inl (by omega)
    · rcases Buf.mem_log_flip hk with hk | hk
      · exact Or.inl (by omega)
      · exact (hsec.mp hk).imp_left (fun hk => by omega)
  · intro hk
    by_cases hlt : k < (secsText t).length ∨ k ∈ buf.log
    · exact Or.inr (Or.inr (Buf.mem_log_flip_of_mem (hsec.mpr hlt)))
    · obtain ⟨hge, hbuf⟩ := not_or.mp hlt
      have hk := hk.resolve_right hbuf
      rcases Nat.eq_or_lt_of_le (Nat.not_lt.mp hge) with rfl | hlt
      · exact Or.inr (Or.inl rfl)
      · exact Or.inl ⟨hlt, by omega⟩

/-! ## `strtotv` -/

section Reader
variable {S F : List UInt8} {c : UInt8} {fp : Option (List UInt8)}

/-- `strtoul` が返す値。 -/
theorem saturated_eq (n : Nat) : (if 2 ^ 64 ≤ n then (0xffffffffffffffff : UInt64) else UInt64.ofNat n) =
    UInt64.ofNat (min n (2 ^ 64 - 1)) := by
  split
  · rename_i h
    rw [Nat.min_eq_right (Nat.le_trans (Nat.sub_le _ _) h)]
    rfl
  · rename_i h
    rw [Nat.min_eq_left (by omega)]

theorem saturated_zero (n : Nat) : UInt64.ofNat (min n (2 ^ 64 - 1)) = 0 ↔ n = 0 := by
  rw [← UInt64.toNat_inj, UInt64.toNat_ofNat_of_lt' (by rw [UInt64.size]; omega), UInt64.toNat_zero]
  omega

theorem digitsVal_lt (hd : ∀ c ∈ F, isdigit c = true) : digitsVal F < 10 ^ F.length := by
  induction F using List.reverseRecOn with
  | nil => exact Nat.one_pos
  | append_singleton F c ih =>
      have hc := hd c (List.mem_append_right _ (List.mem_singleton_self c))
      have hF := ih (fun x hx => hd x (List.mem_append_left _ hx))
      have hc' : c.toNat ≤ 57 := UInt8.le_iff_toNat_le.mp (of_decide_eq_true (Bool.and_eq_true_iff.mp hc).2)
      rw [digitsVal_concat, List.length_append, List.length_singleton, Nat.pow_succ]
      omega

/-- 数字のない所では、`strtoul` は何も読まない。 -/
theorem strtoul_halt (hc : halts c = true) (rest : List UInt8) : strtoul (c :: rest) = (0, 0) := by
  obtain ⟨hsp, hdg, hsg, -⟩ := halts_iff.mp hc
  have hws : (c :: rest).takeWhile isspace = [] := List.takeWhile_cons_of_neg (by rw [hsp]; decide)
  have hsn : ((c :: rest).take 1).takeWhile issign = [] := List.takeWhile_cons_of_neg (by rw [hsg]; decide)
  have hds : (c :: rest).takeWhile isdigit = [] := List.takeWhile_cons_of_neg (by rw [hdg]; decide)
  simp only [strtoul, hws, List.length_nil, List.drop_zero, hsn, hds]
  rfl

/-- 小数部の読み取り。空の小数部は、止まるバイトの前でだけ空と読まれる。 -/
theorem strtoul_frac (hF : ∀ c ∈ F, isdigit c = true) (hc : isdigit c = false) (hne : F = [] → halts c = true)
    (rest : List UInt8) : strtoul (F ++ c :: rest) = (UInt64.ofNat (min (digitsVal F) (2 ^ 64 - 1)), F.length) := by
  by_cases hnil : F = []
  · rw [hnil, List.nil_append, strtoul_halt (hne hnil)]
    rfl
  · rw [strtoul_run ⟨hnil, hF⟩ (fun x hx => by cases hx; exact hc), saturated_eq]

theorem fracLen_iff : FracLen fp ↔ ¬ 9 < (fracDigits fp).length ∧ (fracDigits fp).length % 3 = 0 := by
  unfold FracLen
  omega

/-- 桁数に応じた係数は、小数部をナノ秒に直す。 -/
theorem fracScale_eq (h : FracLen fp) : fracScale (fracDigits fp).length = UInt64.ofNat (10 ^ (9 - (fracDigits fp).length)) := by
  rcases h with h | h | h | h <;> rw [h] <;> rfl

theorem ofNat_time (s x k : Nat) : UInt64.ofNat s * nsecs + UInt64.ofNat x * UInt64.ofNat k =
    UInt64.ofNat (s * 10 ^ 9 + x * k) := by
  rw [UInt64.ofNat_add, UInt64.ofNat_mul, UInt64.ofNat_mul]
  rfl

/-- `strtotv` は、秒の桁あふれだけを抑え、積と和の桁あふれは見ない。 -/
theorem strtotv_text (hS : Digits S) (hF : ∀ c ∈ fracDigits fp, isdigit c = true) (hc : isdigit c = false) (hdot : c ≠ 46)
    (hne : fp = some [] → halts c = true) (rest : List UInt8) : strtotv (timeText S fp ++ c :: rest) =
      if digitsVal S = 0 ∨ ¬ FracLen fp then natv
      else UInt64.ofNat (min (digitsVal S) (2 ^ 64 - 1) * 10 ^ 9 + fracNanos fp) := by
  have hzero := saturated_zero (digitsVal S)
  cases fp with
  | none =>
      have hs : strtoul (S ++ c :: rest) = _ := strtoul_run hS (fun x hx => by cases hx; exact hc)
      have hchar : charAt (S ++ c :: rest) S.length = c := charAt_append_right (v := c :: rest) 0
      have hlen : FracLen none := Or.inl rfl
      rw [saturated_eq] at hs
      simp only [timeText, strtotv, hs, hchar, hzero, if_neg hdot, hlen, not_true_eq_false, or_false]
      have htime := ofNat_time (min (digitsVal S) (2 ^ 64 - 1)) 0 1
      rw [show UInt64.ofNat 0 * UInt64.ofNat 1 = 0 from rfl, UInt64.add_zero] at htime
      rw [htime]
      rfl
  | some F =>
      have hs : strtoul (S ++ 46 :: (F ++ c :: rest)) = _ := strtoul_run hS (fun x hx => by cases hx; rfl)
      have hx := strtoul_frac (F := F) hF hc (fun h => hne (by rw [h])) rest
      have hchar : charAt (S ++ 46 :: (F ++ c :: rest)) S.length = 46 := charAt_append_right (v := 46 :: (F ++ c :: rest)) 0
      rw [saturated_eq] at hs
      rw [timeText, List.append_assoc, List.cons_append]
      simp only [strtotv, hs, hzero, hchar, drop_after, hx, if_true]
      by_cases h0 : digitsVal S = 0
      · rw [if_pos h0, if_pos (Or.inl h0)]
      · rw [if_neg h0]
        by_cases hlen : FracLen (some F)
        · obtain ⟨h9, h3⟩ : ¬ 9 < F.length ∧ F.length % 3 = 0 := fracLen_iff.mp hlen
          have hscale : fracScale F.length = UInt64.ofNat (10 ^ (9 - F.length)) := fracScale_eq hlen
          have hlt : digitsVal F < 2 ^ 64 := Nat.lt_trans (Nat.lt_of_lt_of_le (digitsVal_lt hF)
            (Nat.pow_le_pow_right (by decide) (Nat.not_lt.mp h9))) (by decide)
          have hcap : min (digitsVal F) (2 ^ 64 - 1) = digitsVal F := Nat.min_eq_left (by omega)
          rw [if_neg (not_or.mpr ⟨h0, not_not.mpr hlen⟩), if_neg h9, if_neg (not_not.mpr h3), hcap,
            hscale, ofNat_time]
          rfl
        · rw [if_pos (Or.inr hlen)]
          by_cases h9 : 9 < F.length
          · rw [if_pos h9]
          · have h3 : F.length % 3 ≠ 0 := fun h3 => hlen (fracLen_iff.mpr ⟨h9, h3⟩)
            rw [if_neg h9, if_pos h3]

end Reader

end Books.Xquo
