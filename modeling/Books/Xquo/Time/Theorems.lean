import Books.Xquo.Time.Lemmas

/-!
# 時刻の文字列の主定理
-/

namespace Books.Xquo

open Books.Btree Books.Book Books.Lib

variable {S : List UInt8} {F : Option (List UInt8)} {bsz : Nat}

/-! ## 書き込みの範囲 -/

theorem toNat_secs (t : Tv) : (t / nsecs).toNat = t.toNat / 10 ^ 9 := UInt64.toNat_div ..

/-- 大きさの検査は 19 バイトとの比較だけなので、19 バイトでは秒が十桁以上、20 バイトでは秒が十一桁のときに、領域の外に書く。 -/
theorem tvtostr_respects_iff (bsz : Nat) (t : Tv) :
    RespectsSize bsz t ↔ ¬ (bsz = 19 ∧ 10 ^ 18 ≤ t.toNat) ∧ ¬ (bsz = 20 ∧ 10 ^ 19 ≤ t.toNat) := by
  have hword := UInt64.toNat_lt t
  rcases Nat.lt_or_ge bsz 19 with hshort | hlong
  · refine ⟨fun _ => by omega, fun _ mem => Or.inl ?_⟩
    rw [tvtostr_short hshort]
    exact ⟨rfl, rfl⟩
  · have hlen := length_stampText t
    have hpos := secsText_pos t
    have hret : ∀ mem, (tvtostr (Buf.init mem) bsz t).2 = (stampText t).length := fun mem => by rw [tvtostr_eq hlong]
    have hlog : ∀ mem k, k ∈ (tvtostr (Buf.init mem) bsz t).1.log ↔ k < (stampText t).length := by
      intro mem k
      rw [mem_log_tvtostr hlong, Buf.init_log, or_iff_left List.not_mem_nil]
    have hfits : RespectsSize bsz t ↔ (secsText t).length ≤ bsz - 10 := by
      constructor
      · intro h
        rcases h (fun _ => 0) with ⟨h₀, _⟩ | ⟨hw, _⟩
        · rw [hret] at h₀
          omega
        · have hlast := hw ((stampText t).length - 1) ((hlog _ _).mpr (by omega))
          omega
      · refine fun h mem => Or.inr ⟨fun k hk => ?_, fun k => by rw [hret]; exact hlog mem k⟩
        have hk' := (hlog mem k).mp hk
        omega
    rw [hfits, secsText_le_iff (by omega), toNat_secs]
    -- 二十一バイト以上なら、六十四ビットの時刻はすべて収まる。
    rcases Nat.lt_or_ge bsz 21 with hlt | hge
    · obtain rfl | rfl : bsz = 19 ∨ bsz = 20 := by omega
      · omega
      · omega
    · have hpow : 10 ^ 11 ≤ 10 ^ (bsz - 10) := Nat.pow_le_pow_right (by decide) (by omega)
      omega

/-- 19 バイトの領域では、秒が十桁の時刻の最後のバイトが領域の外に出る。 -/
theorem stamp_overruns : ¬ RespectsSize 19 1000000000000000000 := by
  intro h
  rcases h (fun _ => 0) with ⟨h₀, _⟩ | ⟨hw, _⟩
  · exact absurd h₀ (by decide)
  · exact absurd (hw 19 (by decide)) (by decide)

/-! ## 書いて読み戻す -/

/-- 一秒以上の時刻は、書いた文字列から読み戻せる。 -/
theorem stamp_round_trips (buf : Buf UInt8) (bsz : Nat) (t : Tv) (c : UInt8) (rest : List UInt8) (hbsz : 21 ≤ bsz)
    (ht : 10 ^ 9 ≤ t.toNat) (hc : c = tab ∨ c = 0) :
    (tvtostr buf bsz t).2 = (Nat.digits 10 (t.toNat / 10 ^ 9)).length + 10 ∧
    (∀ k, k ∈ (tvtostr buf bsz t).1.log ↔ k < (tvtostr buf bsz t).2 ∨ k ∈ buf.log) ∧
    strtotv ((tvtostr buf bsz t).1.text (tvtostr buf bsz t).2 ++ c :: rest) = t := by
  have hlong : 19 ≤ bsz := Nat.le_trans (by decide) hbsz
  have hword := UInt64.toNat_lt t
  have hts := toNat_secs t
  have hne : t / nsecs ≠ 0 := fun h => by rw [h, UInt64.toNat_zero] at hts; omega
  have hsecs : secsText t = decimal (t / nsecs).toNat := if_neg hne
  have hval : digitsVal (secsText t) = t.toNat / 10 ^ 9 := by rw [hsecs, digitsVal_decimal, hts]
  have hret : (tvtostr buf bsz t).2 = (stampText t).length := by rw [tvtostr_eq hlong]
  have hdigits : Digits (secsText t) :=
    ⟨List.length_pos_iff.mp (secsText_pos t), by rw [hsecs]; exact decimal_isdigit _⟩
  have hfrac : ∀ c ∈ fracDigits (some (padded 9 (t % nsecs).toNat)), isdigit c = true := padded_isdigit _ _
  have hlen : FracLen (some (padded 9 (t % nsecs).toNat)) := Or.inr (Or.inr (Or.inr (length_padded _ _)))
  have hnanos : fracNanos (some (padded 9 (t % nsecs).toNat)) = t.toNat % 10 ^ 9 := by
    rw [fracNanos, fracDigits, Option.getD_some, length_padded, digitsVal_padded, UInt64.toNat_mod]
    exact (Nat.mul_one _).trans (Nat.mod_mod _ _)
  refine ⟨?_, fun k => ?_, ?_⟩
  · rw [hret, length_stampText, hsecs, length_decimal, hts]
  · rw [hret, mem_log_tvtostr hlong]
  · have htext : stampText t = timeText (secsText t) (some (padded 9 (t % nsecs).toNat)) := rfl
    have hstop : isdigit c = false ∧ c ≠ 46 := by rcases hc with rfl | rfl <;> decide
    have hfull : some (padded 9 (t % nsecs).toNat) = some [] → halts c = true := by
      intro h
      have h₉ := congrArg List.length (Option.some.inj h)
      rw [length_padded] at h₉
      exact absurd h₉ (by decide)
    have hread : ¬ (digitsVal (secsText t) = 0 ∨ ¬ FracLen (some (padded 9 (t % nsecs).toNat))) :=
      not_or.mpr ⟨by omega, not_not.mpr hlen⟩
    rw [hret, tvtostr_text hlong, htext, strtotv_text hdigits hfrac hstop.1 hstop.2 hfull, if_neg hread, hval,
      hnanos, Nat.min_eq_left (by omega), Nat.div_add_mod', UInt64.ofNat_toNat]

theorem stamp_round_trips_second : 21 ≤ 21 ∧
    strtotv ((tvtostr (Buf.init fun _ => 0) 21 1000000000).1.text 11 ++ [tab]) = 1000000000 :=
  ⟨by decide, (stamp_round_trips (Buf.init fun _ => 0) 21 1000000000 tab [] (by decide) (by decide) (Or.inl rfl)).2.2⟩

/-! ## 正確な時刻 -/

/-- `strtotv` が正確なのは、秒が 0 のとき、小数部の桁数が合わないとき、時刻が六十四ビットに収まるときと、抑えた秒の和が
たまたま `NATV` に重なるときに限る。 -/
theorem strtotv_exact_iff (S : List UInt8) (F : Option (List UInt8)) (rest : List UInt8) (hS : Digits S)
    (hF : ∀ c ∈ fracDigits F, isdigit c = true) :
    strtotv (timeText S F ++ 0 :: rest) = exactTime S F ↔
      digitsVal S = 0 ∨ ¬ FracLen F ∨ timeNanos S F < 2 ^ 64 ∨
        (min (digitsVal S) (2 ^ 64 - 1) * 10 ^ 9 + fracNanos F) % 2 ^ 64 = 2 ^ 64 - 1 := by
  rw [strtotv_text hS hF (by decide) (by decide) (fun _ => by decide), exactTime]
  by_cases hrefused : digitsVal S = 0 ∨ ¬ FracLen F
  · rw [if_pos hrefused, if_neg (by tauto)]
    exact iff_of_true rfl (by tauto)
  · obtain ⟨h₀, hlen⟩ := not_or.mp hrefused
    have hlen := not_not.mp hlen
    have hnatv : ∀ n, UInt64.ofNat n = natv ↔ n % 2 ^ 64 = 2 ^ 64 - 1 := by
      intro n
      rw [← UInt64.toNat_inj, UInt64.toNat_ofNat']
      rfl
    rw [if_neg hrefused]
    rcases Nat.lt_trichotomy (timeNanos S F) (2 ^ 64 - 1) with hlt | heq | hgt
    · rw [if_pos ⟨h₀, hlen, hlt⟩]
      refine iff_of_true ?_ (Or.inr (Or.inr (Or.inl (by omega))))
      rw [timeNanos] at hlt ⊢
      rw [Nat.min_eq_left (by omega)]
    · rw [if_neg (by omega), hnatv]
      refine iff_of_true ?_ (Or.inr (Or.inr (Or.inl (by omega))))
      rw [timeNanos] at heq
      rw [Nat.min_eq_left (by omega), heq]
      decide
    · rw [if_neg (by omega), hnatv]
      constructor
      · exact fun h => Or.inr (Or.inr (Or.inr h))
      · rintro (h | h | h | h)
        · exact absurd h h₀
        · exact absurd hlen h
        · omega
        · exact h

/-- ミリ秒の時刻 `1500000000000` は、桁があふれた時刻になる。 -/
theorem milliseconds_wrap : exactTime [49, 53, 48, 48, 48, 48, 48, 48, 48, 48, 48, 48, 48] none = natv ∧
    strtotv (timeText [49, 53, 48, 48, 48, 48, 48, 48, 48, 48, 48, 48, 48] none ++ [0]) ≠
      exactTime [49, 53, 48, 48, 48, 48, 48, 48, 48, 48, 48, 48, 48] none := by decide

theorem strtotv_exact_second : (Digits [49] ∧ ∀ c ∈ fracDigits (some [53, 48, 48]), isdigit c = true) ∧
    strtotv (timeText [49] (some [53, 48, 48]) ++ [0]) = exactTime [49] (some [53, 48, 48]) := by
  have hdigit : Digits [49] := ⟨List.cons_ne_nil _ _, fun c hc => List.mem_singleton.mp hc ▸ rfl⟩
  have hfrac : ∀ c ∈ fracDigits (some [53, 48, 48]), isdigit c = true := by decide
  exact ⟨⟨hdigit, hfrac⟩,
    (strtotv_exact_iff [49] (some [53, 48, 48]) [] hdigit hfrac).mpr (Or.inr (Or.inr (Or.inl (by decide))))⟩

end Books.Xquo
