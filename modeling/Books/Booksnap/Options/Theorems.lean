import Books.Booksnap.Options.Lemmas

/-!
# 時間の単位の主定理
-/

namespace Books.Booksnap

open Books.Btree Books.Book Books.Xquo Books.Lib

variable {s ds : List UInt8}

theorem signed_eq_zero (neg : Bool) (n : Nat) : signed neg n = 0 ↔ n = 0 := by
  cases neg with
  | true => exact Int.neg_eq_zero.trans Int.natCast_eq_zero
  | false => exact Int.natCast_eq_zero

theorem denotes_some (v : Tv) (n : Nat) : Denotes (.ok (some v)) n ↔ v.toNat = n := by
  constructor
  · rintro ⟨w, hw, hval⟩
    cases hw
    exact hval
  · exact fun hval => ⟨v, rfl, hval⟩

section Readers
variable (hd : Digits ds) (hs : 0 ∉ s) (h : IsUnit s)
include hd hs h

theorem invalidate_iff (intv : Tv) : Denotes (readInvalidate intv (ds ++ s)) (digitsVal ds * (unitOf s).toNat) ↔
    (¬ IsHours s ∨ digitsVal ds = 0) ∧ digitsVal ds * (unitOf s).toNat < 2 ^ 64 := by
  obtain ⟨hpos, hle, -, hunit⟩ := codeUnit_spec h
  rw [← hunit, ← scale_iff hpos hle, readInvalidate_unit hd hs h, denotes_some]

theorem interval_iff : DenotesPos (readInterval (ds ++ s)) (digitsVal ds * (unitOf s).toNat) ↔
    (¬ IsHours s ∨ digitsVal ds = 0) ∧ digitsVal ds * (unitOf s).toNat < 2 ^ 64 := by
  obtain ⟨hpos, hle, -, hunit⟩ := codeUnit_spec h
  have hne : (unitOf s).toNat ≠ 0 := Nat.ne_of_gt (Nat.lt_of_lt_of_le hpos hle)
  rw [DenotesPos, readInterval_unit hd hs h]
  by_cases h0 : digitsVal ds = 0
  · rw [h0, Nat.zero_mul, if_pos rfl, if_pos rfl]
    exact iff_of_true rfl ⟨Or.inr rfl, by decide⟩
  · rw [if_neg (Nat.mul_ne_zero h0 hne), if_neg h0, ← hunit, ← scale_iff hpos hle, denotes_some]

theorem offset_iff (neg : Bool) :
    readOffset (minus neg ++ (ds ++ s)) = .ok (some (signed neg (digitsVal ds) * (unitOf s).toNat)) ↔
      (¬ IsHours s ∨ digitsVal ds = 0) ∧ -2 ^ 63 ≤ signed neg (digitsVal ds) * (unitOf s).toNat ∧
        signed neg (digitsVal ds) * (unitOf s).toNat < 2 ^ 63 := by
  obtain ⟨hpos, hle, -, hunit⟩ := codeUnit_spec h
  rw [← hunit, ← signed_eq_zero neg, ← clamp_bmod_iff hpos hle, readOffset_unit hd hs h]
  exact ⟨fun he => Option.some.inj (Except.ok.inj he), fun he => by rw [he]⟩

end Readers

/-- 単位の読み取りが正しいのは、`h` と、`u` か `n` の後を見ずに進む短い文字列の他である。単位の付いた値が正しいのは、さらに値が
桁に収まるときである。 -/
theorem suffix_units_iff (ds s : List UInt8) (neg : Bool) (intv : Tv) (hd : Digits ds) (hs : 0 ∉ s) :
    (sufstrtotv s = .ok (unitOf s) ↔ ¬ Misread s) ∧
    (IsUnit s →
      (DenotesPos (readInterval (ds ++ s)) (digitsVal ds * (unitOf s).toNat) ↔
        (¬ IsHours s ∨ digitsVal ds = 0) ∧ digitsVal ds * (unitOf s).toNat < 2 ^ 64) ∧
      (readOffset (minus neg ++ (ds ++ s)) = .ok (some (signed neg (digitsVal ds) * (unitOf s).toNat)) ↔
        (¬ IsHours s ∨ digitsVal ds = 0) ∧ -2 ^ 63 ≤ signed neg (digitsVal ds) * (unitOf s).toNat ∧
          signed neg (digitsVal ds) * (unitOf s).toNat < 2 ^ 63) ∧
      (Denotes (readInvalidate intv (ds ++ s)) (digitsVal ds * (unitOf s).toNat) ↔
        (¬ IsHours s ∨ digitsVal ds = 0) ∧ digitsVal ds * (unitOf s).toNat < 2 ^ 64)) :=
  ⟨sufstrtotv_iff hs, fun h => ⟨interval_iff hd hs h, offset_iff hd hs h neg, invalidate_iff hd hs h intv⟩⟩

theorem suffix_units_millis : (Digits [53] ∧ 0 ∉ [(109 : UInt8), 83]) ∧ sufstrtotv [109, 83] = .ok (unitOf [109, 83]) ∧
    Denotes (readInvalidate 1 ([53] ++ [109, 83])) 5000000 := by
  have hdigit : Digits [53] := ⟨List.cons_ne_nil _ _, fun c hc => List.mem_singleton.mp hc ▸ rfl⟩
  obtain ⟨hsuf, hargs⟩ := suffix_units_iff [53] [109, 83] false 1 hdigit (by decide)
  exact ⟨⟨hdigit, by decide⟩, hsuf.mpr (by decide), (hargs (by decide)).2.2.mpr (by decide)⟩

/-- `h` は 3.6 ミリ秒になり、`u` の検査は NUL の先を読み、`ux` はマイクロ秒として通る。 -/
theorem suffix_misread : sufstrtotv [104] ≠ .ok (unitOf [104]) ∧ sufstrtotv [117] = .error (.outside 2) ∧
    sufstrtotv [117, 120] = .ok msecs ∧ unitOf [117, 120] = natv ∧
    readInterval [49, 104] = .ok (some 3600000) ∧ unitOf [104] = 3600000000000 := by decide

/-- 時刻の指定は、三つの引数の値からなる。 -/
theorem readConf_units {i o v : List UInt8} {intv inva : Tv} {off : Int} (hi : readInterval i = .ok (some intv))
    (ho : readOffset o = .ok (some off)) (hv : readInvalidate intv v = .ok (some inva)) :
    readConf (some i) (some o) (some v) false = .ok (some ⟨intv, canonicalise intv off, inva, false⟩) := by
  simp only [readConf, argOr, hi, ho, ok_bind]
  simp [hv]

end Books.Booksnap
