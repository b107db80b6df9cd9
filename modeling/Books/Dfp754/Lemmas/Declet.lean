import Books.Dfp754.Spec

/-!
# 三桁の組
-/

namespace Books.Dfp754

open Books.Lib

variable {w : Nat}

/-- 三桁を十ビットに詰めた数。 -/
def packVal (n : Nat) : Nat := (packDeclet (BitVec.ofNat 32 n)).toNat

/-- 十ビットを開いた三桁。 -/
def unpackVal (n : Nat) : Nat := (unpackDeclet (BitVec.ofNat 32 n)).toNat

theorem packDeclet_toNat (x : BitVec 32) : (packDeclet x).toNat = packVal x.toNat := by
  rw [packVal, BitVec.ofNat_toNat, BitVec.setWidth_eq]

theorem unpackDeclet_toNat (x : BitVec 32) : (unpackDeclet x).toNat = unpackVal x.toNat := by
  rw [unpackVal, BitVec.ofNat_toNat, BitVec.setWidth_eq]

/-! ## 表の確認 -/

/-- 十ビットのどの並びも三桁に開かれ、その値は表の通りである。 -/
theorem unpackVal_table : ∀ n, n < 1024 →
    unpackVal n < 4096 ∧ Digits (· < 10) 16 3 (unpackVal n) ∧ recode id 16 10 3 (unpackVal n) = decletVal n := by
  decide +kernel

/-- 三桁は十ビットに詰められ、開けば元に戻る。 -/
theorem packVal_table : ∀ a, a < 10 → ∀ b, b < 10 → ∀ c, c < 10 →
    packVal (256 * a + 16 * b + c) < 1024 ∧ unpackVal (packVal (256 * a + 16 * b + c)) = 256 * a + 16 * b + c := by
  decide +kernel

theorem unpackVal_lt {n : Nat} (h : n < 1024) : unpackVal n < 4096 := (unpackVal_table n h).1

theorem unpackVal_digits {n : Nat} (h : n < 1024) : Digits (· < 10) 16 3 (unpackVal n) := (unpackVal_table n h).2.1

theorem unpackVal_recode {n : Nat} (h : n < 1024) : recode id 16 10 3 (unpackVal n) = decletVal n :=
  (unpackVal_table n h).2.2

theorem threeDigits {n : Nat} (hn : n < 4096) (h : Digits (· < 10) 16 3 n) :
    ∃ a b c, a < 10 ∧ b < 10 ∧ c < 10 ∧ n = 256 * a + 16 * b + c := by
  have h0 := h 0 (by omega)
  have h1 := h 1 (by omega)
  have h2 := h 2 (by omega)
  norm_num at h0 h1 h2
  exact ⟨n / 256 % 16, n / 16 % 16, n % 16, h2, h1, h0, by omega⟩

theorem packVal_lt {n : Nat} (hn : n < 4096) (h : Digits (· < 10) 16 3 n) : packVal n < 1024 := by
  obtain ⟨a, b, c, ha, hb, hc, rfl⟩ := threeDigits hn h
  exact (packVal_table a ha b hb c hc).1

theorem unpackVal_packVal {n : Nat} (hn : n < 4096) (h : Digits (· < 10) 16 3 n) : unpackVal (packVal n) = n := by
  obtain ⟨a, b, c, ha, hb, hc, rfl⟩ := threeDigits hn h
  exact (packVal_table a ha b hb c hc).2

theorem decletVal_packVal {n : Nat} (hn : n < 4096) (h : Digits (· < 10) 16 3 n) :
    decletVal (packVal n) = recode id 16 10 3 n := by
  rw [← unpackVal_recode (packVal_lt hn h), unpackVal_packVal hn h]

/-! ## 三桁ごとの並び -/

variable {k n : Nat}

theorem packVal_digits (h : Digits (· < 10) 16 (3 * k) n) : Digits (fun d => packVal d < 1024) 4096 k n :=
  fun i hi => packVal_lt (Nat.mod_lt _ (by decide)) ((digits_group (by decide)).1 h i hi)

theorem decletVal_pack (h : Digits (· < 10) 16 (3 * k) n) :
    recode decletVal 1024 1000 k (recode packVal 4096 1024 k n) = recode id 16 10 (3 * k) n := by
  rw [recode_comp (packVal_digits h), recode_group 3 k]
  exact recode_congr (fun i hi => decletVal_packVal (Nat.mod_lt _ (by decide)) ((digits_group (by decide)).1 h i hi))

theorem unpackVal_pack (h : Digits (· < 10) 16 (3 * k) n) :
    recode unpackVal 1024 4096 k (recode packVal 4096 1024 k n) = n % 4096 ^ k := by
  rw [recode_comp (packVal_digits h), ← recode_self 4096 k n]
  exact recode_congr (fun i hi => unpackVal_packVal (Nat.mod_lt _ (by decide)) ((digits_group (by decide)).1 h i hi))

theorem unpack_digits : Digits (fun d => unpackVal d < 4096) 1024 k n :=
  fun _ _ => unpackVal_lt (Nat.mod_lt _ (by decide))

theorem unpack_lt (k n : Nat) : recode unpackVal 1024 4096 k n < 4096 ^ k := recode_lt unpack_digits

theorem unpack_bcd (k n : Nat) : Digits (· < 10) 16 (3 * k) (recode unpackVal 1024 4096 k n) := by
  refine (digits_group (by decide)).2 (fun i hi => ?_)
  have hd : recode unpackVal 1024 4096 k n / 4096 ^ i % 4096 = unpackVal (n / 1024 ^ i % 1024) := recode_digit unpack_digits hi
  rw [show (16 : Nat) ^ 3 = 4096 from rfl, hd]
  exact unpackVal_digits (Nat.mod_lt _ (by decide))

theorem unpack_recode (k n : Nat) :
    recode id 16 10 (3 * k) (recode unpackVal 1024 4096 k n) = recode decletVal 1024 1000 k n := by
  rw [recode_group 3 k]
  refine (recode_comp unpack_digits).trans ?_
  exact recode_congr (fun i _ => unpackVal_recode (Nat.mod_lt _ (by decide)))

end Books.Dfp754
