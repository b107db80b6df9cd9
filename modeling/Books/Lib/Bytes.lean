import Books.Lib.Field
import Mathlib.Data.List.Basic
import Mathlib.Data.List.GetD

/-!
# バイトの並びの語

長さ `8 * L` の語を、`L` 個のバイトの並びとして読み書きする。領域を位置で読む実行、すべてのバイトが同じ語、語のどれかのバイトが
零であるかの検査も、ここに置く。
-/

namespace Books.Lib

variable {w L i j n : Nat} {x y : BitVec w} {bs : List UInt8}

/-! ## バイトから作る語 -/

/-- 語の中のバイトの順序。 -/
inductive Endian where
  | little
  | big
deriving DecidableEq

/-- 下の桁から並べたバイトの値。 -/
def leNat (bs : List UInt8) : Nat := bs.foldr (fun b n => b.toNat + 256 * n) 0

/-- 位置の順に並んだバイトを読んだ語。 -/
def Endian.word (e : Endian) (w : Nat) (bs : List UInt8) : BitVec w :=
  match e with
  | .little => BitVec.ofNat w (leNat bs)
  | .big => BitVec.ofNat w (leNat bs.reverse)

example : Endian.little.word 32 [1, 2, 3, 4] = 0x04030201#32 := by decide

example : Endian.big.word 32 [1, 2, 3, 4] = 0x01020304#32 := by decide

@[simp] theorem leNat_nil : leNat [] = 0 := rfl

@[simp] theorem leNat_cons (b : UInt8) (bs : List UInt8) : leNat (b :: bs) = b.toNat + 256 * leNat bs := rfl

theorem two_pow_bytes (n : Nat) : (2 : Nat) ^ (8 * n) = 256 ^ n := by rw [Nat.pow_mul]

theorem leNat_lt (bs : List UInt8) : leNat bs < 256 ^ bs.length := by
  induction bs with
  | nil => exact Nat.one_pos
  | cons b bs ih =>
      have hb : b.toNat < 256 := b.toNat_lt
      rw [leNat_cons, List.length_cons, Nat.pow_succ]
      omega

theorem leNat_digit (bs : List UInt8) (i : Nat) : leNat bs / 256 ^ i % 256 = (bs.getD i 0).toNat := by
  induction bs generalizing i with
  | nil => simp
  | cons b bs ih =>
      have hb : b.toNat < 256 := b.toNat_lt
      cases i with
      | zero => rw [leNat_cons, Nat.pow_zero, Nat.div_one, List.getD_cons_zero]; omega
      | succ i =>
          have hq : (b.toNat + 256 * leNat bs) / 256 = leNat bs := by omega
          rw [leNat_cons, Nat.pow_succ, Nat.mul_comm (256 ^ i), ← Nat.div_div_eq_div_mul, hq, ih, List.getD_cons_succ]

theorem getLsbD_leNat (bs : List UInt8) {w j : Nat} (hj : j < w) :
    (BitVec.ofNat w (leNat bs)).getLsbD j = (bs.getD (j / 8) 0).toNat.testBit (j % 8) := by
  have hdiv : leNat bs / 2 ^ j = leNat bs / 256 ^ (j / 8) / 2 ^ (j % 8) := by
    rw [Nat.div_div_eq_div_mul, ← two_pow_bytes, ← Nat.pow_add, show 8 * (j / 8) + j % 8 = j by omega]
  have hlow : ∀ a : Nat, a / 2 ^ (j % 8) % 2 = a % 256 / 2 ^ (j % 8) % 2 := by
    intro a
    have hsplit : (256 : Nat) = 2 ^ (j % 8) * 2 ^ (8 - j % 8) := by
      rw [← Nat.pow_add, show j % 8 + (8 - j % 8) = 8 by omega]
    have heven : 2 ∣ 2 ^ (8 - j % 8) := Nat.pow_dvd_pow 2 (show 1 ≤ 8 - j % 8 by omega)
    rw [hsplit, Nat.mod_mul_right_div_self, Nat.mod_mod_of_dvd _ heven]
  rw [BitVec.getLsbD_ofNat, decide_eq_true hj, Bool.true_and, ← leNat_digit, Nat.testBit_eq_decide_div_mod_eq,
    Nat.testBit_eq_decide_div_mod_eq, hdiv, hlow]

theorem leNat_inj {as bs : List UInt8} (hlen : as.length = bs.length) (h : leNat as = leNat bs) : as = bs := by
  refine List.ext_getElem hlen (fun i hi hj => ?_)
  have hd := leNat_digit as i
  rw [h, leNat_digit, List.getD_eq_getElem _ _ hi, List.getD_eq_getElem _ _ hj] at hd
  exact (UInt8.toNat_inj.mp hd).symm

theorem fld_leNat (hw : 8 * bs.length ≤ w) (i : Nat) :
    fld (BitVec.ofNat w (leNat bs)) (8 * i) 8 = (bs.getD i 0).toNat := by
  have hlt : leNat bs < 2 ^ w := Nat.lt_of_lt_of_le (leNat_lt bs) (two_pow_bytes bs.length ▸ two_pow_le hw)
  rw [fld_eq, toNat_lit hlt, two_pow_bytes, ← leNat_digit]
  rfl

/-- バイトの順序によらず、語のどれかのバイトは並びのどれかのバイトである。 -/
theorem exists_fld_word (e : Endian) {l : List UInt8} (hw : 8 * l.length ≤ w) (P : Nat → Prop) :
    (∃ i, i < l.length ∧ P (fld (e.word w l) (8 * i) 8)) ↔ ∃ b ∈ l, P b.toNat := by
  have hle : ∀ cs : List UInt8, 8 * cs.length ≤ w →
      ((∃ i, i < cs.length ∧ P (fld (BitVec.ofNat w (leNat cs)) (8 * i) 8)) ↔ ∃ b ∈ cs, P b.toNat) := by
    intro cs hcs
    constructor
    · rintro ⟨i, hi, hP⟩
      rw [fld_leNat hcs, List.getD_eq_getElem _ _ hi] at hP
      exact ⟨_, List.getElem_mem hi, hP⟩
    · rintro ⟨b, hb, hP⟩
      obtain ⟨i, hi, rfl⟩ := List.getElem_of_mem hb
      refine ⟨i, hi, ?_⟩
      rwa [fld_leNat hcs, List.getD_eq_getElem _ _ hi]
  cases e with
  | little => exact hle l hw
  | big =>
      have hrev := hle l.reverse (by rwa [List.length_reverse])
      rw [List.length_reverse] at hrev
      rw [Endian.word, hrev]
      simp only [List.mem_reverse]

/-! ## 領域 -/

/-- 読み取りの誤り。`outside i` は領域の外を、`unaligned i` は揃っていない語を読む。 -/
inductive Trap
  | outside (i : Int)
  | unaligned (i : Int)
  | spin
deriving DecidableEq

@[simp] theorem trap_bind {α β : Type} (a : α) (g : α → Except Trap β) : (Except.ok a >>= g) = g a := rfl

/-- 番地 `base` から始まる `size` バイトの領域。 -/
structure Block where
  mem : Nat → UInt8
  size : Nat
  base : Nat
  order : Endian

namespace Block

variable (B : Block)

/-- 位置 `i` のバイト。 -/
def byte (i : Int) : Except Trap UInt8 := if 0 ≤ i ∧ i < B.size then .ok (B.mem i.toNat) else .error (.outside i)

/-- 位置 `i` から始まる `L` バイト。 -/
def bytes (L i : Nat) : List UInt8 := (List.range L).map fun k => B.mem (i + k)

/-- 位置 `i` から始まる `L` バイトの語。`aligned` なら、番地は `L` の倍数でなければならない。 -/
def word (L : Nat) (aligned : Bool) (i : Int) : Except Trap (BitVec (8 * L)) :=
  if ¬ (0 ≤ i ∧ i + L ≤ B.size) then .error (.outside i)
  else if aligned = true ∧ (B.base + i) % L ≠ 0 then .error (.unaligned i)
  else .ok (B.order.word (8 * L) (B.bytes L i.toNat))

variable {B}

theorem byte_eq (h : i < B.size) : B.byte i = .ok (B.mem i) := by
  rw [byte, if_pos (by omega), Int.toNat_natCast]

theorem word_eq {al : Bool} (h : i + L ≤ B.size) (hal : al = true → ((B.base : Int) + i) % L = 0) :
    B.word L al i = .ok (B.order.word (8 * L) (B.bytes L i)) := by
  rw [word, if_neg (not_not.mpr (by omega)), if_neg (fun h => h.2 (hal h.1)), Int.toNat_natCast]

@[simp] theorem length_bytes (L i : Nat) : (B.bytes L i).length = L := by
  rw [bytes, List.length_map, List.length_range]

theorem mem_bytes {b : UInt8} : b ∈ B.bytes L i ↔ ∃ k, k < L ∧ B.mem (i + k) = b := by
  simp only [bytes, List.mem_map, List.mem_range]

end Block

/-! ## すべてのバイトが同じ語 -/

/-- 下の `k` ビットに、バイト `b` が並ぶ。 -/
def Fills (b : UInt8) (k : Nat) (x : BitVec w) : Prop :=
  ∀ j, j < w → x.getLsbD j = (decide (j < k) && b.toNat.testBit (j % 8))

/-- 埋めた部分を、その上に重ねると倍になる。 -/
theorem Fills.double {b : UInt8} {k : Nat} (h : Fills b k x) (hk : k % 8 = 0) : Fills b (2 * k) (x ||| x <<< k) := by
  intro j hj
  rw [BitVec.getLsbD_or, BitVec.getLsbD_shiftLeft, h j hj]
  by_cases hlt : j < k
  · simp [hlt, show j < 2 * k by omega]
  · rw [h (j - k) (by omega), show (j - k) % 8 = j % 8 by omega, Bool.eq_iff_iff]
    simp only [Bool.or_eq_true, Bool.and_eq_true, Bool.not_eq_true', decide_eq_true_eq, decide_eq_false_iff_not]
    constructor
    · rintro (⟨hjk, -⟩ | ⟨⟨-, -⟩, hjk, hbit⟩)
      · exact absurd hjk hlt
      · exact ⟨by omega, hbit⟩
    · rintro ⟨hjk, hbit⟩
      exact .inr ⟨⟨hj, hlt⟩, by omega, hbit⟩

theorem Fills.fld {b : UInt8} {k : Nat} (h : Fills b k x) (hi : 8 * i + 8 ≤ k) (hw : 8 * i + 8 ≤ w) :
    fld x (8 * i) 8 = b.toNat := by
  refine Nat.eq_of_testBit_eq (fun j => ?_)
  rw [Lib.fld, ← BitVec.getLsbD, BitVec.getLsbD_extractLsb']
  by_cases hj : j < 8
  · rw [h _ (by omega), show (8 * i + j) % 8 = j by omega]
    simp [hj, show 8 * i + j < k by omega]
  · have hb : b.toNat < 2 ^ j := Nat.lt_of_lt_of_le b.toNat_lt (two_pow_le (by omega : 8 ≤ j))
    simp [hj, Nat.testBit_lt_two_pow hb]

theorem fld_byte_xor (x y : BitVec w) (i : Nat) : fld (x ^^^ y) (8 * i) 8 = fld x (8 * i) 8 ^^^ fld y (8 * i) 8 := by
  rw [fld, fld, fld, BitVec.extractLsb'_xor, BitVec.toNat_xor]

/-! ## 零のバイトの検査 -/

/-- `j` 個のバイトがすべて 1 の数。 -/
def onesNat : Nat → Nat
  | 0 => 0
  | j + 1 => onesNat j + 256 ^ j

theorem onesNat_le (x j : Nat) (h : ∀ i, i < j → x / 256 ^ i % 256 ≠ 0) : onesNat j ≤ x % 256 ^ j := by
  induction j with
  | zero => exact Nat.zero_le _
  | succ j ih =>
      have hlow := ih (fun i hi => h i (Nat.lt_succ_of_lt hi))
      have hone : 256 ^ j ≤ 256 ^ j * (x / 256 ^ j % 256) :=
        Nat.le_mul_of_pos_right _ (Nat.pos_of_ne_zero (h j (Nat.lt_succ_self j)))
      rw [onesNat, Nat.pow_succ, Nat.mod_mul]
      exact Nat.add_le_add hlow hone

theorem Fills.toNat_mod {k : Nat} (h : Fills 1 k x) (hk : 8 * j ≤ k) (hw : 8 * j ≤ w) : x.toNat % 256 ^ j = onesNat j := by
  induction j with
  | zero => rw [Nat.pow_zero, Nat.mod_one, onesNat]
  | succ j ih =>
      have hbyte : x.toNat / 256 ^ j % 256 = 1 := by
        have hf := h.fld (i := j) (by omega) (by omega)
        rw [fld_eq, two_pow_bytes] at hf
        exact hf
      rw [Nat.pow_succ, Nat.mod_mul, ih (by omega) (by omega), hbyte, Nat.mul_one, onesNat]

theorem toNat_sub_mod (x y : BitVec w) {k : Nat} (hk : k ≤ w) :
    (x - y).toNat % 2 ^ k = (x.toNat % 2 ^ k + (2 ^ k - y.toNat % 2 ^ k)) % 2 ^ k := by
  obtain ⟨m, hm⟩ := Nat.pow_dvd_pow 2 hk
  have hy : y.toNat % 2 ^ k < 2 ^ k := Nat.mod_lt _ (Nat.two_pow_pos k)
  have hylt : y.toNat < 2 ^ w := y.isLt
  have hdiv : y.toNat / 2 ^ k < m := by
    rw [Nat.div_lt_iff_lt_mul (Nat.two_pow_pos k), Nat.mul_comm, ← hm]
    exact hylt
  have hneg : 2 ^ w - y.toNat = 2 ^ k - y.toNat % 2 ^ k + 2 ^ k * (m - 1 - y.toNat / 2 ^ k) := by
    have hsplit := Nat.div_add_mod y.toNat (2 ^ k)
    have hmul : 2 ^ k * (m - 1 - y.toNat / 2 ^ k) + 2 ^ k + 2 ^ k * (y.toNat / 2 ^ k) = 2 ^ k * m := by
      rw [← Nat.mul_succ, ← Nat.mul_add]
      congr 1
      omega
    omega
  rw [BitVec.toNat_sub, Nat.mod_mod_of_dvd _ (Nat.pow_dvd_pow 2 hk), hneg, Nat.add_right_comm, Nat.add_mul_mod_self_left,
    Nat.add_comm, Nat.mod_add_mod]

/-- 下のバイトがどれも零でなければ、1 を並べた数を引いても、次のバイトへ借りは及ばない。 -/
theorem fld_sub_ones {ones : BitVec w} {k : Nat} (hones : Fills 1 k ones) (hk : 8 * j + 8 ≤ k) (hw : 8 * j + 8 ≤ w)
    (h : ∀ i, i < j → fld x (8 * i) 8 ≠ 0) : fld (x - ones) (8 * j) 8 = (fld x (8 * j) 8 + 255) % 256 := by
  have hlow : onesNat j ≤ x.toNat % 256 ^ j :=
    onesNat_le _ _ (fun i hi => by rw [← two_pow_bytes]; simpa [fld_eq] using h i hi)
  have hsub := toNat_sub_mod x ones (show 8 * (j + 1) ≤ w by omega)
  have hones' : ones.toNat % 256 ^ (j + 1) = onesNat j + 256 ^ j := hones.toNat_mod (by omega) (by omega)
  have hx0 : x.toNat % 256 ^ j < 256 ^ j := Nat.mod_lt _ (Nat.pow_pos (by decide))
  have hb : x.toNat / 256 ^ j % 256 < 256 := Nat.mod_lt _ (by decide)
  have hxm : x.toNat % (256 ^ j * 256) = x.toNat % 256 ^ j + 256 ^ j * (x.toNat / 256 ^ j % 256) := Nat.mod_mul
  rw [two_pow_bytes, hones', Nat.pow_succ, hxm] at hsub
  generalize hP : 256 ^ j = P at *
  rw [fld_eq, fld_eq, two_pow_bytes, hP, show (2 : Nat) ^ 8 = 256 from rfl]
  have hval : x.toNat % P + P * (x.toNat / P % 256) + (P * 256 - (onesNat j + P)) =
      (x.toNat % P - onesNat j) + P * (x.toNat / P % 256 + 255) := by
    have hmul : P * (x.toNat / P % 256 + 255) = P * (x.toNat / P % 256) + P * 255 := Nat.mul_add ..
    omega
  have hPpos : 0 < P := hP ▸ Nat.pow_pos (by decide)
  rw [hval] at hsub
  have hdiv := congrArg (fun n => n / P) hsub
  beta_reduce at hdiv
  rw [Nat.mod_mul_right_div_self, Nat.mod_mul_right_div_self, Nat.add_mul_div_left _ _ hPpos,
    Nat.div_eq_of_lt (show x.toNat % P - onesNat j < P by omega), Nat.zero_add] at hdiv
  exact hdiv

/-- `((x - ones) & ~x) & (ones << 7)`。 -/
def zeroBytes (ones x : BitVec w) : BitVec w := ((x - ones) &&& ~~~x) &&& (ones <<< 7)

theorem getLsbD_zeroBytes {ones : BitVec w} (hones : Fills 1 w ones) (hw : 8 * i + 8 ≤ w)
    (h : ∀ l, l < i → fld x (8 * l) 8 ≠ 0) : (zeroBytes ones x).getLsbD (8 * i + 7) = decide (fld x (8 * i) 8 = 0) := by
  have hbit : ∀ z : BitVec w, z.getLsbD (8 * i + 7) = decide (128 ≤ fld z (8 * i) 8) := by
    intro z
    have hlt : fld z (8 * i) 8 < 2 ^ 8 := fld_lt z _ _
    have he : z.getLsbD (8 * i + 7) = (fld z (8 * i) 8).testBit 7 := by
      rw [fld, ← BitVec.getLsbD, BitVec.getLsbD_extractLsb']
      simp
    rw [he, Nat.testBit_eq_decide_div_mod_eq, decide_eq_decide]
    omega
  have hlt : fld x (8 * i) 8 < 2 ^ 8 := fld_lt x _ _
  have hones7 : (ones <<< 7).getLsbD (8 * i + 7) = true := by
    rw [BitVec.getLsbD_shiftLeft, show 8 * i + 7 - 7 = 8 * i by omega, hones (8 * i) (by omega)]
    simp [show 8 * i + 7 < w by omega, show 8 * i < w by omega]
  rw [zeroBytes, BitVec.getLsbD_and, BitVec.getLsbD_and, BitVec.getLsbD_not, hones7, hbit, hbit,
    fld_sub_ones hones hw hw h, Bool.eq_iff_iff]
  simp only [Bool.and_eq_true, Bool.not_eq_true', decide_eq_true_eq, decide_eq_false_iff_not]
  rw [and_iff_left trivial]
  constructor
  · rintro ⟨hhigh, -, hlow⟩
    omega
  · intro h0
    rw [h0]
    exact ⟨by decide, by omega, by decide⟩

/-- 検査の語が零でないのは、どれかのバイトが零であるときに限る。 -/
theorem zeroBytes_ne_zero_iff {ones : BitVec w} (hones : Fills 1 w ones) (hw : w = 8 * L) :
    zeroBytes ones x ≠ 0 ↔ ∃ i, i < L ∧ fld x (8 * i) 8 = 0 := by
  constructor
  · intro hne
    by_contra hall
    push Not at hall
    refine hne (BitVec.eq_of_getLsbD_eq (fun j hj => ?_))
    rw [BitVec.ofNat_eq_ofNat, BitVec.getLsbD_zero]
    by_cases h7 : j % 8 = 7
    · obtain ⟨i, rfl⟩ : ∃ i, j = 8 * i + 7 := ⟨j / 8, by omega⟩
      rw [getLsbD_zeroBytes hones (by omega) (fun l hl => hall l (by omega))]
      simpa using hall i (by omega)
    · -- 1 の並びを 7 だけずらした語は、各バイトの最上位のほかに立たない。
      have hout : (ones <<< 7).getLsbD j = false := by
        rw [BitVec.getLsbD_shiftLeft]
        by_cases hlt : j < 7
        · simp [hlt]
        · have hone : (1 : UInt8).toNat.testBit ((j - 7) % 8) = false :=
            Nat.testBit_lt_two_pow (Nat.lt_of_lt_of_le (by decide : (1 : UInt8).toNat < 2 ^ 1)
              (two_pow_le (by omega : 1 ≤ (j - 7) % 8)))
          rw [hones (j - 7) (by omega), hone]
          simp
      rw [zeroBytes, BitVec.getLsbD_and, hout, Bool.and_false]
  · rintro hex hz
    classical
    have hspec := Nat.find_spec hex
    have hmin : ∀ l, l < Nat.find hex → fld x (8 * l) 8 ≠ 0 := fun l hl h0 => Nat.find_min hex hl ⟨by omega, h0⟩
    have hbit := getLsbD_zeroBytes hones (by omega) hmin
    rw [hz, BitVec.ofNat_eq_ofNat, BitVec.getLsbD_zero, decide_eq_true hspec.2] at hbit
    cases hbit

end Books.Lib
