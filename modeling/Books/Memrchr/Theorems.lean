import Books.Memrchr.Code

/-!
# 語を単位に読む `memrchr` の正しさ
-/

namespace Books.Memrchr

open Books.Lib Books.Xquo

variable {M : Machine} {line : List UInt8} {n m : Nat} {c : UInt8}

/-! ## すべてのバイトが同じ語 -/

theorem spread_fills {w i fuel : Nat} {v : BitVec w} (h : Fills c i v) (hi : i % 8 = 0) (hpos : 0 < i)
    (hfuel : w ≤ i * 2 ^ fuel) : Fills c w (spread fuel i v) := by
  induction fuel generalizing i v with
  | zero =>
      intro j hj
      rw [spread, h j hj]
      simp [hj, show j < i by omega]
  | succ fuel ih =>
      rw [spread]
      split
      · rw [Nat.mul_comm i 2]
        refine ih (h.double hi) (by omega) (by omega) ?_
        rwa [Nat.mul_comm 2 i, Nat.mul_assoc, ← Nat.pow_succ']
      · intro j hj
        rw [h j hj]
        simp [hj, show j < i by omega]

theorem widen_fills {L : Nat} {v : BitVec (8 * L)} (h : Fills c 32 v) : Fills c (8 * L) (widen L v) := by
  rw [widen, BitVec.toNat_allOnes]
  split
  · rw [← BitVec.shiftLeft_add]
    have h64 : Fills c 64 (v ||| v <<< 32) := h.double (by decide)
    simp only
    split
    · refine spread_fills h64 (by decide) (by decide) ?_
      have hlt : L < 2 ^ L := Nat.lt_two_pow_self
      omega
    · intro j hj
      rw [show 31 + 1 = 32 from rfl, h64 j hj]
      simp [hj, show j < 64 by omega]
  · rename_i hsmall
    have hL : 8 * L ≤ 32 := by
      by_contra hL
      have hpow : (2 : Nat) ^ 33 ≤ 2 ^ (8 * L) := two_pow_le (by omega)
      exact hsmall (Nat.lt_of_lt_of_le (by decide : 0xffffffff < 2 ^ 33 - 1) (Nat.sub_le_sub_right hpow 1))
    intro j hj
    rw [h j hj]
    simp [hj, show j < 32 by omega]

theorem repeatedOne_fills (L : Nat) : Fills 1 (8 * L) (repeatedOne L) := by
  refine widen_fills (fun j hj => ?_)
  rw [BitVec.getLsbD_ofNat]
  by_cases h32 : j < 32
  · have hall : ∀ j < 32, (0x01010101 : Nat).testBit j = (1 : UInt8).toNat.testBit (j % 8) := by decide
    simp [hj, h32, hall j h32]
  · have hlt : (0x01010101 : Nat) < 2 ^ j := Nat.lt_of_lt_of_le (by decide : (0x01010101 : Nat) < 2 ^ 32) (two_pow_le (by omega))
    simp [hj, h32, Nat.testBit_lt_two_pow hlt]

theorem repeatedC_fills (L : Nat) (c : UInt8) : Fills c (8 * L) (repeatedC L c) := by
  have h8 : Fills c 8 (c.toBitVec.setWidth (8 * L)) := by
    intro j hj
    rw [BitVec.getLsbD_setWidth]
    by_cases hj8 : j < 8
    · simp [hj, hj8, Nat.mod_eq_of_lt hj8, BitVec.getLsbD]
    · simp [hj, hj8, BitVec.getLsbD_of_ge c.toBitVec j (by omega)]
  exact widen_fills ((h8.double (by decide)).double (by decide))

/-! ## 語の検査 -/

/-- 検査が止まるのは、語が `c` を含むときに限る。 -/
theorem test_iff {B : Block} {L i : Nat} :
    zeroBytes (repeatedOne L) (B.order.word (8 * L) (B.bytes L i) ^^^ repeatedC L c) ≠ 0 ↔
      ∃ k, k < L ∧ B.mem (i + k) = c := by
  have hany := exists_fld_word B.order (w := 8 * L) (l := B.bytes L i) (by rw [Block.length_bytes]) (fun v => v = c.toNat)
  rw [Block.length_bytes] at hany
  rw [zeroBytes_ne_zero_iff (repeatedOne_fills L) rfl]
  calc (∃ k, k < L ∧ fld (B.order.word (8 * L) (B.bytes L i) ^^^ repeatedC L c) (8 * k) 8 = 0)
      ↔ ∃ k, k < L ∧ fld (B.order.word (8 * L) (B.bytes L i)) (8 * k) 8 = c.toNat := by
        refine exists_congr (fun k => and_congr_right (fun hk => ?_))
        rw [fld_byte_xor, (repeatedC_fills L c).fld (by omega) (by omega), Nat.xor_eq_zero_iff]
    _ ↔ ∃ b ∈ B.bytes L i, b.toNat = c.toNat := hany
    _ ↔ ∃ k, k < L ∧ B.mem (i + k) = c := by
        constructor
        · rintro ⟨b, hb, heq⟩
          exact Block.mem_bytes.mp (UInt8.toNat_inj.mp heq ▸ hb)
        · rintro hk
          exact ⟨c, Block.mem_bytes.mpr hk, rfl⟩

/-! ## 三つの繰り返し -/

theorem byte_pred (h : m < n) : (block M line n).byte ((m + 1 : Nat) - 1 : Int) = .ok (charAt line m) := by
  rw [show ((m + 1 : Nat) : Int) - 1 = (m : Nat) by omega]
  exact Block.byte_eq h

/-- 探していない初めの部分 `m` バイトの答えが、全体の答えである。 -/
def Left (line : List UInt8) (c : UInt8) (n m : Nat) : Prop := m ≤ n ∧ Xquo.memrchr line c n = Xquo.memrchr line c m

theorem Left.pred (h : Left line c n (m + 1)) (hc : charAt line m ≠ c) : Left line c n m :=
  ⟨Nat.le_of_succ_le h.1, by rw [h.2, Xquo.memrchr, if_neg hc]⟩

theorem Left.sub {k : Nat} (h : Left line c n (m + k)) (hc : ∀ i, i < k → charAt line (m + i) ≠ c) : Left line c n m := by
  induction k with
  | zero => exact h
  | succ k ih => exact ih (h.pred (hc k (Nat.lt_succ_self k))) (fun i hi => hc i (Nat.lt_succ_of_lt hi))

theorem alignLoop_eq (h : Left line c n m) :
    (∃ i, alignLoop M line n c m m = .ok (.found (i : Nat)) ∧ Xquo.memrchr line c n = some i) ∨
    ∃ k, alignLoop M line n c m m = .ok (.rest (k : Nat) k) ∧ Left line c n k ∧ (k = 0 ∨ (M.base + (k : Int)) % M.L = 0) := by
  induction m with
  | zero => exact .inr ⟨0, rfl, h, .inl rfl⟩
  | succ m ih =>
      rw [alignLoop]
      by_cases hal : (M.base + ((m + 1 : Nat) : Int)) % M.L = 0
      · rw [if_neg (not_not.mpr hal)]
        exact .inr ⟨m + 1, rfl, h, .inr hal⟩
      · rw [if_pos hal, byte_pred h.1, trap_bind]
        by_cases hc : charAt line m = c
        · rw [if_pos hc]
          refine .inl ⟨m, by congr 2; omega, ?_⟩
          rw [h.2, Xquo.memrchr, if_pos hc]
        · rw [if_neg hc, show ((m + 1 : Nat) : Int) - 1 = (m : Nat) by omega]
          exact ih (h.pred hc)

theorem wordLoop_eq {fuel : Nat} (h : Left line c n m) (hal : m = 0 ∨ (M.base + (m : Int)) % M.L = 0) (hfuel : m < fuel) :
    ∃ k, wordLoop M line n c fuel m m = .ok ((k : Nat), k) ∧ Left line c n k := by
  induction fuel generalizing m with
  | zero => exact absurd hfuel (Nat.not_lt_zero _)
  | succ fuel ih =>
      have hpos := M.pos
      rw [wordLoop]
      by_cases hle : M.L ≤ m
      · obtain ⟨d, rfl⟩ : ∃ d, m = d + M.L := ⟨m - M.L, by omega⟩
        have hd : ((d + M.L : Nat) : Int) - M.L = (d : Nat) := by omega
        have hald : (M.base + (d : Int)) % M.L = 0 := by
          rcases hal with h0 | h0
          · omega
          · rw [Int.natCast_add, ← Int.add_assoc, Int.add_emod_right] at h0
            exact h0
        rw [if_pos hle, hd, Block.word_eq h.1 (fun _ => hald), trap_bind]
        by_cases htest : ∃ k, k < M.L ∧ charAt line (d + k) = c
        · rw [if_pos (test_iff.mpr htest)]
          exact ⟨d + M.L, rfl, h⟩
        · rw [if_neg (mt test_iff.mp htest), Nat.add_sub_cancel]
          refine ih (h.sub (fun i hi hc => htest ⟨i, hi, hc⟩)) (.inr hald) (by omega)
      · rw [if_neg hle]
        exact ⟨m, rfl, h⟩

theorem byteLoop_eq (h : Left line c n m) :
    byteLoop M line n c m m = .ok ((Xquo.memrchr line c n).map fun i => ((i : Nat) : Int)) := by
  rw [h.2]
  induction m with
  | zero => rfl
  | succ m ih =>
      rw [byteLoop, byte_pred h.1, trap_bind, Xquo.memrchr]
      by_cases hc : charAt line m = c
      · rw [if_pos hc, if_pos hc, show ((m + 1 : Nat) : Int) - 1 = (m : Nat) by omega]
        rfl
      · rw [if_neg hc, if_neg hc, show ((m + 1 : Nat) : Int) - 1 = (m : Nat) by omega]
        exact ih (h.pred hc)

/-- 語の大きさ、バイトの順序、番地によらず、領域の中の揃った語だけを読んで、一バイトずつの探索と同じ答えを返す。 -/
theorem memrchr_bytewise (M : Machine) (line : List UInt8) (n : Nat) (c : UInt8) :
    memrchr M line n c = .ok ((Xquo.memrchr line c n).map fun i => ((i : Nat) : Int)) := by
  have hstart : Left line c n n := ⟨Nat.le_refl n, rfl⟩
  rw [memrchr]
  rcases alignLoop_eq (M := M) hstart with ⟨i, hrun, hfound⟩ | ⟨k, hrun, hk, hal⟩
  · rw [hrun, hfound]
    rfl
  · obtain ⟨j, hword, hj⟩ := wordLoop_eq hk hal (Nat.lt_succ_self k)
    rw [hrun, trap_bind]
    simp only
    rw [hword, trap_bind]
    exact byteLoop_eq hj

end Books.Memrchr
