import Books.Hash.Spec

/-!
# ハッシュの補題
-/

namespace Books.Hash

open Books.Lib

variable {M : Machine} {bs : List UInt8} {p : Nat}

/-! ## 機械の読み方 -/

theorem detected_eq (e : Endian) : detected e = e := by cases e <;> decide

theorem getLsbD_swap32 (x : U32) {i : Nat} (hi : i < 32) : (swap32 x).getLsbD i = x.getLsbD (8 * (3 - i / 8) + i % 8) := by
  have hmask : ∀ i < 32, (0xff000000#32).getLsbD i = decide (24 ≤ i) ∧
      (0x00ff0000#32).getLsbD i = (decide (16 ≤ i) && decide (i < 24)) ∧
      (0x0000ff00#32).getLsbD i = (decide (8 ≤ i) && decide (i < 16)) ∧ (0x000000ff#32).getLsbD i = decide (i < 8) := by
    decide
  obtain ⟨h₁, h₂, h₃, h₄⟩ := hmask i hi
  rw [swap32]
  simp only [BitVec.getLsbD_or, BitVec.getLsbD_and, BitVec.getLsbD_shiftLeft, BitVec.getLsbD_ushiftRight, h₁, h₂, h₃, h₄]
  rcases (by omega : i < 8 ∨ (8 ≤ i ∧ i < 16) ∨ (16 ≤ i ∧ i < 24) ∨ 24 ≤ i) with h | h | h | h
  · simp [show ¬ 24 ≤ i by omega, show ¬ 16 ≤ i by omega, show ¬ 8 ≤ i by omega, h,
      show 24 + i = 8 * (3 - i / 8) + i % 8 by omega]
  · simp [show ¬ 24 ≤ i by omega, show ¬ 16 ≤ i by omega, h, show ¬ i < 8 by omega,
      show 8 + i = 8 * (3 - i / 8) + i % 8 by omega]
  · simp [show ¬ 24 ≤ i by omega, h, show ¬ i < 8 by omega, show ¬ i < 16 by omega,
      show i - 8 = 8 * (3 - i / 8) + i % 8 by omega, hi]
  · simp [h, show ¬ i < 8 by omega, show ¬ i < 16 by omega, show ¬ i < 24 by omega,
      show i - 24 = 8 * (3 - i / 8) + i % 8 by omega, hi]

theorem swap32_rev (b₀ b₁ b₂ b₃ : UInt8) : swap32 (le32 [b₃, b₂, b₁, b₀]) = le32 [b₀, b₁, b₂, b₃] := by
  refine BitVec.eq_of_getLsbD_eq (fun i hi => ?_)
  rw [getLsbD_swap32 _ hi, le32, le32, getLsbD_leNat _ (by omega), getLsbD_leNat _ hi,
    show (8 * (3 - i / 8) + i % 8) / 8 = 3 - i / 8 by omega, show (8 * (3 - i / 8) + i % 8) % 8 = i % 8 by omega]
  rcases (by omega : i / 8 = 0 ∨ i / 8 = 1 ∨ i / 8 = 2 ∨ i / 8 = 3) with h | h | h | h <;> rw [h] <;> rfl

theorem drop_four (h : p + 4 ≤ bs.length) :
    ∃ b₀ b₁ b₂ b₃, bs.drop p = b₀ :: b₁ :: b₂ :: b₃ :: bs.drop (p + 4) ∧ (block M bs).bytes 4 p = [b₀, b₁, b₂, b₃] := by
  refine ⟨bs.getD p 0, bs.getD (p + 1) 0, bs.getD (p + 2) 0, bs.getD (p + 3) 0, ?_, rfl⟩
  rw [List.drop_eq_getElem_cons (by omega), List.drop_eq_getElem_cons (i := p + 1) (by omega),
    List.drop_eq_getElem_cons (i := p + 1 + 1) (by omega), List.drop_eq_getElem_cons (i := p + 1 + 1 + 1) (by omega),
    List.getD_eq_getElem _ _ (by omega), List.getD_eq_getElem _ _ (by omega), List.getD_eq_getElem _ _ (by omega),
    List.getD_eq_getElem _ _ (by omega)]

/-- 機械の順序によらず、入力の順に下から並べた語を読む。 -/
theorem readLE32_eq (M : Machine) {align : Bool} (h : p + 4 ≤ bs.length) (hal : align = true → M.base % 4 = 0) (hp : p % 4 = 0) :
    ∃ x, readLE32 (block M bs) M.order align p = .ok x ∧
      words (bs.drop p) = (x :: (words (bs.drop (p + 4))).1, (words (bs.drop (p + 4))).2) := by
  obtain ⟨b₀, b₁, b₂, b₃, hdrop, hbytes⟩ := drop_four (M := M) h
  refine ⟨le32 [b₀, b₁, b₂, b₃], ?_, by rw [hdrop, words]⟩
  have haligned : align = true → ((M.base : Int) + (p : Nat)) % (4 : Nat) = 0 := by
    intro ht
    have hb := hal ht
    omega
  rw [readLE32, Block.word_eq h haligned, trap_bind, hbytes]
  change Except.ok (if M.order = .little then M.order.word 32 [b₀, b₁, b₂, b₃] else swap32 (M.order.word 32 [b₀, b₁, b₂, b₃])) = _
  cases M.order with
  | little => rfl
  | big => exact congrArg Except.ok (swap32_rev b₀ b₁ b₂ b₃)

/-! ## 三つの繰り返し -/

theorem words_short (h : bs.length < 4) : words bs = ([], bs) := by
  match bs, h with
  | [], _ => rfl
  | [_], _ => rfl
  | [_, _], _ => rfl
  | [_, _, _], _ => rfl
  | _ :: _ :: _ :: _ :: _, h => simp only [List.length_cons] at h; omega

theorem lanes_short {v : Lanes} {xs : List U32} (h : xs.length < 4) : lanes v xs = (v, xs) := by
  match xs, h with
  | [], _ => rfl
  | [_], _ => rfl
  | [_, _], _ => rfl
  | [_, _, _], _ => rfl
  | _ :: _ :: _ :: _ :: _, h => simp only [List.length_cons] at h; omega

theorem words_length (bs : List UInt8) : 4 * (words bs).1.length + (words bs).2.length = bs.length ∧ (words bs).2.length < 4 := by
  induction bs using words.induct with
  | case1 b₀ b₁ b₂ b₃ bs ih => simp only [words, List.length_cons]; omega
  | case2 bs hshort =>
      have h4 : bs.length < 4 := by
        rcases bs with _ | ⟨b₀, _ | ⟨b₁, _ | ⟨b₂, _ | ⟨b₃, bs⟩⟩⟩⟩
        · decide
        · exact by simp
        · exact by simp
        · exact by simp
        · exact absurd rfl (hshort b₀ b₁ b₂ b₃ bs)
      rw [words_short h4]
      exact ⟨by simp, h4⟩

section Loops
variable {align : Bool} (hal : align = true → M.base % 4 = 0)
include hal

/-- 四つの値の繰り返しは、残りが 16 バイトより短くなって終わる。 -/
theorem lanesLoop_eq {fuel : Nat} (v : Lanes) (hp : p % 4 = 0) (hlen : p + 16 ≤ bs.length) (hfuel : bs.length < p + fuel) :
    ∃ q : Nat, lanesLoop (block M bs) M.order align fuel p v = .ok ((q : Int), (lanes v (words (bs.drop p)).1).1) ∧
      q % 4 = 0 ∧ q ≤ bs.length ∧ words (bs.drop q) = ((lanes v (words (bs.drop p)).1).2, (words (bs.drop p)).2) := by
  induction fuel generalizing p v with
  | zero => omega
  | succ fuel ih =>
      obtain ⟨x₁, hread₁, hw₁⟩ := readLE32_eq M (show p + 4 ≤ bs.length by omega) hal hp
      obtain ⟨x₂, hread₂, hw₂⟩ := readLE32_eq M (show p + 4 + 4 ≤ bs.length by omega) hal (by omega)
      obtain ⟨x₃, hread₃, hw₃⟩ := readLE32_eq M (show p + 4 + 4 + 4 ≤ bs.length by omega) hal (by omega)
      obtain ⟨x₄, hread₄, hw₄⟩ := readLE32_eq M (show p + 4 + 4 + 4 + 4 ≤ bs.length by omega) hal (by omega)
      have hwords : words (bs.drop p) =
          (x₁ :: x₂ :: x₃ :: x₄ :: (words (bs.drop (p + 16))).1, (words (bs.drop (p + 16))).2) := by
        rw [hw₁, hw₂, hw₃, hw₄]
      have hsize : (block M bs).size = bs.length := rfl
      rw [lanesLoop, hread₁, trap_bind, show ((p : Int) + 4) = ((p + 4 : Nat) : Int) by omega, hread₂, trap_bind,
        show ((p : Int) + 8) = ((p + 4 + 4 : Nat) : Int) by omega, hread₃, trap_bind,
        show ((p : Int) + 12) = ((p + 4 + 4 + 4 : Nat) : Int) by omega, hread₄, trap_bind, hwords, lanes,
        show ((p : Int) + 16) = ((p + 16 : Nat) : Int) by omega, hsize]
      by_cases hmore : p + 16 + 16 ≤ bs.length
      · rw [if_pos (by omega)]
        exact ih _ (by omega) hmore (by omega)
      · have hfew : (words (bs.drop (p + 16))).1.length < 4 := by
          have hlength := (words_length (bs.drop (p + 16))).1
          rw [List.length_drop] at hlength
          omega
        rw [if_neg (by omega), lanes_short hfew]
        exact ⟨p + 16, rfl, by omega, hlen, rfl⟩

theorem wordsLoop_eq {fuel : Nat} (h32 : U32) (hp : p % 4 = 0) (hlen : p ≤ bs.length) (hfuel : bs.length < p + fuel) :
    ∃ q : Nat, wordsLoop (block M bs) M.order align fuel p h32 = .ok ((q : Int), (words (bs.drop p)).1.foldl wordStep h32) ∧
      q ≤ bs.length ∧ bs.drop q = (words (bs.drop p)).2 := by
  induction fuel generalizing p h32 with
  | zero => omega
  | succ fuel ih =>
      have hsize : (block M bs).size = bs.length := rfl
      rw [wordsLoop, hsize]
      by_cases hmore : p + 4 ≤ bs.length
      · obtain ⟨x, hread, hw⟩ := readLE32_eq M hmore hal hp
        rw [if_pos (by omega), hread, trap_bind, hw, show ((p : Int) + 4) = ((p + 4 : Nat) : Int) by omega]
        exact ih _ (by omega) hmore (by omega)
      · rw [if_neg (by omega), words_short (by rw [List.length_drop]; omega)]
        exact ⟨p, rfl, hlen, rfl⟩

end Loops

theorem bytesLoop_eq {fuel : Nat} {h32 : U32} (hlen : p ≤ bs.length) (hfuel : bs.length < p + fuel) :
    bytesLoop (block M bs) fuel p h32 = .ok ((bs.drop p).foldl byteStep h32) := by
  induction fuel generalizing p h32 with
  | zero => omega
  | succ fuel ih =>
      have hsize : (block M bs).size = bs.length := rfl
      rw [bytesLoop, hsize]
      by_cases hmore : p < bs.length
      · have hbyte : (block M bs).byte p = .ok bs[p] := by
          exact (Block.byte_eq (B := block M bs) hmore).trans (congrArg Except.ok (List.getD_eq_getElem bs 0 hmore))
        rw [if_pos (by omega), hbyte, trap_bind, List.drop_eq_getElem_cons hmore, List.foldl_cons,
          show ((p : Int) + 1) = ((p + 1 : Nat) : Int) by omega]
        exact ih hmore (by omega)
      · rw [if_neg (by omega), List.drop_eq_nil_of_le (by omega)]
        rfl

theorem endianAlign_eq (M : Machine) (bs : List UInt8) (align : Bool) (hal : align = true → M.base % 4 = 0) :
    endianAlign (block M bs) M.order align = .ok (xxh32 bs) := by
  have hrest : ∀ (q : Nat) (h : U32), q % 4 = 0 → q ≤ bs.length →
      (do
        let r ← wordsLoop (block M bs) M.order align (bs.length + 1) q (h + BitVec.ofNat 32 bs.length)
        let h32 ← bytesLoop (block M bs) (bs.length + 1) r.1 r.2
        return avalanche h32) = (.ok (avalanche ((words (bs.drop q)).2.foldl byteStep
          ((words (bs.drop q)).1.foldl wordStep (h + BitVec.ofNat 32 bs.length)))) : Except Trap U32) := by
    intro q h hq hlen
    obtain ⟨q', hrun, hq', hdrop⟩ := wordsLoop_eq hal (h + BitVec.ofNat 32 bs.length) hq hlen
      (show bs.length < q + (bs.length + 1) by omega)
    rw [hrun, trap_bind]
    simp only
    rw [bytesLoop_eq hq' (by omega), trap_bind, hdrop]
    rfl
  have hsize : (block M bs).size = bs.length := rfl
  rw [endianAlign, hsize, xxh32, digest]
  by_cases h16 : 16 ≤ bs.length
  · obtain ⟨q, hrun, hq, hlen, hwords⟩ := lanesLoop_eq hal Lanes.init (Nat.zero_mod 4)
      (show 0 + 16 ≤ bs.length by omega) (show bs.length < 0 + (bs.length + 1) by omega)
    rw [List.drop_zero] at hrun hwords
    have hcast : ((0 : Nat) : Int) = 0 := rfl
    rw [if_pos h16, if_pos h16, ← hcast, hrun, trap_bind]
    simp only [pure_bind]
    rw [hrest q _ hq hlen, hwords]
  · have h0 := hrest 0 prime5 rfl (Nat.zero_le _)
    rw [List.drop_zero] at h0
    rw [if_neg h16, if_neg h16]
    exact h0

/-- 番地が揃っていると調べた後だけ、揃った番地を求める。 -/
theorem hash_dispatch (M : Machine) (bs : List UInt8) :
    ∃ align, hash M bs = endianAlign (block M bs) M.order align ∧ (align = true → M.base % 4 = 0) := by
  have hbase : M.base &&& 3 = 0 → M.base % 4 = 0 := fun h => (Nat.and_two_pow_sub_one_eq_mod M.base 2).symm.trans h
  rw [hash, detected_eq]
  split
  · rename_i hal
    refine ⟨true, ?_, fun _ => hbase hal.2⟩
    cases M.order <;> rfl
  · refine ⟨false, ?_, fun h => by cases h⟩
    cases M.order <;> rfl

/-! ## 一つのまとまりだけが違う入力 -/

section Agree
variable {as : List UInt8} {k : Nat}

theorem le32_inj {a₀ a₁ a₂ a₃ b₀ b₁ b₂ b₃ : UInt8} (h : le32 [a₀, a₁, a₂, a₃] = le32 [b₀, b₁, b₂, b₃]) :
    [a₀, a₁, a₂, a₃] = [b₀, b₁, b₂, b₃] := by
  have hnat := congrArg BitVec.toNat h
  have hlt : ∀ c₀ c₁ c₂ c₃ : UInt8, leNat [c₀, c₁, c₂, c₃] < 2 ^ 32 := by
    intro c₀ c₁ c₂ c₃
    have hbytes := leNat_lt [c₀, c₁, c₂, c₃]
    rwa [← two_pow_bytes] at hbytes
  rw [le32, le32, toNat_lit (hlt ..), toNat_lit (hlt ..)] at hnat
  exact leNat_inj rfl hnat

theorem exists_four {bs : List UInt8} (h : 4 ≤ bs.length) : ∃ b₀ b₁ b₂ b₃ cs, bs = b₀ :: b₁ :: b₂ :: b₃ :: cs := by
  match bs, h with
  | b₀ :: b₁ :: b₂ :: b₃ :: cs, _ => exact ⟨b₀, b₁, b₂, b₃, cs, rfl⟩

theorem unit_add_four (n i : Nat) : unit (n + 4) (i + 4) = if i < 4 * (n / 4) then i / 4 + 1 else i + 4 := by
  rw [unit, show 4 * ((n + 4) / 4) = 4 * (n / 4) + 4 by omega]
  split <;> split <;> omega

theorem unit_head {n i : Nat} (hi : i < 4) : unit (n + 4) i = 0 := by
  rw [unit, if_pos (by omega)]
  omega

variable {a₀ a₁ a₂ a₃ b₀ b₁ b₂ b₃ : UInt8}

/-- 初めの語が違わなければ、初めの四バイトは等しい。 -/
theorem AgreeOff.head (h : AgreeOff k (a₀ :: a₁ :: a₂ :: a₃ :: as) (b₀ :: b₁ :: b₂ :: b₃ :: bs)) (hk : k ≠ 0) :
    a₀ = b₀ ∧ a₁ = b₁ ∧ a₂ = b₂ ∧ a₃ = b₃ := by
  have hat : ∀ i, i < 4 → (a₀ :: a₁ :: a₂ :: a₃ :: as)[i]? = (b₀ :: b₁ :: b₂ :: b₃ :: bs)[i]? :=
    fun i hi => h.2 i (by rw [List.length_cons, List.length_cons, List.length_cons, List.length_cons, unit_head hi]; exact hk.symm)
  exact ⟨by simpa using hat 0, by simpa using hat 1, by simpa using hat 2, by simpa using hat 3⟩

theorem AgreeOff.tail (h : AgreeOff k (a₀ :: a₁ :: a₂ :: a₃ :: as) (b₀ :: b₁ :: b₂ :: b₃ :: bs)) {j : Nat}
    (hj : ∀ i, unit as.length i ≠ j → unit (as.length + 4) (i + 4) ≠ k) : AgreeOff j as bs := by
  refine ⟨by simpa using h.1, fun i hi => ?_⟩
  have hat := h.2 (i + 4) (hj i hi)
  simpa using hat

/-- 一つの語だけが違う入力。 -/
theorem words_at (h : AgreeOff k as bs) (hk : k < as.length / 4) : ∃ xs x y zs,
    (words as).1 = xs ++ x :: zs ∧ (words bs).1 = xs ++ y :: zs ∧ (words as).2 = (words bs).2 ∧ (x = y → as = bs) := by
  induction k generalizing as bs with
  | zero =>
      obtain ⟨a₀, a₁, a₂, a₃, as, rfl⟩ := exists_four (show 4 ≤ as.length by omega)
      obtain ⟨b₀, b₁, b₂, b₃, bs, rfl⟩ := exists_four (show 4 ≤ bs.length by have hlen := h.1; omega)
      have hrest : as = bs := List.ext_getElem? (fun i => by
        have hat := h.2 (i + 4) (by
          rw [List.length_cons, List.length_cons, List.length_cons, List.length_cons, unit_add_four]
          split <;> omega)
        simpa using hat)
      subst hrest
      refine ⟨[], _, _, _, rfl, rfl, rfl, fun hx => ?_⟩
      have hfour := le32_inj hx
      simp only [List.cons.injEq, and_true] at hfour
      obtain ⟨rfl, rfl, rfl, rfl⟩ := hfour
      rfl
  | succ k ih =>
      obtain ⟨a₀, a₁, a₂, a₃, as, rfl⟩ := exists_four (show 4 ≤ as.length by omega)
      obtain ⟨b₀, b₁, b₂, b₃, bs, rfl⟩ := exists_four (show 4 ≤ bs.length by have hlen := h.1; omega)
      obtain ⟨rfl, rfl, rfl, rfl⟩ := h.head (Nat.succ_ne_zero k)
      simp only [List.length_cons] at hk
      have htail : AgreeOff k as bs := h.tail (fun i hi => by
        rw [unit] at hi
        rw [unit_add_four]
        split at hi <;> split <;> omega)
      obtain ⟨xs, x, y, zs, hx, hy, hrest, hsame⟩ := ih htail (by omega)
      refine ⟨le32 [a₀, a₁, a₂, a₃] :: xs, x, y, zs, ?_, ?_, hrest, fun he => by rw [hsame he]⟩
      · rw [words, hx, List.cons_append]
      · rw [words, hy, List.cons_append]

/-- 残りのバイトの一つだけが違う入力。 -/
theorem words_tail_at (h : AgreeOff k as bs) (hk : as.length / 4 ≤ k) :
    as = bs ∨ ∃ ts a b us, (words as).2 = ts ++ a :: us ∧ (words bs).2 = ts ++ b :: us ∧ (words as).1 = (words bs).1 ∧
      (a = b → as = bs) := by
  induction as using words.induct generalizing bs k with
  | case1 a₀ a₁ a₂ a₃ as ih =>
      obtain ⟨b₀, b₁, b₂, b₃, bs, rfl⟩ := exists_four (show 4 ≤ bs.length by rw [← h.1]; simp)
      simp only [List.length_cons] at hk
      obtain ⟨rfl, rfl, rfl, rfl⟩ := h.head (by omega)
      -- 違うのは残りのバイトなので、四バイトを除いても、違う位置は `k - 4` である。
      have htail : AgreeOff (k - 4) as bs ∧ as.length / 4 ≤ k - 4 ∨ as = bs := by
        by_cases h4 : 4 * (as.length / 4) + 4 ≤ k
        · refine .inl ⟨h.tail (fun i hi => ?_), by omega⟩
          rw [unit] at hi
          rw [unit_add_four]
          split at hi <;> split <;> omega
        · refine .inr (List.ext_getElem? (fun i => ?_))
          have hat := h.2 (i + 4) (by
            rw [List.length_cons, List.length_cons, List.length_cons, List.length_cons, unit_add_four]
            split <;> omega)
          simpa using hat
      rcases htail with ⟨htail, hle⟩ | rfl
      · rcases ih htail hle with rfl | ⟨ts, a, b, us, ha, hb, hw, hsame⟩
        · exact .inl rfl
        · exact .inr ⟨ts, a, b, us, ha, hb, by rw [words, words, hw], fun he => by rw [hsame he]⟩
      · exact .inl rfl
  | case2 as hshort =>
      have h4 : as.length < 4 := by
        by_contra hlen
        obtain ⟨a₀, a₁, a₂, a₃, as, rfl⟩ := exists_four (Nat.le_of_not_lt hlen)
        exact hshort a₀ a₁ a₂ a₃ as rfl
      have hlen := h.1
      have hoff : ∀ i, i ≠ k → as[i]? = bs[i]? := fun i hi => h.2 i (by rw [unit, if_neg (by omega)]; exact hi)
      by_cases hlt : k < as.length
      · have hsplit : bs = as.take k ++ bs[k] :: as.drop (k + 1) := by
          refine List.ext_getElem? (fun i => ?_)
          rcases Nat.lt_trichotomy i k with hi | rfl | hi
          · rw [List.getElem?_append_left (by rw [List.length_take]; omega), List.getElem?_take_of_lt hi, hoff i (by omega)]
          · rw [List.getElem?_append_right (by rw [List.length_take]; omega), List.length_take,
              Nat.min_eq_left (by omega), Nat.sub_self, List.getElem?_cons_zero, List.getElem?_eq_getElem]
          · rw [List.getElem?_append_right (by rw [List.length_take]; omega), List.length_take, Nat.min_eq_left (by omega),
              show i - k = i - (k + 1) + 1 by omega, List.getElem?_cons_succ, List.getElem?_drop,
              show k + 1 + (i - (k + 1)) = i by omega, hoff i (by omega)]
        have hsplit' : as = as.take k ++ as[k] :: as.drop (k + 1) := by
          rw [← List.drop_eq_getElem_cons hlt, List.take_append_drop]
        refine .inr ⟨as.take k, as[k], bs[k], as.drop (k + 1), ?_, ?_, ?_, fun he => ?_⟩
        · rw [words_short h4]
          exact hsplit'
        · rw [words_short (by omega : bs.length < 4)]
          exact hsplit
        · rw [words_short h4, words_short (by omega : bs.length < 4)]
        · rw [hsplit, ← he]
          exact hsplit'
      · refine .inl (List.ext_getElem? (fun i => ?_))
        by_cases hi : i = k
        · rw [List.getElem?_eq_none (by omega), List.getElem?_eq_none (by omega)]
        · exact hoff i hi

end Agree

end Books.Hash
