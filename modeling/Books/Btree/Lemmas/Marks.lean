import Books.Btree.Lemmas.Iter

/-!
# `used` のビット

値が nil でない場所のビットがすべて立っていれば、反復は木の中身をすべて返す。ビットが保たれる追加の条件を示す。
-/

set_option linter.unusedSectionVars false

namespace Books.Btree

open Books.Lib

variable {K Q : Type} [LinearOrder K] [LinearOrder Q] [Zero Q]
variable {descp : Bool} {h h' : Heap K Q} {lo hi : Option K} {d cap fuel : Nat} {a x : Addr} {k : K}
  {v : BtreeVal Q} {c : Cell} {t : Node K Q} {r : Added K Q}

/-! ## ビットの移動 -/

theorem getLsbD_low {n m : Nat} (hn : n < 64) : ((1#64 <<< n) - 1#64).getLsbD m = decide (m < n) := by
  have hp : 2 ^ n < 2 ^ 64 := Nat.pow_lt_pow_right (by decide) hn
  have hs : (1#64 <<< n).toNat = 2 ^ n := by
    rw [BitVec.toNat_shiftLeft, Nat.shiftLeft_eq]
    simpa using Nat.mod_eq_of_lt hp
  have he : ((1#64 <<< n) - 1#64).toNat = 2 ^ n - 1 := by
    rw [BitVec.toNat_sub_of_le]
    · rw [hs]; rfl
    · rw [BitVec.le_def, hs]; exact Nat.one_le_two_pow
  rw [BitVec.getLsbD, he, Nat.testBit_two_pow_sub_one]

theorem getLsbD_window (u : BitVec 64) {lo n m : Nat} (hn : n < 64) (hm : m < 64) :
    (((u >>> lo) &&& ((1#64 <<< n) - 1#64)) <<< lo).getLsbD m = (u.getLsbD m && decide (lo ≤ m ∧ m < lo + n)) := by
  rw [BitVec.getLsbD_shiftLeft, BitVec.getLsbD_and, BitVec.getLsbD_ushiftRight]
  by_cases hlt : m < lo
  · simp [hlt, show ¬ (lo ≤ m ∧ m < lo + n) by omega]
  · rw [getLsbD_low hn, show lo + (m - lo) = m by omega]
    by_cases hw : m < lo + n
    · simp [hm, hlt, show m - lo < n by omega, show lo ≤ m ∧ m < lo + n by omega]
    · simp [hm, hlt, show ¬ (m - lo < n) by omega, show ¬ (lo ≤ m ∧ m < lo + n) by omega]

/-- 空いた添字のビットが立っていなければ、右へのずらしはビットを値と同じだけ移す。 -/
theorem getLsbD_shift_up (u : BitVec 64) {i nul m : Nat} (hi : i < nul) (hn : nul ≤ 62) (hm : m < 64) (hmi : m ≠ i)
    (hb : u.getLsbD nul = false) :
    ((u ^^^ (((u >>> i) &&& ((1#64 <<< (nul - i)) - 1#64)) <<< i)) ^^^
      ((((u >>> i) &&& ((1#64 <<< (nul - i)) - 1#64)) <<< i) <<< 1)).getLsbD m = u.getLsbD (slot i nul m) := by
  rw [BitVec.getLsbD_xor, BitVec.getLsbD_xor, BitVec.getLsbD_shiftLeft (n := 1), getLsbD_window u (by omega) hm]
  by_cases h₁ : i < m ∧ m ≤ nul
  · rw [slot_of_up h₁, getLsbD_window u (by omega) (by omega)]
    have hwin : decide (i ≤ m - 1 ∧ m - 1 < i + (nul - i)) = true := decide_eq_true (by omega)
    simp only [hwin, Bool.and_true, hm, decide_true, show ¬ m < 1 by omega, decide_false, Bool.not_false, Bool.true_and]
    by_cases he : m = nul
    · subst he; simp [hb]
    · have : decide (i ≤ m ∧ m < i + (nul - i)) = true := decide_eq_true (by omega)
      simp [this]
  · rw [slot_of_out h₁ (by omega)]
    have hout : decide (i ≤ m ∧ m < i + (nul - i)) = false := decide_eq_false (by omega)
    simp only [hout, Bool.and_false, Bool.bne_false]
    by_cases h0 : m < 1
    · simp [h0]
    · rw [getLsbD_window u (by omega) (by omega)]
      have : decide (i ≤ m - 1 ∧ m - 1 < i + (nul - i)) = false := decide_eq_false (by omega)
      simp [this]

/-- 左へのずらしでは、先頭の空きを除いて、空いた添字のビットが立っていないことが要る。 -/
theorem getLsbD_shift_down (u : BitVec 64) {i nul m : Nat} (hi : nul < i) (hn : i ≤ 62) (hm : m < 64)
    (hmi : m ≠ i - 1) (hb : nul ≠ 0 → u.getLsbD nul = false) :
    ((u ^^^ (((u >>> nul) &&& ((1#64 <<< (i - nul)) - 1#64)) <<< nul)) ^^^
      ((((u >>> nul) &&& ((1#64 <<< (i - nul)) - 1#64)) <<< nul) >>> 1)).getLsbD m =
    u.getLsbD (slot (i - 1) nul m) := by
  rw [BitVec.getLsbD_xor, BitVec.getLsbD_xor, BitVec.getLsbD_ushiftRight, getLsbD_window u (by omega) hm]
  by_cases h₁ : nul ≤ m ∧ m < i - 1
  · rw [slot_of_down h₁, getLsbD_window u (by omega) (by omega), Nat.add_comm 1 m]
    have hwin : decide (nul ≤ m ∧ m < nul + (i - nul)) = true := decide_eq_true (by omega)
    have hwin' : decide (nul ≤ m + 1 ∧ m + 1 < nul + (i - nul)) = true := decide_eq_true (by omega)
    simp [hwin, hwin']
  · rw [slot_of_out (by omega) h₁]
    have hout : decide (nul ≤ m ∧ m < nul + (i - nul)) = false := decide_eq_false (by omega)
    simp only [hout, Bool.and_false, Bool.bne_false]
    by_cases h63 : 1 + m < 64
    · rw [getLsbD_window u (by omega) h63]
      by_cases he : m + 1 = nul
      · rw [Nat.add_comm 1 m, he, hb (by omega)]; simp
      · have : decide (nul ≤ 1 + m ∧ 1 + m < nul + (i - nul)) = false := decide_eq_false (by omega)
        simp [this]
    · have hz : (((u >>> nul) &&& ((1#64 <<< (i - nul)) - 1#64)) <<< nul).getLsbD (1 + m) = false :=
        BitVec.getLsbD_of_ge _ _ (by omega)
      rw [hz]; simp

/-- 右へのずらしで空いた添字に入るビットは、元のビットとの排他的論理和になる。 -/
theorem getLsbD_shift_up_hole (u : BitVec 64) {i nul : Nat} (hi : i < nul) (hn : nul ≤ 62) :
    ((u ^^^ (((u >>> i) &&& ((1#64 <<< (nul - i)) - 1#64)) <<< i)) ^^^
      ((((u >>> i) &&& ((1#64 <<< (nul - i)) - 1#64)) <<< i) <<< 1)).getLsbD nul =
    (u.getLsbD nul ^^ u.getLsbD (nul - 1)) := by
  rw [BitVec.getLsbD_xor, BitVec.getLsbD_xor, BitVec.getLsbD_shiftLeft (n := 1), getLsbD_window u (by omega) (by omega),
    getLsbD_window u (by omega) (by omega)]
  have hout : decide (i ≤ nul ∧ nul < i + (nul - i)) = false := decide_eq_false (by omega)
  have hwin : decide (i ≤ nul - 1 ∧ nul - 1 < i + (nul - i)) = true := decide_eq_true (by omega)
  simp [hout, hwin, show nul < 64 by omega, show ¬ nul < 1 by omega]

theorem getLsbD_shift_down_hole (u : BitVec 64) {i nul : Nat} (h0 : 0 < nul) (hi : nul < i) (hn : i ≤ 62) :
    ((u ^^^ (((u >>> nul) &&& ((1#64 <<< (i - nul)) - 1#64)) <<< nul)) ^^^
      ((((u >>> nul) &&& ((1#64 <<< (i - nul)) - 1#64)) <<< nul) >>> 1)).getLsbD (nul - 1) =
    (u.getLsbD (nul - 1) ^^ u.getLsbD nul) := by
  rw [BitVec.getLsbD_xor, BitVec.getLsbD_xor, BitVec.getLsbD_ushiftRight, getLsbD_window u (by omega) (by omega),
    getLsbD_window u (by omega) (by omega), show 1 + (nul - 1) = nul by omega]
  have hout : decide (nul ≤ nul - 1 ∧ nul - 1 < nul + (i - nul)) = false := decide_eq_false (by omega)
  simp [hout, show 0 < i - nul by omega]

/-! ## 葉への追加 -/

/-- 値が nil でない添字のビットが、すべて立っている。 -/
def Node.Marked (t : Node K Q) : Prop := ∀ i, i < t.n → (t.value i).nilP = false → t.used.getLsbD i = true

instance (t : Node K Q) : Decidable t.Marked :=
  inferInstanceAs (Decidable (∀ i, i < t.n → (t.value i).nilP = false → t.used.getLsbD i = true))

/-- 値が nil でない添字のビットが、キー `k` を除いて立っている。 -/
def Node.MarkedBut (t : Node K Q) (k : K) : Prop :=
  ∀ i, i < t.n → (t.value i).nilP = false → t.used.getLsbD i = true ∨ t.key.get i = some k

/-- キー `k` を加えても、ずらすビットがほかのビットを消さない。 -/
def Node.shiftsClean (t : Node K Q) (k : Option K) : Bool :=
  keyEq k (t.key.get (t.seek k)) || decide (t.seek k = t.nulIdx) || decide (t.nulIdx = 0) ||
    !t.used.getLsbD t.nulIdx

theorem Node.Marked.but (ht : t.Marked) (k : K) : t.MarkedBut k := fun i hi' hv => Or.inl (ht i hi' hv)

theorem Node.leafShift_used {i nul j : Nat} (hi' : i ≤ 62) (hn : nul ≤ 62) (hj : j < 64) (hne : j ≠ addPos i nul)
    (hc : i = nul ∨ nul = 0 ∨ t.used.getLsbD nul = false) :
    (t.leafShift i nul).1.used.getLsbD j = t.used.getLsbD (slot (addPos i nul) nul j) := by
  unfold leafShift addPos at *
  by_cases h₁ : i < nul
  · rw [if_neg (by omega)] at hne
    simp only [h₁, ↓reduceIte, show ¬ nul < i by omega]
    exact getLsbD_shift_up _ h₁ hn hj hne ((hc.resolve_left (by omega)).resolve_left (by omega))
  · by_cases h₂ : nul < i
    · rw [if_pos h₂] at hne
      simp only [h₁, h₂, ↓reduceIte]
      exact getLsbD_shift_down _ h₂ hi' hj hne (fun h0 => (hc.resolve_left (by omega)).resolve_left h0)
    · simp only [h₁, h₂, ↓reduceIte]
      rw [slot_of_out (by omega) (by omega)]

/-- ずらすビットが消えなければ、ビットは値と同じだけ移り、追加した添字のビットが立つ。 -/
theorem Node.leafAdd_used {j : Nat} (hn : t.n ≤ 62) (hk : keyEq (some k) (t.key.get (t.seek (some k))) = false)
    (hc : t.shiftsClean (some k) = true) (hj : j < 64) : (t.leafAdd (some k)).1.used.getLsbD j =
      if j = addPos (t.seek (some k)) t.nulIdx then true
      else t.used.getLsbD (slot (addPos (t.seek (some k)) t.nulIdx) t.nulIdx j) := by
  have hsk := t.seek_le (some k)
  have hnul := t.nulIdx_le
  have hu : (t.leafAdd (some k)).1.used = (t.leafShift (t.seek (some k)) t.nulIdx).1.used |||
      (1#64 <<< addPos (t.seek (some k)) t.nulIdx) := by
    simp [Node.leafAdd, hk, leafShift_pos]
  have hcl : t.seek (some k) = t.nulIdx ∨ t.nulIdx = 0 ∨ t.used.getLsbD t.nulIdx = false := by
    simp only [shiftsClean, hk, Bool.false_or, Bool.or_eq_true, decide_eq_true_eq, Bool.not_eq_true'] at hc
    rcases hc with (hc | hc) | hc
    · exact Or.inl hc
    · exact Or.inr (Or.inl hc)
    · exact Or.inr (Or.inr hc)
  rw [hu, getLsbD_mark _ _ hj]
  by_cases hjp : j = addPos (t.seek (some k)) t.nulIdx
  · simp [hjp]
  · rw [leafShift_used (by omega) (by omega) hj hjp hcl, if_neg hjp]
    simp [hjp]

/-- ビットが打ち消し合うと、値が nil でない添字のビットが消える。 -/
theorem Node.leafAdd_unmarks (hn : t.n ≤ 62) (hm : t.Marked) (hc : t.shiftsClean (some k) = false) :
    ¬ (t.leafAdd (some k)).1.Marked := by
  simp only [shiftsClean, Bool.or_eq_false_iff, decide_eq_false_iff_not, Bool.not_eq_false'] at hc
  obtain ⟨⟨⟨hk, hne⟩, h0⟩, hb⟩ := hc
  have hsk := t.seek_le (some k)
  have hnul := t.nulIdx_le
  have hu : (t.leafAdd (some k)).1.used = (t.leafShift (t.seek (some k)) t.nulIdx).1.used |||
      (1#64 <<< addPos (t.seek (some k)) t.nulIdx) := by
    simp [Node.leafAdd, hk, leafShift_pos]
  have hlive : (t.value (t.nulIdx - 1)).nilP = false := nulIdx_before (by omega)
  have hbit : t.used.getLsbD (t.nulIdx - 1) = true := hm _ (by omega) hlive
  intro hmark
  rcases Nat.lt_or_gt_of_ne hne with hlt | hgt
  · -- 空きの手前の値が空きへ移る。
    have hpos : addPos (t.seek (some k)) t.nulIdx = t.seek (some k) := if_neg (by omega)
    have hv : ((t.leafAdd (some k)).1.value t.nulIdx).nilP = false := by
      rw [leafAdd_value hk hn, hpos, if_neg (by omega), slot_of_up (by omega)]
      exact hlive
    have hset := hmark t.nulIdx (by rw [leafAdd_n hk]; split <;> omega) hv
    rw [hu, getLsbD_mark _ _ (by omega), hpos] at hset
    simp only [leafShift, hlt, ↓reduceIte] at hset
    rw [getLsbD_shift_up_hole _ hlt (by omega), hb, hbit] at hset
    simp at hset
    omega
  · -- 空きの手前の値は動かない。
    have hpos : addPos (t.seek (some k)) t.nulIdx = t.seek (some k) - 1 := if_pos hgt
    have hv : ((t.leafAdd (some k)).1.value (t.nulIdx - 1)).nilP = false := by
      rw [leafAdd_value hk hn, hpos, if_neg (by omega), slot_of_out (by omega) (by omega)]
      exact hlive
    have hset := hmark (t.nulIdx - 1) (by rw [leafAdd_n hk]; split <;> omega) hv
    rw [hu, getLsbD_mark _ _ (by omega), hpos] at hset
    simp only [leafShift, show ¬ t.seek (some k) < t.nulIdx by omega, hgt, ↓reduceIte] at hset
    rw [getLsbD_shift_down_hole _ (by omega) hgt (by omega), hb, hbit] at hset
    simp at hset
    omega

/-- 葉への追加がビットを保つのは、ずらすビットが消えないときで、そのときに限る。 -/
theorem Node.leafAdd_marked_iff (hn : t.n ≤ 62) (hm : t.Marked) :
    ((t.leafAdd (some k)).1.Marked ∧ (t.leafAdd (some k)).1.used.getLsbD (t.leafAdd (some k)).2 = true) ↔
      t.shiftsClean (some k) = true := by
  have hsk := t.seek_le (some k)
  have hnul := t.nulIdx_le
  refine ⟨fun h => ?_, fun hc => ?_⟩
  · cases hc : t.shiftsClean (some k) with
    | true => rfl
    | false => exact absurd h.1 (leafAdd_unmarks hn hm hc)
  · cases hk : keyEq (some k) (t.key.get (t.seek (some k))) with
    | true =>
        rw [leafAdd_found hk]
        refine ⟨fun i hi' hv => ?_, ?_⟩
        · simp only at hi'
          rw [getLsbD_mark _ _ (by omega), hm i hi' hv, Bool.true_or]
        · rw [getLsbD_mark _ _ (by omega)]; simp
    | false =>
        have hpos := addPos_lt hsk hnul
        rw [leafAdd_pos hk]
        refine ⟨fun i hi' hv => ?_, ?_⟩
        · rw [leafAdd_n hk] at hi'
          rw [leafAdd_value hk hn] at hv
          rw [leafAdd_used hn hk hc (by split at hi' <;> omega)]
          split
          · rfl
          · rename_i hip
            rw [if_neg hip] at hv
            exact hm _ (slot_bounds hnul hpos hip hi') hv
        · rw [leafAdd_used hn hk hc (by split at hpos <;> omega), if_pos rfl]

/-- 葉への追加の後は、値が nil でない添字と追加した添字のビットが立つ。 -/
theorem Node.LeafOk.leafAdd_marked (ht : t.LeafOk descp 62 lo hi) (hm : t.MarkedBut k)
    (hc : t.shiftsClean (some k) = true) : (t.leafAdd (some k)).1.Marked ∧
    (t.leafAdd (some k)).1.used.getLsbD (t.leafAdd (some k)).2 = true := by
  have hn := ht.n_le
  have hsk := t.seek_le (some k)
  cases hk : keyEq (some k) (t.key.get (t.seek (some k))) with
  | true =>
      rw [leafAdd_found hk]
      obtain ⟨y, hy, hky⟩ := keyEq_iff.mp hk
      cases hy
      refine ⟨fun i hi' hv => ?_, ?_⟩
      · simp only at hi'
        rw [getLsbD_mark _ _ (by omega), Bool.or_eq_true, decide_eq_true_eq]
        rcases hm i hi' hv with hb | hb
        · exact Or.inl hb
        · exact Or.inr (ht.seek_of_key (by omega) hi' hb).symm
      · rw [getLsbD_mark _ _ (by omega)]; simp
  | false =>
      refine (leafAdd_marked_iff hn (fun i hi' hv => ?_)).mpr hc
      rcases hm i hi' hv with hb | hb
      · exact hb
      · -- キー `k` は葉にない。
        rw [ht.seek_of_key (by omega) hi' hb, hb] at hk
        simp [keyEq] at hk

/-! ## 木への追加 -/

/-- 部分木の葉のビットが、値が nil でない限り立っている。 -/
def Marked (h : Heap K Q) (d : Nat) (a : Addr) : Prop :=
  ∀ x, Mem h d a x → (h.get x).innerp = false → (h.get x).Marked

def MarkedBut (h : Heap K Q) (d : Nat) (a : Addr) (k : K) : Prop :=
  ∀ x, Mem h d a x → (h.get x).innerp = false → (h.get x).MarkedBut k

/-- 葉 `c` が埋まって分かれるとき、使い回す葉があって、そのビットが後半の値をすべて覆う。 -/
def spareCovers (h : Heap K Q) (t c : Addr) (k : Option K) : Bool :=
  let nul := spareIdx 1 h (h.get t)
  decide (nul ≤ (h.get t).n) &&
    (List.range 31).all fun j =>
      decide (32 + j = (h.get c).seek k) || (h.get ((h.get t).kid nul)).used.getLsbD j

/-- キー `k` の追加で葉が分かれても、後半の値のビットが立っている。 -/
def keepsMarks (h : Heap K Q) : Nat → Addr → Option K → Bool
  | 0, _, _ => true
  | fuel + 1, t, k =>
      let c := (h.get t).kid ((h.get t).seek k)
      if !(h.get c).innerp then !(h.get c).overflows k || spareCovers h t c k
      else keepsMarks h fuel c k

theorem Sub.keepsMarks_one (hs : Sub h descp 1 cap a lo hi) (k : Option K) : keepsMarks h (fuel + 1) a k =
    (!(h.get ((h.get a).kid ((h.get a).seek k))).overflows k ||
      spareCovers h a ((h.get a).kid ((h.get a).seek k)) k) := by
  have hk := (hs.2.1.kids _ ((h.get a).seek_le k)).2.innerp
  simp [keepsMarks, hk]

theorem Sub.keepsMarks_succ (hs : Sub h descp (d + 2) cap a lo hi) (k : Option K) : keepsMarks h (fuel + 1) a k =
    keepsMarks h fuel ((h.get a).kid ((h.get a).seek k)) k := by
  have hk := (hs.2.1.kids _ ((h.get a).seek_le k)).2.1.innerp
  simp [keepsMarks, hk]

/-- 探索で選ばない子には、キー `k` がない。 -/
theorem Sub.markedBut_other {i : Nat} (hs : Sub h descp (d + 1) cap a lo hi) (hcap : cap ≤ 63)
    (hm : MarkedBut h (d + 1) a k) (hi' : i ≤ (h.get a).n) (hne : i ≠ (h.get a).seek (some k)) :
    Marked h d ((h.get a).kid i) := by
  intro x hx hl j hj hv
  rcases hm x (Mem.kid hi' hx) hl j hj hv with hb | hb
  · exact hb
  · have hcell : CellAt h d ((h.get a).kid i) k ⟨x, j⟩ := ⟨hx, hl, hj, hb⟩
    obtain ⟨h₁, h₂⟩ := (hs.2.1.kids i hi').cell_bounds hcell
    exact absurd (hs.2.1.seek_eq hcap hi' h₁ h₂).symm hne

/-- 部分木への追加の後のビット。 -/
structure MarksAdd (d : Nat) (a : Addr) (r : Added K Q) : Prop where
  marked : Marked r.heap d a
  cell : (r.heap.get r.cell.t).used.getLsbD r.cell.i = true

theorem Sub.marksAdd_leaf (hs : Sub h descp 0 62 a lo hi) (hm : MarkedBut h 0 a k)
    (hc : (h.get a).shiftsClean (some k) = true) : MarksAdd 0 a (leafAdd h a (some k)) := by
  obtain ⟨h₁, h₂⟩ := hs.2.leafAdd_marked (hm a rfl hs.2.innerp) hc
  have hget : (leafAdd h a (some k)).heap.get a = ((h.get a).leafAdd (some k)).1 := Heap.get_set_eq _ hs.1
  constructor
  · rintro x rfl _
    rw [hget]; exact h₁
  · rw [show (leafAdd h a (some k)).cell = ⟨a, ((h.get a).leafAdd (some k)).2⟩ from rfl, hget]; exact h₂

theorem AddOk.marked_kid (hs : Sub h descp (d + 1) 62 a lo hi) (hm : MarkedBut h (d + 1) a k)
    (A : AddOk h descp d ((h.get a).kid ((h.get a).seek (some k))) ((h.get a).lower lo ((h.get a).seek (some k)))
      ((h.get a).upper hi ((h.get a).seek (some k))) k r)
    (hk : Marked r.heap d ((h.get a).kid ((h.get a).seek (some k)))) : Marked r.heap (d + 1) a := by
  have hidx := (h.get a).seek_le (some k)
  have hp := A.parent hs hidx
  rintro x (rfl | ⟨i, hi', hx⟩) hl
  · rw [hp, hs.2.1.innerp] at hl; cases hl
  · rw [hp] at hi' hx
    by_cases he : i = (h.get a).seek (some k)
    · subst he; exact hk x hx hl
    · rw [A.other_mem hs hidx hi' he] at hx
      have hget := (A.other hs hidx hi' he hx).2
      rw [hget] at hl ⊢
      exact hs.markedBut_other (by decide) hm hi' he x hx hl

/-- 内部の節を分けても、葉のビットは変わらない。 -/
theorem Splitted.marked_inner {idx nul : Nat} (R : Ready h descp (d + 1) a lo hi idx) (S : Splitted h h' a idx nul)
    (hnul : nul ≤ (h.get a).n + 1) (hne : nul ≠ idx) (hm : Marked h (d + 2) a) : Marked h' (d + 2) a := by
  intro x hx hl
  have hinner : ∀ i, i ≤ (h.get a).n → (h'.get ((h.get a).kid i)).innerp = true := by
    intro i hi'
    rw [Splitted.inner R S hnul hne (R.kid_sub hi').lt_size]
    exact (R.kid_sub hi').2.1.innerp
  have hr : (h'.get (spareAddr h (h.get a) nul)).innerp = true := by
    rw [S.rght]; exact (R.kid_sub R.idx_le).2.1.innerp
  have hlt : x < h.size ∧ Mem h (d + 2) a x := by
    rcases Splitted.mem R S hnul hne hx with hm' | hge
    · rcases hm' with rfl | ⟨i, hi', hm'⟩
      · exact ⟨R.lt, Mem.self h _ _⟩
      · exact ⟨(R.kid_sub hi').mem_lt_size hm', Mem.kid hi' hm'⟩
    · -- 確保した節は内部の節である。
      exfalso
      have hxs : x < h'.size := (Splitted.sub R S hnul hne).mem_lt_size hx
      rw [S.size] at hxs
      split at hxs
      · rename_i hf
        have he : x = spareAddr h (h.get a) nul := by
          rw [spareAddr, if_pos hf]; exact Nat.le_antisymm (Nat.lt_succ_iff.mp hxs) hge
        rw [he, hr] at hl; cases hl
      · exact Nat.lt_irrefl _ (Nat.lt_of_lt_of_le hxs hge)
  have hget : h'.get x = h.get x := by
    refine S.rest x hlt.1 ?_ ?_ ?_ (fun hle _ => ?_)
    · rintro rfl
      rw [(Splitted.sub R S hnul hne).2.1.innerp] at hl; cases hl
    · rintro rfl; rw [hinner idx R.idx_le] at hl; cases hl
    · rintro rfl; rw [hr] at hl; cases hl
    · rintro rfl; rw [hinner _ (by omega)] at hl; cases hl
  rw [hget] at hl ⊢
  exact hm x hlt.2 hl

/-- 子に加えても、空いた子の添字は変わらない。 -/
theorem AddOk.spareIdx_eq {idx : Nat} (hs : Sub h descp (d + 1) 62 a lo hi) (hidx : idx ≤ (h.get a).n) (hf : d < fuel)
    (A : AddOk h descp d ((h.get a).kid idx) ((h.get a).lower lo idx) ((h.get a).upper hi idx) k r) :
    spareIdx fuel r.heap (h.get a) = spareIdx (d + 1) h (h.get a) := by
  have hn := hs.2.1.n_le
  refine Arr.scan_congr (by omega) (fun i hi' => ?_)
  have hle : i ≤ (h.get a).n := Nat.lt_succ_iff.mp hi'
  have htw := (A.twig hs hidx).kids i (by rw [A.parent hs hidx]; exact hle)
  rw [A.parent hs hidx] at htw
  have hcap : (if i = idx then 63 else 62) ≤ 63 := by split <;> omega
  have h₁ := htw.nodeFreeP_iff hcap hf
  have h₂ := (hs.2.1.kids i hle).nodeFreeP_iff (by decide) (Nat.lt_succ_self d)
  have hiff : nodeFreeP r.heap fuel ((h.get a).kid i) = true ↔ nodeFreeP h (d + 1) ((h.get a).kid i) = true := by
    rw [h₁, h₂]
    by_cases he : i = idx
    · subst he
      constructor
      · intro hall y v hy
        by_contra hv
        exact hv (hall y v ((A.has y v (by simpa using hv)).mpr hy))
      · intro hall y v hy
        by_contra hv
        exact hv (hall y v ((A.has y v (by simpa using hv)).mp hy))
    · exact forall₂_congr (fun y v => by rw [A.other_has hs hidx hle he])
  exact congrArg (!·) (Bool.eq_iff_iff.mpr hiff)

/-- 葉を分けるとき、使い回す葉のビットが後半の値を覆えば、ビットは保たれる。 -/
theorem Splitted.marked_leaf {idx nul : Nat} (R : Ready h descp 0 a lo hi idx) (S : Splitted h h' a idx nul)
    (hnul : nul ≤ (h.get a).n) (hne : nul ≠ idx) (hm : Marked h 1 a)
    (hcov : ∀ j, j < 31 → ((h.get ((h.get a).kid idx)).value (32 + j)).nilP = false →
      (h.get ((h.get a).kid nul)).used.getLsbD j = true) : Marked h' 1 a := by
  have hnul' : nul ≤ (h.get a).n + 1 := Nat.le_succ_of_le hnul
  have H := Splitted.halves R S hnul' hne
  have hleaf : ∀ i, i ≤ (h.get a).n → (h.get ((h.get a).kid i)).innerp = false :=
    fun i hi' => (R.kid_sub hi').2.innerp
  have hmark : ∀ i, i ≤ (h.get a).n → (h.get ((h.get a).kid i)).Marked :=
    fun i hi' => hm _ (Mem.kid hi' rfl) (hleaf i hi')
  have hchld : (h'.get ((h.get a).kid idx)).Marked := by
    intro j hj hv
    rw [H.l_n, hleaf idx R.idx_le] at hj
    rw [Node.value, H.l_val j (by simpa using Nat.lt_succ_iff.mp hj), ← Node.value] at hv
    rw [S.chld]
    exact hmark idx R.idx_le j (by rw [R.full]; rw [piv_eq] at hj; simp at hj; omega) hv
  rintro x (rfl | ⟨i, hi', hx⟩) hl
  · rw [(Splitted.sub R S hnul' hne).2.1.innerp] at hl; cases hl
  · rcases Splitted.mem_kid R S hnul' hne hi' hx with ⟨_, rfl | rfl⟩ | ⟨hi₂, hx⟩
    · intro j hj hv
      rw [H.r_n, piv_eq] at hj
      rw [Node.value, H.r_val j (by rw [piv_eq]; omega), ← Node.value] at hv
      rw [S.rght]
      simp only [splitRght, spareNode]
      rw [if_neg (by omega)]
      exact hcov j hj hv
    · exact hchld
    · rw [Splitted.n_eq R S hnul' hne] at hi'
      have hb := kidSlot_bounds R.twig.n_le R.idx_le hnul' hne hi₂ hi'
      by_cases he : x = (h.get a).kid idx
      · subst he; exact hchld
      · have hget := Splitted.kid_same R S hnul' hne hb.1 hb.2 hx he
        obtain rfl : x = (h.get a).kid _ := hx
        rw [hget]
        exact hmark _ hb.1

/-- 埋まった葉では、追加した場所の値だけが nil である。 -/
theorem Node.leafAdd_value_seek (hn : t.n ≤ 62) (ho : t.overflows (some k) = true) :
    ((t.leafAdd (some k)).1.value (t.seek (some k))).nilP = true := by
  have hpos := Node.LeafOk.leafAdd_pos_eq ho
  simp only [overflows, Bool.and_eq_true, Bool.not_eq_true'] at ho
  rw [leafAdd_pos ho.1.1] at hpos
  rw [leafAdd_value ho.1.1 hn, if_pos hpos.symm]
  simp [BtreeVal.nilP, BtreeVal.nil]

theorem Sub.marksAdd_one (hs : Sub h descp 1 62 a lo hi) (hf : 0 < fuel) (hlo : Above descp lo k)
    (hhi : Upto descp hi k) (hm : MarkedBut h 1 a k)
    (hc : (h.get ((h.get a).kid ((h.get a).seek (some k)))).shiftsClean (some k) = true)
    (hk : keepsMarks h 1 a (some k) = true) :
    MarksAdd 1 a ((leafAdd h ((h.get a).kid ((h.get a).seek (some k))) (some k)).twig fuel a
      ((h.get a).seek (some k))) := by
  have hidx := (h.get a).seek_le (some k)
  have hkid := hs.2.1.kids _ hidx
  obtain ⟨h₁, h₂⟩ := hs.2.1.seek_bounds (by decide) hlo hhi
  have A := hkid.leafAdd_ok h₁ h₂
  have M := hkid.marksAdd_leaf (fun x hx hl => hm x (Mem.kid hidx hx) hl) hc
  have M₁ := A.marked_kid hs hm M.marked
  rw [hs.keepsMarks_one] at hk
  set c := (h.get a).kid ((h.get a).seek (some k)) with hcdef
  have hp := A.parent hs hidx
  cases hsp : (leafAdd h c (some k)).splitp with
  | false =>
      refine ⟨?_, ?_⟩
      · rw [Added.twig_heap_false hsp]; exact M₁
      · rw [Added.twig_heap_false hsp]; exact M.cell
  | true =>
      have R := A.ready hs hidx hsp
      have ho : (h.get c).overflows (some k) = true := by rw [← (A.brim rfl).1]; exact hsp
      rw [ho, Bool.not_true, Bool.false_or] at hk
      simp only [spareCovers, Bool.and_eq_true, decide_eq_true_eq, List.all_eq_true, List.mem_range,
        Bool.or_eq_true] at hk
      obtain ⟨hle, hcov⟩ := hk
      have hnul : spareIdx fuel (leafAdd h c (some k)).heap ((leafAdd h c (some k)).heap.get a) =
          spareIdx 1 h (h.get a) := by rw [hp]; exact A.spareIdx_eq hs hidx hf
      have S := R.splitted hf hnul
      have hne := R.nul_ne hf hnul
      have hget : (leafAdd h c (some k)).heap.get c = ((h.get c).leafAdd (some k)).1 := Heap.get_set_eq _ hkid.1
      have hnc : (h.get a).kid (spareIdx 1 h (h.get a)) ≠ c := by
        have := R.kid_inj (by rw [hp]; exact hle) R.idx_le hne
        rw [hp] at this
        exact this
      refine ⟨?_, ?_⟩
      · rw [Added.twig_heap_true hsp]
        refine Splitted.marked_leaf R S (by rw [hp]; exact hle) hne M₁ (fun j hj hv => ?_)
        rw [hp] at hv ⊢
        rw [hget] at hv
        rw [leafAdd_get_ne hnc]
        refine (hcov j hj).resolve_left (fun he => ?_)
        rw [he, Node.leafAdd_value_seek hkid.2.n_le ho] at hv; cases hv
      · have hchld := S.chld
        rw [hp] at hchld
        have hcell : (leafAdd h c (some k)).cell.t = c := rfl
        have hb := M.cell
        rw [Added.twig_heap_true hsp]
        simp only [Added.twig]
        rw [hcell] at hb ⊢
        rw [hchld]
        exact hb

theorem AddOk.marksAdd_twig (hs : Sub h descp (d + 2) 62 a lo hi) (hf : d + 1 < fuel)
    (A : AddOk h descp (d + 1) ((h.get a).kid ((h.get a).seek (some k))) ((h.get a).lower lo ((h.get a).seek (some k)))
      ((h.get a).upper hi ((h.get a).seek (some k))) k r)
    (hm : MarkedBut h (d + 2) a k) (M : MarksAdd (d + 1) ((h.get a).kid ((h.get a).seek (some k))) r) :
    MarksAdd (d + 2) a (r.twig fuel a ((h.get a).seek (some k))) := by
  have hidx := (h.get a).seek_le (some k)
  have M₁ := A.marked_kid hs hm M.marked
  cases hsp : r.splitp with
  | false =>
      refine ⟨?_, ?_⟩
      · rw [Added.twig_heap_false hsp]; exact M₁
      · rw [Added.twig_heap_false hsp]; exact M.cell
  | true =>
      have R := A.ready hs hidx hsp
      have hp := A.parent hs hidx
      have S := R.splitted hf rfl
      have hnul := Ready.nul_le fuel r.heap (r.heap.get a)
      have hne := R.nul_ne hf rfl
      refine ⟨?_, ?_⟩
      · rw [Added.twig_heap_true hsp]
        exact Splitted.marked_inner R S hnul hne M₁
      · rw [Added.twig_heap_true hsp]
        simp only [Added.twig]
        rw [Splitted.kid_same R S hnul hne R.idx_le hne.symm (by rw [hp]; exact A.leaf.1)]
        · exact M.cell
        · intro he
          have hl := A.leaf.2
          rw [he, hp, A.sub.innerp_eq, decide_eq_false_iff_not] at hl
          omega

theorem Sub.marksAdd : ∀ {d fuel m : Nat} {a : Addr} {lo hi : Option K}, d + 1 < fuel → d + 1 ≤ m →
    Sub h descp (d + 1) 62 a lo hi → Above descp lo k → Upto descp hi k → MarkedBut h (d + 1) a k →
    (h.get (leafAt h (d + 1) a (some k))).shiftsClean (some k) = true → keepsMarks h m a (some k) = true →
    MarksAdd (d + 1) a (twigAdd fuel h a (some k))
  | _, 0, _, _, _, _, hf, _, _, _, _, _, _, _ => absurd hf (Nat.not_lt_zero _)
  | _, _, 0, _, _, _, _, hm, _, _, _, _, _, _ => absurd hm (Nat.not_succ_le_zero _)
  | 0, fuel + 1, m + 1, a, _, _, hf, _, hs, hlo, hhi, hB, hc, hk => by
      have hkid := hs.2.1.kids _ ((h.get a).seek_le (some k))
      have hf' : 0 < fuel := by omega
      rw [hs.leafAt_succ, leafAt] at hc
      rw [hs.keepsMarks_one] at hk
      have hadd := hs.marksAdd_one hf' hlo hhi hB hc (by rw [hs.keepsMarks_one]; exact hk)
      simp only [twigAdd, hkid.2.innerp, Bool.not_false, ↓reduceIte]
      exact hadd
  | d + 1, fuel + 1, m + 1, a, _, _, hf, hm, hs, hlo, hhi, hB, hc, hk => by
      have hidx := (h.get a).seek_le (some k)
      have hkid := hs.2.1.kids _ hidx
      obtain ⟨h₁, h₂⟩ := hs.2.1.seek_bounds (by decide) hlo hhi
      have hf' : d + 1 < fuel := by omega
      have A := Sub.twigAdd_ok hf' hkid h₁ h₂
      rw [hs.leafAt_succ] at hc
      rw [hs.keepsMarks_succ] at hk
      have ih := Sub.marksAdd hf' (show d + 1 ≤ m by omega) hkid h₁ h₂
        (fun x hx hl => hB x (Mem.kid hidx hx) hl) hc hk
      have hadd := A.marksAdd_twig hs hf' hB ih
      simp only [twigAdd, hkid.2.1.innerp, Bool.not_true, Bool.false_eq_true, ↓reduceIte]
      exact hadd

end Books.Btree
