import Books.Btree.Lemmas.Order

/-!
# 葉への追加

`leaf_add` が葉の並びをどう変えるかを、添字ごとに述べる。
-/

set_option linter.unusedSectionVars false

namespace Books.Btree

open Books.Lib

variable {K Q : Type} [LinearOrder K] [LinearOrder Q] [Zero Q] {descp : Bool} {lo hi : Option K} {t : Node K Q}

/-! ## キーの位置の探索 -/

theorem Node.seek_le (t : Node K Q) (k : Option K) : t.seek k ≤ t.n := Arr.scan_le _ _ _

theorem Node.seek_before {k : K} {j : Nat} (h : j < t.seek (some k)) :
    ∃ b, t.key.get j = some b ∧ Before t.descp b k := by
  have hp := Arr.scan_holds h
  cases hb : t.key.get j with
  | none => rw [hb] at hp; simp [keyPast] at hp
  | some b => rw [hb] at hp; exact ⟨b, rfl, keyPast_iff.mp hp⟩

theorem Node.seek_not_before {k b : K} {j : Nat} (hs : t.KeysSorted t.descp) (hn : t.n ≤ 64)
    (h : t.seek (some k) ≤ j) (hj : j < t.n) (hb : t.key.get j = some b) : ¬ Before t.descp b k := by
  have hlt : t.seek (some k) < t.n := by omega
  obtain ⟨c, hc⟩ := Option.isSome_iff_exists.mp (hs.1 _ hlt)
  have hstop : ¬ Before t.descp c k := by
    have := Arr.scan_stop (p := keyPast t.descp (some k)) hn hlt
    rw [show t.key.scan (keyPast t.descp (some k)) t.n = t.seek (some k) from rfl, hc] at this
    intro hck
    rw [keyPast_iff.mpr hck] at this; cases this
  rcases Nat.lt_or_eq_of_le h with h | h
  · intro hbk
    exact hstop ((hs.2 _ _ _ _ h hj hc hb).trans hbk)
  · rw [← h, hc] at hb; cases hb; exact hstop

/-! ## 葉の条件 -/

/-- 葉の条件。`n` は `cap` 以下で、キーは範囲 `(lo, hi]` に入る。 -/
structure Node.LeafOk (descp : Bool) (cap : Nat) (lo hi : Option K) (t : Node K Q) : Prop where
  innerp : t.innerp = false
  descp_eq : t.descp = descp
  n_le : t.n ≤ cap
  keys : ∀ i, i < t.n → ∃ k, t.key.get i = some k ∧ Above descp lo k ∧ Upto descp hi k
  sorted : ∀ i j a b, i < j → j < t.n → t.key.get i = some a → t.key.get j = some b → Before descp a b
  nan : ∀ i, t.n ≤ i → i < 64 → t.key.get i = none

/-- 葉にキー `y` と値 `v` の組がある。 -/
def Node.Has (t : Node K Q) (y : K) (v : BtreeVal Q) : Prop :=
  ∃ j, j < t.n ∧ t.key.get j = some y ∧ t.value j = v

theorem Node.LeafOk.keysSorted {cap : Nat} (h : t.LeafOk descp cap lo hi) : t.KeysSorted t.descp := by
  rw [h.descp_eq]
  refine ⟨fun i hi => ?_, h.sorted⟩
  obtain ⟨k, hk, _⟩ := h.keys i hi
  rw [hk]; rfl

theorem Node.LeafOk.key_inj {cap i j : Nat} {y : K} (h : t.LeafOk descp cap lo hi) (hi' : i < t.n) (hj : j < t.n)
    (hy : t.key.get i = some y) (hy' : t.key.get j = some y) : i = j := by
  rcases Nat.lt_trichotomy i j with hlt | heq | hlt
  · exact absurd (h.sorted i j y y hlt hj hy hy') (Before.irrefl y)
  · exact heq
  · exact absurd (h.sorted j i y y hlt hi' hy' hy) (Before.irrefl y)

theorem Node.LeafOk.seek_of_key {cap i : Nat} {y : K} (h : t.LeafOk descp cap lo hi) (hc : cap ≤ 63)
    (hi' : i < t.n) (hy : t.key.get i = some y) : t.seek (some y) = i := by
  have hn := h.n_le
  refine Arr.scan_eq (by omega) (by omega) (fun j hj => ?_) (fun _ => ?_)
  · obtain ⟨b, hb, _⟩ := h.keys j (by omega)
    rw [hb, keyPast_iff, h.descp_eq]
    exact h.sorted j i b y hj hi' hb hy
  · rw [hy]
    have : ¬ Before t.descp y y := Before.irrefl y
    rw [← keyPast_iff] at this
    simpa using this

theorem Node.LeafOk.seek_lt_of_eq {cap : Nat} {y : K} (h : t.LeafOk descp cap lo hi) (hc : cap ≤ 63)
    (hy : t.key.get (t.seek (some y)) = some y) : t.seek (some y) < t.n := by
  have hn := h.n_le
  have hle := t.seek_le (some y)
  rcases Nat.lt_or_eq_of_le hle with hlt | heq
  · exact hlt
  · rw [h.nan _ (by omega) (by omega)] at hy; cases hy

/-! ## 追加 -/

/-- 空いた添字 `nul` を `i` へ寄せたとき、キーの入る添字。 -/
def addPos (i nul : Nat) : Nat := if nul < i then i - 1 else i

theorem Node.leafShift_pos (t : Node K Q) (i nul : Nat) : (t.leafShift i nul).2 = addPos i nul := by
  unfold leafShift addPos
  by_cases h₁ : i < nul
  · simp [h₁, show ¬ nul < i by omega]
  · by_cases h₂ : nul < i <;> simp [h₁, h₂]

theorem get_leafShift {α : Type} [Inhabited α] (a : Arr 64 α) {i nul j : Nat} (hi : i ≤ 62) (hn : nul ≤ 62)
    (hj : j ≠ addPos i nul) :
    (if i < nul then a.copy (i + 1) a i (nul - i)
      else if nul < i then a.copy nul a (nul + 1) (i - 1 - nul) else a).get j =
    a.get (slot (addPos i nul) nul j) := by
  by_cases h₁ : i < nul
  · have hp : addPos i nul = i := by simp [addPos, show ¬ nul < i by omega]
    simp only [h₁, ↓reduceIte, hp]
    exact Arr.get_copy_up _ h₁ (by omega) j
  · by_cases h₂ : nul < i
    · have hp : addPos i nul = i - 1 := by simp [addPos, h₂]
      simp only [h₁, h₂, ↓reduceIte, hp] at hj ⊢
      exact Arr.get_copy_down _ (by omega) (Or.inl rfl) (by omega) hj
    · have he : nul = i := by omega
      subst he
      simp only [Nat.lt_irrefl, ↓reduceIte, addPos] at hj ⊢
      rw [slot_of_out (by omega) (by omega)]

theorem Node.leafShift_key (t : Node K Q) (i nul : Nat) : (t.leafShift i nul).1.key =
    if i < nul then t.key.copy (i + 1) t.key i (nul - i)
      else if nul < i then t.key.copy nul t.key (nul + 1) (i - 1 - nul) else t.key := by
  unfold leafShift
  split
  · rfl
  · split <;> rfl

theorem Node.leafShift_val (t : Node K Q) (i nul : Nat) : (t.leafShift i nul).1.val =
    if i < nul then t.val.copy (i + 1) t.val i (nul - i)
      else if nul < i then t.val.copy nul t.val (nul + 1) (i - 1 - nul) else t.val := by
  unfold leafShift
  split
  · rfl
  · split <;> rfl

theorem Node.leafShift_rest (t : Node K Q) (i nul : Nat) :
    (t.leafShift i nul).1.innerp = t.innerp ∧ (t.leafShift i nul).1.descp = t.descp ∧
    (t.leafShift i nul).1.next = t.next := by
  unfold leafShift
  split
  · exact ⟨rfl, rfl, rfl⟩
  · split <;> exact ⟨rfl, rfl, rfl⟩

theorem Node.nulIdx_le (t : Node K Q) : t.nulIdx ≤ t.n := Arr.scan_le _ _ _

theorem Node.nulIdx_before {j : Nat} (h : j < t.nulIdx) : (t.value j).nilP = false := by
  have := Arr.scan_holds h
  simpa [value] using this

theorem Node.nulIdx_nil (hn : t.n ≤ 64) (h : t.nulIdx < t.n) : (t.value t.nulIdx).nilP = true := by
  have := Arr.scan_stop (p := fun u : Ual Q => !u.asV.nilP) hn h
  simpa [value, nulIdx] using this

/-! ### キーがあるとき -/

theorem Node.leafAdd_found {k : Option K} (h : keyEq k (t.key.get (t.seek k)) = true) :
    t.leafAdd k = ({ t with used := t.used ||| (1#64 <<< t.seek k) }, t.seek k) := by
  simp [leafAdd, h]

/-! ### キーがないとき -/

section Absent
variable {k : Option K} (hk : keyEq k (t.key.get (t.seek k)) = false)
include hk

theorem Node.leafAdd_pos : (t.leafAdd k).2 = addPos (t.seek k) t.nulIdx := by
  simp [leafAdd, hk, leafShift_pos]

theorem Node.leafAdd_n : (t.leafAdd k).1.n = t.n + if t.nulIdx < t.n then 0 else 1 := by
  by_cases h : t.nulIdx < t.n <;> simp [leafAdd, hk, h]

theorem Node.leafAdd_rest : (t.leafAdd k).1.innerp = t.innerp ∧ (t.leafAdd k).1.descp = t.descp ∧
    (t.leafAdd k).1.next = t.next := by
  simpa [leafAdd, hk] using t.leafShift_rest (t.seek k) t.nulIdx

theorem Node.leafAdd_key (hn : t.n ≤ 62) (j : Nat) : (t.leafAdd k).1.key.get j =
    if j = addPos (t.seek k) t.nulIdx then k
    else t.key.get (slot (addPos (t.seek k) t.nulIdx) t.nulIdx j) := by
  have h₁ := t.seek_le k
  have h₂ := t.nulIdx_le
  have hp : addPos (t.seek k) t.nulIdx < 64 := by unfold addPos; split <;> omega
  have he : (t.leafAdd k).1.key =
      (t.leafShift (t.seek k) t.nulIdx).1.key.set (addPos (t.seek k) t.nulIdx) k := by
    simp [leafAdd, hk, leafShift_pos]
  rw [he, Arr.get_set _ _ _ hp]
  by_cases hj : j = addPos (t.seek k) t.nulIdx
  · rw [if_pos hj, if_pos hj]
  · rw [if_neg hj, if_neg hj, leafShift_key, get_leafShift _ (by omega) (by omega) hj]

theorem Node.leafAdd_value (hn : t.n ≤ 62) (j : Nat) : (t.leafAdd k).1.value j =
    if j = addPos (t.seek k) t.nulIdx then .nil
    else t.value (slot (addPos (t.seek k) t.nulIdx) t.nulIdx j) := by
  have h₁ := t.seek_le k
  have h₂ := t.nulIdx_le
  have hp : addPos (t.seek k) t.nulIdx < 64 := by unfold addPos; split <;> omega
  have he : (t.leafAdd k).1.val =
      (t.leafShift (t.seek k) t.nulIdx).1.val.set (addPos (t.seek k) t.nulIdx) (.v .nil) := by
    simp [leafAdd, hk, leafShift_pos]
  rw [value, he, Arr.get_set _ _ _ hp]
  by_cases hj : j = addPos (t.seek k) t.nulIdx
  · rw [if_pos hj, if_pos hj]; rfl
  · rw [if_neg hj, if_neg hj, leafShift_val, get_leafShift _ (by omega) (by omega) hj]; rfl

end Absent

theorem Node.leafAdd_next (t : Node K Q) (k : Option K) : (t.leafAdd k).1.next = t.next := by
  cases hk : keyEq k (t.key.get (t.seek k)) with
  | true => rw [leafAdd_found hk]
  | false => exact (leafAdd_rest hk).2.2

/-! ### 葉の条件と中身 -/

theorem slot_bounds {n nul i j : Nat} (hnul : nul ≤ n) (hi : i < n + if nul < n then 0 else 1) (hj : j ≠ i)
    (hjn : j < n + if nul < n then 0 else 1) : slot i nul j < n := by
  unfold slot
  split at hi <;> simp_all only [↓reduceIte, Nat.add_zero] <;> split <;> try omega
  all_goals split <;> omega

theorem slot_bounds_symm {n nul i m : Nat} (hnul : nul ≤ n) (hmn : m < n) : slot nul i m < n + if nul < n then 0 else 1 := by
  unfold slot
  split
  · split <;> omega
  · split <;> split <;> omega

theorem addPos_lt {n i nul : Nat} (hi : i ≤ n) (hnul : nul ≤ n) : addPos i nul < n + if nul < n then 0 else 1 := by
  unfold addPos
  split <;> split <;> omega

/-- キーの入る添字より手前は、探索が通り過ぎた添字である。 -/
theorem slot_lt_of_lt {i nul j : Nat} (h : j < addPos i nul) : slot (addPos i nul) nul j < i := by
  unfold addPos at h ⊢
  unfold slot
  split at h <;> simp_all only [↓reduceIte] <;> split <;> try omega
  all_goals split <;> omega

theorem slot_ge_of_gt {i nul j : Nat} (h : addPos i nul < j) : i ≤ slot (addPos i nul) nul j := by
  unfold addPos at h ⊢
  unfold slot
  split at h <;> simp_all only [↓reduceIte] <;> split <;> try omega
  all_goals split <;> omega

theorem Node.LeafOk.leafAdd (h : t.LeafOk descp 62 lo hi) {x : K} (hlo : Above descp lo x)
    (hhi : Upto descp hi x) : (t.leafAdd (some x)).1.LeafOk descp 63 lo hi := by
  have hn := h.n_le
  have hsk := t.seek_le (some x)
  have hnul := t.nulIdx_le
  by_cases hk : keyEq (some x) (t.key.get (t.seek (some x))) = true
  · rw [leafAdd_found hk]
    exact ⟨h.innerp, h.descp_eq, by simp only; omega, h.keys, h.sorted, h.nan⟩
  · replace hk : keyEq (some x) (t.key.get (t.seek (some x))) = false := by simpa using hk
    have hpos := addPos_lt hsk hnul
    -- 探索が止まった添字のキーは `x` でないので、後ろのキーは `x` より真に後にある。
    have hafter : ∀ m b, t.seek (some x) ≤ m → m < t.n → t.key.get m = some b → Before descp x b := by
      intro m b hm hmn hb
      have hnb := Node.seek_not_before h.keysSorted (by omega) hm hmn hb
      rw [h.descp_eq] at hnb
      rcases before_trichotomy descp x b with hxb | rfl | hbx
      · exact hxb
      · rw [h.seek_of_key (by omega) hmn hb, hb] at hk
        simp [keyEq] at hk
      · exact absurd hbx hnb
    have hkey := Node.leafAdd_key hk hn
    refine ⟨by rw [(leafAdd_rest hk).1]; exact h.innerp, by rw [(leafAdd_rest hk).2.1]; exact h.descp_eq,
      ?_, ?_, ?_, ?_⟩
    · rw [leafAdd_n hk]; split <;> omega
    · intro j hj
      rw [leafAdd_n hk] at hj
      rw [hkey j]
      by_cases hjp : j = addPos (t.seek (some x)) t.nulIdx
      · rw [if_pos hjp]; exact ⟨x, rfl, hlo, hhi⟩
      · rw [if_neg hjp]; exact h.keys _ (slot_bounds hnul hpos hjp hj)
    · intro i j a b hij hj ha hb
      rw [leafAdd_n hk] at hj
      rw [hkey] at ha hb
      by_cases hip : i = addPos (t.seek (some x)) t.nulIdx
      · rw [if_pos hip] at ha
        rw [if_neg (by omega)] at hb
        cases ha
        exact hafter _ b (slot_ge_of_gt (by omega)) (slot_bounds hnul hpos (by omega) hj) hb
      · rw [if_neg hip] at ha
        by_cases hjp : j = addPos (t.seek (some x)) t.nulIdx
        · rw [if_pos hjp] at hb
          cases hb
          have hlt : i < addPos (t.seek (some x)) t.nulIdx := by omega
          obtain ⟨c, hc, hcx⟩ := Node.seek_before (slot_lt_of_lt hlt)
          rw [hc] at ha; cases ha
          rwa [h.descp_eq] at hcx
        · rw [if_neg hjp] at hb
          exact h.sorted _ _ a b (slot_lt_slot hip hjp hij) (slot_bounds hnul hpos hjp hj) ha hb
    · intro j hj hj'
      rw [leafAdd_n hk] at hj
      rw [hkey, if_neg (by omega)]
      refine h.nan _ ?_ ?_
      · rw [slot_of_out (by split at hj <;> omega) (by omega)]; split at hj <;> omega
      · rw [slot_of_out (by split at hj <;> omega) (by omega)]; exact hj'

/-- 追加したキーは、返した添字にある。 -/
theorem Node.LeafOk.leafAdd_cell (h : t.LeafOk descp 62 lo hi) (x : K) :
    (t.leafAdd (some x)).2 < (t.leafAdd (some x)).1.n ∧
    (t.leafAdd (some x)).1.key.get (t.leafAdd (some x)).2 = some x := by
  have hsk := t.seek_le (some x)
  by_cases hk : keyEq (some x) (t.key.get (t.seek (some x))) = true
  · rw [leafAdd_found hk]
    obtain ⟨y, hy, hky⟩ := keyEq_iff.mp hk
    cases hy
    exact ⟨h.seek_lt_of_eq (by omega) hky, hky⟩
  · replace hk : keyEq (some x) (t.key.get (t.seek (some x))) = false := by simpa using hk
    rw [leafAdd_pos hk, leafAdd_n hk, leafAdd_key hk h.n_le, if_pos rfl]
    exact ⟨addPos_lt hsk t.nulIdx_le, rfl⟩

/-- `leaf_add` は、値が nil でない組を変えない。 -/
theorem Node.LeafOk.leafAdd_has (h : t.LeafOk descp 62 lo hi) {x y : K} {v : BtreeVal Q} (hv : v.nilP = false) :
    (t.leafAdd (some x)).1.Has y v ↔ t.Has y v := by
  have hn := h.n_le
  have hsk := t.seek_le (some x)
  have hnul := t.nulIdx_le
  by_cases hk : keyEq (some x) (t.key.get (t.seek (some x))) = true
  · rw [leafAdd_found hk]; exact Iff.rfl
  · replace hk : keyEq (some x) (t.key.get (t.seek (some x))) = false := by simpa using hk
    have hpos := addPos_lt hsk hnul
    constructor
    · rintro ⟨j, hj, hy, hjv⟩
      rw [leafAdd_n hk] at hj
      rw [leafAdd_key hk hn] at hy
      rw [leafAdd_value hk hn] at hjv
      by_cases hjp : j = addPos (t.seek (some x)) t.nulIdx
      · rw [if_pos hjp] at hjv
        subst hjv; simp [BtreeVal.nilP, BtreeVal.nil] at hv
      · rw [if_neg hjp] at hy hjv
        exact ⟨_, slot_bounds hnul hpos hjp hj, hy, hjv⟩
    · rintro ⟨m, hm, hy, hmv⟩
      have hne : m ≠ t.nulIdx := by
        rintro rfl
        rw [← hmv, Node.nulIdx_nil (by omega) hm] at hv; cases hv
      refine ⟨slot t.nulIdx (addPos (t.seek (some x)) t.nulIdx) m, ?_, ?_, ?_⟩
      · rw [leafAdd_n hk]; exact slot_bounds_symm hnul hm
      · rw [leafAdd_key hk hn, if_neg (slot_ne_hole hne), slot_slot hne]; exact hy
      · rw [leafAdd_value hk hn, if_neg (slot_ne_hole hne), slot_slot hne]; exact hmv

end Books.Btree
