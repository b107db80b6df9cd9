import Books.Btree.Lemmas.Shape

/-!
# 分割による親の並びの変化

`node_split` は、空いた子 `nul` の場所（なければ末尾）を、分ける子 `idx` の右へ寄せて `RGHT` を置く。子の新しい
位置は `addPos idx nul`、その右が `RGHT` の位置になる。
-/

set_option linter.unusedSectionVars false

namespace Books.Btree

open Books.Lib

variable {K Q : Type} [LinearOrder K] [LinearOrder Q] [Zero Q]
variable {descp : Bool} {lo hi : Option K} {p : Node K Q} {idx nul : Nat} {rght : Addr}

theorem splitShift_pos (p : Node K Q) (idx nul : Nat) : (splitShift p idx nul).2 = addPos idx nul := by
  unfold splitShift addPos
  by_cases h₁ : idx < nul
  · simp [h₁, show ¬ nul < idx by omega]
  · by_cases h₂ : nul < idx <;> simp [h₁, h₂]

theorem splitShift_rest (p : Node K Q) (idx nul : Nat) :
    (splitShift p idx nul).1.innerp = p.innerp ∧ (splitShift p idx nul).1.descp = p.descp ∧
    (splitShift p idx nul).1.next = p.next ∧ (splitShift p idx nul).1.splitp = p.splitp := by
  unfold splitShift
  split
  · exact ⟨rfl, rfl, rfl, rfl⟩
  · split <;> exact ⟨rfl, rfl, rfl, rfl⟩

theorem splitParent_rest (p : Node K Q) (idx nul : Nat) (s : Option K) (rght : Addr) :
    (splitParent p idx nul s rght).innerp = p.innerp ∧ (splitParent p idx nul s rght).descp = p.descp ∧
    (splitParent p idx nul s rght).next = p.next ∧ (splitParent p idx nul s rght).splitp = p.splitp :=
  splitShift_rest p idx nul

theorem splitParent_n (p : Node K Q) (idx nul : Nat) (s : Option K) (rght : Addr) :
    (splitParent p idx nul s rght).n = p.n + if p.n < nul then 1 else 0 := by
  by_cases h : p.n < nul <;> simp [splitParent, h]

section Index
variable (hn : p.n ≤ 62) (hidx : idx ≤ p.n) (hnul : nul ≤ p.n + 1) (hne : nul ≠ idx)
include hn hidx hnul hne

theorem splitParent_key (s : Option K) (rght : Addr) (i : Nat) : (splitParent p idx nul s rght).key.get i =
    if i = addPos idx nul then s else p.key.get (slot (addPos idx nul) nul i) := by
  have hpos : addPos idx nul < 64 := by unfold addPos; split <;> omega
  have he : (splitParent p idx nul s rght).key = (splitShift p idx nul).1.key.set (addPos idx nul) s := by
    simp [splitParent, splitShift_pos]
  rw [he, Arr.get_set _ _ _ hpos]
  by_cases hi : i = addPos idx nul
  · rw [if_pos hi, if_pos hi]
  · rw [if_neg hi, if_neg hi]
    unfold splitShift
    by_cases h₁ : idx < nul
    · have hp : addPos idx nul = idx := by simp [addPos, show ¬ nul < idx by omega]
      simp only [h₁, ↓reduceIte, hp]
      exact Arr.get_copy_up _ h₁ (by omega) i
    · have h₂ : nul < idx := by omega
      have hp : addPos idx nul = idx - 1 := by simp [addPos, h₂]
      simp only [h₁, h₂, ↓reduceIte, hp] at hi ⊢
      exact Arr.get_copy_down _ (by omega) (Or.inr (by omega)) (by omega) hi

theorem splitParent_kid (s : Option K) (rght : Addr) (i : Nat) : (splitParent p idx nul s rght).kid i =
    if i = addPos idx nul + 1 then rght else p.kid (slot (addPos idx nul + 1) nul i) := by
  have hpos : addPos idx nul + 1 < 64 := by unfold addPos; split <;> omega
  have he : (splitParent p idx nul s rght).val =
      (splitShift p idx nul).1.val.set (addPos idx nul + 1) (.t rght) := by
    simp [splitParent, splitShift_pos]
  rw [Node.kid, he, Arr.get_set _ _ _ hpos]
  by_cases hi : i = addPos idx nul + 1
  · rw [if_pos hi, if_pos hi]; rfl
  · rw [if_neg hi, if_neg hi]
    unfold splitShift
    by_cases h₁ : idx < nul
    · have hp : addPos idx nul = idx := by simp [addPos, show ¬ nul < idx by omega]
      simp only [h₁, ↓reduceIte, hp] at hi ⊢
      rw [Node.kid, Arr.get_copy_up _ h₁ (by omega) i]
      -- `i ≠ idx + 1` では、空ける位置が `idx` でも `idx + 1` でも読み出す添字は同じである。
      congr 2
      unfold slot
      by_cases h₂ : idx < i ∧ i ≤ nul
      · rw [if_pos h₂, if_pos (by omega)]
      · rw [if_neg h₂, if_neg (by omega), if_neg (by omega), if_neg (by omega)]
    · have h₂ : nul < idx := by omega
      have hp : addPos idx nul + 1 = idx := by simp only [addPos, h₂, ↓reduceIte]; omega
      simp only [h₁, h₂, ↓reduceIte, hp] at hi ⊢
      rw [Node.kid, Arr.get_copy_down _ (by omega) (Or.inl rfl) (by omega) hi]

/-- `RGHT` でない子は、空いた子でない元の子である。 -/
theorem kidSlot_bounds {i : Nat} (hi : i ≠ addPos idx nul + 1)
    (hin : i ≤ p.n + if p.n < nul then 1 else 0) :
    slot (addPos idx nul + 1) nul i ≤ p.n ∧ slot (addPos idx nul + 1) nul i ≠ nul := by
  refine ⟨?_, slot_ne_hole hi⟩
  unfold addPos at hi ⊢
  unfold slot
  split at hi <;> split at hin <;> simp_all only [↓reduceIte] <;> split <;> try omega
  all_goals split <;> omega

/-- 空いた子でない元の子には、新しい位置がある。 -/
theorem kidSlot_surj {m : Nat} (hm : m ≤ p.n) (hmn : m ≠ nul) :
    ∃ i, i ≠ addPos idx nul + 1 ∧ (i ≤ p.n + if p.n < nul then 1 else 0) ∧
      slot (addPos idx nul + 1) nul i = m := by
  refine ⟨slot nul (addPos idx nul + 1) m, slot_ne_hole hmn, ?_, slot_slot hmn⟩
  unfold addPos
  unfold slot
  by_cases h₁ : nul < idx <;> by_cases h₂ : p.n < nul <;> simp only [h₁, h₂, ↓reduceIte] <;> split <;> try omega
  all_goals split <;> omega

theorem kidSlot_chld : slot (addPos idx nul + 1) nul (addPos idx nul) = idx := by
  unfold addPos slot
  by_cases h₁ : nul < idx <;> simp only [h₁, ↓reduceIte]
  · rw [if_neg (by omega), if_pos (by omega)]; omega
  · rw [if_neg (by omega), if_neg (by omega)]

end Index

/-! ## 範囲 -/

section Range
variable {P : Nat → Addr → Option K → Option K → Prop} {s : K} (hp : p.TwigOk descp 62 lo hi P)
  (hidx : idx ≤ p.n) (hnul : nul ≤ p.n + 1) (hne : nul ≠ idx)
include hp

theorem Node.TwigOk.above_key {u w : Nat} {k : K} (huw : u ≤ w) (hw : w < p.n)
    (h : Above descp (p.key.get w) k) : Above descp (p.key.get u) k := by
  rcases Nat.lt_or_eq_of_le huw with hlt | rfl
  · obtain ⟨b, hb, _⟩ := hp.seps w hw
    intro l hl
    rw [hb] at h
    exact (hp.sorted u w l b hlt hw hl hb).trans (above_some.mp h)
  · exact h

theorem Node.TwigOk.above_lo {w : Nat} {k : K} (hw : w < p.n) (h : Above descp (p.key.get w) k) :
    Above descp lo k := by
  obtain ⟨b, hb, hlb, _⟩ := hp.seps w hw
  rw [hb] at h
  exact hlb.trans (above_some.mp h)

theorem Node.TwigOk.upto_hi {w : Nat} {k : K} (hw : w < p.n) (h : Upto descp (p.key.get w) k) :
    Upto descp hi k := by
  obtain ⟨b, hb, _, hbh⟩ := hp.seps w hw
  rw [hb] at h
  exact fun u hu huk => upto_some.mp h ((hbh u hu).trans huk)

theorem Node.TwigOk.below_hi {w : Nat} {k : K} (hw : w < p.n) (h : Below descp (p.key.get w) k) :
    Below descp hi k := by
  obtain ⟨b, hb, _, hbh⟩ := hp.seps w hw
  rw [hb] at h
  exact hbh.trans (below_some.mp h)

include hidx hnul hne

theorem splitParent_lower (s : Option K) (rght : Addr) {i : Nat} (hi' : i ≠ addPos idx nul + 1)
    (hin : i ≤ p.n + if p.n < nul then 1 else 0) {k : K}
    (h : Above descp (p.lower lo (slot (addPos idx nul + 1) nul i)) k) :
    Above descp ((splitParent p idx nul s rght).lower lo i) k := by
  have hn := hp.n_le
  have hb := kidSlot_bounds hn hidx hnul hne hi' hin
  unfold Node.lower at h ⊢
  by_cases h0 : i = 0
  · rw [if_pos h0]
    split at h
    · exact h
    · exact hp.above_lo (by omega) h
  · rw [if_neg h0, splitParent_key hn hidx hnul hne, if_neg (by omega)]
    have hm : slot (addPos idx nul + 1) nul i ≠ 0 ∧
        slot (addPos idx nul) nul (i - 1) ≤ slot (addPos idx nul + 1) nul i - 1 := by
      unfold addPos at hi' ⊢
      unfold slot
      by_cases h₁ : nul < idx <;> simp only [h₁, ↓reduceIte] at hi' ⊢ <;>
        constructor <;> split <;> try omega
      all_goals split <;> try omega
      all_goals split <;> try omega
      all_goals split <;> omega
    rw [if_neg hm.1] at h
    exact hp.above_key hm.2 (by omega) h

theorem splitParent_upper (s : Option K) (rght : Addr) {i : Nat} (hi₁ : i ≠ addPos idx nul)
    (hi₂ : i ≠ addPos idx nul + 1) :
    (splitParent p idx nul s rght).upper hi i = p.upper hi (slot (addPos idx nul + 1) nul i) ∨
    ((splitParent p idx nul s rght).upper hi i = hi ∧ slot (addPos idx nul + 1) nul i < p.n) := by
  have hn := hp.n_le
  unfold Node.upper
  rw [splitParent_n]
  by_cases hlt : i < p.n + if p.n < nul then 1 else 0
  · rw [if_pos hlt, splitParent_key hn hidx hnul hne, if_neg hi₁, slot_succ hi₁ hi₂]
    left
    rw [if_pos]
    unfold addPos at hi₁ hi₂ ⊢
    unfold slot
    by_cases h₁ : nul < idx <;> by_cases h₂ : p.n < nul <;> simp only [h₁, h₂, ↓reduceIte] at hlt hi₁ hi₂ ⊢ <;>
      split <;> try omega
    all_goals split <;> omega
  · rw [if_neg hlt]
    by_cases hm : slot (addPos idx nul + 1) nul i < p.n
    · exact Or.inr ⟨rfl, hm⟩
    · rw [if_neg hm]; exact Or.inl rfl

theorem splitParent_upper_rght (s : Option K) (rght : Addr) :
    (splitParent p idx nul s rght).upper hi (addPos idx nul + 1) = p.upper hi idx ∨
    ((splitParent p idx nul s rght).upper hi (addPos idx nul + 1) = hi ∧ idx < p.n) := by
  have hn := hp.n_le
  unfold Node.upper
  rw [splitParent_n]
  by_cases hlt : addPos idx nul + 1 < p.n + if p.n < nul then 1 else 0
  · have he : slot (addPos idx nul) nul (addPos idx nul + 1) = idx := by
      by_cases h₁ : nul < idx
      · have hp : addPos idx nul = idx - 1 := by simp [addPos, h₁]
        rw [hp, slot_of_out (by omega) (by omega)]; omega
      · have hp : addPos idx nul = idx := by simp [addPos, h₁]
        rw [hp, slot_of_up (by omega)]; rfl
    rw [if_pos hlt, splitParent_key hn hidx hnul hne, if_neg (by omega), he]
    left
    rw [if_pos]
    unfold addPos at hlt
    by_cases h₁ : nul < idx <;> by_cases h₂ : p.n < nul <;> simp only [h₁, h₂, ↓reduceIte] at hlt <;> omega
  · rw [if_neg hlt]
    by_cases hm : idx < p.n
    · exact Or.inr ⟨rfl, hm⟩
    · rw [if_neg hm]; exact Or.inl rfl

theorem addPos_lt_n : addPos idx nul < p.n + if p.n < nul then 1 else 0 := by
  unfold addPos
  by_cases h₁ : nul < idx <;> by_cases h₂ : p.n < nul <;> simp only [h₁, h₂, ↓reduceIte] <;> omega

/-- 分けた後の親の区切りと子の条件。`P'` は新しい子の条件で、端を広げても保たれる。 -/
theorem splitParent_twigOk {P' : Nat → Addr → Option K → Option K → Prop}
    (hs₁ : Above descp (p.lower lo idx) s) (hs₂ : Below descp (p.upper hi idx) s)
    (hold : ∀ i m c l u l' u', i ≠ addPos idx nul → i ≠ addPos idx nul + 1 → m ≤ p.n → m ≠ nul → m ≠ idx →
      P m c l u → Wider descp l u l' u' → P' i c l' u')
    (hchld : ∀ l', (∀ k, Above descp (p.lower lo idx) k → Above descp l' k) →
      P' (addPos idx nul) (p.kid idx) l' (some s))
    (hrght : ∀ u', Wider descp (some s) (p.upper hi idx) (some s) u' → P' (addPos idx nul + 1) rght (some s) u') :
    (splitParent p idx nul (some s) rght).TwigOk descp 63 lo hi P' := by
  have hn := hp.n_le
  have hkey := splitParent_key hn hidx hnul hne (some s) rght
  have hkid := splitParent_kid hn hidx hnul hne (some s) rght
  have hlo : Above descp lo s := by
    unfold Node.lower at hs₁
    split at hs₁
    · exact hs₁
    · exact hp.above_lo (by omega) hs₁
  have hhi : Below descp hi s := by
    unfold Node.upper at hs₂
    split at hs₂
    · exact hp.below_hi ‹_› hs₂
    · exact hs₂
  have hslot : ∀ i, i ≠ addPos idx nul → i < p.n + (if p.n < nul then 1 else 0) →
      slot (addPos idx nul) nul i < p.n := by
    intro i hi₁ hin
    unfold addPos at hi₁ ⊢
    unfold slot
    by_cases h₁ : nul < idx <;> by_cases h₂ : p.n < nul <;> simp only [h₁, h₂, ↓reduceIte] at hi₁ hin ⊢ <;>
      split <;> try omega
    all_goals split <;> omega
  -- 位置 `addPos idx nul` より手前の区切りは `s` より前、後の区切りは `s` より後にある。
  have hleft : ∀ i b, i < addPos idx nul → p.key.get (slot (addPos idx nul) nul i) = some b → Before descp b s := by
    intro i b hlt hb
    have hm : slot (addPos idx nul) nul i < idx := slot_lt_of_lt hlt
    have hab := hs₁
    rw [Node.lower, if_neg (by omega)] at hab
    exact hp.above_key (u := slot (addPos idx nul) nul i) (w := idx - 1) (by omega) (by omega) hab b hb
  have hright : ∀ i b, addPos idx nul < i → i < p.n + (if p.n < nul then 1 else 0) →
      p.key.get (slot (addPos idx nul) nul i) = some b → Before descp s b := by
    intro i b hlt hin hb
    have hm : idx ≤ slot (addPos idx nul) nul i := slot_ge_of_gt hlt
    have hm' := hslot i (by omega) hin
    have hbe := hs₂
    rw [Node.upper, if_pos (by omega)] at hbe
    obtain ⟨e, he, _⟩ := hp.seps idx (by omega)
    rw [he, below_some] at hbe
    rcases Nat.lt_or_eq_of_le hm with hlt' | heq
    · exact hbe.trans (hp.sorted _ _ e b hlt' hm' he hb)
    · rw [← heq, he] at hb; cases hb; exact hbe
  refine ⟨by rw [(splitParent_rest _ _ _ _ _).1]; exact hp.innerp,
    by rw [(splitParent_rest _ _ _ _ _).2.1]; exact hp.descp_eq, ?_, ?_, ?_, ?_, ?_⟩
  · have := hp.one_le; rw [splitParent_n]; omega
  · rw [splitParent_n]; split <;> omega
  · intro i hin
    rw [splitParent_n] at hin
    rw [hkey]
    by_cases hi₁ : i = addPos idx nul
    · rw [if_pos hi₁]; exact ⟨s, rfl, hlo, hhi⟩
    · rw [if_neg hi₁]; exact hp.seps _ (hslot i hi₁ hin)
  · intro i j b e hij hj hb he
    rw [splitParent_n] at hj
    rw [hkey] at hb he
    by_cases hi₁ : i = addPos idx nul
    · rw [if_pos hi₁] at hb
      rw [if_neg (by omega)] at he
      cases hb
      exact hright j e (by omega) hj he
    · rw [if_neg hi₁] at hb
      by_cases hj₁ : j = addPos idx nul
      · rw [if_pos hj₁] at he
        cases he
        exact hleft i b (by omega) hb
      · rw [if_neg hj₁] at he
        exact hp.sorted _ _ b e (slot_lt_slot hi₁ hj₁ hij) (hslot j hj₁ hj) hb he
  · intro i hin
    rw [splitParent_n] at hin
    rw [hkid]
    by_cases hi₂ : i = addPos idx nul + 1
    · rw [if_pos hi₂]
      have hl : (splitParent p idx nul (some s) rght).lower lo i = some s := by
        rw [Node.lower, if_neg (by omega), hkey, if_pos (by omega)]
      rw [hl, hi₂]
      apply hrght
      rcases splitParent_upper_rght hp hidx hnul hne (some s) rght with he | ⟨he, hlt⟩
      · rw [he]; exact Wider.refl _ _
      · rw [he, Node.upper, if_pos hlt]
        exact ⟨fun _ h => h, fun _ h => hp.upto_hi hlt h, fun _ h => hp.below_hi hlt h⟩
    · rw [if_neg hi₂]
      have hb := kidSlot_bounds hn hidx hnul hne hi₂ hin
      by_cases hi₁ : i = addPos idx nul
      · have hu : (splitParent p idx nul (some s) rght).upper hi i = some s := by
          rw [Node.upper, if_pos, hkey, if_pos hi₁]
          rw [splitParent_n, hi₁]; exact addPos_lt_n hp hidx hnul hne
        have hm : slot (addPos idx nul + 1) nul i = idx := by
          rw [hi₁]; exact kidSlot_chld hn hidx hnul hne
        rw [hu, hm, hi₁]
        apply hchld
        intro k hk
        rw [← hi₁]
        exact splitParent_lower hp hidx hnul hne (some s) rght hi₂ hin (by rw [hm]; exact hk)
      · have hmi : slot (addPos idx nul + 1) nul i ≠ idx := by
          intro he
          have hc := kidSlot_chld hn hidx hnul hne
          rcases Nat.lt_or_gt_of_ne hi₁ with hlt | hlt
          · have hlt' : slot (addPos idx nul + 1) nul i < slot (addPos idx nul + 1) nul (addPos idx nul) :=
              slot_lt_slot hi₂ (by omega) hlt
            omega
          · have hlt' : slot (addPos idx nul + 1) nul (addPos idx nul) < slot (addPos idx nul + 1) nul i :=
              slot_lt_slot (by omega) hi₂ hlt
            omega
        refine hold i _ _ _ _ _ _ hi₁ hi₂ hb.1 hb.2 hmi (hp.kids _ hb.1) ⟨fun k hk => ?_, fun k hk => ?_, fun k hk => ?_⟩
        · exact splitParent_lower hp hidx hnul hne (some s) rght hi₂ hin hk
        · rcases splitParent_upper hp hidx hnul hne (some s) rght hi₁ hi₂ with he | ⟨he, hlt⟩
          · rw [he]; exact hk
          · rw [he]; rw [Node.upper, if_pos hlt] at hk; exact hp.upto_hi hlt hk
        · rcases splitParent_upper hp hidx hnul hne (some s) rght hi₁ hi₂ with he | ⟨he, hlt⟩
          · rw [he]; exact hk
          · rw [he]; rw [Node.upper, if_pos hlt] at hk; exact hp.below_hi hlt hk

end Range

end Books.Btree
