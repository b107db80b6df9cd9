import Books.Book.Lemmas.Ideal

/-!
# 理想の木の上の `book_add`

`book_add` の枝ごとに、木に入っている値がどう変わるかを述べる。
-/

set_option linter.unusedSectionVars false

namespace Books.Book

open Books.Btree

variable {K Q : Type} [LinearOrder K] [Zero K] [LinearOrder Q] [AddCommGroup Q]
variable {b : Book (OrdMap K Q)} {s s' : Bool} {q : BookQuo K Q} {p k : K} {x : Q} {t : Tv}

theorem bookAdd_side (hs : q.s = sideOf s) : bookAdd b q = addLvl b s q := by
  cases s <;> simp [bookAdd, hs, sideOf]

theorem stored_set {m : OrdMap K Q s} : (b.set s m).stored s' k = if h : s' = s then m.val k else b.stored s' k := by
  split
  · rename_i h
    subst h
    rw [Book.stored, Book.get_set_eq]
  · rename_i h
    rw [Book.stored, Book.get_set_ne b m h]; rfl

theorem stored_putVal {f : BtreeVal Q → BtreeVal Q} : (b.set s (putVal (b.get s) (some p) f).1).stored s' k =
    if s' = s ∧ k = p then f (b.stored s p) else b.stored s' k := by
  rw [stored_set]
  by_cases hs : s' = s
  · subst hs
    rw [dif_pos rfl, putVal_val]
    simp [Book.stored]
  · rw [dif_neg hs, if_neg (fun h => hs h.1)]

/-- 値が見える限り、手前の値の数量を 0 にし、`p` の数量を減らす。 -/
theorem delSide_val {m : OrdMap K Q s} {past go : Option K → Option K → Bool}
    (hpast : ∀ k p : K, past (some k) (some p) = decide (Before s k p))
    (hgo : ∀ k p : K, go (some k) (some p) = !decide (Before s p k)) (hp : q.p = some p) (k : K) :
    (delSide past go q m).val k =
      if (m.val k).nilP = false ∧ ¬ Before s p k then
        { m.val k with q := if Before s k p then 0 else (m.val k).q - q.q }
      else m.val k := by
  have hmono : ∀ a c : K, Before s a c → go (some c) (some p) = true → go (some a) (some p) = true := by
    intro a c hac hc
    rw [hgo, Bool.not_eq_true', decide_eq_false_iff_not] at hc ⊢
    exact fun hpa => hc (hpa.trans hac)
  have hloop := eachVal_val (fun k => go k q.p) (fun k v => { v with q := if past k q.p then 0 else v.q - q.q })
    (m.rest none) (m.keys.length + 1) m none rfl (Nat.lt_succ_of_le (m.rest_length none)) k
  have hmem : k ∈ (m.rest none).takeWhile (fun k => go (some k) (some p)) ↔
      (m.val k).nilP = false ∧ ¬ Before s p k := by
    rw [mem_takeWhile_sorted (m.rest_sorted none) hmono, OrdMap.mem_rest_none, hgo, Bool.not_eq_true',
      decide_eq_false_iff_not]
  refine hloop.trans ?_
  rw [hp]
  simp only [hmem, hpast, decide_eq_true_eq]

theorem pxLe_eq (a c : K) : pxLe (some a) (some c) = !decide (c < a) := by
  simp [pxLe, ← not_lt]

theorem delSide_ask_val {m : OrdMap K Q false} (hp : q.p = some p) (k : K) : (delSide pxLt pxLe q m).val k =
    if (m.val k).nilP = false ∧ ¬ Before false p k then
      { m.val k with q := if Before false k p then 0 else (m.val k).q - q.q }
    else m.val k :=
  delSide_val (fun k p => by simp [pxLt, Before]) (fun k p => by simp [pxLe_eq, Before]) hp k

theorem delSide_bid_val {m : OrdMap K Q true} (hp : q.p = some p) (k : K) :
    (delSide (fun k p => pxLt p k) (fun k p => pxLe p k) q m).val k =
    if (m.val k).nilP = false ∧ ¬ Before true p k then
      { m.val k with q := if Before true k p then 0 else (m.val k).q - q.q }
    else m.val k :=
  delSide_val (fun k p => by simp [pxLt, Before]) (fun k p => by simp [pxLe_eq, Before]) hp k

/-! ## 枝ごとの値 -/

theorem stored_lvl2 (hs : q.s = sideOf s) (hf : q.f = .lvl2) (hp : q.p = some p) (s' : Bool) (k : K) :
    (bookAdd b q).1.stored s' k = if s' = s ∧ k = p then ⟨q.q, q.t⟩ else b.stored s' k := by
  rw [bookAdd_side hs, addLvl, hf, hp]
  exact stored_putVal

theorem stored_lvl3 (hs : q.s = sideOf s) (hf : q.f = .lvl3) (hp : q.p = some p) (s' : Bool) (k : K) :
    (bookAdd b q).1.stored s' k = if s' = s ∧ k = p then
      ⟨if 0 ≤ q.q + (b.stored s p).q then q.q + (b.stored s p).q else 0, q.t⟩ else b.stored s' k := by
  rw [bookAdd_side hs, addLvl, hf, hp]
  exact stored_putVal

theorem stored_clr_side {m : OrdMap K Q s} (hm : ∀ k, m.val k = .nil) : (b.set s m).stored s' k =
    if s' = s then .nil else b.stored s' k := by
  rw [stored_set]
  by_cases hs : s' = s
  · rw [dif_pos hs, if_pos hs, hm]
  · rw [dif_neg hs, if_neg hs]

theorem stored_lvl1 (hs : q.s = sideOf s) (hf : q.f = .lvl1) (hp : q.p = some p) (hq : ¬ q.q < 0) (s' : Bool) (k : K) :
    (bookAdd b q).1.stored s' k =
      if s' = s then (if k = p then ⟨q.q, q.t⟩ else .nil) else b.stored s' k := by
  rw [bookAdd_side hs, addLvl, hf, hp]
  simp only [if_neg hq, Option.isNone_some, Bool.false_eq_true, ↓reduceIte]
  rw [stored_set]
  by_cases hs' : s' = s
  · rw [dif_pos hs', if_pos hs', putVal_val, clr_val]
  · rw [dif_neg hs', if_neg hs']

/-- 数量が負のレベル 1 とレベル 0 の気配は、受け付けない。 -/
theorem bookAdd_lvl1_neg (hs : q.s = sideOf s) (hf : q.f = .lvl1) (hq : q.q < 0) : bookAdd b q = (b, notAQuo) := by
  rw [bookAdd_side hs, addLvl, hf]
  simp only [if_pos hq]

theorem bookAdd_lvl0 (hs : q.s = sideOf s) (hf : q.f = .lvl0) : bookAdd b q = (b, notAQuo) := by
  rw [bookAdd_side hs, addLvl, hf]

/-- 気配値が NaN のレベル 1 の気配は、側を空にする。 -/
theorem stored_lvl1_none (hs : q.s = sideOf s) (hf : q.f = .lvl1) (hp : q.p = none) (hq : ¬ q.q < 0) (s' : Bool)
    (k : K) : (bookAdd b q).1.stored s' k = if s' = s then .nil else b.stored s' k := by
  rw [bookAdd_side hs, addLvl, hf, hp]
  simp only [if_neg hq, Option.isNone_none, ↓reduceIte]
  exact stored_clr_side (fun k => clr_val _ k)

theorem stored_clr (hs : q.s = .clr) (s' : Bool) (k : K) : (bookAdd b q).1.stored s' k = .nil := by
  rw [bookAdd, hs]
  cases s' <;> rfl

theorem stored_del (hs : q.s = .del) (hp : q.p = some p) (s' : Bool) (k : K) : (bookAdd b q).1.stored s' k =
    if (b.stored s' k).nilP = false ∧ ¬ Before s' p k then
      { b.stored s' k with q := if Before s' k p then 0 else (b.stored s' k).q - q.q }
    else b.stored s' k := by
  rw [bookAdd, hs]
  cases s' with
  | false => exact delSide_ask_val hp k
  | true => exact delSide_bid_val hp k

theorem delSide_none {m : OrdMap K Q s} {past go : Option K → Option K → Bool} (hgo : ∀ k, go k none = false)
    (hp : q.p = none) : delSide past go q m = m := by
  have hstep : ∀ (f : Option K → BtreeVal Q → BtreeVal Q) (n : Nat),
      eachVal (fun k => go k none) f (n + 1) m (BTree.iter (T := OrdMap K Q)) = m := by
    intro f n
    rw [eachVal]
    simp only [hgo, Bool.and_false, Bool.false_eq_true, ↓reduceIte]
    rfl
  rw [delSide, hp]
  exact hstep _ m.keys.length

theorem pxLe_none (k : Option K) : pxLe k none = false := by
  cases k <;> rfl

/-- 気配値のない DEL は、板を変えない。 -/
theorem bookAdd_del_none (hs : q.s = .del) (hp : q.p = none) : (bookAdd b q).1 = b := by
  have hask : delSide pxLt pxLe q b.ask = b.ask := delSide_none pxLe_none hp
  have hbid : delSide (fun k p => pxLt p k) (fun k p => pxLe p k) q b.bid = b.bid := delSide_none (fun _ => rfl) hp
  rw [bookAdd, hs]
  simp only [hask, hbid]

theorem bookAdd_none (hs : q.s = sideOf s) (hf : q.f = .lvl2 ∨ q.f = .lvl3) (hp : q.p = none) :
    (bookAdd b q).1 = b := by
  rw [bookAdd_side hs, addLvl, hp]
  rcases hf with hf | hf
  · rw [hf]; exact b.set_get s
  · rw [hf]; exact b.set_get s

/-! ## 返す気配 -/

theorem bookAdd_old (hs : q.s = sideOf s) (hf : q.f = .lvl2 ∨ q.f = .lvl3) (hp : q.p = some p) :
    (bookAdd b q).2 = { q with q := (b.stored s p).q, t := (b.stored s p).t } := by
  rw [bookAdd_side hs, addLvl, hp]
  rcases hf with hf | hf
  · rw [hf]; simp only [putVal_old]; rfl
  · rw [hf]; simp only [putVal_old]; rfl

/-- レベル 1 の気配は、側を空にした後の値を返す。 -/
theorem bookAdd_old_lvl1 (hs : q.s = sideOf s) (hf : q.f = .lvl1) (hp : q.p = some p) (hq : ¬ q.q < 0) :
    (bookAdd b q).2 = { q with q := 0, t := 0 } := by
  rw [bookAdd_side hs, addLvl, hf, hp]
  simp only [if_neg hq, Option.isNone_some, Bool.false_eq_true, ↓reduceIte, putVal_old, clr_val]
  rfl

/-! ## 負の数量 -/

theorem shown_q (v : BtreeVal Q) : (shown v).q = max 0 v.q := by
  cases hv : v.nilP with
  | true => rw [shown_of_nil hv]; exact (max_eq_left (of_decide_eq_true hv)).symm
  | false => rw [shown_of_live hv]; exact (max_eq_right (not_le.mp (of_decide_eq_false hv)).le).symm

/-- 負の数量を残さない気配は、木の数量を負にしない。 -/
theorem stored_nonneg [IsOrderedAddMonoid Q] (hb : ∀ s k, 0 ≤ (b.stored s k).q) (hq : overdraws b q = false) (s : Bool) (k : K) :
    0 ≤ ((bookAdd b q).1.stored s k).q := by
  have hside : ∀ s₀, q.s = sideOf s₀ → (q.f = .lvl2 → ¬ q.q < 0) → 0 ≤ ((bookAdd b q).1.stored s k).q := by
    intro s₀ hs hneg
    cases hf : q.f with
    | lvl0 => rw [bookAdd_lvl0 hs hf]; exact hb s k
    | lvl1 =>
        by_cases hx : q.q < 0
        · rw [bookAdd_lvl1_neg hs hf hx]; exact hb s k
        · cases hp : q.p with
          | none =>
              rw [stored_lvl1_none hs hf hp hx]
              split
              · exact le_rfl
              · exact hb s k
          | some p =>
              rw [stored_lvl1 hs hf hp hx]
              split
              · split
                · exact not_lt.mp hx
                · exact le_rfl
              · exact hb s k
    | lvl2 =>
        cases hp : q.p with
        | none => rw [bookAdd_none hs (Or.inl hf) hp]; exact hb s k
        | some p =>
            rw [stored_lvl2 hs hf hp]
            split
            · exact not_lt.mp (hneg hf)
            · exact hb s k
    | lvl3 =>
        cases hp : q.p with
        | none => rw [bookAdd_none hs (Or.inr hf) hp]; exact hb s k
        | some p =>
            rw [stored_lvl3 hs hf hp]
            split
            · split
              · rename_i hle; exact hle
              · exact le_rfl
            · exact hb s k
  unfold overdraws at hq
  cases hs : q.s with
  | unk => rw [bookAdd, hs]; exact hb s k
  | ask => exact hside false hs (fun hf hx => by simp [hs, hf, hx] at hq)
  | bid => exact hside true hs (fun hf hx => by simp [hs, hf, hx] at hq)
  | clr => rw [stored_clr hs]; exact le_rfl
  | del =>
      cases hp : q.p with
      | none => rw [bookAdd_del_none hs hp]; exact hb s k
      | some p =>
          rw [stored_del hs hp]
          split
          · rename_i hv
            split
            · exact le_rfl
            · rename_i hpk
              have hk : k = p := by
                rcases before_trichotomy s k p with h | h | h
                · exact absurd h hpk
                · exact h
                · exact absurd h hv.2
              subst hk
              have hl : b.lacks s k q.q = false := by
                rw [hs, hp] at hq
                obtain ⟨h₁, h₂⟩ := Bool.or_eq_false_iff.mp hq
                cases s with
                | false => exact h₁
                | true => exact h₂
              rw [Book.lacks, Book.visible, nilP_shown, hv.1, shown_of_live hv.1] at hl
              exact sub_nonneg.mpr (not_lt.mp (of_decide_eq_false hl))
          · exact hb s k
  | other n => rw [bookAdd, hs]; exact hb s k

end Books.Book
