import Books.Consol.Lemmas.Fill

/-!
# まとめた気配の列
-/

set_option linter.unusedSectionVars false

namespace Books.Book

open Books.Btree Books.Lib

variable {K Q : Type} [LinearOrder K] [Zero K] [LinearOrder Q] [Field Q]
variable {R R' : Quantize K Q} {b : Book (OrdMap K Q)} {s : Bool} {t t' q v : Q} {n : Nat} {f : Fill K Q}
variable {go : Q → Q → Q → Bool} {pre post ls : List (Level K Q)} {l : Level K Q}

/-! ## 列の写し -/

section MapM
variable {α β γ : Type} {g : α → Option β}

theorem mapM_some : ∀ {xs : List α}, (∀ x ∈ xs, ∃ y, g x = some y) →
    ∃ ys, xs.mapM g = some ys ∧ ys.length = xs.length ∧ ∀ j (hj : j < xs.length) (hj' : j < ys.length), g xs[j] = some ys[j]
  | [], _ => ⟨[], rfl, rfl, fun j hj => absurd hj (Nat.not_lt_zero j)⟩
  | x :: xs, h => by
      obtain ⟨y, hy⟩ := h x List.mem_cons_self
      obtain ⟨ys, hys, hlen, hget⟩ := mapM_some fun a ha => h a (List.mem_cons_of_mem x ha)
      refine ⟨y :: ys, by rw [List.mapM_cons, hy, hys]; rfl, congrArg Nat.succ hlen, fun j hj hj' => ?_⟩
      cases j with
      | zero => exact hy
      | succ j => exact hget j (Nat.lt_of_succ_lt_succ hj) (Nat.lt_of_succ_lt_succ hj')

theorem mapM_map (h : β → γ) : ∀ xs : List α, xs.mapM (fun x => (g x).map h) = (xs.mapM g).map (List.map h)
  | [] => rfl
  | x :: xs => by
      rw [List.mapM_cons, List.mapM_cons, mapM_map h xs]
      cases g x with
      | none => rfl
      | some y => cases xs.mapM g <;> rfl

end MapM

/-! ## コードの形 -/

theorem ctopsLoop_eq (R : Quantize K Q) (q : Q) : ∀ (n : Nat) (t : Q) (f : Fill K Q),
    ctopsLoop R q n t f = ((stops R qtyGo q n t f).mapM (readStop (qtyRaw R))).map (List.map (RawQuo.entry R))
  | 0, _, _ => rfl
  | n + 1, t, f => by
      rw [ctopsLoop, stops, ← fillQty_eq]
      simp only [qtyGo, decide_eq_true_eq]
      split
      · rfl
      · rw [ctopsLoop_eq R q n, List.mapM_cons, readStop]
        cases (fillQty R t f).i with
        | none => rfl
        | some l => cases (stops R qtyGo q n (t + q) (fillQty R t f)).mapM (readStop (qtyRaw R)) <;> rfl

theorem ctopsOnlyP_eq (R : Quantize K Q) (q : Q) : ∀ (n : Nat) (t : Q) (f : Fill K Q),
    ctopsOnlyP R q n t f = (ctopsLoop R q n t f).map (List.map Prod.fst)
  | 0, _, _ => rfl
  | n + 1, t, f => by
      rw [ctopsOnlyP, ctopsLoop]
      split
      · rfl
      · rw [ctopsOnlyP_eq R q n]
        cases (fillQty R t f).i with
        | none => rfl
        | some l => cases ctopsLoop R q n (t + q) (fillQty R t f) <;> rfl

theorem vtopsLoop_eq (R : Quantize K Q) (v : Q) : ∀ (n : Nat) (t : Q) (f : Fill K Q),
    vtopsLoop R v n t f = ((stops R valueGo v n t f).mapM (readStop (valueRaw R))).map (List.map (RawQuo.entry R))
  | 0, _, _ => rfl
  | n + 1, t, f => by
      rw [vtopsLoop, stops, ← fillValue_eq]
      simp only [valueGo, decide_eq_true_eq]
      split
      · rfl
      · rw [vtopsLoop_eq R v n, List.mapM_cons, readStop]
        cases (fillValue R t f).i with
        | none => rfl
        | some l => cases (stops R valueGo v n (t + v) (fillValue R t f)).mapM (readStop (valueRaw R)) <;> rfl

theorem vtopsOnlyP_eq (R : Quantize K Q) (v : Q) : ∀ (n : Nat) (t : Q) (f : Fill K Q),
    vtopsOnlyP R v n t f = (vtopsLoop R v n t f).map (List.map Prod.fst)
  | 0, _, _ => rfl
  | n + 1, t, f => by
      rw [vtopsOnlyP, vtopsLoop]
      simp only
      split
      · rfl
      · rw [vtopsOnlyP_eq R v n]
        cases (fillValue R t f).i with
        | none => rfl
        | some l => cases vtopsLoop R v n (t + v) (fillValue R t f) <;> rfl

theorem bookCtop_eq (R : Quantize K Q) (b : Book (OrdMap K Q)) (s : Bool) (t : Q) : bookCtop R b s t =
    if qtyGo t (fillTo R qtyGo t (.start b s)).c (fillTo R qtyGo t (.start b s)).C then some notAQuo
    else (readStop (qtyRaw R) (t, fillTo R qtyGo t (.start b s))).map fun x => x.top R s := by
  rw [bookCtop, ← fillQty_eq]
  simp only [qtyGo, decide_eq_true_eq]
  split
  · rfl
  · rename_i hge
    rw [readStop]
    cases (fillQty R t (.start b s)).i with
    | none => rfl
    | some l =>
        have hP : (if t < (fillQty R t (.start b s)).C then
            (fillQty R t (.start b s)).c - R.val l.k * ((fillQty R t (.start b s)).C - t) else (fillQty R t (.start b s)).c) =
            (fillQty R t (.start b s)).c - R.val l.k * ((fillQty R t (.start b s)).C - t) := by
          split
          · rfl
          · rename_i hle
            rw [le_antisymm (not_lt.1 hle) (not_lt.1 hge), sub_self, mul_zero, sub_zero]
        exact congrArg (fun P => some (RawQuo.top R ⟨P / t, t, l⟩ s)) hP

theorem bookVtop_eq (R : Quantize K Q) (b : Book (OrdMap K Q)) (s : Bool) (t : Q) : bookVtop R b s t =
    if valueGo t (fillTo R valueGo t (.start b s)).c (fillTo R valueGo t (.start b s)).C then some notAQuo
    else (readStop (valueRaw R) (t, fillTo R valueGo t (.start b s))).map fun x => x.top R s := by
  rw [bookVtop, ← fillValue_eq]
  simp only [valueGo, decide_eq_true_eq]
  split
  · rfl
  · rename_i hge
    rw [readStop]
    cases (fillValue R t (.start b s)).i with
    | none => rfl
    | some l =>
        have hx : (if t < (fillValue R t (.start b s)).c then
            (fillValue R t (.start b s)).C - ((fillValue R t (.start b s)).c - t) / R.val l.k
            else (fillValue R t (.start b s)).C) =
            (fillValue R t (.start b s)).C - ((fillValue R t (.start b s)).c - t) / R.val l.k := by
          split
          · rfl
          · rename_i hle
            rw [le_antisymm (not_lt.1 hle) (not_lt.1 hge), sub_self, zero_div, sub_zero]
        exact congrArg (fun x => some (RawQuo.top R ⟨t / x, x, l⟩ s)) hx

theorem stops_congr (h : R.val = R'.val) (go : Q → Q → Q → Bool) (q : Q) : ∀ (n : Nat) (t : Q) (f : Fill K Q),
    stops R go q n t f = stops R' go q n t f
  | 0, _, _ => rfl
  | n + 1, t, f => by
      have hfill : fillTo R go t f = fillTo R' go t f := fill_congr h (go t) f.rest f.c f.C f.i
      rw [stops, stops, hfill, stops_congr h go q n]

/-! ## 届いた目標 -/

theorem Reaches.qty (h : Reaches R qtyGo t ls pre l post) : amount qtyOf pre < t ∧ t ≤ amount qtyOf pre + qtyOf l := by
  have hreached := of_decide_eq_false h.reached
  rw [amount_append, amount_cons, amount_nil, add_zero, not_lt] at hreached
  exact ⟨of_decide_eq_true h.before, hreached⟩

theorem Reaches.value (h : Reaches R valueGo t ls pre l post) :
    worth R.price qtyOf pre < t ∧ t ≤ worth R.price qtyOf pre + R.price l * qtyOf l := by
  have hreached := of_decide_eq_false h.reached
  rw [worth_append, worth_cons, worth_nil, add_zero, not_lt] at hreached
  exact ⟨of_decide_eq_true h.before, hreached⟩

variable [IsStrictOrderedRing Q]

/-- 数量の目標に届いたときの気配値は、取る費用の平均である。 -/
theorem Reaches.qtyRaw_eq (h : Reaches R qtyGo t ls pre l post) (hw : ∀ a ∈ ls, 0 < qtyOf a) :
    qtyRaw R t (.after R (pre ++ [l]) post) l = ⟨cost R.price qtyOf ls t / t, t, l⟩ := by
  obtain ⟨hlo, hhi⟩ := h.qty
  have hcost : worth R.price qtyOf (pre ++ [l]) - R.val l.k * (amount qtyOf (pre ++ [l]) - t) = cost R.price qtyOf ls t := by
    rw [h.split, cost_split (by rwa [← h.split]) hlo.le hhi, worth_append, worth_cons, worth_nil, amount_append, amount_cons,
      amount_nil, Quantize.price]
    ring
  exact congrArg (fun c => (⟨c / t, t, l⟩ : RawQuo K Q)) hcost

/-- 金額の目標に届いたときの気配値は、正である。 -/
theorem Reaches.price_pos (h : Reaches R valueGo t ls pre l post) (hw : ∀ a ∈ ls, 0 < qtyOf a) : 0 < R.price l := by
  obtain ⟨hlo, hhi⟩ := h.value
  have hl : 0 < qtyOf l := hw l (by rw [h.split]; simp)
  have hpos : 0 < R.price l * qtyOf l := by linarith
  exact (mul_pos_iff_of_pos_right hl).1 hpos

theorem Reaches.valueRaw_eq (h : Reaches R valueGo t ls pre l post) (hw : ∀ a ∈ ls, 0 < qtyOf a) :
    valueRaw R t (.after R (pre ++ [l]) post) l =
      ⟨t / (amount qtyOf pre + (t - worth R.price qtyOf pre) / R.price l),
        amount qtyOf pre + (t - worth R.price qtyOf pre) / R.price l, l⟩ := by
  have hp : R.price l ≠ 0 := (h.price_pos hw).ne'
  have hover : (worth R.price qtyOf (pre ++ [l]) - t) / R.price l =
      qtyOf l - (t - worth R.price qtyOf pre) / R.price l := by
    rw [div_eq_iff hp, sub_mul, div_mul_cancel₀ _ hp, worth_append, worth_cons, worth_nil]
    ring
  have hqty : amount qtyOf (pre ++ [l]) - (worth R.price qtyOf (pre ++ [l]) - t) / R.price l =
      amount qtyOf pre + (t - worth R.price qtyOf pre) / R.price l := by
    rw [hover, amount_append, amount_cons, amount_nil]
    ring
  exact congrArg (fun x => (⟨t / x, x, l⟩ : RawQuo K Q)) hqty

/-- 足りる目標では、目標に届く気配から作る。 -/
theorem readStop_eq (raw : Q → Fill K Q → Level K Q → RawQuo K Q) (h0 : go t 0 0 = true)
    (h : go t (fillTo R go t (.start b s)).c (fillTo R go t (.start b s)).C = false) :
    ∃ pre l post, Reaches R go t (sideLevels b s) pre l post ∧
      readStop raw (t, fillTo R go t (.start b s)) = some (raw t (.after R (pre ++ [l]) post) l) := by
  obtain ⟨pre, l, post, hr, hfill⟩ := fillTo_stop h0 h
  refine ⟨pre, l, post, hr, ?_⟩
  rw [hfill, readStop, Fill.after, List.getLast?_concat]
  rfl

/-- 列の `j` 番目は、目標 `(j + 1) * q` の気配である。列は、足りない目標で終わる。 -/
theorem raws_spec (R : Quantize K Q) (b : Book (OrdMap K Q)) (s : Bool) (n : Nat)
    (raw : Q → Fill K Q → Level K Q → RawQuo K Q) (hmono : ∀ {t t' : Q}, t ≤ t' → ∀ c C, go t c C = true → go t' c C = true)
    (h0 : ∀ {t : Q}, 0 < t → go t 0 0 = true) (hq : 0 < q) :
    ∃ xs, (stops R go q n q (.start b s)).mapM (readStop raw) = some xs ∧ xs.length ≤ n ∧
      (∀ j (hj : j < xs.length), 0 < ((j + 1 : Nat) : Q) * q ∧
        go ((j + 1 : Nat) * q) (fillTo R go ((j + 1 : Nat) * q) (.start b s)).c
          (fillTo R go ((j + 1 : Nat) * q) (.start b s)).C = false ∧
        readStop raw ((j + 1 : Nat) * q, fillTo R go ((j + 1 : Nat) * q) (.start b s)) = some xs[j]) ∧
      (xs.length < n → go ((xs.length + 1 : Nat) * q) (fillTo R go ((xs.length + 1 : Nat) * q) (.start b s)).c
        (fillTo R go ((xs.length + 1 : Nat) * q) (.start b s)).C = true) := by
  have hshift : ∀ j : Nat, q + j * q = (j + 1 : Nat) * q := fun j => by
    push_cast
    ring
  obtain ⟨hlen, hget, hend⟩ := stops_spec (n := n) hmono hq (Carried.start R go b s q)
  have hsome : ∀ x ∈ stops R go q n q (.start b s), ∃ y, readStop raw x = some y := fun x hx => by
    obtain ⟨hpos, hfill, hgo⟩ := mem_stops hmono hq hx
    rw [hfill] at hgo
    obtain ⟨pre, l, post, _, hraw⟩ := readStop_eq raw (h0 hpos) hgo
    exact ⟨_, by rw [← hfill] at hraw; exact hraw⟩
  obtain ⟨xs, hxs, hxslen, hread⟩ := mapM_some hsome
  refine ⟨xs, hxs, hxslen ▸ hlen, fun j hj => ?_, fun hlt => ?_⟩
  · have hj' : j < (stops R go q n q (.start b s)).length := hxslen ▸ hj
    obtain ⟨hx, hgo⟩ := hget j hj'
    have hr := hread j hj' hj
    rw [hx] at hr
    rw [hshift] at hr hgo
    exact ⟨mul_pos (by exact_mod_cast Nat.succ_pos j) hq, hgo, hr⟩
  · have hend' := hend (hxslen ▸ hlt)
    rwa [← hxslen, hshift] at hend'

theorem qtyGo_zero (ht : 0 < t) : qtyGo t 0 0 = true := decide_eq_true ht

theorem valueGo_zero (ht : 0 < t) : valueGo t 0 0 = true := decide_eq_true ht

theorem qty_short_iff (R : Quantize K Q) (b : Book (OrdMap K Q)) (s : Bool) (ht : 0 < t) :
    qtyGo t (fillTo R qtyGo t (.start b s)).c (fillTo R qtyGo t (.start b s)).C = true ↔ depth b s < t := by
  constructor
  · intro h
    have hC := (fillTo_short h).2
    rw [← hC]
    exact of_decide_eq_true h
  · intro h
    by_contra hgo
    obtain ⟨pre, l, post, hr, _⟩ := fillTo_stop (qtyGo_zero ht) (Bool.eq_false_iff.2 hgo)
    have hw := sideLevels_pos b s
    rw [hr.split] at hw
    have hpost := amount_nonneg fun a ha => hw a (List.mem_append_right pre (List.mem_cons_of_mem l ha))
    have hhi := hr.qty.2
    rw [depth, hr.split, amount_append, amount_cons] at h
    linarith

end Books.Book
