import Books.Consol.Lemmas.Quotes

/-!
# まとめた気配値の順
-/

set_option linter.unusedSectionVars false

namespace Books.Book

open Books.Btree Books.Lib

variable {K Q : Type} [LinearOrder K] [Zero K] [LinearOrder Q] [Field Q] [IsStrictOrderedRing Q]
variable {R : Quantize K Q} {b : Book (OrdMap K Q)} {s : Bool} {t q v : Q} {n : Nat} {x y : RawQuo K Q}

/-- まとめた気配は、取る数量 `qty` の平均の気配値を持ち、`lvl` は、その数量に届く気配である。 -/
structure Averages (R : Quantize K Q) (b : Book (OrdMap K Q)) (s : Bool) (x : RawQuo K Q) : Prop where
  split : ∃ pre post, sideLevels b s = pre ++ x.lvl :: post ∧ amount qtyOf pre < x.qty ∧
    x.qty ≤ amount qtyOf pre + qtyOf x.lvl
  price : x.price = greedyCost R b s x.qty / x.qty

namespace Averages

theorem pos (h : Averages R b s x) : 0 < x.qty := by
  obtain ⟨pre, post, hsplit, hlo, _⟩ := h.split
  have hw := sideLevels_pos b s
  rw [hsplit] at hw
  exact lt_of_le_of_lt (amount_nonneg fun a ha => hw a (List.mem_append_left _ ha)) hlo

theorem le_depth (h : Averages R b s x) : x.qty ≤ depth b s := by
  obtain ⟨pre, post, hsplit, _, hhi⟩ := h.split
  have hw := sideLevels_pos b s
  rw [hsplit] at hw
  have hpost := amount_nonneg fun a ha => hw a (List.mem_append_right pre (List.mem_cons_of_mem x.lvl ha))
  rw [depth, hsplit, amount_append, amount_cons]
  linarith

theorem last (h : Averages R b s x) : (touched qtyOf (sideLevels b s) x.qty).getLast? = some x.lvl := by
  obtain ⟨pre, post, hsplit, hlo, hhi⟩ := h.split
  have hw := sideLevels_pos b s
  rw [hsplit] at hw ⊢
  rw [touched_split hw hlo hhi, List.getLast?_concat]

end Averages

/-! ## 目標に届いた気配 -/

theorem readQty (ht : 0 < t) (h : qtyGo t (fillTo R qtyGo t (.start b s)).c (fillTo R qtyGo t (.start b s)).C = false) :
    ∃ x, readStop (qtyRaw R) (t, fillTo R qtyGo t (.start b s)) = some x ∧ Averages R b s x ∧ x.qty = t := by
  obtain ⟨pre, l, post, hr, hread⟩ := readStop_eq (qtyRaw R) (qtyGo_zero ht) h
  rw [hr.qtyRaw_eq (sideLevels_pos b s)] at hread
  exact ⟨_, hread, ⟨⟨pre, post, hr.split, hr.qty⟩, rfl⟩, rfl⟩

theorem readValue (ht : 0 < t)
    (h : valueGo t (fillTo R valueGo t (.start b s)).c (fillTo R valueGo t (.start b s)).C = false) :
    ∃ x, readStop (valueRaw R) (t, fillTo R valueGo t (.start b s)) = some x ∧ Averages R b s x ∧
      greedyCost R b s x.qty = t := by
  obtain ⟨pre, l, post, hr, hread⟩ := readStop_eq (valueRaw R) (valueGo_zero ht) h
  have hw := sideLevels_pos b s
  have hp := hr.price_pos hw
  rw [hr.valueRaw_eq hw] at hread
  rw [hr.split] at hw
  obtain ⟨hlo, hhi, hcost⟩ := cost_reach hw hp hr.value.1 hr.value.2
  rw [← hr.split] at hcost
  exact ⟨_, hread, ⟨⟨pre, post, hr.split, hlo, hhi⟩, by rw [greedyCost, hcost]⟩, hcost⟩

/-- 足りる数量をまとめた気配は、その数量の平均である。 -/
theorem bookCtop_averages (ht : 0 < t) (hle : t ≤ depth b s) :
    ∃ x, bookCtop R b s t = some (x.top R s) ∧ Averages R b s x ∧ x.qty = t := by
  have hgo := mt (qty_short_iff R b s ht).1 (not_lt.2 hle)
  obtain ⟨x, hx, hav, hqty⟩ := readQty ht (Bool.eq_false_iff.2 hgo)
  refine ⟨x, ?_, hav, hqty⟩
  rw [bookCtop_eq, if_neg hgo, hx]
  rfl

/-- 足りる金額をまとめた気配は、費用がその金額になる数量の平均である。 -/
theorem bookVtop_averages (ht : 0 < t) (hle : t ≤ sideValue R b s) :
    ∃ x, bookVtop R b s t = some (x.top R s) ∧ Averages R b s x ∧ greedyCost R b s x.qty = t := by
  have hgo : ¬ valueGo t (fillTo R valueGo t (.start b s)).c (fillTo R valueGo t (.start b s)).C = true := by
    intro h
    rw [(fillTo_short h).1] at h
    exact absurd hle (not_le.2 (of_decide_eq_true h))
  obtain ⟨x, hx, hav, hcost⟩ := readValue ht (Bool.eq_false_iff.2 hgo)
  refine ⟨x, ?_, hav, hcost⟩
  rw [bookVtop_eq, if_neg hgo, hx]
  rfl

/-- 正の気配値では、費用が取る数量を定める。 -/
theorem qty_of_cost (hp : ∀ l ∈ sideLevels b s, 0 < R.val l.k) (hx : Averages R b s x) (hq : 0 < q) (hle : q ≤ depth b s)
    (h : greedyCost R b s x.qty = greedyCost R b s q) : x.qty = q :=
  cost_inj (sideLevels_pos b s) hp hx.pos.le hx.le_depth hq.le hle h

theorem qty_le_of_cost (hp : ∀ l ∈ sideLevels b s, 0 < R.val l.k) (hx : Averages R b s x) (hy : Averages R b s y)
    (h : greedyCost R b s x.qty ≤ greedyCost R b s y.qty) : x.qty ≤ y.qty := by
  by_contra hlt
  exact absurd h (not_le.2 (cost_strictMono (sideLevels_pos b s) hp hy.pos.le (not_le.1 hlt) hx.le_depth))

theorem averages_unique (hx : Averages R b s x) (hy : Averages R b s y) (h : x.qty = y.qty) : x = y := by
  have hl : some x.lvl = some y.lvl := by rw [← hx.last, ← hy.last, h]
  have hp : x.price = y.price := by rw [hx.price, hy.price, h]
  obtain ⟨px, qx, lx⟩ := x
  obtain ⟨py, qy, ly⟩ := y
  simp only [Option.some.injEq] at h hp hl
  rw [h, hp, hl]

/-! ## 側の向き -/

/-- 側の向き。買いの側では、気配値の順が逆になる。 -/
def sgn (s : Bool) : Q := if s then -1 else 1

theorem noWorse_iff {a x : Q} : NoWorse s a x ↔ sgn s * a ≤ sgn s * x := by
  cases s with
  | false => simp [NoWorse, sgn]
  | true => simp [NoWorse, sgn]

theorem signed_sorted (hval : Monotone R.val) (b : Book (OrdMap K Q)) (s : Bool) :
    (sideLevels b s).Pairwise fun x y => sgn s * R.price x ≤ sgn s * R.price y := by
  refine (sideLevels_sorted b s).imp fun {x y} h => noWorse_iff.1 ?_
  cases s with
  | false => exact hval (le_of_lt h)
  | true => exact hval (le_of_lt h)

theorem signed_average (s : Bool) (q : Q) :
    cost (fun l => sgn s * R.price l) qtyOf (sideLevels b s) q / q = sgn s * (greedyCost R b s q / q) := by
  rw [cost_scale, mul_div_assoc, greedyCost]

section Ordered
variable (hval : Monotone R.val)
include hval

/-- 多く取るほど、平均の気配値は良くならない。 -/
theorem Averages.noWorse (hx : Averages R b s x) (hy : Averages R b s y) (hle : x.qty ≤ y.qty) :
    NoWorse s x.price y.price := by
  have h := average_mono (sideLevels_pos b s) (signed_sorted hval b s) hx.pos hle hy.le_depth
  rw [noWorse_iff, hx.price, hy.price, ← signed_average, ← signed_average]
  exact h

/-- 平均の気配値は、最良の気配値より良くない。 -/
theorem Averages.best (hx : Averages R b s x) :
    ∃ l, (sideLevels b s).head? = some l ∧ NoWorse s (R.val l.k) x.price := by
  obtain ⟨pre, post, hsplit, _⟩ := hx.split
  obtain ⟨l, ls, hls⟩ : ∃ l ls, sideLevels b s = l :: ls := by
    cases pre with
    | nil => exact ⟨x.lvl, post, hsplit⟩
    | cons l pre => exact ⟨l, pre ++ x.lvl :: post, hsplit⟩
  refine ⟨l, by rw [hls]; rfl, ?_⟩
  have hfloor : ∀ a ∈ sideLevels b s, sgn s * R.price l ≤ sgn s * R.price a := by
    have hs := signed_sorted hval b s
    rw [hls] at hs ⊢
    intro a ha
    rcases List.mem_cons.1 ha with rfl | ha
    · exact le_refl _
    · exact (List.pairwise_cons.1 hs).1 a ha
  have h := le_average (sideLevels_pos b s) hfloor hx.pos hx.le_depth
  rw [noWorse_iff, hx.price, ← signed_average]
  exact h

/-- 平均の気配値は、最後に取る気配の気配値より悪くない。 -/
theorem Averages.noWorse_last (hx : Averages R b s x) : NoWorse s x.price (R.val x.lvl.k) := by
  obtain ⟨pre, post, hsplit, hlo, hhi⟩ := hx.split
  have h := cost_le_last (sideLevels_pos b s) (signed_sorted hval b s) hsplit hlo hhi
  rw [noWorse_iff, hx.price, ← signed_average, div_le_iff₀ hx.pos]
  exact h

theorem prices_ordered {xs : List (RawQuo K Q)} (hxs : ∀ j (hj : j < xs.length), Averages R b s xs[j])
    (hqty : ∀ i j (hi : i < xs.length) (hj : j < xs.length), i < j → xs[i].qty ≤ xs[j].qty) :
    PricesOrdered R.val b s xs where
  sorted := by
    rw [List.pairwise_map, List.pairwise_iff_getElem]
    exact fun i j hi hj hij => (hxs i hi).noWorse hval (hxs j hj) (hqty i j hi hj hij)
  best x hx := by
    obtain ⟨j, hj, rfl⟩ := List.getElem_of_mem hx
    exact (hxs j hj).best hval
  last x hx := by
    obtain ⟨j, hj, rfl⟩ := List.getElem_of_mem hx
    exact ⟨(hxs j hj).last, (hxs j hj).noWorse_last hval⟩

end Ordered

end Books.Book
