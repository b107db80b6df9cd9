import Books.Consol.Lemmas.Ordered
import Books.Consol.Lemmas.Pdo
import Mathlib.Algebra.Order.Field.Rat

/-!
# まとめた気配の主定理
-/

set_option linter.unusedSectionVars false

namespace Books.Book

open Books.Btree Books.Lib

variable {K Q : Type} [LinearOrder K] [Zero K] [LinearOrder Q] [Field Q] [IsStrictOrderedRing Q]

theorem RawQuo.top_ne (R : Quantize K Q) (x : RawQuo K Q) (s : Bool) : x.top R s ≠ notAQuo := by
  intro h
  have hs : sideOf s = .unk := congrArg BookQuo.s h
  cases s <;> cases hs

/-- 桁を揃えない計算。 -/
def exact (val : K → Q) : Quantize K Q := ⟨val, fun _ k => k, fun x _ => x⟩

/-- 売りの側の、気配値 198 の 100 と、気配値 200 の 300。 -/
def twoAsks : Book (OrdMap Int ℚ) := bookRun [.add ⟨.ask, .lvl2, some 198, 100, 1⟩, .add ⟨.ask, .lvl2, some 200, 300, 2⟩]

/-- 整数の気配値を、有理数で表す計算。 -/
abbrev ratio : Quantize Int ℚ := exact fun k => (k : ℚ)

/-! ## 指値までの取り出し -/

theorem bookPdo_eq (R : Quantize K Q) (b : Book (OrdMap K Q)) (s : Bool) (q : Q) (lmt : Option K) :
    bookPdo R b s q lmt = ⟨min (max q 0) (amount qtyOf (withinLevels b s lmt)),
      greedyCost R b s (min (max q 0) (amount qtyOf (withinLevels b s lmt))),
      timeFrom maxTv (touched qtyOf (sideLevels b s) (min (max q 0) (amount qtyOf (withinLevels b s lmt)))) 0,
      timeFrom minTv (touched qtyOf (sideLevels b s) (min (max q 0) (amount qtyOf (withinLevels b s lmt)))) natv⟩ := by
  have h := pdoLoop_eq R s lmt (sideLevels b s) q ⟨0, 0, 0, natv⟩ (sideLevels_pos b s)
  rw [taken, takeWhile_within (sideLevels_sorted b s), ← withinLevels, zero_add, zero_add] at h
  exact h

/-- `book_pdo` は、指値より悪くない気配を、上から `q` まで取る。取る数量は、`q` を増やすか指値を緩めれば減らず、気配値が正なら、
費用も減らない。 -/
theorem pdo_fills_within_limit (R : Quantize K Q) (b : Book (OrdMap K Q)) (s : Bool) :
    (∀ q lmt, (bookPdo R b s q lmt).base = min (max q 0) (amount qtyOf (withinLevels b s lmt)) ∧
      (bookPdo R b s q lmt).term = greedyCost R b s (bookPdo R b s q lmt).base ∧
      Newest (touched qtyOf (sideLevels b s) (bookPdo R b s q lmt).base) (bookPdo R b s q lmt).yngt ∧
      Oldest (touched qtyOf (sideLevels b s) (bookPdo R b s q lmt).base) (bookPdo R b s q lmt).oldt) ∧
    ∀ q q' lmt lmt', q ≤ q' → Looser s lmt lmt' →
      (bookPdo R b s q lmt).base ≤ (bookPdo R b s q' lmt').base ∧
      ((∀ l ∈ sideLevels b s, 0 < R.val l.k) → (bookPdo R b s q lmt).term ≤ (bookPdo R b s q' lmt').term) := by
  have hw := sideLevels_pos b s
  constructor
  · intro q lmt
    rw [bookPdo_eq]
    exact ⟨rfl, rfl, newest_of_zero _, oldest_of_natv _⟩
  · intro q q' lmt lmt' hq hl
    have hamount : amount qtyOf (withinLevels b s lmt) ≤ amount qtyOf (withinLevels b s lmt') :=
      amount_filter_mono hw fun l _ hin => withinLmt_looser hl hin
    have hbase := min_le_min (max_le_max hq (le_refl (0 : Q))) hamount
    rw [bookPdo_eq, bookPdo_eq]
    refine ⟨hbase, fun hp => ?_⟩
    have hall : amount qtyOf (withinLevels b s lmt') ≤ depth b s := by
      have h := amount_filter_mono (f := fun l => withinLmt s lmt' l.k) (g := fun _ => true) hw fun _ _ _ => rfl
      rwa [List.filter_true] at h
    have hnn : 0 ≤ amount qtyOf (withinLevels b s lmt) := amount_nonneg fun l hl => hw l (List.mem_of_mem_filter hl)
    exact cost_mono hw (fun l hl => (hp l hl).le) (le_min (le_max_right q 0) hnn) hbase ((min_le_right _ _).trans hall)

/-- 指値 198 で 50 まで取るのと、指値なしで 200 まで取るのとを比べる。 -/
theorem pdo_fills_within_limit_two : (bookPdo ratio twoAsks false 50 (some 198)).base ≤ (bookPdo ratio twoAsks false 200 none).base ∧
    (bookPdo ratio twoAsks false 50 (some 198)).term ≤ (bookPdo ratio twoAsks false 200 none).term := by
  obtain ⟨hbase, hterm⟩ :=
    (pdo_fills_within_limit ratio twoAsks false).2 50 200 (some 198) none (by decide +kernel) trivial
  exact ⟨hbase, hterm (by decide +kernel)⟩

/-! ## 取る費用 -/

/-- `book_ctop` が `NOT_A_QUO` を返すのは、側の数量の和が `q` に足りないときに限る。足りれば、桁を揃える前の気配値の `q` 倍は、
上から `q` を取る費用であり、`book_pdo` の `term` に等しい。桁と時刻は、数量の和が初めて `q` に届く気配のものである。 -/
theorem ctop_costs_fill (R : Quantize K Q) (b : Book (OrdMap K Q)) (s : Bool) (q : Q) (hq : 0 < q) :
    (bookCtop R b s q = some notAQuo ↔ depth b s < q) ∧
    (q ≤ depth b s → ∃ P pre l post, P * q = greedyCost R b s q ∧ sideLevels b s = pre ++ l :: post ∧
      amount qtyOf pre < q ∧ q ≤ amount qtyOf (pre ++ [l]) ∧
      bookCtop R b s q = some ⟨sideOf s, .lvl1, some (R.px P l.k), R.qx q l.v.q, l.v.t⟩ ∧
      (bookPdo R b s q none).base = q ∧ (bookPdo R b s q none).term = greedyCost R b s q) := by
  have hshort := qty_short_iff R b s hq
  constructor
  · rw [bookCtop_eq, ← hshort]
    split
    · rename_i h
      exact iff_of_true rfl h
    · rename_i h
      obtain ⟨x, hx, _⟩ := readQty hq (Bool.eq_false_iff.2 h)
      rw [hx]
      exact iff_of_false (fun he => x.top_ne R s (Option.some.inj he)) h
  · intro hle
    obtain ⟨x, hx, hav, rfl⟩ := bookCtop_averages hq hle
    obtain ⟨pre, post, hsplit, hlo, hhi⟩ := hav.split
    have hall : withinLevels b s none = sideLevels b s := List.filter_true _
    have hbase : min (max x.qty 0) (depth b s) = x.qty := by rw [max_eq_left hq.le, min_eq_left hle]
    refine ⟨x.price, pre, x.lvl, post, ?_, hsplit, hlo, ?_, ?_, ?_⟩
    · rw [hav.price, div_mul_cancel₀ _ hq.ne']
    · rwa [amount_append, amount_cons, amount_nil, add_zero]
    · rw [hx]
      rfl
    · rw [bookPdo_eq, hall, ← depth, hbase]
      exact ⟨rfl, rfl⟩

/-- 500 は足りず、200 は足りる。 -/
theorem ctop_costs_fill_two : bookCtop ratio twoAsks false 500 = some notAQuo ∧
    (bookPdo ratio twoAsks false 200 none).base = 200 ∧
    (bookPdo ratio twoAsks false 200 none).term = greedyCost ratio twoAsks false 200 := by
  obtain ⟨P, pre, l, post, _, _, _, _, _, hpdo⟩ :=
    (ctop_costs_fill ratio twoAsks false 200 (by decide +kernel)).2 (by decide +kernel)
  exact ⟨(ctop_costs_fill ratio twoAsks false 500 (by decide +kernel)).1.2 (by decide +kernel), hpdo⟩

/-! ## 目標の列 -/

theorem stepsAlike (R : Quantize K Q) (b : Book (OrdMap K Q)) (s : Bool) (n : Nat) {q : Q} {go : Q → Q → Q → Bool}
    (raw : Q → Fill K Q → Level K Q → RawQuo K Q) {top : Q → Option (BookQuo K Q)} {tops : Option (List (K × Q))}
    (hmono : ∀ {t t' : Q}, t ≤ t' → ∀ c C, go t c C = true → go t' c C = true) (h0 : ∀ {t : Q}, 0 < t → go t 0 0 = true)
    (hq : 0 < q)
    (htop : ∀ t, top t = if go t (fillTo R go t (.start b s)).c (fillTo R go t (.start b s)).C then some notAQuo
      else (readStop raw (t, fillTo R go t (.start b s))).map fun x => x.top R s)
    (htops : tops = ((stops R go q n q (.start b s)).mapM (readStop raw)).map (List.map (RawQuo.entry R))) :
    StepsAlike top tops (tops.map (List.map Prod.fst)) q n := by
  obtain ⟨xs, hxs, hlen, hget, hend⟩ := raws_spec R b s n raw hmono h0 hq
  rw [hxs, Option.map_some] at htops
  rw [htops]
  refine ⟨xs.map (RawQuo.entry R), rfl, rfl, by rwa [List.length_map], fun j hj => ?_, fun hlt => ?_⟩
  · have hj' : j < xs.length := by rwa [List.length_map] at hj
    obtain ⟨_, hgo, hread⟩ := hget j hj'
    refine ⟨xs[j].top R s, ?_, xs[j].top_ne R s, ?_, ?_⟩
    · rw [htop, hgo, hread]
      rfl
    · rw [List.getElem_map]
      rfl
    · rw [List.getElem_map]
      rfl
  · rw [List.length_map] at hlt ⊢
    rw [htop, hend hlt]
    rfl

/-- `book_ctops` は、`j` ごとに、`(j + 1) * q` についての `book_ctop` と同じ気配値と数量を書き、それが初めて `NOT_A_QUO` になる
`j` を返す。`book_vtops` と `book_vtop` も同じである。`q` が `NULL` のときも、個数と気配値は同じである。 -/
theorem consolidation_steps_alike (R : Quantize K Q) (b : Book (OrdMap K Q)) (s : Bool) (n : Nat) (q : Q) (hq : 0 < q) :
    StepsAlike (bookCtop R b s) (bookCtops R b s q n) (bookCtopsOnlyP R b s q n) q n ∧
    StepsAlike (bookVtop R b s) (bookVtops R b s q n) (bookVtopsOnlyP R b s q n) q n := by
  constructor
  · rw [bookCtopsOnlyP, ctopsOnlyP_eq]
    exact stepsAlike R b s n (qtyRaw R) qtyGo_mono qtyGo_zero hq (bookCtop_eq R b s) (ctopsLoop_eq R q n q _)
  · rw [bookVtopsOnlyP, vtopsOnlyP_eq]
    exact stepsAlike R b s n (valueRaw R) valueGo_mono valueGo_zero hq (bookVtop_eq R b s) (vtopsLoop_eq R q n q _)

/-- 150 ずつ四回まとめる。 -/
theorem consolidation_steps_alike_two :
    StepsAlike (bookCtop ratio twoAsks false) (bookCtops ratio twoAsks false 150 4) (bookCtopsOnlyP ratio twoAsks false 150 4)
      150 4 ∧
    StepsAlike (bookVtop ratio twoAsks false) (bookVtops ratio twoAsks false 150 4) (bookVtopsOnlyP ratio twoAsks false 150 4)
      150 4 :=
  consolidation_steps_alike ratio twoAsks false 4 150 (by decide +kernel)

/-! ## 金額と数量 -/

/-- 気配値が正ならば、金額 `v` でまとめた数量 `x` は、費用がちょうど `v` になる数量であり、`x` でまとめた気配値と等しい。逆に、数量
`q` の費用でまとめた数量は `q` である。 -/
theorem vtop_inverts_ctop (R : Quantize K Q) (b : Book (OrdMap K Q)) (s : Bool)
    (hp : ∀ l ∈ sideLevels b s, 0 < R.val l.k) :
    (∀ v, 0 < v → v ≤ sideValue R b s → ∃ (x : Q) (l : Level K Q), 0 < x ∧ x ≤ depth b s ∧ greedyCost R b s x = v ∧
      bookVtop R b s v = some ⟨sideOf s, .lvl1, some (R.px (v / x) l.k), R.qx x l.v.q, l.v.t⟩ ∧
      bookCtop R b s x = some ⟨sideOf s, .lvl1, some (R.px (v / x) l.k), R.qx x l.v.q, l.v.t⟩) ∧
    ∀ q, 0 < q → q ≤ depth b s → ∃ l : Level K Q, bookVtop R b s (greedyCost R b s q) =
      some ⟨sideOf s, .lvl1, some (R.px (greedyCost R b s q / q) l.k), R.qx q l.v.q, l.v.t⟩ := by
  have hw := sideLevels_pos b s
  constructor
  · intro v hv hle
    obtain ⟨x, hx, hav, hcost⟩ := bookVtop_averages hv hle
    obtain ⟨y, hy, hyav, hqty⟩ := bookCtop_averages hav.pos hav.le_depth
    obtain rfl : y = x := averages_unique hyav hav hqty
    have hprice : y.price = v / y.qty := by rw [hav.price, hcost]
    refine ⟨y.qty, y.lvl, hav.pos, hav.le_depth, hcost, ?_, ?_⟩
    · rw [hx, ← hprice]
      rfl
    · rw [hy, ← hprice]
      rfl
  · intro q hq hle
    have hpos : 0 < greedyCost R b s q := by
      have h := cost_strictMono hw hp (le_refl 0) hq hle
      rwa [cost_zero hw] at h
    have hvalue : greedyCost R b s q ≤ sideValue R b s := by
      have h := cost_mono hw (fun l hl => (hp l hl).le) hq.le hle (le_refl _)
      rwa [depth, cost_amount hw] at h
    obtain ⟨x, hx, hav, hcost⟩ := bookVtop_averages hpos hvalue
    have hqty := qty_of_cost hp hav hq hle hcost
    refine ⟨x.lvl, ?_⟩
    have hprice : greedyCost R b s q / q = x.price := by rw [hav.price, hqty]
    rw [hx, hprice, ← hqty]
    rfl

/-- 金額 39800 でまとめた数量と、数量 200 の費用。 -/
theorem vtop_inverts_ctop_two :
    (∃ (x : ℚ) (l : Level Int ℚ), 0 < x ∧ x ≤ depth twoAsks false ∧ greedyCost ratio twoAsks false x = 39800 ∧
      bookVtop ratio twoAsks false 39800 =
        some ⟨.ask, .lvl1, some (ratio.px (39800 / x) l.k), ratio.qx x l.v.q, l.v.t⟩ ∧
      bookCtop ratio twoAsks false x = some ⟨.ask, .lvl1, some (ratio.px (39800 / x) l.k), ratio.qx x l.v.q, l.v.t⟩) ∧
    ∃ l : Level Int ℚ, bookVtop ratio twoAsks false (greedyCost ratio twoAsks false 200) =
      some ⟨.ask, .lvl1, some (ratio.px (greedyCost ratio twoAsks false 200 / 200) l.k), ratio.qx 200 l.v.q, l.v.t⟩ :=
  ⟨(vtop_inverts_ctop ratio twoAsks false (by decide +kernel)).1 39800 (by decide +kernel) (by decide +kernel),
    (vtop_inverts_ctop ratio twoAsks false (by decide +kernel)).2 200 (by decide +kernel) (by decide +kernel)⟩

/-! ## 計算の安全 -/

theorem qtySafe {R : Quantize K Q} {b : Book (OrdMap K Q)} {s : Bool} {t : Q} (ht : 0 < t)
    (h : qtyGo t (fillTo R qtyGo t (.start b s)).c (fillTo R qtyGo t (.start b s)).C = false) :
    QtySafe (sideLevels b s) t (fillTo R qtyGo t (.start b s)) := by
  obtain ⟨pre, l, post, hr, hfill⟩ := fillTo_stop (qtyGo_zero ht) h
  have hw := sideLevels_pos b s
  rw [hr.split] at hw
  rw [hfill]
  exact ⟨pre, l, List.getLast?_concat, hr.split, hr.qty.1, amount_nonneg fun a ha => hw a (List.mem_append_left _ ha)⟩

theorem valueSafe {R : Quantize K Q} {b : Book (OrdMap K Q)} {s : Bool} {t : Q} (ht : 0 < t)
    (h : valueGo t (fillTo R valueGo t (.start b s)).c (fillTo R valueGo t (.start b s)).C = false) :
    ValueSafe R (sideLevels b s) t (fillTo R valueGo t (.start b s)) := by
  obtain ⟨pre, l, post, hr, hfill⟩ := fillTo_stop (valueGo_zero ht) h
  have hw := sideLevels_pos b s
  have hp := hr.price_pos hw
  have hqty : (Fill.after R (pre ++ [l]) post).C - ((Fill.after R (pre ++ [l]) post).c - t) / R.val l.k =
      amount qtyOf pre + (t - worth R.price qtyOf pre) / R.price l := congrArg RawQuo.qty (hr.valueRaw_eq hw)
  rw [hr.split] at hw
  rw [hfill]
  refine ⟨pre, l, List.getLast?_concat, hr.split, hp, ?_, amount_nonneg fun a ha => hw a (List.mem_append_left _ ha)⟩
  rw [hqty]
  exact (cost_reach hw hp hr.value.1 hr.value.2).1

/-- 足りるかどうかの判定を越えれば、`i.v` は `NULL` でなく、割る数はどれも正である。まとめた数量は、`i` より前の数量の和より大きい。
`book_ctops` と `book_vtops` では、どの `j` についても成り立つ。`q` が `NULL` のときも、`j` についての変数は同じである。 -/
theorem consolidation_safe (R : Quantize K Q) (b : Book (OrdMap K Q)) (s : Bool) (n : Nat) (t : Q) (ht : 0 < t) :
    (¬ (fillQty R t (.start b s)).C < t → QtySafe (sideLevels b s) t (fillQty R t (.start b s))) ∧
    (bookCtops R b s t n = ((stops R qtyGo t n t (.start b s)).mapM (readStop (qtyRaw R))).map (List.map (RawQuo.entry R)) ∧
      bookCtopsOnlyP R b s t n = (bookCtops R b s t n).map (List.map Prod.fst) ∧
      ∀ x ∈ stops R qtyGo t n t (.start b s), QtySafe (sideLevels b s) x.1 x.2) ∧
    (¬ (fillValue R t (.start b s)).c < t → ValueSafe R (sideLevels b s) t (fillValue R t (.start b s))) ∧
    (bookVtops R b s t n =
        ((stops R valueGo t n t (.start b s)).mapM (readStop (valueRaw R))).map (List.map (RawQuo.entry R)) ∧
      bookVtopsOnlyP R b s t n = (bookVtops R b s t n).map (List.map Prod.fst) ∧
      ∀ x ∈ stops R valueGo t n t (.start b s), ValueSafe R (sideLevels b s) x.1 x.2) := by
  refine ⟨fun h => qtySafe ht (decide_eq_false h), ⟨ctopsLoop_eq R t n t _, ctopsOnlyP_eq R t n t _, fun x hx => ?_⟩,
    fun h => valueSafe ht (decide_eq_false h), vtopsLoop_eq R t n t _, vtopsOnlyP_eq R t n t _, fun x hx => ?_⟩
  · obtain ⟨hpos, hfill, hgo⟩ := mem_stops qtyGo_mono ht hx
    rw [hfill] at hgo ⊢
    exact qtySafe hpos hgo
  · obtain ⟨hpos, hfill, hgo⟩ := mem_stops valueGo_mono ht hx
    rw [hfill] at hgo ⊢
    exact valueSafe hpos hgo

/-- 数量 200 の目標と、金額 39800 の目標。 -/
theorem consolidation_safe_two : QtySafe (sideLevels twoAsks false) 200 (fillQty ratio 200 (.start twoAsks false)) ∧
    ValueSafe ratio (sideLevels twoAsks false) 39800 (fillValue ratio 39800 (.start twoAsks false)) :=
  ⟨(consolidation_safe ratio twoAsks false 1 200 (by decide +kernel)).1 (by decide +kernel),
    (consolidation_safe ratio twoAsks false 1 39800 (by decide +kernel)).2.2.1 (by decide +kernel)⟩

/-! ## 気配値の順 -/

/-- まとめた気配値は、後ほど悪く、側の最良の気配値と、最後に取る気配の気配値との間にある。`px` と `qx` は桁を揃える計算である。 -/
theorem consolidated_prices_ordered (val : K → Q) (hval : Monotone val) (b : Book (OrdMap K Q)) (s : Bool) (n : Nat) (q : Q)
    (hq : 0 < q) :
    (∃ xs, (∀ px qx, bookCtops ⟨val, px, qx⟩ b s q n = some (xs.map (RawQuo.entry ⟨val, px, qx⟩))) ∧
      PricesOrdered val b s xs) ∧
    ((∀ l ∈ sideLevels b s, 0 < val l.k) →
      ∃ xs, (∀ px qx, bookVtops ⟨val, px, qx⟩ b s q n = some (xs.map (RawQuo.entry ⟨val, px, qx⟩))) ∧
        PricesOrdered val b s xs) := by
  have hstep : ∀ {i j : Nat}, i < j → ((i + 1 : Nat) : Q) * q ≤ ((j + 1 : Nat) : Q) * q := fun hij =>
    mul_le_mul_of_nonneg_right (Nat.cast_le.2 (Nat.succ_le_succ hij.le)) hq.le
  constructor
  · obtain ⟨xs, hxs, _, hget, _⟩ := raws_spec (exact val) b s n (qtyRaw (exact val)) qtyGo_mono qtyGo_zero hq
    have hav : ∀ j (hj : j < xs.length), Averages (exact val) b s xs[j] ∧ xs[j].qty = (j + 1 : Nat) * q := fun j hj => by
      obtain ⟨hpos, hgo, hread⟩ := hget j hj
      obtain ⟨x, hx, hav, hqty⟩ := readQty hpos hgo
      rw [hread] at hx
      rw [Option.some.inj hx]
      exact ⟨hav, hqty⟩
    have hordered : PricesOrdered (exact val).val b s xs := by
      refine prices_ordered hval (fun j hj => (hav j hj).1) fun i j hi hj hij => ?_
      rw [(hav i hi).2, (hav j hj).2]
      exact hstep hij
    refine ⟨xs, fun px qx => ?_, hordered⟩
    have hsame : (Quantize.mk val px qx).val = (exact val).val := rfl
    rw [bookCtops, ctopsLoop_eq, stops_congr hsame]
    exact congrArg (Option.map (List.map (RawQuo.entry ⟨val, px, qx⟩))) hxs
  · intro hp
    obtain ⟨xs, hxs, _, hget, _⟩ := raws_spec (exact val) b s n (valueRaw (exact val)) valueGo_mono valueGo_zero hq
    have hav : ∀ j (hj : j < xs.length), Averages (exact val) b s xs[j] ∧
        greedyCost (exact val) b s xs[j].qty = (j + 1 : Nat) * q := fun j hj => by
      obtain ⟨hpos, hgo, hread⟩ := hget j hj
      obtain ⟨x, hx, hav, hcost⟩ := readValue hpos hgo
      rw [hread] at hx
      rw [Option.some.inj hx]
      exact ⟨hav, hcost⟩
    have hordered : PricesOrdered (exact val).val b s xs := by
      refine prices_ordered hval (fun j hj => (hav j hj).1) fun i j hi hj hij => ?_
      refine qty_le_of_cost hp (hav i hi).1 (hav j hj).1 ?_
      rw [(hav i hi).2, (hav j hj).2]
      exact hstep hij
    refine ⟨xs, fun px qx => ?_, hordered⟩
    have hsame : (Quantize.mk val px qx).val = (exact val).val := rfl
    rw [bookVtops, vtopsLoop_eq, stops_congr hsame]
    exact congrArg (Option.map (List.map (RawQuo.entry ⟨val, px, qx⟩))) hxs

/-- 150 ずつ四回まとめた気配値。 -/
theorem consolidated_prices_ordered_two :
    (∃ xs, (∀ px qx, bookCtops ⟨fun k : Int => (k : ℚ), px, qx⟩ twoAsks false 150 4 =
        some (xs.map (RawQuo.entry ⟨fun k : Int => (k : ℚ), px, qx⟩))) ∧
      PricesOrdered (fun k : Int => (k : ℚ)) twoAsks false xs) ∧
    ∃ xs, (∀ px qx, bookVtops ⟨fun k : Int => (k : ℚ), px, qx⟩ twoAsks false 150 4 =
        some (xs.map (RawQuo.entry ⟨fun k : Int => (k : ℚ), px, qx⟩))) ∧
      PricesOrdered (fun k : Int => (k : ℚ)) twoAsks false xs :=
  ⟨(consolidated_prices_ordered (fun k : Int => (k : ℚ)) Int.cast_mono twoAsks false 4 150 (by decide +kernel)).1,
    (consolidated_prices_ordered (fun k : Int => (k : ℚ)) Int.cast_mono twoAsks false 4 150 (by decide +kernel)).2
      (by decide +kernel)⟩

end Books.Book
