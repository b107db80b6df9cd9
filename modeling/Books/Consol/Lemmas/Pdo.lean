import Books.Consol.Lemmas.Fill

/-!
# 指値までの取り出し
-/

set_option linter.unusedSectionVars false

namespace Books.Book

open Books.Btree Books.Lib

variable {K Q : Type} [LinearOrder K] [Zero K] [LinearOrder Q] [Field Q]
variable {R : Quantize K Q} {b : Book (OrdMap K Q)} {s : Bool} {q q' : Q} {lmt lmt' : Option K} {ls : List (Level K Q)}

/-! ## 時刻 -/

theorem maxTv_ge (t₁ t₂ : Tv) : t₁ ≤ maxTv t₁ t₂ ∧ t₂ ≤ maxTv t₁ t₂ ∧ (maxTv t₁ t₂ = t₁ ∨ maxTv t₁ t₂ = t₂) := by
  rw [maxTv]
  split
  · rename_i h
    exact ⟨UInt64.le_refl t₁, h, Or.inl rfl⟩
  · rename_i h
    exact ⟨UInt64.le_of_lt (UInt64.not_le.1 h), UInt64.le_refl t₂, Or.inr rfl⟩

theorem minTv_le (t₁ t₂ : Tv) : minTv t₁ t₂ ≤ t₁ ∧ minTv t₁ t₂ ≤ t₂ ∧ (minTv t₁ t₂ = t₁ ∨ minTv t₁ t₂ = t₂) := by
  rw [minTv]
  split
  · rename_i h
    exact ⟨UInt64.le_refl t₁, h, Or.inl rfl⟩
  · rename_i h
    exact ⟨UInt64.le_of_lt (UInt64.not_le.1 h), UInt64.le_refl t₂, Or.inr rfl⟩

/-- 並びの時刻を、順に `op` で合わせたもの。 -/
def timeFrom (op : Tv → Tv → Tv) (ls : List (Level K Q)) (t : Tv) : Tv := ls.foldl (fun t l => op t l.v.t) t

/-- `op` が、二つの時刻のうち `r` の先にある方を選ぶなら、合わせた時刻は、どの時刻よりも `r` の先にある。 -/
theorem timeFrom_spec {op : Tv → Tv → Tv} {r : Tv → Tv → Prop} (hrefl : ∀ t, r t t) (htrans : ∀ {a b c}, r a b → r b c → r a c)
    (hop : ∀ a b, r a (op a b) ∧ r b (op a b) ∧ (op a b = a ∨ op a b = b)) : ∀ (ls : List (Level K Q)) (t : Tv),
    r t (timeFrom op ls t) ∧ (∀ l ∈ ls, r l.v.t (timeFrom op ls t)) ∧
      (timeFrom op ls t = t ∨ ∃ l ∈ ls, l.v.t = timeFrom op ls t)
  | [], t => ⟨hrefl t, fun l hl => absurd hl List.not_mem_nil, Or.inl rfl⟩
  | l :: ls, t => by
      obtain ⟨hle, hall, hmem⟩ := timeFrom_spec hrefl htrans hop ls (op t l.v.t)
      obtain ⟨h1, h2, h3⟩ := hop t l.v.t
      refine ⟨htrans h1 hle, fun a ha => ?_, ?_⟩
      · rcases List.mem_cons.1 ha with rfl | ha
        · exact htrans h2 hle
        · exact hall a ha
      · rcases hmem with hmem | ⟨a, ha, hat⟩
        · rcases h3 with h3 | h3
          · exact Or.inl (hmem.trans h3)
          · exact Or.inr ⟨l, List.mem_cons_self, (hmem.trans h3).symm⟩
        · exact Or.inr ⟨a, List.mem_cons_of_mem l ha, hat⟩

theorem newest_of_zero (ls : List (Level K Q)) : Newest ls (timeFrom maxTv ls 0) := by
  obtain ⟨_, hall, hmem⟩ := timeFrom_spec UInt64.le_refl UInt64.le_trans maxTv_ge ls 0
  refine ⟨hall, ?_⟩
  cases ls with
  | nil => exact Or.inl ⟨rfl, rfl⟩
  | cons l ls =>
      rcases hmem with h0 | hmem
      · -- 最も新しい時刻が 0 なら、どの時刻も 0 である
        have hl := hall l List.mem_cons_self
        rw [h0] at hl ⊢
        exact Or.inr ⟨l, List.mem_cons_self, UInt64.le_antisymm hl (UInt64.zero_le)⟩
      · exact Or.inr hmem

theorem oldest_of_natv (ls : List (Level K Q)) : Oldest ls (timeFrom minTv ls natv) := by
  obtain ⟨_, hall, hmem⟩ := timeFrom_spec (r := fun a c => c ≤ a) UInt64.le_refl (fun h h' => UInt64.le_trans h' h) minTv_le ls natv
  refine ⟨hall, ?_⟩
  cases ls with
  | nil => exact Or.inl ⟨rfl, rfl⟩
  | cons l ls =>
      rcases hmem with h0 | hmem
      · have hl := hall l List.mem_cons_self
        have hmax : l.v.t ≤ natv := UInt64.le_iff_toNat_le.2 (Nat.le_of_lt_succ l.v.t.toNat_lt)
        rw [h0] at hl ⊢
        exact Or.inr ⟨l, List.mem_cons_self, UInt64.le_antisymm hmax hl⟩
      · exact Or.inr hmem

/-! ## 指値より悪くない気配 -/

theorem withinLmt_before {k k' : K} (h : withinLmt s lmt k' = true) (hb : Before s k k') : withinLmt s lmt k = true := by
  cases lmt with
  | none => rfl
  | some x =>
      cases s with
      | false => exact decide_eq_true (le_of_lt (lt_of_lt_of_le hb (of_decide_eq_true h)))
      | true => exact decide_eq_true (le_of_lt (lt_of_le_of_lt (of_decide_eq_true h) hb))

theorem takeWhile_within : ∀ {ls : List (Level K Q)}, ls.Pairwise (fun x y => Before s x.k y.k) →
    ls.takeWhile (fun l => withinLmt s lmt l.k) = ls.filter fun l => withinLmt s lmt l.k
  | [], _ => rfl
  | l :: ls, hs => by
      obtain ⟨hl, hs⟩ := List.pairwise_cons.1 hs
      rw [List.takeWhile_cons, List.filter_cons]
      split
      · rw [takeWhile_within hs]
      · rename_i hout
        refine (List.filter_eq_nil_iff.2 fun a ha hin => hout ?_).symm
        exact withinLmt_before hin (hl a ha)

theorem withinLmt_looser (h : Looser s lmt lmt') {k : K} (hk : withinLmt s lmt k = true) : withinLmt s lmt' k = true := by
  cases lmt' with
  | none => rfl
  | some x' =>
      cases lmt with
      | none => exact absurd h id
      | some x =>
          cases s with
          | false => exact decide_eq_true ((of_decide_eq_true hk : k ≤ x).trans h)
          | true => exact decide_eq_true (le_trans (h : x' ≤ x) (of_decide_eq_true hk))

/-! ## 取る数量 -/

/-- `book_pdo` の繰り返しが取る数量。 -/
def taken (s : Bool) (lmt : Option K) (ls : List (Level K Q)) (q : Q) : Q :=
  min (max q 0) (amount qtyOf (ls.takeWhile fun l => withinLmt s lmt l.k))

variable [IsStrictOrderedRing Q] {l : Level K Q}

theorem amount_takeWhile_nonneg (hw : ∀ a ∈ ls, 0 < qtyOf a) :
    0 ≤ amount qtyOf (ls.takeWhile fun l => withinLmt s lmt l.k) :=
  amount_nonneg fun a ha => hw a (List.takeWhile_subset _ ha)

theorem taken_stop (hw : ∀ a ∈ ls, 0 < qtyOf a) (h : ¬ 0 < q) : taken s lmt ls q = 0 := by
  rw [taken, max_eq_right (not_lt.1 h)]
  exact min_eq_left (amount_takeWhile_nonneg hw)

theorem taken_beyond (h : ¬ withinLmt s lmt l.k = true) : taken s lmt (l :: ls) q = 0 := by
  rw [taken, List.takeWhile_cons, if_neg h]
  exact min_eq_right (le_max_right q 0)

/-- 一つの気配から取ると、残りは同じ規則で取る。 -/
theorem taken_step (hw : ∀ a ∈ l :: ls, 0 < qtyOf a) (hq : 0 < q) (h : withinLmt s lmt l.k = true) :
    0 < taken s lmt (l :: ls) q ∧ min (qtyOf l) (taken s lmt (l :: ls) q) = min (qtyOf l) q ∧
      taken s lmt (l :: ls) q - min (qtyOf l) q = taken s lmt ls (q - min (qtyOf l) q) := by
  have hl : 0 < qtyOf l := hw l List.mem_cons_self
  have hA : 0 ≤ amount qtyOf (ls.takeWhile fun l => withinLmt s lmt l.k) :=
    amount_takeWhile_nonneg fun a ha => hw a (List.mem_cons_of_mem l ha)
  have hcons : taken s lmt (l :: ls) q = min q (qtyOf l + amount qtyOf (ls.takeWhile fun l => withinLmt s lmt l.k)) := by
    rw [taken, List.takeWhile_cons, if_pos h, amount_cons, max_eq_left hq.le]
  rw [hcons, taken]
  generalize amount qtyOf (ls.takeWhile fun l => withinLmt s lmt l.k) = A at hA ⊢
  refine ⟨lt_min hq (by linarith), ?_, ?_⟩
  · rw [min_left_comm, min_eq_left (by linarith : qtyOf l ≤ qtyOf l + A), min_comm]
  · rcases le_total (qtyOf l) q with hle | hle
    · rw [min_eq_left hle, max_eq_left (sub_nonneg.2 hle), ← min_sub_sub_right, add_sub_cancel_left]
    · rw [min_eq_right hle, min_eq_left (by linarith), sub_self, max_self, min_eq_left hA]

/-- `book_pdo` の繰り返しは、取る数量の費用と、取った気配の時刻を返す。 -/
theorem pdoLoop_eq (R : Quantize K Q) (s : Bool) (lmt : Option K) : ∀ (ls : List (Level K Q)) (q : Q) (r : BookPdo Q),
    (∀ a ∈ ls, 0 < qtyOf a) → pdoLoop R s lmt ls q r =
      ⟨r.base + taken s lmt ls q, r.term + cost R.price qtyOf ls (taken s lmt ls q),
        timeFrom maxTv (touched qtyOf ls (taken s lmt ls q)) r.yngt, timeFrom minTv (touched qtyOf ls (taken s lmt ls q)) r.oldt⟩
  | [], q, r, _ => by
      have h0 : taken s lmt ([] : List (Level K Q)) q = 0 := min_eq_right (le_max_right q 0)
      rw [h0, pdoLoop, cost, add_zero, add_zero]
      rfl
  | l :: ls, q, r, hw => by
      have htail : ∀ a ∈ ls, 0 < qtyOf a := fun a ha => hw a (List.mem_cons_of_mem l ha)
      rw [pdoLoop]
      split
      · rename_i hgo
        obtain ⟨hq, hin⟩ := Bool.and_eq_true_iff.1 hgo
        obtain ⟨hpos, hmin, hrest⟩ := taken_step hw (of_decide_eq_true hq) hin
        have hx : (if l.v.q ≤ q then l.v.q else q) = min (qtyOf l) q := (min_def _ _).symm
        have hbase : taken s lmt (l :: ls) q = min (qtyOf l) q + taken s lmt ls (q - min (qtyOf l) q) := by
          rw [← hrest]
          ring
        simp only [hx]
        rw [pdoLoop_eq R s lmt ls _ _ htail, cost, touched, if_pos hpos, hmin, hrest, hbase, ← add_assoc, ← add_assoc]
        rfl
      · rename_i hstop
        have h0 : taken s lmt (l :: ls) q = 0 := by
          by_cases hq : 0 < q
          · exact taken_beyond fun hin => hstop (Bool.and_eq_true_iff.2 ⟨decide_eq_true hq, hin⟩)
          · exact taken_stop hw hq
        rw [h0, cost_zero hw, touched_nonpos (le_refl 0), add_zero, add_zero]
        rfl

end Books.Book
