import Books.Book.Lemmas.Top
import Books.Consol.Spec

/-!
# 目標に届くまでの繰り返し
-/

set_option linter.unusedSectionVars false

namespace Books.Book

open Books.Btree Books.Lib

variable {K Q : Type} [LinearOrder K] [Zero K] [LinearOrder Q] [Field Q]

/-! ## 気配の並び -/

section Levels
variable {descp : Bool}

theorem levelsFrom_after (m : OrdMap K Q descp) : ∀ (n : Nat) (last : Option K),
    (levelsFrom m n last).Pairwise (fun a b => Before descp a.k b.k) ∧
      ∀ l ∈ levelsFrom m n last, ∀ k, last = some k → Before descp k l.k
  | 0, _ => ⟨List.Pairwise.nil, fun l hl => absurd hl List.not_mem_nil⟩
  | n + 1, last => by
      rw [levelsFrom]
      cases hk : m.nextKey last with
      | none => exact ⟨List.Pairwise.nil, fun l hl => absurd hl List.not_mem_nil⟩
      | some k =>
          obtain ⟨hsorted, hafter⟩ := levelsFrom_after m n (some k)
          have hfound := List.find?_some (p := fun k => !(m.val k).nilP && last.all fun l => decide (Before descp l k)) hk
          have hlast : ∀ x, last = some x → Before descp x k := by
            rintro x rfl
            simpa using (Bool.and_eq_true_iff.mp hfound).2
          refine ⟨List.pairwise_cons.mpr ⟨fun l hl => hafter l hl k rfl, hsorted⟩, fun l hl x hx => ?_⟩
          rcases List.mem_cons.mp hl with rfl | hl
          · exact hlast x hx
          · exact (hlast x hx).trans (hafter l hl k rfl)

end Levels

variable {R R' : Quantize K Q} {b : Book (OrdMap K Q)} {s : Bool} {t t' q : Q} {n : Nat} {f : Fill K Q}
variable {go go' : Q → Q → Q → Bool} {pre post ls : List (Level K Q)} {l : Level K Q}

theorem sideLevels_sorted (b : Book (OrdMap K Q)) (s : Bool) :
    (sideLevels b s).Pairwise fun x y => Before s x.k y.k := (levelsFrom_after (b.get s) _ none).1

theorem sideLevels_pos (b : Book (OrdMap K Q)) (s : Bool) : ∀ l ∈ sideLevels b s, 0 < qtyOf l :=
  levelsFrom_pos (b.get s) _ none

/-! ## 繰り返しの変数 -/

/-- `pre` まで取り、`post` が残っている変数。 -/
def Fill.after (R : Quantize K Q) (pre post : List (Level K Q)) : Fill K Q :=
  ⟨worth R.price qtyOf pre, amount qtyOf pre, pre.getLast?, post⟩

theorem after_step (R : Quantize K Q) (pre post : List (Level K Q)) (l : Level K Q) : Fill.after R (pre ++ [l]) post =
    ⟨worth R.price qtyOf pre + R.val l.k * l.v.q, amount qtyOf pre + l.v.q, some l, post⟩ := by
  simp [Fill.after, Quantize.price, qtyOf]

/-- 繰り返しは、続ける条件が初めて偽になる所か、並びの終わりで止まる。 -/
theorem fill_after (g : Q → Q → Bool) : ∀ (rest pre : List (Level K Q)), ∃ mid post, rest = mid ++ post ∧
    fill R g (worth R.price qtyOf pre) (amount qtyOf pre) pre.getLast? rest = Fill.after R (pre ++ mid) post ∧
    (g (worth R.price qtyOf (pre ++ mid)) (amount qtyOf (pre ++ mid)) = true → post = []) ∧
    ∀ m l, mid = m ++ [l] → g (worth R.price qtyOf (pre ++ m)) (amount qtyOf (pre ++ m)) = true
  | [], pre => ⟨[], [], rfl, by rw [List.append_nil]; rfl, fun _ => rfl, fun m l h => by simp at h⟩
  | l :: rest, pre => by
      rw [fill]
      split
      · rename_i hgo
        obtain ⟨mid, post, hrest, hfill, hstop, hbefore⟩ := fill_after g rest (pre ++ [l])
        have hstep := after_step R pre rest l
        simp only [Fill.after, Fill.mk.injEq] at hstep
        obtain ⟨hc, hC, hi, _⟩ := hstep
        rw [hc, hC, hi] at hfill
        refine ⟨l :: mid, post, by rw [hrest, List.cons_append], ?_, ?_, fun m x hm => ?_⟩
        · rw [hfill, List.append_assoc, List.singleton_append]
        · rwa [List.append_assoc, List.singleton_append] at hstop
        · cases m with
          | nil => rwa [List.append_nil]
          | cons y m =>
              obtain ⟨rfl, hmid⟩ := List.cons.inj hm
              have hb := hbefore m x hmid
              rwa [List.append_assoc, List.singleton_append] at hb
      · rename_i hgo
        refine ⟨[], l :: rest, rfl, by rw [List.append_nil]; rfl, fun h => ?_, fun m x h => by simp at h⟩
        rw [List.append_nil] at h
        exact absurd h hgo

/-- 次の目標へは、前の目標で止まった所から続けても、初めからやり直しても、同じ所で止まる。 -/
theorem fill_resume {g g' : Q → Q → Bool} (h : ∀ c C, g c C = true → g' c C = true) : ∀ (rest : List (Level K Q)) (c C : Q)
    (i : Option (Level K Q)), fill R g' (fill R g c C i rest).c (fill R g c C i rest).C (fill R g c C i rest).i
      (fill R g c C i rest).rest = fill R g' c C i rest
  | [], _, _, _ => rfl
  | l :: rest, c, C, i => by
      rw [fill]
      split
      · rename_i hgo
        rw [fill_resume h rest, fill, if_pos (h c C hgo)]
      · rfl

/-- 桁の揃え方は、繰り返しに関わらない。 -/
theorem fill_congr (h : R.val = R'.val) (g : Q → Q → Bool) : ∀ (rest : List (Level K Q)) (c C : Q) (i : Option (Level K Q)),
    fill R g c C i rest = fill R' g c C i rest
  | [], _, _, _ => rfl
  | l :: rest, c, C, i => by rw [fill, fill, h, fill_congr h g rest]

/-! ## 目標 -/

theorem qtyGo_mono (h : t ≤ t') (c C : Q) (hgo : qtyGo t c C = true) : qtyGo t' c C = true :=
  decide_eq_true ((of_decide_eq_true hgo).trans_le h)

theorem valueGo_mono (h : t ≤ t') (c C : Q) (hgo : valueGo t c C = true) : valueGo t' c C = true :=
  decide_eq_true ((of_decide_eq_true hgo).trans_le h)

theorem fillQty_eq : fillQty R t f = fillTo R qtyGo t f := rfl

theorem fillValue_eq : fillValue R t f = fillTo R valueGo t f := rfl

/-- 目標 `t` には、`pre` では届かず、`l` まで取ると届く。 -/
structure Reaches (R : Quantize K Q) (go : Q → Q → Q → Bool) (t : Q) (ls pre : List (Level K Q)) (l : Level K Q)
    (post : List (Level K Q)) : Prop where
  split : ls = pre ++ l :: post
  before : go t (worth R.price qtyOf pre) (amount qtyOf pre) = true
  reached : go t (worth R.price qtyOf (pre ++ [l])) (amount qtyOf (pre ++ [l])) = false

/-- 届いた目標では、`i` はちょうど目標に届く気配である。 -/
theorem fillTo_stop (h0 : go t 0 0 = true)
    (h : go t (fillTo R go t (.start b s)).c (fillTo R go t (.start b s)).C = false) :
    ∃ pre l post, Reaches R go t (sideLevels b s) pre l post ∧
      fillTo R go t (.start b s) = Fill.after R (pre ++ [l]) post := by
  obtain ⟨mid, post, hls, hfill, _, hbefore⟩ := fill_after (R := R) (go t) (sideLevels b s) []
  have hfill' : fillTo R go t (.start b s) = Fill.after R mid post := hfill
  rw [hfill'] at h
  rcases List.eq_nil_or_concat mid with rfl | ⟨pre, l, hmid⟩
  · have h0' : go t (Fill.after R [] post).c (Fill.after R [] post).C = true := h0
    rw [h0'] at h
    cases h
  · rw [List.concat_eq_append] at hmid
    subst hmid
    exact ⟨pre, l, post, ⟨by rw [hls, List.append_assoc, List.singleton_append], hbefore pre l rfl, h⟩, hfill'⟩

/-- 届かない目標では、並びを取り尽くしている。 -/
theorem fillTo_short (h : go t (fillTo R go t (.start b s)).c (fillTo R go t (.start b s)).C = true) :
    (fillTo R go t (.start b s)).c = sideValue R b s ∧ (fillTo R go t (.start b s)).C = depth b s := by
  obtain ⟨mid, post, hls, hfill, hstop, _⟩ := fill_after (R := R) (go t) (sideLevels b s) []
  have hfill' : fillTo R go t (.start b s) = Fill.after R mid post := hfill
  rw [hfill'] at h ⊢
  have hpost : post = [] := hstop h
  rw [hpost, List.append_nil] at hls
  rw [sideValue, depth, hls]
  exact ⟨rfl, rfl⟩

/-! ## 目標の列 -/

/-- `f` は、`t` 以上の目標では、初めの変数と同じ所で止まる。 -/
def Carried (R : Quantize K Q) (go : Q → Q → Q → Bool) (b : Book (OrdMap K Q)) (s : Bool) (t : Q) (f : Fill K Q) : Prop :=
  ∀ t', t ≤ t' → fillTo R go t' f = fillTo R go t' (.start b s)

theorem Carried.start (R : Quantize K Q) (go : Q → Q → Q → Bool) (b : Book (OrdMap K Q)) (s : Bool) (t : Q) :
    Carried R go b s t (.start b s) := fun _ _ => rfl

variable [IsStrictOrderedRing Q]

theorem Carried.next (hmono : ∀ {t t' : Q}, t ≤ t' → ∀ c C, go t c C = true → go t' c C = true) (hq : 0 < q)
    (h : Carried R go b s t f) : Carried R go b s (t + q) (fillTo R go t f) := by
  intro t' ht'
  have hle : t ≤ t' := (le_add_of_nonneg_right hq.le).trans ht'
  rw [← h t' hle]
  exact fill_resume (hmono hle) f.rest f.c f.C f.i

/-- 列の `j` 番目は、目標 `t + j * q` で初めからやり直した変数である。列は、届かない目標で終わる。 -/
theorem stops_spec (hmono : ∀ {t t' : Q}, t ≤ t' → ∀ c C, go t c C = true → go t' c C = true) (hq : 0 < q)
    (h : Carried R go b s t f) :
    (stops R go q n t f).length ≤ n ∧
    (∀ j (hj : j < (stops R go q n t f).length), (stops R go q n t f)[j] =
        (t + j * q, fillTo R go (t + j * q) (.start b s)) ∧
      go (t + j * q) (fillTo R go (t + j * q) (.start b s)).c (fillTo R go (t + j * q) (.start b s)).C = false) ∧
    ((stops R go q n t f).length < n →
      go (t + (stops R go q n t f).length * q) (fillTo R go (t + (stops R go q n t f).length * q) (.start b s)).c
        (fillTo R go (t + (stops R go q n t f).length * q) (.start b s)).C = true) := by
  induction n generalizing t f with
  | zero => exact ⟨Nat.le_refl 0, fun j hj => absurd hj (Nat.not_lt_zero j), fun hlt => absurd hlt (Nat.lt_irrefl 0)⟩
  | succ n ih =>
      have hstart := h t (le_refl t)
      obtain ⟨hlen, hget, hend⟩ := ih (h.next hmono hq)
      rw [stops]
      split
      · rename_i hgo
        rw [hstart] at hgo
        refine ⟨Nat.zero_le _, fun j hj => absurd hj (Nat.not_lt_zero j), fun _ => ?_⟩
        rwa [List.length_nil, Nat.cast_zero, zero_mul, add_zero]
      · rename_i hgo
        rw [hstart] at hgo
        have hshift : ∀ j : Nat, t + q + j * q = t + (j + 1 : Nat) * q := fun j => by
          push_cast
          ring
        refine ⟨Nat.succ_le_succ hlen, fun j hj => ?_, fun hlt => ?_⟩
        · cases j with
          | zero =>
              rw [Nat.cast_zero, zero_mul, add_zero]
              exact ⟨Prod.ext rfl hstart, Bool.eq_false_iff.2 hgo⟩
          | succ j =>
              have hj' := hget j (Nat.lt_of_succ_lt_succ hj)
              rwa [hshift] at hj'
        · have hend' := hend (Nat.lt_of_succ_lt_succ hlt)
          rwa [hshift] at hend'

theorem mem_stops (hmono : ∀ {t t' : Q}, t ≤ t' → ∀ c C, go t c C = true → go t' c C = true) (hq : 0 < q)
    {x : Q × Fill K Q} (hx : x ∈ stops R go q n q (.start b s)) :
    0 < x.1 ∧ x.2 = fillTo R go x.1 (.start b s) ∧ go x.1 x.2.c x.2.C = false := by
  obtain ⟨j, hj, rfl⟩ := List.getElem_of_mem hx
  obtain ⟨hget, hgo⟩ := (stops_spec hmono hq (Carried.start R go b s q)).2.1 j hj
  rw [hget]
  exact ⟨add_pos_of_pos_of_nonneg hq (mul_nonneg (Nat.cast_nonneg j) hq.le), rfl, hgo⟩

end Books.Book
