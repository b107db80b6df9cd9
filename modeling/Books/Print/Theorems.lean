import Books.Print.Lemmas
import Books.Xquo.Bounds.Code

/-!
# 印字の範囲の主定理
-/

namespace Books.Print

open Books.Btree Books.Book Books.Book2book Books.Xquo Books.Lib Books.Dfp754

variable (D : DecOps) (mem : Nat → UInt8)

/-! ## `book2book.c` -/

theorem prq1_fits (xb : Xone (BitVec 64) (BitVec 64)) (b a : BookQuo (BitVec 64) (BitVec 64)) :
    Fits (prq1 D mem xb b a).2 ↔ Unchanged D xb b a ∨ prq1Len D b a ≤ 256 := by
  have hcond : (D.eq (pxWord b.p) (pxWord xb.bid) && D.eq b.q xb.bsz && D.eq (pxWord a.p) (pxWord xb.ask) &&
      D.eq a.q xb.asz) = true ↔ Unchanged D xb b a := by
    rw [Unchanged, Bool.and_eq_true, Bool.and_eq_true, Bool.and_eq_true, and_assoc, and_assoc]
  rw [prq1]
  by_cases h : Unchanged D xb b a
  · rw [if_pos (hcond.mpr h)]
    exact iff_of_true ((tracks_init mem).fits_iff.mpr (by decide)) (Or.inl h)
  · have h₀ := tracks_byte (tracks_byte (tracks_byte (tracks_init mem) 99) 49) tab
    have h₁ := tracks_numIf (tracks_numIf h₀ (D.nz b.q) (pxWord b.p) tab) (D.nz a.q) (pxWord a.p) tab
    have h₂ := tracks_numIf (tracks_numIf h₁ (D.nz b.q) b.q tab) (D.nz a.q) a.q newline
    rw [if_neg (mt hcond.mp h), or_iff_right h]
    refine h₂.fits_iff.trans ?_
    rw [prq1Len]
    omega

/-- 側とレベルと、二つの数からなる行。 -/
theorem quo_fits (s k : UInt8) (p : Option (BitVec 64)) (x : BitVec 64) :
    Fits (((((((Line.init mem).byte s).byte k).byte tab).num (pxWord p)).byte tab).num x |>.byte newline) ↔
      quoLen p x ≤ 256 := by
  have h₀ := tracks_byte (tracks_byte (tracks_byte (tracks_init mem) s) k) tab
  refine (tracks_num (tracks_num h₀ (pxWord p) tab) x newline).fits_iff.trans ?_
  rw [quoLen]
  omega

theorem prq2_fits (q : BookQuo (BitVec 64) (BitVec 64)) : Fits (prq2 mem q) ↔ quoLen q.p q.q ≤ 256 :=
  quo_fits mem (sideByte q.s) 50 q.p q.q

theorem prq3_fits (q o : BookQuo (BitVec 64) (BitVec 64)) : Fits (prq3 D mem q o) ↔ quoLen q.p (D.sub q.q o.q) ≤ 256 :=
  quo_fits mem (sideByte q.s) 51 q.p (D.sub q.q o.q)

/-! ## `booksnap.c` -/

theorem snap1_fits (metr : Tv) (cont : Option (List UInt8)) (b a : BookQuo (BitVec 64) (BitVec 64)) :
    Fits (snap1 D mem metr cont b a) ↔ snap1Len D metr cont b a ≤ 256 := by
  have h₁ := tracks_numIf (tracks_numIf (tracks_header mem metr cont 99 49) (D.nz b.q) (pxWord b.p) tab) (D.nz a.q)
    (pxWord a.p) tab
  refine (tracks_num (tracks_num h₁ b.q tab) a.q newline).fits_iff.trans ?_
  rw [snap1Len]
  omega

theorem snap2_fits (metr : Tv) (cont : Option (List UInt8)) (bids asks : List (Option (BitVec 64) × BitVec 64)) :
    Fits (snap2 mem metr cont bids asks) ↔ headerLen metr cont ≤ 256 ∧ ∀ x ∈ bids ++ asks, levelLen metr cont x ≤ 256 := by
  have hhead := tracks_header mem metr cont 66 50
  have hstamp : 4 ≤ headerLen metr cont := Nat.le_add_left 4 _
  rw [snap2]
  rcases Nat.lt_or_ge 256 (headerLen metr cont) with hout | hin
  · refine iff_of_false (fun h => ?_) (fun h => absurd h.1 (by omega))
    exact hhead.outside hout (fits_of_levels (Buf.within_put.mp (fits_of_levels h)).2)
  · obtain ⟨hlen, hfits⟩ := hhead.inside hin
    have hbids := levels_fit hlen hin bids
    have hlen' := (levels_len (header mem metr cont 66 50) bids).trans hlen
    have hasks := levels_fit (l := ⟨(levels (header mem metr cont 66 50) bids).buf.put
      ((levels (header mem metr cont 66 50) bids).len - 3) 65, (levels (header mem metr cont 66 50) bids).len⟩) hlen' hin asks
    rw [hasks, and_iff_right hin, List.forall_mem_append]
    refine and_congr_left (fun _ => ?_)
    rw [and_iff_right hfits] at hbids
    refine Iff.trans ?_ hbids
    exact Buf.within_put.trans (and_iff_right (by rw [hlen']; omega))

/-! ## 五つの印字 -/

/-- 印字が 256 バイトの領域に収まるのは、行の長さが 256 以下のときで、そのときに限る。 -/
theorem lines_fit_iff (D : DecOps) (mem : Nat → UInt8) (xb : Xone (BitVec 64) (BitVec 64))
    (q o b a : BookQuo (BitVec 64) (BitVec 64)) (metr : Tv) (cont : Option (List UInt8))
    (bids asks : List (Option (BitVec 64) × BitVec 64)) :
    (Fits (prq1 D mem xb b a).2 ↔ Unchanged D xb b a ∨ prq1Len D b a ≤ 256) ∧
    (Fits (prq2 mem q) ↔ quoLen q.p q.q ≤ 256) ∧
    (Fits (prq3 D mem q o) ↔ quoLen q.p (D.sub q.q o.q) ≤ 256) ∧
    (Fits (snap1 D mem metr cont b a) ↔ snap1Len D metr cont b a ≤ 256) ∧
    (Fits (snap2 mem metr cont bids asks) ↔
      headerLen metr cont ≤ 256 ∧ ∀ x ∈ bids ++ asks, levelLen metr cont x ≤ 256) :=
  ⟨prq1_fits D mem xb b a, prq2_fits mem q, prq3_fits D mem q o, snap1_fits D mem metr cont b a,
    snap2_fits mem metr cont bids asks⟩

/-- 気配値が 261 桁の行 `1⇥X⇥A2⇥10…0⇥1`。 -/
def longLine : List UInt8 := [49, 9, 88, 9, 65, 50, 9, 49] ++ List.replicate 260 48 ++ [9, 49, 10]

/-- `longLine` の気配。 -/
def longQuo : BookQuo (BitVec 64) (BitVec 64) := ⟨.ask, .lvl2, some 5800736320053198848, 3584865303386914817, nsecs⟩

/-- 気配値が 261 桁の行を読むと、`prq2` は領域の外に書く。 -/
theorem long_price_overruns : readXquoAt longLine bcd64tobid 1 = .ok (some ⟨longQuo, 2, 1⟩) ∧
    ¬ Fits (prq2 (fun _ => 0) longQuo) :=
  ⟨by decide +kernel, fun h => absurd (h 256 (by decide +kernel)) (by decide)⟩

end Books.Print
