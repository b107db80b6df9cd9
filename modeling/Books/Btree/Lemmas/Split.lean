import Books.Btree.Lemmas.Shape

/-!
# 節の分割

`node_split` と `root_split` が、一つの節を二つに分けた後の部分木の条件を示す。分けた二つの節は `Halves`、
親の並びの変化は `splitParent` の添字ごとの等式で述べる。
-/

set_option linter.unusedSectionVars false

namespace Books.Btree

open Books.Lib

variable {K Q : Type} [LinearOrder K] [LinearOrder Q] [Zero Q]
variable {descp : Bool} {h h' : Heap K Q} {lo hi : Option K} {d cap : Nat} {a c l r x : Addr}

/-! ## 空いた部分木 -/

/-- `node_free_p` は、部分木の値がすべて nil であることを調べる。 -/
theorem Sub.nodeFreeP_iff : ∀ {d cap fuel : Nat} {a : Addr} {lo hi : Option K}, cap ≤ 63 → d < fuel →
    Sub h descp d cap a lo hi → (nodeFreeP h fuel a = true ↔ ∀ y v, Has h d a y v → v.nilP = true)
  | _, _, 0, _, _, _, _, hf, _ => absurd hf (Nat.not_lt_zero _)
  | 0, cap, fuel + 1, a, _, _, hc, _, hs => by
      have hn := hs.2.n_le
      simp only [nodeFreeP, hs.2.innerp, Bool.not_false, ↓reduceIte, decide_eq_true_eq]
      rw [Arr.le_scan_iff (by omega)]
      constructor
      · rintro hall y v ⟨j, hj, _, rfl⟩
        exact hall j hj
      · intro hall j hj
        obtain ⟨k, hk, _⟩ := hs.2.keys j hj
        exact hall k _ ⟨j, hj, hk, rfl⟩
  | d + 1, cap, fuel + 1, a, _, _, hc, hf, hs => by
      have hn := hs.2.1.n_le
      have ih : ∀ i, i ≤ (h.get a).n → (nodeFreeP h fuel ((h.get a).kid i) = true ↔
          ∀ y v, Has h d ((h.get a).kid i) y v → v.nilP = true) :=
        fun i hi => Sub.nodeFreeP_iff (by omega) (by omega) (hs.2.1.kids i hi)
      simp only [nodeFreeP, hs.2.1.innerp, Bool.not_true, Bool.false_eq_true, ↓reduceIte, decide_eq_true_eq]
      rw [Nat.lt_iff_add_one_le, Arr.le_scan_iff (by omega)]
      constructor
      · rintro hall y v ⟨i, hi, hy⟩
        exact (ih i hi).mp (hall i (by omega)) y v hy
      · exact fun hall i hi => (ih i (by omega)).mpr (fun y v hy => hall y v ⟨i, by omega, hy⟩)

/-! ## 分けた二つの節 -/

theorem piv_eq : piv = 31 := rfl

/-- 節 `t` の中身を、前半 `l` と後半 `r` に分けた。 -/
structure Node.Cut (t l r : Node K Q) : Prop where
  l_n : l.n = piv + (!t.innerp).toNat
  l_innerp : l.innerp = t.innerp
  l_key : ∀ i, i < l.n → l.key.get i = t.key.get i
  l_nan : t.innerp = false → ∀ i, l.n ≤ i → i < 64 → l.key.get i = none
  l_val : ∀ i, i ≤ piv → l.val.get i = t.val.get i
  r_n : r.n = piv
  r_innerp : r.innerp = t.innerp
  r_key : ∀ i, i < piv → r.key.get i = t.key.get (piv + 1 + i)
  r_nan : t.innerp = false → ∀ i, piv ≤ i → i < 64 → r.key.get i = none
  r_val : ∀ i, i ≤ piv → r.val.get i = t.val.get (piv + 1 + i)

/-- `node_split` は、`CHLD` の後半を `RGHT` に移す。 -/
theorem Node.Cut.node (c r : Node K Q) (rght : Addr) (nxt : Option Addr) :
    c.Cut (splitChld c rght) { splitRght r c with next := nxt } := by
  have hn : piv + (!c.innerp).toNat ≤ 32 := by cases c.innerp <;> simp [piv_eq]
  refine ⟨rfl, rfl, fun i hi => ?_, fun _ i hi hi₂ => ?_, fun _ _ => rfl, rfl, rfl, fun i hi => ?_,
    fun _ i hi hi₂ => ?_, fun i hi => ?_⟩
  · have hi₂ : i < piv + (!c.innerp).toNat := hi
    simp only [splitChld]
    rw [Arr.get_fill _ _ _ (by omega), if_neg (by omega)]
  · simp only [splitChld] at hi ⊢
    rw [Arr.get_fill _ _ _ hi₂, if_pos hi]
  · simp only [splitRght]
    rw [piv_eq] at hi
    rw [Arr.get_fill _ _ _ (by omega), if_neg (by rw [piv_eq]; omega),
      Arr.get_copy _ _ (by decide) (by decide), if_pos (by rw [piv_eq]; omega)]
    congr 1; omega
  · simp only [splitRght]
    rw [Arr.get_fill _ _ _ hi₂, if_pos hi]
  · simp only [splitRght]
    rw [piv_eq] at hi
    rw [Arr.get_copy _ _ (by decide) (by decide), if_pos (by rw [piv_eq]; omega)]
    congr 1; omega

/-- 節 `c` の中身を、前半 `l` と後半 `r` に分けた。`node_split` では `l` は `c` 自身である。 -/
structure Halves (h h' : Heap K Q) (descp : Bool) (d : Nat) (c l r : Addr) : Prop where
  l_lt : l < h'.size
  r_lt : r < h'.size
  l_out : l = c ∨ ¬ Mem h d c l
  r_out : ¬ Mem h d c r
  ne : l ≠ r
  l_n : (h'.get l).n = piv + (!(h.get c).innerp).toNat
  l_innerp : (h'.get l).innerp = (h.get c).innerp
  l_descp : (h'.get l).descp = descp
  l_key : ∀ i, i < (h'.get l).n → (h'.get l).key.get i = (h.get c).key.get i
  l_nan : (h.get c).innerp = false → ∀ i, (h'.get l).n ≤ i → i < 64 → (h'.get l).key.get i = none
  l_val : ∀ i, i ≤ piv → (h'.get l).val.get i = (h.get c).val.get i
  r_n : (h'.get r).n = piv
  r_innerp : (h'.get r).innerp = (h.get c).innerp
  r_descp : (h'.get r).descp = descp
  r_key : ∀ i, i < piv → (h'.get r).key.get i = (h.get c).key.get (piv + 1 + i)
  r_nan : (h.get c).innerp = false → ∀ i, piv ≤ i → i < 64 → (h'.get r).key.get i = none
  r_val : ∀ i, i ≤ piv → (h'.get r).val.get i = (h.get c).val.get (piv + 1 + i)
  rest : ∀ x, Mem h d c x → x ≠ c → x < h'.size ∧ (h'.get x).n = (h.get x).n ∧
    (h'.get x).innerp = (h.get x).innerp ∧ (h'.get x).descp = (h.get x).descp ∧
    (h'.get x).key = (h.get x).key ∧ (h'.get x).val = (h.get x).val

/-- 埋まった節の中央のキーは、範囲の内側にある。 -/
theorem Sub.pivot (hs : Sub h descp d 63 c lo hi) (hn : (h.get c).n = 63) :
    ∃ s, (h.get c).key.get piv = some s ∧ Above descp lo s ∧ Below descp hi s := by
  cases d with
  | zero =>
      obtain ⟨s, hs₁, hs₂, _⟩ := hs.2.keys piv (by rw [hn]; decide)
      obtain ⟨k, hk, _, hk₂⟩ := hs.2.keys 62 (by omega)
      exact ⟨s, hs₁, hs₂, hk₂.below (hs.2.sorted piv 62 s k (by decide) (by omega) hs₁ hk)⟩
  | succ d => exact hs.2.1.seps piv (by rw [hn]; decide)

namespace Node.Cut

variable {t t₁ t₂ : Node K Q}

theorem l_kid (C : t.Cut t₁ t₂) {i : Nat} (hi : i ≤ piv) : t₁.kid i = t.kid i := by
  simp only [Node.kid, C.l_val i hi]

theorem r_kid (C : t.Cut t₁ t₂) {i : Nat} (hi : i ≤ piv) : t₂.kid i = t.kid (piv + 1 + i) := by
  simp only [Node.kid, C.r_val i hi]

end Node.Cut

namespace Halves

theorem cut (H : Halves h h' descp d c l r) : (h.get c).Cut (h'.get l) (h'.get r) :=
  ⟨H.l_n, H.l_innerp, H.l_key, H.l_nan, H.l_val, H.r_n, H.r_innerp, H.r_key, H.r_nan, H.r_val⟩

theorem l_kid (H : Halves h h' descp d c l r) {i : Nat} (hi : i ≤ piv) : (h'.get l).kid i = (h.get c).kid i :=
  H.cut.l_kid hi

theorem r_kid (H : Halves h h' descp d c l r) {i : Nat} (hi : i ≤ piv) :
    (h'.get r).kid i = (h.get c).kid (piv + 1 + i) :=
  H.cut.r_kid hi

theorem kid_same (H : Halves h h' descp (d + 1) c l r) (hs : Sub h descp (d + 1) 63 c lo hi) {i : Nat}
    (hi' : i ≤ (h.get c).n) : ∀ y, Mem h d ((h.get c).kid i) y →
      y < h'.size ∧ (h.get y).SameShape (h'.get y) := by
  intro y hy
  have hne : y ≠ c := by rintro rfl; exact hs.2.2.self i hi' hy
  obtain ⟨h₁, h₂, h₃, h₄, h₅, h₆⟩ := H.rest y (Mem.kid hi' hy) hne
  exact ⟨h₁, ⟨h₂, h₃, h₄, h₅, fun _ => h₆⟩⟩

theorem kid_mem (H : Halves h h' descp (d + 1) c l r) (hs : Sub h descp (d + 1) 63 c lo hi) {i : Nat}
    (hi' : i ≤ (h.get c).n) : Mem h' d ((h.get c).kid i) x ↔ Mem h d ((h.get c).kid i) x :=
  (hs.2.1.kids i hi').mem_frame (fun y hy => (H.kid_same hs hi' y hy).2)

theorem kid_has (H : Halves h h' descp (d + 1) c l r) (hs : Sub h descp (d + 1) 63 c lo hi) {i : Nat}
    (hi' : i ≤ (h.get c).n) {y : K} {v : BtreeVal Q} :
    Has h' d ((h.get c).kid i) y v ↔ Has h d ((h.get c).kid i) y v :=
  has_frame (fun x hx => by
    have hne : x ≠ c := by rintro rfl; exact hs.2.2.self i hi' hx
    obtain ⟨_, h₂, _, _, h₅, h₆⟩ := H.rest x (Mem.kid hi' hx) hne
    exact ⟨h₂, h₅, h₆⟩)

theorem l_mem (H : Halves h h' descp d c l r) (hs : Sub h descp d 63 c lo hi) (hn : (h.get c).n = 63)
    (hx : Mem h' d l x) : x = l ∨ (Mem h d c x ∧ x ≠ c) := by
  cases d with
  | zero => exact Or.inl hx
  | succ d =>
      rcases hx with rfl | ⟨i, hi', hx⟩
      · exact Or.inl rfl
      · rw [H.l_n, hs.2.1.innerp] at hi'
        have hi₂ : i ≤ (h.get c).n := by rw [hn]; simp [piv_eq] at hi'; omega
        rw [H.l_kid (by simpa using hi'), H.kid_mem hs hi₂] at hx
        exact Or.inr ⟨Mem.kid hi₂ hx, by rintro rfl; exact hs.2.2.self i hi₂ hx⟩

theorem r_mem (H : Halves h h' descp d c l r) (hs : Sub h descp d 63 c lo hi) (hn : (h.get c).n = 63)
    (hx : Mem h' d r x) : x = r ∨ (Mem h d c x ∧ x ≠ c) := by
  cases d with
  | zero => exact Or.inl hx
  | succ d =>
      rcases hx with rfl | ⟨i, hi', hx⟩
      · exact Or.inl rfl
      · rw [H.r_n] at hi'
        have hi₂ : piv + 1 + i ≤ (h.get c).n := by rw [hn]; simp only [piv_eq] at hi' ⊢; omega
        rw [H.r_kid hi', H.kid_mem hs hi₂] at hx
        exact Or.inr ⟨Mem.kid hi₂ hx, by rintro rfl; exact hs.2.2.self _ hi₂ hx⟩

theorem mem_split (H : Halves h h' descp d c l r) (hs : Sub h descp d 63 c lo hi) (hn : (h.get c).n = 63)
    (hx : Mem h d c x) : x = c ∨ Mem h' d l x ∨ Mem h' d r x := by
  cases d with
  | zero => exact Or.inl hx
  | succ d =>
      rcases hx with he | ⟨i, hi', hx⟩
      · exact Or.inl he
      · have hln : (h'.get l).n = 31 := by rw [H.l_n, hs.2.1.innerp]; rfl
        have hrn : (h'.get r).n = 31 := H.r_n
        by_cases hlt : i ≤ piv
        · refine Or.inr (Or.inl (Mem.kid (i := i) (by rw [piv_eq] at hlt; omega) ?_))
          rw [H.l_kid hlt, H.kid_mem hs hi']; exact hx
        · have he : piv + 1 + (i - (piv + 1)) = i := by omega
          rw [piv_eq] at hlt
          refine Or.inr (Or.inr (Mem.kid (i := i - (piv + 1)) (by rw [piv_eq]; omega) ?_))
          rw [H.r_kid (by rw [piv_eq]; omega), he, H.kid_mem hs hi']; exact hx

theorem disjoint (H : Halves h h' descp d c l r) (hs : Sub h descp d 63 c lo hi) (hn : (h.get c).n = 63)
    (hl : Mem h' d l x) : ¬ Mem h' d r x := by
  intro hr
  cases d with
  | zero => cases hl; exact H.ne hr
  | succ d =>
      rcases hl with rfl | ⟨i, hi', hl⟩
      · rcases H.r_mem hs hn hr with he | ⟨hm, hne⟩
        · exact H.ne he
        · rcases H.l_out with rfl | ho
          · exact hne rfl
          · exact ho hm
      · rw [H.l_n, hs.2.1.innerp] at hi'
        have hi₂ : i ≤ piv := by simpa using hi'
        have hi₃ : i ≤ (h.get c).n := by rw [hn]; simp only [piv_eq] at hi₂; omega
        rw [H.l_kid hi₂, H.kid_mem hs hi₃] at hl
        rcases hr with rfl | ⟨j, hj, hr⟩
        · exact H.r_out (Mem.kid hi₃ hl)
        · rw [H.r_n] at hj
          have hj₂ : piv + 1 + j ≤ (h.get c).n := by rw [hn]; simp only [piv_eq] at hj ⊢; omega
          rw [H.r_kid hj, H.kid_mem hs hj₂] at hr
          exact hs.2.2.kids i _ x hi₃ hj₂ (by omega) hl hr

theorem l_sub (H : Halves h h' descp d c l r) (hs : Sub h descp d 63 c lo hi) (hn : (h.get c).n = 63) :
    Sub h' descp d 62 l lo ((h.get c).key.get piv) := by
  obtain ⟨s, hs₁, hs₂, hs₃⟩ := hs.pivot hn
  cases d with
  | zero =>
      have hc := hs.2
      have hln : (h'.get l).n = 32 := by rw [H.l_n, hc.innerp]; rfl
      refine ⟨H.l_lt, ⟨by rw [H.l_innerp]; exact hc.innerp, H.l_descp, by omega, fun i hi' => ?_,
        fun i j b e hij hj hb he => ?_, H.l_nan hc.innerp⟩⟩
      · obtain ⟨k, hk, hk₁, _⟩ := hc.keys i (by omega)
        rw [H.l_key i hi', hs₁]
        refine ⟨k, hk, hk₁, upto_some.mpr ?_⟩
        rcases Nat.lt_or_eq_of_le (show i ≤ piv by rw [piv_eq]; omega) with hlt | rfl
        · exact (hc.sorted i piv k s hlt (by rw [hn]; decide) hk hs₁).asymm
        · rw [hs₁] at hk; cases hk; exact Before.irrefl s
      · rw [H.l_key i (by omega)] at hb
        rw [H.l_key j hj] at he
        exact hc.sorted i j b e hij (by omega) hb he
  | succ d =>
      have hc := hs.2.1
      have hln : (h'.get l).n = 31 := by rw [H.l_n, hc.innerp]; rfl
      refine ⟨H.l_lt, ⟨by rw [H.l_innerp]; exact hc.innerp, H.l_descp, by omega, by omega, fun i hi' => ?_,
        fun i j b e hij hj hb he => ?_, fun i hi' => ?_⟩, ⟨fun i hi' => ?_, fun i j x hi' hj hij hx => ?_⟩⟩
      · obtain ⟨k, hk, hk₁, _⟩ := hc.seps i (by omega)
        rw [H.l_key i hi', hs₁]
        exact ⟨k, hk, hk₁,
          below_some.mpr (hc.sorted i piv k s (by rw [piv_eq]; omega) (by rw [hn]; decide) hk hs₁)⟩
      · rw [H.l_key i (by omega)] at hb
        rw [H.l_key j hj] at he
        exact hc.sorted i j b e hij (by omega) hb he
      · have hkid := (hc.kids i (by omega)).frame (H.kid_same hs (by omega))
        rw [H.l_kid (by rw [piv_eq]; omega)]
        have e₁ : (h'.get l).lower lo i = (h.get c).lower lo i := by
          unfold Node.lower
          split
          · rfl
          · exact H.l_key _ (by omega)
        have e₂ : (h'.get l).upper ((h.get c).key.get piv) i = (h.get c).upper hi i := by
          unfold Node.upper
          rw [if_pos (show i < (h.get c).n by omega)]
          split
          · exact H.l_key _ (by omega)
          · rw [show i = piv by rw [piv_eq]; omega]
        rw [e₁, e₂]; exact hkid
      · rw [H.l_kid (by rw [piv_eq]; omega), H.kid_mem hs (by omega)]
        intro hm
        rcases H.l_out with rfl | ho
        · exact hs.2.2.self i (by omega) hm
        · exact ho (Mem.kid (by omega) hm)
      · rw [H.l_kid (by rw [piv_eq]; omega), H.kid_mem hs (by omega)] at hx
        rw [H.l_kid (by rw [piv_eq]; omega), H.kid_mem hs (by omega)]
        exact hs.2.2.kids i j x (by omega) (by omega) hij hx

theorem r_sub (H : Halves h h' descp d c l r) (hs : Sub h descp d 63 c lo hi) (hn : (h.get c).n = 63) :
    Sub h' descp d 62 r ((h.get c).key.get piv) hi := by
  obtain ⟨s, hs₁, hs₂, hs₃⟩ := hs.pivot hn
  have hrn : (h'.get r).n = 31 := H.r_n
  cases d with
  | zero =>
      have hc := hs.2
      refine ⟨H.r_lt, ⟨by rw [H.r_innerp]; exact hc.innerp, H.r_descp, by omega, fun i hi' => ?_,
        fun i j b e hij hj hb he => ?_, by rw [hrn]; exact H.r_nan hc.innerp⟩⟩
      · obtain ⟨k, hk, _, hk₂⟩ := hc.keys (piv + 1 + i) (by rw [piv_eq]; omega)
        rw [H.r_key i (by rw [piv_eq]; omega), hs₁]
        exact ⟨k, hk, above_some.mpr (hc.sorted piv _ s k (by omega) (by rw [piv_eq]; omega) hs₁ hk), hk₂⟩
      · rw [H.r_key i (by rw [piv_eq]; omega)] at hb
        rw [H.r_key j (by rw [piv_eq]; omega)] at he
        exact hc.sorted _ _ b e (by omega) (by rw [piv_eq]; omega) hb he
  | succ d =>
      have hc := hs.2.1
      refine ⟨H.r_lt, ⟨by rw [H.r_innerp]; exact hc.innerp, H.r_descp, by omega, by omega, fun i hi' => ?_,
        fun i j b e hij hj hb he => ?_, fun i hi' => ?_⟩, ⟨fun i hi' => ?_, fun i j x hi' hj hij hx => ?_⟩⟩
      · obtain ⟨k, hk, _, hk₂⟩ := hc.seps (piv + 1 + i) (by rw [piv_eq]; omega)
        rw [H.r_key i (by rw [piv_eq]; omega), hs₁]
        exact ⟨k, hk, above_some.mpr (hc.sorted piv _ s k (by omega) (by rw [piv_eq]; omega) hs₁ hk), hk₂⟩
      · rw [H.r_key i (by rw [piv_eq]; omega)] at hb
        rw [H.r_key j (by rw [piv_eq]; omega)] at he
        exact hc.sorted _ _ b e (by omega) (by rw [piv_eq]; omega) hb he
      · have hkid := (hc.kids (piv + 1 + i) (by rw [piv_eq]; omega)).frame (H.kid_same hs (by rw [piv_eq]; omega))
        rw [H.r_kid (by rw [piv_eq]; omega)]
        have e₁ : (h'.get r).lower ((h.get c).key.get piv) i = (h.get c).lower lo (piv + 1 + i) := by
          unfold Node.lower
          rw [if_neg (show ¬ piv + 1 + i = 0 by omega)]
          split
          · rename_i h0; subst h0; rfl
          · rw [H.r_key _ (by rw [piv_eq]; omega)]; congr 1; omega
        have e₂ : (h'.get r).upper hi i = (h.get c).upper hi (piv + 1 + i) := by
          unfold Node.upper
          by_cases hlt : i < (h'.get r).n
          · rw [if_pos hlt, if_pos (by rw [piv_eq]; omega)]; exact H.r_key _ (by rw [piv_eq]; omega)
          · rw [if_neg hlt, if_neg (by rw [piv_eq]; omega)]
        rw [e₁, e₂]; exact hkid
      · rw [H.r_kid (by rw [piv_eq]; omega), H.kid_mem hs (by rw [piv_eq]; omega)]
        exact fun hm => H.r_out (Mem.kid (by rw [piv_eq]; omega) hm)
      · rw [H.r_kid (by rw [piv_eq]; omega), H.kid_mem hs (by rw [piv_eq]; omega)] at hx
        rw [H.r_kid (by rw [piv_eq]; omega), H.kid_mem hs (by rw [piv_eq]; omega)]
        exact hs.2.2.kids _ _ x (by rw [piv_eq]; omega) (by rw [piv_eq]; omega) (by omega) hx

/-- 分けた二つの部分木の組を合わせると、元の組になる。 -/
theorem has_iff (H : Halves h h' descp d c l r) (hs : Sub h descp d 63 c lo hi) (hn : (h.get c).n = 63)
    {y : K} {v : BtreeVal Q} : Has h' d l y v ∨ Has h' d r y v ↔ Has h d c y v := by
  have hrn : (h'.get r).n = 31 := H.r_n
  cases d with
  | zero =>
      have hln : (h'.get l).n = 32 := by rw [H.l_n, hs.2.innerp]; rfl
      simp only [Has, Node.Has, Node.value]
      constructor
      · rintro (⟨j, hj, hy, hv⟩ | ⟨j, hj, hy, hv⟩)
        · rw [H.l_key j hj] at hy
          rw [H.l_val j (by rw [piv_eq]; omega)] at hv
          exact ⟨j, by omega, hy, hv⟩
        · rw [H.r_key j (by rw [piv_eq]; omega)] at hy
          rw [H.r_val j (by rw [piv_eq]; omega)] at hv
          exact ⟨piv + 1 + j, by rw [piv_eq]; omega, hy, hv⟩
      · rintro ⟨j, hj, hy, hv⟩
        by_cases hlt : j ≤ piv
        · rw [piv_eq] at hlt
          refine Or.inl ⟨j, by omega, ?_, ?_⟩
          · rw [H.l_key j (by omega)]; exact hy
          · rw [H.l_val j (by rw [piv_eq]; omega)]; exact hv
        · have he : piv + 1 + (j - (piv + 1)) = j := by omega
          rw [piv_eq] at hlt
          refine Or.inr ⟨j - (piv + 1), by rw [piv_eq]; omega, ?_, ?_⟩
          · rw [H.r_key _ (by rw [piv_eq]; omega), he]; exact hy
          · rw [H.r_val _ (by rw [piv_eq]; omega), he]; exact hv
  | succ d =>
      have hln : (h'.get l).n = 31 := by rw [H.l_n, hs.2.1.innerp]; rfl
      simp only [Has]
      constructor
      · rintro (⟨i, hi', hy⟩ | ⟨i, hi', hy⟩)
        · rw [H.l_kid (by rw [piv_eq]; omega), H.kid_has hs (by omega)] at hy
          exact ⟨i, by omega, hy⟩
        · rw [H.r_kid (by rw [piv_eq]; omega), H.kid_has hs (by rw [piv_eq]; omega)] at hy
          exact ⟨_, by rw [piv_eq]; omega, hy⟩
      · rintro ⟨i, hi', hy⟩
        by_cases hlt : i ≤ piv
        · refine Or.inl ⟨i, by rw [piv_eq] at hlt; omega, ?_⟩
          rw [H.l_kid hlt, H.kid_has hs hi']; exact hy
        · have he : piv + 1 + (i - (piv + 1)) = i := by omega
          rw [piv_eq] at hlt
          refine Or.inr ⟨i - (piv + 1), by rw [piv_eq]; omega, ?_⟩
          rw [H.r_kid (by rw [piv_eq]; omega), he, H.kid_has hs hi']; exact hy

end Halves

end Books.Btree
