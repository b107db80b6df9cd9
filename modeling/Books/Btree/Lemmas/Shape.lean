import Books.Btree.Lemmas.Leaf

/-!
# 部分木の不変条件

`Sub` は、節の番地から高さ `d` だけ下にたどれる部分木の条件である。キーの範囲のほかに、節が別々の番地に
あることを述べる。`SearchTree` より強く、操作で保たれる。
-/

set_option linter.unusedSectionVars false

namespace Books.Btree

open Books.Lib

variable {K Q : Type} [LinearOrder K] [LinearOrder Q] [Zero Q]
variable {descp : Bool} {h h' : Heap K Q} {lo hi : Option K} {t : Node K Q} {d cap : Nat} {a x : Addr}

/-! ## 定義 -/

/-- 子 `i` の下の端。 -/
def Node.lower (t : Node K Q) (lo : Option K) (i : Nat) : Option K := if i = 0 then lo else t.key.get (i - 1)

/-- 子 `i` の上の端。 -/
def Node.upper (t : Node K Q) (hi : Option K) (i : Nat) : Option K := if i < t.n then t.key.get i else hi

/-- 内部の節の条件。`P` は子の条件である。 -/
structure Node.TwigOk (descp : Bool) (cap : Nat) (lo hi : Option K)
    (P : Nat → Addr → Option K → Option K → Prop) (t : Node K Q) : Prop where
  innerp : t.innerp = true
  descp_eq : t.descp = descp
  one_le : 1 ≤ t.n
  n_le : t.n ≤ cap
  seps : ∀ i, i < t.n → ∃ k, t.key.get i = some k ∧ Above descp lo k ∧ Below descp hi k
  sorted : ∀ i j a b, i < j → j < t.n → t.key.get i = some a → t.key.get j = some b → Before descp a b
  kids : ∀ i, i ≤ t.n → P i (t.kid i) (t.lower lo i) (t.upper hi i)

/-- 番地 `x` は、`a` から高さ `d` の部分木の節である。 -/
def Mem (h : Heap K Q) : Nat → Addr → Addr → Prop
  | 0, a, x => x = a
  | d + 1, a, x => x = a ∨ ∃ i, i ≤ (h.get a).n ∧ Mem h d ((h.get a).kid i) x

/-- 節 `a` とその子の部分木は、どの二つも節を共有しない。 -/
structure Apart (h : Heap K Q) (d : Nat) (a : Addr) : Prop where
  self : ∀ i, i ≤ (h.get a).n → ¬ Mem h d ((h.get a).kid i) a
  kids : ∀ i j x, i ≤ (h.get a).n → j ≤ (h.get a).n → i ≠ j → Mem h d ((h.get a).kid i) x →
    ¬ Mem h d ((h.get a).kid j) x

/-- 高さ `d` の部分木の条件。根の `n` は `cap` 以下である。 -/
def Sub (h : Heap K Q) (descp : Bool) : Nat → Nat → Addr → Option K → Option K → Prop
  | 0, cap, a, lo, hi => a < h.size ∧ (h.get a).LeafOk descp cap lo hi
  | d + 1, cap, a, lo, hi =>
      a < h.size ∧ (h.get a).TwigOk descp cap lo hi (fun _ c l u => Sub h descp d 62 c l u) ∧ Apart h d a

/-- 部分木にキー `y` と値 `v` の組がある。 -/
def Has (h : Heap K Q) : Nat → Addr → K → BtreeVal Q → Prop
  | 0, a, y, v => (h.get a).Has y v
  | d + 1, a, y, v => ∃ i, i ≤ (h.get a).n ∧ Has h d ((h.get a).kid i) y v

/-- `used`・`next`・`splitp` と葉の値を除いて、二つの節は同じである。 -/
structure Node.SameShape (t t' : Node K Q) : Prop where
  n : t'.n = t.n
  innerp : t'.innerp = t.innerp
  descp : t'.descp = t.descp
  key : t'.key = t.key
  val : t.innerp = true → t'.val = t.val

/-- 葉の `next` は、確保した葉を指す。 -/
def LeafNext (h : Heap K Q) : Prop :=
  ∀ x y, (h.get x).innerp = false → (h.get x).next = some y → y < h.size ∧ (h.get y).innerp = false

theorem Node.SameShape.refl (t : Node K Q) : t.SameShape t := ⟨rfl, rfl, rfl, rfl, fun _ => rfl⟩

theorem Node.SameShape.trans {t₁ t₂ t₃ : Node K Q} (h₁ : t₁.SameShape t₂) (h₂ : t₂.SameShape t₃) :
    t₁.SameShape t₃ :=
  ⟨h₂.n.trans h₁.n, h₂.innerp.trans h₁.innerp, h₂.descp.trans h₁.descp, h₂.key.trans h₁.key,
    fun hi => (h₂.val (by rw [h₁.innerp]; exact hi)).trans (h₁.val hi)⟩

/-! ## 節の番地 -/

theorem Mem.self (h : Heap K Q) (d : Nat) (a : Addr) : Mem h d a a := by
  cases d with
  | zero => rfl
  | succ d => exact Or.inl rfl

theorem Mem.kid {i : Nat} (hi : i ≤ (h.get a).n) (hx : Mem h d ((h.get a).kid i) x) : Mem h (d + 1) a x :=
  Or.inr ⟨i, hi, hx⟩

theorem Sub.lt_size (hs : Sub h descp d cap a lo hi) : a < h.size := by
  cases d with
  | zero => exact hs.1
  | succ d => exact hs.1

theorem Sub.mem_lt_size : ∀ {d cap : Nat} {a : Addr} {lo hi : Option K}, Sub h descp d cap a lo hi →
    Mem h d a x → x < h.size
  | 0, _, _, _, _, hs, hx => by cases hx; exact hs.1
  | d + 1, _, _, _, _, hs, hx => by
      rcases hx with rfl | ⟨i, hi, hx⟩
      · exact hs.1
      · exact Sub.mem_lt_size (hs.2.1.kids i hi) hx

theorem Sub.n_le (hs : Sub h descp d cap a lo hi) : (h.get a).n ≤ cap := by
  cases d with
  | zero => exact hs.2.n_le
  | succ d => exact hs.2.1.n_le

theorem Sub.descp_eq (hs : Sub h descp d cap a lo hi) : (h.get a).descp = descp := by
  cases d with
  | zero => exact hs.2.descp_eq
  | succ d => exact hs.2.1.descp_eq

theorem Sub.innerp_eq (hs : Sub h descp d cap a lo hi) : (h.get a).innerp = decide (0 < d) := by
  cases d with
  | zero => exact hs.2.innerp
  | succ d => exact hs.2.1.innerp

theorem Sub.cap_mono {cap' : Nat} (hs : Sub h descp d cap a lo hi) (hc : (h.get a).n ≤ cap') :
    Sub h descp d cap' a lo hi := by
  cases d with
  | zero => exact ⟨hs.1, { hs.2 with n_le := hc }⟩
  | succ d => exact ⟨hs.1, { hs.2.1 with n_le := hc }, hs.2.2⟩

/-! ## 範囲を広げる -/

theorem Node.wider_kid {lo' hi' : Option K} (t : Node K Q) (w : Wider descp lo hi lo' hi') (i : Nat) :
    Wider descp (t.lower lo i) (t.upper hi i) (t.lower lo' i) (t.upper hi' i) := by
  refine ⟨fun k hk => ?_, fun k hk => ?_, fun k hk => ?_⟩
  · unfold Node.lower at hk ⊢
    split
    · rename_i hi; rw [if_pos hi] at hk; exact w.above k hk
    · rename_i hi; rw [if_neg hi] at hk; exact hk
  · unfold Node.upper at hk ⊢
    split
    · rename_i hi; rw [if_pos hi] at hk; exact hk
    · rename_i hi; rw [if_neg hi] at hk; exact w.upto k hk
  · unfold Node.upper at hk ⊢
    split
    · rename_i hi; rw [if_pos hi] at hk; exact hk
    · rename_i hi; rw [if_neg hi] at hk; exact w.below k hk

theorem Sub.wider : ∀ {d cap : Nat} {a : Addr} {lo hi lo' hi' : Option K}, Sub h descp d cap a lo hi →
    Wider descp lo hi lo' hi' → Sub h descp d cap a lo' hi'
  | 0, _, _, _, _, _, _, hs, w => by
      refine ⟨hs.1, { hs.2 with keys := fun i hi => ?_ }⟩
      obtain ⟨k, hk, h₁, h₂⟩ := hs.2.keys i hi
      exact ⟨k, hk, w.above k h₁, w.upto k h₂⟩
  | d + 1, _, _, _, _, _, _, hs, w => by
      refine ⟨hs.1, { hs.2.1 with seps := fun i hi => ?_, kids := fun i hi => ?_ }, hs.2.2⟩
      · obtain ⟨k, hk, h₁, h₂⟩ := hs.2.1.seps i hi
        exact ⟨k, hk, w.above k h₁, w.below k h₂⟩
      · exact Sub.wider (hs.2.1.kids i hi) (Node.wider_kid _ w i)

/-! ## 節の形が同じヒープ -/

theorem Node.SameShape.kid_eq {t t' : Node K Q} (h : t.SameShape t') (hi : t.innerp = true) (i : Nat) :
    t'.kid i = t.kid i := by
  simp only [kid, h.val hi]

theorem Node.SameShape.lower_eq {t t' : Node K Q} (h : t.SameShape t') (lo : Option K) (i : Nat) :
    t'.lower lo i = t.lower lo i := by
  simp only [lower, h.key]

theorem Node.SameShape.upper_eq {t t' : Node K Q} (h : t.SameShape t') (hi : Option K) (i : Nat) :
    t'.upper hi i = t.upper hi i := by
  simp only [upper, h.key, h.n]

theorem Sub.mem_frame : ∀ {d cap : Nat} {a x : Addr} {lo hi : Option K}, Sub h descp d cap a lo hi →
    (∀ y, Mem h d a y → (h.get y).SameShape (h'.get y)) → (Mem h' d a x ↔ Mem h d a x)
  | 0, _, _, _, _, _, _, _ => Iff.rfl
  | d + 1, _, a, x, _, _, hs, hf => by
      have ha := hf a (Mem.self h (d + 1) a)
      simp only [Mem, ha.n, ha.kid_eq hs.2.1.innerp]
      constructor
      · rintro (rfl | ⟨i, hi, hx⟩)
        · exact Or.inl rfl
        · exact Or.inr ⟨i, hi, (Sub.mem_frame (hs.2.1.kids i hi) (fun y hy => hf y (Mem.kid hi hy))).mp hx⟩
      · rintro (rfl | ⟨i, hi, hx⟩)
        · exact Or.inl rfl
        · exact Or.inr ⟨i, hi, (Sub.mem_frame (hs.2.1.kids i hi) (fun y hy => hf y (Mem.kid hi hy))).mpr hx⟩

theorem Sub.frame : ∀ {d cap : Nat} {a : Addr} {lo hi : Option K}, Sub h descp d cap a lo hi →
    (∀ y, Mem h d a y → y < h'.size ∧ (h.get y).SameShape (h'.get y)) → Sub h' descp d cap a lo hi
  | 0, _, a, _, _, hs, hf => by
      obtain ⟨hlt, ha⟩ := hf a rfl
      refine ⟨hlt, ?_⟩
      have hl := hs.2
      exact ⟨by rw [ha.innerp]; exact hl.innerp, by rw [ha.descp]; exact hl.descp_eq, by rw [ha.n]; exact hl.n_le,
        by rw [ha.n, ha.key]; exact hl.keys, by rw [ha.n, ha.key]; exact hl.sorted,
        by rw [ha.n, ha.key]; exact hl.nan⟩
  | d + 1, _, a, _, _, hs, hf => by
      obtain ⟨hlt, ha⟩ := hf a (Mem.self h (d + 1) a)
      have ht := hs.2.1
      have hkid := ha.kid_eq ht.innerp
      have hmem : ∀ i x, i ≤ (h.get a).n → (Mem h' d ((h.get a).kid i) x ↔ Mem h d ((h.get a).kid i) x) :=
        fun i x hi => Sub.mem_frame (ht.kids i hi) (fun y hy => (hf y (Mem.kid hi hy)).2)
      refine ⟨hlt, ⟨by rw [ha.innerp]; exact ht.innerp, by rw [ha.descp]; exact ht.descp_eq,
        by rw [ha.n]; exact ht.one_le, by rw [ha.n]; exact ht.n_le, by rw [ha.n, ha.key]; exact ht.seps,
        by rw [ha.n, ha.key]; exact ht.sorted, fun i hi => ?_⟩, ⟨fun i hi => ?_, fun i j x hi hj hij hx => ?_⟩⟩
      · rw [ha.n] at hi
        rw [hkid, ha.lower_eq, ha.upper_eq]
        exact Sub.frame (ht.kids i hi) (fun y hy => hf y (Mem.kid hi hy))
      · rw [ha.n] at hi
        rw [hkid, hmem i a hi]
        exact hs.2.2.self i hi
      · rw [ha.n] at hi hj
        rw [hkid, hmem _ _ hi] at hx
        rw [hkid, hmem _ _ hj]
        exact hs.2.2.kids i j x hi hj hij hx

/-! ## 組 -/

theorem has_frame : ∀ {d : Nat} {a : Addr} {y : K} {v : BtreeVal Q},
    (∀ x, Mem h d a x → (h'.get x).n = (h.get x).n ∧ (h'.get x).key = (h.get x).key ∧
      (h'.get x).val = (h.get x).val) → (Has h' d a y v ↔ Has h d a y v)
  | 0, a, y, v, hf => by
      obtain ⟨h₁, h₂, h₃⟩ := hf a rfl
      simp only [Has, Node.Has, Node.value, h₁, h₂, h₃]
  | d + 1, a, y, v, hf => by
      obtain ⟨h₁, _, h₃⟩ := hf a (Mem.self h (d + 1) a)
      simp only [Has, h₁, Node.kid, h₃]
      constructor
      · rintro ⟨i, hi, hx⟩
        exact ⟨i, hi, (has_frame (fun x hx => hf x (Mem.kid hi hx))).mp hx⟩
      · rintro ⟨i, hi, hx⟩
        exact ⟨i, hi, (has_frame (fun x hx => hf x (Mem.kid hi hx))).mpr hx⟩

theorem Sub.has_bounds : ∀ {d cap : Nat} {a : Addr} {lo hi : Option K} {y : K} {v : BtreeVal Q},
    Sub h descp d cap a lo hi → Has h d a y v → Above descp lo y ∧ Upto descp hi y
  | 0, _, _, _, _, _, _, hs, hy => by
      obtain ⟨j, hj, hjy, _⟩ := hy
      obtain ⟨k, hk, h₁, h₂⟩ := hs.2.keys j hj
      rw [hk] at hjy; cases hjy
      exact ⟨h₁, h₂⟩
  | d + 1, _, a, _, _, y, _, hs, hy => by
      obtain ⟨i, hi, hy⟩ := hy
      obtain ⟨h₁, h₂⟩ := Sub.has_bounds (hs.2.1.kids i hi) hy
      unfold Node.lower at h₁
      unfold Node.upper at h₂
      constructor
      · split at h₁
        · exact h₁
        · obtain ⟨s, hs', ha, _⟩ := hs.2.1.seps (i - 1) (by omega)
          rw [hs'] at h₁
          exact ha.trans (above_some.mp h₁)
      · split at h₂
        · rename_i hin
          obtain ⟨s, hs', _, hb⟩ := hs.2.1.seps i hin
          rw [hs'] at h₂
          intro u hu
          exact fun huy => upto_some.mp h₂ ((hb u hu).trans huy)
        · exact h₂

end Books.Btree
