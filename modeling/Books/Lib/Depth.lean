import Mathlib.Order.Lattice
import Mathlib.Algebra.Order.Ring.Int
import Mathlib.Algebra.Order.Field.Basic
import Mathlib.Algebra.Order.Group.MinMax
import Mathlib.Tactic.Ring
import Mathlib.Tactic.Linarith

/-!
# 段の並びを上から取るときの費用

一つの段は、単価 `p` と量 `w` を持つ。並びの上から順に取った量と、費用との関係を定める。費用の曲線は、段ごとに傾きの変わる
折れ線である。
-/

namespace Books.Lib

variable {α F : Type} [Field F]

/-- 量の和。 -/
def amount (w : α → F) (ls : List α) : F := (ls.map w).sum

/-- 全て取る費用。 -/
def worth (p w : α → F) (ls : List α) : F := (ls.map fun l => p l * w l).sum

variable {p w : α → F} {l : α} {ls as bs pre post : List α} {x y k v : F}

@[simp] theorem amount_nil : amount w ([] : List α) = 0 := rfl

@[simp] theorem amount_cons (w : α → F) (l : α) (ls : List α) : amount w (l :: ls) = w l + amount w ls := List.sum_cons

@[simp] theorem amount_append (w : α → F) (as bs : List α) : amount w (as ++ bs) = amount w as + amount w bs := by
  rw [amount, List.map_append, List.sum_append, ← amount, ← amount]

@[simp] theorem worth_nil : worth p w ([] : List α) = 0 := rfl

@[simp] theorem worth_cons (p w : α → F) (l : α) (ls : List α) : worth p w (l :: ls) = p l * w l + worth p w ls :=
  List.sum_cons

@[simp] theorem worth_append (p w : α → F) (as bs : List α) : worth p w (as ++ bs) = worth p w as + worth p w bs := by
  rw [worth, List.map_append, List.sum_append, ← worth, ← worth]

variable [LinearOrder F]

/-- 上から順に `x` だけ取る費用。 -/
def cost (p w : α → F) : List α → F → F
  | [], _ => 0
  | l :: ls, x => p l * min (w l) x + cost p w ls (x - min (w l) x)

/-- 上から順に `x` だけ取るとき、正の量を取る段。 -/
def touched (w : α → F) : List α → F → List α
  | [], _ => []
  | l :: ls, x => if 0 < x then l :: touched w ls (x - min (w l) x) else []

theorem cost_scale (k : F) (p w : α → F) (ls : List α) (x : F) : cost (fun l => k * p l) w ls x = k * cost p w ls x := by
  induction ls generalizing x with
  | nil => exact (mul_zero k).symm
  | cons l ls ih =>
      rw [cost, cost, ih]
      ring

/-! ## 取る段 -/

theorem cost_zero (hw : ∀ a ∈ ls, 0 < w a) : cost p w ls 0 = 0 := by
  induction ls with
  | nil => rfl
  | cons l ls ih =>
      have hl := hw l List.mem_cons_self
      rw [cost, min_eq_right hl.le, sub_zero, ih fun a ha => hw a (List.mem_cons_of_mem l ha), mul_zero, add_zero]

theorem cost_within (hw : ∀ a ∈ l :: ls, 0 < w a) (hx : x ≤ w l) : cost p w (l :: ls) x = p l * x := by
  rw [cost, min_eq_right hx, sub_self, cost_zero fun a ha => hw a (List.mem_cons_of_mem l ha), add_zero]

theorem cost_beyond (hx : w l ≤ x) : cost p w (l :: ls) x = p l * w l + cost p w ls (x - w l) := by
  rw [cost, min_eq_left hx]

theorem touched_nonpos (hx : x ≤ 0) : touched w ls x = [] := by
  cases ls with
  | nil => rfl
  | cons l ls => exact if_neg (not_lt.2 hx)

variable [IsStrictOrderedRing F]

theorem amount_nonneg (hw : ∀ a ∈ ls, 0 < w a) : 0 ≤ amount w ls := by
  induction ls with
  | nil => exact le_refl 0
  | cons l ls ih =>
      have hl := hw l List.mem_cons_self
      have htail := ih fun a ha => hw a (List.mem_cons_of_mem l ha)
      rw [amount_cons]
      linarith

theorem amount_filter_mono {f g : α → Bool} (hw : ∀ a ∈ ls, 0 < w a) (hfg : ∀ a ∈ ls, f a = true → g a = true) :
    amount w (ls.filter f) ≤ amount w (ls.filter g) := by
  induction ls with
  | nil => exact le_refl _
  | cons l ls ih =>
      have hl := hw l List.mem_cons_self
      have htail := ih (fun a ha => hw a (List.mem_cons_of_mem l ha)) fun a ha => hfg a (List.mem_cons_of_mem l ha)
      rw [List.filter_cons, List.filter_cons]
      by_cases hf : f l = true
      · rw [if_pos hf, if_pos (hfg l List.mem_cons_self hf), amount_cons, amount_cons]
        linarith
      · rw [if_neg hf]
        split
        · rw [amount_cons]
          linarith
        · exact htail

theorem cost_append (hw : ∀ a ∈ as, 0 < w a) (hx : amount w as ≤ x) :
    cost p w (as ++ bs) x = worth p w as + cost p w bs (x - amount w as) := by
  induction as generalizing x with
  | nil => rw [List.nil_append, worth_nil, amount_nil, sub_zero, zero_add]
  | cons l as ih =>
      have htail : ∀ a ∈ as, 0 < w a := fun a ha => hw a (List.mem_cons_of_mem l ha)
      have hnn := amount_nonneg htail
      rw [amount_cons] at hx
      rw [List.cons_append, cost_beyond (by linarith), ih htail (by linarith), worth_cons, amount_cons, sub_sub, add_assoc]

theorem cost_amount (hw : ∀ a ∈ ls, 0 < w a) : cost p w ls (amount w ls) = worth p w ls := by
  have h : cost p w (ls ++ []) (amount w ls) = worth p w ls + cost p w [] (amount w ls - amount w ls) :=
    cost_append hw (le_refl _)
  rwa [List.append_nil, cost, add_zero] at h

/-- 量が `pre` を越えて `l` に届くときの費用。 -/
theorem cost_split (hw : ∀ a ∈ pre ++ l :: post, 0 < w a) (hlo : amount w pre ≤ x) (hhi : x ≤ amount w pre + w l) :
    cost p w (pre ++ l :: post) x = worth p w pre + p l * (x - amount w pre) := by
  rw [cost_append (fun a ha => hw a (List.mem_append_left _ ha)) hlo,
    cost_within (fun a ha => hw a (List.mem_append_right pre ha)) (by linarith)]

theorem touched_split (hw : ∀ a ∈ pre ++ l :: post, 0 < w a) (hlo : amount w pre < x) (hhi : x ≤ amount w pre + w l) :
    touched w (pre ++ l :: post) x = pre ++ [l] := by
  induction pre generalizing x with
  | nil =>
      rw [amount_nil] at hlo hhi
      rw [zero_add] at hhi
      rw [List.nil_append, touched, if_pos hlo, min_eq_right hhi, sub_self, touched_nonpos (le_refl 0), List.nil_append]
  | cons a pre ih =>
      have htail : ∀ c ∈ pre ++ l :: post, 0 < w c := fun c hc => hw c (List.mem_cons_of_mem a hc)
      have ha := hw a List.mem_cons_self
      have hnn := amount_nonneg fun c hc => htail c (List.mem_append_left _ hc)
      rw [amount_cons] at hlo hhi
      rw [List.cons_append, touched, if_pos (by linarith), min_eq_left (by linarith), ih htail (by linarith) (by linarith),
        List.cons_append]

/-- 足りる量は、どれかの段で届く。 -/
theorem exists_split (hx : 0 < x) (hle : x ≤ amount w ls) :
    ∃ pre l post, ls = pre ++ l :: post ∧ amount w pre < x ∧ x ≤ amount w pre + w l := by
  induction ls generalizing x with
  | nil => exact absurd hle (not_le.2 hx)
  | cons a ls ih =>
      rcases le_or_gt x (w a) with h | h
      · exact ⟨[], a, ls, rfl, hx, by rwa [amount_nil, zero_add]⟩
      · rw [amount_cons] at hle
        obtain ⟨pre, l, post, rfl, hlo, hhi⟩ := ih (x := x - w a) (by linarith) (by linarith)
        refine ⟨a :: pre, l, post, rfl, ?_, ?_⟩
        · rw [amount_cons]
          linarith
        · rw [amount_cons]
          linarith

/-! ## 曲線の傾き -/

/-- 傾きは、単価の下限以上である。 -/
theorem cost_growth (hw : ∀ a ∈ ls, 0 < w a) (hk : ∀ a ∈ ls, k ≤ p a) (hx : 0 ≤ x) (hxy : x ≤ y) (hy : y ≤ amount w ls) :
    k * (y - x) ≤ cost p w ls y - cost p w ls x := by
  induction ls generalizing x y with
  | nil =>
      rw [amount_nil] at hy
      have hx0 : x = 0 := le_antisymm (hxy.trans hy) hx
      have hy0 : y = 0 := le_antisymm hy (hx.trans hxy)
      rw [hx0, hy0, sub_self, sub_self, mul_zero]
  | cons l ls ih =>
      have htail : ∀ a ∈ ls, 0 < w a := fun a ha => hw a (List.mem_cons_of_mem l ha)
      have hktail : ∀ a ∈ ls, k ≤ p a := fun a ha => hk a (List.mem_cons_of_mem l ha)
      have hkl : k ≤ p l := hk l List.mem_cons_self
      rw [amount_cons] at hy
      rcases le_or_gt y (w l) with hyl | hyl
      · -- 共に初めの段に収まる
        rw [cost_within hw hyl, cost_within hw (hxy.trans hyl), ← mul_sub]
        exact mul_le_mul_of_nonneg_right hkl (sub_nonneg.2 hxy)
      · rcases le_or_gt x (w l) with hxl | hxl
        · -- `x` だけが初めの段に収まる
          have hrest := ih htail hktail (le_refl 0) (sub_nonneg.2 hyl.le) (by linarith)
          have hfirst := mul_le_mul_of_nonneg_right hkl (sub_nonneg.2 hxl)
          rw [cost_zero htail] at hrest
          rw [cost_beyond hyl.le, cost_within hw hxl]
          linarith
        · have hrest := ih htail hktail (sub_nonneg.2 hxl.le) (sub_le_sub_right hxy (w l)) (by linarith)
          rw [cost_beyond hyl.le, cost_beyond hxl.le]
          linarith

theorem cost_mono (hw : ∀ a ∈ ls, 0 < w a) (hp : ∀ a ∈ ls, 0 ≤ p a) (hx : 0 ≤ x) (hxy : x ≤ y) (hy : y ≤ amount w ls) :
    cost p w ls x ≤ cost p w ls y := by
  have h := cost_growth hw hp hx hxy hy
  rw [zero_mul] at h
  exact sub_nonneg.1 h

/-- 正の単価には、正の下限がある。 -/
theorem exists_floor (hp : ∀ a ∈ ls, 0 < p a) : ∃ k, 0 < k ∧ ∀ a ∈ ls, k ≤ p a := by
  induction ls with
  | nil => exact ⟨1, one_pos, fun a ha => absurd ha List.not_mem_nil⟩
  | cons l ls ih =>
      obtain ⟨k, hk, hks⟩ := ih fun a ha => hp a (List.mem_cons_of_mem l ha)
      refine ⟨min k (p l), lt_min hk (hp l List.mem_cons_self), fun a ha => ?_⟩
      rcases List.mem_cons.1 ha with rfl | ha
      · exact min_le_right _ _
      · exact (min_le_left _ _).trans (hks a ha)

theorem cost_strictMono (hw : ∀ a ∈ ls, 0 < w a) (hp : ∀ a ∈ ls, 0 < p a) (hx : 0 ≤ x) (hxy : x < y) (hy : y ≤ amount w ls) :
    cost p w ls x < cost p w ls y := by
  obtain ⟨k, hk, hks⟩ := exists_floor hp
  have hgrow := cost_growth hw hks hx hxy.le hy
  have hpos := mul_pos hk (sub_pos.2 hxy)
  linarith

theorem cost_inj (hw : ∀ a ∈ ls, 0 < w a) (hp : ∀ a ∈ ls, 0 < p a) (hx : 0 ≤ x) (hxs : x ≤ amount w ls) (hy : 0 ≤ y)
    (hys : y ≤ amount w ls) (h : cost p w ls x = cost p w ls y) : x = y := by
  rcases lt_trichotomy x y with hlt | heq | hlt
  · exact absurd h (cost_strictMono hw hp hx hlt hys).ne
  · exact heq
  · exact absurd h (cost_strictMono hw hp hy hlt hxs).ne'

/-- 費用が `v` に届く量。 -/
theorem cost_reach (hw : ∀ a ∈ pre ++ l :: post, 0 < w a) (hp : 0 < p l) (hlo : worth p w pre < v)
    (hhi : v ≤ worth p w pre + p l * w l) :
    amount w pre < amount w pre + (v - worth p w pre) / p l ∧
      amount w pre + (v - worth p w pre) / p l ≤ amount w pre + w l ∧
      cost p w (pre ++ l :: post) (amount w pre + (v - worth p w pre) / p l) = v := by
  have hpos : 0 < (v - worth p w pre) / p l := div_pos (sub_pos.2 hlo) hp
  have hle : (v - worth p w pre) / p l ≤ w l := by
    rw [div_le_iff₀ hp]
    linarith
  refine ⟨by linarith, by linarith, ?_⟩
  rw [cost_split hw (by linarith) (by linarith), add_sub_cancel_left, mul_div_cancel₀ _ hp.ne']
  ring

/-! ## 平均の単価 -/

/-- 平均の単価は、単価の下限以上である。 -/
theorem le_average (hw : ∀ a ∈ ls, 0 < w a) (hk : ∀ a ∈ ls, k ≤ p a) (hx : 0 < x) (hxs : x ≤ amount w ls) :
    k ≤ cost p w ls x / x := by
  have h := cost_growth hw hk (le_refl 0) hx.le hxs
  rw [cost_zero hw, sub_zero, sub_zero] at h
  rwa [le_div_iff₀ hx]

theorem worth_le (hw : ∀ a ∈ ls, 0 < w a) (hk : ∀ a ∈ ls, p a ≤ k) : worth p w ls ≤ k * amount w ls := by
  induction ls with
  | nil => rw [worth_nil, amount_nil, mul_zero]
  | cons l ls ih =>
      have hl := mul_le_mul_of_nonneg_right (hk l List.mem_cons_self) (hw l List.mem_cons_self).le
      have htail := ih (fun a ha => hw a (List.mem_cons_of_mem l ha)) fun a ha => hk a (List.mem_cons_of_mem l ha)
      rw [worth_cons, amount_cons, mul_add]
      linarith

variable (hw : ∀ a ∈ ls, 0 < w a) (hs : ls.Pairwise fun a b => p a ≤ p b)
include hw hs

/-- 平均の単価は、届いた段の単価以下である。 -/
theorem cost_le_last (hsplit : ls = pre ++ l :: post) (hlo : amount w pre < x) (hhi : x ≤ amount w pre + w l) :
    cost p w ls x ≤ p l * x := by
  subst hsplit
  have hbefore : ∀ a ∈ pre, p a ≤ p l := fun a ha => (List.pairwise_append.1 hs).2.2 a ha l List.mem_cons_self
  have hpre := worth_le (fun a ha => hw a (List.mem_append_left _ ha)) hbefore
  rw [cost_split hw hlo.le hhi, mul_sub]
  linarith

/-- 単価が上がる並びでは、多く取るほど、平均の単価は下がらない。 -/
theorem average_mono (hx : 0 < x) (hxy : x ≤ y) (hy : y ≤ amount w ls) : cost p w ls x / x ≤ cost p w ls y / y := by
  obtain ⟨pre, l, post, rfl, hlo, hhi⟩ := exists_split hx (hxy.trans hy)
  have hwpre : ∀ a ∈ pre, 0 < w a := fun a ha => hw a (List.mem_append_left _ ha)
  have hwrest : ∀ a ∈ l :: post, 0 < w a := fun a ha => hw a (List.mem_append_right pre ha)
  have hafter : ∀ a ∈ l :: post, p l ≤ p a := by
    intro a ha
    rcases List.mem_cons.1 ha with rfl | ha
    · exact le_refl _
    · exact (List.pairwise_cons.1 (List.pairwise_append.1 hs).2.1).1 a ha
  have hlast := cost_le_last hw hs rfl hlo hhi
  rw [amount_append] at hy
  have hgrow := cost_growth hwrest hafter (sub_nonneg.2 hlo.le) (sub_le_sub_right hxy (amount w pre)) (by linarith)
  rw [div_le_div_iff₀ hx (hx.trans_le hxy)]
  rw [cost_append hwpre hlo.le] at hlast ⊢
  rw [cost_append hwpre (hlo.le.trans hxy)]
  -- 増えた分の費用は、届いた段の単価以上である
  have hmore := mul_le_mul_of_nonneg_right hlast (sub_nonneg.2 hxy)
  have hrest := mul_le_mul_of_nonneg_left hgrow hx.le
  nlinarith

end Books.Lib
