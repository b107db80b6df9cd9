import Books.Booksnap.Spec
import Mathlib.Algebra.Order.Group.Int
import Mathlib.Algebra.Ring.Divisibility.Basic
import Mathlib.Algebra.Ring.Int.Defs
import Mathlib.Data.Int.Cast.Lemmas
import Mathlib.Tactic.Ring

/-!
# 時計の計算

`roundUp` は、64 ビットの計算で一周しなければ、時刻以上の最小の刻みを返す。
-/

namespace Books.Booksnap

open Books.Btree Books.Book

variable {cfg : Conf} {c : Clock} {t x : Tv} {n : Nat}

/-! ## 切り上げ -/

theorem toNat_pos (h : 0 < cfg.intv) : 0 < cfg.intv.toNat := UInt64.lt_iff_toNat_lt.mp h

theorem excess_lt (h : 0 < cfg.intv) : excess cfg x < cfg.intv.toNat := by
  have hi := toNat_pos h
  unfold excess
  omega

theorem roundUp_toNat (h : 0 < cfg.intv) : (roundUp cfg x).toNat = (x.toNat + excess cfg x) % 2 ^ 64 := by
  have hi := toNat_pos h
  have hx := x.toNat_lt
  have ho := cfg.offs.toNat_lt
  have hsub : (x - 1 - cfg.offs).toNat = (2 ^ 64 - cfg.offs.toNat + (2 ^ 64 - 1 + x.toNat) % 2 ^ 64) % 2 ^ 64 := by
    rw [UInt64.toNat_sub, UInt64.toNat_sub]
    rfl
  have hlt := (x - 1 - cfg.offs).toNat_lt
  have hdm := Nat.div_add_mod (x - 1 - cfg.offs).toNat cfg.intv.toNat
  have hmod := Nat.mod_lt (x - 1 - cfg.offs).toNat hi
  have hmul : ((x - 1 - cfg.offs).toNat / cfg.intv.toNat + 1) * cfg.intv.toNat =
      cfg.intv.toNat * ((x - 1 - cfg.offs).toNat / cfg.intv.toNat) + cfg.intv.toNat := by
    rw [Nat.add_mul, Nat.one_mul, Nat.mul_comm]
  have hval : (roundUp cfg x).toNat =
      (((x - 1 - cfg.offs).toNat / cfg.intv.toNat + 1) * cfg.intv.toNat + cfg.offs.toNat) % 2 ^ 64 := by
    rw [roundUp, UInt64.toNat_add, UInt64.toNat_mul, UInt64.toNat_add, UInt64.toNat_div, UInt64.toNat_one, Nat.mod_add_mod,
      Nat.add_mod, Nat.mod_mul_mod, ← Nat.add_mod]
  rw [hval, hmul, excess]
  omega

/-- 切り上げが時刻より前に戻らないのは、一周しないときで、そのときに限る。 -/
theorem le_roundUp_iff (h : 0 < cfg.intv) : x ≤ roundUp cfg x ↔ x.toNat + excess cfg x < 2 ^ 64 := by
  have he := excess_lt (x := x) h
  have hi := cfg.intv.toNat_lt
  have hx := x.toNat_lt
  rw [UInt64.le_iff_toNat_le, roundUp_toNat h]
  omega

/-- `canonicalise` は、`--offset` の値を刻みの上に置き直す。 -/
theorem canonicalise_onGrid {intv : Tv} {o : Int} (h : 0 < intv) (h₁ : -2 ^ 63 ≤ o) (h₂ : o < 2 ^ 63) :
    OnGrid intv o (canonicalise intv o).toNat := by
  have hi : 0 < intv.toNat := UInt64.lt_iff_toNat_lt.mp h
  have hi' := intv.toNat_lt
  -- 余りは、`intv` の倍数を除いたものである。
  have hmod : ∀ z : Int, 0 ≤ z → z < 2 ^ 64 →
      ((UInt64.ofNat z.toNat % intv).toNat : Int) = z - intv.toNat * (z / intv.toNat) := by
    intro z h₀ hz
    have hlt : z.toNat < 2 ^ 64 := by omega
    rw [UInt64.toNat_mod, UInt64.toNat_ofNat', Nat.mod_eq_of_lt hlt, Int.natCast_emod, Int.toNat_of_nonneg h₀, Int.emod_def]
  unfold canonicalise OnGrid
  split
  · rw [hmod o (by omega) (by omega)]
    exact ⟨-(o / intv.toNat), by ring⟩
  · split
    · have hle : UInt64.ofNat (-o).toNat % intv ≤ intv := by
        rw [UInt64.le_iff_toNat_le, UInt64.toNat_mod]
        exact Nat.le_of_lt (Nat.mod_lt _ hi)
      rw [UInt64.toNat_sub_of_le _ _ hle, Nat.cast_sub (UInt64.le_iff_toNat_le.mp hle), hmod (-o) (by omega) (by omega)]
      exact ⟨1 + -o / intv.toNat, by ring⟩
    · have ho : o = 0 := by omega
      rw [ho]
      exact dvd_zero _

/-- `offs` より後の時刻では、`roundUp` は時刻以上の最小の刻みである。 -/
theorem roundUp_isLeast {o : Int} (h : 0 < cfg.intv) (hoffs : OnGrid cfg.intv o cfg.offs.toNat) (ho : cfg.offs < x)
    (hx : x.toNat + cfg.intv.toNat ≤ 2 ^ 64) : IsLeast (gridFrom cfg.intv o x.toNat) (roundUp cfg x).toNat := by
  have hi := toNat_pos h
  have ho' : cfg.offs.toNat < x.toNat := UInt64.lt_iff_toNat_lt.mp ho
  have hsub : (x - 1 - cfg.offs).toNat = x.toNat - 1 - cfg.offs.toNat := by
    have hlt := x.toNat_lt
    have hone : (1 : UInt64).toNat = 1 := rfl
    rw [UInt64.toNat_sub, UInt64.toNat_sub, hone]
    omega
  have hdm := Nat.div_add_mod (x.toNat - 1 - cfg.offs.toNat) cfg.intv.toNat
  have hmod := Nat.mod_lt (x.toNat - 1 - cfg.offs.toNat) hi
  have hval : (roundUp cfg x).toNat =
      cfg.offs.toNat + cfg.intv.toNat * ((x.toNat - 1 - cfg.offs.toNat) / cfg.intv.toNat + 1) := by
    rw [roundUp_toNat h, excess, hsub, Nat.mul_add, Nat.mul_one]
    omega
  refine ⟨⟨?_, ?_⟩, fun m ⟨hm, hgrid⟩ => ?_⟩
  · rw [hval, Nat.mul_add, Nat.mul_one]
    omega
  · rw [OnGrid, hval, Nat.cast_add, Nat.cast_mul, add_sub_right_comm]
    exact dvd_add hoffs (dvd_mul_right _ _)
  · -- `m` は `offs` から `j` 番目の刻みである。
    have hdvd : (cfg.intv.toNat : Int) ∣ (m : Int) - cfg.offs.toNat := by
      have := dvd_sub hgrid hoffs
      rwa [sub_sub_sub_cancel_right] at this
    obtain ⟨j, hj⟩ : cfg.intv.toNat ∣ m - cfg.offs.toNat := by
      have hm' : x.toNat ≤ m := hm
      rw [← Nat.cast_sub (by omega)] at hdvd
      exact Int.natCast_dvd_natCast.mp hdvd
    have hm' : x.toNat ≤ m := hm
    have hlt : x.toNat - 1 - cfg.offs.toNat < cfg.intv.toNat * j := by omega
    have hle : cfg.intv.toNat * ((x.toNat - 1 - cfg.offs.toNat) / cfg.intv.toNat + 1) ≤ cfg.intv.toNat * j :=
      Nat.mul_le_mul_left _ (Nat.div_lt_of_lt_mul hlt)
    rw [hval]
    omega

theorem roundUp_lt (h : 0 < cfg.intv) (hx : x.toNat + cfg.intv.toNat ≤ 2 ^ 64) :
    x ≤ roundUp cfg x ∧ (roundUp cfg x).toNat < x.toNat + cfg.intv.toNat := by
  have he := excess_lt (x := x) h
  refine ⟨(le_roundUp_iff h).mpr (by omega), ?_⟩
  rw [roundUp_toNat h]
  omega

theorem natv_toNat : natv.toNat = 2 ^ 64 - 1 := by
  decide +kernel

theorem le_natv (t : Tv) : t ≤ natv := by
  have ht := t.toNat_lt
  rw [UInt64.le_iff_toNat_le, natv_toNat]
  omega

theorem ne_natv_of_lt {m : Tv} (h : m < t) : m ≠ natv := by
  intro he
  rw [he] at h
  exact absurd h (UInt64.not_lt.mpr (le_natv t))

/-! ## 繰り返し -/

theorem startLoop_succ_of_le (h : t ≤ (next cfg c t).metr) : startLoop cfg t (n + 1) c = some (next cfg c t) := by
  rw [startLoop, if_neg (UInt64.not_lt.mpr h)]

theorem startLoop_succ_of_lt (h : (next cfg c t).metr < t) :
    startLoop cfg t (n + 1) c = startLoop cfg t n (next cfg c t) := by
  rw [startLoop, if_pos h]

theorem shootLoop_isSome : ∀ {n : Nat} {c : Clock}, (shootLoop cfg t n c).isSome = (startLoop cfg t n c).isSome
  | 0, _ => rfl
  | n + 1, c => by
      rw [shootLoop, startLoop]
      split
      · rw [Option.isSome_map, shootLoop_isSome]
      · rfl

/-- `oldm` が時刻より前でないか、`--invalidate` がなければ、有効期限の時刻に止まらない。 -/
theorem nextIntv_direct (h : t ≤ c.oldm ∨ cfg.inva = 0) : nextIntv cfg c t = { c with metr := roundUp cfg t } := by
  rw [nextIntv, if_neg]
  rintro ⟨hinva, _, h₁, h₂⟩
  have h := h.resolve_right hinva
  exact absurd (UInt64.lt_trans (UInt64.lt_of_le_of_lt h h₁) h₂) (UInt64.lt_irrefl _)

theorem next_intv (hs : cfg.stamps = false) : next cfg c t = nextIntv cfg c t := by
  rw [next, if_neg (by rw [hs]; decide)]

theorem next_stmp (hs : cfg.stamps = true) : next cfg c t = nextStmp c := by
  rw [next, if_pos hs]

/-- `next` は、有効期限の時刻か、行の時刻を切り上げる。 -/
theorem nextIntv_cases (cfg : Conf) (c : Clock) (t : Tv) :
    nextIntv cfg c t = { c with metr := roundUp cfg t } ∨
    (cfg.inva ≠ 0 ∧ c.metr ≠ 0 ∧ c.oldm < c.metr + cfg.inva ∧ c.metr + cfg.inva < t ∧
      nextIntv cfg c t = { c with metr := roundUp cfg (c.metr + cfg.inva), oldm := t }) := by
  by_cases h : cfg.inva ≠ 0 ∧ c.metr ≠ 0 ∧ c.oldm < c.metr + cfg.inva ∧ c.metr + cfg.inva < t
  · exact Or.inr ⟨h.1, h.2.1, h.2.2.1, h.2.2.2, by rw [nextIntv, if_pos h]⟩
  · exact Or.inl (by rw [nextIntv, if_neg h])

/-- 切り上げが戻らなければ、二度までに追いつく。 -/
theorem startLoop_two (hs : cfg.stamps = false) (ht : t ≤ roundUp cfg t) (c : Clock) :
    (startLoop cfg t 2 c).isSome = true := by
  rcases nextIntv_cases cfg c t with h | ⟨_, _, _, _, h⟩
  · rw [startLoop_succ_of_le (by rw [next_intv hs, h]; exact ht)]
    rfl
  · by_cases hlt : (next cfg c t).metr < t
    · have hold : t ≤ (next cfg c t).oldm := by rw [next_intv hs, h]; exact UInt64.le_refl _
      rw [startLoop_succ_of_lt hlt, startLoop_succ_of_le]
      · rfl
      · rw [next_intv hs, nextIntv_direct (Or.inl hold)]
        exact ht
    · rw [startLoop_succ_of_le (UInt64.not_lt.mp hlt)]
      rfl

/-- 切り上げが戻り、有効期限の時刻に止まらなければ、いつまでも追いつかない。 -/
theorem startLoop_stuck (hs : cfg.stamps = false) (ht : roundUp cfg t < t) :
    ∀ {n : Nat} {c : Clock}, t ≤ c.oldm ∨ cfg.inva = 0 → startLoop cfg t n c = none
  | 0, _, _ => rfl
  | n + 1, c, hold => by
      have hnext : next cfg c t = { c with metr := roundUp cfg t } := by rw [next_intv hs, nextIntv_direct hold]
      have hlt : (next cfg c t).metr < t := by rw [hnext]; exact ht
      have hold' : t ≤ (next cfg c t).oldm ∨ cfg.inva = 0 := by rw [hnext]; exact hold
      rw [startLoop_succ_of_lt hlt]
      exact startLoop_stuck hs ht hold'

/-- ファイルの残りが尽きるまでには、必ず追いつく。 -/
theorem startLoop_stmp (hs : cfg.stamps = true) : ∀ {sfil : List (List UInt8)} {metr oldm : Tv},
    (startLoop cfg t (sfil.length + 1) ⟨metr, oldm, sfil⟩).isSome = true
  | [], _, _ => by
      rw [startLoop_succ_of_le]
      · rfl
      · rw [next_stmp hs]
        exact le_natv t
  | line :: sfil, metr, oldm => by
      by_cases hlt : (next cfg ⟨metr, oldm, line :: sfil⟩ t).metr < t
      · rw [startLoop_succ_of_lt hlt, next_stmp hs]
        exact startLoop_stmp hs
      · rw [startLoop_succ_of_le (UInt64.not_lt.mp hlt)]
        rfl

theorem startLoop_add : ∀ {n : Nat} {c c' : Clock} (j : Nat), startLoop cfg t n c = some c' →
    startLoop cfg t (n + j) c = some c'
  | 0, _, _, _, h => by cases h
  | n + 1, c, c', j, h => by
      rw [Nat.succ_add, startLoop]
      rw [startLoop] at h
      split at h
      · rename_i hlt
        rw [if_pos hlt]
        exact startLoop_add j h
      · rename_i hlt
        rw [if_neg hlt]
        exact h

/-- 切り上げが戻るとき、追いつくとすれば二度までに、有効期限の時刻で追いつく。 -/
theorem startLoop_back (hs : cfg.stamps = false) (ht : roundUp cfg t < t) (h : (startLoop cfg t n c).isSome = true) :
    (startLoop cfg t 2 c).isSome = true := by
  -- 有効期限の時刻に止まった後は、`oldm` が時刻に等しい。
  have hexp : ∀ {n : Nat} {c : Clock}, (startLoop cfg t n c).isSome = true → nextIntv cfg c t ≠ { c with metr := roundUp cfg t } →
      t ≤ (next cfg c t).metr := by
    intro n c hn hne
    rcases nextIntv_cases cfg c t with he | ⟨_, _, _, _, he⟩
    · exact absurd he hne
    · by_contra hlt
      have hlt' := UInt64.not_le.mp hlt
      have hold : t ≤ (next cfg c t).oldm := by rw [next_intv hs, he]; exact UInt64.le_refl _
      cases n with
      | zero => cases hn
      | succ n =>
          rw [startLoop_succ_of_lt hlt', startLoop_stuck hs ht (Or.inl hold)] at hn
          cases hn
  by_cases he : nextIntv cfg c t = { c with metr := roundUp cfg t }
  · have hlt : (next cfg c t).metr < t := by rw [next_intv hs, he]; exact ht
    cases n with
    | zero => cases h
    | succ n =>
        rw [startLoop_succ_of_lt hlt] at h ⊢
        by_cases he' : nextIntv cfg (next cfg c t) t = { next cfg c t with metr := roundUp cfg t }
        · -- 同じ時計に戻るので、追いつくことはない。
          have hfix : next cfg (next cfg c t) t = next cfg c t := by
            rw [next_intv hs, he', next_intv hs, he]
          have hnone : ∀ j, startLoop cfg t j (next cfg c t) = none := by
            intro j
            induction j with
            | zero => rfl
            | succ j ih =>
                rw [startLoop_succ_of_lt (by rw [hfix]; exact hlt), hfix]
                exact ih
          rw [hnone] at h
          cases h
        · rw [startLoop_succ_of_le (hexp h he')]
          rfl
  · rw [startLoop_succ_of_le (hexp h he)]
    rfl

theorem halts_stmp (hs : cfg.stamps = true) (c : Clock) : Halts cfg t c := by
  have hsome : (startLoop cfg t (c.sfil.length + 1) c).isSome = true := startLoop_stmp hs
  exact ⟨⟨_, hsome⟩, _, by rw [shootLoop_isSome]; exact hsome⟩

/-- `Clock.bound` 回までに追いつかなければ、追いつくことはない。 -/
theorem startLoop_bound (h : (startLoop cfg t n c).isSome = true) : (startLoop cfg t c.bound c).isSome = true := by
  have hadd : ∀ {n : Nat}, n ≤ c.bound → (startLoop cfg t n c).isSome = true →
      (startLoop cfg t c.bound c).isSome = true := by
    intro n hn hsome
    obtain ⟨c', hc'⟩ := Option.isSome_iff_exists.mp hsome
    have hb := startLoop_add (c.bound - n) hc'
    rw [Nat.add_sub_cancel' hn] at hb
    rw [hb]
    rfl
  cases hs : cfg.stamps with
  | true => exact hadd (Nat.add_le_add_left (by decide) _) (startLoop_stmp hs)
  | false =>
      have htwo : 2 ≤ c.bound := Nat.le_trans (by decide) (Nat.le_add_left 3 _)
      by_cases ht : t ≤ roundUp cfg t
      · exact hadd htwo (startLoop_two hs ht c)
      · exact hadd htwo (startLoop_back hs (UInt64.not_le.mp ht) h)

end Books.Booksnap
