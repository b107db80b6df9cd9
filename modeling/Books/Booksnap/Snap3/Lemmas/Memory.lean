import Books.Booksnap.Snap3.Spec
import Mathlib.Tactic.Common

/-!
# 前の写真の記憶

一度の写真の中で場所を増やすと、それまでに書き込んだ場所は空になる。板を一枚ずつ撮るときの不変条件を `Midway` に、写真の間で
成り立つ条件を `Held` にまとめる。
-/

set_option linter.unusedSectionVars false

namespace Books.Booksnap.Snap3

open Books.Btree Books.Book

variable {K Q : Type} [LinearOrder K] [Zero K] [LinearOrder Q] [AddCommGroup Q]
variable {T : Bool → Type} [BTree T K Q]

/-! ## 書き込み -/

theorem record_spec : ∀ (l : List (Option K × Q)) (a : Side K Q) (bi : Nat), (record a bi l).n = bi + l.length ∧
    (∀ i < bi, (record a bi l).px i = a.px i ∧ (record a bi l).qx i = a.qx i) ∧
    ∀ i x, l[i]? = some x → (record a bi l).px (bi + i) = x.1 ∧ (record a bi l).qx (bi + i) = x.2
  | [], a, bi => ⟨rfl, fun _ _ => ⟨rfl, rfl⟩, fun i x hx => by cases hx⟩
  | (p, q) :: l, a, bi => by
      rw [record]
      obtain ⟨h₁, h₂, h₃⟩ := record_spec l { a with
        z := if a.z ≤ bi then (if a.z * 2 = 0 then 32 else a.z * 2) else a.z,
        px := Function.update a.px bi p, qx := Function.update a.qx bi q } (bi + 1)
      refine ⟨?_, fun i hi => ?_, fun i x hx => ?_⟩
      · rw [h₁, List.length_cons]
        omega
      · obtain ⟨h₄, h₅⟩ := h₂ i (Nat.lt_succ_of_lt hi)
        rw [h₄, h₅]
        exact ⟨Function.update_of_ne (Nat.ne_of_lt hi) _ _, Function.update_of_ne (Nat.ne_of_lt hi) _ _⟩
      · cases i with
        | zero =>
            cases hx
            obtain ⟨h₄, h₅⟩ := h₂ bi (Nat.lt_succ_self bi)
            rw [Nat.add_zero]
            exact ⟨h₄.trans (Function.update_self _ _ _), h₅.trans (Function.update_self _ _ _)⟩
        | succ i =>
            have hsum : bi + (i + 1) = bi + 1 + i := by omega
            rw [hsum]
            exact h₃ i x hx

/-- 書き込んだ側は、書き込んだ並びを覚えている。 -/
theorem remembers_record (a : Side K Q) (l : List (Option K × Q)) : Remembers (record a 0 l) l := by
  obtain ⟨h₁, _, h₃⟩ := record_spec l a 0
  refine ⟨by rw [h₁, Nat.zero_add], fun i x hx => ?_⟩
  have h := h₃ i x hx
  rwa [Nat.zero_add] at h

theorem remembers_zero {l : List (Option K × Q)} : Remembers Side.zero l ↔ l = [] := by
  constructor
  · intro h
    exact List.length_eq_zero_iff.mp h.1.symm
  · rintro rfl
    exact ⟨rfl, fun i x hx => by cases hx⟩

theorem get_zero (s : Bool) : (Aux.zero : Aux K Q).get s = .zero := by
  cases s <;> rfl

theorem remembers_snap3Book (a : Aux K Q) (b : Book T) (s : Bool) : Remembers ((snap3Book a b).get s) (levels b s) := by
  cases s
  · exact remembers_record _ _
  · exact remembers_record _ _

/-! ## 場所の数 -/

section Growth
variable {z n : Nat}

theorem growth_succ_of_le (h : (growth z n).1 ≤ n) : growth z (n + 1) = ((growth z n).1 * 2, n) := by
  rw [growth, if_pos h]

theorem growth_succ_of_lt (h : n < (growth z n).1) : growth z (n + 1) = growth z n := by
  rw [growth, if_neg (Nat.not_le.mpr h)]

/-- 場所の数は、板の数より少なくならない。増やした板は、撮った板の中にある。 -/
theorem growth_bounds (hz : 0 < z) : ∀ n, z ≤ (growth z n).1 ∧ n ≤ (growth z n).1 ∧ (growth z n).2 ≤ n
  | 0 => ⟨Nat.le_refl _, Nat.zero_le _, Nat.le_refl _⟩
  | n + 1 => by
      obtain ⟨h₁, h₂, h₃⟩ := growth_bounds hz n
      by_cases h : (growth z n).1 ≤ n
      · rw [growth_succ_of_le h]
        simp only
        omega
      · rw [growth_succ_of_lt (Nat.not_le.mp h)]
        omega

theorem doubled_eq {ibk fuel : Nat} (h : ibk ≤ z * 2) : doubled ibk (fuel + 1) z = z * 2 := by
  rw [doubled, if_neg (Nat.not_lt.mpr h)]

end Growth

/-! ## 一度の写真 -/

section Round
variable {aux₀ aux : List (Aux K Q)} {done prev : List (Book T)} {b : Book T} {g : Nat}

/-- 写真の初めの場所が `aux₀` であるとき、板 `done` を撮った後の場所。増やした板より前は空で、その後の板は撮ったとおりで、まだ
撮らない板は初めのままである。 -/
structure Midway (aux₀ : List (Aux K Q)) (done : List (Book T)) (aux : List (Aux K Q)) : Prop where
  size : aux.length = (growth aux₀.length done.length).1
  lost : ∀ i a, aux[i]? = some a → i < (growth aux₀.length done.length).2 → a = .zero
  kept : ∀ i a b, aux[i]? = some a → (growth aux₀.length done.length).2 ≤ i → done[i]? = some b →
    ∀ s, Remembers (a.get s) (levels b s)
  later : ∀ i a, aux[i]? = some a → done.length ≤ i → a = (aux₀[i]?).getD .zero

theorem midway_init : Midway aux₀ ([] : List (Book T)) aux₀ where
  size := rfl
  lost i a _ hi := absurd hi (Nat.not_lt_zero i)
  kept i a b _ _ hb := by cases hb
  later i a ha _ := by rw [ha]; rfl

theorem snap3_eq {ibk : Nat} {a : Aux K Q} (h : (resize aux ibk)[ibk]? = some a) (b : Book T) : snap3 aux ibk b =
    some ((resize aux ibk).set ibk (snap3Book a b), ⟨ibk, (resize aux ibk).length, a, diff true a.bid 0 (levels b true),
      diff false a.ask 0 (levels b false)⟩) := by
  rw [snap3]
  simp only [h, Option.bind_eq_bind, Option.bind_some]
  rfl

/-- 次の板を撮る。 -/
theorem Midway.step (h : Midway aux₀ done aux) (hz : 0 < aux₀.length) (b : Book T) :
    ∃ aux' x, snap3 aux done.length b = some (aux', x) ∧ Midway aux₀ (done ++ [b]) aux' ∧
      x.ibk = done.length ∧ x.ibk < x.zbk ∧ x.aux = (aux₀[done.length]?).getD .zero := by
  obtain ⟨hz₁, hz₂, hz₃⟩ := growth_bounds hz done.length
  have hlen : (done ++ [b]).length = done.length + 1 := by rw [List.length_append]; rfl
  have hsize := h.size
  by_cases hgrow : aux.length ≤ done.length
  · -- 場所を増やすので、これまでの場所は空になる。
    have heq : aux.length = done.length := by omega
    have hr : resize aux done.length = List.replicate (done.length * 2) .zero := by
      rw [resize, if_pos hgrow, doubled_eq (by omega), heq]
    have hget : (List.replicate (done.length * 2) (Aux.zero : Aux K Q))[done.length]? = some .zero := by
      rw [List.getElem?_replicate, if_pos (by omega)]
    have hnext : growth aux₀.length (done ++ [b]).length = (done.length * 2, done.length) := by
      rw [hlen, growth_succ_of_le (by omega), ← hsize, heq]
    have hnone : aux₀[done.length]? = none := List.getElem?_eq_none (by omega)
    rw [← hr] at hget
    refine ⟨_, _, snap3_eq hget b, ?_, rfl, ?_, ?_⟩
    · rw [hr]
      refine ⟨?_, fun i a ha hi => ?_, fun i a b' ha hi hb s => ?_, fun i a ha hi => ?_⟩
      · rw [hnext, List.length_set, List.length_replicate]
      · rw [hnext] at hi
        rw [List.getElem?_set_ne (Nat.ne_of_gt hi), List.getElem?_replicate] at ha
        split at ha
        · exact (Option.some.inj ha).symm
        · cases ha
      · rw [hnext] at hi
        have hi' : i = done.length := by
          have hlt := (List.getElem?_eq_some_iff.mp hb).1
          rw [hlen] at hlt
          simp only at hi
          omega
        subst hi'
        rw [List.getElem?_set_self (by rw [List.length_replicate]; omega)] at ha
        rw [List.getElem?_concat_length] at hb
        cases ha
        cases hb
        exact remembers_snap3Book _ _ s
      · rw [hlen] at hi
        rw [List.getElem?_set_ne (Nat.ne_of_lt hi), List.getElem?_replicate] at ha
        rw [List.getElem?_eq_none (by omega)]
        split at ha
        · exact (Option.some.inj ha).symm
        · cases ha
    · simp only [hr, List.length_replicate]
      omega
    · rw [hnone]
      rfl
  · have hlt := Nat.not_le.mp hgrow
    have hr : resize aux done.length = aux := by rw [resize, if_neg hgrow]
    have hget : aux[done.length]? = some aux[done.length] := List.getElem?_eq_getElem hlt
    have hnext : growth aux₀.length (done ++ [b]).length = growth aux₀.length done.length := by
      rw [hlen, growth_succ_of_lt (by omega)]
    refine ⟨_, _, snap3_eq (by rw [hr]; exact hget) b, ?_, rfl, by rw [hr]; exact hlt, ?_⟩
    · rw [hr]
      refine ⟨?_, fun i a ha hi => ?_, fun i a b' ha hi hb s => ?_, fun i a ha hi => ?_⟩
      · rw [hnext, List.length_set, hsize]
      · rw [hnext] at hi
        rw [List.getElem?_set_ne (by omega)] at ha
        exact h.lost i a ha hi
      · rw [hnext] at hi
        by_cases hi' : done.length = i
        · subst hi'
          rw [List.getElem?_set_self hlt] at ha
          rw [List.getElem?_concat_length] at hb
          cases ha
          cases hb
          exact remembers_snap3Book _ _ s
        · have hbound := (List.getElem?_eq_some_iff.mp hb).1
          rw [hlen] at hbound
          rw [List.getElem?_set_ne hi'] at ha
          rw [List.getElem?_append_left (by omega)] at hb
          exact h.kept i a b' ha hi hb s
      · rw [hlen] at hi
        rw [List.getElem?_set_ne (Nat.ne_of_lt hi)] at ha
        exact h.later i a ha (Nat.le_of_succ_le hi)
    · exact h.later _ _ hget (Nat.le_refl _)

/-- 残りの板を撮る。どの板の初めにも、写真の初めの場所を読む。 -/
theorem Midway.loop (hz : 0 < aux₀.length) : ∀ (bs done : List (Book T)) (aux : List (Aux K Q)), Midway aux₀ done aux →
    ∃ aux' xs, snap3Round aux done.length bs = some (aux', xs) ∧ Midway aux₀ (done ++ bs) aux' ∧ xs.length = bs.length ∧
      ∀ i x, xs[i]? = some x → x.ibk = done.length + i ∧ x.ibk < x.zbk ∧ x.aux = (aux₀[x.ibk]?).getD .zero
  | [], done, aux, h => ⟨aux, [], rfl, by rwa [List.append_nil], rfl, fun i x hx => by cases hx⟩
  | b :: bs, done, aux, h => by
      obtain ⟨aux₁, x, h₁, hmid, hibk, hlt, haux⟩ := h.step hz b
      obtain ⟨aux₂, xs, h₂, hmid₂, hlen, hxs⟩ := Midway.loop hz bs (done ++ [b]) aux₁ hmid
      have hdone : (done ++ [b]).length = done.length + 1 := by rw [List.length_append]; rfl
      rw [hdone] at h₂ hxs
      refine ⟨aux₂, x :: xs, ?_, by rwa [List.append_assoc] at hmid₂, by rw [List.length_cons, List.length_cons, hlen], ?_⟩
      · rw [snap3Round, h₁]
        simp only [Option.bind_eq_bind, Option.bind_some, h₂]
        rfl
      · intro i y hy
        cases i with
        | zero =>
            cases hy
            exact ⟨hibk, hlt, by rw [haux, hibk]⟩
        | succ i =>
            obtain ⟨h₃, h₄⟩ := hxs i y hy
            exact ⟨by rw [h₃]; omega, h₄⟩

/-! ## 写真の列 -/

/-- 前の写真 `prev` の後の場所。番号が `g` より前の場所は空で、その後の場所は、前の写真を覚えている。 -/
structure Held (prev : List (Book T)) (g : Nat) (aux : List (Aux K Q)) : Prop where
  room : prev.length ≤ aux.length
  bound : g ≤ prev.length
  lost : ∀ i a, aux[i]? = some a → i < g → a = .zero
  kept : ∀ i a, aux[i]? = some a → g ≤ i → ∀ s, Remembers (a.get s) ((prev[i]?).elim [] fun b => levels b s)

theorem held_init (n : Nat) : Held (K := K) (Q := Q) ([] : List (Book T)) 0 (List.replicate n .zero) := by
  refine ⟨Nat.zero_le _, Nat.le_refl _, fun i _ _ hi => absurd hi (Nat.not_lt_zero i), fun i a ha _ s => ?_⟩
  rw [List.getElem?_replicate] at ha
  split at ha
  · cases ha
    rw [get_zero]
    exact remembers_zero.mpr rfl
  · cases ha

/-- 場所を増やした板より前の板が空でない限り、次の写真の初めに、前の写真を覚えている。 -/
theorem Held.recalls_iff (h : Held prev g aux) (i : Nat) :
    (∀ s, Remembers (((aux[i]?).getD .zero).get s) ((prev[i]?).elim [] fun b => levels b s)) ↔
      (i < g → ∀ b, prev[i]? = some b → ∀ s, levels b s = []) := by
  have hroom := h.room
  cases ha : aux[i]? with
  | none =>
      -- 場所のない板は、前の写真にない。
      have hi := List.getElem?_eq_none_iff.mp ha
      rw [List.getElem?_eq_none (Nat.le_trans hroom hi)]
      refine ⟨fun _ _ b hb => (by cases hb), fun _ s => ?_⟩
      rw [Option.getD_none, get_zero]
      exact remembers_zero.mpr rfl
  | some a =>
      rw [Option.getD_some]
      by_cases hi : i < g
      · rw [h.lost i a ha hi]
        constructor
        · intro hs _ b hb s
          have hrem := hs s
          rw [hb, get_zero] at hrem
          exact remembers_zero.mp hrem
        · intro hs s
          rw [get_zero]
          refine remembers_zero.mpr ?_
          cases hb : prev[i]? with
          | none => rfl
          | some b => exact hs hi b hb s
      · exact ⟨fun _ hlt => absurd hlt hi, fun _ => h.kept i a ha (Nat.le_of_not_lt hi)⟩

/-- 次の写真。 -/
theorem Held.round (h : Held prev g aux) (hz : 0 < aux.length) {bs : List (Book T)} (hlen : prev.length ≤ bs.length) :
    ∃ aux' xs, snap3Round aux 0 bs = some (aux', xs) ∧ aux'.length = (growth aux.length bs.length).1 ∧
      Held bs (growth aux.length bs.length).2 aux' ∧
      ((xs.length = bs.length ∧ ∀ (i : Nat) x, xs[i]? = some x → x.ibk = i ∧ Recalls prev[i]? x) ↔
        ∀ i < g, ∀ b, prev[i]? = some b → ∀ s, levels b s = []) := by
  obtain ⟨aux', xs, hround, hmid, hxs, hobs⟩ := Midway.loop hz bs [] aux midway_init
  rw [List.nil_append] at hmid
  obtain ⟨_, hroom, hbound⟩ := growth_bounds hz bs.length
  refine ⟨aux', xs, hround, hmid.size, ⟨by rw [hmid.size]; exact hroom, hbound, hmid.lost, fun i a ha hi s => ?_⟩, ?_⟩
  · cases hb : bs[i]? with
    | some b => exact hmid.kept i a b ha hi hb s
    | none =>
        -- 撮らなかった板の場所は、写真の前から空である。
        have hi' := List.getElem?_eq_none_iff.mp hb
        have hprev : prev[i]? = none := List.getElem?_eq_none (Nat.le_trans hlen hi')
        have hempty := (h.recalls_iff i).mpr (fun _ b hb => by rw [hprev] at hb; cases hb) s
        rw [hprev] at hempty
        rwa [hmid.later i a ha hi']
  · constructor
    · rintro ⟨_, hall⟩ i hi b hb
      have hlt := (List.getElem?_eq_some_iff.mp hb).1
      have hx : xs[i]? = some xs[i] := List.getElem?_eq_getElem (by omega)
      obtain ⟨hibk, hrec, _⟩ := hall i _ hx
      obtain ⟨_, _, haux⟩ := hobs i _ hx
      rw [haux, hibk] at hrec
      exact (h.recalls_iff i).mp hrec hi b hb
    · intro hall
      refine ⟨hxs, fun i x hx => ?_⟩
      obtain ⟨hibk, hlt, haux⟩ := hobs i x hx
      have hibk' : x.ibk = i := by rw [hibk]; exact Nat.zero_add i
      refine ⟨hibk', ?_, hlt⟩
      rw [haux, hibk']
      exact (h.recalls_iff i).mpr (hall i)

/-- 写真の列で前の写真を覚えているのは、場所を増やして失う気配がないときで、そのときに限る。 -/
theorem Held.run (hz : 0 < aux.length) (h : Held prev g aux) : ∀ (rounds : List (List (Book T))),
    (prev :: rounds).Pairwise (fun bs bs' => bs.length ≤ bs'.length) →
    ∃ aux' xss, snap3Rounds aux rounds = some (aux', xss) ∧
      (RecallsRun prev rounds xss ↔ (rounds ≠ [] → ∀ i < g, ∀ b, prev[i]? = some b → ∀ s, levels b s = []) ∧
        LosesNothing aux.length rounds) := by
  intro rounds hgrow
  induction rounds generalizing prev g aux with
  | nil => exact ⟨aux, [], rfl, ⟨fun _ => ⟨fun hne => absurd rfl hne, trivial⟩, fun _ => trivial⟩⟩
  | cons bs rounds ih =>
      obtain ⟨hle, hgrow'⟩ := List.pairwise_cons.mp hgrow
      obtain ⟨aux₁, xs, h₁, hsize, hheld, hiff⟩ := h.round hz (hle bs List.mem_cons_self)
      obtain ⟨hroom, _⟩ := growth_bounds hz bs.length
      obtain ⟨aux₂, xss, h₂, hiff₂⟩ := ih (by omega) hheld hgrow'
      refine ⟨aux₂, xs :: xss, ?_, ?_⟩
      · rw [snap3Rounds, h₁]
        simp only [Option.bind_eq_bind, Option.bind_some, h₂]
        rfl
      · have hloses : LosesNothing aux.length (bs :: rounds) ↔
            (rounds ≠ [] → ∀ i < (growth aux.length bs.length).2, ∀ b, bs[i]? = some b → ∀ s, levels b s = []) ∧
            LosesNothing aux₁.length rounds := by
          cases rounds with
          | nil => exact ⟨fun _ => ⟨fun hne => absurd rfl hne, trivial⟩, fun _ => trivial⟩
          | cons bs' rounds =>
              rw [LosesNothing, hsize]
              exact ⟨fun h => ⟨fun _ => h.1, h.2⟩, fun h => ⟨h.1 (List.cons_ne_nil _ _), h.2⟩⟩
        rw [RecallsRun, ← and_assoc, hiff, hiff₂, hloses]
        exact ⟨fun h => ⟨fun _ => h.1, h.2⟩, fun h => ⟨h.1 (List.cons_ne_nil _ _), h.2⟩⟩

/-- `init_snap3` からの写真の列。 -/
theorem recalls_init_iff (nbook : Nat) {rounds : List (List (Book T))}
    (hgrow : rounds.Pairwise fun bs bs' => bs.length ≤ bs'.length) :
    ∃ aux xss, snap3Rounds (initSnap3 nbook) rounds = some (aux, xss) ∧
      (RecallsRun [] rounds xss ↔ LosesNothing ((nbook ||| 7) + 1) rounds) := by
  have hlen : (initSnap3 (K := K) (Q := Q) nbook).length = (nbook ||| 7) + 1 := List.length_replicate
  have hz : 0 < (initSnap3 (K := K) (Q := Q) nbook).length := by
    rw [hlen]
    exact Nat.succ_pos _
  have hgrow' : ([] :: rounds).Pairwise fun bs bs' : List (Book T) => bs.length ≤ bs'.length :=
    List.pairwise_cons.mpr ⟨fun bs _ => Nat.zero_le _, hgrow⟩
  obtain ⟨aux, xss, hrun, hiff⟩ := Held.run hz (held_init _) rounds hgrow'
  refine ⟨aux, xss, hrun, ?_⟩
  rw [hiff, hlen]
  exact ⟨fun h => h.2, fun h => ⟨fun _ i hi => absurd hi (Nat.not_lt_zero i), h⟩⟩

end Round

end Books.Booksnap.Snap3
