import Books.Book.Lemmas.Acts
import Books.Booksnap.Lemmas.Metronome
import Books.Booksnap.Lemmas.Stamps

/-!
# 写真の中身

板の値の時刻は `inva` だけ後にずれていて、古い値は、写真を撮るときにだけ除かれる。板の値を、ずらさず、除くこともない板の
値に、気配値ごとに対応させる。
-/

set_option linter.unusedSectionVars false

namespace Books.Booksnap

open Books.Btree Books.Book Books.Instr Books.Xquo Books.Lib

/-! ## 戻らない時計 -/

section Clock
variable {cfg : Conf} {c c' : Clock} {t : Tv} {ms : List Tv} {n : Nat}

/-- 行の時刻が 64 ビットに収まる限り、時計は戻らない。 -/
structure Rises (cfg : Conf) (c : Clock) : Prop where
  stmp : cfg.stamps = true → (pending c).Pairwise (· ≤ ·)
  intv : cfg.stamps = false → 0 < cfg.intv ∧ c.metr.toNat + cfg.inva.toNat < 2 ^ 64

theorem rises_init {sfil : List (List UInt8)} (hS : cfg.stamps = true → (stampsOf sfil).Pairwise (· ≤ ·))
    (hi : cfg.stamps = false → 0 < cfg.intv) : Rises cfg (initClock sfil) := by
  refine ⟨fun hs => ?_, fun hs => ⟨hi hs, (clockOk_init sfil).small⟩⟩
  have hne : ¬ (0 : Tv) = natv := by decide
  rw [pending, initClock, if_neg hne, List.pairwise_cons]
  exact ⟨fun _ _ => UInt64.zero_le, hS hs⟩

theorem Rises.next (h : Rises cfg c) (hf : Fits cfg t) (hle : c.metr ≤ t) (hne : c.metr ≠ natv) :
    Rises cfg (next cfg c t) ∧ c.metr ≤ (next cfg c t).metr := by
  cases hs : cfg.stamps with
  | true =>
      have hp := h.stmp hs
      rw [pending, if_neg hne, List.pairwise_cons, ← pending_nextStmp] at hp
      rw [next_stmp hs]
      refine ⟨⟨fun _ => hp.2, fun hs' => absurd (hs'.symm.trans hs) Bool.false_ne_true⟩, ?_⟩
      by_cases hn : (nextStmp c).metr = natv
      · rw [hn]
        exact le_natv _
      · refine hp.1 _ ?_
        rw [pending, if_neg hn]
        exact List.mem_cons_self
  | false =>
      obtain ⟨hi, hsmall⟩ := h.intv hs
      obtain ⟨hge, hlt⟩ := hf.le_roundUp hi
      unfold Fits at hf
      rw [next_intv hs]
      have hrise : ∀ c' : Clock, c.metr ≤ c'.metr → c'.metr.toNat + cfg.inva.toNat < 2 ^ 64 →
          Rises cfg c' ∧ c.metr ≤ c'.metr :=
        fun c' h₁ h₂ => ⟨⟨fun hs' => absurd (hs.symm.trans hs') Bool.false_ne_true, fun _ => ⟨hi, h₂⟩⟩, h₁⟩
      rcases nextIntv_cases cfg c t with he | ⟨_, _, _, hexp, he⟩
      · rw [he]
        refine hrise _ (UInt64.le_trans hle hge) ?_
        simp only
        omega
      · rw [he]
        have hsum : (c.metr + cfg.inva).toNat = c.metr.toNat + cfg.inva.toNat := by
          rw [UInt64.toNat_add, Nat.mod_eq_of_lt hsmall]
        have hexp' := UInt64.lt_iff_toNat_lt.mp hexp
        rw [hsum] at hexp'
        obtain ⟨hge', hlt'⟩ := roundUp_lt (x := c.metr + cfg.inva) hi (by rw [hsum]; omega)
        rw [UInt64.le_iff_toNat_le, hsum] at hge'
        rw [hsum] at hlt'
        refine hrise _ (UInt64.le_iff_toNat_le.mpr ?_) ?_
        · simp only
          omega
        · simp only
          omega

theorem Rises.startLoop (h : Rises cfg c) (hf : Fits cfg t) (hle : c.metr ≤ t) (hne : c.metr ≠ natv)
    (hl : startLoop cfg t n c = some c') : Rises cfg c' ∧ c.metr ≤ c'.metr := by
  induction n generalizing c with
  | zero => cases hl
  | succ n ih =>
      obtain ⟨h₁, h₂⟩ := h.next hf hle hne
      rw [Booksnap.startLoop] at hl
      split at hl
      · rename_i hlt
        obtain ⟨h₃, h₄⟩ := ih h₁ (UInt64.le_of_lt hlt) (ne_natv_of_lt hlt) hl
        exact ⟨h₃, UInt64.le_trans h₂ h₄⟩
      · cases hl
        exact ⟨h₁, h₂⟩

theorem Rises.start (h : Rises cfg c) (hf : Fits cfg t) (hs : start cfg c t = some c') :
    Rises cfg c' ∧ c.metr ≤ c'.metr := by
  rw [Booksnap.start] at hs
  split at hs
  · rename_i h0
    refine h.startLoop hf ?_ ?_ hs
    · rw [h0]
      exact UInt64.zero_le
    · rw [h0]
      decide
  · cases hs
    exact ⟨h, UInt64.le_refl _⟩

/-- 写真の時刻は、前後の時計の時刻の間に並び、行の時刻より前にある。 -/
structure Between (cfg : Conf) (c : Clock) (t : Tv) (ms : List Tv) (c' : Clock) : Prop where
  rises : Rises cfg c'
  le : t ≤ c'.metr
  mono : c.metr ≤ c'.metr
  sorted : ms.Pairwise (· ≤ ·)
  mem : ∀ m ∈ ms, c.metr ≤ m ∧ m < t

theorem Rises.shootLoop (h : Rises cfg c) (hf : Fits cfg t) (hlt : c.metr < t)
    (hl : shootLoop cfg t n c = some (ms, c')) : Between cfg c t ms c' := by
  induction n generalizing c ms with
  | zero => cases hl
  | succ n ih =>
      obtain ⟨h₁, h₂⟩ := h.next hf (UInt64.le_of_lt hlt) (ne_natv_of_lt hlt)
      rw [Booksnap.shootLoop] at hl
      split at hl
      · rename_i hlt'
        obtain ⟨⟨ms', c₁⟩, hr, hms⟩ := Option.map_eq_some_iff.mp hl
        cases hms
        have hb := ih h₁ hlt' hr
        refine ⟨hb.rises, hb.le, UInt64.le_trans h₂ hb.mono, ?_, fun m hm => ?_⟩
        · exact List.pairwise_cons.mpr ⟨fun m hm => UInt64.le_trans h₂ (hb.mem m hm).1, hb.sorted⟩
        · rcases List.mem_cons.mp hm with rfl | hm
          · exact ⟨UInt64.le_refl _, hlt⟩
          · exact ⟨UInt64.le_trans h₂ (hb.mem m hm).1, (hb.mem m hm).2⟩
      · rename_i hlt'
        cases hl
        refine ⟨h₁, UInt64.not_lt.mp hlt', h₂, List.pairwise_singleton _ _, fun m hm => ?_⟩
        rw [List.mem_singleton.mp hm]
        exact ⟨UInt64.le_refl _, hlt⟩

theorem Rises.shoot (h : Rises cfg c) (hf : Fits cfg t) (hs : shoot cfg c t = some (ms, c')) :
    Between cfg c t ms c' := by
  rw [Booksnap.shoot] at hs
  split at hs
  · rename_i hle
    cases hs
    exact ⟨h, hle, UInt64.le_refl _, .nil, fun m hm => absurd hm List.not_mem_nil⟩
  · rename_i hle
    exact h.shootLoop hf (UInt64.not_le.mp hle) hs

end Clock

/-! ## 古い値 -/

section Aged
variable {K Q : Type} [LinearOrder K] [Zero K] [LinearOrder Q] [AddCommGroup Q]
variable {inva M M' m t : Tv} {v w : BtreeVal Q}

/-- 板の値 `v` は、ずらさず、除かない板の値 `w` に対応する。`M` は、最後に古い値を除いた時刻より前にない。 -/
def Aged (inva M : Tv) (v w : BtreeVal Q) : Prop :=
  (v.nilP = true ∧ w.nilP = true) ∨ (v.q = w.q ∧ v.t.toNat = w.t.toNat + inva.toNat) ∨
  (v.nilP = true ∧ inva ≠ 0 ∧ w.t.toNat + inva.toNat ≤ M.toNat)

theorem nilP_congr (h : v.q = w.q) : v.nilP = w.nilP := by
  rw [BtreeVal.nilP, BtreeVal.nilP, h]

theorem Aged.mono (h : Aged inva M v w) (hM : M ≤ M') : Aged inva M' v w := by
  rcases h with h | h | ⟨h₁, h₂, h₃⟩
  · exact Or.inl h
  · exact Or.inr (Or.inl h)
  · exact Or.inr (Or.inr ⟨h₁, h₂, Nat.le_trans h₃ (UInt64.le_iff_toNat_le.mp hM)⟩)

theorem Aged.act (h : Aged inva M v w) (ht : (t + inva).toNat = t.toNat + inva.toNat) (a : Act Q) :
    Aged inva M (a.apply (t + inva) v) (a.apply t w) := by
  cases a with
  | keep => exact h
  | drop => exact Or.inl ⟨nilP_nil, nilP_nil⟩
  | put x => exact Or.inr (Or.inl ⟨rfl, ht⟩)
  | change f =>
      simp only [Act.apply]
      rcases h with ⟨h₁, h₂⟩ | ⟨h₁, h₂⟩ | ⟨h₁, h₂, h₃⟩
      · rw [if_pos h₁, if_pos h₂]
        exact Or.inl ⟨h₁, h₂⟩
      · rw [nilP_congr h₁]
        split
        · exact Or.inr (Or.inl ⟨h₁, h₂⟩)
        · exact Or.inr (Or.inl ⟨by rw [h₁], h₂⟩)
      · rw [if_pos h₁]
        split
        · exact Or.inr (Or.inr ⟨h₁, h₂, h₃⟩)
        · exact Or.inr (Or.inr ⟨h₁, h₂, h₃⟩)

/-- 写真の前に古い値を除いた後の値。 -/
def swept (inva m : Tv) (v : BtreeVal Q) : BtreeVal Q :=
  if inva ≠ 0 ∧ m ≠ 0 ∧ v.nilP = false ∧ v.t ≤ m then .nil else v

theorem lapse_nil : lapse inva m (.nil : BtreeVal Q) = .nil := by
  unfold lapse
  split <;> rfl

/-- 古い値を除いても対応は保たれ、見える値は、見えるべき値と同じ数量を持つ。 -/
theorem Aged.sweep (h : Aged inva M v w) (hM : M ≤ m) :
    Aged inva m (swept inva m v) w ∧ (shown (swept inva m v)).q = (lapse inva m (shown w)).q := by
  have hkeep := h.mono hM
  have hM' := UInt64.le_iff_toNat_le.mp hM
  have hzero : inva ≠ 0 → 0 < inva.toNat := fun h => Nat.pos_of_ne_zero fun h0 => h (UInt64.toNat_inj.mp h0)
  have hnil : v.nilP = true → swept inva m v = v := fun hv => by
    rw [swept, if_neg]
    rw [hv]
    simp
  rcases h with ⟨h₁, h₂⟩ | ⟨h₁, h₂⟩ | ⟨h₁, h₂, h₃⟩
  · rw [hnil h₁, shown_of_nil h₁, shown_of_nil h₂, lapse_nil]
    exact ⟨hkeep, rfl⟩
  · cases hw : w.nilP with
    | true =>
        have hv : v.nilP = true := by rw [nilP_congr h₁, hw]
        rw [hnil hv, shown_of_nil hv, shown_of_nil hw, lapse_nil]
        exact ⟨hkeep, rfl⟩
    | false =>
        have hv : v.nilP = false := by rw [nilP_congr h₁, hw]
        -- 時刻が 0 でなければ、ずらした時刻での比較は、ずらさない時刻での比較と一致する。
        have hiff : (inva ≠ 0 ∧ m ≠ 0 ∧ v.nilP = false ∧ v.t ≤ m) ↔ (inva ≠ 0 ∧ w.t.toNat + inva.toNat ≤ m.toNat) := by
          rw [UInt64.le_iff_toNat_le, h₂]
          constructor
          · rintro ⟨hi, _, _, hle⟩
            exact ⟨hi, hle⟩
          · rintro ⟨hi, hle⟩
            refine ⟨hi, fun h0 => ?_, hv, hle⟩
            have hpos := hzero hi
            have hm : m.toNat = 0 := by rw [h0]; rfl
            omega
        rw [shown_of_live hw, lapse, swept]
        simp only [hiff]
        split
        · rename_i hexp
          exact ⟨Or.inr (Or.inr ⟨nilP_nil, hexp.1, hexp.2⟩), by rw [shown_nil]⟩
        · exact ⟨hkeep, by rw [shown_of_live hv, h₁]⟩
  · rw [hnil h₁, shown_of_nil h₁]
    refine ⟨hkeep, ?_⟩
    cases hw : w.nilP with
    | true => rw [shown_of_nil hw, lapse_nil]
    | false => rw [shown_of_live hw, lapse, if_pos ⟨h₂, Nat.le_trans h₃ hM'⟩]

end Aged

/-! ## 板の対応 -/

section Books
variable {K Q : Type} [LinearOrder K] [Zero K] [LinearOrder Q] [AddCommGroup Q]
variable {cfg : Conf} {M M' m t : Tv} {b : Named K Q} {q : BookQuo K Q} {qs : List (BookQuo K Q)}
variable {ms : List Tv} {bs : List (Named K Q)} {qss : List (List (BookQuo K Q))}

/-- 板 `b` は、気配の列 `qs` を加えた板に対応する。 -/
structure BookAged (inva M : Tv) (b : Named K Q) (qs : List (BookQuo K Q)) : Prop where
  val : ∀ s p, Aged inva M (b.book.stored s p) ((quotedBook qs).stored s p)
  past : ∀ q ∈ qs, q.t ≤ M

theorem BookAged.mono {inva : Tv} (h : BookAged inva M b qs) (hM : M ≤ M') : BookAged inva M' b qs :=
  ⟨fun s p => (h.val s p).mono hM, fun q hq => UInt64.le_trans (h.past q hq) hM⟩

theorem bookAged_make {inva : Tv} (n : Option (List UInt8)) : BookAged inva M (makeNamed n : Named K Q) [] := by
  refine ⟨fun s p => Or.inl ⟨?_, ?_⟩, fun q hq => absurd hq List.not_mem_nil⟩
  · cases s <;> exact nilP_nil
  · cases s <;> exact nilP_nil

theorem toNat_shift (hf : Fits cfg t) : (t + cfg.inva).toNat = t.toNat + cfg.inva.toNat := by
  unfold Fits at hf
  rw [UInt64.toNat_add, Nat.mod_eq_of_lt (by omega)]

theorem BookAged.badd (h : BookAged cfg.inva M b qs) (hq : levelled q = true) (hf : Fits cfg q.t) (ht : q.t ≤ M) :
    BookAged cfg.inva M (badd cfg b q) (qs ++ [q]) := by
  refine ⟨fun s p => ?_, fun q' hq' => ?_⟩
  · have hstep : quotedBook (qs ++ [q]) = (bookAdd (quotedBook qs) q).1 := by
      rw [quotedBook, List.foldl_append]
      rfl
    have hq' : levelled { q with t := q.t + cfg.inva } = true := hq
    rw [hstep, Booksnap.badd, stored_bookAdd hq, stored_bookAdd hq', actOf_time]
    exact (h.val s p).act (toNat_shift hf) _
  · rcases List.mem_append.mp hq' with hq' | hq'
    · exact h.past q' hq'
    · rw [List.mem_singleton.mp hq']
      exact ht

theorem stored_exp {inva : Tv} (hm : m ≠ natv) (b : Book (OrdMap K Q)) (s : Bool) (k : K) :
    (bookExp b (if inva ≠ 0 then m else 0)).stored s k = swept inva m (b.stored s k) := by
  rw [stored_bookExp, swept]
  by_cases hi : inva = 0
  · simp [hi]
  · by_cases h0 : m = 0
    · simp [h0]
    · simp [hi, h0, hm]

/-- 時刻 `m` の写真の板。気配はすべて `m` までのもので、見える数量は、見えるべき数量である。 -/
def Shows (inva m : Tv) (b : Named K Q) (qs : List (BookQuo K Q)) : Prop :=
  (∀ q ∈ qs, q.t ≤ m) ∧ ∀ s p, (b.book.visible s p).q = (levelsAt inva m qs s p).q

/-- 写真の前に古い値を除くと、見える数量が定まる。 -/
theorem BookAged.exp (h : BookAged cfg.inva M b qs) (hM : M ≤ m) (hm : m ≠ natv) :
    BookAged cfg.inva m { b with book := bookExp b.book (if cfg.inva ≠ 0 then m else 0) } qs ∧
    Shows cfg.inva m { b with book := bookExp b.book (if cfg.inva ≠ 0 then m else 0) } qs := by
  have hpast := (h.mono hM).past
  refine ⟨⟨fun s p => ?_, hpast⟩, hpast, fun s p => ?_⟩
  · rw [stored_exp hm]
    exact ((h.val s p).sweep hM).1
  · have hall : (qs.filter fun q => decide (q.t ≤ m)) = qs :=
      List.filter_eq_self.mpr fun q hq => by simpa using hpast q hq
    rw [Book.visible, stored_exp hm, levelsAt, hall]
    exact ((h.val s p).sweep hM).2

theorem expAll_aged (h : List.Forall₂ (BookAged cfg.inva M) bs qss) (hM : M ≤ m) (hm : m ≠ natv) :
    List.Forall₂ (BookAged cfg.inva m) (expAll cfg m bs) qss ∧ List.Forall₂ (Shows cfg.inva m) (expAll cfg m bs) qss := by
  rw [expAll, List.forall₂_map_left_iff, List.forall₂_map_left_iff]
  exact ⟨h.imp fun _ _ hb => (hb.exp hM hm).1, h.imp fun _ _ hb => (hb.exp hM hm).2⟩

theorem rounds_aged (h : List.Forall₂ (BookAged cfg.inva M) bs qss) (hms : ms.Pairwise (· ≤ ·))
    (hmem : ∀ m ∈ ms, M ≤ m ∧ m < t) (hM : M ≤ M') (ht : t ≤ M') :
    List.Forall₂ (BookAged cfg.inva M') (rounds cfg ms bs).1 qss ∧
    ∀ r ∈ (rounds cfg ms bs).2, r.metr < t ∧ List.Forall₂ (Shows cfg.inva r.metr) r.books qss := by
  induction ms generalizing M bs with
  | nil => exact ⟨h.imp fun _ _ hb => hb.mono hM, fun r hr => absurd hr List.not_mem_nil⟩
  | cons m ms ih =>
      obtain ⟨hle, hms⟩ := List.pairwise_cons.mp hms
      obtain ⟨hMm, hlt⟩ := hmem m List.mem_cons_self
      obtain ⟨haged, hshows⟩ := expAll_aged h hMm (ne_natv_of_lt hlt)
      obtain ⟨h₁, h₂⟩ := ih haged hms (fun m' hm' => ⟨hle m' hm', (hmem m' (List.mem_cons_of_mem _ hm')).2⟩)
        (UInt64.le_trans (UInt64.le_of_lt hlt) ht)
      refine ⟨h₁, fun r hr => ?_⟩
      rcases List.mem_cons.mp hr with rfl | hr
      · exact ⟨hlt, hshows⟩
      · exact h₂ r hr

end Books

/-! ## 気配を集めた表 -/

section Collect
variable {K Q : Type} [LinearOrder K] [Zero K] [LinearOrder Q] [AddCommGroup Q]
variable {hash : List UInt8 → UInt32} {cfg : Conf} {C : Codec K Q} {st st' : State K Q} {line : List UInt8} {x : Xquo K Q}
variable {lines instr : List (List UInt8)} {rs rs' : List (Round K Q)} {c : Clock} {k : Nat} {inva : Tv}
variable {tab tab' : Table (List (BookQuo K Q))} {r : Round K Q} {q : BookQuo K Q} {qs : List (BookQuo K Q)}

theorem showsContent_of_forall₂ (h : List.Forall₂ (Shows inva r.metr) r.books tab.book) : ShowsContent inva tab r := by
  refine ⟨Nat.le_of_eq h.length_eq, fun k qs hqs => ⟨fun b hb => ?_, fun hb => ?_⟩⟩
  · have hrel := rel_getElem? h k
    rw [hb, hqs] at hrel
    cases hrel with
    | some hs => exact hs.2
  · have hrel := rel_getElem? h k
    rw [hb, hqs] at hrel
    cases hrel

/-- 新しい板には、まだ気配がない。 -/
theorem ShowsContent.route (h : ShowsContent inva tab r) {u : Route} {ins : List UInt8}
    (hr : Instr.route hash (fun _ => []) tab ins = some (u, tab')) : ShowsContent inva tab' r := by
  refine ⟨?_, fun k qs hqs => ?_⟩
  · rcases route_cases hr with ⟨_, rfl, _⟩ | ⟨_, rfl, _⟩ | ⟨_, rfl, _⟩ | ⟨_, rfl, _⟩
    · exact h.1
    · exact h.1
    · exact h.1
    · rw [Table.add, List.length_append]
      exact Nat.le_add_right_of_le h.1
  · rcases route_book hr hqs with hqs | ⟨hk, rfl⟩
    · exact h.2 k qs hqs
    · have hnone : r.books[k]? = none := List.getElem?_eq_none (by rw [hk]; exact h.1)
      refine ⟨fun b hb => ?_, fun _ => rfl⟩
      rw [hnone] at hb
      cases hb

/-- 写真より後の気配は、写真の中身に関わらない。 -/
theorem ShowsContent.append (h : ShowsContent inva tab r) (hqs : tab.book[k]? = some qs) (hlt : r.metr < q.t) :
    ShowsContent inva { tab with book := tab.book.set k (qs ++ [q]) } r := by
  have hfilter : (qs ++ [q]).filter (fun q => decide (q.t ≤ r.metr)) = qs.filter fun q => decide (q.t ≤ r.metr) := by
    rw [List.filter_append, List.filter_cons_of_neg (by simpa using hlt), List.filter_nil, List.append_nil]
  refine ⟨by rw [List.length_set]; exact h.1, fun j qs' hqs' => ?_⟩
  by_cases hj : k = j
  · subst hj
    obtain ⟨h₁, h₂⟩ := h.2 k qs hqs
    rw [List.getElem?_set_self (List.getElem?_eq_some_iff.mp hqs).1] at hqs'
    cases hqs'
    refine ⟨fun b hb s p => ?_, fun hb => ?_⟩
    · rw [h₁ b hb s p, levelsAt, levelsAt, hfilter]
    · rw [hfilter]
      exact h₂ hb
  · rw [List.getElem?_set_ne hj] at hqs'
    exact h.2 j qs' hqs'

/-- 行までの写真の中身は、行の後も変わらない。 -/
theorem ShowsContent.step (h : ShowsContent inva tab r) (hx : readXquo C line = some x)
    (hlt : Accepted x → r.metr < x.q.t) (hc : collectStep hash C tab line = some tab') : ShowsContent inva tab' r := by
  rw [collectStep, Option.bind_eq_bind, hx, Option.bind_some] at hc
  split at hc
  · rename_i ha
    rw [Option.bind_eq_bind, Option.bind_eq_some_iff] at hc
    obtain ⟨⟨u, tab₁⟩, hr, hc⟩ := hc
    have h₁ := h.route hr
    cases u with
    | skip =>
        cases hc
        exact h₁
    | use k =>
        obtain ⟨qs, hqs, hc⟩ := Option.bind_eq_some_iff.mp hc
        cases hc
        exact h₁.append hqs (hlt ha)
  · cases hc
    exact h

/-- 状態の板は、集めた気配の列に対応し、時計は戻らない。 -/
structure Tracks (cfg : Conf) (st : State K Q) (tab : Table (List (BookQuo K Q))) : Prop where
  rel : st.tab.Rel (BookAged cfg.inva st.clock.metr) tab
  rises : Rises cfg st.clock

theorem Table.Rel.mono {B B' : Type} {R R' : B → B' → Prop} {t : Table B} {t' : Table B'} (h : t.Rel R t')
    (hR : ∀ b b', R b b' → R' b b') : t.Rel R' t' :=
  ⟨h.conx, h.nctch, h.zbook, h.book.imp hR⟩

theorem collectStep_refused (hx : readXquo C line = some x) (ha : ¬ Accepted x) :
    collectStep hash C tab line = some tab := by
  rw [collectStep, Option.bind_eq_bind, hx, Option.bind_some, if_neg ha]
  rfl

theorem collectStep_skip {tab₂ : Table (List (BookQuo K Q))} (hx : readXquo C line = some x) (ha : Accepted x)
    (hr : route hash (fun _ => []) tab (insOf line x) = some (.skip, tab₂)) : collectStep hash C tab line = some tab₂ := by
  rw [collectStep, Option.bind_eq_bind, hx, Option.bind_some, if_pos ha, Option.bind_eq_bind, hr]
  rfl

theorem collectStep_use {tab₂ : Table (List (BookQuo K Q))} {k : Nat} {qs : List (BookQuo K Q)}
    (hx : readXquo C line = some x) (ha : Accepted x)
    (hr : route hash (fun _ => []) tab (insOf line x) = some (.use k, tab₂)) (hqs : tab₂.book[k]? = some qs) :
    collectStep hash C tab line = some { tab₂ with book := tab₂.book.set k (qs ++ [x.q]) } := by
  rw [collectStep, Option.bind_eq_bind, hx, Option.bind_some, if_pos ha, Option.bind_eq_bind, hr, Option.bind_some]
  simp only [Option.bind_eq_bind, hqs, Option.bind_some]
  rfl

/-- 受け付ける行の処理は、対応を保つ。撮る写真は、行より前の時刻の、見えるべき中身を持つ。 -/
theorem Tracks.step (h : Tracks cfg st tab) (hx : readXquo C line = some x)
    (hq : Accepted x → levelled x.q = true ∧ Fits cfg x.q.t) (hs : mainStep hash cfg C st line = some (st', rs)) :
    ∃ tab', collectStep hash C tab line = some tab' ∧ Tracks cfg st' tab' ∧
      ∀ r ∈ rs, Accepted x ∧ r.metr < x.q.t ∧ ShowsContent cfg.inva tab' r := by
  obtain ⟨y, hy, hcase⟩ := mainStep_cases hs
  rw [hx] at hy
  cases hy
  rcases hcase with ⟨hna, rfl, rfl⟩ | ⟨ha, c, hc, hcase⟩
  · exact ⟨tab, collectStep_refused hx hna, h, fun r hr => absurd hr List.not_mem_nil⟩
  · obtain ⟨hlvl, hf⟩ := hq ha
    obtain ⟨hrises, hmono⟩ := h.rises.start hf hc
    have hrel := Table.Rel.mono h.rel fun b qs (hb : BookAged cfg.inva _ b qs) => hb.mono hmono
    have hroute : Option.Rel _ (route hash makeNamed st.tab (insOf line x)) (route hash (fun _ => []) tab (insOf line x)) :=
      hrel.route (fun n => bookAged_make n) (insOf line x)
    rcases hcase with ⟨tab₁, hr, rfl, rfl⟩ | ⟨k, ⟨tab₁, ms, c', b, hr, hms, hb, rfl, rfl⟩⟩
    · rw [hr] at hroute
      cases hr' : route hash (fun _ => []) tab (insOf line x) with
      | none => rw [hr'] at hroute; cases hroute
      | some y =>
          obtain ⟨u, tab₂⟩ := y
          rw [hr'] at hroute
          cases hroute with
          | some hu =>
              obtain ⟨rfl, hrel₂⟩ := hu
              exact ⟨tab₂, collectStep_skip hx ha hr', ⟨hrel₂, hrises⟩, fun r hr => absurd hr List.not_mem_nil⟩
    · rw [hr] at hroute
      cases hr' : route hash (fun _ => []) tab (insOf line x) with
      | none => rw [hr'] at hroute; cases hroute
      | some y =>
          obtain ⟨u, tab₂⟩ := y
          rw [hr'] at hroute
          cases hroute with
          | some hu =>
              obtain ⟨rfl, hrel₂⟩ := hu
              have hbetween := hrises.shoot hf hms
              obtain ⟨hbooks, hshows⟩ := rounds_aged hrel₂.book hbetween.sorted hbetween.mem hbetween.mono hbetween.le
              have hget := rel_getElem? hbooks k
              rw [hb] at hget
              cases hqs : tab₂.book[k]? with
              | none => rw [hqs] at hget; cases hget
              | some qs =>
                  rw [hqs] at hget
                  cases hget with
                  | some hbq =>
                      refine ⟨_, collectStep_use hx ha hr' hqs, ⟨⟨hrel₂.conx, hrel₂.nctch, hrel₂.zbook, ?_⟩, hbetween.rises⟩, fun r hr => ?_⟩
                      · exact forall₂_set hbooks k (hbq.badd hlvl hf hbetween.le)
                      · obtain ⟨hlt, hall⟩ := hshows r hr
                        exact ⟨ha, hlt, (showsContent_of_forall₂ hall).append hqs hlt⟩

/-! ## 実行 -/

theorem collect_append {done : List (List UInt8)} (h : collect hash C instr done = some tab)
    (hstep : collectStep hash C tab line = some tab') : collect hash C instr (done ++ [line]) = some tab' := by
  rw [collect, List.foldlM_append, ← collect, h, Option.bind_eq_bind, Option.bind_some, List.foldlM_cons, hstep]
  rfl

/-- 実行の不変条件。撮った写真は、集めた気配から見えるべき中身を持ち、受け付けた行より前の時刻のものである。 -/
structure Snaps (hash : List UInt8 → UInt32) (cfg : Conf) (C : Codec K Q) (instr done : List (List UInt8))
    (st : State K Q) (rs : List (Round K Q)) : Prop where
  ex : ∃ tab, collect hash C instr done = some tab ∧ Tracks cfg st tab ∧
    ∀ r ∈ rs, ShowsContent cfg.inva tab r ∧ ∃ t ∈ acceptedTimes C done, r.metr < t

theorem snaps_init {sfil : List (List UInt8)} (hS : cfg.stamps = true → (stampsOf sfil).Pairwise (· ≤ ·))
    (hi : cfg.stamps = false → 0 < cfg.intv) : Snaps hash cfg C instr [] (initState hash sfil instr) [] :=
  ⟨_, rfl, ⟨rel_initTable (fun n => bookAged_make n) instr, rises_init hS hi⟩, fun _ hr => absurd hr List.not_mem_nil⟩

theorem snaps_run {sfil : List (List UInt8)} (hS : cfg.stamps = true → (stampsOf sfil).Pairwise (· ≤ ·))
    (hi : cfg.stamps = false → 0 < cfg.intv) (hsorted : (acceptedTimes C lines).Pairwise (· ≤ ·))
    (hq : ∀ line ∈ lines, ∀ x, readXquo C line = some x → Accepted x → levelled x.q = true ∧ Fits cfg x.q.t)
    (h : mainLoop hash cfg C (initState hash sfil instr) lines = some (st, rs)) : Snaps hash cfg C instr lines st rs := by
  refine mainLoop_rule (P := Snaps hash cfg C instr) (snaps_init hS hi) ?_ h
  rintro done line st₁ rs₁ st₂ rs₂ hpre ⟨tab, hcollect, htracks, hrs⟩ hstep
  obtain ⟨x, hx, _⟩ := mainStep_cases hstep
  obtain ⟨tab', hcollect', htracks', hrs'⟩ := htracks.step hx (hq line (mem_of_step hpre) x hx) hstep
  -- 処理した行の時刻は、この行の時刻より後にない。
  have hprefix : (acceptedTimes C (done ++ [line])).Pairwise (· ≤ ·) := by
    obtain ⟨rest, hrest⟩ := hpre
    rw [← hrest, acceptedTimes_append] at hsorted
    exact (List.pairwise_append.mp hsorted).1
  have hlast : Accepted x → x.q.t ∈ acceptedTimes C [line] := fun ha => by
    rw [acceptedTimes_cons hx, if_pos ha]
    exact List.mem_cons_self
  rw [acceptedTimes_append] at hprefix
  refine ⟨tab', collect_append hcollect hcollect', htracks', fun r hr => ?_⟩
  rw [acceptedTimes_append]
  rcases List.mem_append.mp hr with hr | hr
  · obtain ⟨hshow, t, ht, hlt⟩ := hrs r hr
    refine ⟨hshow.step hx (fun ha => ?_) hcollect', t, List.mem_append_left _ ht, hlt⟩
    exact UInt64.lt_of_lt_of_le hlt ((List.pairwise_append.mp hprefix).2.2 t ht _ (hlast ha))
  · obtain ⟨ha, hlt, hshow⟩ := hrs' r hr
    exact ⟨hshow, x.q.t, List.mem_append_right _ (hlast ha), hlt⟩

theorem finalRound_shows (h : Tracks cfg st tab) : ∀ r ∈ finalRound cfg st, ShowsContent cfg.inva tab r := by
  intro r hr
  unfold finalRound at hr
  split at hr
  · rename_i hlt
    rw [List.mem_singleton.mp hr]
    have hne : st.clock.metr ≠ natv := fun he => by
      rw [he] at hlt
      exact absurd hlt (UInt64.lt_irrefl _)
    exact showsContent_of_forall₂ (expAll_aged h.rel.book (UInt64.le_refl _) hne).2
  · exact absurd hr List.not_mem_nil

end Collect

end Books.Booksnap
