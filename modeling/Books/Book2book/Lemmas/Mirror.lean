import Books.Book2book.Lemmas.Main
import Books.Book2book.Lemmas.Replay

/-!
# レベル 3 の写し
-/

set_option linter.unusedSectionVars false

namespace Books.Book2book

open Books.Btree Books.Book Books.Instr Books.Xquo

variable {K Q : Type} [LinearOrder K] [Zero K] [LinearOrder Q] [AddCommGroup Q]
variable {hash : List UInt8 → UInt32} {C : Codec K Q} {line pre : List UInt8} {x : Xquo K Q} {q o : BookQuo K Q}
variable {p : K} {s : Bool} {b r : Book (OrdMap K Q)} {st st' : State (OrdMap K Q)} {k : Nat}
variable {calls out : List (Call (OrdMap K Q) K Q)} {lines : List (List UInt8)}

/-- 写し `r` は、板 `b` と同じ数量をもつ。数量は負でない。 -/
def Mirrors (b r : Book (OrdMap K Q)) : Prop := ∀ s k, (r.stored s k).q = (b.stored s k).q ∧ 0 ≤ (b.stored s k).q

theorem mirrors_makeBook : Mirrors (makeBook : Book (OrdMap K Q)) makeBook := by
  intro s k
  refine ⟨rfl, ?_⟩
  cases s <;> exact le_rfl

theorem Mirrors.sameQuantities (h : Mirrors b r) : SameQuantities b r := by
  intro s k
  obtain ⟨hq, _⟩ := h s k
  have hn : (r.stored s k).nilP = (b.stored s k).nilP := by rw [BtreeVal.nilP, BtreeVal.nilP, hq]
  rw [Book.visible, Book.visible, shown, shown, hn]
  split
  · rfl
  · exact hq

/-! ## 一つの行 -/

theorem replay_prq3 (hC : C.Exact) (hpre : PrefixOk pre) (hs : q.s = sideOf s) (hp : q.p = some p)
    (o : BookQuo K Q) (ls : List (List UInt8)) :
    replay C r (prq3 C pre q o :: ls) =
      replay C (bookAdd r ⟨sideOf s, .lvl3, some p, q.q - o.q, strtotv (pre ++ [sideByte (sideOf s)])⟩).1 ls := by
  rw [prq3, hs, hp, replay_quoLine hC hpre]
  rfl

/-- 差を加えると、書き込んだ数量になる。 -/
theorem stored_delta {t : Tv} {y : Q} (hy : 0 ≤ y) (hr : (r.stored s p).q = (b.stored s p).q) (s' : Bool) (k : K) :
    ((bookAdd r ⟨sideOf s, .lvl3, some p, y - (b.stored s p).q, t⟩).1.stored s' k).q =
      if s' = s ∧ k = p then y else (r.stored s' k).q := by
  rw [stored_lvl3 rfl rfl rfl]
  split
  · simp only
    rw [hr, sub_add_cancel, if_pos hy]
  · rfl

theorem bookAdd_lvl2_old (hs : q.s = sideOf s) (hf : q.f = .lvl2) (hp : q.p = some p) :
    (bookAdd b q).2.q = (b.stored s p).q := by
  rw [bookAdd_side hs, addLvl, hf, hp]
  rfl

theorem Mirrors.lvl2 {t : Tv} (h : Mirrors b r) (hs : q.s = sideOf s) (hf : q.f = .lvl2) (hp : q.p = some p)
    (hq : 0 ≤ q.q) :
    Mirrors (bookAdd b q).1 (bookAdd r ⟨sideOf s, .lvl3, some p, q.q - (bookAdd b q).2.q, t⟩).1 := by
  intro s' k
  rw [bookAdd_lvl2_old hs hf hp, stored_delta hq (h s p).1, stored_lvl2 hs hf hp]
  split
  · exact ⟨rfl, hq⟩
  · exact h s' k

/-- 巻き戻しの行は、写しの数量を 0 にする。 -/
theorem replay_zeros3 (hC : C.Exact) (hpre : PrefixOk pre) : ∀ (ks : List K) (r : Book (OrdMap K Q)), ks.Nodup →
    (∀ k ∈ ks, (r.stored s k).q = (b.stored s k).q) →
    ∃ r', replay C r (ks.map fun k => prq3 C pre (zeroQuo s k) (oldQuo b s k)) = some r' ∧
      ∀ s' k, (r'.stored s' k).q = if s' = s ∧ k ∈ ks then 0 else (r.stored s' k).q
  | [], r, _, _ => ⟨r, rfl, fun s' k => by simp⟩
  | p :: ks, r, hnd, hr => by
      obtain ⟨hp, hks⟩ := List.nodup_cons.mp hnd
      have hst := stored_delta (b := b) (s := s) (p := p) (t := strtotv (pre ++ [sideByte (sideOf s)])) (le_refl (0 : Q))
        (hr p List.mem_cons_self)
      obtain ⟨r', hr', hv⟩ := replay_zeros3 hC hpre ks
        (bookAdd r ⟨sideOf s, .lvl3, some p, 0 - (b.stored s p).q, strtotv (pre ++ [sideByte (sideOf s)])⟩).1 hks
        (fun k hk => by
          have hne : k ≠ p := fun he => hp (he ▸ hk)
          rw [hst, if_neg (fun h => hne h.2)]
          exact hr k (List.mem_cons_of_mem p hk))
      refine ⟨r', ?_, fun s' k => ?_⟩
      · rw [List.map_cons, replay_prq3 hC hpre rfl rfl]
        exact hr'
      · rw [hv, hst]
        by_cases hs : s' = s
        · by_cases hk : k = p
          · simp [hs, hk]
          · simp [hs, hk]
        · simp [hs]

theorem Mirrors.unwindAll (hC : C.Exact) (hpre : PrefixOk pre) (h : Mirrors b r) (s : Bool) (go : Option K → Bool) :
    ∃ r', replay C r ((unwindAll s go b).2.map fun c => prq3 C pre c.q c.o) = some r' ∧
      Mirrors (Book2book.unwindAll s go b).1 r' := by
  have hnd : (unwound b s go).Nodup := (unwound_sorted b s go).imp (fun hb => hb.ne)
  obtain ⟨r', hr', hv⟩ := replay_zeros3 (b := b) (s := s) hC hpre (unwound b s go) r hnd (fun k _ => (h s k).1)
  refine ⟨r', ?_, fun s' k => ?_⟩
  · rw [map_calls (unwindAll_calls b s go) (prq3 C pre)]
    exact hr'
  · rw [hv, unwindAll_stored]
    split
    · exact ⟨rfl, le_rfl⟩
    · exact h s' k

theorem Mirrors.advance (hC : C.Exact) (hpre : PrefixOk pre) (h : Mirrors b r) (hq : LevelQuo q) :
    ∃ b' cs r', advance .prq3 b q = some (b', cs) ∧ replay C r (cs.map fun c => prq3 C pre c.q c.o) = some r' ∧
      Mirrors b' r' := by
  rcases hq with ⟨s, p, hs, hf, hp, hq⟩ | ⟨hs, hf⟩
  · have hne : q.s ≠ .clr := by rw [hs]; cases s <;> decide
    refine ⟨_, _, _, advance_plain (by rw [hf]; decide) hne, ?_, h.lvl2 (t := strtotv (pre ++ [sideByte (sideOf s)])) hs hf hp hq⟩
    simp only [List.map_cons, List.map_nil]
    rw [replay_prq3 hC hpre hs hp]
    rfl
  · obtain ⟨r₁, hr₁, h₁⟩ := h.unwindAll hC hpre true (fun _ => true)
    obtain ⟨r₂, hr₂, h₂⟩ := h₁.unwindAll hC hpre false (fun _ => true)
    refine ⟨_, _, r₂, advance_clr rfl hf hs, ?_, h₂⟩
    rw [List.map_append, replay_append hr₁]
    exact hr₂

/-! ## 全体 -/

/-- 表の各板を、印字した行の写しが表している。 -/
structure Mirrored (C : Codec K Q) (st : State (OrdMap K Q)) (calls : List (Call (OrdMap K Q) K Q)) : Prop where
  ok : st.Ok
  bound : ∀ c ∈ calls, c.k < st.book.length
  mirror : ∀ k b, st.book[k]? = some b → ∃ r, replay C makeBook (printed3 C calls k) = some r ∧ Mirrors b r

theorem printed3_append : printed3 C (calls ++ out) k = printed3 C calls k ++ printed3 C out k := by
  simp [printed3]

theorem printed3_nil (h : ∀ c ∈ calls, c.k ≠ k) : printed3 C calls k = [] := by
  rw [printed3, List.filter_eq_nil_iff.mpr (fun c hc => by simpa using h c hc), List.map_nil]

theorem printed3_same {cs : List (Arg (OrdMap K Q) K Q)} :
    printed3 C (cs.map fun c => (⟨c, k, pre⟩ : Call (OrdMap K Q) K Q)) k = cs.map fun c => prq3 C pre c.q c.o := by
  rw [printed3, List.filter_eq_self.mpr (fun c hc => ?_), List.map_map]
  · rfl
  · obtain ⟨a, _, rfl⟩ := List.mem_map.mp hc
    exact decide_eq_true rfl

theorem mirrored_initState (instr : List (List UInt8)) : Mirrored C (initState hash instr) [] := by
  refine ⟨ok_initTable instr, fun c hc => absurd hc List.not_mem_nil, fun k b hb => ?_⟩
  have hmk : b = makeBook := by
    have hmem := List.mem_of_getElem? hb
    unfold initState initTable at hmem
    simp only at hmem
    split at hmem
    · exact absurd hmem List.not_mem_nil
    · split at hmem
      · rcases List.mem_append.mp hmem with hm | hm
        · obtain ⟨_, _, rfl⟩ := List.mem_map.mp hm
          rfl
        · exact List.mem_singleton.mp hm
      · obtain ⟨_, _, rfl⟩ := List.mem_map.mp hmem
        rfl
  exact ⟨makeBook, rfl, hmk ▸ mirrors_makeBook⟩

theorem Mirrored.route (h : Mirrored C st calls) {ins : List UInt8} {rt : Route}
    (hr : route hash (fun _ => makeBook) st ins = some (rt, st')) : Mirrored C st' calls := by
  have hlen : st.book.length ≤ st'.book.length := by
    rcases route_cases hr with ⟨_, rfl, _⟩ | ⟨_, rfl, _⟩ | ⟨_, rfl, _⟩ | ⟨_, rfl, _⟩
    · exact Nat.le_refl _
    · exact Nat.le_refl _
    · exact Nat.le_refl _
    · rw [Table.add, List.length_append]
      exact Nat.le_add_right _ _
  refine ⟨h.ok.route hr, fun c hc => Nat.lt_of_lt_of_le (h.bound c hc) hlen, fun k b hb => ?_⟩
  rcases route_book hr hb with hb | ⟨rfl, rfl⟩
  · exact h.mirror k b hb
  · rw [printed3_nil (fun c hc => Nat.ne_of_lt (h.bound c hc))]
    exact ⟨makeBook, rfl, mirrors_makeBook⟩

theorem Mirrored.mainStep (hC : C.Exact) (h : Mirrored C st calls) (hl : LevelLine C line)
    (hm : mainStep hash C .prq3 st line = some (st', out)) : Mirrored C st' (calls ++ out) := by
  obtain ⟨y, hy, hq⟩ := hl
  obtain ⟨x, hx, ⟨_, rfl, rfl⟩ | ⟨_, hr, rfl⟩ | ⟨_, k, st₁, b, b', cs, hr, hb, ha, rfl, rfl⟩⟩ := mainStep_cases hm
  · rw [List.append_nil]; exact h
  · rw [List.append_nil]; exact h.route hr
  · rw [hy] at hx
    cases hx
    have h₁ := h.route hr
    obtain ⟨r, hrep, hmir⟩ := h₁.mirror k b hb
    obtain ⟨b₂, cs₂, r', ha₂, hr', hmir'⟩ := hmir.advance hC (prefixOk_prfx hy) hq
    rw [ha] at ha₂
    cases ha₂
    have hk := h.ok.use_lt hr
    refine ⟨h₁.ok.set k b', fun c hc => ?_, fun j b₃ hb₃ => ?_⟩
    · rw [List.length_set]
      rcases List.mem_append.mp hc with hc | hc
      · exact h₁.bound c hc
      · obtain ⟨a, _, rfl⟩ := List.mem_map.mp hc
        exact hk
    · rw [printed3_append]
      by_cases hj : j = k
      · subst hj
        rw [List.getElem?_set_self hk] at hb₃
        cases hb₃
        rw [printed3_same, replay_append hrep]
        exact ⟨r', hr', hmir'⟩
      · rw [List.getElem?_set_ne (Ne.symm hj)] at hb₃
        have hnil : printed3 C (cs.map fun c => (⟨c, k, prfx line y⟩ : Call (OrdMap K Q) K Q)) j = [] := by
          refine printed3_nil (fun c hc => ?_)
          obtain ⟨a, _, rfl⟩ := List.mem_map.mp hc
          exact Ne.symm hj
        rw [hnil, List.append_nil]
        exact h₁.mirror j b₃ hb₃

theorem Mirrored.mainLoop (hC : C.Exact) : ∀ {lines : List (List UInt8)} {st st' : State (OrdMap K Q)}
    {calls out : List (Call (OrdMap K Q) K Q)}, Mirrored C st calls → (∀ l ∈ lines, LevelLine C l) →
    mainLoop hash C .prq3 st lines = some (st', out) → Mirrored C st' (calls ++ out)
  | [], _, _, _, _, h, _, hm => by
      cases hm
      rw [List.append_nil]; exact h
  | line :: lines, _, _, _, _, h, hl, hm => by
      obtain ⟨st₁, out₁, out₂, hm₁, hm₂, rfl⟩ := mainLoop_cons hm
      rw [← List.append_assoc]
      exact Mirrored.mainLoop hC (h.mainStep hC (hl line List.mem_cons_self) hm₁)
        (fun l hl' => hl l (List.mem_cons_of_mem line hl')) hm₂

end Books.Book2book
