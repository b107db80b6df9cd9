import Books.Book2book.Lemmas.Main
import Books.Book2book.Lemmas.Replay

/-!
# 出力の選択と板

巻き戻す出力とほかの出力で、板がどう食い違いうるかを述べる。
-/

set_option linter.unusedSectionVars false

namespace Books.Book2book

open Books.Btree Books.Book Books.Instr Books.Lib Books.Xquo

variable {K Q : Type} [LinearOrder K] [Zero K] [LinearOrder Q] [AddCommGroup Q]
variable {v w : BtreeVal Q} {a b : Book (OrdMap K Q)} {q : BookQuo K Q} {s : Bool} {p : K} {m : Prq}

/-- 数量が等しく、見える値は時刻も等しい。 -/
def AlikeVal (v w : BtreeVal Q) : Prop := v.q = w.q ∧ (v.nilP = false → v = w)

theorem AlikeVal.refl (v : BtreeVal Q) : AlikeVal v v := ⟨rfl, fun _ => rfl⟩

theorem AlikeVal.nilP_eq (h : AlikeVal v w) : v.nilP = w.nilP := by
  rw [BtreeVal.nilP, BtreeVal.nilP, h.1]

theorem AlikeVal.shown_eq (h : AlikeVal v w) : shown v = shown w := by
  rw [shown, shown, h.nilP_eq]
  split
  · rfl
  · rename_i hw
    exact h.2 (by rw [h.nilP_eq]; simpa using hw)

/-- 二つの板のどの値も `AlikeVal` である。 -/
def Alike (a b : Book (OrdMap K Q)) : Prop := ∀ s k, AlikeVal (a.stored s k) (b.stored s k)

theorem Alike.refl (b : Book (OrdMap K Q)) : Alike b b := fun _ _ => AlikeVal.refl _

theorem Alike.visible_eq (h : Alike a b) : a.visible = b.visible := by
  funext s k
  exact (h s k).shown_eq

/-! ## `book_add` -/

theorem bookAdd_nan (hs : q.s = sideOf s) (hf : q.f = .lvl2 ∨ q.f = .lvl3) (hp : q.p = none) :
    (bookAdd b q).1 = b := by
  rw [bookAdd_side hs, addLvl]
  rcases hf with hf | hf
  · simp only [hf, hp, putVal_none, Book.set_get]
  · simp only [hf, hp, putVal_none, Book.set_get]

theorem delSide_nan {descp : Bool} {m : OrdMap K Q descp} {past go : Option K → Option K → Bool}
    (hgo : ∀ k, go k none = false) (hp : q.p = none) (k : K) : (delSide past go q m).val k = m.val k := by
  have hloop := eachVal_val (fun k => go k q.p) (fun k v => { v with q := if past k q.p then 0 else v.q - q.q })
    (m.rest none) (m.keys.length + 1) m none rfl (Nat.lt_succ_of_le (m.rest_length none)) k
  have hnil : (m.rest none).takeWhile (fun k => go (some k) none) = [] := by
    simp only [hgo]
    cases m.rest none <;> rfl
  refine hloop.trans ?_
  rw [hp, hnil, if_neg List.not_mem_nil]

theorem stored_del_nan (hs : q.s = .del) (hp : q.p = none) (s' : Bool) (k : K) :
    (bookAdd b q).1.stored s' k = b.stored s' k := by
  rw [bookAdd, hs]
  cases s' with
  | false => exact delSide_nan (fun k => by cases k <;> rfl) hp k
  | true =>
      have hbid : (delSide (fun k p => pxLt p k) (fun k p => pxLe p k) q b.bid).val k = b.bid.val k :=
        delSide_nan (fun k => by cases k <;> rfl) hp k
      exact hbid

theorem Alike.side (h : Alike a b) (hs : q.s = sideOf s) : Alike (bookAdd a q).1 (bookAdd b q).1 := by
  intro s' k
  cases hf : q.f with
  | lvl0 =>
      rw [bookAdd_lvl0 hs hf, bookAdd_lvl0 hs hf]
      exact h s' k
  | lvl1 =>
      by_cases hq : q.q < 0
      · rw [bookAdd_lvl1_neg hs hf hq, bookAdd_lvl1_neg hs hf hq]
        exact h s' k
      · cases hp : q.p with
        | none =>
            rw [stored_lvl1_none hs hf hp hq, stored_lvl1_none hs hf hp hq]
            split
            · exact AlikeVal.refl _
            · exact h s' k
        | some p =>
            rw [stored_lvl1 hs hf hp hq, stored_lvl1 hs hf hp hq]
            split
            · exact AlikeVal.refl _
            · exact h s' k
  | lvl2 =>
      cases hp : q.p with
      | none =>
          rw [bookAdd_nan hs (Or.inl hf) hp, bookAdd_nan hs (Or.inl hf) hp]
          exact h s' k
      | some p =>
          rw [stored_lvl2 hs hf hp, stored_lvl2 hs hf hp]
          split
          · exact AlikeVal.refl _
          · exact h s' k
  | lvl3 =>
      cases hp : q.p with
      | none =>
          rw [bookAdd_nan hs (Or.inr hf) hp, bookAdd_nan hs (Or.inr hf) hp]
          exact h s' k
      | some p =>
          rw [stored_lvl3 hs hf hp, stored_lvl3 hs hf hp, (h s p).1]
          split
          · exact AlikeVal.refl _
          · exact h s' k

theorem Alike.del (h : Alike a b) (hs : q.s = .del) : Alike (bookAdd a q).1 (bookAdd b q).1 := by
  intro s' k
  cases hp : q.p with
  | none =>
      rw [stored_del_nan hs hp, stored_del_nan hs hp]
      exact h s' k
  | some p =>
      rw [stored_del hs hp, stored_del hs hp, (h s' k).nilP_eq]
      split
      · rename_i hc
        rw [(h s' k).2 (by rw [(h s' k).nilP_eq]; exact hc.1)]
        exact AlikeVal.refl _
      · exact h s' k

theorem Alike.bookAdd (h : Alike a b) (q : BookQuo K Q) : Alike (bookAdd a q).1 (Book.bookAdd b q).1 := by
  cases hs : q.s with
  | unk => rw [Book.bookAdd, Book.bookAdd, hs]; exact h
  | ask => exact h.side (s := false) hs
  | bid => exact h.side (s := true) hs
  | clr =>
      intro s' k
      rw [stored_clr hs, stored_clr hs]
      exact AlikeVal.refl _
  | del => exact h.del hs
  | other n => rw [Book.bookAdd, Book.bookAdd, hs]; exact h

/-! ## 巻き戻し -/

theorem Alike.lvl1 (h : Alike a b) (hs : q.s = sideOf s) (hf : q.f = .lvl1)
    (hneg : q.q < 0 → ∀ p, q.p = some p → ∀ k, Before s k p → (b.stored s k).nilP = true) :
    Alike (Book.bookAdd (unwindAll s (fun y => if s then pxLt q.p y else pxLt y q.p) a).1 q).1 (Book.bookAdd b q).1 := by
  set u := unwindAll s (fun y => if s then pxLt q.p y else pxLt y q.p) a with hu
  by_cases hq : q.q < 0
  · -- 受け付けない気配では、巻き戻すものがない。
    have hnone : unwound a s (fun y => if s then pxLt q.p y else pxLt y q.p) = [] := by
      cases hp : q.p with
      | none => exact unwound_nan
      | some p =>
          refine List.eq_nil_iff_forall_not_mem.mpr (fun k hk => ?_)
          obtain ⟨hlive, hbefore⟩ := mem_unwound_past.mp hk
          rw [(h s k).nilP_eq, hneg hq p hp k hbefore] at hlive
          cases hlive
    rw [bookAdd_lvl1_neg hs hf hq, bookAdd_lvl1_neg hs hf hq]
    intro s' k
    rw [hu, unwindAll_stored, hnone, if_neg (fun hc => List.not_mem_nil hc.2)]
    exact h s' k
  · -- 受け付ける気配は、側を書き直すので、巻き戻しの跡は残らない。
    have hother : ∀ s' k, s' ≠ s → AlikeVal (u.1.stored s' k) (b.stored s' k) := by
      intro s' k hne
      rw [hu, unwindAll_stored, if_neg (fun hc => hne hc.1)]
      exact h s' k
    intro s' k
    cases hp : q.p with
    | none =>
        rw [stored_lvl1_none hs hf hp hq, stored_lvl1_none hs hf hp hq]
        by_cases hs' : s' = s
        · rw [if_pos hs', if_pos hs']
          exact AlikeVal.refl _
        · rw [if_neg hs', if_neg hs']
          exact hother s' k hs'
    | some p =>
        rw [stored_lvl1 hs hf hp hq, stored_lvl1 hs hf hp hq]
        by_cases hs' : s' = s
        · rw [if_pos hs', if_pos hs']
          exact AlikeVal.refl _
        · rw [if_neg hs', if_neg hs']
          exact hother s' k hs'

theorem stored_unwind_both (s' : Bool) (k : K) :
    (unwindAll false (fun _ => true) (unwindAll true (fun _ => true) a).1).1.stored s' k =
      if (a.stored s' k).nilP = false then .nil else a.stored s' k := by
  rw [unwindAll_stored]
  simp only [mem_unwound_all, unwindAll_stored]
  cases s' with
  | false => simp
  | true => simp

theorem Alike.clr (h : Alike a b) (hs : q.s = .clr) (hpos : ∀ s k, 0 ≤ (b.stored s k).q) :
    Alike (unwindAll false (fun _ => true) (unwindAll true (fun _ => true) a).1).1 (Book.bookAdd b q).1 := by
  intro s' k
  rw [stored_unwind_both, stored_clr hs]
  split
  · exact AlikeVal.refl _
  · rename_i hn
    have hn' : (a.stored s' k).nilP = true := by simpa using hn
    have hle : (a.stored s' k).q ≤ 0 := of_decide_eq_true hn'
    have hge : 0 ≤ (a.stored s' k).q := by rw [(h s' k).1]; exact hpos s' k
    exact ⟨le_antisymm hle hge, fun hc => absurd hc (by rw [hn']; decide)⟩

theorem advance_direct (hm : m.unwinds = false) :
    advance m a q = some ((Book.bookAdd a q).1, [⟨(Book.bookAdd a q).1, q, (Book.bookAdd a q).2⟩]) := by
  have hne : ¬ m.unwinds = true := by rw [hm]; decide
  rw [advance, if_neg (fun hc => hne hc.2), if_neg (fun hc => hne hc.2)]

theorem Alike.advance (h : Alike a b) (hq : SafeQuo b q) : ∃ a' cs b' ds,
    advance m a q = some (a', cs) ∧ advance .prq1 b q = some (b', ds) ∧ Alike a' b' := by
  have hplain := advance_direct (a := b) (q := q) (m := .prq1) rfl
  cases hm : m.unwinds with
  | false => exact ⟨_, _, _, _, advance_direct hm, hplain, h.bookAdd q⟩
  | true =>
      by_cases hf : q.f = .lvl1
      · obtain ⟨s, hs, hneg⟩ := hq.1 hf
        exact ⟨_, _, _, _, advance_lvl1 hm hs hf, hplain, h.lvl1 hs hf hneg⟩
      · by_cases hs : q.s = .clr
        · exact ⟨_, _, _, _, advance_clr hm hf hs, hplain, h.clr hs (hq.2 hs)⟩
        · exact ⟨_, _, _, _, advance_plain hf hs, hplain, h.bookAdd q⟩

/-! ## 全体 -/

variable {hash : List UInt8 → UInt32} {C : Codec K Q} {line : List UInt8} {st st₁ : State (OrdMap K Q)}

theorem rel_initState (hash : List UInt8 → UInt32) (instr : List (List UInt8)) :
    (initState hash instr : State (OrdMap K Q)).Rel Alike (initState hash instr) :=
  rel_initTable (fun _ => Alike.refl _) instr

/-- 対応する表から始めた一行は、対応する表で終わる。 -/
theorem rel_mainStep (h : st.Rel Alike st₁)
    (hsafe : ∀ x k st₂ b, readXquo C line = some x → x.q.s ≠ .unk →
      route hash (fun _ => makeBook) st₁ (insOf line x) = some (.use k, st₂) → st₂.book[k]? = some b → SafeQuo b x.q) :
    Option.Rel (fun x y => x.1.Rel Alike y.1) (mainStep hash C m st line) (mainStep hash C .prq1 st₁ line) := by
  rw [mainStep, mainStep]
  refine rel_bind (rel_refl _) (fun x y hx _ hxy => ?_)
  subst hxy
  by_cases hs : x.q.s = .unk
  · rw [if_pos hs, if_pos hs]
    exact .some h
  · rw [if_neg hs, if_neg hs]
    refine rel_bind (h.route (fun _ => Alike.refl _) (insOf line x)) (fun r r₁ _ hr₁ hrr => ?_)
    obtain ⟨r, st₂⟩ := r
    obtain ⟨r₁, st₃⟩ := r₁
    obtain ⟨rfl, hst⟩ := hrr
    cases r with
    | skip => exact .some hst
    | use k =>
        refine rel_bind (rel_getElem? hst.book k) (fun a b _ hb hab => ?_)
        obtain ⟨a', cs, b', ds, ha', hb', h'⟩ := hab.advance (m := m) (hsafe x k st₃ b hx hs hr₁ hb)
        simp only [ha', hb', Option.bind_eq_bind, Option.bind_some]
        exact .some (hst.set k h')

theorem rel_mainLoop : ∀ {lines : List (List UInt8)} {st st₁ : State (OrdMap K Q)}, st.Rel Alike st₁ →
    SafeRun hash C st₁ lines →
    Option.Rel (fun x y => x.1.Rel Alike y.1) (mainLoop hash C m st lines) (mainLoop hash C .prq1 st₁ lines)
  | [], _, _, h, _ => .some h
  | line :: lines, st, st₁, h, hsafe => by
      rw [mainLoop, mainLoop]
      refine rel_bind (rel_mainStep h hsafe.1) (fun x y _ hy hxy => ?_)
      refine rel_bind (rel_mainLoop hxy (hsafe.2 _ _ hy)) (fun x' y' _ _ hxy' => ?_)
      exact .some hxy'

/-- 条件は、入力の初めの部分でも成り立つ。 -/
theorem SafeRun.take : ∀ {lines : List (List UInt8)} {st : State (OrdMap K Q)} (n : Nat), SafeRun hash C st lines →
    SafeRun hash C st (lines.take n)
  | _, _, 0, _ => trivial
  | [], _, _ + 1, _ => trivial
  | _ :: _, _, n + 1, h => ⟨h.1, fun st₁ out hm => (h.2 st₁ out hm).take n⟩

theorem sameBooks_of_rel {x y z : Option (State (OrdMap K Q) × List (Call (OrdMap K Q) K Q))}
    (h₁ : Option.Rel (fun x y => x.1.Rel Alike y.1) x z) (h₂ : Option.Rel (fun x y => x.1.Rel Alike y.1) y z) :
    SameBooks x y := by
  have hvis : ∀ {l l' : List (Book (OrdMap K Q))}, List.Forall₂ Alike l l' → l.map Book.visible = l'.map Book.visible := by
    intro l l' hl
    induction hl with
    | nil => rfl
    | cons hab _ ih => rw [List.map_cons, List.map_cons, hab.visible_eq, ih]
  cases h₁ with
  | none => cases h₂; trivial
  | some h₁ =>
      cases h₂ with
      | some h₂ => exact ⟨h₁.conx.trans h₂.conx.symm, (hvis h₁.book).trans (hvis h₂.book).symm⟩

theorem sameBooks_refl (x : Option (State (OrdMap K Q) × List (Call (OrdMap K Q) K Q))) : SameBooks x x := by
  cases x with
  | none => trivial
  | some x => exact ⟨rfl, rfl⟩

/-- 巻き戻しの有無が同じ出力は、同じ板を作る。 -/
theorem mainLoop_congr {m₁ m₂ : Prq} (h : m₁.unwinds = m₂.unwinds) (st : State (OrdMap K Q)) (lines : List (List UInt8)) :
    mainLoop hash C m₁ st lines = mainLoop hash C m₂ st lines := by
  have hadv : ∀ (b : Book (OrdMap K Q)) (q : BookQuo K Q), advance m₁ b q = advance m₂ b q := by
    intro b q
    simp only [advance, h]
  induction lines generalizing st with
  | nil => rfl
  | cons line lines ih =>
      rw [mainLoop, mainLoop]
      simp only [mainStep, hadv, ih]

/-- 板 `k` の側 `s` の気配値 `p` に見える値。 -/
def levelAt (x : Option (State (OrdMap K Q) × List (Call (OrdMap K Q) K Q))) (k : Nat) (s : Bool) (p : K) :
    Option (BtreeVal Q) :=
  x.bind fun y => (y.1.book[k]?).map fun b => b.visible s p

theorem SameBooks.levelAt_eq {x y : Option (State (OrdMap K Q) × List (Call (OrdMap K Q) K Q))} (h : SameBooks x y)
    (k : Nat) (s : Bool) (p : K) : levelAt x k s p = levelAt y k s p := by
  cases x with
  | none => cases y with
    | none => rfl
    | some y => exact h.elim
  | some x => cases y with
    | none => exact h.elim
    | some y =>
        have hk := congrArg (fun l => (l[k]?).map fun v => v s p) h.2
        simp only [List.getElem?_map, Option.map_map] at hk
        exact hk

end Books.Book2book
