import Books.Book.Refine.Theorems
import Books.Book2book.Lemmas.Main
import Books.Book2book.Lemmas.Unwind
import Books.Book2book.Refine.Spec
import Books.Btree.Lemmas.PutAgain

/-!
# 木の上の巻き戻し

木の上の巻き戻しは、反復子の返す場所に 0 を書き込むだけであり、理想の順序つき写像の上の巻き戻しと同じに進む。
-/

set_option linter.unusedSectionVars false

namespace Books.Book2book

open Books.Btree Books.Book Books.Instr Books.Xquo Books.Lib

variable {K Q : Type} [LinearOrder K] [Zero K] [LinearOrder Q] [AddCommGroup Q]
variable {descp s : Bool} {h₀ : Heap K Q} {d : Nat} {k : K} {c : Cell}
variable {b : Book (Tree K Q)} {m : Book (OrdMap K Q)} {q : BookQuo K Q} {W : List Addr}

/-! ## 呼び出しの対応 -/

/-- `prq` に渡すものの対応。 -/
structure SameArg (c : Arg (Tree K Q) K Q) (c' : Arg (OrdMap K Q) K Q) : Prop where
  xb : BookRepresents c.xb c'.xb
  q : c.q = c'.q
  o : SameReply c.o c'.o

/-- 板と呼び出しの対応。 -/
def SameArgs (r : Book (Tree K Q) × List (Arg (Tree K Q) K Q)) (r' : Book (OrdMap K Q) × List (Arg (OrdMap K Q) K Q)) : Prop :=
  BookRepresents r.1 r'.1 ∧ List.Forall₂ SameArg r.2 r'.2

/-- 側へのレベル 2 の気配の追加は、値の書き込みである。 -/
theorem bookAdd_zeroQuo {T : Bool → Type} [BTree T K Q] (b : Book T) (s : Bool) (k : K) :
    bookAdd b (zeroQuo s k) = (b.set s (putVal (b.get s) (some k) fun _ => ⟨0, 0⟩).1,
      ⟨sideOf s, .lvl2, some k, (putVal (b.get s) (some k) fun _ => ⟨0, 0⟩).2.q,
        (putVal (b.get s) (some k) fun _ => ⟨0, 0⟩).2.t⟩) := by
  cases s <;> rfl

/-- 反復子の返した場所のキーを 0 にすると、その場所だけが変わり、板の対応は保たれる。 -/
theorem bookAdd_zeroQuo_same (R : BookRepresents b m) (I : Inv (b.get s) descp d)
    (hg : btreeGet (b.get s) root (some k) = some c) (hu : (Heap.get (b.get s) c.t).used.getLsbD c.i = true)
    (hsp : (Heap.get (b.get s) root).splitp = false) (hv : (Heap.load (b.get s) c).nilP = false) :
    (bookAdd b (zeroQuo s k)).1 = b.set s (Heap.store (b.get s) c ⟨0, 0⟩) ∧
    SameArg ⟨(bookAdd b (zeroQuo s k)).1, zeroQuo s k, (bookAdd b (zeroQuo s k)).2⟩
      ⟨(bookAdd m (zeroQuo s k)).1, zeroQuo s k, (bookAdd m (zeroQuo s k)).2⟩ := by
  have hc := (I.sub.btreeGet_iff (Nat.le_refl _) I.depth).mp hg
  have hput : putVal (b.get s) (some k) (fun _ => (⟨0, 0⟩ : BtreeVal Q)) =
      (Heap.store (b.get s) c ⟨0, 0⟩, Heap.load (b.get s) c) := by
    simp only [putVal, BTree.put, BTree.load, BTree.store, I.btreePut_again hc hu hsp]
  have hval := (R s).val_eq_load hg hv
  rw [bookAdd_zeroQuo b, bookAdd_zeroQuo m, hput]
  refine ⟨rfl, R.set ((R s).store hg le_rfl), rfl, Or.inl ?_⟩
  simp only [putVal_old, hval]

/-! ## 巻き戻しの全体 -/

variable {go : Option K → Bool}

theorem unwind_stands (C : LeafChain h₀ root W) (I₀ : Inv h₀ descp d) (hsp : (h₀.get root).splitp = false) :
    ∀ (rest : List Cell) (ks : List K) (fuel fuel' : Nat) (b : Book (Tree K Q)) (m : Book (OrdMap K Q)) (it : BtreeIter K)
      (last : Option K) (ys : List Cell) (x : Addr) (p : Nat) (W' : List Addr),
    Touched h₀ (b.get s) W ys → Stands (b.get s) W it ys rest x p W' → (∀ c ∈ rest, c ∉ ys) → rest.Nodup →
    rest.length < fuel → rest.length < fuel' →
    List.Forall₂ (fun c k => btreeGet h₀ root (some k) = some c ∧ (h₀.load c).nilP = false) rest ks →
    BookRepresents b m → (m.get s).rest last = ks →
    SameArgs (unwind s go fuel b it) (unwind s go fuel' m last)
  | _, _, 0, _, _, _, _, _, _, _, _, _, _, _, _, _, hf, _, _, _, _ => absurd hf (Nat.not_lt_zero _)
  | _, _, _, 0, _, _, _, _, _, _, _, _, _, _, _, _, _, hf, _, _, _ => absurd hf (Nat.not_lt_zero _)
  | [], ks, fuel + 1, fuel' + 1, b, m, it, last, ys, x, p, W', T, S, _, _, _, _, hcs, R, hr => by
      obtain ⟨hfalse, _, _⟩ := S.next_nil T C
      cases hcs
      have hn : (m.get s).nextKey last = none := by rw [OrdMap.nextKey_eq, hr]; rfl
      have R₁ := R.set (s := s) ((R s).usedOnly (btreeIterNext_usedOnly (b.get s) it))
      simp only [unwind, BTree.iterNext, hfalse, hn, Option.isSome_none, Bool.false_and, Bool.false_eq_true, if_false]
      exact ⟨R₁, .nil⟩
  | c :: rest, ks, fuel + 1, fuel' + 1, b, m, it, last, ys, x, p, W', T, S, hys, hnd, hf, hf', hcs, R, hr => by
      obtain ⟨htrue, hit, T', W'', S'⟩ := S.next_cons T C
      obtain ⟨hc, hnd'⟩ := List.nodup_cons.mp hnd
      obtain ⟨k, ks', ⟨hg, hlive⟩, hcs', rfl⟩ := List.forall₂_cons_left_iff.mp hcs
      have hcell := (I₀.sub.btreeGet_iff (Nat.le_refl _) I₀.depth).mp hg
      have hkey : (btreeIterNext (b.get s) it).2.1.k = some k := by
        rw [hit]
        exact (key_same T.same c).trans hcell.key
      have hn : (m.get s).nextKey last = some k := by rw [OrdMap.nextKey_eq, hr]; rfl
      have R₁ : BookRepresents (b.set s (btreeIterNext (b.get s) it).1) m := by
        have hset := R.set (s := s) ((R s).usedOnly (btreeIterNext_usedOnly (b.get s) it))
        rwa [Book.set_get] at hset
      simp only [unwind, BTree.iterNext, BTree.iterKey, htrue, hkey, hn, Option.some_or, Option.isSome_some, Bool.true_and,
        Book.set_get]
      cases hgo : go (some k) with
      | false => exact ⟨R₁, .nil⟩
      | true =>
          simp only [if_true]
          have hget : (b.set s (btreeIterNext (b.get s) it).1).get s = (btreeIterNext (b.get s) it).1 := Book.get_set_eq _ _ _
          have hmem : c ∈ ys ++ [c] := List.mem_append_right _ List.mem_cons_self
          have I₁ := I₀.same T'.same
          have hg₁ : btreeGet (btreeIterNext (b.get s) it).1 root (some k) = some c := by
            rw [btreeGet_same I₀ T'.same]
            exact hg
          have hload : (btreeIterNext (b.get s) it).1.load c = h₀.load c := by
            rw [(btreeIterNext_usedOnly (b.get s) it).load_eq]
            exact T.load c (hys c List.mem_cons_self)
          obtain ⟨hb', A⟩ := bookAdd_zeroQuo_same R₁ (s := s) (k := k) (c := c) (by rw [hget]; exact I₁) (by rw [hget]; exact hg₁)
            (by rw [hget]; exact (T'.bits c hmem).2) (by rw [hget, T'.same.splitp]; exact hsp)
            (by rw [hget, hload]; exact hlive)
          rw [hget] at hb'
          have hb'get : (bookAdd (b.set s (btreeIterNext (b.get s) it).1) (zeroQuo s k)).1.get s =
              Heap.store (btreeIterNext (b.get s) it).1 c ⟨0, 0⟩ := by
            rw [hb', Book.get_set_eq]
          have hrest : ((bookAdd m (zeroQuo s k)).1.get s).rest (some k) = ks' := by
            have hpm : k ∈ (m.get s).keys :=
              (List.mem_filter.mp (by rw [← OrdMap.rest, hr]; exact List.mem_cons_self)).1
            refine OrdMap.rest_cons hr (bookAdd_zeroQuo_keys hpm) (fun k' hk' => ?_)
            exact (bookAdd_zeroQuo_stored s k').trans (if_neg (fun he => hk' he.2))
          have ih := unwind_stands C I₀ hsp rest ks' fuel fuel' (bookAdd (b.set s (btreeIterNext (b.get s) it).1) (zeroQuo s k)).1
            (bookAdd m (zeroQuo s k)).1 (btreeIterNext (b.get s) it).2.1 (some k) (ys ++ [c]) c.t (c.i + 1) W''
            (by rw [hb'get]; exact T'.store C hmem) (by rw [hb'get]; exact S'.store T' C hmem)
            (unreached_snoc hys hc) hnd' (Nat.lt_of_succ_lt_succ hf) (Nat.lt_of_succ_lt_succ hf') hcs' A.xb hrest
          exact ⟨ih.1, .cons A ih.2⟩

/-- 巻き戻しは、もう一方の側を変えない。 -/
theorem unwind_get_ne {T : Bool → Type} [BTree T K Q] {s' : Bool} (hs : s' ≠ s) : ∀ (fuel : Nat) (b : Book T)
    (i : BTree.Iter T), (unwind s go fuel b i).1.get s' = b.get s'
  | 0, _, _ => rfl
  | fuel + 1, b, i => by
      have hadd : ∀ (b : Book T) (p : Option K), (bookAdd b ⟨sideOf s, .lvl2, p, 0, 0⟩).1.get s' = b.get s' := by
        intro b p
        cases s with
        | false => exact Book.get_set_ne b (s := false) _ hs
        | true => exact Book.get_set_ne b (s := true) _ hs
      simp only [unwind]
      split
      · exact (unwind_get_ne hs fuel _ _).trans ((hadd _ _).trans (Book.get_set_ne b _ hs))
      · exact Book.get_set_ne b _ hs

/-- 欠陥に触れない巻き戻しは、理想の写像の上の巻き戻しと同じに進む。 -/
theorem unwindAll_same (R : BookRepresents b m) (hs : safeUnwind (b.get s) = true) (go : Option K → Bool) :
    SameArgs (unwindAll s go b) (unwindAll s go m) := by
  obtain ⟨hM, hsp⟩ := Bool.and_eq_true_iff.mp hs
  rw [Bool.not_eq_true'] at hsp
  obtain ⟨d, I, L⟩ := (R s).sound
  obtain ⟨W, C, hm, hW, hlen⟩ := leafChain I L (of_decide_eq_true hM)
  obtain ⟨x, p, W', S⟩ := C.stands hm
  have hnd := liveOn_nodup (h := b.get s) C.nodup
  have hlive := liveCells_length C hW hlen
  rw [hW] at S hnd
  have T : Touched (b.get s) (b.get s) W [] := ⟨.refl _, fun _ _ => rfl, hm, fun c hc => absurd hc List.not_mem_nil⟩
  have hkeys := (R s).liveCells_keys I
  have hlen' : (liveCells (b.get s)).length = ((m.get s).rest none).length := by
    have hl := congrArg List.length hkeys
    rwa [List.length_map, List.length_map] at hl
  have hcells : List.Forall₂ (fun c k => btreeGet (b.get s) root (some k) = some c ∧ (Heap.load (b.get s) c).nilP = false)
      (liveCells (b.get s)) ((m.get s).rest none) := by
    rw [← List.forall₂_eq_eq_eq, List.forall₂_map_left_iff, List.forall₂_map_right_iff] at hkeys
    refine (List.forall₂_and_left (p := fun c => c ∈ liveCells (b.get s)) _ _ |>.mpr ⟨fun _ hc => hc, hkeys⟩).imp
      (fun c k hck => ?_)
    obtain ⟨k', hk', hkey, _, hv⟩ := mem_liveCells_key I hck.1
    rw [hck.2] at hkey
    cases hkey
    exact ⟨(I.sub.btreeGet_iff (Nat.le_refl _) I.depth).mpr hk', hv⟩
  exact unwind_stands C I hsp (liveCells (b.get s)) _ (64 * Heap.size (b.get s) + 1) _ b m (.fresh root) none [] x p W' T S
    (fun _ _ => List.not_mem_nil) hnd (by omega) (by rw [hlen']; exact Nat.lt_succ_of_le ((m.get s).rest_length none))
    hcells R rfl

/-! ## 一つの気配と一つの行 -/

/-- 欠陥に触れない気配の処理は、対応する板と呼び出しになる。 -/
theorem advance_same [IsOrderedAddMonoid Q] {mode : Prq} (R : BookRepresents b m) (hs : safeAdvance mode b q = true) :
    Option.Rel SameArgs (advance mode b q) (advance mode m q) := by
  unfold safeAdvance at hs
  unfold advance
  by_cases h₁ : q.f = .lvl1 ∧ mode.unwinds = true
  · rw [if_pos h₁] at hs ⊢
    rw [if_pos h₁]
    cases hq : q.s.quos? with
    | none => exact .none
    | some s =>
        rw [hq] at hs
        obtain ⟨hu, ha⟩ := Bool.and_eq_true_iff.mp hs
        obtain ⟨Ru, hcs⟩ := unwindAll_same R hu (fun p => if s then pxLt q.p p else pxLt p q.p)
        obtain ⟨Ra, hreply⟩ := Ru.bookAdd ha
        exact .some ⟨Ra, List.rel_append hcs (.cons ⟨Ra, rfl, hreply⟩ .nil)⟩
  · rw [if_neg h₁] at hs ⊢
    rw [if_neg h₁]
    by_cases h₂ : q.s = .clr ∧ mode.unwinds = true
    · rw [if_pos h₂] at hs ⊢
      rw [if_pos h₂]
      obtain ⟨hbid, hask⟩ := Bool.and_eq_true_iff.mp hs
      have hfirst := unwindAll_same (s := true) R hbid (fun _ => true)
      have hkept : (unwindAll true (fun _ => true) b).1.get false = b.get false :=
        unwind_get_ne (s := true) Bool.false_ne_true _ b _
      have hsecond := unwindAll_same (s := false) hfirst.1 (by rw [hkept]; exact hask) (fun _ => true)
      exact .some ⟨hsecond.1, List.rel_append hfirst.2 hsecond.2⟩
    · rw [if_neg h₂] at hs ⊢
      rw [if_neg h₂]
      obtain ⟨Ra, hreply⟩ := R.bookAdd hs
      exact .some ⟨Ra, .cons ⟨Ra, rfl, hreply⟩ .nil⟩

section Lines
variable {hash : List UInt8 → UInt32} {C : Codec K Q} {mode : Prq} {st : State (Tree K Q)} {st' : State (OrdMap K Q)}

/-- `prq` の呼び出しの対応。 -/
structure SameCall (c : Call (Tree K Q) K Q) (c' : Call (OrdMap K Q) K Q) : Prop extends SameArg c.toArg c'.toArg where
  k : c.k = c'.k
  pre : c.pre = c'.pre

/-- 表と呼び出しの対応。 -/
def SameRun (r : State (Tree K Q) × List (Call (Tree K Q) K Q)) (r' : State (OrdMap K Q) × List (Call (OrdMap K Q) K Q)) :
    Prop := r.1.Rel BookRepresents r'.1 ∧ List.Forall₂ SameCall r.2 r'.2

theorem mainStep_same [IsOrderedAddMonoid Q] {line : List UInt8} (h : st.Rel BookRepresents st')
    (hs : safeLine hash C mode st line = true) :
    Option.Rel SameRun (mainStep hash C mode st line) (mainStep hash C mode st' line) := by
  unfold safeLine at hs
  unfold mainStep
  refine rel_bind (rel_refl _) (fun x y hx _ hxy => ?_)
  subst hxy
  rw [hx] at hs
  by_cases hunk : x.q.s = .unk
  · rw [if_pos hunk, if_pos hunk]
    exact .some ⟨h, .nil⟩
  · rw [if_neg hunk, if_neg hunk]
    refine rel_bind (h.route (fun _ => bookRepresents_makeBook) (insOf line x)) (fun r r' hr _ hrr => ?_)
    obtain ⟨r, st₁⟩ := r
    obtain ⟨r', st₁'⟩ := r'
    obtain ⟨rfl, hst⟩ := hrr
    simp only [hunk, decide_false, Bool.false_or, hr] at hs
    cases r with
    | skip => exact .some ⟨hst, .nil⟩
    | use k =>
        refine rel_bind (rel_getElem? hst.book k) (fun a a' ha _ haa => ?_)
        have hsafe : (st₁.book[k]?.all fun b => safeAdvance mode b x.q) = true := hs
        rw [ha] at hsafe
        refine rel_bind (advance_same haa hsafe) (fun u u' _ _ huu => ?_)
        refine .some ⟨hst.set k huu.1, ?_⟩
        rw [List.forall₂_map_left_iff, List.forall₂_map_right_iff]
        exact huu.2.imp (fun _ _ hc => ⟨hc, rfl, rfl⟩)

theorem mainLoop_same [IsOrderedAddMonoid Q] : ∀ (lines : List (List UInt8)) (st : State (Tree K Q))
    (st' : State (OrdMap K Q)), st.Rel BookRepresents st' → safeLines hash C mode st lines = true →
    Option.Rel SameRun (mainLoop hash C mode st lines) (mainLoop hash C mode st' lines)
  | [], _, _, h, _ => .some ⟨h, .nil⟩
  | line :: lines, st, st', h, hs => by
      obtain ⟨hline, hlines⟩ := Bool.and_eq_true_iff.mp hs
      unfold mainLoop
      refine rel_bind (mainStep_same h hline) (fun x y hx _ hxy => ?_)
      rw [hx] at hlines
      refine rel_bind (mainLoop_same lines x.1 y.1 hxy.1 hlines) (fun x' y' _ _ hxy' => ?_)
      exact .some ⟨hxy'.1, List.rel_append hxy.2 hxy'.2⟩

end Lines

end Books.Book2book
