import Books.Instr.Lemmas

/-!
# 銘柄ごとにまとまった入力

銘柄と値の組を、順に振り分けて板に加える。同じ銘柄の組がまとまっていて、銘柄のハッシュが互いに異なれば、空の表は、組のある銘柄を
並べた表になる。
-/

set_option linter.unusedSectionVars false

namespace Books.Instr

variable {α B : Type} (hash : List UInt8 → UInt32) (mk : Option (List UInt8) → B) (f : B → α → B)

/-- 銘柄 `n` の板に値 `x` を加える。 -/
def pourOne (tab : Table B) (n : List UInt8) (x : α) : Option (Table B) :=
  match route hash mk tab n with
  | none => none
  | some (.skip, tab) => some tab
  | some (.use k, tab) => tab.book[k]?.map fun b => { tab with book := tab.book.set k (f b x) }

/-- 銘柄と値の組を、順に加える。 -/
def pour (tab : Table B) (l : List (List UInt8 × α)) : Option (Table B) :=
  l.foldlM (fun tab x => pourOne hash mk f tab x.1 x.2) tab

/-- 銘柄ごとにまとめた値を、組の列に並べる。 -/
def tagged (bs : List (List UInt8 × List α)) : List (List UInt8 × α) := bs.flatMap fun b => b.2.map fun x => (b.1, x)

/-- 銘柄の指定のない表。 -/
def openTable (conx : List UInt32) (book : List B) : Table B := ⟨conx, book, false, true⟩

variable {hash mk f} {conx : List UInt32} {book : List B} {n : List UInt8} {b : B} {x : α} {l l' : List (List UInt8 × α)}
variable {tab tab' : Table B}

theorem pour_cons : pour hash mk f tab ((n, x) :: l) = (pourOne hash mk f tab n x).bind fun tab => pour hash mk f tab l :=
  List.foldlM_cons

theorem pour_append : pour hash mk f tab (l ++ l') = (pour hash mk f tab l).bind fun tab => pour hash mk f tab l' :=
  List.foldlM_append

theorem route_open_new (hn : hash n ∉ conx) : route hash mk (openTable conx book) n =
    some (.use conx.length, openTable (conx ++ [hash n]) (book ++ [mk (some n)])) := by
  have hlt : ¬ conx.idxOf (hash n) < conx.length := mt List.idxOf_lt_length_iff.mp hn
  rw [route, openTable]
  simp only [Bool.not_true, Bool.and_false, Bool.false_eq_true, if_false, if_neg hlt]
  rfl

theorem route_open_last (hn : hash n ∉ conx) : route hash mk (openTable (conx ++ [hash n]) book) n =
    some (.use conx.length, openTable (conx ++ [hash n]) book) := by
  have hidx : (conx ++ [hash n]).idxOf (hash n) = conx.length := by
    rw [List.idxOf_append_of_notMem hn, List.idxOf_cons_self, Nat.add_zero]
  have hlt : conx.length < (conx ++ [hash n]).length := by rw [List.length_append]; exact Nat.lt_succ_self _
  rw [route, openTable]
  simp only [Bool.not_true, Bool.and_false, Bool.false_eq_true, if_false, hidx, if_pos hlt]

theorem pourOne_new (hlen : book.length = conx.length) (hn : hash n ∉ conx) : pourOne hash mk f (openTable conx book) n x =
    some (openTable (conx ++ [hash n]) (book ++ [f (mk (some n)) x])) := by
  rw [pourOne, route_open_new hn]
  simp only [openTable, ← hlen, List.getElem?_concat_length, Option.map_some, List.set_append_right _ _ (Nat.le_refl _),
    Nat.sub_self, List.set_cons_zero]

theorem pourOne_last (hlen : book.length = conx.length) (hn : hash n ∉ conx) :
    pourOne hash mk f (openTable (conx ++ [hash n]) (book ++ [b])) n x =
      some (openTable (conx ++ [hash n]) (book ++ [f b x])) := by
  rw [pourOne, route_open_last hn]
  simp only [openTable, ← hlen, List.getElem?_concat_length, Option.map_some, List.set_append_right _ _ (Nat.le_refl _),
    Nat.sub_self, List.set_cons_zero]

/-- 一つの銘柄の値は、最後の板に順に加わる。 -/
theorem pour_last (hlen : book.length = conx.length) (hn : hash n ∉ conx) (xs : List α) (b : B) :
    pour hash mk f (openTable (conx ++ [hash n]) (book ++ [b])) (xs.map fun x => (n, x)) =
      some (openTable (conx ++ [hash n]) (book ++ [xs.foldl f b])) := by
  induction xs generalizing b with
  | nil => rfl
  | cons x xs ih => rw [List.map_cons, pour_cons, pourOne_last hlen hn, Option.bind_some, ih, List.foldl_cons]

/-- 値のある銘柄だけが、順に表に並ぶ。 -/
theorem pour_tagged (bs : List (List UInt8 × List α)) (hlen : book.length = conx.length)
    (hnd : (conx ++ bs.map fun b => hash b.1).Nodup) :
    pour hash mk f (openTable conx book) (tagged bs) =
      some (openTable (conx ++ (bs.filter fun b => !b.2.isEmpty).map fun b => hash b.1)
        (book ++ (bs.filter fun b => !b.2.isEmpty).map fun b => b.2.foldl f (mk (some b.1)))) := by
  induction bs generalizing conx book with
  | nil =>
      simp only [List.filter_nil, List.map_nil, List.append_nil]
      rfl
  | cons b bs ih =>
      obtain ⟨n, xs⟩ := b
      rw [List.map_cons] at hnd
      have hn : hash n ∉ conx := fun hm => (List.nodup_append.mp hnd).2.2 _ hm _ List.mem_cons_self rfl
      rw [tagged, List.flatMap_cons, pour_append]
      cases xs with
      | nil =>
          have hnd' : (conx ++ bs.map fun b => hash b.1).Nodup :=
            hnd.sublist (List.Sublist.append (List.Sublist.refl _) (List.sublist_cons_self _ _))
          rw [List.map_nil, List.filter_cons_of_neg (by simp)]
          exact ih hlen hnd'
      | cons x xs =>
          have hlen' : (book ++ [(x :: xs).foldl f (mk (some n))]).length = (conx ++ [hash n]).length := by
            rw [List.length_append, List.length_append, hlen]
            rfl
          have hnd' : ((conx ++ [hash n]) ++ bs.map fun b => hash b.1).Nodup := by
            rwa [List.append_assoc, List.singleton_append]
          simp only [List.map_cons]
          rw [pour_cons, pourOne_new hlen hn, Option.bind_some, pour_last hlen hn, Option.bind_some]
          refine (ih hlen' hnd').trans ?_
          rw [List.filter_cons_of_pos (by simp)]
          simp only [List.map_cons, List.append_assoc, List.singleton_append]

end Books.Instr
