import Books.Booksnap.Lemmas.Main
import Books.Booksnap.Pipe.Spec
import Books.Xquo.Bounds.Lemmas

/-!
# 板の見出し

銘柄の指定がなければ、板の見出しは、行から読んだ銘柄である。行から読んだ銘柄には、タブも改行もない。どの実行でも、見出しのハッシュは
互いに異なる。
-/

set_option linter.unusedSectionVars false

namespace Books.Booksnap

open Books.Btree Books.Book Books.Instr Books.Xquo Books.Lib

variable {K Q : Type} [LinearOrder K] [Zero K] [LinearOrder Q] [AddCommGroup Q]
variable {hash : List UInt8 → UInt32} {cfg : Conf} {C : Codec K Q} {st st' : State K Q} {line : List UInt8} {x : Xquo K Q}
variable {rs rs' : List (Round K Q)} {bs : List (Named K Q)} {instr : List (List UInt8)} {r : Round K Q}

/-! ## 行の銘柄 -/

theorem memrchr_none {c : UInt8} : ∀ {n : Nat}, memrchr line c n = none → n ≤ line.length → c ∉ line.take n
  | 0, _, _ => by rw [List.take_zero]; exact List.not_mem_nil
  | n + 1, h, hn => by
      rw [memrchr] at h
      split at h
      · cases h
      · rename_i hc
        have hlt : n < line.length := hn
        rw [List.take_succ_eq_append_getElem hlt, List.mem_append, List.mem_singleton]
        rintro (hm | he)
        · exact memrchr_none h (Nat.le_of_lt hlt) hm
        · exact hc (by rw [charAt, List.getD_eq_getElem _ _ hlt, he])

theorem rewind_le : ∀ lp : Nat, rewind line lp ≤ lp
  | 0 => Nat.le_refl _
  | lp + 1 => by
      rw [rewind]
      split
      · exact Nat.le_refl _
      · exact Nat.le_succ_of_le (rewind_le lp)

/-- 銘柄の列は、`lp` より前の、タブのない部分である。 -/
theorem instrOf_tab {lp : Nat} (h : lp ≤ line.length) : tab ∉ (line.drop (instrOf line lp).1).take (instrOf line lp).2 ∧
    (instrOf line lp).1 + (instrOf line lp).2 ≤ lp := by
  cases lp with
  | zero => exact ⟨by simp [instrOf], Nat.le_refl _⟩
  | succ lp =>
      have hle : lp ≤ line.length := Nat.le_of_succ_le h
      rw [instrOf]
      cases hm : memrchr line tab lp with
      | none => exact ⟨memrchr_none hm hle, by simp only; omega⟩
      | some j =>
          have hj := (memrchr_some hm).1
          have hsplit := (memrchr_split hle hm).2
          rw [List.drop_take] at hsplit
          exact ⟨hsplit, by simp only; omega⟩

theorem insOf_tab (hx : readXquo C line = some x) : tab ∉ insOf line x ∧ x.ins + x.inz ≤ line.length - 1 := by
  have hbare : tab ∉ insOf line (notAXquo : Xquo K Q) ∧ 0 + 0 ≤ line.length - 1 := ⟨by simp [insOf, notAXquo], Nat.zero_le _⟩
  unfold readXquo at hx
  simp only at hx
  split at hx
  · cases hx; exact hbare
  · rename_i l₁ h₁
    have hl₁ := (memrchr_some h₁).1
    split at hx
    · cases hx; exact hbare
    · cases hx
    · rename_i l₂ h₂
      have hl₂ := (memrchr_some h₂).1
      have hrew : rewind line l₂ ≤ l₂ := rewind_le l₂
      split at hx
      · cases hx; exact hbare
      · cases hx
        obtain ⟨htab, hend⟩ := instrOf_tab (show rewind line l₂ ≤ line.length by omega)
        exact ⟨htab, by simp only; omega⟩

/-- 行から読んだ銘柄には、タブも改行もない。 -/
theorem plain_insOf {stdin : List UInt8} (hline : line ∈ getlines newline stdin) (h0 : (0 : UInt8) ∉ stdin)
    (hx : readXquo C line = some x) : Plain (insOf line x) := by
  obtain ⟨htab, hend⟩ := insOf_tab hx
  refine ⟨htab, fun hn => ?_, fun hz => ?_⟩
  · obtain ⟨u, hu, rfl | rfl⟩ := mem_getlines hline
    · exact hu (List.mem_of_mem_drop (List.mem_of_mem_take hn))
    · -- 改行は行の最後にあり、銘柄はその手前で終わる。
      rw [List.length_append, List.length_singleton, Nat.add_sub_cancel] at hend
      rw [insOf, List.drop_append_of_le_length (by omega), List.take_append_of_le_length (by rw [List.length_drop]; omega)] at hn
      exact hu (List.mem_of_mem_drop (List.mem_of_mem_take hn))
  · exact h0 (mem_of_mem_getlines hline (List.mem_of_mem_drop (List.mem_of_mem_take hz)))

/-! ## 見出し -/

/-- 板の見出しの列。 -/
def labels (bs : List (Named K Q)) : List (Option (List UInt8)) := bs.map Named.cont

theorem labels_expAll (m : Tv) (bs : List (Named K Q)) : labels (expAll cfg m bs) = labels bs := by
  rw [labels, expAll, List.map_map]
  rfl

theorem labels_rounds : ∀ (ms : List Tv) (bs : List (Named K Q)), labels (rounds cfg ms bs).1 = labels bs ∧
    ∀ r ∈ (rounds cfg ms bs).2, labels r.books = labels bs
  | [], _ => ⟨rfl, fun _ hr => absurd hr List.not_mem_nil⟩
  | m :: ms, bs => by
      obtain ⟨h₁, h₂⟩ := labels_rounds ms (expAll cfg m bs)
      rw [labels_expAll] at h₁ h₂
      refine ⟨h₁, fun r hr => ?_⟩
      rcases List.mem_cons.mp hr with rfl | hr
      · exact labels_expAll m bs
      · exact h₂ r hr

theorem labels_set {k : Nat} {b : Named K Q} (hb : bs[k]? = some b) (q : BookQuo K Q) :
    labels (bs.set k (badd cfg b q)) = labels bs := by
  obtain ⟨hk, rfl⟩ := List.getElem?_eq_some_iff.mp hb
  have hk' : k < (bs.map Named.cont).length := by rwa [List.length_map]
  have hcont : (badd cfg bs[k] q).cont = (bs.map Named.cont)[k] := by
    rw [List.getElem_map]
    rfl
  rw [labels, List.map_set, hcont, List.set_getElem_self]
  rfl

/-- 板の見出しは読み分けられる。銘柄の指定のない表では、`conx` は見出しのハッシュである。 -/
structure Labelled (hash : List UInt8 → UInt32) (tab : Table (Named K Q)) : Prop where
  distinct : Distinct hash (labels tab.book)
  conx : tab.zbook = true → tab.conx = (labels tab.book).map fun c => hash (c.getD [])

theorem labelled_initTable (h : Distinct hash (initTable hash id instr).book) :
    Labelled hash (initTable hash makeNamed instr : Table (Named K Q)) := by
  have hrel : (initTable hash makeNamed instr : Table (Named K Q)).Rel (fun b c => b.cont = c) (initTable hash id instr) :=
    rel_initTable (R := fun (b : Named K Q) c => b.cont = c) (fun _ => rfl) instr
  have hlabels : labels (initTable hash makeNamed instr : Table (Named K Q)).book = (initTable hash id instr).book := by
    have hbook := hrel.book
    rw [← List.forall₂_map_left_iff, List.forall₂_eq_eq_eq] at hbook
    exact hbook
  refine ⟨by rw [hlabels]; exact h, fun hz => ?_⟩
  unfold initTable at hz ⊢
  simp only at hz ⊢
  split at hz
  · rename_i hi
    rw [if_pos hi]
    rfl
  · split at hz <;> cases hz

theorem Labelled.route {tab tab' : Table (Named K Q)} {u : Route} {ins : List UInt8} (h : Labelled hash tab)
    (hins : Plain ins) (hr : Instr.route hash makeNamed tab ins = some (u, tab')) : Labelled hash tab' := by
  rcases route_cases hr with ⟨_, rfl, _⟩ | ⟨_, rfl, _⟩ | ⟨_, rfl, _⟩ | ⟨_, rfl, hnot, _, hz⟩
  · exact h
  · exact h
  · exact h
  · have hlabels : labels (tab.add hash makeNamed ins).book = labels tab.book ++ [some ins] := by
      rw [Table.add, labels, List.map_append]
      rfl
    have hconx := h.conx hz
    refine ⟨?_, fun _ => ?_⟩
    · obtain ⟨ns, hns, hnd, hplain⟩ := h.distinct
      rw [hns, List.map_map] at hconx
      refine ⟨ns ++ [ins], by rw [hlabels, hns, List.map_append]; rfl, ?_, fun n hn => ?_⟩
      · rw [List.map_append, List.map_singleton]
        refine List.nodup_append.mpr ⟨hnd, List.nodup_singleton _, fun a ha b hb hab => ?_⟩
        rw [hab, List.mem_singleton.mp hb] at ha
        exact hnot (hconx ▸ ha)
      · rcases List.mem_append.mp hn with hn | hn
        · exact hplain n hn
        · rw [List.mem_singleton.mp hn]
          exact hins
    · rw [hlabels, List.map_append, ← hconx]
      rfl

theorem Labelled.relabel {tab : Table (Named K Q)} (h : Labelled hash tab) (hbs : labels bs = labels tab.book) :
    Labelled hash { tab with book := bs } := by
  refine ⟨?_, fun hz => ?_⟩
  · rw [hbs]
    exact h.distinct
  · rw [hbs]
    exact h.conx hz

theorem Labelled.step (h : Labelled hash st.tab) (hins : ∀ x, readXquo C line = some x → Plain (insOf line x))
    (hs : mainStep hash cfg C st line = some (st', rs)) :
    Labelled hash st'.tab ∧ ∀ r ∈ rs, Distinct hash (labels r.books) := by
  obtain ⟨x, hx, ⟨_, rfl, rfl⟩ | ⟨_, c, _, ⟨tab, hr, rfl, rfl⟩ | ⟨k, ⟨tab, ms, c', b, hr, _, hb, rfl, rfl⟩⟩⟩⟩ :=
    mainStep_cases hs
  · exact ⟨h, fun r hr => absurd hr List.not_mem_nil⟩
  · exact ⟨h.route (hins x hx) hr, fun r hr => absurd hr List.not_mem_nil⟩
  · have htab := h.route (hins x hx) hr
    refine ⟨htab.relabel ((labels_set hb x.q).trans (labels_rounds ms tab.book).1), fun r hr => ?_⟩
    rw [(labels_rounds ms tab.book).2 r hr]
    exact htab.distinct

/-- どの写真でも、板の見出しは読み分けられる。 -/
theorem distinct_main {sfil stdin : List UInt8} (hinstr : Distinct hash (initTable hash id instr).book)
    (h0 : (0 : UInt8) ∉ stdin) (h : main hash cfg C (getlines newline sfil) instr (getlines newline stdin) = some rs) :
    ∀ r ∈ rs, Distinct hash (labels r.books) := by
  obtain ⟨st, rs', hloop, rfl⟩ := main_eq_some_iff.mp h
  have hrule := mainLoop_rule (P := fun _ st rs => Labelled hash st.tab ∧ ∀ r ∈ rs, Distinct hash (labels r.books))
    ⟨labelled_initTable hinstr, fun r hr => absurd hr List.not_mem_nil⟩ ?_ hloop
  · intro r hr
    rcases List.mem_append.mp hr with hr | hr
    · exact hrule.2 r hr
    · unfold finalRound at hr
      split at hr
      · rw [List.mem_singleton.mp hr, labels_expAll]
        exact hrule.1.distinct
      · exact absurd hr List.not_mem_nil
  · rintro done line st₁ rs₁ st₂ rs₂ hpre ⟨hst, hrs⟩ hstep
    obtain ⟨hst', hrs'⟩ := hst.step (fun x hx => plain_insOf (mem_of_step hpre) h0 hx) hstep
    refine ⟨hst', fun r hr => ?_⟩
    rcases List.mem_append.mp hr with hr | hr
    · exact hrs r hr
    · exact hrs' r hr

end Books.Booksnap
