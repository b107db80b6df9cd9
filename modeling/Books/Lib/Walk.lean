import Mathlib.Data.List.Nodup
import Mathlib.Data.List.Flatten
import Mathlib.Tactic.Common

/-!
# つながった並び

`next` をたどる並び `Path` と、その並びの中に決まったブロックが順に現れるという関係 `Woven` を定める。並びの
付け替え（要素を一つ外す、要素の直後に一つ入れる）で `Path` がどう変わるかを示す。
-/

namespace Books.Lib

variable {α : Type} {next next' : α → Option α} {s e m : Option α} {x c : α} {W W' A C : List α}

/-! ## たどる並び -/

/-- `s` から `next` をたどると、`W` の要素を順に通って `e` に着く。 -/
def Path (next : α → Option α) : Option α → List α → Option α → Prop
  | s, [], e => s = e
  | s, x :: W, e => s = some x ∧ Path next (next x) W e

/-- `s` から `next` をたどって通る要素。`fuel` 個までに終わらなければ `none`。 -/
def walk (next : α → Option α) : Nat → Option α → Option (List α)
  | _, none => some []
  | 0, some _ => none
  | fuel + 1, some x => (walk next fuel (next x)).map (x :: ·)

namespace Path

theorem append : ∀ {A : List α} {s : Option α}, Path next s (A ++ C) e ↔ ∃ m, Path next s A m ∧ Path next m C e
  | [], s => ⟨fun h => ⟨s, rfl, h⟩, fun ⟨_, h₁, h₂⟩ => by cases h₁; exact h₂⟩
  | x :: A, s => by
      constructor
      · rintro ⟨hs, hp⟩
        obtain ⟨m, h₁, h₂⟩ := append.mp hp
        exact ⟨m, ⟨hs, h₁⟩, h₂⟩
      · rintro ⟨m, ⟨hs, h₁⟩, h₂⟩
        exact ⟨hs, append.mpr ⟨m, h₁, h₂⟩⟩

theorem congr : ∀ {W : List α} {s : Option α}, Path next s W e → (∀ y ∈ W, next' y = next y) → Path next' s W e
  | [], _, h, _ => h
  | x :: W, _, ⟨hs, hp⟩, hn => by
      refine ⟨hs, ?_⟩
      rw [hn x List.mem_cons_self]
      exact congr hp (fun y hy => hn y (List.mem_cons_of_mem x hy))

theorem unique : ∀ {W W' : List α} {s : Option α}, Path next s W none → Path next s W' none → W = W'
  | [], [], _, _, _ => rfl
  | [], _ :: _, _, h, h' => by cases h; cases h'.1
  | _ :: _, [], _, h, h' => by cases h'; cases h.1
  | x :: W, y :: W', _, ⟨hs, hp⟩, ⟨hs', hp'⟩ => by
      rw [hs] at hs'
      cases hs'
      rw [unique hp hp']

theorem nodup : ∀ {W : List α} {s : Option α}, Path next s W none → W.Nodup
  | [], _, _ => List.nodup_nil
  | x :: W, _, ⟨_, hp⟩ => by
      refine List.nodup_cons.mpr ⟨fun hx => ?_, nodup hp⟩
      -- `x` が後ろにもう一度現れるなら、`x` からの並びが自分自身を真に含む。
      obtain ⟨A, C, rfl⟩ := List.append_of_mem hx
      obtain ⟨m, _, hm⟩ := append.mp hp
      obtain ⟨_, hC⟩ := hm
      have he := congrArg List.length (unique hp hC)
      simp only [List.length_append, List.length_cons] at he
      omega

theorem walk_eq : ∀ {W : List α} {s : Option α} {fuel : Nat}, Path next s W none → W.length ≤ fuel →
    walk next fuel s = some W
  | [], _, fuel, h, _ => by cases h; cases fuel <;> rfl
  | x :: W, _, 0, _, hf => by simp at hf
  | x :: W, _, fuel + 1, ⟨hs, hp⟩, hf => by
      subst hs
      simp only [walk, walk_eq hp (by simpa using hf), Option.map_some]

theorem of_walk : ∀ {fuel : Nat} {s : Option α} {W : List α}, walk next fuel s = some W → Path next s W none
  | _, none, W, h => by
      rw [walk] at h; cases h; rfl
  | 0, some _, W, h => by cases h
  | fuel + 1, some x, W, h => by
      rw [walk, Option.map_eq_some_iff] at h
      obtain ⟨W', hW, rfl⟩ := h
      exact ⟨rfl, of_walk hW⟩

/-! ## 付け替え -/

theorem remove (hp : Path next s (A ++ c :: x :: C) e) (hc : next' c = next x)
    (hrest : ∀ y ∈ A ++ C, next' y = next y) : Path next' s (A ++ c :: C) e := by
  obtain ⟨m, h₁, h₂, _, h₃⟩ := append.mp hp
  refine append.mpr ⟨m, congr h₁ (fun y hy => hrest y (by simp [hy])), h₂, ?_⟩
  rw [hc]
  exact congr h₃ (fun y hy => hrest y (by simp [hy]))

theorem insert (hp : Path next s (A ++ c :: C) e) (hc : next' c = some x) (hx : next' x = next c)
    (hrest : ∀ y ∈ A ++ C, next' y = next y) : Path next' s (A ++ c :: x :: C) e := by
  obtain ⟨m, h₁, h₂, h₃⟩ := append.mp hp
  refine append.mpr ⟨m, congr h₁ (fun y hy => hrest y (by simp [hy])), h₂, hc, ?_⟩
  rw [hx]
  exact congr h₃ (fun y hy => hrest y (by simp [hy]))

end Path

/-! ## 添字の区間 -/

/-- `f lo, f (lo + 1), …` の `len` 個の並び。 -/
def span (f : Nat → α) (lo len : Nat) : List α := (List.range' lo len).map f

section Span
variable {f f' : Nat → α} {lo lo' len m : Nat}

theorem length_span : (span f lo len).length = len := by
  simp [span]

theorem span_add (f : Nat → α) (lo m len : Nat) : span f lo (m + len) = span f lo m ++ span f (lo + m) len := by
  simp only [span, ← List.map_append, List.range'_append_1]

theorem span_succ (f : Nat → α) (lo len : Nat) : span f lo (len + 1) = f lo :: span f (lo + 1) len := by
  simp [span, List.range'_succ]

theorem span_concat (f : Nat → α) (lo len : Nat) : span f lo (len + 1) = span f lo len ++ [f (lo + len)] := by
  rw [span_add]; rfl

theorem span_congr (h : ∀ j, j < len → f' (lo' + j) = f (lo + j)) : span f' lo' len = span f lo len := by
  refine List.ext_getElem (by rw [length_span, length_span]) (fun j h₁ h₂ => ?_)
  rw [length_span] at h₁
  simpa [span] using h j h₁

end Span

/-! ## ブロックの現れる並び -/

/-- 並びの中に、ブロックが順に、それぞれ切れ目なく現れる。ブロックの間の要素は `D` を満たす。 -/
inductive Woven (D : α → Prop) : List (List α) → List α → Prop where
  | nil : Woven D [] []
  | skip {B W} (x : α) : D x → Woven D B W → Woven D B (x :: W)
  | block {B W} (b : List α) : Woven D B W → Woven D (b :: B) (b ++ W)

namespace Woven

variable {D D' : α → Prop} {B B₁ B₂ : List (List α)} {b b₁ b₂ : List α}

theorem append {W₁ W₂ : List α} (h₁ : Woven D B₁ W₁) (h₂ : Woven D B₂ W₂) : Woven D (B₁ ++ B₂) (W₁ ++ W₂) := by
  induction h₁ with
  | nil => exact h₂
  | skip x hx _ ih => exact .skip x hx ih
  | block b _ ih => rw [List.append_assoc]; exact .block b ih

theorem split (h : Woven D B W) : ∀ {B₁ B₂ : List (List α)}, B = B₁ ++ B₂ →
    ∃ W₁ W₂, W = W₁ ++ W₂ ∧ Woven D B₁ W₁ ∧ Woven D B₂ W₂ := by
  induction h with
  | nil =>
      intro B₁ B₂ he
      obtain ⟨rfl, rfl⟩ := List.append_eq_nil_iff.mp he.symm
      exact ⟨[], [], rfl, .nil, .nil⟩
  | skip x hx _ ih =>
      intro B₁ B₂ he
      obtain ⟨W₁, W₂, rfl, h₁, h₂⟩ := ih he
      exact ⟨x :: W₁, W₂, rfl, .skip x hx h₁, h₂⟩
  | @block B W b hW ih =>
      intro B₁ B₂ he
      cases B₁ with
      | nil => exact ⟨[], b ++ W, rfl, .nil, by rw [List.nil_append] at he; rw [← he]; exact .block b hW⟩
      | cons b' B₁ =>
          rw [List.cons_append] at he
          obtain ⟨hb, hB⟩ := List.cons.inj he
          obtain ⟨W₁, W₂, rfl, h₁, h₂⟩ := ih hB
          subst hb
          exact ⟨b ++ W₁, W₂, by rw [List.append_assoc], .block b h₁, h₂⟩

theorem skips : ∀ {W : List α}, (∀ x ∈ W, D x) → Woven D [] W
  | [], _ => .nil
  | x :: _, h => .skip x (h x List.mem_cons_self) (skips (fun y hy => h y (List.mem_cons_of_mem x hy)))

theorem of_nil (h : Woven D B W) (hB : B = []) : ∀ x ∈ W, D x := by
  induction h with
  | nil => intro x hx; cases hx
  | skip y hy _ ih =>
      intro x hx
      rcases List.mem_cons.mp hx with rfl | hx
      · exact hy
      · exact ih hB x hx
  | block b _ _ => cases hB

/-- 先頭のブロックの手前の要素は、どれも `D` を満たす。 -/
theorem cons (h : Woven D (b :: B) W) : ∃ A W', W = A ++ (b ++ W') ∧ (∀ x ∈ A, D x) ∧ Woven D B W' := by
  generalize hB : b :: B = B' at h
  induction h with
  | nil => cases hB
  | skip x hx _ ih =>
      obtain ⟨A, W', rfl, hA, hW⟩ := ih hB
      refine ⟨x :: A, W', rfl, fun y hy => ?_, hW⟩
      rcases List.mem_cons.mp hy with rfl | hy
      · exact hx
      · exact hA y hy
  | @block B' W b' hW _ =>
      obtain ⟨rfl, rfl⟩ := List.cons.inj hB
      exact ⟨[], W, rfl, fun x hx => (by cases hx), hW⟩

/-- 要素がどれも `D` を満たすブロックは、ブロックの並びから落としてよい。 -/
theorem drop (h : Woven D (B₁ ++ (B ++ B₂)) W) (hB : ∀ x ∈ B.flatten, D x) : Woven D (B₁ ++ B₂) W := by
  obtain ⟨W₁, W', rfl, h₁, h'⟩ := h.split rfl
  obtain ⟨W₂, W₃, rfl, h₂, h₃⟩ := h'.split rfl
  refine h₁.append ?_
  have hall : ∀ {B : List (List α)} {W : List α}, Woven D B W → (∀ x ∈ B.flatten, D x) → ∀ x ∈ W, D x := by
    intro B W hW
    induction hW with
    | nil => intro _ x hx; cases hx
    | skip y hy _ ih =>
        intro hB x hx
        rcases List.mem_cons.mp hx with rfl | hx
        · exact hy
        · exact ih hB x hx
    | block b _ ih =>
        intro hB x hx
        rcases List.mem_append.mp hx with hx | hx
        · exact hB x (by simp [hx])
        · exact ih (fun y hy => hB y (by simp only [List.flatten_cons, List.mem_append]; exact Or.inr hy)) x hx
  exact (skips (hall h₂ hB)).append h₃

/-- ブロックを二つに切ってよい。 -/
theorem cut (h : Woven D (B₁ ++ (b₁ ++ b₂) :: B₂) W) : Woven D (B₁ ++ b₁ :: b₂ :: B₂) W := by
  obtain ⟨W₁, W', rfl, h₁, h'⟩ := h.split rfl
  obtain ⟨A, W₂, rfl, hA, h₂⟩ := h'.cons
  refine h₁.append ?_
  have := (skips hA).append (Woven.block b₁ (Woven.block b₂ h₂))
  rw [List.nil_append] at this
  rw [List.append_assoc]
  exact this

theorem sublist (h : Woven D B W) : B.flatten.Sublist W := by
  induction h with
  | nil => exact .slnil
  | skip x _ _ ih => exact .cons x ih
  | block b _ ih => rw [List.flatten_cons]; exact List.Sublist.append (List.Sublist.refl b) ih

theorem mono (h : Woven D B W) (hn : W.Nodup) (hD : ∀ x ∈ W, x ∉ B.flatten → D x → D' x) : Woven D' B W := by
  induction h with
  | nil => exact .nil
  | skip x hx hW ih =>
      obtain ⟨hxW, hn⟩ := List.nodup_cons.mp hn
      exact .skip x (hD x List.mem_cons_self (fun hm => hxW (hW.sublist.mem hm)) hx)
        (ih hn (fun y hy => hD y (List.mem_cons_of_mem x hy)))
  | block b _ ih =>
      obtain ⟨_, hn, hdisj⟩ := List.nodup_append.mp hn
      refine .block b (ih hn (fun y hy hB => hD y (List.mem_append_right b hy) ?_))
      rw [List.flatten_cons, List.mem_append]
      rintro (hb | hb)
      · exact hdisj y hb y hy rfl
      · exact hB hb

theorem mem (h : Woven D B W) : ∀ x ∈ W, x ∈ B.flatten ∨ D x := by
  induction h with
  | nil => intro x hx; cases hx
  | skip y hy _ ih =>
      intro x hx
      rcases List.mem_cons.mp hx with rfl | hx
      · exact Or.inr hy
      · exact ih x hx
  | block b _ ih =>
      intro x hx
      rcases List.mem_append.mp hx with hx | hx
      · exact Or.inl (by simp [hx])
      · rcases ih x hx with h | h
        · exact Or.inl (by simp only [List.flatten_cons, List.mem_append]; exact Or.inr h)
        · exact Or.inr h

/-- 並びからブロックの要素だけを残すと、ブロックをつないだものになる。 -/
theorem filter_eq [DecidableEq α] (h : Woven D B W) (hn : W.Nodup) :
    W.filter (fun x => decide (x ∈ B.flatten)) = B.flatten := by
  have hkey : ∀ {W : List α}, W.Nodup → ∀ {L : List α}, L.Sublist W →
      W.filter (fun x => decide (x ∈ L)) = L := by
    intro W
    induction W with
    | nil => intro _ L hL; rw [List.sublist_nil.mp hL]; rfl
    | cons x W ih =>
        intro hn L hL
        obtain ⟨hx, hn⟩ := List.nodup_cons.mp hn
        cases hL with
        | cons _ hL =>
            have : x ∉ L := fun hm => hx (hL.mem hm)
            rw [List.filter_cons_of_neg (by simpa using this)]
            exact ih hn hL
        | @cons_cons L' _ _ hL =>
            rw [List.filter_cons_of_pos (by simp)]
            congr 1
            rw [← ih hn hL]
            refine List.filter_congr (fun y hy => ?_)
            have hyx : y ≠ x := by rintro rfl; exact hx hy
            rw [ih hn hL]
            simp [hyx]
  exact hkey hn h.sublist

end Woven

end Books.Lib
