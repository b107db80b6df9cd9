import Books.Dfp754.Lemmas.Correct
import Books.Dfp754.Lemmas.Quantize

/-!
# 文字列との行き来
-/

namespace Books.Dfp754

open Books.Lib

variable {w room : Nat} {out is fs : List UInt8} {b : Bcd w} {s : Int}

/-! ## 並びの反転 -/

theorem reverseLoop_eq (mid : List UInt8) : ∀ (pre post : List UInt8) {ip jp : Nat}, pre.length = ip →
    jp + 1 = ip + mid.length → reverseLoop ip jp (pre ++ mid ++ post) = pre ++ mid.reverse ++ post := by
  induction mid using List.bidirectionalRec with
  | nil =>
      intro pre post ip jp hpre hjp
      rw [List.length_nil] at hjp
      cases jp with
      | zero => rfl
      | succ jp => rw [reverseLoop, if_neg (by omega), List.reverse_nil]
  | singleton a =>
      intro pre post ip jp hpre hjp
      rw [List.length_singleton] at hjp
      cases jp with
      | zero => rfl
      | succ jp => rw [reverseLoop, if_neg (by omega), List.reverse_singleton]
  | cons_append a mid z ih =>
      intro pre post ip jp hpre hjp
      rw [List.length_cons, List.length_append, List.length_singleton] at hjp
      obtain ⟨jp, rfl⟩ : ∃ j, jp = j + 1 := ⟨jp - 1, by omega⟩
      have hsplit : pre ++ (a :: (mid ++ [z])) ++ post = pre ++ a :: (mid ++ z :: post) := by simp
      have hlen : (pre ++ a :: mid).length = jp + 1 := by
        rw [List.length_append, List.length_cons]
        omega
      have hsplit' : pre ++ a :: (mid ++ z :: post) = (pre ++ a :: mid) ++ z :: post := by simp
      have hz : (pre ++ a :: (mid ++ z :: post)).getD (jp + 1) 0 = z := by
        rw [hsplit', List.getD_eq_getElem?_getD, ← hlen, List.getElem?_append_right (Nat.le_refl _), Nat.sub_self]
        rfl
      have ha : (pre ++ a :: (mid ++ z :: post)).getD ip 0 = a := by
        rw [List.getD_eq_getElem?_getD, ← hpre, List.getElem?_append_right (Nat.le_refl _), Nat.sub_self]
        rfl
      have hset : ((pre ++ a :: (mid ++ z :: post)).set ip z).set (jp + 1) a = (pre ++ [z]) ++ mid ++ (a :: post) := by
        have hlen' : ((pre ++ [z]) ++ mid).length = jp + 1 := by
          simp only [List.length_append, List.length_singleton]
          omega
        rw [← hpre, List.set_append_right _ _ (Nat.le_refl _), Nat.sub_self, List.set_cons_zero,
          show pre ++ z :: (mid ++ z :: post) = ((pre ++ [z]) ++ mid) ++ z :: post by simp, ← hlen',
          List.set_append_right _ _ (Nat.le_refl _), Nat.sub_self, List.set_cons_zero]
      rw [hsplit, reverseLoop, if_pos (by omega), hz, ha, hset, ih _ _ (by simp [hpre]) (by omega)]
      simp

/-! ## 桁を書く -/

theorem chr_eq (hw : 6 ≤ w) {c : UInt8} (hc : isdigit c = true) (h : b.mant.toNat % 16 = digitOf c) : b.chr = c := by
  have hlt := digitOf_lt hc
  have h64 := two_pow_le hw
  have hnib : (b.mant &&& 0xf).toNat = digitOf c := by rw [toNat_nibble (by omega), h]
  have h48 : (48 : BitVec w).toNat = 48 := toNat_lit (d := 48) (by omega)
  have hsum : ((b.mant &&& 0xf) + 48).toNat = digitOf c + 48 := by
    rw [BitVec.toNat_add, hnib, h48, Nat.mod_eq_of_lt (by omega)]
  have hback : digitOf c + 48 = c.toNat := by
    simp only [isdigit, Bool.and_eq_true, decide_eq_true_eq] at hc
    have hge : 48 ≤ c.toNat := UInt8.le_iff_toNat_le.1 hc.1
    rw [digitOf, UInt8.toNat_sub_of_le c 48 hc.1, show (48 : UInt8).toNat = 48 from rfl]
    omega
  rw [Bcd.chr, C, hsum, hback, UInt8.ofNat_toNat]

theorem shift_toNat {c : UInt8} (hc : isdigit c = true) (h : b.mant.toNat = val 16 (fs ++ [c])) :
    b.mant.toNat % 16 = digitOf c ∧ b.shift.mant.toNat = val 16 fs := by
  have hlt := digitOf_lt hc
  have hshr : b.shift.mant.toNat = b.mant.toNat / 16 := toNat_shr b.mant 4
  rw [hshr, h, val_snoc]
  omega

theorem emit_stop {go : Bcd w → Bool} {chr : Bcd w → UInt8} {next : Bcd w → Bcd w} (h : go b = false) :
    emit go chr next room out b = ⟨out, room, b⟩ := by
  cases room with
  | zero => rfl
  | succ room => rw [emit, h]; rfl

/-- 小数点の右側の数字を書き終えると、左側が残る。 -/
theorem emitFrac_eq (hw : 6 ≤ w) (hfs : ∀ c ∈ fs, isdigit c = true) (hm : b.mant.toNat = val 16 (is ++ fs))
    (he : b.expo = -(fs.length : Int)) (hroom : fs.length ≤ room) :
    ∃ m : BitVec w, m.toNat = val 16 is ∧
      emit (fun b => decide (b.expo < 0)) Bcd.chr (fun b => { b.shift with expo := b.expo + 1 }) room out b =
        ⟨out ++ fs.reverse, room - fs.length, ⟨m, 0, b.sign⟩⟩ := by
  induction fs using List.reverseRecOn generalizing b out room with
  | nil =>
      rw [List.append_nil] at hm
      have he0 : b.expo = 0 := he
      refine ⟨b.mant, hm, ?_⟩
      rw [emit_stop (by simp [he0]), List.reverse_nil, List.append_nil, List.length_nil, Nat.sub_zero, ← he0]
  | append_singleton fs c ih =>
      have hc : isdigit c = true := hfs c (by simp)
      rw [List.length_append, List.length_singleton] at he hroom
      obtain ⟨room, rfl⟩ : ∃ r, room = r + 1 := ⟨room - 1, by omega⟩
      rw [← List.append_assoc] at hm
      obtain ⟨hdig, hshift⟩ := shift_toNat hc hm
      have hexpo : b.expo + 1 = -(fs.length : Int) := by
        rw [he]
        push_cast
        ring
      have hroom' : fs.length ≤ room := by omega
      obtain ⟨m, hmv, hemit⟩ := ih (b := { b.shift with expo := b.expo + 1 }) (fun d hd => hfs d (by simp [hd])) hshift hexpo
        hroom'
      refine ⟨m, hmv, ?_⟩
      rw [emit, if_pos (by rw [he]; simp; omega), chr_eq hw hc hdig, hemit, List.reverse_append, List.reverse_singleton,
        List.length_append, List.length_singleton, Nat.add_sub_add_right]
      simp [Bcd.shift]

/-- 先頭が `0` でない数字の並び。 -/
def Leading (is : List UInt8) : Prop := is = [] ∨ is.headD 0 ≠ 48

theorem Leading.init {c : UInt8} (h : Leading (is ++ [c])) : Leading is := by
  cases is with
  | nil => exact Or.inl rfl
  | cons d is => exact Or.inr (h.resolve_left (by simp))

theorem val_pos (his : ∀ c ∈ is, isdigit c = true) (hl : Leading is) (hne : is ≠ []) : 0 < val 16 is := by
  cases is with
  | nil => exact absurd rfl hne
  | cons c is =>
      have hc : c ≠ 48 := hl.resolve_left (by simp)
      have hd : digitOf c ≠ 0 := fun h0 => hc (digitOf_inj.1 (h0.trans (by rfl)))
      have hsplit : val 16 (c :: is) = digitOf c * 16 ^ is.length + val 16 is := by
        rw [← List.singleton_append, val_append]
        simp [val]
      rw [hsplit]
      exact Nat.add_pos_left (Nat.mul_pos (Nat.pos_of_ne_zero hd) (Nat.pow_pos (by decide))) _

theorem emitDigits_eq (hw : 6 ≤ w) (his : ∀ c ∈ is, isdigit c = true) (hl : Leading is) (hm : b.mant.toNat = val 16 is)
    (hroom : is.length ≤ room) :
    emit (fun b => decide (b.mant ≠ 0)) Bcd.chr Bcd.shift room out b =
      ⟨out ++ is.reverse, room - is.length, ⟨0, b.expo, b.sign⟩⟩ := by
  have hzero : b.mant = 0 ↔ b.mant.toNat = 0 := by
    rw [← BitVec.toNat_inj, show (0 : BitVec w).toNat = 0 from BitVec.toNat_zero]
  induction is using List.reverseRecOn generalizing b out room with
  | nil =>
      have h0 : b.mant = 0 := hzero.2 hm
      rw [emit_stop (by simp [h0]), List.reverse_nil, List.append_nil, List.length_nil, Nat.sub_zero, ← h0]
  | append_singleton is c ih =>
      have hc : isdigit c = true := his c (by simp)
      have hpos := val_pos his hl (by simp)
      have hne : b.mant ≠ 0 := fun h0 => by
        have := hzero.1 h0
        omega
      rw [List.length_append, List.length_singleton] at hroom
      obtain ⟨room, rfl⟩ : ∃ r, room = r + 1 := ⟨room - 1, by omega⟩
      obtain ⟨hdig, hshift⟩ := shift_toNat hc hm
      have hnext : b.shift.mant = 0 ↔ b.shift.mant.toNat = 0 := by
        rw [← BitVec.toNat_inj, show (0 : BitVec w).toNat = 0 from BitVec.toNat_zero]
      rw [emit, if_pos (decide_eq_true hne), chr_eq hw hc hdig,
        ih (fun d hd => his d (by simp [hd])) hl.init hshift (by omega) hnext, List.reverse_append, List.reverse_singleton,
        List.length_append, List.length_singleton, Nat.add_sub_add_right]
      simp [Bcd.shift]

/-! ## 詰めた十進を文字列に書く -/

/-- 整数部の文字。空なら `0` を一つ置く。 -/
def intText (is : List UInt8) : List UInt8 := if is = [] then [48] else is

/-- `out` まで書いた状態。 -/
def written (bsz : Nat) (out : List UInt8) (b : Bcd w) : Pr w := ⟨out, bsz - out.length, b⟩

variable {bsz : Nat}

@[simp] theorem written_out (bsz : Nat) (out : List UInt8) (b : Bcd w) : (written bsz out b).out = out := rfl

@[simp] theorem written_room (bsz : Nat) (out : List UInt8) (b : Bcd w) : (written bsz out b).room = bsz - out.length := rfl

@[simp] theorem written_b (bsz : Nat) (out : List UInt8) (b : Bcd w) : (written bsz out b).b = b := rfl

theorem written_put (h : out.length < bsz) (c : UInt8) : (written bsz out b).put true c = written bsz (out ++ [c]) b := by
  have hroom : 0 < (written bsz out b).room := Nat.sub_pos_of_lt h
  have hlen : bsz - (out ++ [c]).length = bsz - out.length - 1 := by
    rw [List.length_append, List.length_singleton, Nat.sub_sub]
  rw [Pr.put, if_pos ⟨rfl, hroom⟩, written_out, written_room, written_b, written, hlen]

theorem put_false (p : Pr w) (c : UInt8) : p.put false c = p := by rw [Pr.put, if_neg (by simp)]

theorem written_frac (hw : 6 ≤ w) (hfs : ∀ c ∈ fs, isdigit c = true) (hm : b.mant.toNat = val 16 (is ++ fs))
    (he : b.expo = -(fs.length : Int)) (hsz : fs.length ≤ bsz) :
    ∃ m : BitVec w, m.toNat = val 16 is ∧ emitFrac bsz b = written bsz fs.reverse ⟨m, 0, b.sign⟩ := by
  obtain ⟨m, hmv, hemit⟩ := emitFrac_eq hw hfs hm he hsz
  refine ⟨m, hmv, ?_⟩
  rw [emitFrac, hemit, List.nil_append, written, List.length_reverse]

/-- 小数点は、小数部の後にだけ書く。 -/
theorem written_point (h : fs.length < bsz) :
    (written bsz fs.reverse b).put (decide ((written bsz fs.reverse b).out ≠ [])) 46 =
      written bsz (if fs = [] then [] else 46 :: fs).reverse b := by
  by_cases hfs : fs = []
  · subst hfs
    rw [if_pos rfl]
    exact put_false _ 46
  · have hne : (written bsz fs.reverse b).out ≠ [] := by simpa [written] using hfs
    rw [decide_eq_true hne, if_neg hfs, written_put (by rwa [List.length_reverse]), List.reverse_cons]

theorem written_zeros (he : b.expo = 0) : emitZeros (written bsz out b) = written bsz out b := by
  rw [emitZeros]
  exact emit_stop (by simp [written, he])

theorem written_mant (hw : 6 ≤ w) (his : ∀ c ∈ is, isdigit c = true) (hl : Leading is) (hm : b.mant.toNat = val 16 is)
    (hsz : out.length + (intText is).length ≤ bsz) :
    emitMant (written bsz out b) = written bsz (out ++ (intText is).reverse) ⟨0, b.expo, b.sign⟩ := by
  have hzero : b.mant = 0 ↔ b.mant.toNat = 0 := by
    rw [← BitVec.toNat_inj, show (0 : BitVec w).toNat = 0 from BitVec.toNat_zero]
  rw [intText] at hsz ⊢
  by_cases hne : is = []
  · subst hne
    have h0 : b.mant = 0 := hzero.2 hm
    rw [if_pos rfl, List.length_singleton] at hsz
    rw [emitMant, written_b, if_neg (not_not_intro h0), written_put (by omega), if_pos rfl, ← h0]
    rfl
  · have hpos := val_pos his hl hne
    have hb : b.mant ≠ 0 := fun h0 => by
      have := hzero.1 h0
      omega
    rw [if_neg hne] at hsz ⊢
    have hroom : is.length ≤ bsz - out.length := by omega
    rw [emitMant, written_b, if_pos hb, written_room, written_out, emitDigits_eq hw his hl hm hroom, written,
      List.length_append, List.length_reverse, Nat.sub_sub]

theorem written_sign (h : out.length < bsz) (hs : b.sign = s) :
    (written bsz out b).put (decide ((written bsz out b).b.sign ≠ 0)) 45 =
      written bsz (out ++ if decide (s ≠ 0) then [45] else []) b := by
  have hb : (written bsz out b).b.sign = s := hs
  rw [hb]
  by_cases h0 : s = 0
  · rw [decide_eq_false (not_not_intro h0), put_false, if_neg (by decide), List.append_nil]
  · rw [decide_eq_true h0, written_put h, if_pos rfl]

theorem bcdtostr_eq (hw : 6 ≤ w) (his : ∀ c ∈ is, isdigit c = true) (hfs : ∀ c ∈ fs, isdigit c = true) (hl : Leading is)
    (hm : b.mant.toNat = val 16 (is ++ fs)) (he : b.expo = -(fs.length : Int))
    (hsz : (decText (decide (b.sign ≠ 0)) (intText is) fs).length < bsz) :
    bcdtostr bsz b = (decText (decide (b.sign ≠ 0)) (intText is) fs ++ [0],
      (decText (decide (b.sign ≠ 0)) (intText is) fs).length) := by
  have hrev : (decText (decide (b.sign ≠ 0)) (intText is) fs).reverse =
      (if fs = [] then [] else 46 :: fs).reverse ++ (intText is).reverse ++ if decide (b.sign ≠ 0) then [45] else [] := by
    rw [decText, List.reverse_append, List.reverse_append, ← List.append_assoc]
    congr 1
    split <;> rfl
  have hlen := congrArg List.length hrev
  simp only [List.length_append, List.length_reverse] at hlen
  have hfrac : fs.length ≤ (if fs = [] then [] else 46 :: fs).length := by
    split
    · rename_i h0
      rw [h0]
    · exact Nat.le_succ _
  have hone : 0 < (intText is).length := by
    rw [intText]
    split
    · exact Nat.one_pos
    · rename_i h0
      exact List.length_pos_iff.2 h0
  have hfsz : fs.length ≤ bsz := by omega
  obtain ⟨m, hmv, hemit⟩ := written_frac hw hfs hm he hfsz
  generalize htext : decText (decide (b.sign ≠ 0)) (intText is) fs = text at *
  have hput : emitMant (emitZeros ((emitFrac bsz b).put (decide ((emitFrac bsz b).out ≠ [])) 46)) =
      written bsz ((if fs = [] then [] else 46 :: fs).reverse ++ (intText is).reverse) ⟨0, 0, b.sign⟩ := by
    rw [hemit, written_point (by omega), written_zeros rfl,
      written_mant hw his hl hmv (by rw [List.length_reverse]; omega)]
  have hsign : (emitMant (emitZeros ((emitFrac bsz b).put (decide ((emitFrac bsz b).out ≠ [])) 46))).put
      (decide ((emitMant (emitZeros ((emitFrac bsz b).put (decide ((emitFrac bsz b).out ≠ [])) 46))).b.sign ≠ 0)) 45 =
      written bsz text.reverse ⟨0, 0, b.sign⟩ := by
    rw [hput, written_sign (by rw [List.length_append, List.length_reverse, List.length_reverse]; omega) rfl, hrev]
  have hnul : text.reverse.length < bsz := by rwa [List.length_reverse]
  have hout : (written bsz text.reverse (⟨0, 0, b.sign⟩ : Bcd w)).out.length = text.length := List.length_reverse
  simp only [bcdtostr, hsign, written_put hnul, hout]
  have hback : reverseLoop 0 (text.length - 1) ([] ++ text.reverse ++ [0]) = [] ++ text.reverse.reverse ++ [0] :=
    reverseLoop_eq text.reverse [] [0] rfl (by rw [List.length_reverse]; omega)
  rw [List.nil_append, List.reverse_reverse, List.nil_append] at hback
  exact Prod.ext hback rfl

end Books.Dfp754
