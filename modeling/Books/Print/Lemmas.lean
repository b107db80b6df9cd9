import Books.Dfp754.Lemmas.Length
import Books.Print.Spec

/-!
# 書き込みの記録と長さ

行の長さが 256 以下である間は、書き込みは領域に収まり、`len` はその長さに等しい。256 を超えた所で、領域の外に書く。
-/

namespace Books.Print

open Books.Btree Books.Book Books.Book2book Books.Xquo Books.Lib Books.Dfp754

variable {l : Line} {n : Nat} {x : BitVec 64} {c : UInt8} {s : List UInt8} {cond : Bool}

/-! ## 一度はみ出した書き込み -/

theorem fits_of_byte (h : Fits (l.byte c)) : Fits l := (Buf.within_put.mp h).2

theorem fits_of_num (h : Fits (l.num x)) : Fits l := (Buf.within_puts.mp h).2

theorem fits_of_copy (h : Fits (l.copy s)) : Fits l := (Buf.within_puts.mp h).2

/-! ## 行の長さの勘定 -/

/-- `l` は、`n` 文字を書こうとした行である。 -/
structure Tracks (l : Line) (n : Nat) : Prop where
  inside : n ≤ 256 → l.len = n ∧ Fits l
  outside : 256 < n → ¬ Fits l

theorem Tracks.fits_iff (h : Tracks l n) : Fits l ↔ n ≤ 256 :=
  ⟨fun hf => Nat.le_of_not_lt (fun hlt => h.outside hlt hf), fun hle => (h.inside hle).2⟩

theorem tracks_init (mem : Nat → UInt8) : Tracks (Line.init mem) 0 :=
  ⟨fun _ => ⟨rfl, fun _ hi => absurd hi List.not_mem_nil⟩, fun h => absurd h (by decide)⟩

/-- 一つの書き込みの勘定。はみ出した後の書き込みは、勘定を変えない。 -/
theorem Tracks.write {l' : Line} {k : Nat} (h : Tracks l n) (hback : Fits l' → Fits l)
    (hin : l.len = n → Fits l → n + k ≤ 256 → l'.len = n + k ∧ Fits l') (hout : l.len = n → n ≤ 256 → Fits l' → n + k ≤ 256) :
    Tracks l' (n + k) := by
  constructor
  · intro hle
    obtain ⟨hlen, hfits⟩ := h.inside (by omega)
    exact hin hlen hfits hle
  · intro hlt hf
    rcases Nat.lt_or_ge 256 n with hn | hn
    · exact h.outside hn (hback hf)
    · exact absurd (hout (h.inside hn).1 hn hf) (Nat.not_le.mpr hlt)

theorem tracks_byte (h : Tracks l n) (c : UInt8) : Tracks (l.byte c) (n + 1) := by
  refine h.write fits_of_byte (fun hlen hfits hle => ?_) (fun hlen _ hf => ?_)
  · exact ⟨congrArg (· + 1) hlen, Buf.within_put.mpr ⟨by omega, hfits⟩⟩
  · have hidx := (Buf.within_put.mp hf).1
    omega

theorem tracks_copy (h : Tracks l n) (s : List UInt8) : Tracks (l.copy s) (n + s.length) := by
  refine h.write fits_of_copy (fun hlen hfits hle => ?_) (fun hlen hn hf => ?_)
  · exact ⟨congrArg (· + s.length) hlen, Buf.within_puts.mpr ⟨Or.inr (by omega), hfits⟩⟩
  · rcases (Buf.within_puts.mp hf).1 with rfl | hidx
    · exact hn
    · omega

/-- 数を書いた後には、必ず区切りのバイトが続く。書き切れない数は領域を埋め、区切りが領域の外に出る。 -/
theorem tracks_num (h : Tracks l n) (x : BitVec 64) (c : UInt8) : Tracks ((l.num x).byte c) (n + textLen x + 1) := by
  have hroom : l.len = n → n ≤ 256 → (2 ^ 64 + bufSize - l.len) % 2 ^ 64 = 256 - n := by
    intro hlen hn
    rw [bufSize]
    omega
  have hlast : l.len = n → n ≤ 256 → (l.num x).len = n + min (256 - n) (textLen x) := by
    intro hlen hn
    rw [Line.num, hroom hlen hn, hlen, (d64tostr_length (256 - n) x).1]
  rw [Nat.add_assoc]
  refine h.write (fun hf => fits_of_num (fits_of_byte hf)) (fun hlen hfits hle => ?_) (fun hlen hn hf => ?_)
  · have hnum := hlast hlen (by omega)
    have hbytes := (d64tostr_length (256 - n) x).2 (by omega)
    rw [Nat.min_eq_right (by omega)] at hnum
    refine ⟨congrArg (· + 1) hnum, Buf.within_put.mpr ⟨by omega, Buf.within_puts.mpr ⟨Or.inr ?_, hfits⟩⟩⟩
    rw [hroom hlen (by omega)]
    omega
  · have hnum := hlast hlen hn
    have hidx := (Buf.within_put.mp hf).1
    omega

theorem tracks_numIf (h : Tracks l n) (cond : Bool) (x : BitVec 64) (c : UInt8) :
    Tracks ((l.numIf cond x).byte c) (n + lenIf cond x + 1) := by
  cases cond with
  | true => exact tracks_num h x c
  | false => exact tracks_byte h c

/-! ## 見出しと段 -/

theorem tracks_header (mem : Nat → UInt8) (metr : Tv) (cont : Option (List UInt8)) (s k : UInt8) :
    Tracks (header mem metr cont s k) (headerLen metr cont) := by
  have hstamp : Tracks ⟨(tvtostr (Buf.init mem) bufSize metr).1, (tvtostr (Buf.init mem) bufSize metr).2⟩
      (stampText metr).length := by
    have hlen : (stampText metr).length ≤ 21 := by
      have hword := UInt64.toNat_lt metr
      rw [length_stampText]
      have hsec : (secsText metr).length ≤ 11 := by
        rw [secsText_le_iff (by decide), UInt64.toNat_div]
        exact Nat.div_lt_of_lt_mul (Nat.lt_trans hword (by decide))
      omega
    refine ⟨fun _ => ⟨by rw [tvtostr_eq (by decide)], fun i hi => ?_⟩, fun h => absurd h (by omega)⟩
    rw [mem_log_tvtostr (by decide), Buf.init_log, or_iff_left List.not_mem_nil] at hi
    omega
  cases cont with
  | none =>
      have h := tracks_byte (tracks_byte (tracks_byte (tracks_byte hstamp tab) s) k) tab
      exact h
  | some w =>
      have h := tracks_byte (tracks_byte (tracks_byte (tracks_byte (tracks_copy (tracks_byte hstamp tab) w) tab) s) k) tab
      have hlen : (stampText metr).length + 1 + w.length + 1 + 1 + 1 + 1 = headerLen metr (some w) := by
        rw [headerLen, Option.elim_some]
        omega
      rw [hlen] at h
      exact h

theorem tracks_level (h : Tracks l n) (x : Option (BitVec 64) × BitVec 64) :
    Tracks (level l x) (n + textLen (pxWord x.1) + textLen x.2 + 2) := by
  have h₂ := tracks_num (tracks_num h (pxWord x.1) tab) x.2 newline
  have hlen : n + textLen (pxWord x.1) + 1 + textLen x.2 + 1 = n + textLen (pxWord x.1) + textLen x.2 + 2 := by omega
  rw [hlen] at h₂
  exact h₂

theorem fits_of_level {x : Option (BitVec 64) × BitVec 64} (h : Fits (level l x)) : Fits l :=
  fits_of_num (fits_of_byte (fits_of_num (fits_of_byte h)))

theorem levels_len (l : Line) (xs : List (Option (BitVec 64) × BitVec 64)) : (levels l xs).len = l.len := by
  induction xs generalizing l with
  | nil => rfl
  | cons x xs ih => rw [levels, ih]

theorem fits_of_levels {xs : List (Option (BitVec 64) × BitVec 64)} (h : Fits (levels l xs)) : Fits l := by
  induction xs generalizing l with
  | nil => exact h
  | cons x xs ih =>
      have hl : Fits (level l x) := ih (l := ⟨(level l x).buf, l.len⟩) h
      exact fits_of_level hl

/-- 段の列が収まるのは、どの段も収まるときである。 -/
theorem levels_fit (hlen : l.len = n) (hn : n ≤ 256) (xs : List (Option (BitVec 64) × BitVec 64)) :
    Fits (levels l xs) ↔ Fits l ∧ ∀ x ∈ xs, n + textLen (pxWord x.1) + textLen x.2 + 2 ≤ 256 := by
  induction xs generalizing l with
  | nil => exact ⟨fun h => ⟨h, fun x hx => absurd hx List.not_mem_nil⟩, fun h => h.1⟩
  | cons x xs ih =>
      rw [levels, ih (l := ⟨(level l x).buf, l.len⟩) hlen, List.forall_mem_cons, ← and_assoc]
      refine and_congr_left (fun _ => ?_)
      show Fits (level l x) ↔ _
      by_cases hf : Fits l
      · have ht : Tracks l n := ⟨fun _ => ⟨hlen, hf⟩, fun h => absurd h (by omega)⟩
        rw [(tracks_level ht x).fits_iff, and_iff_right hf]
      · exact iff_of_false (fun h => hf (fits_of_level h)) (fun h => hf h.1)

end Books.Print
