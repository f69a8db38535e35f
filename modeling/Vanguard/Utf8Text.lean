import Mathlib.Data.List.Basic
import Mathlib.Data.Char

/-! UTF-8 text as lists of bytes. The scanner cuts a byte string into characters and maximal
ill-formed pieces, one byte at a time; strict decoding refuses the pieces and lossy decoding
writes U+FFFD for each. -/
namespace Utf8Text

abbrev Bytes := List UInt8
abbrev Text := List Char

def encode (cs : Text) : Bytes := cs.flatMap String.utf8EncodeChar

@[simp] theorem encode_nil : encode [] = [] := rfl
@[simp] theorem encode_cons (c : Char) (cs : Text) :
    encode (c :: cs) = String.utf8EncodeChar c ++ encode cs := rfl
@[simp] theorem encode_append (as bs : Text) : encode (as ++ bs) = encode as ++ encode bs :=
  List.flatMap_append

/-- Between characters, or inside one whose bytes so far give `value`: `needed` more follow and
the next one lies in `low..high`. -/
inductive Scan where
  | start
  | inside (value needed low high : ℕ)
  deriving DecidableEq, Repr

/-- A piece of the input is a character or an ill-formed sequence. -/
abbrev Piece := Option Char

/-- The first byte of a character. A lead byte narrows the range of the byte after it where
that keeps out overlong forms, surrogates and values above U+10FFFF. -/
def lead (b : ℕ) : List Piece × Scan :=
  if b ≤ 0x7F then ([some (Char.ofNat b)], .start)
  else if b < 0xC2 then ([none], .start)
  else if b ≤ 0xDF then ([], .inside (b - 0xC0) 1 0x80 0xBF)
  else if b = 0xE0 then ([], .inside 0 2 0xA0 0xBF)
  else if b = 0xED then ([], .inside 0xD 2 0x80 0x9F)
  else if b ≤ 0xEF then ([], .inside (b - 0xE0) 2 0x80 0xBF)
  else if b = 0xF0 then ([], .inside 0 3 0x90 0xBF)
  else if b ≤ 0xF3 then ([], .inside (b - 0xF0) 3 0x80 0xBF)
  else if b = 0xF4 then ([], .inside 4 3 0x80 0x8F)
  else ([none], .start)

def scanByte : Scan → ℕ → List Piece × Scan
  | .start, b => lead b
  | .inside value needed low high, b =>
    if low ≤ b ∧ b ≤ high then
      if needed ≤ 1 then ([some (Char.ofNat (value * 64 + (b - 0x80)))], .start)
      else ([], .inside (value * 64 + (b - 0x80)) (needed - 1) 0x80 0xBF)
    else (none :: (lead b).1, (lead b).2)

def scan : Scan → Bytes → List Piece
  | .start, [] => []
  | .inside _ _ _ _, [] => [none]
  | st, b :: bs => (scanByte st b.toNat).1 ++ scan (scanByte st b.toNat).2 bs

/-- `str::from_utf8`. -/
def decode (bs : Bytes) : Option Text :=
  if none ∈ scan .start bs then none else some ((scan .start bs).filterMap id)

/-- `String::from_utf8_lossy`. -/
def decodeLossy (bs : Bytes) : Text := (scan .start bs).map (·.getD '\uFFFD')

section Characters

theorem toNat_valid (c : Char) : c.toNat < 0xD800 ∨ 0xDFFF < c.toNat ∧ c.toNat < 0x110000 :=
  c.valid

theorem toNat_ofNat {v : ℕ} (h : v < 0xD800 ∨ 0xDFFF < v ∧ v < 0x110000) :
    (Char.ofNat v).toNat = v := by
  unfold Char.ofNat
  rw [dif_pos (show v.isValidChar from h)]
  rfl

theorem encodeChar_one {c : Char} (h : c.toNat ≤ 0x7F) :
    String.utf8EncodeChar c = [UInt8.ofNat c.toNat] := by
  unfold Char.toNat at *
  simp only [String.utf8EncodeChar]
  rw [if_pos h]

theorem encodeChar_two {c : Char} (h : 0x7F < c.toNat) (h' : c.toNat ≤ 0x7FF) :
    String.utf8EncodeChar c =
      [UInt8.ofNat (c.toNat / 64 + 0xC0), UInt8.ofNat (c.toNat % 64 + 0x80)] := by
  unfold Char.toNat at *
  simp only [String.utf8EncodeChar]
  rw [if_neg (by omega), if_pos h', Nat.mod_eq_of_lt (show c.val.toNat / 64 < 0x20 by omega)]

theorem encodeChar_three {c : Char} (h : 0x7FF < c.toNat) (h' : c.toNat ≤ 0xFFFF) :
    String.utf8EncodeChar c =
      [UInt8.ofNat (c.toNat / 4096 + 0xE0), UInt8.ofNat (c.toNat / 64 % 64 + 0x80),
        UInt8.ofNat (c.toNat % 64 + 0x80)] := by
  unfold Char.toNat at *
  simp only [String.utf8EncodeChar]
  rw [if_neg (by omega), if_neg (by omega), if_pos h',
    Nat.mod_eq_of_lt (show c.val.toNat / 4096 < 0x10 by omega)]

theorem encodeChar_four {c : Char} (h : 0xFFFF < c.toNat) :
    String.utf8EncodeChar c =
      [UInt8.ofNat (c.toNat / 262144 + 0xF0), UInt8.ofNat (c.toNat / 4096 % 64 + 0x80),
        UInt8.ofNat (c.toNat / 64 % 64 + 0x80), UInt8.ofNat (c.toNat % 64 + 0x80)] := by
  have hv := toNat_valid c
  unfold Char.toNat at *
  simp only [String.utf8EncodeChar]
  rw [if_neg (by omega), if_neg (by omega), if_neg (by omega),
    Nat.mod_eq_of_lt (show c.val.toNat / 262144 < 0x08 by omega)]

def SecondOk (a b : ℕ) : Prop :=
  (if a = 0xE0 then 0xA0 else if a = 0xF0 then 0x90 else 0x80) ≤ b ∧
    b ≤ (if a = 0xED then 0x9F else if a = 0xF4 then 0x8F else 0xBF)

instance (a b : ℕ) : Decidable (SecondOk a b) := inferInstanceAs (Decidable (_ ∧ _))

variable {a b d e : UInt8} {bs : Bytes}

theorem scan_start_one (ha : a.toNat ≤ 0x7F) :
    scan .start (a :: bs) = some (Char.ofNat a.toNat) :: scan .start bs := by
  simp [scan, scanByte, lead, ha]

theorem scan_start_bad (ha : 0x7F < a.toNat ∧ a.toNat < 0xC2 ∨ 0xF4 < a.toNat) :
    scan .start (a :: bs) = none :: scan .start bs := by
  simp only [scan, scanByte, lead]
  rcases ha with ⟨ha, ha'⟩ | ha
  · rw [if_neg (by omega), if_pos ha']
    rfl
  · repeat rw [if_neg (by omega)]
    rfl

theorem lead_two {n : ℕ} (h : 0xC2 ≤ n) (h' : n ≤ 0xDF) :
    lead n = ([], .inside (n - 0xC0) 1 0x80 0xBF) := by
  unfold lead
  rw [if_neg (by omega), if_neg (by omega), if_pos h']

theorem lead_three {n : ℕ} (h : 0xE0 ≤ n) (h' : n ≤ 0xEF) :
    ∃ low high, lead n = ([], .inside (n - 0xE0) 2 low high) ∧
      ∀ b, low ≤ b ∧ b ≤ high ↔ SecondOk n b := by
  unfold lead SecondOk
  rw [if_neg (by omega), if_neg (by omega), if_neg (by omega)]
  by_cases h0 : n = 0xE0
  · subst h0
    exact ⟨_, _, rfl, fun b => by simp⟩
  · rw [if_neg h0]
    by_cases hd : n = 0xED
    · subst hd
      exact ⟨_, _, rfl, fun b => by simp⟩
    · rw [if_neg hd, if_pos h']
      refine ⟨_, _, rfl, fun b => ?_⟩
      rw [if_neg h0, if_neg (by omega), if_neg hd, if_neg (by omega)]

theorem lead_four {n : ℕ} (h : 0xF0 ≤ n) (h' : n ≤ 0xF4) :
    ∃ low high, lead n = ([], .inside (n - 0xF0) 3 low high) ∧
      ∀ b, low ≤ b ∧ b ≤ high ↔ SecondOk n b := by
  unfold lead SecondOk
  repeat rw [if_neg (show ¬ n ≤ 0x7F by omega)]
  rw [if_neg (by omega), if_neg (by omega), if_neg (by omega), if_neg (by omega),
    if_neg (by omega)]
  by_cases h0 : n = 0xF0
  · subst h0
    exact ⟨_, _, rfl, fun b => by simp⟩
  · rw [if_neg h0]
    by_cases h4 : n = 0xF4
    · subst h4
      exact ⟨_, _, rfl, fun b => by simp⟩
    · rw [if_pos (by omega)]
      refine ⟨_, _, rfl, fun b => ?_⟩
      rw [if_neg (by omega), if_neg h0, if_neg (by omega), if_neg h4]

theorem scan_inside_bad {v n low high : ℕ} (hb : ¬ (low ≤ b.toNat ∧ b.toNat ≤ high)) :
    scan (.inside v n low high) (b :: bs) = none :: scan .start (b :: bs) := by
  simp [scan, scanByte, hb]

theorem scan_inside_last {v low high : ℕ} (hb : low ≤ b.toNat ∧ b.toNat ≤ high) :
    scan (.inside v 1 low high) (b :: bs) =
      some (Char.ofNat (v * 64 + (b.toNat - 0x80))) :: scan .start bs := by
  simp [scan, scanByte, hb]

theorem scan_inside_more {v n low high : ℕ} (hb : low ≤ b.toNat ∧ b.toNat ≤ high) (hn : 1 < n) :
    scan (.inside v n low high) (b :: bs) =
      scan (.inside (v * 64 + (b.toNat - 0x80)) (n - 1) 0x80 0xBF) bs := by
  simp [scan, scanByte, hb, Nat.not_le_of_lt hn]

def Tail (b : UInt8) : Prop := 0x80 ≤ b.toNat ∧ b.toNat ≤ 0xBF

instance (b : UInt8) : Decidable (Tail b) := inferInstanceAs (Decidable (_ ∧ _))

theorem scan_two (ha : 0xC2 ≤ a.toNat) (ha' : a.toNat ≤ 0xDF) (hb : Tail b) :
    scan .start (a :: b :: bs) =
      some (Char.ofNat ((a.toNat - 0xC0) * 64 + (b.toNat - 0x80))) :: scan .start bs := by
  have hl := lead_two ha ha'
  rw [scan, scanByte, hl, List.nil_append]
  exact scan_inside_last hb

theorem scan_three (ha : 0xE0 ≤ a.toNat) (ha' : a.toNat ≤ 0xEF) (hb : SecondOk a.toNat b.toNat)
    (hd : Tail d) :
    scan .start (a :: b :: d :: bs) =
      some (Char.ofNat (((a.toNat - 0xE0) * 64 + (b.toNat - 0x80)) * 64 + (d.toNat - 0x80))) ::
        scan .start bs := by
  obtain ⟨low, high, hl, hr⟩ := lead_three ha ha'
  rw [scan, scanByte, hl, List.nil_append, scan_inside_more ((hr _).mpr hb) (by decide)]
  exact scan_inside_last hd

theorem scan_four (ha : 0xF0 ≤ a.toNat) (ha' : a.toNat ≤ 0xF4) (hb : SecondOk a.toNat b.toNat)
    (hd : Tail d) (he : Tail e) :
    scan .start (a :: b :: d :: e :: bs) =
      some (Char.ofNat ((((a.toNat - 0xF0) * 64 + (b.toNat - 0x80)) * 64 + (d.toNat - 0x80)) * 64 +
        (e.toNat - 0x80))) :: scan .start bs := by
  obtain ⟨low, high, hl, hr⟩ := lead_four ha ha'
  rw [scan, scanByte, hl, List.nil_append, scan_inside_more ((hr _).mpr hb) (by decide),
    scan_inside_more hd (by decide)]
  exact scan_inside_last he

end Characters

theorem scan_encodeChar (c : Char) (bs : Bytes) :
    scan .start (String.utf8EncodeChar c ++ bs) = some c :: scan .start bs := by
  have hv := toNat_valid c
  have hback {v : ℕ} (h : v = c.toNat) : Char.ofNat v = c := by rw [h, Char.ofNat_toNat]
  by_cases h1 : c.toNat ≤ 0x7F
  · have ha : (UInt8.ofNat c.toNat).toNat = c.toNat := by rw [UInt8.toNat_ofNat']; omega
    rw [encodeChar_one h1, List.singleton_append, scan_start_one (by omega), hback ha]
  by_cases h2 : c.toNat ≤ 0x7FF
  · rw [encodeChar_two (by omega) h2]
    simp only [List.cons_append, List.nil_append]
    rw [scan_two, hback] <;> simp only [Tail, UInt8.toNat_ofNat'] <;> omega
  by_cases h3 : c.toNat ≤ 0xFFFF
  · rw [encodeChar_three (by omega) h3]
    simp only [List.cons_append, List.nil_append]
    have hb : SecondOk (UInt8.ofNat (c.toNat / 4096 + 0xE0)).toNat
        (UInt8.ofNat (c.toNat / 64 % 64 + 0x80)).toNat := by
      simp only [SecondOk, UInt8.toNat_ofNat']
      split_ifs <;> omega
    rw [scan_three _ _ hb, hback] <;> simp only [Tail, UInt8.toNat_ofNat'] <;> omega
  · rw [encodeChar_four (by omega)]
    simp only [List.cons_append, List.nil_append]
    have hb : SecondOk (UInt8.ofNat (c.toNat / 262144 + 0xF0)).toNat
        (UInt8.ofNat (c.toNat / 4096 % 64 + 0x80)).toNat := by
      simp only [SecondOk, UInt8.toNat_ofNat']
      split_ifs <;> omega
    rw [scan_four _ _ hb, hback] <;> simp only [Tail, UInt8.toNat_ofNat'] <;> omega

theorem scan_encode (cs : Text) (bs : Bytes) :
    scan .start (encode cs ++ bs) = cs.map some ++ scan .start bs := by
  induction cs with
  | nil => rfl
  | cons c cs ih =>
    rw [encode_cons, List.append_assoc, scan_encodeChar, ih]
    rfl

section Soundness

variable {a b d e : UInt8}

private theorem ofNat_eq {v : ℕ} {x : UInt8} (h : v = x.toNat) : UInt8.ofNat v = x := by
  rw [h, UInt8.ofNat_toNat]

theorem exists_char_one (ha : a.toNat ≤ 0x7F) : ∃ c, String.utf8EncodeChar c = [a] := by
  have hv := toNat_ofNat (v := a.toNat) (by omega)
  refine ⟨Char.ofNat a.toNat, ?_⟩
  rw [encodeChar_one (by omega), hv, ofNat_eq rfl]

theorem exists_char_two (ha : 0xC2 ≤ a.toNat) (ha' : a.toNat ≤ 0xDF) (hb : Tail b) :
    ∃ c, String.utf8EncodeChar c = [a, b] := by
  unfold Tail at hb
  have hv := toNat_ofNat (v := (a.toNat - 0xC0) * 64 + (b.toNat - 0x80)) (by omega)
  refine ⟨Char.ofNat ((a.toNat - 0xC0) * 64 + (b.toNat - 0x80)), ?_⟩
  rw [encodeChar_two (by omega) (by omega), hv, ofNat_eq (x := a) (by omega),
    ofNat_eq (x := b) (by omega)]

theorem exists_char_three (ha : 0xE0 ≤ a.toNat) (ha' : a.toNat ≤ 0xEF)
    (hb : SecondOk a.toNat b.toNat) (hd : Tail d) :
    ∃ c, String.utf8EncodeChar c = [a, b, d] := by
  unfold Tail at hd
  have hb' : Tail b ∧ (a.toNat = 0xE0 → 0xA0 ≤ b.toNat) ∧ (a.toNat = 0xED → b.toNat ≤ 0x9F) := by
    unfold SecondOk at hb
    unfold Tail
    split_ifs at hb <;> omega
  obtain ⟨⟨hlo, hhi⟩, h0, hD⟩ := hb'
  have hv := toNat_ofNat
    (v := ((a.toNat - 0xE0) * 64 + (b.toNat - 0x80)) * 64 + (d.toNat - 0x80)) (by omega)
  refine ⟨Char.ofNat (((a.toNat - 0xE0) * 64 + (b.toNat - 0x80)) * 64 + (d.toNat - 0x80)), ?_⟩
  rw [encodeChar_three (by omega) (by omega), hv, ofNat_eq (x := a) (by omega),
    ofNat_eq (x := b) (by omega), ofNat_eq (x := d) (by omega)]

theorem exists_char_four (ha : 0xF0 ≤ a.toNat) (ha' : a.toNat ≤ 0xF4)
    (hb : SecondOk a.toNat b.toNat) (hd : Tail d) (he : Tail e) :
    ∃ c, String.utf8EncodeChar c = [a, b, d, e] := by
  unfold Tail at hd he
  have hb' : Tail b ∧ (a.toNat = 0xF0 → 0x90 ≤ b.toNat) ∧ (a.toNat = 0xF4 → b.toNat ≤ 0x8F) := by
    unfold SecondOk at hb
    unfold Tail
    split_ifs at hb <;> omega
  obtain ⟨⟨hlo, hhi⟩, h0, h4⟩ := hb'
  have hv := toNat_ofNat
    (v := (((a.toNat - 0xF0) * 64 + (b.toNat - 0x80)) * 64 + (d.toNat - 0x80)) * 64 +
      (e.toNat - 0x80)) (by omega)
  refine ⟨Char.ofNat ((((a.toNat - 0xF0) * 64 + (b.toNat - 0x80)) * 64 + (d.toNat - 0x80)) * 64 +
    (e.toNat - 0x80)), ?_⟩
  rw [encodeChar_four (by omega), hv, ofNat_eq (x := a) (by omega),
    ofNat_eq (x := b) (by omega), ofNat_eq (x := d) (by omega), ofNat_eq (x := e) (by omega)]

theorem scan_inside_cons {v n low high : ℕ} {as : Bytes}
    (h : none ∉ scan (.inside v n low high) as) :
    ∃ b bs, as = b :: bs ∧ low ≤ b.toNat ∧ b.toNat ≤ high ∧
      (1 < n → none ∉ scan (.inside (v * 64 + (b.toNat - 0x80)) (n - 1) 0x80 0xBF) bs) := by
  cases as with
  | nil => simp [scan] at h
  | cons b bs =>
    by_cases hb : low ≤ b.toNat ∧ b.toNat ≤ high
    · refine ⟨b, bs, rfl, hb.1, hb.2, fun hn => ?_⟩
      rwa [scan_inside_more hb hn] at h
    · rw [scan_inside_bad hb] at h
      exact absurd List.mem_cons_self h

theorem scan_cons_sound {as : Bytes} (h : none ∉ scan .start (a :: as)) :
    ∃ c bs, a :: as = String.utf8EncodeChar c ++ bs := by
  by_cases h1 : a.toNat ≤ 0x7F
  · obtain ⟨c, hc⟩ := exists_char_one h1
    exact ⟨c, as, by rw [hc]; rfl⟩
  by_cases hbad : a.toNat < 0xC2 ∨ 0xF4 < a.toNat
  · rw [scan_start_bad (by omega)] at h
    exact absurd List.mem_cons_self h
  rw [scan, scanByte] at h
  by_cases h2 : a.toNat ≤ 0xDF
  · rw [lead_two (by omega) h2, List.nil_append] at h
    obtain ⟨b, bs, rfl, hlo, hhi, _⟩ := scan_inside_cons h
    obtain ⟨c, hc⟩ := exists_char_two (a := a) (by omega) h2 ⟨hlo, hhi⟩
    exact ⟨c, bs, by rw [hc]; rfl⟩
  by_cases h3 : a.toNat ≤ 0xEF
  · obtain ⟨low, high, hl, hr⟩ := lead_three (n := a.toNat) (by omega) h3
    rw [hl, List.nil_append] at h
    obtain ⟨b, bs, rfl, hlo, hhi, hrest⟩ := scan_inside_cons h
    obtain ⟨d, ds, rfl, hlo', hhi', _⟩ := scan_inside_cons (hrest (by decide))
    obtain ⟨c, hc⟩ := exists_char_three (a := a) (by omega) h3 ((hr _).mp ⟨hlo, hhi⟩) ⟨hlo', hhi'⟩
    exact ⟨c, ds, by rw [hc]; rfl⟩
  · obtain ⟨low, high, hl, hr⟩ := lead_four (n := a.toNat) (by omega) (by omega)
    rw [hl, List.nil_append] at h
    obtain ⟨b, bs, rfl, hlo, hhi, hrest⟩ := scan_inside_cons h
    obtain ⟨d, ds, rfl, hlo', hhi', hrest'⟩ := scan_inside_cons (hrest (by decide))
    obtain ⟨e, es, rfl, hlo'', hhi'', _⟩ := scan_inside_cons (hrest' (by decide))
    obtain ⟨c, hc⟩ := exists_char_four (a := a) (by omega) (by omega) ((hr _).mp ⟨hlo, hhi⟩)
      ⟨hlo', hhi'⟩ ⟨hlo'', hhi''⟩
    exact ⟨c, es, by rw [hc]; rfl⟩

/-- A scan without ill-formed pieces reads an encoded text. -/
theorem scan_sound {as : Bytes} (h : none ∉ scan .start as) : ∃ cs, as = encode cs := by
  have main : ∀ n (as : Bytes), as.length = n → none ∉ scan .start as → ∃ cs, as = encode cs := by
    intro n
    induction n using Nat.strong_induction_on with
    | h n ih =>
      intro as hlen hscan
      cases as with
      | nil => exact ⟨[], rfl⟩
      | cons a as =>
        obtain ⟨c, bs, hcons⟩ := scan_cons_sound hscan
        rw [hcons, scan_encodeChar] at hscan
        have hpos : 0 < (String.utf8EncodeChar c).length :=
          List.length_pos_iff.mpr String.utf8EncodeChar_ne_nil
        have hbs : bs.length < n := by
          have := congrArg List.length hcons
          rw [List.length_append] at this
          omega
        obtain ⟨cs, hcs⟩ := ih _ hbs bs rfl (fun hm => hscan (List.mem_cons_of_mem _ hm))
        exact ⟨c :: cs, by rw [hcons, hcs]; rfl⟩
  exact main _ as rfl h

end Soundness

theorem scan_encode_all (cs : Text) : scan .start (encode cs) = cs.map some := by
  have := scan_encode cs []
  rwa [List.append_nil, scan, List.append_nil] at this

@[simp] theorem decode_encode (cs : Text) : decode (encode cs) = some cs := by
  rw [decode, scan_encode_all, if_neg (by simp), List.filterMap_map]
  exact congrArg some (List.filterMap_some)

@[simp] theorem decodeLossy_encode (cs : Text) : decodeLossy (encode cs) = cs := by
  rw [decodeLossy, scan_encode_all, List.map_map]
  exact List.map_id _

/-- Strict decoding accepts exactly the encoded texts. -/
theorem decode_eq_some_iff {bs : Bytes} {cs : Text} : decode bs = some cs ↔ bs = encode cs := by
  constructor
  · intro h
    have hnone : none ∉ scan .start bs := by
      intro hm
      rw [decode, if_pos hm] at h
      cases h
    obtain ⟨ds, rfl⟩ := scan_sound hnone
    rw [decode_encode] at h
    rw [Option.some.inj h]
  · rintro rfl
    exact decode_encode cs

theorem decode_append {as bs : Bytes} {cs : Text} (h : decode as = some cs) :
    decode (as ++ bs) = (decode bs).map (cs ++ ·) := by
  rw [decode_eq_some_iff.mp h]
  simp only [decode, scan_encode, List.mem_append, List.filterMap_append]
  have hnone : none ∉ cs.map some := by simp
  by_cases hb : none ∈ scan .start bs
  · simp [hb]
  · simp [hb]

theorem prefix_of_encode {as bs : Text} (h : encode as <+: encode bs) : as <+: bs := by
  obtain ⟨rest, hr⟩ := h
  have := congrArg decode hr
  rw [decode_append (decode_encode as), decode_encode, Option.map_eq_some_iff] at this
  obtain ⟨cs, _, hcs⟩ := this
  exact ⟨cs, hcs⟩

section Ascii

theorem mem_encodeChar_ascii {c : Char} {x : UInt8} (hx : x.toNat ≤ 0x7F)
    (h : x ∈ String.utf8EncodeChar c) : c.toNat = x.toNat := by
  have hv := toNat_valid c
  by_cases h1 : c.toNat ≤ 0x7F
  · rw [encodeChar_one h1, List.mem_singleton] at h
    subst h
    rw [UInt8.toNat_ofNat']
    omega
  · exfalso
    by_cases h2 : c.toNat ≤ 0x7FF
    · rw [encodeChar_two (by omega) h2] at h
      simp only [List.mem_cons, List.not_mem_nil, or_false] at h
      rcases h with rfl | rfl <;> rw [UInt8.toNat_ofNat'] at hx <;> omega
    by_cases h3 : c.toNat ≤ 0xFFFF
    · rw [encodeChar_three (by omega) h3] at h
      simp only [List.mem_cons, List.not_mem_nil, or_false] at h
      rcases h with rfl | rfl | rfl <;> rw [UInt8.toNat_ofNat'] at hx <;> omega
    · rw [encodeChar_four (by omega)] at h
      simp only [List.mem_cons, List.not_mem_nil, or_false] at h
      rcases h with rfl | rfl | rfl | rfl <;> rw [UInt8.toNat_ofNat'] at hx <;> omega

/-- An ASCII byte occurs in the encoding exactly where its character occurs in the text. -/
theorem mem_encode_ascii {c : Char} (hc : c.toNat ≤ 0x7F) (cs : Text) :
    UInt8.ofNat c.toNat ∈ encode cs ↔ c ∈ cs := by
  have hx : (UInt8.ofNat c.toNat).toNat = c.toNat := by rw [UInt8.toNat_ofNat']; omega
  rw [encode, List.mem_flatMap]
  constructor
  · rintro ⟨d, hd, hm⟩
    have he := mem_encodeChar_ascii (by omega) hm
    have : d = c := by rw [← Char.ofNat_toNat d, he, hx, Char.ofNat_toNat]
    exact this ▸ hd
  · intro hm
    exact ⟨c, hm, by rw [encodeChar_one hc]; exact List.mem_singleton_self _⟩

end Ascii

end Utf8Text
