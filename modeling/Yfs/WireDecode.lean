/-
Unmarshalling bytes that nobody marshalled.

Whatever is in the buffer, a read of numbers, strings and vectors stays inside of it, and if
no error is flagged the values that were read are exactly what the bytes say: marshalling
them gives the bytes again. A truth value and a map are not among these types, since other
bytes than their own are read as one.

The test in `unmarshall::rawbytes` adds a length from the buffer to the head in `unsigned`
arithmetic. A length close to `2^32` makes the sum wrap around and pass the test. Then the
bytes of the string are taken from behind the end of the buffer, and the head goes back.
Reads in which no such length occurs are sound, and no others are (`decode_sound_iff`).
-/
import Yfs.WireRoundTrip

set_option autoImplicit false

namespace Yfs.WireDecode

open Bytes Yfs.Marshall Yfs.WireTypes Yfs.WireRoundTrip

/-! ## Where the test does not wrap around -/

def fitsLoop {C : Type} (get : unmarshall → unmarshall × C) (fits : unmarshall → Bool) :
    ℕ → unmarshall → Bool
  | 0, _ => true
  | n + 1, u => fits u && fitsLoop get fits n (get u).1

/-- No string that is read at `u` has a length at which `_ind + n` wraps around. -/
def Ty.fits : {c : Bool} → Ty c → unmarshall → Bool
  | _, .string, u =>
    let (u, n) := getUInt u
    !u.ok || decide (u.ind + n.toNat < 2 ^ 32)
  | _, .vector t, u =>
    let (u, n) := getUInt u
    fitsLoop t.get (Ty.fits t) n.toNat u
  | _, _, _ => true

def fitsAll : List (Ty false) → unmarshall → Bool
  | [], _ => true
  | t :: ts, u => Ty.fits t u && fitsAll ts (t.get u).1

/-- Numbers, strings and vectors of these. -/
def Ty.exact : {c : Bool} → Ty c → Bool
  | _, .char => true
  | _, .uchar => true
  | _, .short => true
  | _, .ushort => true
  | _, .int => true
  | _, .uint => true
  | _, .ulonglong => true
  | _, .string => true
  | _, .vector t => Ty.exact t
  | _, _ => false

/-! ## One read -/

/-- The head is inside of the buffer, and so is everything that was read. -/
structure Bounded (u : unmarshall) : Prop where
  nonneg : 0 ≤ u.ind
  le : u.ind ≤ u.sz
  small : u.sz < 2 ^ 31
  reads : ∀ r ∈ u.reads, 0 ≤ r.1 ∧ r.1 + r.2 ≤ u.sz

/-- `u'` is what a read of something with the bytes `bs` makes of `u`. -/
structure Decoded (u u' : unmarshall) (bs : List UInt8) : Prop where
  buf : u'.buf = u.buf
  sz : u'.sz = u.sz
  bounded : Bounded u'
  ok : u'.ok = true → u.ok = true ∧ u'.ind = u.ind + bs.length ∧ slice u.buf u.ind bs.length = bs

variable {u u' u'' : unmarshall} {bs cs : List UInt8}

theorem Decoded.refl (h : Bounded u) : Decoded u u [] where
  buf := rfl
  sz := rfl
  bounded := h
  ok hok := ⟨hok, (Int.add_zero _).symm, rfl⟩

/-- Two reads in a row decode the bytes of both, in order. -/
theorem Decoded.trans (h : Decoded u u' bs) (h' : Decoded u' u'' cs) :
    Decoded u u'' (bs ++ cs) where
  buf := h'.buf.trans h.buf
  sz := h'.sz.trans h.sz
  bounded := h'.bounded
  ok hok := by
    obtain ⟨hok', hind', hbytes'⟩ := h'.ok hok
    obtain ⟨hok, hind, hbytes⟩ := h.ok hok'
    refine ⟨hok, ?_, ?_⟩
    · rw [hind', hind, List.length_append]
      omega
    · rw [List.length_append, slice_add, hbytes, ← hind, ← h.buf, hbytes']

/-- An error was flagged. -/
theorem Decoded.failed (h : Decoded u u' bs) (hok : u'.ok = false) (cs : List UInt8) :
    Decoded u u' cs where
  buf := h.buf
  sz := h.sz
  bounded := h.bounded
  ok hok' := by
    rw [hok] at hok'
    cases hok'

/-- A failed read promises nothing about the bytes. -/
theorem Decoded.not_ok (h : Bounded u) (cs : List UInt8) : Decoded u { u with ok := false } cs where
  buf := rfl
  sz := rfl
  bounded := ⟨h.nonneg, h.le, h.small, h.reads⟩
  ok := nofun

/-- The head moves over bytes of the buffer. -/
theorem Decoded.look (h : Bounded u) {n : ℕ} (hn : u.ind + n ≤ u.sz) :
    Decoded u { u.look n with ind := u.ind + n } (slice u.buf u.ind n) where
  buf := rfl
  sz := rfl
  bounded := by
    have h0 := h.nonneg
    refine ⟨show 0 ≤ u.ind + n by omega, hn, h.small, ?_⟩
    intro r hr
    rcases List.mem_cons.mp hr with rfl | hr
    · exact ⟨h0, hn⟩
    · exact h.reads r hr
  ok hok := by
    rw [length_slice]
    exact ⟨hok, rfl, rfl⟩

/-- `get` reads what `enc` writes. -/
def Sound {α : Type} (get : unmarshall → unmarshall × α) (fits : unmarshall → Bool)
    (enc : α → List UInt8) : Prop :=
  ∀ u, Bounded u → fits u = true → Decoded u (get u).1 (enc (get u).2)

/-! ## Numbers -/

/-- A byte is widened as a signed `char`, but it is the byte of the buffer. -/
theorem rawbyte_decoded (h : Bounded u) :
    ∃ b : UInt8, u.rawbyte.2 = b.toInt8.toInt32.toUInt32 ∧ Decoded u u.rawbyte.1 [b] := by
  unfold unmarshall.rawbyte
  split
  · exact ⟨0, rfl, .not_ok h _⟩
  · next hlt =>
    have hone := Decoded.look (n := 1) h (by omega)
    exact ⟨u.buf u.ind, rfl, hone⟩

theorem getUChar_decoded (h : Bounded u) : Decoded u (getUChar u).1 [(getUChar u).2] := by
  obtain ⟨b, hb, hu⟩ := rawbyte_decoded h
  have hval : (getUChar u).2 = b := by
    simp only [getUChar, hb, toUInt8_signExtend]
  rw [hval]
  exact hu

/-- A `char` is read as an `unsigned char`. -/
theorem getChar_eq (u : unmarshall) : getChar u = ((getUChar u).1, (getUChar u).2.toInt8) := rfl

theorem getUShort_decoded (h : Bounded u) : Decoded u (getUShort u).1 (be16 (getUShort u).2) := by
  obtain ⟨a, ha, hu₁⟩ := rawbyte_decoded h
  obtain ⟨b, hb, hu₂⟩ := rawbyte_decoded hu₁.bounded
  have hval : (getUShort u).2 = ofBe16 a b := by
    simp only [getUShort, ha, hb, signExtend_and, toUInt16_or, ofBe16_eq]
  rw [hval, be16_ofBe16]
  exact hu₁.trans hu₂

theorem getUInt_decoded (h : Bounded u) : Decoded u (getUInt u).1 (be32 (getUInt u).2) := by
  obtain ⟨a, ha, hu₁⟩ := rawbyte_decoded h
  obtain ⟨b, hb, hu₂⟩ := rawbyte_decoded hu₁.bounded
  obtain ⟨c, hc, hu₃⟩ := rawbyte_decoded hu₂.bounded
  obtain ⟨d, hd, hu₄⟩ := rawbyte_decoded hu₃.bounded
  have hval : (getUInt u).2 = ofBe32 a b c d := by
    simp only [getUInt, ha, hb, hc, hd, signExtend_and]
    rfl
  rw [hval, be32_ofBe32]
  exact ((hu₁.trans hu₂).trans hu₃).trans hu₄

/-- Two words, the high one first. -/
theorem getULongLong_eq (u : unmarshall) : getULongLong u
    = ((getUInt (getUInt u).1).1, ofWords (getUInt u).2 (getUInt (getUInt u).1).2) := by
  simp only [getULongLong, ofWords]

theorem getULongLong_decoded (h : Bounded u) :
    Decoded u (getULongLong u).1 (encULongLong (getULongLong u).2) := by
  have hh := getUInt_decoded h
  have hl := getUInt_decoded hh.bounded
  obtain ⟨hhigh, hlow⟩ := words_ofWords (getUInt u).2 (getUInt (getUInt u).1).2
  rw [getULongLong_eq, encULongLong, hhigh, hlow]
  exact hh.trans hl

/-! ## Strings -/

/-- The test of `rawbytes`, where it does not wrap around. -/
theorem rawbytes_test (h : Bounded u) {n : UInt32} (hn : u.ind + n.toNat < 2 ^ 32) :
    toUnsigned (u.ind + n.toNat) > toUnsigned u.sz ↔ u.ind + n.toNat > u.sz := by
  have h0 := h.nonneg
  have hle := h.le
  have hsmall := h.small
  rw [toUnsigned_of_lt (by omega) hn, toUnsigned_of_lt (by omega) (by omega)]

/-- Either the bytes are missing and the read fails, or it returns exactly them. The bound
excludes that `_ind+n` wraps, which the check of the source would miss. -/
theorem rawbytes_decoded (h : Bounded u) (s : List UInt8) {n : UInt32}
    (hn : u.ind + n.toNat < 2 ^ 32) :
    (u.rawbytes s n).1.ok = false ∧ Decoded u (u.rawbytes s n).1 []
      ∨ (u.rawbytes s n).2.length = n.toNat
        ∧ Decoded u (u.rawbytes s n).1 (u.rawbytes s n).2 := by
  have h0 := h.nonneg
  have hsmall := h.small
  unfold unmarshall.rawbytes
  split
  · exact .inl ⟨rfl, .not_ok h _⟩
  · next hfits =>
    rw [rawbytes_test h hn] at hfits
    have hlook := Decoded.look (n := n.toNat) h (by omega)
    rw [toInt_of_lt (by omega) (by omega)]
    exact .inr ⟨length_slice .., hlook⟩

theorem getString_decoded (h : Bounded u) (s : List UInt8)
    (hfits : (getUInt u).1.ok = true → (getUInt u).1.ind + (getUInt u).2.toNat < 2 ^ 32) :
    Decoded u (getString u s).1 (encString (getString u s).2) := by
  have hlen := getUInt_decoded h
  unfold getString
  simp only
  by_cases hok : (getUInt u).1.ok = true
  · rw [if_pos hok]
    rcases rawbytes_decoded hlen.bounded s (hfits hok) with ⟨hfail, hu⟩ | ⟨hsize, hu⟩
    · exact (hlen.trans hu).failed hfail _
    · rw [encString, hsize, UInt32.ofNat_toNat]
      exact hlen.trans hu
  · rw [if_neg hok]
    exact hlen.failed (Bool.eq_false_of_not_eq_true hok) _

/-- A length beyond the end of the buffer is rejected. -/
theorem getString_rejects (h : Bounded u) (s : List UInt8)
    (hfits : (getUInt u).1.ok = true → (getUInt u).1.ind + (getUInt u).2.toNat < 2 ^ 32)
    (hlong : u.sz < (getUInt u).1.ind + (getUInt u).2.toNat) : (getString u s).1.ok = false := by
  have hlen := getUInt_decoded h
  unfold getString
  simp only
  by_cases hok : (getUInt u).1.ok = true
  · rw [if_pos hok, unmarshall.rawbytes, if_pos]
    rw [rawbytes_test hlen.bounded (hfits hok), hlen.sz]
    exact hlong
  · rw [if_neg hok]
    exact Bool.eq_false_of_not_eq_true hok

/-! ## Vectors -/

/-- Induction on the number of elements still to be read. -/
theorem readLoop_decoded {C : Type} {get : unmarshall → unmarshall × C} {fits : unmarshall → Bool}
    {enc : C → List UInt8} (h : Sound get fits enc) (n : ℕ) (hu : Bounded u) (v : List C)
    (hfits : fitsLoop get fits n u = true) :
    ∃ w, (readLoop get (fun v z => v ++ [z]) n u v).2 = v ++ w ∧ w.length = n
      ∧ Decoded u (readLoop get (fun v z => v ++ [z]) n u v).1 (w.flatMap enc) := by
  induction n generalizing u v with
  | zero => exact ⟨[], (List.append_nil v).symm, rfl, .refl hu⟩
  | succ n ih =>
    rw [fitsLoop, Bool.and_eq_true] at hfits
    have hone := h u hu hfits.1
    obtain ⟨w, hw, hlen, hrest⟩ := ih hone.bounded (v ++ [(get u).2]) hfits.2
    refine ⟨(get u).2 :: w, ?_, congrArg _ hlen, ?_⟩
    · rw [List.append_cons]
      exact hw
    · rw [List.flatMap_cons]
      exact hone.trans hrest

theorem getVector_decoded {C : Type} {get : unmarshall → unmarshall × C}
    {fits : unmarshall → Bool} {enc : C → List UInt8} (h : Sound get fits enc) (hu : Bounded u)
    (hfits : fitsLoop get fits (getUInt u).2.toNat (getUInt u).1 = true) :
    Decoded u (getVector get u).1 (encVector enc (getVector get u).2) := by
  have hlen := getUInt_decoded hu
  obtain ⟨w, hw, hcount, hrest⟩ := readLoop_decoded h _ hlen.bounded [] hfits
  have hval : (getVector get u).2 = w := hw
  rw [hval, encVector, hcount, UInt32.ofNat_toNat]
  exact hlen.trans hrest

/-! ## Every read -/

/-- Numbers, strings and vectors decode soundly. Induction on the type; a vector reads its
length first and then its elements in a loop. -/
theorem Ty.sound {c : Bool} (t : Ty c) (ht : Ty.exact t = true) :
    Sound t.get (Ty.fits t) t.encode := by
  induction t with
  | char =>
    intro u hu _
    have h := getUChar_decoded hu
    show Decoded u (getChar u).1 [(getChar u).2.toUInt8]
    rw [getChar_eq]
    exact h
  | uchar => exact fun u hu _ => getUChar_decoded hu
  | short =>
    intro u hu _
    have h := getUShort_decoded hu
    show Decoded u (getShort u).1 (be16 (getShort u).2.toUInt16)
    rw [getShort_eq]
    exact h
  | ushort => exact fun u hu _ => getUShort_decoded hu
  | int =>
    intro u hu _
    have h := getUInt_decoded hu
    exact h
  | uint => exact fun u hu _ => getUInt_decoded hu
  | ulonglong => exact fun u hu _ => getULongLong_decoded hu
  | string =>
    intro u hu hfits
    refine getString_decoded hu [] fun hok => ?_
    simp only [Ty.fits, hok, Bool.not_true, Bool.false_or, decide_eq_true_eq] at hfits
    exact hfits
  | vector t ih => exact fun u hu hfits => getVector_decoded (ih ht) hu hfits
  | bool => cases ht
  | map k t ihk iht => cases ht
  | prop_t => cases ht
  | preparearg => cases ht
  | prepareres => cases ht
  | acceptarg => cases ht
  | decidearg => cases ht
  | attr => cases ht
  | viewstamp => cases ht
  | transferres => cases ht
  | joinres => cases ht

theorem getAll_decoded {ts : List (Ty false)} (hts : ∀ t ∈ ts, Ty.exact t = true) (hu : Bounded u)
    (hfits : fitsAll ts u = true) : Decoded u (getAll ts u).1 (encodeAll (getAll ts u).2) := by
  induction ts generalizing u with
  | nil => exact .refl hu
  | cons t ts ih =>
    rw [fitsAll, Bool.and_eq_true] at hfits
    have hone := Ty.sound t (hts t List.mem_cons_self) u hu hfits.1
    have hrest := ih (fun t ht => hts t (List.mem_cons_of_mem _ ht)) hone.bounded hfits.2
    exact hone.trans hrest

/-! ## Lengths that wrap around -/

/-- What was looked at is not forgotten by later reads. -/
structure Grows (u u' : unmarshall) : Prop where
  sz : u'.sz = u.sz
  reads : ∀ r ∈ u.reads, r ∈ u'.reads

theorem Grows.refl (u : unmarshall) : Grows u u := ⟨rfl, fun _ hr => hr⟩

theorem Grows.trans (h : Grows u u') (h' : Grows u' u'') : Grows u u'' :=
  ⟨h'.sz.trans h.sz, fun r hr => h'.reads r (h.reads r hr)⟩

theorem grows_look (u : unmarshall) (n : ℕ) (ind : ℤ) : Grows u { u.look n with ind := ind } :=
  ⟨rfl, fun _ hr => List.mem_cons_of_mem _ hr⟩

theorem rawbyte_grows (u : unmarshall) : Grows u u.rawbyte.1 := by
  unfold unmarshall.rawbyte
  split
  · exact ⟨rfl, fun _ hr => hr⟩
  · exact grows_look u 1 _

theorem rawbytes_grows (u : unmarshall) (s : List UInt8) (n : UInt32) :
    Grows u (u.rawbytes s n).1 := by
  unfold unmarshall.rawbytes
  split
  · exact ⟨rfl, fun _ hr => hr⟩
  · exact grows_look u n.toNat _

theorem getUShort_grows (u : unmarshall) : Grows u (getUShort u).1 :=
  (rawbyte_grows _).trans (rawbyte_grows _)

theorem getUInt_grows (u : unmarshall) : Grows u (getUInt u).1 :=
  (((rawbyte_grows _).trans (rawbyte_grows _)).trans (rawbyte_grows _)).trans (rawbyte_grows _)

theorem getString_grows (u : unmarshall) (s : List UInt8) : Grows u (getString u s).1 := by
  unfold getString
  simp only
  split
  · exact (getUInt_grows u).trans (rawbytes_grows ..)
  · exact getUInt_grows u

theorem readLoop_grows {C δ : Type} {get : unmarshall → unmarshall × C}
    (h : ∀ u, Grows u (get u).1) (add : δ → C → δ) (n : ℕ) (u : unmarshall) (d : δ) :
    Grows u (readLoop get add n u d).1 := by
  induction n generalizing u d with
  | zero => exact .refl u
  | succ n ih => exact (h u).trans (ih _ _)

/-- No read changes the size of the buffer or forgets what was looked at. -/
theorem Ty.grows {c : Bool} (t : Ty c) (ht : Ty.exact t = true) (u : unmarshall) :
    Grows u (t.get u).1 := by
  induction t generalizing u with
  | char | uchar => exact rawbyte_grows u
  | short | ushort => exact getUShort_grows u
  | int | uint => exact getUInt_grows u
  | ulonglong => exact (getUInt_grows u).trans (getUInt_grows _)
  | string => exact getString_grows u []
  | vector t ih => exact (getUInt_grows u).trans (readLoop_grows (fun u => ih ht u) ..)
  | bool | map | prop_t | preparearg | prepareres | acceptarg | decidearg | attr | viewstamp
    | transferres | joinres => cases ht

theorem getAll_grows {ts : List (Ty false)} (hts : ∀ t ∈ ts, Ty.exact t = true)
    (u : unmarshall) : Grows u (getAll ts u).1 := by
  induction ts generalizing u with
  | nil => exact .refl u
  | cons t ts ih =>
    exact (Ty.grows t (hts t List.mem_cons_self) u).trans
      (ih (fun t ht => hts t (List.mem_cons_of_mem _ ht)) _)

/-- Something behind the end of the buffer was looked at. -/
def Exceeds (u : unmarshall) : Prop := ∃ r ∈ u.reads, u.sz < r.1 + r.2

/-- What was looked at behind the end stays looked at. -/
theorem Exceeds.grows (h : Exceeds u) (hgrows : Grows u u') : Exceeds u' := by
  obtain ⟨r, hr, hlt⟩ := h
  exact ⟨r, hgrows.reads r hr, by rw [hgrows.sz]; exact hlt⟩

/-- A sum that wraps around comes out below the head, so the test never fires: the string
is taken from behind the end, and no error is flagged. -/
theorem rawbytes_wraps (h : Bounded u) (s : List UInt8) {n : UInt32}
    (hn : 2 ^ 32 ≤ u.ind + n.toNat) :
    (u.rawbytes s n).1.ok = u.ok ∧ Exceeds (u.rawbytes s n).1 := by
  have h0 := h.nonneg
  have hle := h.le
  have hsmall := h.small
  have hlt := n.toNat_lt
  have htest : ¬ toUnsigned (u.ind + n.toNat) > toUnsigned u.sz := by
    unfold toUnsigned
    omega
  unfold unmarshall.rawbytes
  rw [if_neg htest]
  refine ⟨rfl, (u.ind, n.toNat), List.mem_cons_self, ?_⟩
  show u.sz < u.ind + n.toNat
  omega

theorem fits_string_eq_false {c : Bool} (h : Ty.fits (Ty.string (c := c)) u = false) :
    (getUInt u).1.ok = true ∧ 2 ^ 32 ≤ (getUInt u).1.ind + (getUInt u).2.toNat := by
  simp only [Ty.fits, Bool.or_eq_false_iff, Bool.not_eq_false', decide_eq_false_iff_not] at h
  exact ⟨h.1, by omega⟩

theorem getString_wraps {c : Bool} (hu : Bounded u) (s : List UInt8)
    (h : Ty.fits (Ty.string (c := c)) u = false) :
    (getString u s).1.ok = true ∧ Exceeds (getString u s).1 := by
  obtain ⟨hok, hwraps⟩ := fits_string_eq_false h
  have hraw := rawbytes_wraps (getUInt_decoded hu).bounded s hwraps
  unfold getString
  simp only [if_pos hok]
  exact ⟨hraw.1.trans hok, hraw.2⟩

theorem readLoop_exceeds {C : Type} {get : unmarshall → unmarshall × C} {fits : unmarshall → Bool}
    {enc : C → List UInt8} (h : Sound get fits enc) (hgrows : ∀ u, Grows u (get u).1)
    (hexceeds : ∀ u, Bounded u → fits u = false → Exceeds (get u).1) (n : ℕ) (hu : Bounded u)
    (v : List C) (hfits : fitsLoop get fits n u = false) :
    Exceeds (readLoop get (fun v z => v ++ [z]) n u v).1 := by
  induction n generalizing u v with
  | zero => cases hfits
  | succ n ih =>
    rw [fitsLoop, Bool.and_eq_false_iff] at hfits
    cases hone : fits u with
    | false => exact (hexceeds u hu hone).grows (readLoop_grows hgrows ..)
    | true => exact ih (h u hu hone).bounded _ (hfits.resolve_left (by rw [hone]; nofun))

/-- A string whose length wraps is taken from behind the end, at whatever depth of the type it
stands. Induction on the type. -/
theorem Ty.exceeds {c : Bool} (t : Ty c) (ht : Ty.exact t = true) (u : unmarshall)
    (hu : Bounded u) (hfits : Ty.fits t u = false) : Exceeds (t.get u).1 := by
  induction t generalizing u with
  | string => exact (getString_wraps hu [] hfits).2
  | vector t ih =>
    exact readLoop_exceeds (Ty.sound t ht) (Ty.grows t ht) (fun u hu hf => ih ht u hu hf) _
      (getUInt_decoded hu).bounded [] hfits
  | char | uchar | short | ushort | int | uint | ulonglong => cases hfits
  | bool | map | prop_t | preparearg | prepareres | acceptarg | decidearg | attr | viewstamp
    | transferres | joinres => cases ht

/-- **If a length wraps around**, the first that does so takes the reader out of the buffer,
and what follows cannot undo it. -/
theorem getAll_exceeds {ts : List (Ty false)} (hts : ∀ t ∈ ts, Ty.exact t = true)
    (hu : Bounded u) (hfits : fitsAll ts u = false) : Exceeds (getAll ts u).1 := by
  induction ts generalizing u with
  | nil => cases hfits
  | cons t ts ih =>
    have ht := hts t List.mem_cons_self
    have hts' : ∀ t ∈ ts, Ty.exact t = true := fun t ht => hts t (List.mem_cons_of_mem _ ht)
    rw [fitsAll, Bool.and_eq_false_iff] at hfits
    cases hone : Ty.fits t u with
    | false => exact (Ty.exceeds t ht u hu hone).grows (getAll_grows hts' _)
    | true =>
      exact ih hts' (Ty.sound t ht u hu hone).bounded
        (hfits.resolve_left (by rw [hone]; nofun))

/-! ## Sound reads -/

/-- What is marshalled from the start is the bytes of the values. -/
theorem putAll_content (junk : ℤ → UInt8) {vs : List Value}
    (hlen : RPC_HEADER_SZ + (encodeAll vs).length < 2 ^ 30) :
    ∃ m, putAll (.new junk) vs = some m ∧ m.get_content = encodeAll vs := by
  obtain ⟨m, hput, happ⟩ := putAll_puts (.new junk) vs (room_new junk) hlen
  refine ⟨m, hput, ?_⟩
  have hind : m.ind = RPC_HEADER_SZ + (encodeAll vs).length := happ.ind
  have hcount : (m.ind - RPC_HEADER_SZ).toNat = (encodeAll vs).length := by omega
  rw [marshall.get_content, hcount, happ.buf]
  exact slice_write ..

/-- A sequence of reads is sound: it looks at bytes of the buffer only and leaves the head
inside, and if no error is flagged, marshalling the values gives the bytes consumed. -/
structure SoundReads (ts : List (Ty false)) (u : unmarshall) : Prop where
  inside : ∀ r ∈ (getAll ts u).1.reads, 0 ≤ r.1 ∧ r.1 + r.2 ≤ u.sz
  head : 0 ≤ (getAll ts u).1.ind ∧ (getAll ts u).1.ind ≤ u.sz
  again : (getAll ts u).1.ok = true → ∀ junk, ∃ m, putAll (.new junk) (getAll ts u).2 = some m
    ∧ m.get_content = slice u.buf u.ind ((getAll ts u).1.ind - u.ind).toNat

theorem soundReads_of_fits {ts : List (Ty false)} (hts : ∀ t ∈ ts, Ty.exact t = true)
    (hu : Bounded u) (hsz : u.sz ≤ MAX_PDU) (hfits : fitsAll ts u = true) : SoundReads ts u := by
  have hmax : MAX_PDU = 10485760 := rfl
  have h := getAll_decoded hts hu hfits
  have hb := h.bounded
  refine ⟨h.sz ▸ hb.reads, ⟨hb.nonneg, h.sz ▸ hb.le⟩, fun hok junk => ?_⟩
  obtain ⟨-, hind, hbytes⟩ := h.ok hok
  have hend := hb.le
  have h0 := hu.nonneg
  have hhead : RPC_HEADER_SZ = 24 := rfl
  rw [h.sz] at hend
  have hroom : RPC_HEADER_SZ + (encodeAll (getAll ts u).2).length < 2 ^ 30 := by omega
  obtain ⟨m, hput, hcontent⟩ := putAll_content junk hroom
  refine ⟨m, hput, ?_⟩
  have hcount : ((getAll ts u).1.ind - u.ind).toNat = (encodeAll (getAll ts u).2).length := by
    omega
  rw [hcontent, hcount, hbytes]

/-- **Decoding any bytes is sound iff no length wraps around** in the test of `rawbytes`. A
string that is longer than what is left behind sound reads is rejected iff its own length
does not wrap around. -/
theorem decode_sound_iff {ts : List (Ty false)} (hts : ∀ t ∈ ts, Ty.exact t = true)
    {u : unmarshall} (hnonneg : 0 ≤ u.ind) (hle : u.ind ≤ u.sz) (hsz : u.sz ≤ MAX_PDU)
    (hreads : u.reads = []) :
    (SoundReads ts u ↔ fitsAll ts u = true)
      ∧ (fitsAll ts u = true → ∀ s,
        ((u.sz < (getUInt (getAll ts u).1).1.ind + (getUInt (getAll ts u).1).2.toNat →
            (getString (getAll ts u).1 s).1.ok = false)
          ↔ Ty.fits (Ty.string (c := false)) (getAll ts u).1 = true)) := by
  have hmax : MAX_PDU = 10485760 := rfl
  have hu : Bounded u := ⟨hnonneg, hle, by omega, by rw [hreads]; nofun⟩
  refine ⟨⟨fun hsound => ?_, soundReads_of_fits hts hu hsz⟩, fun hfits s => ?_⟩
  · by_contra hnot
    obtain ⟨r, hr, hlt⟩ := getAll_exceeds hts hu (Bool.eq_false_of_not_eq_true hnot)
    have hinside := (hsound.inside r hr).2
    rw [(getAll_grows hts u).sz] at hlt
    omega
  · have h := getAll_decoded hts hu hfits
    constructor
    · intro hrejects
      by_contra hnot
      -- a length that wraps around is longer than anything, and it is accepted
      have hwraps := Bool.eq_false_of_not_eq_true hnot
      have hlong := (fits_string_eq_false hwraps).2
      have hok := (getString_wraps h.bounded s hwraps).1
      rw [hrejects (by omega)] at hok
      cases hok
    · intro hstring hlong
      refine getString_rejects h.bounded s (fun hok => ?_) (by rw [h.sz]; exact hlong)
      simp only [Ty.fits, hok, Bool.not_true, Bool.false_or, decide_eq_true_eq] at hstring
      exact hstring

/-- A buffer with these bytes. -/
def bufferOf (bs : List UInt8) : unmarshall := .new (write (fun _ => 0) 0 bs) bs.length

/-- One vector with the string `ab` in it, and a number. -/
def sampleBytes : List UInt8 := [0, 0, 0, 1, 0, 0, 0, 2, 0x61, 0x62, 0, 0, 0, 0x2a]

theorem decode_sound_iff_sample :
    (getAll [.vector .string, .uint] (bufferOf sampleBytes)).1.okdone = true
      ∧ ∀ junk, ∃ m, putAll (.new junk) (getAll [.vector .string, .uint] (bufferOf sampleBytes)).2
          = some m ∧ m.get_content = sampleBytes := by
  have hdone : (getAll [.vector .string, .uint] (bufferOf sampleBytes)).1.okdone = true := by decide
  refine ⟨hdone, ?_⟩
  obtain ⟨hok, hend⟩ := (Bool.and_eq_true ..).mp hdone
  have hexact : ∀ t ∈ ([.vector .string, .uint] : List (Ty false)), Ty.exact t = true := by decide
  have hsound := (decode_sound_iff hexact (u := bufferOf sampleBytes) (Int.le_refl 0)
    (Int.natCast_nonneg 14) (show (14 : ℤ) ≤ 10 * 2 ^ 20 by omega) rfl).1.mpr (by decide)
  have hconsumed := hsound.again hok
  rw [eq_of_beq hend] at hconsumed
  exact hconsumed

/-- **A length that wraps around.** The buffer holds four bytes, the length `2^32 - 4`. It is
accepted: that many bytes are read from behind the end, and the head is back at the start. -/
theorem string_length_wraps :
    (getUInt (bufferOf [0xff, 0xff, 0xff, 0xfc])).2.toNat = 2 ^ 32 - 4
      ∧ (bufferOf [0xff, 0xff, 0xff, 0xfc]).sz = 4
      ∧ (getAll [.string] (bufferOf [0xff, 0xff, 0xff, 0xfc])).1.ok = true
      ∧ (getAll [.string] (bufferOf [0xff, 0xff, 0xff, 0xfc])).1.ind = 0
      ∧ (4, 2 ^ 32 - 4) ∈ (getAll [.string] (bufferOf [0xff, 0xff, 0xff, 0xfc])).1.reads := by
  decide

end Yfs.WireDecode
