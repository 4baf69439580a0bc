/-
PDU framing is faithful.

The invariant follows the stream through the connection. The PDUs that were sent are those
that were accepted and others that are `pending`. The bytes of the pending ones lie, one
after the other, in three places: what the receiver has got of the first of them, what is on
the wire, and what the sender has not written of the last. Nothing is ever lost but what a
receiver that dies has got of a PDU it does not complete; so a connection of which everything
was read has everything accepted.
-/
import Yfs.Connection

set_option autoImplicit false

namespace Yfs.Framing

open Bytes Yfs.Marshall Yfs.Connection

/-! ## Frames -/

/-- A PDU as it is sent: the size in its first four bytes. -/
def frame (p : Pdu) : List UInt8 := sizeBytes p.sz ++ slice p.buf 4 (p.sz - 4).toNat

/-- The sizes that the RPC library sends. -/
def Sized (p : Pdu) : Prop := RPC_HEADER_SZ ≤ p.sz ∧ p.sz ≤ MAX_PDU

instance (p : Pdu) : Decidable (Sized p) := inferInstanceAs (Decidable (_ ∧ _))

variable {p : Pdu}

theorem length_sizeBytes (sz : ℤ) : (sizeBytes sz).length = 4 := rfl

theorem Sized.bounds (h : Sized p) : 24 ≤ p.sz ∧ p.sz ≤ 10485760 := h

theorem length_frame (h : Sized p) : ((frame p).length : ℤ) = p.sz := by
  have hb := h.bounds
  rw [frame, List.length_append, length_sizeBytes, length_slice]
  omega

/-- The stamped buffer holds the frame. -/
theorem slice_stamp (h : Sized p) : slice (stamp p.buf p.sz) 0 p.sz.toNat = frame p := by
  have hb := h.bounds
  have hlen : p.sz.toNat = 4 + (p.sz - 4).toNat := by omega
  have hsize := length_sizeBytes p.sz
  have hfirst : slice (stamp p.buf p.sz) 0 4 = sizeBytes p.sz :=
    slice_write p.buf 0 (sizeBytes p.sz)
  rw [hlen, slice_add, hfirst]
  exact congrArg _ (slice_write_of_disjoint (.inr (by rw [hsize])))

theorem stamp_stamp (b : ℤ → UInt8) (sz : ℤ) : stamp (stamp b sz) sz = stamp b sz := by
  funext i
  unfold stamp write
  split
  · by_cases hi : (i - 0).toNat < (sizeBytes sz).length
    · rw [List.getD_eq_getElem _ _ hi, List.getD_eq_getElem _ _ hi]
    · rw [List.getD_eq_default _ _ (by omega)]
  · rfl

/-- The receiver reads the size that was stamped. -/
theorem size_of_bytes {a b c d : UInt8} (h : Sized p) (hbytes : [a, b, c, d] = sizeBytes p.sz) :
    toInt (ofBe32 a b c d).toNat = p.sz := by
  have hb := h.bounds
  simp only [sizeBytes, be32, List.cons.injEq, and_true] at hbytes
  obtain ⟨rfl, rfl, rfl, rfl⟩ := hbytes
  have hu : toUnsigned p.sz = p.sz := toUnsigned_of_lt (by omega) (by omega)
  have hlt : p.sz.toNat < 2 ^ 32 := by omega
  have hnat : (UInt32.ofNat p.sz.toNat).toNat = p.sz.toNat := UInt32.toNat_ofNat_of_lt' hlt
  rw [ofBe32_be32, hu, hnat, toInt_of_lt (by omega) (by omega)]
  omega

/-! ## Two ways to cut a stream -/

section Lists

variable {α : Type*} {as bs cs ds : List α}

/-- A piece that is not longer than the first part is a piece of it. -/
theorem split_of_length_le (h : as ++ bs = cs ++ ds) (hlen : as.length ≤ cs.length) :
    ∃ ms, cs = as ++ ms ∧ bs = ms ++ ds := by
  rcases List.append_eq_append_iff.mp h with ⟨ms, rfl, rfl⟩ | ⟨ms, rfl, rfl⟩
  · exact ⟨ms, rfl, rfl⟩
  · have hnil : ms = [] := by
      rw [List.length_append] at hlen
      exact List.length_eq_zero_iff.mp (by omega)
    subst hnil
    exact ⟨[], by simp, rfl⟩

end Lists

/-! ## The invariant -/

/-- What the sender has still to write of the PDU it sends. -/
inductive WriterAt (wpdu : charbuf) (wdead : Bool) (unwritten : List UInt8) : Prop
  | idle : wpdu = .empty → unwritten = [] → WriterAt wpdu wdead unwritten
  | busy (b : ℤ → UInt8) : wpdu.buf = some b → 0 ≤ wpdu.solong → wpdu.solong ≤ wpdu.sz →
      (wpdu.solong ≠ 0 → stamp b wpdu.sz = b) →
      unwritten = slice (stamp b wpdu.sz) wpdu.solong (wpdu.sz - wpdu.solong).toNat →
      WriterAt wpdu wdead unwritten
  | dead : wdead = true → WriterAt wpdu wdead unwritten

/-- What the receiver has got of the first PDU that is pending. -/
inductive ReaderAt (rpdu : charbuf) (rdead : Bool) (pending : List (List UInt8))
    (got : List UInt8) : Prop
  | idle : rpdu = .empty → (∀ f tl, pending = f :: tl → got.length < f.length) →
      (rdead = false → got = []) → ReaderAt rpdu rdead pending got
  | busy (b : ℤ → UInt8) (f : List UInt8) (tl : List (List UInt8)) : rpdu.buf = some b →
      pending = f :: tl → rpdu.sz = f.length → 4 ≤ rpdu.solong → rpdu.solong ≤ rpdu.sz →
      got = slice b 0 rpdu.solong.toNat → ReaderAt rpdu rdead pending got

structure Inv (l : Link) (pending : List (List UInt8)) (got unwritten : List UInt8) : Prop where
  sized : ∀ p ∈ l.sent, Sized p
  frames : l.sent.map frame = l.accepted ++ pending
  stream : got ++ l.wire ++ unwritten = pending.flatten
  read : l.delivered = l.accepted.flatten ++ got
  writer : WriterAt l.wpdu l.wdead unwritten
  reader : ReaderAt l.rpdu l.rdead pending got

variable {l l' : Link} {pending : List (List UInt8)} {got unwritten : List UInt8}

theorem inv_start : Inv start [] [] [] where
  sized := nofun
  frames := rfl
  stream := rfl
  read := rfl
  writer := .idle rfl rfl
  reader := .idle rfl nofun fun _ => rfl

/-- A pending PDU is one that was sent. -/
theorem Inv.pending_frame (h : Inv l pending got unwritten) {f : List UInt8} (hf : f ∈ pending) :
    ∃ p, Sized p ∧ frame p = f := by
  have hmem : f ∈ l.sent.map frame := by
    rw [h.frames]
    exact List.mem_append_right _ hf
  obtain ⟨p, hp, rfl⟩ := List.mem_map.mp hmem
  exact ⟨p, h.sized p hp, rfl⟩

theorem Inv.pending_pos (h : Inv l pending got unwritten) {f : List UInt8} (hf : f ∈ pending) :
    24 ≤ f.length := by
  obtain ⟨p, hp, rfl⟩ := h.pending_frame hf
  have hlen := length_frame hp
  have hb := hp.bounds
  omega

/-! ## The sender -/

/-- A PDU of which everything is written. -/
theorem WriterAt.done {wpdu : charbuf} (h : WriterAt wpdu false unwritten)
    (hdone : wpdu.sz ≤ wpdu.solong) : unwritten = [] := by
  cases h with
  | idle _ hnil => exact hnil
  | busy b hb h0 hle hstamp hrest =>
    have hzero : (wpdu.sz - wpdu.solong).toNat = 0 := by omega
    rw [hrest, hzero]
    rfl
  | dead hd => cases hd

variable {succ : Bool} {w : Write}

/-- What `writepdu` does: it writes some bytes, perhaps none, or fails. -/
theorem writepdu_cases (hs : writepdu l w = some (l', succ)) :
    (l' = l ∧ succ = true)
      ∨ ∃ b b', l.wpdu.buf = some b ∧ b' = (if l.wpdu.solong = 0 then stamp b l.wpdu.sz else b)
        ∧ ((∃ n : ℕ, (l.wpdu.solong ≤ l.wpdu.sz → l.wpdu.solong + n ≤ l.wpdu.sz) ∧ succ = true
            ∧ l' = { l with
              wpdu := ⟨some b', l.wpdu.sz, l.wpdu.solong + n⟩
              wire := l.wire ++ slice b' l.wpdu.solong n })
          ∨ (succ = false ∧ l' = { l with wpdu := ⟨some b', 0, -1⟩ })) := by
  unfold writepdu at hs
  split at hs
  · cases hs
    exact .inl ⟨rfl, rfl⟩
  · obtain ⟨b, hb, hs⟩ := Option.bind_eq_some_iff.mp hs
    refine .inr ⟨b, _, hb, rfl, ?_⟩
    cases w with
    | accept n =>
      obtain ⟨hn, hs⟩ := Option.ite_none_right_eq_some.mp hs
      cases hs
      exact .inl ⟨n, fun _ => by omega, rfl, rfl⟩
    | eagain =>
      cases hs
      refine .inl ⟨0, fun hle => by omega, rfl, ?_⟩
      rw [slice_zero, List.append_nil, Int.natCast_zero, Int.add_zero]
    | error =>
      cases hs
      exact .inr ⟨rfl, rfl⟩

/-- **A call of `write()`** moves bytes to the wire, or fails for good. -/
theorem inv_writepdu (h : Inv l pending got unwritten) (hw : l.wdead = false)
    (hs : writepdu l w = some (l', succ)) :
    (succ = true ∧ l'.wdead = false ∧ ∃ unwritten', Inv l' pending got unwritten')
      ∨ (succ = false ∧ ∀ wpdu, Inv { l' with wdead := true, wpdu } pending got unwritten) := by
  rcases writepdu_cases hs with ⟨rfl, hsucc⟩ | ⟨b, b', hb, hb', ⟨n, hn, hsucc, rfl⟩ | ⟨hsucc, rfl⟩⟩
  · exact .inl ⟨hsucc, hw, unwritten, h⟩
  · refine .inl ⟨hsucc, hw, ?_⟩
    cases h.writer with
    | idle hidle =>
      rw [hidle] at hb
      cases hb
    | dead hd =>
      rw [hw] at hd
      cases hd
    | busy b₁ hb₁ h0 hle hstamp hrest =>
      rw [hb, Option.some.injEq] at hb₁
      subst hb₁
      have hend := hn hle
      have hstamped : b' = stamp b l.wpdu.sz := by
        rw [hb']
        split
        · rfl
        · next hne => exact (hstamp hne).symm
      have hagain : stamp b' l.wpdu.sz = b' := by rw [hstamped, stamp_stamp]
      have hcut : (l.wpdu.sz - l.wpdu.solong).toNat
          = n + (l.wpdu.sz - (l.wpdu.solong + n)).toNat := by omega
      rw [← hstamped, hcut, slice_add] at hrest
      refine ⟨_, h.sized, h.frames, ?_, h.read, .busy b' rfl ?_ hend (fun _ => hagain) rfl,
        h.reader⟩
      · show got ++ (l.wire ++ _) ++ slice (stamp b' l.wpdu.sz) (l.wpdu.solong + n) _ = _
        rw [hagain, ← h.stream, hrest]
        simp only [List.append_assoc]
      · show 0 ≤ l.wpdu.solong + n
        omega
  · exact .inr ⟨hsucc, fun wpdu => ⟨h.sized, h.frames, h.stream, h.read, .dead rfl, h.reader⟩⟩

/-- A PDU more is pending. -/
theorem ReaderAt.push {rpdu : charbuf} {rdead : Bool} (h : ReaderAt rpdu rdead pending got)
    (hnil : pending = [] → got = []) {f : List UInt8} (hf : 0 < f.length) :
    ReaderAt rpdu rdead (pending ++ [f]) got := by
  cases h with
  | idle hempty hlen halive =>
    refine .idle hempty (fun f' tl hcons => ?_) halive
    cases pending with
    | nil =>
      rw [List.nil_append, List.cons.injEq] at hcons
      rw [hnil rfl, ← hcons.1]
      exact hf
    | cons f₀ tl₀ =>
      rw [List.cons_append, List.cons.injEq] at hcons
      exact hlen f' tl₀ (by rw [hcons.1])
  | busy b f₀ tl hb hcons hsz h4 hle hgot =>
    exact .busy b f₀ (tl ++ [f]) hb (by rw [hcons, List.cons_append]) hsz h4 hle hgot

/-- A sender that sends nothing has written everything. -/
theorem Inv.unwritten_eq_nil (h : Inv l pending got unwritten) (hw : l.wdead = false)
    (hbuf : ¬ l.wpdu.buf.isSome = true) : unwritten = [] := by
  have hwriter := h.writer
  rw [hw] at hwriter
  cases hwriter with
  | idle _ hnil => exact hnil
  | busy b hb =>
    rw [hb] at hbuf
    exact absurd rfl hbuf
  | dead hd => cases hd

/-- One PDU more, of which nothing is written. -/
theorem Inv.push (h : Inv l pending got []) (hp : Sized p) :
    Inv { l with wpdu := ⟨some p.buf, p.sz, 0⟩, sent := l.sent ++ [p] } (pending ++ [frame p]) got
      (frame p) := by
  have hb := hp.bounds
  have hlen := length_frame hp
  have hstream := h.stream
  rw [List.append_nil] at hstream
  have hgot : pending = [] → got = [] := by
    rintro rfl
    exact (List.append_eq_nil_iff.mp hstream).1
  refine ⟨?_, ?_, ?_, h.read, .busy p.buf rfl (Int.le_refl 0) ?_ nofun ?_,
    h.reader.push hgot (by omega)⟩
  · intro q hq
    rcases List.mem_append.mp hq with hq | hq
    · exact h.sized q hq
    · exact List.mem_singleton.mp hq ▸ hp
  · show (l.sent ++ [p]).map frame = _
    rw [List.map_append, h.frames, List.append_assoc]
    rfl
  · show got ++ l.wire ++ frame p = _
    rw [hstream, List.flatten_append, List.flatten_singleton]
  · show 0 ≤ p.sz
    omega
  · rw [Int.sub_zero]
    exact (slice_stamp hp).symm

/-- **`send`** of one PDU more. -/
theorem inv_send (h : Inv l pending got unwritten) (hp : Sized p) (hs : send l p w = some l') :
    ∃ pending' unwritten', Inv l' pending' got unwritten' := by
  unfold send at hs
  split at hs
  · cases hs
    exact ⟨pending, unwritten, h⟩
  · next hw =>
    have hw := Bool.eq_false_of_not_eq_true hw
    split at hs
    · cases hs
    · next hbuf =>
      obtain ⟨⟨l₁, succ⟩, hwrite, rfl⟩ := Option.map_eq_some_iff.mp hs
      have hnil := h.unwritten_eq_nil hw hbuf
      subst hnil
      rcases inv_writepdu (h.push hp) hw hwrite with ⟨rfl, hw₁, u, hu⟩ | ⟨rfl, hu⟩
      · simp only [Bool.true_eq_false, if_false]
        split
        · next hdone =>
          have hwriter := hu.writer
          rw [hw₁] at hwriter
          have hnil := hwriter.done (Int.le_of_eq hdone.symm)
          exact ⟨_, u, hu.sized, hu.frames, hu.stream, hu.read, .idle rfl hnil, hu.reader⟩
        · exact ⟨_, u, hu⟩
      · exact ⟨_, _, hu .empty⟩

theorem inv_write_cb (h : Inv l pending got unwritten)
    (hs : write_cb l w = some l') : ∃ unwritten', Inv l' pending got unwritten' := by
  unfold write_cb at hs
  split at hs
  · cases hs
  · next hw =>
    have hw := Bool.eq_false_of_not_eq_true hw
    split at hs
    · cases hs
      exact ⟨unwritten, h⟩
    · obtain ⟨⟨l₁, succ⟩, hwrite, rfl⟩ := Option.map_eq_some_iff.mp hs
      rcases inv_writepdu h hw hwrite with ⟨rfl, -, u, hu⟩ | ⟨rfl, hu⟩
      · exact ⟨u, hu⟩
      · exact ⟨unwritten, hu l₁.wpdu⟩

theorem inv_wake (h : Inv l pending got unwritten) (hs : wake l = some l') :
    Inv l' pending got unwritten := by
  obtain ⟨⟨-, hcond⟩, hs⟩ := Option.ite_none_right_eq_some.mp hs
  cases hs
  refine ⟨h.sized, h.frames, h.stream, h.read, ?_, h.reader⟩
  cases hw : l.wdead with
  | true => exact .dead rfl
  | false =>
    have hwriter := h.writer
    rw [hw] at hwriter hcond
    have hend := hcond.resolve_left nofun
    refine .idle rfl ?_
    cases hwriter with
    | idle _ hnil => exact hnil
    | busy b hb h0 hle hstamp hrest =>
      exact WriterAt.done (.busy b hb h0 hle hstamp hrest) (by omega)
    | dead hd => cases hd

/-! ## The receiver -/

/-- What `read()` gives is the beginning of what is on the wire. -/
theorem take_cases {count : ℤ} {n : ℕ} {bs : List UInt8} (hs : take l count n = some (l', bs)) :
    ∃ rest, l.wire = bs ++ rest ∧ bs.length = n ∧ 0 < n ∧ (n : ℤ) ≤ count
      ∧ l' = { l with wire := rest, delivered := l.delivered ++ bs } := by
  obtain ⟨⟨h0, hcount, hlen⟩, hs⟩ := Option.ite_none_right_eq_some.mp hs
  cases hs
  refine ⟨l.wire.drop n, (List.take_append_drop n l.wire).symm, ?_, h0, hcount, rfl⟩
  rw [List.length_take, Nat.min_eq_left hlen]

/-- What the second half of `readpdu` does: it reads some bytes, or none, or fails. -/
theorem readBody_cases {body : Read} (hs : readBody l body = some (l', succ)) :
    ∃ b, l.rpdu.buf = some b
      ∧ ((∃ bs rest, l.wire = bs ++ rest ∧ l.rpdu.solong + bs.length ≤ l.rpdu.sz ∧ succ = true
          ∧ l' = { l with
            wire := rest
            delivered := l.delivered ++ bs
            rpdu := ⟨some (write b l.rpdu.solong bs), l.rpdu.sz, l.rpdu.solong + bs.length⟩ })
        ∨ (succ = true ∧ l' = l)
        ∨ (succ = false ∧ l' = { l with rpdu := .empty }
          ∧ (body = .eof false ∨ body = .error))) := by
  obtain ⟨b, hb, hs⟩ := Option.bind_eq_some_iff.mp hs
  refine ⟨b, hb, ?_⟩
  cases body with
  | chunk n =>
    obtain ⟨⟨l₁, bs⟩, htake, hs⟩ := Option.map_eq_some_iff.mp hs
    obtain ⟨rest, hwire, rfl, -, hcount, rfl⟩ := take_cases htake
    cases hs
    exact .inl ⟨bs, rest, hwire, by omega, rfl, rfl⟩
  | eof stale =>
    cases stale with
    | true =>
      cases hs
      exact .inr (.inl ⟨rfl, rfl⟩)
    | false =>
      cases hs
      exact .inr (.inr ⟨rfl, rfl, .inl rfl⟩)
  | eagain =>
    cases hs
    exact .inr (.inl ⟨rfl, rfl⟩)
  | error =>
    cases hs
    exact .inr (.inr ⟨rfl, rfl, .inr rfl⟩)

/-- Reads that keep the receiver alive: the size of a PDU comes in one piece, and what
follows it comes or does not come yet. -/
def Good (l : Link) (len body : Read) : Prop :=
  (l.rpdu.sz = 0 → len = .chunk 4) ∧ body ≠ .eof false ∧ body ≠ .error

instance (l : Link) (len body : Read) : Decidable (Good l len body) :=
  inferInstanceAs (Decidable (_ ∧ _ ∧ _))

/-- What a call of `readpdu` leaves. -/
structure AfterRead (l' : Link) (succ : Bool) (pending : List (List UInt8))
    (unwritten : List UInt8) (good : Prop) : Prop where
  alive : good → succ = true ∧ l'.rdead = false ∧ l'.aborted = false
  inv : ∃ got, Inv (if succ = false then { l' with rdead := true } else l') pending got unwritten
  inv_aborted : l'.aborted = true → ∃ got, Inv l' pending got unwritten

theorem AfterRead.of_running {good : Prop} (hna : l'.aborted = false)
    (halive : good → succ = true ∧ l'.rdead = false)
    (hinv : ∃ got, Inv (if succ = false then { l' with rdead := true } else l') pending got
      unwritten) : AfterRead l' succ pending unwritten good where
  alive hgood := ⟨(halive hgood).1, (halive hgood).2, hna⟩
  inv := hinv
  inv_aborted ha := by
    rw [hna] at ha
    cases ha

theorem AfterRead.mono {good good' : Prop}
    (h : AfterRead l' succ pending unwritten good) (hgood : good' → good) :
    AfterRead l' succ pending unwritten good' :=
  ⟨fun hg => h.alive (hgood hg), h.inv, h.inv_aborted⟩

/-- A receiver that dies between two PDUs, or in one that it drops. -/
theorem Inv.kill (h : Inv l pending got unwritten)
    (hshort : ∀ f tl, pending = f :: tl → got.length < f.length) :
    Inv { l with rpdu := .empty, rdead := true } pending got unwritten :=
  ⟨h.sized, h.frames, h.stream, h.read, h.writer, .idle rfl hshort nofun⟩

/-- **The second half of `readpdu`** moves bytes from the wire to the buffer. -/
theorem inv_readBody (h : Inv l pending got unwritten) (hd : l.rdead = false)
    (hna : l.aborted = false) (hlt : l.rpdu.solong < l.rpdu.sz) {body : Read}
    (hs : readBody l body = some (l', succ)) :
    AfterRead l' succ pending unwritten (body ≠ .eof false ∧ body ≠ .error) := by
  obtain ⟨b, hb, hcases⟩ := readBody_cases hs
  cases h.reader with
  | idle hempty =>
    rw [hempty] at hb
    cases hb
  | busy b₁ f tl hb₁ hcons hsz h4 hle hgot =>
    rw [hb, Option.some.injEq] at hb₁
    subst hb₁
    rcases hcases with ⟨bs, rest, hwire, hcount, rfl, rfl⟩ | ⟨rfl, rfl⟩ | ⟨rfl, rfl, hfail⟩
    · have hcut : (l.rpdu.solong + bs.length).toNat = l.rpdu.solong.toNat + bs.length := by
        omega
      have hat : (0 : ℤ) + (l.rpdu.solong.toNat : ℤ) = l.rpdu.solong := by omega
      have hgot' : got ++ bs = slice (write b l.rpdu.solong bs) 0
          (l.rpdu.solong + bs.length).toNat := by
        rw [hcut, slice_add, hat, slice_write, slice_write_of_disjoint (.inl hat.le), hgot]
      refine .of_running hna (fun _ => ⟨rfl, hd⟩) ⟨got ++ bs, ?_⟩
      refine ⟨h.sized, h.frames, ?_, ?_, h.writer, ?_⟩
      · show got ++ bs ++ rest ++ unwritten = _
        rw [← h.stream, hwire, List.append_assoc got]
      · show l.delivered ++ bs = l.accepted.flatten ++ (got ++ bs)
        rw [h.read, List.append_assoc]
      · refine .busy _ f tl rfl hcons hsz ?_ hcount hgot'
        show 4 ≤ l.rpdu.solong + bs.length
        omega
    · exact .of_running hna (fun _ => ⟨rfl, hd⟩) ⟨got, h⟩
    · refine .of_running hna (fun hgood => ?_) ⟨got, h.kill fun f' tl' hcons' => ?_⟩
      · rcases hfail with hfail | hfail
        · exact absurd hfail hgood.1
        · exact absurd hfail hgood.2
      · rw [hcons, List.cons.injEq] at hcons'
        rw [← hcons'.1, hgot, length_slice]
        omega

/-- Between PDUs, what comes first is the size of the next. -/
theorem Inv.next_size (h : Inv l pending [] unwritten) {bs rest : List UInt8}
    (hwire : l.wire = bs ++ rest) (h0 : 0 < bs.length) (h4 : bs.length ≤ 4) :
    ∃ p tl, Sized p ∧ pending = frame p :: tl ∧ bs <+: sizeBytes p.sz := by
  have hstream := h.stream
  rw [hwire, List.nil_append, List.append_assoc] at hstream
  cases hp : pending with
  | nil =>
    rw [hp] at hstream
    have hnil := (List.append_eq_nil_iff.mp hstream).1
    rw [hnil] at h0
    cases h0
  | cons f tl =>
    obtain ⟨p, hsized, rfl⟩ := h.pending_frame (hp ▸ List.mem_cons_self)
    rw [hp, List.flatten_cons, frame, List.append_assoc] at hstream
    obtain ⟨ms, hms, -⟩ := split_of_length_le hstream h4
    exact ⟨p, tl, hsized, rfl, ms, hms.symm⟩

variable {junk : ℤ → UInt8}

/-- The bytes of a size, or fewer: a size that was read, or a short read. -/
theorem readSize_cases {body : Read} {bs : List UInt8}
    (hs : readSize l junk body bs = some (l', succ)) (hbuf : l.rpdu.buf = none)
    (hp : Sized p) (hbs : bs <+: sizeBytes p.sz) :
    (bs.length < 4 ∧ succ = false ∧ l' = l)
      ∨ (bs = sizeBytes p.sz
        ∧ readBody { l with rpdu := ⟨some (write junk 0 bs), p.sz, 4⟩ } body
          = some (l', succ)) := by
  have hlen := hbs.length_le
  rw [length_sizeBytes] at hlen
  unfold readSize at hs
  split at hs
  · next a b c d =>
    have hall : [a, b, c, d] = sizeBytes p.sz := hbs.eq_of_length rfl
    simp only [size_of_bytes hp hall, if_neg (Int.not_lt.mpr hp.2), hbuf] at hs
    exact .inr ⟨hall, hs⟩
  · next hshort =>
    cases hs
    refine .inl ⟨?_, rfl, rfl⟩
    rcases hbs with ⟨ms, hms⟩
    by_contra hge
    have h4 : bs.length = 4 := by omega
    match bs, h4 with
    | [a, b, c, d], _ => exact hshort a b c d rfl

/-- **The first half of `readpdu`**: a size that comes whole begins a PDU. -/
theorem inv_readSize (h : Inv l pending [] unwritten) (hd : l.rdead = false)
    (hna : l.aborted = false) (hempty : l.rpdu = .empty) {n : ℕ} {l₁ : Link} {bs : List UInt8}
    (htake : take l 4 n = some (l₁, bs)) {body : Read}
    (hs : readSize l₁ junk body bs = some (l', succ)) :
    AfterRead l' succ pending unwritten (n = 4 ∧ body ≠ .eof false ∧ body ≠ .error) := by
  obtain ⟨rest, hwire, rfl, h0, h4, rfl⟩ := take_cases htake
  obtain ⟨p, tl, hp, hcons, hbs⟩ := h.next_size hwire h0 (by omega)
  have hb := hp.bounds
  have hframe := length_frame hp
  have hstream : bs ++ rest ++ unwritten = pending.flatten := by
    rw [← h.stream, hwire, List.nil_append]
  have hread : l.delivered ++ bs = l.accepted.flatten ++ bs := by
    rw [h.read, List.append_nil]
  have hbuf : l.rpdu.buf = none := congrArg charbuf.buf hempty
  rcases readSize_cases hs hbuf hp hbs with ⟨hlen, rfl, rfl⟩ | ⟨hall, hs⟩
  · refine .of_running hna (fun hgood => absurd hgood.1 (Nat.ne_of_lt hlen))
      ⟨bs, h.sized, h.frames, hstream, hread, h.writer, ?_⟩
    refine .idle hempty (fun f' tl' hcons' => ?_) nofun
    rw [hcons, List.cons.injEq] at hcons'
    rw [← hcons'.1]
    omega
  · have hlen : (4 : ℤ).toNat = bs.length := by rw [hall, length_sizeBytes]; rfl
    have hgot : bs = slice (write junk 0 bs) 0 (4 : ℤ).toNat := by rw [hlen, slice_write]
    have hbegun : Inv { l with
        wire := rest
        delivered := l.delivered ++ bs
        rpdu := ⟨some (write junk 0 bs), p.sz, 4⟩ } pending bs unwritten := by
      refine ⟨h.sized, h.frames, hstream, hread, h.writer, ?_⟩
      refine .busy _ (frame p) tl rfl hcons hframe.symm (Int.le_refl 4) ?_ hgot
      show 4 ≤ p.sz
      omega
    have hmore : 4 < p.sz := by omega
    exact (inv_readBody hbegun hd hna hmore hs).mono And.right

/-- **A call of `readpdu`.** -/
theorem inv_readpdu (h : Inv l pending got unwritten) (hd : l.rdead = false)
    (hna : l.aborted = false) (hlt : l.rpdu.buf = none ∨ l.rpdu.solong < l.rpdu.sz)
    {len body : Read}
    (hs : readpdu l junk len body = some (l', succ)) :
    AfterRead l' succ pending unwritten (Good l len body) := by
  unfold readpdu at hs
  cases h.reader with
  | busy b f tl hb hcons hsz h4 hle hgot =>
    have hmore := hlt.resolve_left (by rw [hb]; nofun)
    rw [if_neg (by omega)] at hs
    exact (inv_readBody h hd hna hmore hs).mono And.right
  | idle hempty hshort halive =>
    have hgot := halive hd
    subst hgot
    have hsz : l.rpdu.sz = 0 := congrArg charbuf.sz hempty
    have hkill := h.kill hshort
    rw [← hempty] at hkill
    rw [if_pos hsz] at hs
    cases len with
    | chunk n =>
      obtain ⟨⟨l₁, bs⟩, htake, hs⟩ := Option.bind_eq_some_iff.mp hs
      refine (inv_readSize h hd hna hempty htake hs).mono fun hgood => ⟨?_, hgood.2⟩
      exact Read.chunk.inj (hgood.1 hsz)
    | eof stale =>
      cases hs
      exact .of_running hna (fun hgood => absurd (hgood.1 hsz) nofun) ⟨[], hkill⟩
    | eagain =>
      cases hs
      exact ⟨fun hgood => absurd (hgood.1 hsz) nofun,
        ⟨[], hkill.sized, hkill.frames, hkill.stream, hkill.read, hkill.writer, hkill.reader⟩,
        fun _ => ⟨[], h.sized, h.frames, h.stream, h.read, h.writer, h.reader⟩⟩
    | error =>
      cases hs
      exact .of_running hna (fun hgood => absurd (hgood.1 hsz) nofun) ⟨[], hkill⟩

/-- **The offer to `got_pdu`**: what is complete is the first PDU that is pending. -/
theorem inv_offer (h : Inv l pending got unwritten) (accept : Bool) :
    ∃ pending' got', Inv (offer l accept) pending' got' unwritten := by
  unfold offer
  split
  · next b hb =>
    split
    · next hcond =>
      cases h.reader with
      | idle hempty =>
        rw [hempty] at hb
        cases hb
      | busy b₁ f tl hb₁ hcons hsz h4 hle hgot =>
        rw [hb, Option.some.injEq] at hb₁
        subst hb₁
        have hstream := h.stream
        have hlen : got.length = f.length := by
          rw [hgot, length_slice]
          omega
        rw [hcons, List.flatten_cons, List.append_assoc] at hstream
        obtain ⟨rfl, hrest⟩ := List.append_inj hstream hlen
        have hslice : slice b 0 l.rpdu.sz.toNat = got := by rw [hcond.1, ← hgot]
        refine ⟨tl, [], h.sized, ?_, hrest, ?_, h.writer,
          .idle rfl (fun f' tl' hcons' => ?_) fun _ => rfl⟩
        · show l.sent.map frame = l.accepted ++ [slice b 0 l.rpdu.sz.toNat] ++ tl
          rw [h.frames, hcons, hslice, List.append_assoc]
          rfl
        · show l.delivered = (l.accepted ++ [slice b 0 l.rpdu.sz.toNat]).flatten ++ []
          rw [h.read, hslice, List.flatten_append, List.flatten_singleton, List.append_nil]
        · have hmem : f' ∈ pending := by
            rw [hcons, hcons']
            exact List.mem_cons_of_mem _ List.mem_cons_self
          have hpos := h.pending_pos hmem
          show 0 < f'.length
          omega
    · exact ⟨pending, got, h⟩
  · exact ⟨pending, got, h⟩

@[simp] theorem offer_rdead (l : Link) (accept : Bool) : (offer l accept).rdead = l.rdead := by
  unfold offer
  split
  · split <;> rfl
  · rfl

@[simp] theorem offer_aborted (l : Link) (accept : Bool) :
    (offer l accept).aborted = l.aborted := by
  unfold offer
  split
  · split <;> rfl
  · rfl

/-- **`read_cb`.** Good reads leave the receiver alive. -/
theorem inv_read_cb (h : Inv l pending got unwritten) (hna : l.aborted = false) {len body : Read}
    {accept : Bool}
    (hs : read_cb l junk len body accept = some l') :
    (∃ pending' got', Inv l' pending' got' unwritten)
      ∧ (l.rdead = false → Good l len body → l'.rdead = false ∧ l'.aborted = false) := by
  unfold read_cb at hs
  split at hs
  · next hd =>
    cases hs
    exact ⟨⟨pending, got, h⟩, fun hd' => absurd (hd.symm.trans hd') nofun⟩
  · next hd =>
    have hd := Bool.eq_false_of_not_eq_true hd
    obtain ⟨⟨l₁, succ⟩, hread, rfl⟩ := Option.map_eq_some_iff.mp hs
    have hafter : AfterRead l₁ succ pending unwritten (Good l len body) := by
      split at hread
      · next hcond =>
        exact inv_readpdu h hd hna (hcond.imp_left Option.isNone_iff_eq_none.mp) hread
      · cases hread
        exact .of_running hna (fun _ => ⟨rfl, hd⟩) ⟨got, h⟩
    obtain ⟨halive, ⟨got₁, hinv⟩, habort⟩ := hafter
    constructor
    · split
      · next ha =>
        obtain ⟨got₂, hinv⟩ := habort ha
        exact ⟨pending, got₂, hinv⟩
      · exact inv_offer hinv accept
    · intro _ hgood
      obtain ⟨rfl, hd₁, ha₁⟩ := halive hgood
      simp [hd₁, ha₁]

/-! ## Runs -/

/-- Only PDUs of the sizes of the RPC library are sent. -/
def SizedAct : Act → Prop
  | .send p _ => Sized p
  | .write_cb _ => True
  | .wake => True
  | .read_cb _ _ _ _ => True
  | .closeSender => True
  | .closeReceiver => True

instance : DecidablePred SizedAct
  | .send p _ => inferInstanceAs (Decidable (Sized p))
  | .write_cb _ => .isTrue trivial
  | .wake => .isTrue trivial
  | .read_cb _ _ _ _ => .isTrue trivial
  | .closeSender => .isTrue trivial
  | .closeReceiver => .isTrue trivial

/-- Nothing keeps the receiver from reading on. -/
def Delivers (l : Link) : Act → Prop
  | .send _ _ => True
  | .write_cb _ => True
  | .wake => True
  | .read_cb _ len body _ => Good l len body
  | .closeSender => True
  | .closeReceiver => False

instance (l : Link) : DecidablePred (Delivers l)
  | .send _ _ => .isTrue trivial
  | .write_cb _ => .isTrue trivial
  | .wake => .isTrue trivial
  | .read_cb _ len body _ => inferInstanceAs (Decidable (Good l len body))
  | .closeSender => .isTrue trivial
  | .closeReceiver => .isFalse not_false

/-- The stream can be followed through the connection. -/
def Streams (l : Link) : Prop := ∃ pending got unwritten, Inv l pending got unwritten

/-- **One step** of either end. -/
theorem streams_step {a : Act} (h : Streams l) (ha : SizedAct a) (hs : step l a = some l') :
    Streams l' := by
  obtain ⟨pending, got, unwritten, h⟩ := h
  cases a with
  | send p w =>
    obtain ⟨pending', unwritten', h'⟩ := inv_send h ha hs
    exact ⟨pending', got, unwritten', h'⟩
  | write_cb w =>
    obtain ⟨unwritten', h'⟩ := inv_write_cb h hs
    exact ⟨pending, got, unwritten', h'⟩
  | wake => exact ⟨pending, got, unwritten, inv_wake h hs⟩
  | read_cb junk len body accept =>
    obtain ⟨hna, hs⟩ := Option.ite_none_left_eq_some.mp hs
    have hna := Bool.eq_false_of_not_eq_true hna
    obtain ⟨⟨pending', got', h'⟩, -⟩ := inv_read_cb h hna hs
    exact ⟨pending', got', unwritten, h'⟩
  | closeSender =>
    cases hs
    exact ⟨pending, got, unwritten, h.sized, h.frames, h.stream, h.read, .dead rfl, h.reader⟩
  | closeReceiver =>
    cases hs
    refine ⟨pending, got, unwritten, h.sized, h.frames, h.stream, h.read, h.writer, ?_⟩
    cases h.reader with
    | idle hempty hshort => exact .idle hempty hshort nofun
    | busy b f tl hb hcons hsz h4 hle hgot => exact .busy b f tl hb hcons hsz h4 hle hgot

def Alive (l : Link) : Prop := l.rdead = false ∧ l.aborted = false

/-- The receiving ends are the same. -/
structure SameReceiver (l l' : Link) : Prop where
  rpdu : l'.rpdu = l.rpdu
  rdead : l'.rdead = l.rdead
  aborted : l'.aborted = l.aborted

theorem sameReceiver_writepdu (hs : writepdu l w = some (l', succ)) : SameReceiver l l' := by
  rcases writepdu_cases hs with ⟨rfl, -⟩ | ⟨b, b', -, -, ⟨n, -, -, rfl⟩ | ⟨-, rfl⟩⟩
  · exact ⟨rfl, rfl, rfl⟩
  · exact ⟨rfl, rfl, rfl⟩
  · exact ⟨rfl, rfl, rfl⟩

theorem sameReceiver_send (hs : send l p w = some l') : SameReceiver l l' := by
  unfold send at hs
  split at hs
  · cases hs
    exact ⟨rfl, rfl, rfl⟩
  · split at hs
    · cases hs
    · obtain ⟨⟨l₁, succ⟩, hwrite, rfl⟩ := Option.map_eq_some_iff.mp hs
      obtain ⟨hrpdu, hrdead, haborted⟩ := sameReceiver_writepdu hwrite
      dsimp only
      split
      · exact ⟨hrpdu, hrdead, haborted⟩
      · split
        · exact ⟨hrpdu, hrdead, haborted⟩
        · exact ⟨hrpdu, hrdead, haborted⟩

theorem sameReceiver_write_cb (hs : write_cb l w = some l') : SameReceiver l l' := by
  unfold write_cb at hs
  split at hs
  · cases hs
  · split at hs
    · cases hs
      exact ⟨rfl, rfl, rfl⟩
    · obtain ⟨⟨l₁, succ⟩, hwrite, rfl⟩ := Option.map_eq_some_iff.mp hs
      obtain ⟨hrpdu, hrdead, haborted⟩ := sameReceiver_writepdu hwrite
      dsimp only
      split
      · exact ⟨hrpdu, hrdead, haborted⟩
      · exact ⟨hrpdu, hrdead, haborted⟩

/-- The sender does not touch the receiver. -/
theorem sameReceiver_step {a : Act} (hs : step l a = some l') :
    (∃ junk len body accept, a = .read_cb junk len body accept) ∨ a = .closeReceiver
      ∨ SameReceiver l l' := by
  cases a with
  | send p w => exact .inr (.inr (sameReceiver_send hs))
  | write_cb w => exact .inr (.inr (sameReceiver_write_cb hs))
  | wake =>
    obtain ⟨-, hs⟩ := Option.ite_none_right_eq_some.mp hs
    cases hs
    exact .inr (.inr ⟨rfl, rfl, rfl⟩)
  | read_cb junk len body accept => exact .inl ⟨junk, len, body, accept, rfl⟩
  | closeSender =>
    cases hs
    exact .inr (.inr ⟨rfl, rfl, rfl⟩)
  | closeReceiver => exact .inr (.inl rfl)

/-- **A receiver stays alive** while the size of every PDU comes in one piece. -/
theorem alive_step {a : Act} (h : Streams l) (halive : Alive l) (ha : Delivers l a)
    (hs : step l a = some l') : Alive l' := by
  obtain ⟨pending, got, unwritten, h⟩ := h
  rcases sameReceiver_step hs with ⟨junk, len, body, accept, rfl⟩ | rfl | hsame
  · obtain ⟨-, hs⟩ := Option.ite_none_left_eq_some.mp hs
    exact (inv_read_cb h halive.2 hs).2 halive.1 ha
  · exact ha.elim
  · exact ⟨hsame.rdead.trans halive.1, hsame.aborted.trans halive.2⟩

/-! ## The whole stream -/

/-- What the receiver has got of the pending PDUs is all of them. -/
theorem Inv.got_eq (h : Inv l pending got unwritten)
    (hall : l.delivered = (l.sent.map frame).flatten) : got = pending.flatten := by
  rw [h.read, h.frames, List.flatten_append] at hall
  exact List.append_cancel_left hall

/-- A receiver that has read everything and holds nothing has everything accepted. -/
theorem Inv.accepted_all (h : Inv l pending got unwritten)
    (hall : l.delivered = (l.sent.map frame).flatten) (hbuf : l.rpdu.buf = none) :
    l.accepted = l.sent.map frame := by
  have hgot := h.got_eq hall
  cases h.reader with
  | busy b f tl hb =>
    rw [hbuf] at hb
    cases hb
  | idle hempty hshort halive =>
    cases hp : pending with
    | nil => rw [h.frames, hp, List.append_nil]
    | cons f tl =>
      have hlt := hshort f tl hp
      rw [hgot, hp, List.flatten_cons, List.length_append] at hlt
      omega

/-- One that holds a PDU has only to have it accepted. -/
theorem Inv.retry (h : Inv l pending got unwritten)
    (hall : l.delivered = (l.sent.map frame).flatten) (hbuf : l.rpdu.buf ≠ none)
    (halive : Alive l) (junk : ℤ → UInt8) (len body : Read) :
    ∃ l', step l (.read_cb junk len body true) = some l' ∧ l'.accepted = l.sent.map frame := by
  have hgot := h.got_eq hall
  cases h.reader with
  | idle hempty =>
    rw [hempty] at hbuf
    exact absurd rfl hbuf
  | busy b f tl hb hcons hsz h4 hle hslice =>
    rw [hcons, List.flatten_cons] at hgot
    have hlen : l.rpdu.solong.toNat = f.length + tl.flatten.length := by
      rw [← List.length_append, ← hgot, hslice, length_slice]
    have hnil : tl.flatten = [] := List.length_eq_zero_iff.mp (by omega)
    have htl : tl = [] := by
      cases tl with
      | nil => rfl
      | cons f' tl' =>
        have hmem : f' ∈ pending := hcons ▸ List.mem_cons_of_mem _ List.mem_cons_self
        have hpos := h.pending_pos hmem
        rw [(List.append_eq_nil_iff.mp hnil).1] at hpos
        cases hpos
    have hdone : l.rpdu.sz = l.rpdu.solong := by omega
    have hf : slice b 0 l.rpdu.sz.toNat = f := by
      rw [hdone, ← hslice, hgot, hnil, List.append_nil]
    have hread : ¬ (l.rpdu.buf.isNone = true ∨ l.rpdu.solong < l.rpdu.sz) := by
      rw [hb]
      rintro (hnone | hlt)
      · cases hnone
      · omega
    have hoffer : offer l true = { l with rpdu := .empty, accepted := l.accepted ++ [f] } := by
      rw [← hf]
      simp only [offer, hb, hdone, and_self, if_true]
    refine ⟨offer l true, ?_, ?_⟩
    · simp only [step, read_cb, halive.1, halive.2, if_neg hread, Option.map_some,
        Bool.false_eq_true, Bool.true_eq_false, if_false]
    · rw [hoffer, h.frames, hcons, htl]

/-- **Framing is faithful.** The PDUs that `got_pdu` has accepted are the first ones that
were sent, each with its size in its first four bytes. When all that was sent has been read
they are all of them, or all but one, which the next call of `got_pdu` that accepts adds; and
nothing keeps a receiver from reading on that gets the size of every PDU in one piece. -/
theorem framing_faithful {acts : List Act} {s : Link} (hsized : ∀ a ∈ acts, SizedAct a)
    (hrun : Steps.run step start acts = some s) :
    s.accepted <+: s.sent.map frame
      ∧ (s.delivered = (s.sent.map frame).flatten →
          (s.rpdu.buf = none → s.accepted = s.sent.map frame)
          ∧ (s.rpdu.buf ≠ none → s.rdead = false → s.aborted = false → ∀ junk len body,
              ∃ s', step s (.read_cb junk len body true) = some s'
                ∧ s'.accepted = s.sent.map frame))
      ∧ (Steps.RunMeets step Delivers start acts → s.rdead = false ∧ s.aborted = false) := by
  have hstart : Streams start := ⟨[], [], [], inv_start⟩
  obtain ⟨pending, got, unwritten, h⟩ : Streams s :=
    Steps.run_inv_forall (p := SizedAct) (fun _ _ _ h ha hs => streams_step h ha hs) hstart
      hsized hrun
  refine ⟨⟨pending, h.frames.symm⟩, fun hall => ⟨h.accepted_all hall, ?_⟩, fun hmeets => ?_⟩
  · intro hbuf hd hna junk len body
    exact h.retry hall hbuf ⟨hd, hna⟩ junk len body
  · have hboth := Steps.runMeets_and hmeets (Steps.runMeets_of_forall hsized start)
    have hlive : Streams s ∧ Alive s := by
      refine Steps.run_inv (P := fun l => Streams l ∧ Alive l) ?_ ⟨hstart, rfl, rfl⟩ hboth hrun
      rintro l a l' ⟨hl, halive⟩ ⟨hdelivers, ha⟩ hs
      exact ⟨streams_step hl ha hs, alive_step hl halive hdelivers hs⟩
    exact hlive.2

/-- Two PDUs. The first is written in three calls, of which one gives `EAGAIN`, and read in
two; it is refused once. -/
def twoPdus : List Act :=
  [.send ⟨fun i => .ofNat i.toNat, 24⟩ (.accept 10), .write_cb .eagain,
    .read_cb (fun _ => 170) (.chunk 4) (.chunk 3) true, .write_cb (.accept 14), .wake,
    .send ⟨fun _ => 7, 26⟩ (.accept 26), .read_cb (fun _ => 170) .eagain (.chunk 17) false,
    .read_cb (fun _ => 170) .eagain .eagain true,
    .read_cb (fun _ => 170) (.chunk 4) (.chunk 22) true]

theorem framing_faithful_twoPdus :
    (∀ a ∈ twoPdus, SizedAct a) ∧ Steps.RunMeets step Delivers start twoPdus
      ∧ ∃ s, Steps.run step start twoPdus = some s ∧ s.accepted = s.sent.map frame
        ∧ s.accepted.map List.length = [24, 26] ∧ s.rdead = false := by
  have hsized : ∀ a ∈ twoPdus, SizedAct a := by decide
  have hdelivers : Steps.RunMeets step Delivers start twoPdus := by decide
  have hex : ∃ s, Steps.run step start twoPdus = some s
      ∧ (decide (s.delivered = (s.sent.map frame).flatten), s.rpdu.buf.isNone,
        s.accepted.map List.length) = (true, true, [24, 26]) :=
    Steps.exists_run (by decide)
  obtain ⟨s, hrun, hs⟩ := hex
  obtain ⟨hall, hrest⟩ := Prod.mk.inj hs
  obtain ⟨hbuf, hlen⟩ := Prod.mk.inj hrest
  obtain ⟨-, hwhole, halive⟩ := framing_faithful hsized hrun
  have haccepted := (hwhole (of_decide_eq_true hall)).1 (Option.isNone_iff_eq_none.mp hbuf)
  exact ⟨hsized, hdelivers, s, hrun, haccepted, hlen, (halive hdelivers).1⟩

end Yfs.Framing
