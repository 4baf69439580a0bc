/-
The calls of `read()` that `readpdu` makes (`rpc/connection.cc`).

The peer chooses the four bytes of the size, and `read()` may give any part of what it is
asked for, or fail, at any time. The size is used as an `int`; only its upper bound is
checked. Each call of `read()` is recorded with the place it writes to, the number of bytes
it asks for, and how many bytes there were allocated. The number of bytes is a signed
difference here; `read()` takes a negative one for a huge `size_t`.

This receiver takes anything from its peer. In `Connection` the same function reads what
`writepdu` has sent, whose sizes are in order.
-/
import Yfs.Connection

set_option autoImplicit false

namespace Yfs.ReadRequests

open Bytes Yfs.Marshall Yfs.Connection

/-! ## The receiver -/

/-- One call of `read()`. -/
structure Request where
  /-- Where in the buffer the bytes go. -/
  offset : ℤ
  /-- How many are asked for. -/
  length : ℤ
  /-- How many bytes the buffer has. -/
  allocated : ℤ
  deriving DecidableEq, Repr

/-- What `read()` does; `stale` says that `errno` still is `EAGAIN` at the end of the stream. -/
inductive Got where
  | bytes (bs : List UInt8)
  | eof (stale : Bool)
  | eagain
  | error
  deriving DecidableEq, Repr

structure Receiver where
  rpdu : charbuf
  /-- The size of the allocation behind `rpdu.buf`. -/
  allocated : ℤ
  dead : Bool
  /-- A `VERIFY` has failed. -/
  aborted : Bool
  requests : List Request
  /-- The sizes that a buffer was allocated for. -/
  sizes : List ℤ

def Receiver.start : Receiver := ⟨.empty, 0, false, false, [], []⟩

def Receiver.ask (r : Receiver) (q : Request) : Receiver :=
  { r with requests := r.requests ++ [q] }

/-- `read()` gives at least one byte and at most `count`. -/
def Given (count : ℤ) (bs : List UInt8) : Prop :=
  0 < bs.length ∧ (0 ≤ count → (bs.length : ℤ) ≤ count)

instance (count : ℤ) (bs : List UInt8) : Decidable (Given count bs) :=
  inferInstanceAs (Decidable (_ ∧ (_ → _)))

/-- The second call of `read()` in `readpdu`. -/
def bodyRequest (r : Receiver) : Request :=
  ⟨r.rpdu.solong, r.rpdu.sz - r.rpdu.solong, r.allocated⟩

/-- The second half of `readpdu`. -/
def readBody (r : Receiver) (body : Got) : Option (Receiver × Bool) :=
  let r' := r.ask (bodyRequest r)
  match body with
  | .bytes bs =>
    if Given (r.rpdu.sz - r.rpdu.solong) bs then
      some ({ r' with
        rpdu := ⟨r.rpdu.buf.map fun b => write b r.rpdu.solong bs, r.rpdu.sz,
          r.rpdu.solong + bs.length⟩ }, true)
    else none
  | .eof true => some (r', true)
  | .eagain => some (r', true)
  | .eof false => some ({ r' with rpdu := .empty }, false)
  | .error => some ({ r' with rpdu := .empty }, false)

/-- Conversion to `size_t`. -/
def toSize (x : ℤ) : ℤ := x % 2 ^ 64

/-- The size was read; `mem` is what `malloc` returns, if it does not fail. -/
def readSize (r : Receiver) (mem : Option (ℤ → UInt8)) (body : Got) :
    List UInt8 → Option (Receiver × Bool)
  | [a, b, c, d] =>
    let sz := toInt (ofBe32 a b c d).toNat
    if sz > MAX_PDU then some (r, false)
    else if r.rpdu.buf.isSome then some ({ r with aborted := true }, false)
    else
      match mem with
      | none => some ({ r with aborted := true }, false)
      | some junk =>
        readBody { r with
          rpdu := ⟨some (write junk 0 [a, b, c, d]), sz, 4⟩
          allocated := toSize (sz + 4)
          sizes := r.sizes ++ [sz] } body
  -- a short read
  | _ => some (r, false)

/-- The first call of `read()` in `readpdu`, into a local `int`. -/
def sizeRequest : Request := ⟨0, 4, 4⟩

def readpdu (r : Receiver) (mem : Option (ℤ → UInt8)) (len body : Got) :
    Option (Receiver × Bool) :=
  if r.rpdu.sz = 0 then
    let r' := r.ask sizeRequest
    match len with
    | .bytes bs => if Given 4 bs then readSize r' mem body bs else none
    | .eof _ => some (r', false)
    | .eagain => some ({ r' with aborted := true }, false)
    | .error => some (r', false)
  else readBody r body

/-- `accept` is the answer of `got_pdu`, if it is asked. -/
def offer (r : Receiver) (accept : Bool) : Receiver :=
  if r.rpdu.buf.isSome ∧ r.rpdu.sz = r.rpdu.solong ∧ accept = true then { r with rpdu := .empty }
  else r

def read_cb (r : Receiver) (mem : Option (ℤ → UInt8)) (len body : Got) (accept : Bool) :
    Option Receiver :=
  if r.dead then some r
  else
    (if r.rpdu.buf.isNone ∨ r.rpdu.solong < r.rpdu.sz then readpdu r mem len body
      else some (r, true)).map fun x =>
        if x.1.aborted then x.1
        else offer (if x.2 = false then { x.1 with dead := true } else x.1) accept

inductive Act where
  | read_cb (mem : Option (ℤ → UInt8)) (len body : Got) (accept : Bool)
  /-- Something else has closed the connection. -/
  | close

def step (r : Receiver) : Act → Option Receiver
  | .read_cb mem len body accept => if r.aborted then none else read_cb r mem len body accept
  | .close => some { r with dead := true }

/-! ## Reads in bounds -/

def Request.InBounds (q : Request) : Prop :=
  0 ≤ q.offset ∧ 0 ≤ q.length ∧ q.offset + q.length ≤ q.allocated

instance (q : Request) : Decidable q.InBounds := inferInstanceAs (Decidable (_ ∧ _ ∧ _))

/-- Between two callbacks: what was read of a PDU is a part of it. -/
def Between (p : charbuf) : Prop := p.buf.isSome = true → 0 ≤ p.solong ∧ p.solong ≤ p.sz

instance (p : charbuf) : Decidable (Between p) := inferInstanceAs (Decidable (_ → _))

/-- There is no PDU, or its size is at least that of the size field and fits the buffer. -/
structure Shape (p : charbuf) (allocated : ℤ) : Prop where
  idle : p.buf = none → p.sz = 0
  busy : p.buf.isSome = true → 4 ≤ p.solong ∧ p.solong ≤ p.sz ∧ p.sz ≤ allocated

theorem shape_empty (allocated : ℤ) : Shape .empty allocated where
  idle _ := rfl
  busy h := Bool.noConfusion h

theorem sizeRequest_inBounds : sizeRequest.InBounds := by decide

section Body

variable {r r' : Receiver} {succ : Bool}

/-- What the second half of `readpdu` does to the PDU: nothing, more bytes, or an end. -/
theorem readBody_cases {body : Got} (hs : readBody r body = some (r', succ)) :
    r'.requests = r.requests ++ [bodyRequest r] ∧ r'.sizes = r.sizes
      ∧ r'.allocated = r.allocated
      ∧ (r'.rpdu = r.rpdu ∨ r'.rpdu = .empty
        ∨ ∃ bs, Given (r.rpdu.sz - r.rpdu.solong) bs
          ∧ r'.rpdu = ⟨r.rpdu.buf.map fun b => write b r.rpdu.solong bs, r.rpdu.sz,
              r.rpdu.solong + bs.length⟩) := by
  unfold readBody at hs
  split at hs
  · obtain ⟨hgiven, hs⟩ := Option.ite_none_right_eq_some.mp hs
    cases hs
    exact ⟨rfl, rfl, rfl, .inr (.inr ⟨_, hgiven, rfl⟩)⟩
  · cases hs
    exact ⟨rfl, rfl, rfl, .inl rfl⟩
  · cases hs
    exact ⟨rfl, rfl, rfl, .inl rfl⟩
  · cases hs
    exact ⟨rfl, rfl, rfl, .inr (.inl rfl)⟩
  · cases hs
    exact ⟨rfl, rfl, rfl, .inr (.inl rfl)⟩

/-- The bytes of a PDU that has a shape are read into its buffer. -/
theorem bodyRequest_inBounds (h : Shape r.rpdu r.allocated) (hbuf : r.rpdu.buf.isSome = true) :
    (bodyRequest r).InBounds := by
  obtain ⟨h4, hle, hfits⟩ := h.busy hbuf
  refine ⟨?_, ?_, ?_⟩
  · show 0 ≤ r.rpdu.solong
    omega
  · show 0 ≤ r.rpdu.sz - r.rpdu.solong
    omega
  · show r.rpdu.solong + (r.rpdu.sz - r.rpdu.solong) ≤ r.allocated
    omega

theorem shape_readBody (h : Shape r.rpdu r.allocated) {body : Got}
    (hs : readBody r body = some (r', succ)) : Shape r'.rpdu r'.allocated := by
  obtain ⟨-, -, halloc, hrpdu⟩ := readBody_cases hs
  rw [halloc]
  rcases hrpdu with hrpdu | hrpdu | ⟨bs, ⟨-, hle⟩, hrpdu⟩
  · rw [hrpdu]
    exact h
  · rw [hrpdu]
    exact shape_empty _
  · rw [hrpdu]
    constructor
    · intro hnone
      exact h.idle (Option.map_eq_none_iff.mp hnone)
    · intro hsome
      obtain ⟨h4, hsz, hfits⟩ := h.busy (by rwa [Option.isSome_map] at hsome)
      have hcount := hle (by omega)
      refine ⟨?_, ?_, hfits⟩
      · show 4 ≤ r.rpdu.solong + bs.length
        omega
      · show r.rpdu.solong + bs.length ≤ r.rpdu.sz
        omega

end Body

/-! ## What a callback asks for -/

/-- A receiver whose reads were all in bounds. -/
structure Safe (r : Receiver) : Prop where
  requests : ∀ q ∈ r.requests, q.InBounds
  shape : Shape r.rpdu r.allocated

/-- No announced size was smaller than the size field itself. -/
def Announced (r : Receiver) : Prop := ∀ sz ∈ r.sizes, 4 ≤ sz

/-- The invariant: good sizes keep the receiver safe, and a bad one shows in the requests. -/
structure Inv (r : Receiver) : Prop where
  safe : Announced r → Safe r
  shown : (∀ q ∈ r.requests, q.InBounds) → Announced r

theorem inv_start : Inv .start where
  safe _ := ⟨fun _ hq => absurd hq List.not_mem_nil, shape_empty 0⟩
  shown _ _ hsz := absurd hsz List.not_mem_nil

section Step

variable {r r' : Receiver} {succ : Bool}

/-- Changes to the flags are of no concern. -/
theorem Inv.of_eq (h : Inv r) (hreq : r'.requests = r.requests) (hsizes : r'.sizes = r.sizes)
    (hrpdu : r'.rpdu = r.rpdu) (halloc : r'.allocated = r.allocated) : Inv r' where
  safe hann := by
    unfold Announced at hann
    rw [hsizes] at hann
    obtain ⟨hbounds, hshape⟩ := h.safe hann
    refine ⟨?_, ?_⟩
    · rw [hreq]
      exact hbounds
    · rw [hrpdu, halloc]
      exact hshape
  shown hbounds := by
    unfold Announced
    rw [hreq] at hbounds
    rw [hsizes]
    exact h.shown hbounds

/-- A read of the size is in bounds, whatever comes of it. -/
theorem Inv.askSize (h : Inv r) : Inv (r.ask sizeRequest) where
  safe hann := by
    obtain ⟨hbounds, hshape⟩ := h.safe hann
    refine ⟨?_, hshape⟩
    intro q hq
    rcases List.mem_append.mp hq with hq | hq
    · exact hbounds q hq
    · rw [List.mem_singleton.mp hq]
      exact sizeRequest_inBounds
  shown hbounds := h.shown fun q hq => hbounds q (List.mem_append_left _ hq)

theorem inv_readBody (h : Inv r) (hsz : r.rpdu.sz ≠ 0) {body : Got}
    (hs : readBody r body = some (r', succ)) : Inv r' := by
  obtain ⟨hreq, hsizes, -, -⟩ := readBody_cases hs
  constructor
  · intro hann
    unfold Announced at hann
    rw [hsizes] at hann
    obtain ⟨hbounds, hshape⟩ := h.safe hann
    refine ⟨?_, shape_readBody hshape hs⟩
    rw [hreq, List.forall_mem_append, List.forall_mem_singleton]
    refine ⟨hbounds, bodyRequest_inBounds hshape ?_⟩
    rw [Option.isSome_iff_ne_none]
    intro hnone
    exact hsz (hshape.idle hnone)
  · intro hbounds
    unfold Announced
    rw [hreq] at hbounds
    rw [hsizes]
    exact h.shown fun q hq => hbounds q (List.mem_append_left _ hq)

/-- The buffer of a size: right after `malloc`, and before the second `read()`. -/
theorem inv_allocate (h : Inv r) {b : ℤ → UInt8} {sz : ℤ} (hmax : sz ≤ MAX_PDU) {body : Got}
    (hs : readBody { r with
      rpdu := ⟨some b, sz, 4⟩, allocated := toSize (sz + 4), sizes := r.sizes ++ [sz] } body
      = some (r', succ)) : Inv r' := by
  obtain ⟨hreq, hsizes, -, -⟩ := readBody_cases hs
  have hmax' : sz ≤ 10 * 2 ^ 20 := hmax
  constructor
  · intro hann
    unfold Announced at hann
    rw [hsizes] at hann
    have hsz : 4 ≤ sz := hann sz (List.mem_append_right _ (List.mem_singleton_self sz))
    have halloc : toSize (sz + 4) = sz + 4 := Int.emod_eq_of_lt (by omega) (by omega)
    obtain ⟨hbounds, -⟩ := h.safe fun x hx => hann x (List.mem_append_left _ hx)
    have hshape : Shape ⟨some b, sz, 4⟩ (toSize (sz + 4)) := by
      rw [halloc]
      refine ⟨fun hnone => ?_, fun _ => ⟨le_refl 4, hsz, ?_⟩⟩
      · cases hnone
      · show sz ≤ sz + 4
        omega
    refine ⟨?_, shape_readBody hshape hs⟩
    rw [hreq, List.forall_mem_append, List.forall_mem_singleton]
    exact ⟨hbounds, bodyRequest_inBounds hshape rfl⟩
  · intro hbounds
    unfold Announced
    rw [hreq] at hbounds
    rw [hsizes]
    intro x hx
    rcases List.mem_append.mp hx with hx | hx
    · exact h.shown (fun q hq => hbounds q (List.mem_append_left _ hq)) x hx
    · -- the second read asks for `sz - 4` bytes
      rw [List.mem_singleton.mp hx]
      have hlength : 0 ≤ sz - 4 :=
        (hbounds _ (List.mem_append_right _ (List.mem_singleton_self _))).2.1
      omega

theorem inv_readSize (h : Inv r) {mem : Option (ℤ → UInt8)} {body : Got} {bs : List UInt8}
    (hs : readSize r mem body bs = some (r', succ)) : Inv r' := by
  unfold readSize at hs
  split at hs
  · dsimp only at hs
    split_ifs at hs with hmax hbuf
    · cases hs
      exact h
    · cases hs
      exact h.of_eq rfl rfl rfl rfl
    · split at hs
      · cases hs
        exact h.of_eq rfl rfl rfl rfl
      · exact inv_allocate h (not_lt.mp hmax) hs
  · cases hs
    exact h

theorem inv_readpdu (h : Inv r) {mem : Option (ℤ → UInt8)} {len body : Got}
    (hs : readpdu r mem len body = some (r', succ)) : Inv r' := by
  unfold readpdu at hs
  by_cases hsz : r.rpdu.sz = 0
  · rw [if_pos hsz] at hs
    dsimp only at hs
    split at hs
    · obtain ⟨-, hs⟩ := Option.ite_none_right_eq_some.mp hs
      exact inv_readSize h.askSize hs
    · cases hs
      exact h.askSize
    · cases hs
      exact h.askSize.of_eq rfl rfl rfl rfl
    · cases hs
      exact h.askSize
  · rw [if_neg hsz] at hs
    exact inv_readBody h hsz hs

/-- A PDU that is handed over leaves an empty buffer. -/
theorem inv_offer (h : Inv r) (accept : Bool) : Inv (offer r accept) := by
  unfold offer
  split_ifs
  · exact ⟨fun hann => ⟨(h.safe hann).requests, shape_empty _⟩, h.shown⟩
  · exact h

theorem inv_read_cb (h : Inv r) {mem : Option (ℤ → UInt8)} {len body : Got} {accept : Bool}
    (hs : read_cb r mem len body accept = some r') : Inv r' := by
  unfold read_cb at hs
  by_cases hdead : r.dead = true
  · rw [if_pos hdead] at hs
    cases hs
    exact h
  · rw [if_neg hdead] at hs
    obtain ⟨⟨r₁, succ⟩, hread, rfl⟩ := Option.map_eq_some_iff.mp hs
    have hinv : Inv r₁ := by
      split_ifs at hread
      · exact inv_readpdu h hread
      · cases hread
        exact h
    have hfailed : Inv (if succ = false then { r₁ with dead := true } else r₁) := by
      split_ifs
      · exact hinv.of_eq rfl rfl rfl rfl
      · exact hinv
    by_cases habort : r₁.aborted = true
    · rw [if_pos habort]
      exact hinv
    · rw [if_neg habort]
      exact inv_offer hfailed accept

theorem inv_step {a : Act} (h : Inv r) (hs : step r a = some r') : Inv r' := by
  cases a with
  | read_cb mem len body accept =>
    obtain ⟨-, hs⟩ := Option.ite_none_left_eq_some.mp hs
    exact inv_read_cb h hs
  | close =>
    cases hs
    exact h.of_eq rfl rfl rfl rfl

end Step

theorem Safe.between {r : Receiver} (h : Safe r) : Between r.rpdu := by
  intro hbuf
  obtain ⟨h4, hle, -⟩ := h.shape.busy hbuf
  exact ⟨by omega, hle⟩

theorem inv_of_run {acts : List Act} {r : Receiver}
    (hrun : Steps.run step .start acts = some r) : Inv r :=
  Steps.run_inv_all (fun _ _ _ h hs => inv_step h hs) inv_start hrun

/-- **Reads stay in the buffer**, after every sequence of sizes, read results and failures,
exactly when no size that a buffer was allocated for is below 4: then every call of
`read()` asks for a part of its buffer, and between two callbacks what was read is a
part of the PDU. -/
theorem reads_in_bounds_iff {acts : List Act} {r : Receiver}
    (hrun : Steps.run step .start acts = some r) :
    ((∀ q ∈ r.requests, q.InBounds) ∧ Between r.rpdu) ↔ ∀ sz ∈ r.sizes, 4 ≤ sz := by
  have hinv : Inv r := inv_of_run hrun
  constructor
  · intro h
    exact hinv.shown h.1
  · intro hann
    have hsafe := hinv.safe hann
    exact ⟨hsafe.requests, hsafe.between⟩

/-- A size of 8, four bytes at once and the other four in two parts. -/
def eightBytes : List Act :=
  [.read_cb (some fun _ => 0) (.bytes [0, 0, 0, 8]) (.bytes [1]) true,
    .read_cb none .error (.bytes [2, 3, 4]) false]

theorem reads_in_bounds_eightBytes :
    ∃ r, Steps.run step .start eightBytes = some r
      ∧ r.requests = [⟨0, 4, 4⟩, ⟨4, 4, 12⟩, ⟨5, 3, 12⟩]
      ∧ (∀ q ∈ r.requests, q.InBounds) ∧ Between r.rpdu := by
  have hex : ((Steps.run step .start eightBytes).map fun r => (r.requests, r.sizes))
      = some ([⟨0, 4, 4⟩, ⟨4, 4, 12⟩, ⟨5, 3, 12⟩], [8]) := by
    decide
  obtain ⟨r, hr, heq⟩ := Steps.exists_run hex
  obtain ⟨hrequests, hsizes⟩ := Prod.mk.inj heq
  have hgood : ∀ sz ∈ r.sizes, 4 ≤ sz := by
    rw [hsizes]
    decide
  exact ⟨r, hr, hrequests, (reads_in_bounds_iff hr).mpr hgood⟩

/-- A size of 0 makes the second `read()` ask for -4 bytes behind the four of the buffer,
and leaves 4 bytes read of a PDU of 0. With a size of -1 the buffer has 3 bytes. -/
theorem read_out_of_bounds :
    ((Steps.run step .start
        [.read_cb (some fun _ => 0) (.bytes [0, 0, 0, 0]) .eagain true]).map fun r =>
          (r.requests, r.rpdu.buf.isSome, r.rpdu.solong, r.rpdu.sz))
        = some ([⟨0, 4, 4⟩, ⟨4, -4, 4⟩], true, 4, 0)
      ∧ ((Steps.run step .start
        [.read_cb (some fun _ => 0) (.bytes [255, 255, 255, 255]) .eagain true]).map fun r =>
          (r.requests, r.rpdu.buf.isSome, r.rpdu.solong, r.rpdu.sz))
        = some ([⟨0, 4, 4⟩, ⟨4, -5, 3⟩], true, 4, -1) := by
  decide

end Yfs.ReadRequests
