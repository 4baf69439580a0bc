/-
The PDUs of concurrent senders never mix.

The invariant says who has the buffer: one thread if `wpdu_.buf` is set, and nobody else.
What was sent is then what the sends that have returned true have sent, in the order in
which they returned, and perhaps one PDU more, of the thread that has the buffer or of a
send that found the connection broken. `waiters_` is the number of threads in the queue,
so the thread that gives the buffer back wakes them all.
-/
import Yfs.Senders

set_option autoImplicit false

namespace Yfs.Senders

open Yfs.Connection Yfs.Framing

/-! ## The threads -/

section Threads

variable {ths ths' : List Thread} {t : ℕ} {th : Thread} {p : Pdu}

/-- Is the thread in `block_remove_fd`, or has it been there in its `send`? -/
def Thread.removes : Thread → Bool
  | .failing _ _ => true
  | .failed _ => true
  | .closing _ => true
  | _ => false

@[simp] theorem Thread.queues_rouse (th : Thread) : th.rouse.queues = th.queues := by
  cases th <;> rfl

@[simp] theorem Thread.sends_rouse (th : Thread) : th.rouse.sends = th.sends := by
  cases th <;> rfl

@[simp] theorem Thread.removes_rouse (th : Thread) : th.rouse.removes = th.removes := by
  cases th <;> rfl

theorem Thread.waits_rouse (th : Thread) : th.rouse.waits = th.waits := by
  rw [Thread.waits, Thread.queues_rouse, Thread.waits]

theorem Thread.owns_rouse (th : Thread) : th.rouse.owns = th.owns := by
  rw [Thread.owns, Thread.sends_rouse, Thread.owns]

theorem Thread.rouse_ne_queued (th : Thread) (p : Pdu) : th.rouse ≠ .queued p := by
  cases th with
  | queued q => exact fun h => by cases h
  | out | roused q | writing q | resumed q | failing q un | failed q | closing un
    | returned ret => exact fun h => by cases h

/-- Whoever has a message in the write buffer owns the buffer. -/
theorem Thread.owns_of_sends (h : th.sends = some p) : th.owns = true := by
  rw [Thread.owns, h]
  rfl

theorem Thread.outside_queues (h : th.outside = true) : th.queues = none := by
  cases th with
  | out | returned ret => rfl
  | queued q | roused q | writing q | resumed q | failing q un | failed q | closing un => cases h

theorem Thread.outside_waits (h : th.outside = true) : th.waits = false := by
  rw [Thread.waits, Thread.outside_queues h]
  rfl

theorem Thread.outside_sends (h : th.outside = true) : th.sends = none := by
  cases th with
  | out | returned ret => rfl
  | queued q | roused q | writing q | resumed q | failing q un | failed q | closing un => cases h

theorem Thread.outside_owns (h : th.outside = true) : th.owns = false := by
  rw [Thread.owns, Thread.outside_sends h]
  rfl

/-- The owner of the buffer is not in the queue for it. -/
theorem Thread.owns_waits (h : th.owns = true) : th.waits = false := by
  cases th with
  | writing q | resumed q | failing q un | failed q | out | closing un | returned ret => rfl
  | queued q | roused q => cases h

/-- A thread goes on in its call, awake. -/
structure Thread.Follows (th th' : Thread) : Prop where
  queues : th'.queues = th.queues
  sends : th'.sends = th.sends
  awake : ∀ p, th' ≠ .queued p ∧ th' ≠ .writing p
  removes : th'.removes = true → th.removes = true

theorem Thread.unwatch_follows {th' : Thread} (h : th.unwatch = some th') :
    th.Follows th' ∧ th.removes = true := by
  cases th with
  | failing p un | closing un =>
    cases un with
    | true => cases h
    | false =>
      cases h
      exact ⟨⟨rfl, rfl, fun q => ⟨Thread.noConfusion, Thread.noConfusion⟩, fun _ => rfl⟩, rfl⟩
  | out | queued p | roused p | writing p | resumed p | failed p | returned ret => cases h

theorem Thread.removed_follows {th' : Thread} (h : th.removed = some th') :
    th.Follows th' ∧ th.removes = true := by
  cases th with
  | failing p un | closing un =>
    cases un with
    | false => cases h
    | true =>
      cases h
      exact ⟨⟨rfl, rfl, fun q => ⟨Thread.noConfusion, Thread.noConfusion⟩, fun _ => rfl⟩, rfl⟩
  | out | queued p | roused p | writing p | resumed p | failed p | returned ret => cases h

theorem Thread.spurious_follows {th' : Thread} (h : th.spurious = some th') :
    th.Follows th' := by
  cases th with
  | queued p | writing p =>
    cases h
    exact ⟨rfl, rfl, fun q => ⟨Thread.noConfusion, Thread.noConfusion⟩, id⟩
  | out | roused p | resumed p | failing p un | failed p | closing un | returned ret => cases h

/-- A broadcast wakes waiters, and a waiter owns nothing. -/
theorem countP_owns_rouse (ths : List Thread) :
    (ths.map Thread.rouse).countP Thread.owns = ths.countP Thread.owns := by
  rw [List.countP_map]
  exact List.countP_congr fun th _ => by rw [Function.comp_apply, Thread.owns_rouse]

theorem countP_waits_rouse (ths : List Thread) :
    (ths.map Thread.rouse).countP Thread.waits = ths.countP Thread.waits := by
  rw [List.countP_map]
  exact List.countP_congr fun th _ => by rw [Function.comp_apply, Thread.waits_rouse]

/-- The threads when one of them leaves a role and takes another. -/
theorem countP_set {role : Thread → Bool} (hth : ths[t]? = some th) {th' : Thread}
    (h : role th' = role th) : (ths.set t th').countP role = ths.countP role := by
  have hset := Refs.countP_set_add (p := role) hth th'
  rw [h] at hset
  exact Nat.add_right_cancel hset

/-- The only thread that has the buffer gives it back. -/
theorem no_owner (hone : ths.countP Thread.owns ≤ 1) (hth : ths[t]? = some th)
    (howns : th.owns = true) {th' : Thread} (hout : th'.owns = false) :
    (ths.set t th').countP Thread.owns = 0 := by
  have hset := Refs.countP_set_add (p := Thread.owns) hth th'
  rw [howns, hout, if_pos rfl, if_neg Bool.false_ne_true] at hset
  omega

/-- The thread that is signalled was the only one to sleep on `send_complete_`. -/
theorem signal_spec (hone : ths.countP Thread.owns ≤ 1) {u : ℕ} (h : signal ths u = some ths') :
    (∀ p, .writing p ∉ ths') ∧ ths'.countP Thread.owns = ths.countP Thread.owns
      ∧ ths'.countP Thread.waits = ths.countP Thread.waits
      ∧ ∀ th ∈ ths', th ∈ ths ∨ ∃ p, th = .resumed p ∧ .writing p ∈ ths := by
  rcases signal_cases h with ⟨hno, rfl⟩ | ⟨p, hu, rfl⟩
  · refine ⟨fun p hp => ?_, rfl, rfl, fun th hth => .inl hth⟩
    have hfalse := hno _ hp
    cases hfalse
  · refine ⟨fun q hq => ?_, countP_set hu rfl, countP_set hu rfl, fun th hth => ?_⟩
    · -- a second sleeper would have the buffer as well
      rcases List.mem_or_eq_of_mem_set hq with hmem | heq
      · have hzero : (ths.set u .out).countP Thread.owns = 0 := no_owner hone hu rfl rfl
        rw [List.countP_eq_zero] at hzero
        refine hzero (.writing q) ?_ rfl
        obtain ⟨v, hv⟩ := List.mem_iff_getElem?.mp hq
        by_cases hvu : v = u
        · subst hvu
          rw [List.getElem?_set_self (List.getElem?_eq_some_iff.mp hu).1] at hv
          cases hv
        · rw [List.getElem?_set_ne (Ne.symm hvu)] at hv
          refine List.mem_iff_getElem?.mpr ⟨v, ?_⟩
          rw [List.getElem?_set_ne (Ne.symm hvu), hv]
      · cases heq
    · rcases List.mem_or_eq_of_mem_set hth with hmem | rfl
      · exact .inl hmem
      · exact .inr ⟨p, rfl, List.mem_of_getElem? hu⟩

end Threads

/-! ## The invariant -/

/-- Is the poll thread in a callback of the descriptor? -/
def Poll.calls : Poll → Bool
  | .reading _ => true
  | .writing => true
  | _ => false

structure Inv (c : Conn) : Prop where
  streams : Streams c.link
  sized : ∀ th ∈ c.threads, ∀ p, th.queues = some p → Sized p
  waiting : c.waiters_ = c.threads.countP Thread.waits
  owners : c.threads.countP Thread.owns = if c.link.wpdu.buf.isSome then 1 else 0
  queued : ∀ p, .queued p ∈ c.threads → c.link.wpdu.buf.isSome = true
  completing : ∀ p, .writing p ∈ c.threads → c.unfinished ∨ c.killer = some .closeconn
  removing : ∀ th ∈ c.threads, th.removes = true → c.link.wdead = true
  live : c.killer = none → c.link.wdead = false ∧ c.rd = true ∧ c.cb = true
  dead : c.killer ≠ none → c.link.wdead = true
  gone : c.killer = some .read_cb ∨ c.killer = some .write_cb →
    c.cb = false ∧ c.poll.calls = false
  aborted : c.aborted = true → c.killer = some .closeconn ∨ c.killer = some .send

section Inv

variable {c c' : Conn} {t : ℕ} {th : Thread} {p : Pdu}

theorem inv_new (n : ℕ) : Inv (.new n) := by
  have hout : ∀ th ∈ (Conn.new n).threads, th = .out := fun th hth => List.eq_of_mem_replicate hth
  have hcount : ∀ role : Thread → Bool, role .out = false →
      (Conn.new n).threads.countP role = 0 := by
    intro role hrole
    rw [List.countP_eq_zero]
    intro th hth
    rw [hout th hth, hrole]
    exact Bool.false_ne_true
  refine ⟨⟨[], [], [], inv_start⟩, ?_, (hcount _ rfl).symm, hcount _ rfl, ?_, ?_, ?_, ?_, ?_, ?_,
    ?_⟩
  · intro th hth p hp
    rw [hout th hth] at hp
    cases hp
  · intro p hp
    cases hout _ hp
  · intro p hp
    cases hout _ hp
  · intro th hth hr
    rw [hout th hth] at hr
    cases hr
  · exact fun _ => ⟨rfl, rfl, rfl⟩
  · exact fun h => absurd rfl h
  · rintro (h | h)
    · cases h
    · cases h
  · intro h
    cases h

/-- One buffer, one owner at most. -/
theorem Inv.one_owner (h : Inv c) : c.threads.countP Thread.owns ≤ 1 := by
  rw [h.owners]
  split
  · exact Nat.le_refl _
  · exact Nat.zero_le _

/-- While the connection lives, nobody has killed it. -/
theorem Inv.killer_eq_none (h : Inv c) (hd : c.link.wdead = false) : c.killer = none := by
  by_contra hne
  rw [h.dead hne] at hd
  cases hd

/-- Nobody has the buffer of a connection that is not blocked and not dead. -/
theorem Inv.no_owner (h : Inv c) (hb : c.link.wpdu.buf.isSome = false) :
    ∀ th ∈ c.threads, th.owns = false := by
  have hzero := h.owners
  rw [hb, if_neg Bool.false_ne_true, List.countP_eq_zero] at hzero
  exact fun th hth => Bool.eq_false_iff.mpr (hzero th hth)

/-- The thread that has the buffer has filled it. -/
theorem Inv.buf_of_owns (h : Inv c) (hth : th ∈ c.threads) (howns : th.owns = true) :
    c.link.wpdu.buf.isSome = true := by
  by_contra hb
  rw [h.no_owner (Bool.eq_false_iff.mpr hb) th hth] at howns
  cases howns

/-- A thread changes its place, and not whether it has the buffer. -/
theorem Inv.set (h : Inv c) (hth : c.threads[t]? = some th) {th' : Thread} {n : ℕ}
    (hsz : ∀ p, th'.queues = some p → Sized p)
    (hn : n + (if th.waits then 1 else 0) = c.waiters_ + if th'.waits then 1 else 0)
    (howns : th'.owns = th.owns)
    (hq : ∀ p, th' = .queued p → c.link.wpdu.buf.isSome = true)
    (hw : ∀ p, th' = .writing p → c.unfinished ∨ c.killer = some .closeconn)
    (hr : th'.removes = true → c.link.wdead = true) :
    Inv { c with waiters_ := n, threads := c.threads.set t th' } := by
  refine ⟨h.streams, ?_, ?_, ?_, ?_, ?_, ?_, h.live, h.dead, h.gone, h.aborted⟩
  · intro th₁ hth₁ p hp
    rcases List.mem_or_eq_of_mem_set hth₁ with hmem | rfl
    · exact h.sized th₁ hmem p hp
    · exact hsz p hp
  · have hset := Refs.countP_set_add (p := Thread.waits) hth th'
    rw [← h.waiting] at hset
    show n = (c.threads.set t th').countP Thread.waits
    omega
  · exact (countP_set hth howns).trans h.owners
  · intro p hp
    rcases List.mem_or_eq_of_mem_set hp with hmem | heq
    · exact h.queued p hmem
    · exact hq p heq.symm
  · intro p hp
    rcases List.mem_or_eq_of_mem_set hp with hmem | heq
    · exact h.completing p hmem
    · exact hw p heq.symm
  · intro th₁ hth₁ hrem
    rcases List.mem_or_eq_of_mem_set hth₁ with hmem | rfl
    · exact h.removing th₁ hmem hrem
    · exact hr hrem

/-- A thread that goes on awake, with the same message and the same place, keeps the
invariant. -/
theorem Inv.follow (h : Inv c) (hth : c.threads[t]? = some th) {th' : Thread}
    (hf : th.Follows th') : Inv { c with threads := c.threads.set t th' } := by
  have hsz : ∀ p, th'.queues = some p → Sized p := by
    intro p hp
    rw [hf.queues] at hp
    exact h.sized th (List.mem_of_getElem? hth) p hp
  refine h.set hth hsz (by rw [Thread.waits, Thread.waits, hf.queues])
    (by rw [Thread.owns, hf.sends, Thread.owns]) ?_ ?_ ?_
  · exact fun p hp => absurd hp (hf.awake p).1
  · exact fun p hp => absurd hp (hf.awake p).2
  · exact fun hr => h.removing th (List.mem_of_getElem? hth) (hf.removes hr)

/-- A dead connection is taken out of the poll manager. -/
theorem Inv.unwatch (h : Inv c) (hd : c.link.wdead = true) {rd wr cb : Bool}
    (hcb : c.cb = false → cb = false) : Inv { c with rd, wr, cb } := by
  refine ⟨h.streams, h.sized, h.waiting, h.owners, h.queued, h.completing, h.removing, ?_, h.dead,
    ?_, h.aborted⟩
  · intro hnone
    have hlive := (h.live hnone).1
    rw [hd] at hlive
    cases hlive
  · exact fun hgone => ⟨hcb (h.gone hgone).1, (h.gone hgone).2⟩

/-- Some bytes were moved. -/
theorem Inv.move (h : Inv c) {l : Link} (hs : Streams l) (hd : l.wdead = c.link.wdead)
    (hbuf : l.wpdu.buf.isSome = c.link.wpdu.buf.isSome)
    (hw : ∀ p, .writing p ∈ c.threads → c.unfinished → { c with link := l }.unfinished) :
    Inv { c with link := l } := by
  refine ⟨hs, h.sized, h.waiting, ?_, ?_, ?_, ?_, ?_, ?_, h.gone, h.aborted⟩
  · show _ = if l.wpdu.buf.isSome then 1 else 0
    rw [hbuf, h.owners]
  · intro p hp
    show l.wpdu.buf.isSome = true
    rw [hbuf]
    exact h.queued p hp
  · exact fun p hp => (h.completing p hp).imp_left (hw p hp)
  · intro th hth hrem
    show l.wdead = true
    rw [hd]
    exact h.removing th hth hrem
  · intro hnone
    show l.wdead = false ∧ _
    rw [hd]
    exact h.live hnone
  · intro hne
    show l.wdead = true
    rw [hd]
    exact h.dead hne

/-- **The connection is marked dead.** Only `closeconn` does so while a sender sleeps on
`send_complete_`. -/
theorem Inv.kill (h : Inv c) (hna : c.aborted = false) (k : Killer) {l : Link} {rd wr cb : Bool}
    (hs : Streams { l with wdead := true })
    (hbuf : l.wpdu.buf.isSome = c.link.wpdu.buf.isSome)
    (hw : k = .closeconn ∨ ∀ p, .writing p ∉ c.threads)
    (hgone : k = .read_cb ∨ k = .write_cb → cb = false ∧ c.poll.calls = false) :
    Inv { c with link := { l with wdead := true }, killer := some k, rd, wr, cb } := by
  refine ⟨hs, h.sized, h.waiting, ?_, ?_, ?_, fun _ _ _ => rfl, ?_, fun _ => rfl, ?_, ?_⟩
  · show _ = if l.wpdu.buf.isSome then 1 else 0
    rw [hbuf, h.owners]
  · intro p hp
    show l.wpdu.buf.isSome = true
    rw [hbuf]
    exact h.queued p hp
  · intro p hp
    rcases hw with rfl | hw
    · exact .inr rfl
    · exact absurd hp (hw p)
  · intro hnone
    cases hnone
  · exact fun hk => hgone (hk.imp Option.some.inj Option.some.inj)
  · intro ha
    have ha' : c.aborted = true := ha
    rw [hna] at ha'
    cases ha'

/-- `add_callback(fd_, CB_WRONLY, this)`. -/
theorem Inv.watch (h : Inv c) (hd : c.link.wdead = false) :
    Inv { c with wr := true, cb := true } := by
  have hnone := h.killer_eq_none hd
  refine ⟨h.streams, h.sized, h.waiting, h.owners, h.queued, h.completing, h.removing, ?_, h.dead,
    ?_, h.aborted⟩
  · exact fun hk => ⟨hd, (h.live hk).2.1, rfl⟩
  · intro hk
    rw [hnone] at hk
    rcases hk with hk | hk
    · cases hk
    · cases hk

/-- **The sender is woken** from its sleep on `send_complete_`. -/
theorem Inv.signal (h : Inv c) {ths : List Thread} {u : ℕ}
    (hs : Senders.signal c.threads u = some ths) : Inv { c with threads := ths } := by
  obtain ⟨hno, howns, hwaits, hmem⟩ := signal_spec h.one_owner hs
  refine ⟨h.streams, ?_, h.waiting.trans hwaits.symm, howns.trans h.owners, ?_, ?_, ?_, h.live,
    h.dead, h.gone, h.aborted⟩
  · intro th hth p hp
    rcases hmem _ hth with hold | ⟨q, rfl, -⟩
    · exact h.sized th hold p hp
    · cases hp
  · intro p hp
    rcases hmem _ hp with hold | ⟨q, heq, -⟩
    · exact h.queued p hold
    · cases heq
  · exact fun p hp => absurd hp (hno p)
  · intro th hth hrem
    rcases hmem _ hth with hold | ⟨q, rfl, -⟩
    · exact h.removing th hold hrem
    · cases hrem

/-- **`send` takes the buffer.** -/
theorem inv_take (h : Inv c) (hth : c.threads[t]? = some th) (hout : th.outside = true)
    (hd : c.link.wdead = false) (hb : c.link.wpdu.buf.isSome = false) (hp : Sized p) :
    Inv (c.take t p) := by
  have hnone := h.no_owner hb
  refine ⟨streams_take h.streams hd hb hp, ?_, ?_, ?_, fun _ _ => rfl, ?_, ?_, h.live, h.dead,
    h.gone, h.aborted⟩
  · intro th₁ hth₁ q hq
    rcases List.mem_or_eq_of_mem_set hth₁ with hmem | rfl
    · exact h.sized th₁ hmem q hq
    · cases hq
  · exact h.waiting.trans (countP_set hth (Thread.outside_waits hout).symm).symm
  · have hset := Refs.countP_set_add (p := Thread.owns) hth (.resumed p)
    have howners := h.owners
    rw [hb, if_neg Bool.false_ne_true] at howners
    rw [howners, Thread.outside_owns hout, if_neg Bool.false_ne_true] at hset
    exact hset
  · intro q hq
    rcases List.mem_or_eq_of_mem_set hq with hmem | heq
    · have howns := hnone _ hmem
      cases howns
    · cases heq
  · intro th₁ hth₁ hrem
    rcases List.mem_or_eq_of_mem_set hth₁ with hmem | rfl
    · exact h.removing th₁ hmem hrem
    · cases hrem

/-- The threads at the end of `send`: nobody has the buffer, and nobody in the queue
sleeps. -/
theorem finish_threads (h : Inv c) (hth : c.threads[t]? = some th) (howns : th.owns = true)
    (p : Pdu) :
    (c.finish t p).threads.countP Thread.owns = 0
      ∧ (c.finish t p).threads.countP Thread.waits = c.waiters_
      ∧ (∀ q, .queued q ∉ (c.finish t p).threads)
      ∧ ∀ th ∈ (c.finish t p).threads, th.outside = true
        ∨ ∃ th₀ ∈ c.threads, th.queues = th₀.queues ∧ th.removes = th₀.removes := by
  unfold Conn.finish
  dsimp only
  generalize (!c.link.wdead && decide (c.link.wpdu.solong = c.link.wpdu.sz)) = ret
  have hzero : (c.threads.set t (.returned ret)).countP Thread.owns = 0 :=
    Senders.no_owner h.one_owner hth howns rfl
  have hwaits : (c.threads.set t (.returned ret)).countP Thread.waits = c.waiters_ :=
    (countP_set hth (Thread.owns_waits howns).symm).trans h.waiting.symm
  have hold : ∀ th ∈ c.threads.set t (.returned ret), th.outside = true
      ∨ ∃ th₀ ∈ c.threads, th.queues = th₀.queues ∧ th.removes = th₀.removes := by
    intro th₁ hth₁
    rcases List.mem_or_eq_of_mem_set hth₁ with hmem | rfl
    · exact .inr ⟨th₁, hmem, rfl, rfl⟩
    · exact .inl rfl
  split
  · refine ⟨(countP_owns_rouse _).trans hzero, (countP_waits_rouse _).trans hwaits, ?_, ?_⟩
    · intro q hq
      obtain ⟨th₀, -, heq⟩ := List.mem_map.mp hq
      exact th₀.rouse_ne_queued q heq
    · intro th₁ hth₁
      obtain ⟨th₂, hth₂, rfl⟩ := List.mem_map.mp hth₁
      rcases hold th₂ hth₂ with hout | ⟨th₀, hth₀, hqueues, hremoves⟩
      · cases th₂ with
        | out | returned ret => exact .inl rfl
        | queued q | roused q | writing q | resumed q | failing q un | failed q | closing un =>
          cases hout
      · exact .inr ⟨th₀, hth₀, (Thread.queues_rouse th₂).trans hqueues,
          (Thread.removes_rouse th₂).trans hremoves⟩
  · next hpos =>
    refine ⟨hzero, hwaits, fun q hq => hpos ?_, hold⟩
    rw [← hwaits]
    exact List.countP_pos_iff.mpr ⟨_, hq, rfl⟩

/-- **The end of `send`.** -/
theorem inv_finish (h : Inv c) (hth : c.threads[t]? = some th) (howns : th.owns = true)
    (hend : c.link.wdead = true ∨ c.link.wpdu.sz ≤ c.link.wpdu.solong) (p : Pdu) :
    Inv (c.finish t p) := by
  obtain ⟨hzero, hwaits, hawake, hold⟩ := finish_threads h hth howns p
  refine ⟨streams_free h.streams hend, ?_, hwaits.symm, hzero, ?_, ?_, ?_, h.live, h.dead, h.gone,
    h.aborted⟩
  · intro th₁ hth₁ q hq
    rcases hold th₁ hth₁ with hout | ⟨th₀, hth₀, hqueues, -⟩
    · rw [Thread.outside_queues hout] at hq
      cases hq
    · rw [hqueues] at hq
      exact h.sized th₀ hth₀ q hq
  · exact fun q hq => absurd hq (hawake q)
  · intro q hq
    exact absurd rfl (List.countP_eq_zero.mp hzero _ hq)
  · intro th₁ hth₁ hrem
    rcases hold th₁ hth₁ with hout | ⟨th₀, hth₀, -, hremoves⟩
    · cases th₁ with
      | out | returned ret => cases hrem
      | queued q | roused q | writing q | resumed q | failing q un | failed q | closing un =>
        cases hout
    · rw [hremoves] at hrem
      exact h.removing th₀ hth₀ hrem

/-- The loop on `send_complete_` ends when the PDU is written, or the connection dead. -/
theorem Inv.ended (h : Inv c) (hth : c.threads[t]? = some th) (howns : th.owns = true)
    (hun : ¬ c.unfinished) : c.link.wdead = true ∨ c.link.wpdu.sz ≤ c.link.wpdu.solong := by
  by_contra hno
  obtain ⟨hd, hlt⟩ := not_or.mp hno
  have hd := Bool.eq_false_iff.mpr hd
  have hbuf := h.buf_of_owns (List.mem_of_getElem? hth) howns
  exact hun ⟨hd, (streams_busy h.streams hd hbuf).1, Int.not_le.mp hlt⟩

/-- A woken sender sleeps again while its message is not written; otherwise it clears the
buffer on its way out. -/
theorem inv_complete (h : Inv c) (hth : c.threads[t]? = some (.resumed p)) :
    Inv (c.complete t p) := by
  unfold Conn.complete
  split
  · next hun =>
    exact h.set hth (fun q hq => by cases hq) rfl rfl (fun q hq => by cases hq)
      (fun q _ => .inl hun) fun hr => by cases hr
  · next hun => exact inv_finish h hth rfl (h.ended hth rfl hun) p

/-- A thread that has just taken the buffer. -/
theorem take_threads (h : Inv c) (hth : c.threads[t]? = some th) (hd : c.link.wdead = false)
    (hb : c.blocked = false) :
    c.link.wpdu.buf.isSome = false ∧ (c.take t p).threads[t]? = some (.resumed p)
      ∧ ∀ q, .writing q ∉ (c.take t p).threads := by
  have hbuf : c.link.wpdu.buf.isSome = false := by
    rw [Conn.blocked, hd] at hb
    exact hb
  refine ⟨hbuf, List.getElem?_set_self (List.getElem?_eq_some_iff.mp hth).1, fun q hq => ?_⟩
  rcases List.mem_or_eq_of_mem_set hq with hmem | heq
  · have howns := h.no_owner hbuf _ hmem
    cases howns
  · cases heq

/-- The first `write()` of a PDU has not failed. -/
theorem inv_wrote (h : Inv (c.take t p)) (hd : c.link.wdead = false)
    (hnone : ∀ q, .writing q ∉ (c.take t p).threads) {w : Write} {l : Link}
    (hwrite : writepdu (c.take t p).link w = some (l, true)) :
    Inv { c.take t p with link := l } ∧ l.wdead = false := by
  obtain ⟨-, hdl, hbufl, -, -⟩ := writepdu_keeps hwrite
  rcases streams_write h.streams hd hwrite with ⟨-, hl⟩ | ⟨hsucc, -⟩
  · exact ⟨h.move hl hdl hbufl fun q hq => absurd hq (hnone q), hdl.trans hd⟩
  · cases hsucc

/-- **`send` after its wait for the buffer.** -/
theorem inv_proceed (h : Inv c) (hna : c.aborted = false) (hth : c.threads[t]? = some th)
    (hout : th.outside = true) (hb : c.blocked = false) (hp : Sized p) {w : Write}
    (hs : c.proceed t p w = some c') : Inv c' := by
  rcases proceed_cases hs with ⟨-, rfl⟩ | ⟨hd, l, hcases⟩
  · have hset : Inv { c with threads := c.threads.set t (.returned false) } :=
      h.set hth (fun q hq => by cases hq) (by rw [Thread.outside_waits hout]; rfl)
        (Thread.outside_owns hout).symm (fun q hq => by cases hq) (fun q hq => by cases hq)
        fun hr => by cases hr
    exact ⟨hset.streams, hset.sized, hset.waiting, hset.owners, hset.queued, hset.completing,
      hset.removing, hset.live, hset.dead, hset.gone, hset.aborted⟩
  · obtain ⟨hbuf, hown, hnone⟩ := take_threads (p := p) h hth hd hb
    have htake := inv_take h hth hout hd hbuf hp
    rcases hcases with ⟨hwrite, rfl⟩ | ⟨hwrite, hend, rfl⟩ | ⟨hwrite, rfl⟩
    · obtain ⟨-, -, hbufl, -, -⟩ := writepdu_keeps hwrite
      have hl : Streams { l with wdead := true } := by
        rcases streams_write htake.streams hd hwrite with ⟨hsucc, -⟩ | ⟨-, hl⟩
        · cases hsucc
        · exact hl
      have hkill : Inv { c.take t p with
          link := { l with wdead := true }, killer := some .send } :=
        htake.kill hna .send hl hbufl (.inr hnone) fun hk => by rcases hk with hk | hk <;> cases hk
      exact hkill.set hown (fun q hq => by cases hq) rfl rfl (fun q hq => by cases hq)
        (fun q hq => by cases hq) fun _ => rfl
    · obtain ⟨hwrote, -⟩ := inv_wrote htake hd hnone hwrite
      exact inv_finish hwrote hown rfl (.inr (Int.le_of_eq hend.symm)) p
    · obtain ⟨hwrote, hdl⟩ := inv_wrote htake hd hnone hwrite
      exact inv_complete (hwrote.watch hdl) hown

/-- The poll thread goes on. -/
theorem Inv.poll (h : Inv c) {poll : Poll} (hcalls : poll.calls = false) : Inv { c with poll } :=
  ⟨h.streams, h.sized, h.waiting, h.owners, h.queued, h.completing, h.removing, h.live, h.dead,
    fun hk => ⟨(h.gone hk).1, hcalls⟩, h.aborted⟩

/-- No callback is made of a descriptor whose callback was deleted. -/
theorem dispatch_calls {poll : Poll} (hcb : c.cb = false) (h : c.dispatch = some poll) :
    poll.calls = false := by
  unfold Conn.dispatch at h
  rw [hcb] at h
  split at h
  · cases h
    rfl
  · cases h
    rfl
  · cases h
    rfl
  · cases h

/-- What the other end does leaves the buffer and all that was written as they were. -/
theorem Inv.peer (h : Inv c) {l : Link} (hk : Kept c.link l) (hs : Streams l) :
    Inv { c with link := l } := by
  refine h.move hs hk.wdead (by rw [hk.wpdu]) fun q _ hun => ?_
  unfold Conn.unfinished
  rw [hk.wdead, hk.wpdu]
  exact hun

theorem inv_read_cb (h : Inv c) (hna : c.aborted = false) {wr succ : Bool} {u : ℕ}
    (hs : c.read_cb wr succ u = some c') : Inv c' := by
  have hpoll : Inv { c with poll := .found false wr } := h.poll rfl
  rcases read_cb_cases hs with rfl | ⟨-, ths, hsig, rfl⟩
  · exact hpoll
  · have hno := (signal_spec h.one_owner hsig).1
    exact (hpoll.signal hsig).kill hna .read_cb (streams_dead h.streams _) rfl (.inr hno)
      fun _ => ⟨rfl, rfl⟩

/-- Only `closeconn` or a failing `send` can have marked the connection dead when
`write_cb` is called. -/
theorem Inv.verify_killer (h : Inv c) (hd : c.link.wdead = true) (hcalls : c.poll.calls = true) :
    c.killer = some .closeconn ∨ c.killer = some .send := by
  cases hk : c.killer with
  | none =>
    rw [(h.live hk).1] at hd
    cases hd
  | some k =>
    cases k with
    | closeconn => exact .inl rfl
    | send => exact .inr rfl
    | read_cb =>
      rw [(h.gone (.inl hk)).2] at hcalls
      cases hcalls
    | write_cb =>
      rw [(h.gone (.inr hk)).2] at hcalls
      cases hcalls

/-- The callback writes for the owner, and signals it once the message is written or the
connection broken. -/
theorem inv_write_cb (h : Inv c) (hna : c.aborted = false) (hcalls : c.poll = .writing)
    {w : Write} {u : ℕ} (hs : c.write_cb w u = some c') : Inv c' := by
  have haway : Inv { c with poll := .away } := h.poll rfl
  rcases write_cb_cases hs with ⟨hd, rfl⟩ | ⟨hd, ⟨-, rfl⟩ | ⟨l, ths, hwrite, hsig, rfl⟩
    | ⟨l, hwrite, hlt, rfl⟩ | ⟨l, ths, hwrite, hsig, rfl⟩⟩
  · exact ⟨h.streams, h.sized, h.waiting, h.owners, h.queued, h.completing, h.removing, h.live,
      h.dead, h.gone, fun _ => h.verify_killer hd (by rw [hcalls]; rfl)⟩
  · obtain ⟨-, hrd, hcb⟩ := h.live (h.killer_eq_none hd)
    have heq : (c.rd && c.cb) = c.cb := by rw [hrd, Bool.true_and]
    rw [heq]
    exact ⟨h.streams, h.sized, h.waiting, h.owners, h.queued, h.completing, h.removing, h.live,
      h.dead, haway.gone, h.aborted⟩
  · obtain ⟨-, -, hbufl, -, -⟩ := writepdu_keeps hwrite
    have hno := (signal_spec h.one_owner hsig).1
    rcases streams_write h.streams hd hwrite with ⟨hsucc, -⟩ | ⟨-, hl⟩
    · cases hsucc
    · exact (haway.signal hsig).kill hna .write_cb hl hbufl (.inr hno) fun _ => ⟨rfl, rfl⟩
  · obtain ⟨-, hdl, hbufl, -, -⟩ := writepdu_keeps hwrite
    rcases streams_write h.streams hd hwrite with ⟨-, hl⟩ | ⟨hsucc, -⟩
    · refine haway.move hl hdl hbufl fun q hq _ => ⟨hdl.trans hd, ?_, hlt⟩
      have hbuf : c.link.wpdu.buf.isSome = true := h.buf_of_owns hq rfl
      exact (streams_busy hl (hdl.trans hd) (hbufl.trans hbuf)).1
    · cases hsucc
  · obtain ⟨-, hdl, hbufl, -, -⟩ := writepdu_keeps hwrite
    have hno := (signal_spec h.one_owner hsig).1
    rcases streams_write h.streams hd hwrite with ⟨-, hl⟩ | ⟨hsucc, -⟩
    · exact (haway.signal hsig).move hl hdl hbufl fun q hq => absurd hq (hno q)
    · cases hsucc

/-- A thread leaves the queue. -/
theorem inv_leave (h : Inv c) (hth : c.threads[t]? = some (.roused p)) :
    Inv { c with waiters_ := c.waiters_ - 1, threads := c.threads.set t .out } := by
  have hpos : 0 < c.waiters_ := by
    rw [h.waiting]
    exact List.countP_pos_iff.mpr ⟨_, List.mem_of_getElem? hth, rfl⟩
  exact h.set hth (fun q hq => by cases hq) (Nat.sub_add_cancel hpos) rfl
    (fun q hq => by cases hq) (fun q hq => by cases hq) fun hr => by cases hr

/-- **One step.** -/
theorem inv_step {a : Act} (ha : a.Sized) (h : Inv c) (hs : step c a = some c') : Inv c' := by
  obtain ⟨hna, hm⟩ := moves_of_step hs
  cases hm with
  | enqueue hth hout hb =>
    have hbuf : c.link.wpdu.buf.isSome = true := (Bool.and_eq_true_iff.mp hb).2
    refine h.set hth ?_ ?_ (Thread.outside_owns hout).symm (fun q _ => hbuf)
      (fun q hq => by cases hq) fun hr => by cases hr
    · intro q hq
      obtain rfl := Option.some.inj hq
      exact ha
    · rw [Thread.outside_waits hout]
      rfl
  | proceed hth hout hb hs => exact inv_proceed h hna hth hout hb ha hs
  | requeue hth hb =>
    have hbuf : c.link.wpdu.buf.isSome = true := (Bool.and_eq_true_iff.mp hb).2
    exact h.set hth (fun q hq => h.sized (.roused _) (List.mem_of_getElem? hth) q hq) rfl rfl
      (fun q _ => hbuf) (fun q hq => by cases hq) fun hr => by cases hr
  | @leave t p w c' hth hb hs =>
    have hlt : t < c.threads.length := (List.getElem?_eq_some_iff.mp hth).1
    have hp : Sized p := h.sized _ (List.mem_of_getElem? hth) p rfl
    exact inv_proceed (inv_leave h hth) hna (List.getElem?_set_self hlt) rfl hb hp hs
  | complete hth => exact inv_complete h hth
  | finish hth =>
    exact inv_finish h hth rfl (.inl (h.removing _ (List.mem_of_getElem? hth) rfl)) _
  | closeconn hth hout =>
    unfold Conn.closeconn
    have hwaits := Thread.outside_waits hout
    have howns := Thread.outside_owns hout
    split
    · exact h.set hth (fun q hq => by cases hq) (by rw [hwaits]; rfl) howns.symm
        (fun q hq => by cases hq) (fun q hq => by cases hq) fun hr => by cases hr
    · have hkill : Inv { c with
          link := { c.link with wdead := true }, killer := some .closeconn } :=
        h.kill hna .closeconn (streams_dead h.streams _) rfl (.inl rfl)
          fun hk => by rcases hk with hk | hk <;> cases hk
      exact hkill.set hth (fun q hq => by cases hq) (by rw [hwaits]; rfl) howns.symm
        (fun q hq => by cases hq) (fun q hq => by cases hq) fun _ => rfl
  | unwatch hth hun =>
    obtain ⟨hfollows, hrem⟩ := Thread.unwatch_follows hun
    have hd := h.removing _ (List.mem_of_getElem? hth) hrem
    have hunwatched : Inv { c with rd := false, wr := false } := h.unwatch hd id
    exact hunwatched.follow hth hfollows
  | removed hpoll hth hre =>
    obtain ⟨hfollows, hrem⟩ := Thread.removed_follows hre
    have hd := h.removing _ (List.mem_of_getElem? hth) hrem
    have hremoved : Inv { c with cb := false } := h.unwatch hd fun _ => rfl
    exact hremoved.follow hth hfollows
  | spurious hth hsp => exact h.follow hth (Thread.spurious_follows hsp)
  | ready hpoll hrd hwr => exact h.poll rfl
  | @dispatch poll hpoll =>
    refine ⟨h.streams, h.sized, h.waiting, h.owners, h.queued, h.completing, h.removing, h.live,
      h.dead, fun hk => ⟨(h.gone hk).1, ?_⟩, h.aborted⟩
    exact dispatch_calls (h.gone hk).1 hpoll
  | read_cb hpoll hs => exact inv_read_cb h hna hs
  | write_cb hpoll hs => exact inv_write_cb h hna hpoll hs
  | peer_read hlink =>
    obtain ⟨-, hread⟩ := Option.ite_none_left_eq_some.mp hlink
    refine h.peer (kept_read_cb hread) (streams_step h.streams ?_ hlink)
    exact trivial
  | peer_close hlink =>
    have hsized : SizedAct .closeReceiver := trivial
    have hstreams := streams_step h.streams hsized hlink
    cases hlink
    exact h.peer ⟨rfl, rfl, rfl, rfl⟩ hstreams

theorem inv_run {n : ℕ} {acts : List Act} (ha : ∀ a ∈ acts, a.Sized)
    (hs : Steps.run step (.new n) acts = some c) : Inv c :=
  Steps.run_inv_forall (fun _ _ _ h ha hs => inv_step ha h hs) (inv_new n) ha hs

end Inv

/-! ## The order of the PDUs -/

/-- What was sent by the sends that have returned true. -/
def sentBy (done : List (Pdu × Bool)) : List Pdu := (done.filter Prod.snd).map Prod.fst

/-- The PDUs of the threads that have the buffer. -/
def owners (ths : List Thread) : List Pdu := ths.filterMap Thread.sends

theorem sentBy_append_false (done : List (Pdu × Bool)) (p : Pdu) :
    sentBy (done ++ [(p, false)]) = sentBy done := by
  rw [sentBy, List.filter_append, List.map_append]
  exact List.append_nil _

theorem sentBy_append_true (done : List (Pdu × Bool)) (p : Pdu) :
    sentBy (done ++ [(p, true)]) = sentBy done ++ [p] := by
  rw [sentBy, List.filter_append, List.map_append]
  rfl

theorem length_owners (ths : List Thread) : (owners ths).length = ths.countP Thread.owns :=
  List.length_filterMap_eq_countP ..

theorem owners_set {ths : List Thread} {t : ℕ} {th th' : Thread} (hth : ths[t]? = some th)
    (h : th'.sends = th.sends) : owners (ths.set t th') = owners ths := by
  have hmap : (ths.set t th').map Thread.sends = ths.map Thread.sends := by
    rw [List.map_set, h]
    refine List.ext_getElem? fun u => ?_
    by_cases hu : u = t
    · subst hu
      have hlt : u < (ths.map Thread.sends).length := by
        rw [List.length_map]
        exact (List.getElem?_eq_some_iff.mp hth).1
      rw [List.getElem?_set_self hlt, List.getElem?_map, hth]
      rfl
    · rw [List.getElem?_set_ne (Ne.symm hu)]
  have hid : ∀ l : List Thread, owners l = (l.map Thread.sends).filterMap id := fun l => by
    rw [List.filterMap_map]
    rfl
  rw [hid, hid, hmap]

/-- An owner that is woken is still the owner. -/
theorem owners_signal {ths ths' : List Thread} {u : ℕ} (h : signal ths u = some ths') :
    owners ths' = owners ths := by
  rcases signal_cases h with ⟨-, rfl⟩ | ⟨p, hu, rfl⟩
  · rfl
  · exact owners_set hu rfl

section Ordered

variable {c c' : Conn} {t : ℕ} {th : Thread} {p : Pdu}

/-- A thread with a message in the buffer is the only owner. -/
theorem Inv.owners_eq (h : Inv c) (hth : th ∈ c.threads) (hp : th.sends = some p) :
    Senders.owners c.threads = [p] := by
  have hmem : p ∈ Senders.owners c.threads := List.mem_filterMap.mpr ⟨th, hth, hp⟩
  have hone := h.one_owner
  rw [← length_owners] at hone
  obtain ⟨q, hq⟩ := List.length_eq_one_iff.mp
    (Nat.le_antisymm hone (List.length_pos_of_mem hmem))
  rw [hq] at hmem ⊢
  rw [List.mem_singleton.mp hmem]

/-- What was sent is what was sent with success, and perhaps one PDU more; what was sent
with success is written. -/
structure Ordered (c : Conn) : Prop where
  slots : c.link.sent = sentBy c.done ++ owners c.threads
    ∨ owners c.threads = [] ∧ c.link.wdead = true
      ∧ ∃ p, (p, false) ∈ c.done ∧ c.link.sent = sentBy c.done ++ [p]
  whole : ((sentBy c.done).map frame).flatten <+: written c.link

/-- The buffer stays with who has it. -/
theorem Ordered.mono (h : Ordered c) (hdone : c'.done = c.done)
    (hown : owners c'.threads = owners c.threads) (hsent : c'.link.sent = c.link.sent)
    (hd : c.link.wdead = true → c'.link.wdead = true)
    (hw : written c.link <+: written c'.link) : Ordered c' := by
  refine ⟨?_, ?_⟩
  · rw [hdone, hown, hsent]
    exact h.slots.imp_right fun ⟨hnil, hdead, hp⟩ => ⟨hnil, hd hdead, hp⟩
  · rw [hdone]
    exact h.whole.trans hw

/-- The owner leaves the buffer. Its message was sent in full or the connection is dead. -/
theorem ordered_finish (h : Inv c) (ho : Ordered c) (hth : c.threads[t]? = some th)
    (hp : th.sends = some p)
    (hend : c.link.wdead = true ∨ c.link.wpdu.sz ≤ c.link.wpdu.solong) :
    Ordered (c.finish t p) := by
  have hmem := List.mem_of_getElem? hth
  have howns := Thread.owns_of_sends hp
  have hnil : owners (c.finish t p).threads = [] := by
    rw [← List.length_eq_zero_iff, length_owners]
    exact (finish_threads h hth howns p).1
  have hsent : c.link.sent = sentBy c.done ++ [p] := by
    have hown := h.owners_eq hmem hp
    rcases ho.slots with hslots | ⟨hempty, -⟩
    · rw [hslots, hown]
    · rw [hown] at hempty
      cases hempty
  cases hd : c.link.wdead with
  | true =>
    have hdone : (c.finish t p).done = c.done ++ [(p, false)] := by
      show c.done ++ [(p, !c.link.wdead && _)] = _
      rw [hd]
      rfl
    refine ⟨.inr ⟨hnil, hd, p, ?_, ?_⟩, ?_⟩
    · rw [hdone]
      exact List.mem_append_right _ (List.mem_singleton_self _)
    · rw [hdone, sentBy_append_false]
      exact hsent
    · rw [hdone, sentBy_append_false]
      exact ho.whole
  | false =>
    rw [hd] at hend
    have hle := hend.resolve_left Bool.false_ne_true
    have hbusy := streams_busy h.streams hd (h.buf_of_owns hmem howns)
    have hdone : (c.finish t p).done = c.done ++ [(p, true)] := by
      show c.done ++ [(p, !c.link.wdead && decide (c.link.wpdu.solong = c.link.wpdu.sz))] = _
      rw [hd, decide_eq_true (Int.le_antisymm hbusy.2 hle)]
      rfl
    refine ⟨.inl ?_, ?_⟩
    · rw [hdone, sentBy_append_true, hnil, List.append_nil]
      exact hsent
    · rw [hdone, sentBy_append_true, ← hsent]
      have hall := written_all h.streams hd hle
      exact hall.symm ▸ List.prefix_rfl

theorem ordered_complete (h : Inv c) (ho : Ordered c) (hth : c.threads[t]? = some (.resumed p)) :
    Ordered (c.complete t p) := by
  unfold Conn.complete
  split
  · exact ho.mono rfl (owners_set hth rfl) rfl id List.prefix_rfl
  · next hun => exact ordered_finish h ho hth rfl (h.ended hth rfl hun)

/-- A new owner comes after every message sent before it, since the buffer was free. -/
theorem ordered_take (h : Inv c) (ho : Ordered c) (hd : c.link.wdead = false)
    (hb : c.link.wpdu.buf.isSome = false) (htake : Inv (c.take t p))
    (hown : (c.take t p).threads[t]? = some (.resumed p)) : Ordered (c.take t p) := by
  have hnil : owners c.threads = [] := by
    rw [← List.length_eq_zero_iff, length_owners, h.owners, hb]
    rfl
  have hsent : c.link.sent = sentBy c.done := by
    rcases ho.slots with hslots | ⟨-, hdead, -⟩
    · rw [hslots, hnil, List.append_nil]
    · rw [hd] at hdead
      cases hdead
  refine ⟨.inl ?_, ho.whole⟩
  rw [htake.owners_eq (List.mem_of_getElem? hown) rfl]
  exact congrArg (· ++ [p]) hsent

theorem ordered_proceed (h : Inv c) (ho : Ordered c) (hth : c.threads[t]? = some th)
    (hout : th.outside = true) (hb : c.blocked = false) (hp : Sized p) {w : Write}
    (hs : c.proceed t p w = some c') : Ordered c' := by
  rcases proceed_cases hs with ⟨-, rfl⟩ | ⟨hd, l, hcases⟩
  · have hset : owners (c.threads.set t (.returned false)) = owners c.threads :=
      owners_set hth (Thread.outside_sends hout).symm
    have hdone := sentBy_append_false c.done p
    refine ⟨?_, ?_⟩
    · show c.link.sent = sentBy (c.done ++ [(p, false)]) ++ owners (c.threads.set t _)
        ∨ owners (c.threads.set t _) = [] ∧ _ ∧ ∃ q, _ ∧ c.link.sent = sentBy (c.done ++ _) ++ [q]
      rw [hset, hdone]
      refine ho.slots.imp_right fun ⟨hnil, hdead, q, hq, hsent⟩ => ⟨hnil, hdead, q, ?_, hsent⟩
      exact List.mem_append_left _ hq
    · show ((sentBy (c.done ++ [(p, false)])).map frame).flatten <+: _
      rw [hdone]
      exact ho.whole
  · obtain ⟨hbuf, hown, hnone⟩ := take_threads (p := p) h hth hd hb
    have htake := inv_take h hth hout hd hbuf hp
    have hotake := ordered_take h ho hd hbuf htake hown
    rcases hcases with ⟨hwrite, rfl⟩ | ⟨hwrite, hend, rfl⟩ | ⟨hwrite, rfl⟩
    · obtain ⟨hsent, -, -, hw, -⟩ := writepdu_keeps hwrite
      exact hotake.mono rfl (owners_set hown rfl) hsent (fun _ => rfl) hw
    · obtain ⟨hwrote, -⟩ := inv_wrote htake hd hnone hwrite
      obtain ⟨hsent, hdl, -, hw, -⟩ := writepdu_keeps hwrite
      have howrote : Ordered { c.take t p with link := l } :=
        hotake.mono rfl rfl hsent (fun hdead => hdl.trans hdead) hw
      exact ordered_finish hwrote howrote hown rfl (.inr (Int.le_of_eq hend.symm))
    · obtain ⟨hwrote, hdl⟩ := inv_wrote htake hd hnone hwrite
      obtain ⟨hsent, hdl', -, hw, -⟩ := writepdu_keeps hwrite
      have howrote : Ordered { c.take t p with link := l, wr := true, cb := true } :=
        hotake.mono rfl rfl hsent (fun hdead => hdl'.trans hdead) hw
      exact ordered_complete (hwrote.watch hdl) howrote hown

/-- Every step keeps what was sent in the order in which the senders took the buffer. -/
theorem ordered_step {a : Act} (ha : a.Sized) (h : Inv c) (ho : Ordered c)
    (hs : step c a = some c') : Ordered c' := by
  obtain ⟨hna, hm⟩ := moves_of_step hs
  cases hm with
  | enqueue hth hout hb =>
    exact ho.mono rfl (owners_set hth (Thread.outside_sends hout).symm) rfl id List.prefix_rfl
  | proceed hth hout hb hs => exact ordered_proceed h ho hth hout hb ha hs
  | requeue hth hb => exact ho.mono rfl (owners_set hth rfl) rfl id List.prefix_rfl
  | @leave t p w c' hth hb hs =>
    have hlt : t < c.threads.length := (List.getElem?_eq_some_iff.mp hth).1
    have hp : Sized p := h.sized _ (List.mem_of_getElem? hth) p rfl
    refine ordered_proceed (inv_leave h hth) ?_ (List.getElem?_set_self hlt) rfl hb hp hs
    exact ho.mono rfl (owners_set hth rfl) rfl id List.prefix_rfl
  | complete hth => exact ordered_complete h ho hth
  | finish hth =>
    have hd := h.removing _ (List.mem_of_getElem? hth) rfl
    exact ordered_finish h ho hth rfl (.inl hd)
  | closeconn hth hout =>
    have hnone := (Thread.outside_sends hout).symm
    unfold Conn.closeconn
    split
    · exact ho.mono rfl (owners_set hth hnone) rfl id List.prefix_rfl
    · exact ho.mono rfl (owners_set hth hnone) rfl (fun _ => rfl) List.prefix_rfl
  | unwatch hth hun =>
    have hsends := (Thread.unwatch_follows hun).1.sends
    exact ho.mono rfl (owners_set hth hsends) rfl id List.prefix_rfl
  | removed hpoll hth hre =>
    have hsends := (Thread.removed_follows hre).1.sends
    exact ho.mono rfl (owners_set hth hsends) rfl id List.prefix_rfl
  | spurious hth hsp =>
    have hsends := (Thread.spurious_follows hsp).sends
    exact ho.mono rfl (owners_set hth hsends) rfl id List.prefix_rfl
  | ready hpoll hrd hwr => exact ho.mono rfl rfl rfl id List.prefix_rfl
  | dispatch hpoll => exact ho.mono rfl rfl rfl id List.prefix_rfl
  | read_cb hpoll hs =>
    rcases read_cb_cases hs with rfl | ⟨-, ths, hsig, rfl⟩
    · exact ho.mono rfl rfl rfl id List.prefix_rfl
    · exact ho.mono rfl (owners_signal hsig) rfl (fun _ => rfl) List.prefix_rfl
  | write_cb hpoll hs =>
    rcases write_cb_cases hs with ⟨hd, rfl⟩ | ⟨hd, ⟨-, rfl⟩ | ⟨l, ths, hwrite, hsig, rfl⟩
      | ⟨l, hwrite, -, rfl⟩ | ⟨l, ths, hwrite, hsig, rfl⟩⟩
    · exact ho.mono rfl rfl rfl id List.prefix_rfl
    · exact ho.mono rfl rfl rfl id List.prefix_rfl
    · obtain ⟨hsent, -, -, hw, -⟩ := writepdu_keeps hwrite
      exact ho.mono rfl (owners_signal hsig) hsent (fun _ => rfl) hw
    · obtain ⟨hsent, hdl, -, hw, -⟩ := writepdu_keeps hwrite
      exact ho.mono rfl rfl hsent (fun hdead => hdl.trans hdead) hw
    · obtain ⟨hsent, hdl, -, hw, -⟩ := writepdu_keeps hwrite
      exact ho.mono rfl (owners_signal hsig) hsent (fun hdead => hdl.trans hdead) hw
  | peer_read hlink =>
    obtain ⟨-, hread⟩ := Option.ite_none_left_eq_some.mp hlink
    have hk := kept_read_cb hread
    exact ho.mono rfl rfl hk.sent (fun hdead => hk.wdead.trans hdead)
      (hk.written ▸ List.prefix_rfl)
  | peer_close hlink =>
    cases hlink
    exact ho.mono rfl rfl rfl id List.prefix_rfl

/-- **The PDUs of concurrent senders never mix.** What was written is, one after the other,
the whole PDUs of the sends that have returned true, in the order in which they returned,
and a part of at most one PDU more: that of a thread that is sending it now, or, on a dead
connection, that of a send that has returned false. The other end accepts these PDUs in
this order, each of them once. -/
theorem sends_never_mix {n : ℕ} {acts : List Act} (ha : ∀ a ∈ acts, a.Sized)
    (hs : Steps.run step (.new n) acts = some c) :
    ∃ (last : List Pdu) (part : List UInt8),
      (last = [] ∨ ∃ p, last = [p] ∧ ((∃ th ∈ c.threads, th.sends = some p)
        ∨ (c.link.wdead = true ∧ (p, false) ∈ c.done)))
      ∧ written c.link = ((sentBy c.done).map frame).flatten ++ part
      ∧ part <+: (last.map frame).flatten
      ∧ c.link.accepted <+: (sentBy c.done ++ last).map frame := by
  obtain ⟨h, ho⟩ : Inv c ∧ Ordered c := by
    refine Steps.run_inv_forall (P := fun c => Inv c ∧ Ordered c) ?_ ⟨inv_new n, ?_⟩ ha hs
    · exact fun q a q' hq ha hs => ⟨inv_step ha hq.1 hs, ordered_step ha hq.1 hq.2 hs⟩
    · refine ⟨.inl ?_, List.nil_prefix⟩
      have hnil : owners (Conn.new n).threads = [] := by
        rw [← List.length_eq_zero_iff, length_owners]
        exact (inv_new n).owners
      rw [hnil]
      rfl
  obtain ⟨last, hsent, hlast⟩ : ∃ last, c.link.sent = sentBy c.done ++ last
      ∧ (last = [] ∨ ∃ p, last = [p] ∧ ((∃ th ∈ c.threads, th.sends = some p)
        ∨ (c.link.wdead = true ∧ (p, false) ∈ c.done))) := by
    rcases ho.slots with hslots | ⟨-, hd, p, hp, hsent⟩
    · refine ⟨owners c.threads, hslots, ?_⟩
      cases hown : owners c.threads with
      | nil => exact .inl rfl
      | cons p tl =>
        have hmem : p ∈ owners c.threads := by
          rw [hown]
          exact List.mem_cons_self
        obtain ⟨th, hth, hp⟩ := List.mem_filterMap.mp hmem
        rw [← hown, h.owners_eq hth hp]
        exact .inr ⟨p, rfl, .inl ⟨th, hth, hp⟩⟩
    · exact ⟨[p], hsent, .inr ⟨p, rfl, .inr ⟨hd, hp⟩⟩⟩
  obtain ⟨part, hpart⟩ := ho.whole
  refine ⟨last, part, hlast, hpart.symm, ?_, ?_⟩
  · have hprefix := written_of_streams h.streams
    rw [← hpart, hsent, List.map_append, List.flatten_append] at hprefix
    exact (List.prefix_append_right_inj _).mp hprefix
  · obtain ⟨pending, got, unwritten, hinv⟩ := h.streams
    rw [← hsent, hinv.frames]
    exact List.prefix_append ..

/-- Two threads send at once. `write()` takes 10 bytes of the first PDU, and `write_cb`
writes the rest while the second thread is queued; the other end reads both. -/
def twoThreads : List Act :=
  [.send 0 ⟨fun _ => 7, 24⟩ (.accept 10), .send 1 ⟨fun _ => 8, 24⟩ .eagain, .ready false true,
    .dispatch, .write_cb (.accept 14) 0, .resume 0 .eagain, .resume 1 (.accept 24),
    .peer_read (fun _ => 0) (.chunk 4) (.chunk 20) true,
    .peer_read (fun _ => 0) (.chunk 4) (.chunk 20) true]

theorem sends_never_mix_twoThreads :
    (∀ a ∈ twoThreads, a.Sized) ∧ ∃ c, Steps.run step (.new 2) twoThreads = some c
      ∧ c.done.map Prod.snd = [true, true] ∧ c.link.accepted.length = 2
      ∧ ∃ (last : List Pdu) (part : List UInt8),
        (last = [] ∨ ∃ p, last = [p] ∧ ((∃ th ∈ c.threads, th.sends = some p)
          ∨ (c.link.wdead = true ∧ (p, false) ∈ c.done)))
        ∧ written c.link = ((sentBy c.done).map frame).flatten ++ part
        ∧ part <+: (last.map frame).flatten
        ∧ c.link.accepted <+: (sentBy c.done ++ last).map frame := by
  have hsized : ∀ a ∈ twoThreads, a.Sized := by decide
  have hex : ∃ c, Steps.run step (.new 2) twoThreads = some c
      ∧ (c.done.map Prod.snd, c.link.accepted.length) = ([true, true], 2) :=
    Steps.exists_run (by decide)
  obtain ⟨c, hc, hres⟩ := hex
  obtain ⟨hdone, haccepted⟩ := Prod.mk.inj hres
  exact ⟨hsized, c, hc, hdone, haccepted, sends_never_mix hsized hc⟩

end Ordered

end Yfs.Senders
