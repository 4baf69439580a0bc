/-
Who sleeps in `send` for ever.

`read_cb` and `write_cb` wake the sender that waits for its PDU to be written when they
mark the connection dead; a `send` whose `write()` fails is itself the one that has the
buffer. `closeconn` wakes nobody. So a sender that sleeps on `send_complete_` when the
connection is closed is never woken, as `read_cb` returns at once on a dead connection and
`write_cb` aborts, and neither is anybody who waits for its buffer. In all other states
whoever sleeps can be woken: by the poll thread, if `write()` takes the rest, and by the
thread that gives the buffer back.
-/
import Yfs.SenderFrames

set_option autoImplicit false

namespace Yfs.Senders

open Yfs.Connection Yfs.Framing

/-! ## The descriptor is watched -/

section Watched

variable {c c' : Conn} {t : ℕ} {th : Thread} {p : Pdu}

/-- The descriptor of a PDU that is not written is watched. -/
def Watched (c : Conn) : Prop := owners c.threads ≠ [] → c.unfinished → c.wr = true

theorem watched_of_dead (h : c.link.wdead = true) : Watched c := by
  rintro - ⟨hd, -⟩
  rw [h] at hd
  cases hd

theorem watched_finish (h : Inv c) (hth : c.threads[t]? = some th) (howns : th.owns = true)
    (p : Pdu) : Watched (c.finish t p) := by
  intro hne
  refine absurd ?_ hne
  rw [← List.length_eq_zero_iff, length_owners]
  exact (finish_threads h hth howns p).1

theorem Watched.mono (h : Watched c) (hown : owners c'.threads = owners c.threads)
    (hlink : c'.link = c.link) (hwr : c'.wr = c.wr) : Watched c' := by
  intro hne hun
  rw [hwr]
  rw [hown] at hne
  rw [Conn.unfinished, hlink] at hun
  exact h hne hun

theorem watched_proceed (h : Inv c) (hth : c.threads[t]? = some th)
    (hout : th.outside = true) (hb : c.blocked = false) (hp : Sized p) {w : Write}
    (hs : c.proceed t p w = some c') : Watched c' := by
  rcases proceed_cases hs with ⟨hd, rfl⟩ | ⟨hd, l, hcases⟩
  · exact watched_of_dead hd
  · obtain ⟨hbuf, hown, hnone⟩ := take_threads (p := p) h hth hd hb
    have htake := inv_take h hth hout hd hbuf hp
    rcases hcases with ⟨-, rfl⟩ | ⟨hwrite, -, rfl⟩ | ⟨hwrite, rfl⟩
    · exact watched_of_dead rfl
    · exact watched_finish (inv_wrote htake hd hnone hwrite).1 hown rfl p
    · obtain ⟨hwrote, hdl⟩ := inv_wrote htake hd hnone hwrite
      unfold Conn.complete
      split
      · exact fun _ _ => rfl
      · exact watched_finish (hwrote.watch hdl) hown rfl p

/-- A PDU that is not written now was not written before. -/
theorem unfinished_of_write (h : Inv c) (hd : c.link.wdead = false) {w : Write} {l : Link}
    (hwrite : writepdu c.link w = some (l, true)) (hown : owners c.threads ≠ [])
    (hlt : l.wpdu.solong < l.wpdu.sz) : c.unfinished := by
  obtain ⟨p, hp⟩ := List.exists_mem_of_ne_nil _ hown
  obtain ⟨th, hth, hsends⟩ := List.mem_filterMap.mp hp
  have hbuf := h.buf_of_owns hth (Thread.owns_of_sends hsends)
  obtain ⟨-, -, -, -, hkeeps⟩ := writepdu_keeps hwrite
  obtain ⟨hsz, hle⟩ := hkeeps rfl
  refine ⟨hd, (streams_busy h.streams hd hbuf).1, ?_⟩
  omega

theorem watched_step {a : Act} (ha : a.Sized) (h : Inv c) (hw : Watched c)
    (hs : step c a = some c') : Watched c' := by
  obtain ⟨hna, hm⟩ := moves_of_step hs
  cases hm with
  | enqueue hth hout hb =>
    exact hw.mono (owners_set hth (Thread.outside_sends hout).symm) rfl rfl
  | proceed hth hout hb hs => exact watched_proceed h hth hout hb ha hs
  | requeue hth hb => exact hw.mono (owners_set hth rfl) rfl rfl
  | @leave t p w c' hth hb hs =>
    have hlt : t < c.threads.length := (List.getElem?_eq_some_iff.mp hth).1
    have hp : Sized p := h.sized _ (List.mem_of_getElem? hth) p rfl
    exact watched_proceed (inv_leave h hth) (List.getElem?_set_self hlt) rfl hb hp hs
  | complete hth =>
    unfold Conn.complete
    split
    · exact hw.mono (owners_set hth rfl) rfl rfl
    · exact watched_finish h hth rfl _
  | finish hth => exact watched_finish h hth rfl _
  | closeconn hth hout =>
    unfold Conn.closeconn
    split
    · next hd => exact watched_of_dead hd
    · exact watched_of_dead rfl
  | unwatch hth hun =>
    have hrem := (Thread.unwatch_follows hun).2
    exact watched_of_dead (h.removing _ (List.mem_of_getElem? hth) hrem)
  | removed hpoll hth hre =>
    have hrem := (Thread.removed_follows hre).2
    exact watched_of_dead (h.removing _ (List.mem_of_getElem? hth) hrem)
  | spurious hth hsp => exact hw.mono (owners_set hth (Thread.spurious_follows hsp).sends) rfl rfl
  | ready hpoll hrd hwr => exact hw.mono rfl rfl rfl
  | dispatch hpoll => exact hw.mono rfl rfl rfl
  | read_cb hpoll hs =>
    rcases read_cb_cases hs with rfl | ⟨-, ths, -, rfl⟩
    · exact hw.mono rfl rfl rfl
    · exact watched_of_dead rfl
  | write_cb hpoll hs =>
    rcases write_cb_cases hs with ⟨hd, rfl⟩ | ⟨hd, ⟨hsz, rfl⟩ | ⟨l, ths, -, -, rfl⟩
      | ⟨l, hwrite, hlt, rfl⟩ | ⟨l, ths, hwrite, hsig, rfl⟩⟩
    · exact watched_of_dead hd
    · -- nothing is being written
      rintro - ⟨-, h0, hlt⟩
      have hlt' : c.link.wpdu.solong < c.link.wpdu.sz := hlt
      have h0' : 0 ≤ c.link.wpdu.solong := h0
      omega
    · exact watched_of_dead rfl
    · exact fun hne hun => hw hne (unfinished_of_write h hd hwrite hne hun.2.2)
    · intro hne hun
      rw [owners_signal hsig] at hne
      exact hw hne (unfinished_of_write h hd hwrite hne hun.2.2)
  | peer_read hlink =>
    obtain ⟨-, hread⟩ := Option.ite_none_left_eq_some.mp hlink
    have hk := kept_read_cb hread
    intro hne hun
    rw [Conn.unfinished, hk.wdead, hk.wpdu] at hun
    exact hw hne hun
  | peer_close hlink =>
    cases hlink
    exact fun hne hun => hw hne hun

/-- What holds of every connection that can be reached. -/
structure Good (c : Conn) : Prop where
  inv : Inv c
  watched : Watched c

theorem good_step {a : Act} (h : Good c) (hs : step c a = some c') (ha : a.Sized) : Good c' :=
  ⟨inv_step ha h.inv hs, watched_step ha h.inv h.watched hs⟩

theorem good_run {n : ℕ} {acts : List Act} (ha : ∀ a ∈ acts, a.Sized)
    (hs : Steps.run step (.new n) acts = some c) : Good c := by
  refine Steps.run_inv_forall (P := Good) (p := Act.Sized)
    (fun _ _ _ h ha hs => good_step h hs ha) ⟨inv_new n, ?_⟩ ha hs
  rintro - ⟨-, -, hlt⟩
  exact absurd hlt (Int.lt_irrefl 0)

end Watched

/-! ## Nobody is woken after `closeconn` -/

section Stranded

variable {c c' : Conn} {t u : ℕ} {th : Thread} {p : Pdu}

/-- Does the thread sleep in `send`? -/
def Thread.asleep : Thread → Bool
  | .queued _ => true
  | .writing _ => true
  | _ => false

theorem Thread.outside_asleep (h : th.outside = true) : th.asleep = false := by
  cases th with
  | out | returned ret => rfl
  | queued q | roused q | writing q | resumed q | failing q un | failed q | closing un => cases h

theorem Thread.removes_asleep (h : th.removes = true) : th.asleep = false := by
  cases th with
  | failing q un | failed q | closing un => rfl
  | out | queued q | roused q | writing q | resumed q | returned ret => cases h

/-- The connection was closed while a sender slept on `send_complete_`. -/
def Closed (c : Conn) : Prop := c.killer = some .closeconn ∧ ∃ p, .writing p ∈ c.threads

/-- Only one thread has the buffer. -/
theorem Inv.sole_owner (h : Inv c) {th₁ : Thread} (hth₁ : th₁ ∈ c.threads)
    (howns₁ : th₁.owns = true) (hth : c.threads[t]? = some th) (howns : th.owns = true) :
    th = th₁ := by
  obtain ⟨u, hu⟩ := List.mem_iff_getElem?.mp hth₁
  by_cases hut : u = t
  · rw [hut, hth] at hu
    exact Option.some.inj hu
  · have hzero : (c.threads.set t .out).countP Thread.owns = 0 :=
      Senders.no_owner h.one_owner hth howns rfl
    have hmem : th₁ ∈ c.threads.set t .out := by
      refine List.mem_iff_getElem?.mpr ⟨u, ?_⟩
      rw [List.getElem?_set_ne (Ne.symm hut), hu]
    exact absurd howns₁ (List.countP_eq_zero.mp hzero th₁ hmem)

/-- A step of a thread that is awake leaves the sleepers alone. -/
theorem getElem?_set_asleep {ths : List Thread} {th₀ : Thread} (ht : ths[t]? = some th₀)
    (hawake : th₀.asleep = false) (hu : ths[u]? = some th) (hsleep : th.asleep = true)
    (th' : Thread) : (ths.set t th')[u]? = some th := by
  have hne : t ≠ u := by
    rintro rfl
    rw [ht] at hu
    obtain rfl := Option.some.inj hu
    rw [hawake] at hsleep
    cases hsleep
  rw [List.getElem?_set_ne hne, hu]

/-- A dead connection refuses what is to be sent. -/
theorem proceed_dead {w : Write} (hs : c.proceed t p w = some c') (hd : c.link.wdead = true) :
    c'.killer = c.killer ∧ c'.threads = c.threads.set t (.returned false) := by
  rcases proceed_cases hs with ⟨-, rfl⟩ | ⟨hd', -⟩
  · exact ⟨rfl, rfl⟩
  · rw [hd] at hd'
    cases hd'

/-- **Nobody who sleeps on a closed connection is woken by a step.** -/
theorem closed_step (h : Inv c) (hc : Closed c) {a : Act} (ha : a.isSpurious = false)
    (hs : step c a = some c') :
    c'.killer = some .closeconn ∧ ∀ (u : ℕ) (th : Thread), c.threads[u]? = some th →
      th.asleep = true → c'.threads[u]? = some th := by
  obtain ⟨hk, p₀, hp₀⟩ := hc
  have hd : c.link.wdead = true := h.dead (by rw [hk]; exact Option.some_ne_none _)
  have hblocked : c.blocked = false := by
    rw [Conn.blocked, hd]
    rfl
  obtain ⟨-, hm⟩ := moves_of_step hs
  cases hm with
  | enqueue hth hout hb =>
    rw [hblocked] at hb
    cases hb
  | @proceed t p w th c' hth hout hb hs =>
    obtain ⟨hkiller, hths⟩ := proceed_dead hs hd
    refine ⟨hkiller.trans hk, fun u th₁ hu hsleep => ?_⟩
    rw [hths]
    exact getElem?_set_asleep hth (Thread.outside_asleep hout) hu hsleep _
  | requeue hth hb =>
    rw [hblocked] at hb
    cases hb
  | @leave t p w c' hth hb hs =>
    obtain ⟨hkiller, hths⟩ := proceed_dead hs hd
    refine ⟨hkiller.trans hk, fun u th₁ hu hsleep => ?_⟩
    rw [hths, List.set_set]
    exact getElem?_set_asleep hth rfl hu hsleep _
  | complete hth =>
    have heq := h.sole_owner hp₀ rfl hth rfl
    cases heq
  | finish hth =>
    have heq := h.sole_owner hp₀ rfl hth rfl
    cases heq
  | closeconn hth hout =>
    unfold Conn.closeconn
    rw [if_pos hd]
    exact ⟨hk, fun u th₁ hu hsleep =>
      getElem?_set_asleep hth (Thread.outside_asleep hout) hu hsleep _⟩
  | unwatch hth hun =>
    exact ⟨hk, fun u th₁ hu hsleep =>
      getElem?_set_asleep hth (Thread.removes_asleep (Thread.unwatch_follows hun).2) hu hsleep _⟩
  | removed hpoll hth hre =>
    exact ⟨hk, fun u th₁ hu hsleep =>
      getElem?_set_asleep hth (Thread.removes_asleep (Thread.removed_follows hre).2) hu hsleep _⟩
  | spurious hth hsp => cases ha
  | ready hpoll hrd hwr => exact ⟨hk, fun _ _ hu _ => hu⟩
  | dispatch hpoll => exact ⟨hk, fun _ _ hu _ => hu⟩
  | read_cb hpoll hs =>
    rcases read_cb_cases hs with rfl | ⟨hd', -⟩
    · exact ⟨hk, fun _ _ hu _ => hu⟩
    · rw [hd] at hd'
      cases hd'
  | write_cb hpoll hs =>
    rcases write_cb_cases hs with ⟨-, rfl⟩ | ⟨hd', -⟩
    · exact ⟨hk, fun _ _ hu _ => hu⟩
    · rw [hd] at hd'
      cases hd'
  | peer_read hlink => exact ⟨hk, fun _ _ hu _ => hu⟩
  | peer_close hlink => exact ⟨hk, fun _ _ hu _ => hu⟩

/-- **Nobody who sleeps on a closed connection is ever woken.** -/
theorem closed_run (h : Inv c) (hc : Closed c) {acts : List Act}
    (ha : ∀ a ∈ acts, a.Sized ∧ a.isSpurious = false) (hs : Steps.run step c acts = some c')
    (hu : c.threads[u]? = some th) (hsleep : th.asleep = true) : c'.threads[u]? = some th := by
  have hrun : Inv c' ∧ Closed c' ∧ c'.threads[u]? = some th := by
    refine Steps.run_inv_forall (P := fun q => Inv q ∧ Closed q ∧ q.threads[u]? = some th) ?_
      ⟨h, hc, hu⟩ ha hs
    rintro q a q' ⟨hq, hqc, hqu⟩ ⟨hsized, hnot⟩ hstep
    obtain ⟨hk, hkeeps⟩ := closed_step hq hqc hnot hstep
    obtain ⟨-, p, hp⟩ := hqc
    obtain ⟨v, hv⟩ := List.mem_iff_getElem?.mp hp
    exact ⟨inv_step hsized hq hstep, ⟨hk, p, List.mem_of_getElem? (hkeeps v _ hv rfl)⟩,
      hkeeps u th hqu hsleep⟩
  exact hrun.2.2

end Stranded

/-! ## Everybody else can be woken -/

section Wakes

variable {c c' c'' : Conn} {t u : ℕ} {th : Thread} {p q : Pdu}

/-- There is a run from `c` to `c'` without spurious wakeups. -/
def Reaches (c c' : Conn) : Prop :=
  ∃ acts, (∀ a ∈ acts, a.Sized ∧ a.isSpurious = false) ∧ Steps.run step c acts = some c'

theorem Reaches.refl (c : Conn) : Reaches c c := ⟨[], List.forall_mem_nil _, rfl⟩

theorem Reaches.head {a : Act} (hs : step c a = some c') (ha : a.Sized ∧ a.isSpurious = false)
    (h : Reaches c' c'') : Reaches c c'' := by
  obtain ⟨acts, hacts, hrun⟩ := h
  refine ⟨a :: acts, List.forall_mem_cons.mpr ⟨ha, hacts⟩, ?_⟩
  exact Steps.run_cons_eq_some.mpr ⟨c', hs, hrun⟩

theorem Reaches.trans (h : Reaches c c') (h' : Reaches c' c'') : Reaches c c'' := by
  obtain ⟨acts, hacts, hrun⟩ := h
  obtain ⟨acts', hacts', hrun'⟩ := h'
  refine ⟨acts ++ acts', ?_, ?_⟩
  · exact List.forall_mem_append.mpr ⟨hacts, hacts'⟩
  · rw [Steps.run_append, hrun]
    exact hrun'

theorem Reaches.good (h : Reaches c c') (hg : Good c) : Good c' := by
  obtain ⟨acts, hacts, hrun⟩ := h
  exact Steps.run_inv_forall (P := Good) (p := Act.Sized)
    (fun _ _ _ h ha hs => good_step h hs ha) hg (fun a ha => (hacts a ha).1) hrun

/-- The poll thread makes its callbacks and goes away, or aborts in one on a connection
that is dead. -/
structure Drained (c c' : Conn) : Prop where
  reaches : Reaches c c'
  threads : c'.threads = c.threads
  wdead : c'.link.wdead = c.link.wdead
  killer : c'.killer = c.killer
  poll : (c'.aborted = true ∧ c.link.wdead = true) ∨ (c'.aborted = false ∧ c'.poll = .away)

theorem Drained.head {a : Act} (hs : step c a = some c') (ha : a.Sized ∧ a.isSpurious = false)
    (hths : c'.threads = c.threads) (hd : c'.link.wdead = c.link.wdead)
    (hk : c'.killer = c.killer) (h : Drained c' c'') : Drained c c'' := by
  refine ⟨h.reaches.head hs ha, h.threads.trans hths, h.wdead.trans hd, h.killer.trans hk, ?_⟩
  rw [← hd]
  exact h.poll

theorem Drained.step {a : Act} (hs : Senders.step c a = some c')
    (ha : a.Sized ∧ a.isSpurious = false) (hths : c'.threads = c.threads)
    (hd : c'.link.wdead = c.link.wdead) (hk : c'.killer = c.killer)
    (hpoll : (c'.aborted = true ∧ c.link.wdead = true) ∨ (c'.aborted = false ∧ c'.poll = .away)) :
    Drained c c' :=
  ⟨(Reaches.refl c').head hs ha, hths, hd, hk, hpoll⟩

theorem signal_of_awake {ths : List Thread} (h : ∀ th ∈ ths, th.completing = false) (u : ℕ) :
    signal ths u = some ths := by
  unfold signal
  rw [if_neg]
  rw [List.any_eq_true]
  rintro ⟨th, hth, hc⟩
  rw [h th hth] at hc
  cases hc

/-- `write()` takes nothing. -/
theorem writepdu_eagain {l : Link} (h : Streams l) (hd : l.wdead = false) (hsz : l.wpdu.sz ≠ 0) :
    l.wpdu.buf.isSome = true ∧ ∃ l', writepdu l .eagain = some (l', true) ∧ l'.wdead = l.wdead
      ∧ l'.wpdu.solong = l.wpdu.solong ∧ l'.wpdu.sz = l.wpdu.sz := by
  obtain ⟨pending, got, unwritten, h⟩ := h
  cases h.writer with
  | idle hidle =>
    rw [hidle] at hsz
    exact absurd rfl hsz
  | busy b hb =>
    refine ⟨by rw [hb]; rfl, ?_⟩
    unfold writepdu
    split
    · exact ⟨l, rfl, rfl, rfl, rfl⟩
    · rw [hb]
      exact ⟨_, rfl, rfl, rfl, rfl⟩
  | dead hdead =>
    rw [hd] at hdead
    cases hdead

/-- The poll thread is in `write_cb`: `write()` takes nothing. -/
theorem drained_writing (h : Good c) (hna : c.aborted = false) (hp : c.poll = .writing) :
    ∃ c', Drained c c' := by
  have hstep : step c (.write_cb .eagain 0) = c.write_cb .eagain 0 := by
    unfold step
    rw [if_neg (Bool.eq_false_iff.mp hna)]
    exact if_pos hp
  unfold Conn.write_cb at hstep
  cases hd : c.link.wdead with
  | true =>
    rw [hd, if_pos rfl] at hstep
    exact ⟨_, .step hstep ⟨trivial, rfl⟩ rfl rfl rfl (.inl ⟨rfl, hd⟩)⟩
  | false =>
    rw [hd, if_neg Bool.false_ne_true] at hstep
    dsimp only at hstep
    by_cases hsz : c.link.wpdu.sz = 0
    · rw [if_pos hsz] at hstep
      exact ⟨_, .step hstep ⟨trivial, rfl⟩ rfl rfl rfl (.inr ⟨hna, rfl⟩)⟩
    · obtain ⟨hbuf, l, hwrite, hdl, hsolong, hszl⟩ := writepdu_eagain h.inv.streams hd hsz
      rw [if_neg hsz, hwrite, Option.bind_some, if_neg (fun h => by cases h)] at hstep
      dsimp only at hstep
      by_cases hlt : l.wpdu.solong < l.wpdu.sz
      · rw [if_pos hlt] at hstep
        exact ⟨_, .step hstep ⟨trivial, rfl⟩ rfl hdl rfl (.inr ⟨hna, rfl⟩)⟩
      · -- a PDU that is written has nobody asleep to be signalled
        have hawake : ∀ th ∈ c.threads, th.completing = false := by
          intro th hth
          cases th with
          | writing p =>
            rcases h.inv.completing p hth with ⟨-, -, hun⟩ | hk
            · rw [hsolong, hszl] at hlt
              exact absurd hun hlt
            · rw [h.inv.killer_eq_none hd] at hk
              cases hk
          | out | queued p | roused p | resumed p | failing p un | failed p | closing un
            | returned ret => rfl
        rw [if_neg hlt, signal_of_awake hawake, Option.map_some] at hstep
        exact ⟨_, .step hstep ⟨trivial, rfl⟩ rfl hdl rfl (.inr ⟨hna, rfl⟩)⟩

theorem step_dispatch (hna : c.aborted = false) {poll : Poll} (h : c.dispatch = some poll) :
    step c .dispatch = some { c with poll } := by
  unfold step
  rw [if_neg (Bool.eq_false_iff.mp hna)]
  dsimp only
  rw [h]
  rfl

theorem drained_found (h : Good c) (hna : c.aborted = false) {wr : Bool}
    (hp : c.poll = .found false wr) : ∃ c', Drained c c' := by
  have hstep : ∀ poll, c.dispatch = some poll → step c .dispatch = some { c with poll } :=
    fun _ => step_dispatch hna
  unfold Conn.dispatch at hstep
  rw [hp] at hstep
  cases wr with
  | false => exact ⟨_, .step (hstep .away rfl) ⟨trivial, rfl⟩ rfl rfl rfl (.inr ⟨hna, rfl⟩)⟩
  | true =>
    cases hcb : c.cb with
    | false =>
      rw [hcb] at hstep
      exact ⟨_, .step (hstep .away rfl) ⟨trivial, rfl⟩ rfl rfl rfl (.inr ⟨hna, rfl⟩)⟩
    | true =>
      rw [hcb] at hstep
      have hs := hstep .writing rfl
      obtain ⟨c', hc'⟩ := drained_writing (good_step h hs trivial) hna rfl
      exact ⟨c', hc'.head hs ⟨trivial, rfl⟩ rfl rfl rfl⟩

theorem drained_reading (h : Good c) (hna : c.aborted = false) {wr : Bool}
    (hp : c.poll = .reading wr) : ∃ c', Drained c c' := by
  have hs : step c (.read_cb true 0) = some { c with poll := .found false wr } := by
    unfold step
    rw [if_neg (Bool.eq_false_iff.mp hna)]
    dsimp only
    rw [hp]
    dsimp only [Conn.read_cb]
    rw [Bool.or_true, if_pos rfl]
  obtain ⟨c', hc'⟩ := drained_found (good_step h hs trivial) hna rfl
  exact ⟨c', hc'.head hs ⟨trivial, rfl⟩ rfl rfl rfl⟩

/-- **The poll thread comes round.** -/
theorem drained (h : Good c) (hna : c.aborted = false) : ∃ c', Drained c c' := by
  cases hp : c.poll with
  | away => exact ⟨c, .refl c, rfl, rfl, rfl, .inr ⟨hna, hp⟩⟩
  | writing => exact drained_writing h hna hp
  | reading wr => exact drained_reading h hna hp
  | found rd wr =>
    cases rd with
    | false => exact drained_found h hna hp
    | true =>
      have hstep : ∀ poll, c.dispatch = some poll → step c .dispatch = some { c with poll } :=
        fun _ => step_dispatch hna
      unfold Conn.dispatch at hstep
      rw [hp] at hstep
      cases hcb : c.cb with
      | false =>
        rw [hcb] at hstep
        have hs := hstep (.found false wr) rfl
        obtain ⟨c', hc'⟩ := drained_found (good_step h hs trivial) hna rfl
        exact ⟨c', hc'.head hs ⟨trivial, rfl⟩ rfl rfl rfl⟩
      | true =>
        rw [hcb] at hstep
        have hs := hstep (.reading wr) rfl
        obtain ⟨c', hc'⟩ := drained_reading (good_step h hs trivial) hna rfl
        exact ⟨c', hc'.head hs ⟨trivial, rfl⟩ rfl rfl rfl⟩

/-- `write()` takes the rest. -/
theorem writepdu_rest {l : Link} (hbuf : l.wpdu.buf.isSome = true)
    (hlt : l.wpdu.solong < l.wpdu.sz) :
    ∃ l', writepdu l (.accept (l.wpdu.sz - l.wpdu.solong).toNat) = some (l', true)
      ∧ l'.wpdu.solong = l'.wpdu.sz := by
  obtain ⟨b, hb⟩ := Option.isSome_iff_exists.mp hbuf
  have hn : ((l.wpdu.sz - l.wpdu.solong).toNat : ℤ) = l.wpdu.sz - l.wpdu.solong :=
    Int.toNat_of_nonneg (by omega)
  unfold writepdu
  rw [if_neg (by omega), hb, Option.bind_some]
  dsimp only
  rw [if_pos (by omega)]
  refine ⟨_, rfl, ?_⟩
  show l.wpdu.solong + ((l.wpdu.sz - l.wpdu.solong).toNat : ℤ) = l.wpdu.sz
  omega

/-- **The poll thread wakes the sender** on a connection that is alive, once `write()` takes
the rest. -/
theorem completes (h : Good c) (hna : c.aborted = false) (hd : c.link.wdead = false)
    (hu : c.threads[u]? = some (.writing p)) :
    ∃ c', Reaches c c' ∧ c'.threads = c.threads.set u (.resumed p) ∧ c'.aborted = false
      ∧ c'.killer = c.killer ∧ ¬ c'.unfinished := by
  obtain ⟨c₁, hdrained⟩ := drained h hna
  have h₁ := hdrained.reaches.good h
  have hd₁ : c₁.link.wdead = false := hdrained.wdead.trans hd
  obtain ⟨hna₁, haway⟩ : c₁.aborted = false ∧ c₁.poll = .away := by
    rcases hdrained.poll with ⟨-, hdead⟩ | hpoll
    · rw [hd] at hdead
      cases hdead
    · exact hpoll
  have hmem : .writing p ∈ c₁.threads := by
    rw [hdrained.threads]
    exact List.mem_of_getElem? hu
  have hnone := h₁.inv.killer_eq_none hd₁
  obtain ⟨-, hrd, hcb⟩ := h₁.inv.live hnone
  have hun : c₁.unfinished := by
    rcases h₁.inv.completing p hmem with hun | hk
    · exact hun
    · rw [hnone] at hk
      cases hk
  -- what is not written yet keeps the descriptor watched for writing
  have hwr : c₁.wr = true := by
    refine h₁.watched ?_ hun
    rw [h₁.inv.owners_eq hmem rfl]
    exact List.cons_ne_nil _ _
  -- the descriptor is found ready, and `write_cb` is called
  have hready : step c₁ (.ready false true) = some { c₁ with poll := .found false true } := by
    unfold step
    rw [if_neg (Bool.eq_false_iff.mp hna₁)]
    exact if_pos ⟨haway, Bool.noConfusion, fun _ => hwr⟩
  have hdispatch : step { c₁ with poll := .found false true } .dispatch
      = some { c₁ with poll := .writing } := by
    refine step_dispatch (c := { c₁ with poll := .found false true }) hna₁ ?_
    dsimp only [Conn.dispatch]
    rw [hcb, if_pos rfl]
  obtain ⟨l, hwrite, hend⟩ := writepdu_rest (h₁.inv.buf_of_owns hmem rfl) hun.2.2
  have hany : c₁.threads.any Thread.completing = true := List.any_eq_true.mpr ⟨_, hmem, rfl⟩
  have hsignal : signal c₁.threads u = some (c₁.threads.set u (.resumed p)) := by
    unfold signal
    rw [if_pos hany, hdrained.threads, hu]
  have hsz : ¬ c₁.link.wpdu.sz = 0 := by
    obtain ⟨-, h0, hlt⟩ := hun
    omega
  have hwritten : step { c₁ with poll := .writing }
      (.write_cb (.accept (c₁.link.wpdu.sz - c₁.link.wpdu.solong).toNat) u)
      = some { c₁ with poll := .away, link := l, threads := c₁.threads.set u (.resumed p) } := by
    unfold step
    rw [if_neg (Bool.eq_false_iff.mp hna₁)]
    dsimp only
    rw [if_pos rfl]
    dsimp only [Conn.write_cb]
    rw [hd₁, if_neg Bool.false_ne_true, if_neg hsz, hwrite, Option.bind_some]
    dsimp only
    rw [if_neg (fun h => by cases h), if_neg (by omega), hsignal]
    rfl
  refine ⟨_, hdrained.reaches.trans (((Reaches.refl _).head hwritten ⟨trivial, rfl⟩).head hdispatch
    ⟨trivial, rfl⟩ |>.head hready ⟨trivial, rfl⟩), ?_, hna₁, hdrained.killer, ?_⟩
  · show c₁.threads.set u (.resumed p) = _
    rw [hdrained.threads]
  · rintro ⟨-, -, hlt⟩
    have hlt' : l.wpdu.solong < l.wpdu.sz := hlt
    omega

/-- The thread that gives the buffer back wakes everybody in the queue. -/
theorem finish_rouses (h : Inv c) (ht : c.threads[t]? = some (.queued q)) (hne : u ≠ t)
    (p : Pdu) : (c.finish u p).threads[t]? = some (.roused q) := by
  have hpos : 0 < c.waiters_ := by
    rw [h.waiting]
    exact List.countP_pos_iff.mpr ⟨_, List.mem_of_getElem? ht, rfl⟩
  unfold Conn.finish
  dsimp only
  rw [if_pos hpos, List.getElem?_map, List.getElem?_set_ne hne, ht]
  rfl

/-- The thread that has the buffer and is awake gives it back. -/
theorem rouses (h : Inv c) (hna : c.aborted = false) (ht : c.threads[t]? = some (.queued q))
    (hu : c.threads[u]? = some (.failed p)
      ∨ (c.threads[u]? = some (.resumed p) ∧ ¬ c.unfinished)) :
    ∃ c', Reaches c c' ∧ c'.threads[t]? = some (.roused q) := by
  have hne : u ≠ t := by
    rintro rfl
    rw [ht] at hu
    rcases hu with hu | ⟨hu, -⟩
    · cases hu
    · cases hu
  have hs : step c (.resume u .eagain) = some (c.finish u p) := by
    unfold step
    rw [if_neg (Bool.eq_false_iff.mp hna)]
    dsimp only
    rcases hu with hu | ⟨hu, hun⟩
    · rw [hu]
      rfl
    · rw [hu, Option.bind_some]
      dsimp only [Conn.complete]
      rw [if_neg hun]
  exact ⟨_, (Reaches.refl _).head hs ⟨trivial, rfl⟩, finish_rouses h ht hne p⟩

theorem getElem?_set_queued {ths : List Thread} (ht : ths[t]? = some (.queued q))
    (hu : ths[u]? = some th) (howns : th.owns = true) (th' : Thread) :
    (ths.set u th')[t]? = some (.queued q) := by
  have hne : u ≠ t := by
    rintro rfl
    rw [ht] at hu
    obtain rfl := Option.some.inj hu
    cases howns
  rw [List.getElem?_set_ne hne, ht]

/-- The thread they wait for sleeps on `send_complete_`. -/
theorem writing_rouses (h : Good c) (hna : c.aborted = false) (hd : c.link.wdead = false)
    (ht : c.threads[t]? = some (.queued q)) (hu : c.threads[u]? = some (.writing p)) :
    ∃ c', Reaches c c' ∧ c'.threads[t]? = some (.roused q) := by
  obtain ⟨c₁, hreach, hths, hna₁, -, hun⟩ := completes h hna hd hu
  have ht₁ : c₁.threads[t]? = some (.queued q) := by
    rw [hths]
    exact getElem?_set_queued ht hu rfl _
  have hu₁ : c₁.threads[u]? = some (.resumed p) := by
    rw [hths]
    exact List.getElem?_set_self (List.getElem?_eq_some_iff.mp hu).1
  obtain ⟨c', hreach', hawake⟩ := rouses (hreach.good h).inv hna₁ ht₁ (.inr ⟨hu₁, hun⟩)
  exact ⟨c', hreach.trans hreach', hawake⟩

/-- The thread they wait for is to go on after its sleep on `send_complete_`. -/
theorem resumed_rouses (h : Good c) (hna : c.aborted = false)
    (ht : c.threads[t]? = some (.queued q)) (hu : c.threads[u]? = some (.resumed p)) :
    ∃ c', Reaches c c' ∧ c'.threads[t]? = some (.roused q) := by
  by_cases hun : c.unfinished
  · -- it was woken for nothing, and sleeps again
    have hs : step c (.resume u .eagain)
        = some { c with threads := c.threads.set u (.writing p) } := by
      unfold step
      rw [if_neg (Bool.eq_false_iff.mp hna)]
      dsimp only
      rw [hu, Option.bind_some]
      dsimp only [Conn.complete]
      rw [if_pos hun]
    have hlt : u < c.threads.length := (List.getElem?_eq_some_iff.mp hu).1
    obtain ⟨c', hreach, hawake⟩ := writing_rouses (good_step h hs trivial) hna hun.1
      (getElem?_set_queued ht hu rfl _) (List.getElem?_set_self hlt)
    exact ⟨c', hreach.head hs ⟨trivial, rfl⟩, hawake⟩
  · exact rouses h.inv hna ht (.inr ⟨hu, hun⟩)

/-- The thread they wait for is in `block_remove_fd`. -/
theorem failing_rouses (h : Good c) (hna : c.aborted = false)
    (ht : c.threads[t]? = some (.queued q)) (hu : c.threads[u]? = some (.failing p true)) :
    ∃ c', Reaches c c' ∧ (c'.threads[t]? = some (.roused q)
      ∨ (c'.aborted = true ∧ (c.killer = some .closeconn ∨ c.killer = some .send))) := by
  obtain ⟨c₁, hdrained⟩ := drained h hna
  have h₁ := hdrained.reaches.good h
  rcases hdrained.poll with ⟨habort, -⟩ | ⟨hna₁, haway⟩
  · refine ⟨c₁, hdrained.reaches, .inr ⟨habort, ?_⟩⟩
    rw [← hdrained.killer]
    exact h₁.inv.aborted habort
  · rw [← hdrained.threads] at ht hu
    have hs : step c₁ (.removed u)
        = some { c₁ with cb := false, threads := c₁.threads.set u (.failed p) } := by
      unfold step
      rw [if_neg (Bool.eq_false_iff.mp hna₁)]
      dsimp only
      rw [if_pos haway, hu]
      rfl
    have hlt : u < c₁.threads.length := (List.getElem?_eq_some_iff.mp hu).1
    obtain ⟨c', hreach, hawake⟩ := rouses (good_step h₁ hs trivial).inv hna₁
      (getElem?_set_queued ht hu rfl _) (.inl (List.getElem?_set_self hlt))
    exact ⟨c', hdrained.reaches.trans (hreach.head hs ⟨trivial, rfl⟩), .inl hawake⟩

/-- **Somebody in the queue can be woken**, unless the sender they wait for sleeps on a
closed connection. -/
theorem queued_wakes (h : Good c) (hna : c.aborted = false) (hc : ¬ Closed c)
    (ht : c.threads[t]? = some (.queued q)) :
    ∃ c', Reaches c c' ∧ (c'.threads[t]? = some (.roused q)
      ∨ (c'.aborted = true ∧ (c.killer = some .closeconn ∨ c.killer = some .send))) := by
  have hbuf := h.inv.queued q (List.mem_of_getElem? ht)
  have howners := h.inv.owners
  rw [hbuf, if_pos rfl] at howners
  obtain ⟨th, hth, howns⟩ : ∃ th ∈ c.threads, th.owns = true :=
    List.countP_pos_iff.mp (by rw [howners]; exact Nat.one_pos)
  obtain ⟨u, hu⟩ := List.mem_iff_getElem?.mp hth
  cases th with
  | writing p =>
    have hd : c.link.wdead = false := by
      rcases h.inv.completing p hth with ⟨hd, -⟩ | hk
      · exact hd
      · exact absurd ⟨hk, p, hth⟩ hc
    obtain ⟨c', hreach, hawake⟩ := writing_rouses h hna hd ht hu
    exact ⟨c', hreach, .inl hawake⟩
  | resumed p =>
    obtain ⟨c', hreach, hawake⟩ := resumed_rouses h hna ht hu
    exact ⟨c', hreach, .inl hawake⟩
  | failed p =>
    obtain ⟨c', hreach, hawake⟩ := rouses h.inv hna ht (.inl hu)
    exact ⟨c', hreach, .inl hawake⟩
  | failing p un =>
    cases un with
    | true => exact failing_rouses h hna ht hu
    | false =>
      have hs : step c (.unwatch u) = some { c with
          rd := false, wr := false, threads := c.threads.set u (.failing p true) } := by
        unfold step
        rw [if_neg (Bool.eq_false_iff.mp hna)]
        dsimp only
        rw [hu]
        rfl
      have hlt : u < c.threads.length := (List.getElem?_eq_some_iff.mp hu).1
      obtain ⟨c', hreach, hend⟩ := failing_rouses (good_step h hs trivial) hna
        (getElem?_set_queued ht hu rfl _) (List.getElem?_set_self hlt)
      exact ⟨c', hreach.head hs ⟨trivial, rfl⟩, hend⟩
  | out | queued p | roused p | closing un | returned ret => cases howns

/-- **Who sleeps in `send` for ever.** When the connection was closed by `closeconn` while a
sender slept on `send_complete_`, nobody who sleeps in `send` is ever woken, whatever the
threads do. In every other state whoever sleeps can be woken, or else the connection was
marked dead by `closeconn` or a failed `write()` in `send`, and the poll thread, which had
found the descriptor ready to write before, fails the `VERIFY` of `write_cb`. -/
theorem stranded_only_when_closed {n : ℕ} {acts : List Act} (ha : ∀ a ∈ acts, a.Sized)
    (hs : Steps.run step (.new n) acts = some c) (hna : c.aborted = false)
    (ht : c.threads[t]? = some th) (hsleep : th.asleep = true) :
    (Closed c → ∀ c', Reaches c c' → c'.threads[t]? = some th)
      ∧ (¬ Closed c → ∃ c', Reaches c c' ∧ ((∃ th', c'.threads[t]? = some th' ∧ th'.asleep = false)
        ∨ (c'.aborted = true ∧ (c.killer = some .closeconn ∨ c.killer = some .send)))) := by
  have h := good_run ha hs
  refine ⟨fun hc c' ⟨acts', hacts', hrun⟩ => closed_run h.inv hc hacts' hrun ht hsleep, ?_⟩
  intro hc
  cases th with
  | queued q =>
    obtain ⟨c', hreach, hawake | habort⟩ := queued_wakes h hna hc ht
    · exact ⟨c', hreach, .inl ⟨_, hawake, rfl⟩⟩
    · exact ⟨c', hreach, .inr habort⟩
  | writing p =>
    have hmem := List.mem_of_getElem? ht
    have hd : c.link.wdead = false := by
      rcases h.inv.completing p hmem with ⟨hd, -⟩ | hk
      · exact hd
      · exact absurd ⟨hk, p, hmem⟩ hc
    obtain ⟨c', hreach, hths, -⟩ := completes h hna hd ht
    refine ⟨c', hreach, .inl ⟨.resumed p, ?_, rfl⟩⟩
    rw [hths]
    exact List.getElem?_set_self (List.getElem?_eq_some_iff.mp ht).1
  | out | roused p | resumed p | failing p un | failed p | closing un | returned ret => cases hsleep

/-- The connection is closed while `write_cb` has still to write a PDU for which another
thread waits. -/
def closedWhileWriting : List Act :=
  [.send 0 ⟨fun _ => 7, 24⟩ (.accept 10), .send 1 ⟨fun _ => 8, 24⟩ .eagain, .closeconn 2]

theorem stranded_only_when_closed_closedWhileWriting :
    (∀ a ∈ closedWhileWriting, a.Sized)
      ∧ ∃ c, Steps.run step (.new 3) closedWhileWriting = some c ∧ c.aborted = false ∧ Closed c
        ∧ ∀ c', Reaches c c' → c'.threads[0]? = some (.writing ⟨fun _ => 7, 24⟩)
          ∧ c'.threads[1]? = some (.queued ⟨fun _ => 8, 24⟩) := by
  have hsized : ∀ a ∈ closedWhileWriting, a.Sized := by decide
  have hex : ∃ c, Steps.run step (.new 3) closedWhileWriting = some c
      ∧ (c.threads[0]?, c.threads[1]?, c.killer, c.aborted)
        = (some (.writing ⟨fun _ => 7, 24⟩), some (.queued ⟨fun _ => 8, 24⟩), some .closeconn,
          false) :=
    Steps.exists_run rfl
  obtain ⟨c, hrun, hc⟩ := hex
  obtain ⟨h0, hc⟩ := Prod.mk.inj hc
  obtain ⟨h1, hc⟩ := Prod.mk.inj hc
  obtain ⟨hk, hna⟩ := Prod.mk.inj hc
  have hclosed : Closed c := ⟨hk, _, List.mem_of_getElem? h0⟩
  refine ⟨hsized, c, hrun, hna, hclosed, fun c' hreach => ⟨?_, ?_⟩⟩
  · exact (stranded_only_when_closed hsized hrun hna h0 rfl).1 hclosed c' hreach
  · exact (stranded_only_when_closed hsized hrun hna h1 rfl).1 hclosed c' hreach

-- The poll thread has found the descriptor ready when the connection is closed, and when
-- the `write()` of another PDU fails.
example : (Steps.run step (.new 2) [.send 0 ⟨fun _ => 7, 24⟩ (.accept 10), .ready false true,
    .dispatch, .closeconn 1, .write_cb .eagain 0]).map Conn.aborted = some true := by decide

example : (Steps.run step (.new 1) [.send 0 ⟨fun _ => 7, 24⟩ (.accept 10), .ready false true,
    .dispatch, .write_cb (.accept 14) 0, .resume 0 .eagain, .ready false true, .dispatch,
    .send 0 ⟨fun _ => 8, 24⟩ .error, .write_cb .eagain 0]).map Conn.aborted = some true := by
  decide

end Wakes

end Yfs.Senders
