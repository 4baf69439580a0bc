/-
Deadlines of an RPC: `add_timespec`, `cmp_timespec` and the wait loop of `rpcc::call1`
(`rpc/rpc.cc`).

A `timespec` is a number of seconds, a signed word of 64 bits, and a number of nanoseconds.
It is normal when the nanoseconds are less than a second. `pthread_cond_timedwait` gives
`EINVAL` for a deadline that is not normal, and it gives it before it lets go of the mutex.

`add_timespec` carries while there is more than a second of nanoseconds, so it leaves one
that is exactly a second. The total is right all the same; what goes wrong is the form.
`call1` breaks off its wait only for `ETIMEDOUT`, so a deadline of that form is waited for
again and again, under the mutex that the reply would need.
-/
import Yfs.Steps
import Mathlib.Data.Nat.Notation
import Mathlib.Algebra.Order.Ring.Int
import Mathlib.Order.Interval.Set.Defs

set_option autoImplicit false

namespace Yfs.Deadlines

/-! ## Times -/

/-- The range of `time_t`. -/
def TimeT (x : ℤ) : Prop := -2 ^ 63 ≤ x ∧ x < 2 ^ 63

instance (x : ℤ) : Decidable (TimeT x) := inferInstanceAs (Decidable (_ ∧ _))

@[ext] structure timespec where
  tv_sec : ℤ
  tv_nsec : ℤ
  range : TimeT tv_sec
  deriving DecidableEq

/-- A signed overflow of the seconds is undefined. -/
def timespec.make (sec nsec : ℤ) : Option timespec :=
  if h : TimeT sec then some ⟨sec, nsec, h⟩ else none

/-- What `pthread_cond_timedwait` accepts. -/
def timespec.Normal (a : timespec) : Prop := 0 ≤ a.tv_nsec ∧ a.tv_nsec < 1000000000

instance (a : timespec) : Decidable a.Normal := inferInstanceAs (Decidable (_ ∧ _))

/-- The time in nanoseconds. -/
def timespec.total (a : timespec) : ℤ := a.tv_sec * 1000000000 + a.tv_nsec

def cmp_timespec (a b : timespec) : ℤ :=
  if a.tv_sec > b.tv_sec then 1
  else if a.tv_sec < b.tv_sec then -1
  else if a.tv_nsec > b.tv_nsec then 1
  else if a.tv_nsec < b.tv_nsec then -1
  else 0

/-- The loop of `add_timespec`. -/
def carry : ℕ → timespec → Option timespec
  | 0, _ => none
  | fuel + 1, r =>
    if r.tv_nsec > 1000000000 then
      (timespec.make (r.tv_sec + 1) (r.tv_nsec - 1000000000)).bind (carry fuel)
    else some r

/-- `add_timespec(a, b)` for `b` milliseconds, with the division of C; `none`: the seconds
overflow, or the `VERIFY` fails. A round of the loop for each second is enough. -/
def add_timespec (a : timespec) (b : ℤ) : Option timespec :=
  let nsec := a.tv_nsec + b.tmod 1000 * 1000000
  (timespec.make (a.tv_sec + b.tdiv 1000) nsec).bind fun r =>
    if r.tv_nsec < 0 then none else carry ((nsec / 1000000000).toNat + 1) r

theorem timespec.make_eq {sec nsec : ℤ} (h : TimeT sec) :
    timespec.make sec nsec = some ⟨sec, nsec, h⟩ :=
  dif_pos h

/-! ## What `add_timespec` computes -/

/-- **The loop.** It ends, it keeps the time, and what it leaves is at most a second; it is a
whole second when it was a positive number of whole seconds. -/
theorem carry_spec {fuel : ℕ} {r : timespec} (h0 : 0 ≤ r.tv_nsec)
    (hf : r.tv_nsec / 1000000000 ≤ fuel) (hr : TimeT (r.tv_sec + r.tv_nsec / 1000000000)) :
    ∃ r', carry (fuel + 1) r = some r' ∧ r'.total = r.total ∧ 0 ≤ r'.tv_nsec
      ∧ r'.tv_nsec ≤ 1000000000
      ∧ (r'.tv_nsec = 1000000000 ↔ 0 < r.tv_nsec ∧ r.tv_nsec % 1000000000 = 0) := by
  induction fuel generalizing r with
  | zero =>
    have hlt : r.tv_nsec < 1000000000 := by omega
    refine ⟨r, ?_, rfl, h0, by omega, by omega⟩
    rw [carry, if_neg (by omega)]
  | succ fuel ih =>
    by_cases hgt : r.tv_nsec > 1000000000
    · -- one second is carried
      have hdiv : (r.tv_nsec - 1000000000) / 1000000000 = r.tv_nsec / 1000000000 - 1 := by omega
      have hsec : TimeT (r.tv_sec + 1) := by
        have hlow := r.range.1
        have hhigh := hr.2
        exact ⟨by omega, by omega⟩
      have hrest : TimeT (r.tv_sec + 1 + (r.tv_nsec - 1000000000) / 1000000000) := by
        rw [hdiv]
        convert hr using 1
        omega
      obtain ⟨r', hr', htotal, hnn, hle, hiff⟩ :=
        ih (r := ⟨r.tv_sec + 1, r.tv_nsec - 1000000000, hsec⟩) (by show 0 ≤ _ - _; omega)
          (by show (_ - _) / _ ≤ _; omega) hrest
      refine ⟨r', ?_, ?_, hnn, hle, ?_⟩
      · rw [carry, if_pos hgt, timespec.make_eq hsec]
        exact hr'
      · rw [htotal, timespec.total, timespec.total]
        show (r.tv_sec + 1) * _ + (r.tv_nsec - _) = _
        omega
      · rw [hiff]
        show 0 < r.tv_nsec - _ ∧ (r.tv_nsec - _) % _ = 0 ↔ _
        omega
    · refine ⟨r, ?_, rfl, h0, by omega, by omega⟩
      rw [carry, if_neg hgt]

/-- `add_timespec` ends, and its time is exact, whenever the time is one that there is. The
result is a whole second of nanoseconds when the sum was one. -/
theorem add_timespec_spec {a : timespec} {b : ℤ} (ha : a.Normal) (hb : 0 ≤ b)
    (hfits : a.total + b * 1000000 < 2 ^ 63 * 1000000000) :
    ∃ r, add_timespec a b = some r ∧ r.total = a.total + b * 1000000 ∧ 0 ≤ r.tv_nsec
      ∧ r.tv_nsec ≤ 1000000000
      ∧ (r.tv_nsec = 1000000000 ↔ a.tv_nsec + b % 1000 * 1000000 = 1000000000) := by
  obtain ⟨hn0, hn1⟩ := ha
  have hlow := a.range.1
  rw [timespec.total] at hfits
  -- the sum is less than two seconds
  have hn : 0 ≤ a.tv_nsec + b % 1000 * 1000000 := by omega
  have hsum : a.tv_nsec + b % 1000 * 1000000 < 2000000000 := by omega
  have hsec : TimeT (a.tv_sec + b / 1000) := ⟨by omega, by omega⟩
  have hcarry : TimeT (a.tv_sec + b / 1000 + (a.tv_nsec + b % 1000 * 1000000) / 1000000000) :=
    ⟨by omega, by omega⟩
  have hfuel := Int.self_le_toNat ((a.tv_nsec + b % 1000 * 1000000) / 1000000000)
  obtain ⟨r, hr, htotal, hr0, hr1, hiff⟩ :=
    carry_spec (r := ⟨_, a.tv_nsec + b % 1000 * 1000000, hsec⟩) hn hfuel hcarry
  refine ⟨r, ?_, ?_, hr0, hr1, ?_⟩
  · simp only [add_timespec, Int.tdiv_eq_ediv_of_nonneg hb, Int.tmod_eq_emod_of_nonneg hb,
      timespec.make_eq hsec, Option.bind_some, if_neg (not_lt.mpr hn)]
    exact hr
  · rw [htotal, timespec.total, timespec.total]
    show (a.tv_sec + b / 1000) * _ + (a.tv_nsec + b % 1000 * _) = _
    omega
  · rw [hiff]
    show 0 < a.tv_nsec + b % 1000 * _ ∧ (a.tv_nsec + b % 1000 * _) % _ = 0 ↔ _
    omega

/-- Normal times are compared by their totals. -/
theorem cmp_timespec_eq_sign {a b : timespec} (ha : a.Normal) (hb : b.Normal) :
    cmp_timespec a b = (a.total - b.total).sign := by
  obtain ⟨ha0, ha1⟩ := ha
  obtain ⟨hb0, hb1⟩ := hb
  rcases lt_trichotomy a.total b.total with hlt | heq | hgt
  · rw [Int.sign_eq_neg_one_of_neg (by omega)]
    rw [timespec.total, timespec.total] at hlt
    unfold cmp_timespec
    split_ifs <;> omega
  · rw [heq, Int.sub_self, Int.sign_zero]
    rw [timespec.total, timespec.total] at heq
    unfold cmp_timespec
    split_ifs <;> omega
  · rw [Int.sign_eq_one_of_pos (by omega)]
    rw [timespec.total, timespec.total] at hgt
    unfold cmp_timespec
    split_ifs <;> omega

/-- The sum of the nanoseconds is not exactly a second, and the time is one that a `timespec`
can hold. -/
def Exact (a : timespec) (b : ℤ) : Prop :=
  a.tv_nsec + b % 1000 * 1000000 ≠ 1000000000 ∧ a.total + b * 1000000 < 2 ^ 63 * 1000000000

instance (a : timespec) (b : ℤ) : Decidable (Exact a b) := inferInstanceAs (Decidable (_ ∧ _))

theorem Exact.normal {a r : timespec} {b : ℤ} (hx : Exact a b) (ha : a.Normal) (hb : 0 ≤ b)
    (hr : add_timespec a b = some r) : r.Normal := by
  obtain ⟨r', hr', -, hr0, hr1, hiff⟩ := add_timespec_spec ha hb hx.2
  obtain rfl : r' = r := Option.some.inj (hr'.symm.trans hr)
  have hne : r'.tv_nsec ≠ 1000000000 := fun h => hx.1 (hiff.mp h)
  exact ⟨hr0, by omega⟩

/-- **Deadlines.** For a normal time and a number of milliseconds that is not negative,
`add_timespec` gives the exact time in normal form unless the sum of the nanoseconds is
exactly one second or the seconds overflow, and then it does not. Two such results are
compared by their totals. -/
theorem deadlines_exact_iff (a a' : timespec) (b b' : ℤ) (ha : a.Normal) (ha' : a'.Normal)
    (hb : 0 ≤ b ∧ b < 2 ^ 31) (hb' : 0 ≤ b' ∧ b' < 2 ^ 31) :
    ((∃ r, add_timespec a b = some r ∧ r.Normal ∧ r.total = a.total + b * 1000000)
        ↔ Exact a b)
      ∧ (Exact a b → Exact a' b' → ∀ r r', add_timespec a b = some r →
          add_timespec a' b' = some r' → cmp_timespec r r' = (r.total - r'.total).sign) := by
  refine ⟨⟨?_, ?_⟩, ?_⟩
  · rintro ⟨r, hr, ⟨hr0, hr1⟩, htotal⟩
    have hfits : a.total + b * 1000000 < 2 ^ 63 * 1000000000 := by
      have hsec := r.range.2
      rw [← htotal, timespec.total]
      omega
    obtain ⟨r', hr', -, -, -, hiff⟩ := add_timespec_spec ha hb.1 hfits
    obtain rfl : r' = r := Option.some.inj (hr'.symm.trans hr)
    refine ⟨fun h => ?_, hfits⟩
    have hfull := hiff.mpr h
    omega
  · intro hx
    obtain ⟨r, hr, htotal, -⟩ := add_timespec_spec ha hb.1 hx.2
    exact ⟨r, hr, hx.normal ha hb.1 hr, htotal⟩
  · intro hx hx' r r' hr hr'
    exact cmp_timespec_eq_sign (hx.normal ha hb.1 hr) (hx'.normal ha' hb'.1 hr')

/-- A deadline that carries, and a time with the same total that does not. -/
theorem deadlines_exact_carry :
    Exact ⟨5, 999000001, by decide⟩ 1 ∧ Exact ⟨6, 1, by decide⟩ 0
      ∧ (∃ r, add_timespec ⟨5, 999000001, by decide⟩ 1 = some r ∧ r.Normal
        ∧ r.total = 5999000001 + 1 * 1000000)
      ∧ cmp_timespec ⟨6, 1, by decide⟩ ⟨6, 1, by decide⟩ = 0 := by
  have h := deadlines_exact_iff ⟨5, 999000001, by decide⟩ ⟨6, 1, by decide⟩ 1 0 (by decide)
    (by decide) (by decide) (by decide)
  have hcmp := h.2 (by decide) (by decide) ⟨6, 1, by decide⟩ ⟨6, 1, by decide⟩ rfl rfl
  exact ⟨by decide, by decide, h.1.mpr (by decide), hcmp⟩

/-- One millisecond after 999 milliseconds: a whole second of nanoseconds is left, and the
result is taken for an earlier time than the next second, which it is equal to. -/
theorem deadline_whole_second :
    add_timespec ⟨5, 999000000, by decide⟩ 1 = some ⟨5, 1000000000, by decide⟩
      ∧ ¬ timespec.Normal ⟨5, 1000000000, by decide⟩
      ∧ add_timespec ⟨6, 0, by decide⟩ 0 = some ⟨6, 0, by decide⟩
      ∧ timespec.total ⟨5, 1000000000, by decide⟩ = timespec.total ⟨6, 0, by decide⟩
      ∧ cmp_timespec ⟨5, 1000000000, by decide⟩ ⟨6, 0, by decide⟩ = -1 := by
  decide

/-! ## The wait of `call1` -/

inductive Pc where
  /-- The top of the loop. -/
  | top
  /-- In `pthread_cond_timedwait`, or on the way to it. -/
  | waits
  | left
  deriving DecidableEq, Repr

/-- The variables of the loop, and the flag of the caller that the reply sets. -/
structure Wait where
  finaldeadline : timespec
  nextdeadline : timespec
  curr_to : ℤ
  done : Bool
  pc : Pc
  deriving DecidableEq

/-- `rpcc::to_min`. -/
def to_min : ℤ := 1000

/-- Before the loop; `now` is what the clock says. -/
def call1_start (now : timespec) (timeout : ℤ) : Option Wait :=
  (add_timespec now timeout).map fun d => ⟨d, d, to_min, false, .top⟩

inductive Act where
  /-- From the top of the loop to the wait, with what the clock says. -/
  | tick (now : timespec)
  /-- `got_pdu` takes the mutex of the caller and sets `done`. -/
  | reply
  /-- `pthread_cond_timedwait` returns 0. -/
  | woken
  /-- It returns `ETIMEDOUT`. -/
  | timedout (now : timespec)
  /-- It returns `EINVAL`. -/
  | invalid
  deriving DecidableEq

/-- `while (!ca.done)` -/
def Wait.again (w : Wait) : Wait := { w with pc := if w.done then .left else .waits }

/-- The choice of the next deadline. -/
def Wait.next (w : Wait) (now : timespec) : Option Wait :=
  (add_timespec now w.curr_to).map fun d =>
    if cmp_timespec d w.finaldeadline > 0 then
      { w with
        nextdeadline := w.finaldeadline
        finaldeadline := ⟨0, w.finaldeadline.tv_nsec, by decide⟩ }
    else { w with nextdeadline := d }

def step (w : Wait) : Act → Option Wait
  | .tick now =>
    if w.pc = .top then
      if w.finaldeadline.tv_sec = 0 then some { w with pc := .left }
      else (w.next now).map Wait.again
    else none
  | .reply =>
    -- the mutex is held, but for a wait that has let go of it
    if w.pc = .left ∨ w.pc = .waits ∧ ¬ w.nextdeadline.Normal then none
    else some { w with done := true }
  | .woken => if w.pc = .waits ∧ w.nextdeadline.Normal then some w.again else none
  | .timedout now =>
    if w.pc = .waits ∧ w.nextdeadline.Normal ∧ w.nextdeadline.total ≤ now.total then
      if w.done then some { w with pc := .left }
      -- an overflow of the shift is undefined
      else if 2 * w.curr_to < 2 ^ 31 then some { w with pc := .top, curr_to := 2 * w.curr_to }
      else none
    else none
  | .invalid => if w.pc = .waits ∧ ¬ w.nextdeadline.Normal then some w.again else none

theorem Wait.again_eq {w : Wait} (hpc : w.pc = .waits) (hdone : w.done = false) :
    w.again = w := by
  obtain ⟨f, n, c, done, pc⟩ := w
  subst hpc hdone
  rfl

/-- **A call that never ends.** A caller that waits for a deadline that is not normal stays
there: it does not time out, and no reply can reach it. -/
theorem waits_forever {w t : Wait} {acts : List Act} (hpc : w.pc = .waits)
    (hdone : w.done = false) (hd : ¬ w.nextdeadline.Normal) (h : Steps.run step w acts = some t) :
    t = w := by
  refine Steps.run_inv_all (P := fun t => t = w) ?_ rfl h
  rintro _ a s' rfl hstep
  cases a with
  | tick now =>
    rw [step, if_neg (by rw [hpc]; decide)] at hstep
    cases hstep
  | reply =>
    rw [step, if_pos (.inr ⟨hpc, hd⟩)] at hstep
    cases hstep
  | woken =>
    rw [step, if_neg (fun h => hd h.2)] at hstep
    cases hstep
  | timedout now =>
    rw [step, if_neg (fun h => hd h.2.1)] at hstep
    cases hstep
  | invalid =>
    rw [step, if_pos ⟨hpc, hd⟩, Option.some.injEq] at hstep
    rw [← hstep, Wait.again_eq hpc hdone]

/-- A call with a timeout of a millisecond, at the wrong millisecond: the deadline of its
first wait is not normal. -/
example : ((call1_start ⟨5, 999000000, by decide⟩ 1).bind fun w =>
      Steps.run step w [.tick ⟨5, 999000000, by decide⟩]).map
        (fun w => (w.pc, w.done, decide w.nextdeadline.Normal))
    = some (.waits, false, false) := by decide

/-! ## Timeouts of whole seconds

Every call of the source has a timeout of whole seconds, and so has every wait that `call1`
doubles from `to_min`. -/

/-- Whole seconds leave the nanoseconds alone. -/
theorem add_timespec_whole {a : timespec} {b : ℤ} (ha : a.Normal) (hb : 0 ≤ b)
    (hwhole : b % 1000 = 0) : add_timespec a b = timespec.make (a.tv_sec + b / 1000) a.tv_nsec := by
  obtain ⟨hn0, hn1⟩ := ha
  simp only [add_timespec, Int.tdiv_eq_ediv_of_nonneg hb, Int.tmod_eq_emod_of_nonneg hb, hwhole,
    Int.zero_mul, Int.add_zero]
  unfold timespec.make
  split
  · next hsec =>
    have hle : ¬ a.tv_nsec > 1000000000 := by omega
    rw [Option.bind_some, if_neg (not_lt.mpr hn0), carry, if_neg hle]
  · rfl

theorem normal_of_whole {a r : timespec} {b : ℤ} (ha : a.Normal) (hb : 0 ≤ b)
    (hwhole : b % 1000 = 0) (hr : add_timespec a b = some r) : r.Normal := by
  rw [add_timespec_whole ha hb hwhole, timespec.make] at hr
  split at hr
  · obtain rfl := Option.some.inj hr
    exact ha
  · cases hr

/-- What whole seconds keep along the loop. -/
structure Steady (w : Wait) : Prop where
  final : w.finaldeadline.Normal
  positive : 0 ≤ w.curr_to
  whole : w.curr_to % 1000 = 0
  next : w.pc = .waits → w.nextdeadline.Normal

/-- The clock is normal. -/
def ClockNormal : Act → Prop
  | .tick now => now.Normal
  | _ => True

theorem Steady.again {w : Wait} (hfinal : w.finaldeadline.Normal) (hpos : 0 ≤ w.curr_to)
    (hwhole : w.curr_to % 1000 = 0) (hnext : w.nextdeadline.Normal) : Steady w.again :=
  ⟨hfinal, hpos, hwhole, fun _ => hnext⟩

theorem Steady.leave {w : Wait} (hw : Steady w) : Steady { w with pc := .left } := by
  refine ⟨hw.final, hw.positive, hw.whole, ?_⟩
  intro hpc
  cases hpc

theorem Steady.next_tick {w w' : Wait} {now : timespec} (hw : Steady w) (hnow : now.Normal)
    (h : w.next now = some w') : Steady w'.again := by
  obtain ⟨d, hd, rfl⟩ := Option.map_eq_some_iff.mp h
  split
  · exact .again hw.final hw.positive hw.whole hw.final
  · exact .again hw.final hw.positive hw.whole (normal_of_whole hnow hw.positive hw.whole hd)

theorem Steady.step {w w' : Wait} {a : Act} (hw : Steady w) (ha : ClockNormal a)
    (h : step w a = some w') : Steady w' := by
  cases a with
  | tick now =>
    simp only [Deadlines.step] at h
    split at h
    · split at h
      · obtain rfl := Option.some.inj h
        exact hw.leave
      · obtain ⟨w₁, hw₁, rfl⟩ := Option.map_eq_some_iff.mp h
        exact hw.next_tick ha hw₁
    · cases h
  | reply =>
    simp only [Deadlines.step] at h
    split at h
    · cases h
    · obtain rfl := Option.some.inj h
      exact ⟨hw.final, hw.positive, hw.whole, hw.next⟩
  | woken =>
    simp only [Deadlines.step] at h
    split at h
    · next hwait =>
      obtain rfl := Option.some.inj h
      exact .again hw.final hw.positive hw.whole hwait.2
    · cases h
  | timedout now =>
    simp only [Deadlines.step] at h
    split at h
    · split at h
      · obtain rfl := Option.some.inj h
        exact hw.leave
      · split at h
        · obtain rfl := Option.some.inj h
          have hpos := hw.positive
          have hwhole := hw.whole
          refine ⟨hw.final, ?_, ?_, fun h => by cases h⟩
          · show 0 ≤ 2 * w.curr_to
            omega
          · show 2 * w.curr_to % 1000 = 0
            omega
        · cases h
    · cases h
  | invalid =>
    simp only [Deadlines.step] at h
    split at h
    · next hwait => exact absurd (hw.next hwait.1) hwait.2
    · cases h

/-- **A timeout of whole seconds.** Every deadline that such a call waits for is normal. -/
theorem whole_seconds_normal {now : timespec} {timeout : ℤ} {w t : Wait} {acts : List Act}
    (hnow : now.Normal) (hpos : 0 ≤ timeout) (hwhole : timeout % 1000 = 0)
    (hw : call1_start now timeout = some w) (hclock : ∀ a ∈ acts, ClockNormal a)
    (h : Steps.run step w acts = some t) : t.pc = .waits → t.nextdeadline.Normal := by
  obtain ⟨d, hd, rfl⟩ := Option.map_eq_some_iff.mp hw
  have hmin : 0 ≤ to_min ∧ to_min % 1000 = 0 := by decide
  have hstart : Steady ⟨d, d, to_min, false, .top⟩ :=
    ⟨normal_of_whole hnow hpos hwhole hd, hmin.1, hmin.2, fun h => by cases h⟩
  exact (Steps.run_inv_forall (fun _ _ _ hw ha h => hw.step ha h) hstart hclock h).next

end Yfs.Deadlines
