/-
The caching lock server (`lock_server_cache.cc`), one critical section at a time.

`acquire` and `release` hold the mutex while they look at the entry of the lock, and
let go of it before they call a client. So each is a function from the entry to the
new entry and what the handler does next. `operator[]` on a missing key makes an
entry of zeros: free, no client, nobody waiting.
-/
import Yfs.Text

set_option autoImplicit false

namespace Yfs.LockServer

open Text

/-- `lock_protocol::xxstatus`, as far as the lock service uses it. -/
inductive status where
  | OK | RETRY | RPCERR
  deriving DecidableEq, Repr

inductive lockState where
  | FREE | LOCKED
  deriving DecidableEq, Repr

structure lockInfo where
  state : lockState
  clientId : Str
  waitList : List Str
  deriving DecidableEq, Repr

/-- `lockList[lid]` of a missing key. -/
def lockInfo.zero : lockInfo := ⟨.FREE, [], []⟩

def createLock (clientId : Str) : lockInfo :=
  { lockInfo.zero with state := .LOCKED, clientId := clientId }

def updateLockState (l : lockInfo) (clientId : Str) (state : lockState) : lockInfo :=
  { l with clientId := clientId, state := state }

/-- What `acquire` does after it has unlocked the mutex. -/
inductive After where
  | reply (ret : status)
  /-- `revokeLock(lid, lockList[lid].clientId)`, and then `RETRY`. -/
  | revokeHolder
  /-- `revokeLock(lid, id)`, and then `OK`. -/
  | revokeCaller
  deriving DecidableEq, Repr

def acquire (entry : Option lockInfo) (id : Str) : lockInfo × After :=
  match entry with
  | none => (createLock id, .reply .OK)
  | some l =>
    if l.state = .LOCKED then
      -- only the first client that has to wait has the lock revoked
      if l.waitList.length = 0 then ({ l with waitList := l.waitList ++ [id] }, .revokeHolder)
      else ({ l with waitList := l.waitList ++ [id] }, .reply .RETRY)
    else if l.waitList.length > 0 then
      -- the lock is free, but it is kept for the client at the front
      if l.waitList.head? = some id then
        let l' := updateLockState { l with waitList := l.waitList.tail } id .LOCKED
        -- others wait behind: the lock is revoked from its new holder at once
        (l', if l'.waitList.length > 0 then .revokeCaller else .reply .OK)
      else ({ l with waitList := l.waitList ++ [id] }, .reply .RETRY)
    else (updateLockState l id .LOCKED, .reply .OK)

/-- `release`: the new entry, and whether the client at the front is told to retry. -/
def release (entry : Option lockInfo) : lockInfo × Bool :=
  let l := updateLockState (entry.getD .zero) [] .FREE
  (l, l.waitList.length > 0)

/-! ## What the handlers do -/

/-- The lock is granted to `c`. -/
def GrantedTo (entry : Option lockInfo) (c : Str) : Prop :=
  ∃ l, entry = some l ∧ l.state = .LOCKED ∧ l.clientId = c

/-- The lock is free and `c` is the next to get it. -/
def Next (entry : Option lockInfo) (c : Str) : Prop :=
  ∃ l, entry = some l ∧ l.state = .FREE ∧ l.waitList.head? = some c

/-- The clients that wait. -/
def waiting (entry : Option lockInfo) : List Str := (entry.getD .zero).waitList

/-- The answer grants the lock. -/
def After.grants : After → Bool
  | .reply .OK => true
  | .revokeCaller => true
  | _ => false

theorem GrantedTo.unique {entry : Option lockInfo} {c c' : Str} (h : GrantedTo entry c)
    (h' : GrantedTo entry c') : c = c' := by
  obtain ⟨l, rfl, -, rfl⟩ := h
  obtain ⟨l', heq, -, rfl⟩ := h'
  cases heq
  rfl

theorem Next.unique {entry : Option lockInfo} {c c' : Str} (h : Next entry c)
    (h' : Next entry c') : c = c' := by
  obtain ⟨l, rfl, -, hc⟩ := h
  obtain ⟨l', heq, -, hc'⟩ := h'
  cases heq
  rw [hc, Option.some.injEq] at hc'
  exact hc'

theorem Next.not_granted {entry : Option lockInfo} {c c' : Str} (h : Next entry c) :
    ¬GrantedTo entry c' := by
  rintro ⟨l', heq, hl, -⟩
  obtain ⟨l, rfl, hf, -⟩ := h
  cases heq
  rw [hf] at hl
  cases hl

theorem Next.mem {entry : Option lockInfo} {c : Str} (h : Next entry c) : c ∈ waiting entry := by
  obtain ⟨l, rfl, -, hc⟩ := h
  exact List.mem_of_head? hc

/-- What `acquire` can do: grant a lock that is free and for which nobody waits; grant
it to the client that is next; or put the client at the end of the list. -/
inductive Served (entry : Option lockInfo) (id : Str) (entry' : lockInfo) (after : After) : Prop
  | first : after.grants = true → GrantedTo (some entry') id → (∀ c, ¬GrantedTo entry c) →
      waiting entry = [] → waiting (some entry') = [] → Served entry id entry' after
  | next : after.grants = true → GrantedTo (some entry') id → Next entry id →
      waiting entry = id :: waiting (some entry') → Served entry id entry' after
  | queued : after.grants = false → ¬Next entry id →
      waiting (some entry') = waiting entry ++ [id] →
      (∀ c, GrantedTo entry c → GrantedTo (some entry') c) →
      (∀ c, Next entry c → Next (some entry') c) → Served entry id entry' after

/-- Putting a client at the end keeps the holder and the next one. -/
theorem served_push {l : lockInfo} {id : Str} {after : After} (hafter : after.grants = false)
    (hnext : ¬Next (some l) id) :
    Served (some l) id { l with waitList := l.waitList ++ [id] } after := by
  refine .queued hafter hnext rfl ?_ ?_
  · rintro c ⟨_, ⟨rfl⟩, hlocked, hc⟩
    exact ⟨_, rfl, hlocked, hc⟩
  · rintro c ⟨_, ⟨rfl⟩, hfree, hc⟩
    refine ⟨_, rfl, hfree, ?_⟩
    rw [List.head?_append, hc]
    rfl

/-- **The spec of `acquire`.** -/
theorem acquire_served (entry : Option lockInfo) (id : Str) :
    Served entry id (acquire entry id).1 (acquire entry id).2 := by
  unfold acquire
  cases entry with
  | none => exact .first rfl ⟨_, rfl, rfl, rfl⟩ (fun c ⟨_, h, _⟩ => nomatch h) rfl rfl
  | some l =>
    by_cases hlocked : l.state = .LOCKED
    · have hnext : ¬Next (some l) id := by
        rintro ⟨_, ⟨rfl⟩, hfree, -⟩
        rw [hlocked] at hfree
        cases hfree
      simp only [if_pos hlocked]
      split
      · exact served_push rfl hnext
      · exact served_push rfl hnext
    · have hfree : l.state = .FREE := by
        cases hst : l.state with
        | FREE => rfl
        | LOCKED => exact absurd hst hlocked
      have hnone : ∀ c, ¬GrantedTo (some l) c := by
        rintro c ⟨_, ⟨rfl⟩, hl, -⟩
        exact hlocked hl
      simp only [if_neg hlocked]
      split
      · split
        · next hhead =>
          obtain ⟨rest, hrest⟩ := List.head?_eq_some_iff.mp hhead
          refine .next ?_ ⟨_, rfl, rfl, rfl⟩ ⟨l, rfl, hfree, hhead⟩ ?_
          · split <;> rfl
          · simp [waiting, updateLockState, hrest]
        · next hhead =>
          refine served_push rfl ?_
          rintro ⟨_, ⟨rfl⟩, -, hc⟩
          exact hhead hc
      -- free, and nobody waits
      · next hempty =>
        have hnil : l.waitList = [] := List.eq_nil_of_length_eq_zero (by omega)
        exact .first rfl ⟨_, rfl, rfl, rfl⟩ hnone hnil hnil

/-- **What `acquire` leaves.** A lock that is granted is revoked at once when clients wait;
otherwise the client is put at the end of the list, and the first one that waits has the
lock revoked. -/
theorem acquire_cases (entry : Option lockInfo) (id : Str) :
    ((acquire entry id).1.state = .LOCKED ∧ (acquire entry id).1.clientId = id
        ∧ (acquire entry id).1.waitList = (waiting entry).tail
        ∧ ((acquire entry id).2 = .revokeCaller
          ∨ (acquire entry id).2 = .reply .OK ∧ (acquire entry id).1.waitList = []))
      ∨ ∃ l, entry = some l ∧ (acquire entry id).1 = { l with waitList := l.waitList ++ [id] }
        ∧ (l.state = .FREE → l.waitList ≠ [])
        ∧ ((acquire entry id).2 = .revokeHolder
          ∨ (acquire entry id).2 = .reply .RETRY ∧ l.waitList ≠ []) := by
  cases entry with
  | none => exact .inl ⟨rfl, rfl, rfl, .inr ⟨rfl, rfl⟩⟩
  | some l =>
    unfold acquire
    simp only
    split
    · next hlocked =>
      refine .inr ⟨l, rfl, ?_⟩
      have hfree : l.state = .FREE → l.waitList ≠ [] := by
        rw [hlocked]
        nofun
      split
      · exact ⟨rfl, hfree, .inl rfl⟩
      · next hlen => exact ⟨rfl, hfree, .inr ⟨rfl, fun hnil => hlen (by rw [hnil]; rfl)⟩⟩
    · split
      · next hpos =>
        have hne : l.waitList ≠ [] := List.ne_nil_of_length_pos hpos
        split
        · refine .inl ⟨rfl, rfl, rfl, ?_⟩
          split
          · exact .inl rfl
          · next hlen =>
            exact .inr ⟨rfl, List.eq_nil_of_length_eq_zero (Nat.eq_zero_of_not_pos hlen)⟩
        · exact .inr ⟨l, rfl, rfl, fun _ => hne, .inr ⟨rfl, hne⟩⟩
      · next hempty =>
        have hnil : l.waitList = [] := List.eq_nil_of_length_eq_zero (by omega)
        refine .inl ⟨rfl, rfl, ?_, .inr ⟨rfl, hnil⟩⟩
        rw [waiting, Option.getD_some, updateLockState, hnil]
        rfl

/-- `acquire` itself never fails. -/
theorem acquire_ne_rpcerr (entry : Option lockInfo) (id : Str) :
    (acquire entry id).2 ≠ .reply .RPCERR := by
  unfold acquire
  cases entry with
  | none => nofun
  | some l =>
    simp only
    split_ifs <;> nofun

/-- **The spec of `release`.** The lock is free afterwards; a client is told to retry
when one waits. -/
theorem release_spec (entry : Option lockInfo) :
    (release entry).1.state = .FREE ∧ waiting (some (release entry).1) = waiting entry
      ∧ ((release entry).2 = true ↔ ∃ c, Next (some (release entry).1) c) := by
  refine ⟨rfl, rfl, ?_⟩
  simp only [release, decide_eq_true_eq, List.length_pos_iff_exists_mem]
  constructor
  · rintro ⟨c, hc⟩
    obtain ⟨front, rest, heq⟩ := List.exists_cons_of_ne_nil (List.ne_nil_of_mem hc)
    exact ⟨front, _, rfl, rfl, by rw [heq]; rfl⟩
  · rintro ⟨c, _, ⟨rfl⟩, -, hc⟩
    exact ⟨c, List.mem_of_head? hc⟩

end Yfs.LockServer
