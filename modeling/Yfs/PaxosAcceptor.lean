/-
The Paxos acceptor and its log (`paxos.cc`, `log.cc`).

The acceptor keeps one triple `n_h`, `n_a`, `v_a` for whatever instance is being
agreed on, and the values of the instances already decided. The log is a text file:
every promise, acceptance and decision appends one line, and `logread` replays the
file over the members, word by word and line by line.

`unsigned` members are natural numbers below 2^32; only `instance_h + 1` can leave
that range. Reading `values[i]` of a missing key inserts the empty string, which no
reader can tell from its absence, so reading does not change the map here. The upcall
`paxos_commit` belongs to the layer above.
-/
import Yfs.Text
import Mathlib.Data.List.Lex
import Mathlib.Data.Prod.Lex
import Mathlib.Data.Char

set_option autoImplicit false

namespace Yfs.PaxosAcceptor

open Text

/-! ## Proposal numbers -/

/-- `prop_t`. -/
@[ext] structure prop_t where
  n : ℕ
  m : Str
  deriving DecidableEq, Repr

/-- `operator>`. -/
def prop_gt (a b : prop_t) : Prop := a.n > b.n ∨ (a.n = b.n ∧ a.m > b.m)

/-- `operator>=`. -/
def prop_ge (a b : prop_t) : Prop := a.n > b.n ∨ (a.n = b.n ∧ a.m ≥ b.m)

instance (a b : prop_t) : Decidable (prop_gt a b) :=
  inferInstanceAs (Decidable (a.n > b.n ∨ (a.n = b.n ∧ a.m > b.m)))

instance (a b : prop_t) : Decidable (prop_ge a b) :=
  inferInstanceAs (Decidable (a.n > b.n ∨ (a.n = b.n ∧ a.m ≥ b.m)))

/-- Proposal numbers are ordered by number, then by name. -/
def prop_t.key (a : prop_t) : ℕ ×ₗ Str := toLex (a.n, a.m)

theorem prop_t.key_injective : Function.Injective prop_t.key := by
  intro a b h
  have h' := toLex.injective h
  exact prop_t.ext (congrArg Prod.fst h') (congrArg Prod.snd h')

instance : LinearOrder prop_t := LinearOrder.lift' prop_t.key prop_t.key_injective

theorem prop_t.lt_iff {a b : prop_t} : a < b ↔ a.n < b.n ∨ (a.n = b.n ∧ a.m < b.m) :=
  Prod.Lex.toLex_lt_toLex

theorem prop_t.le_iff {a b : prop_t} : a ≤ b ↔ a.n < b.n ∨ (a.n = b.n ∧ a.m ≤ b.m) :=
  Prod.Lex.toLex_le_toLex

/-- The comparison of the source is the lexicographic order: number first, then node. -/
theorem prop_gt_iff {a b : prop_t} : prop_gt a b ↔ b < a := by
  rw [prop_t.lt_iff, prop_gt, eq_comm]

theorem prop_ge_iff {a b : prop_t} : prop_ge a b ↔ b ≤ a := by
  rw [prop_t.le_iff, prop_ge, eq_comm]

/-! ## The acceptor -/

structure acceptor where
  me : Str
  n_h : prop_t
  n_a : prop_t
  v_a : Str
  instance_h : ℕ
  values : ℕ → Option Str
  /-- The content of the log file. -/
  log : Str

/-- `value(instance)`. -/
def acceptor.value (a : acceptor) (i : ℕ) : Str := (a.values i).getD []

/-- `instance_h + 1` in an `unsigned`. -/
def acceptor.next (a : acceptor) : ℕ := (a.instance_h + 1) % 2 ^ 32

/-- The members before the log is read. -/
def acceptor.blank (me log : Str) : acceptor :=
  ⟨me, ⟨0, me⟩, ⟨0, me⟩, [], 0, fun _ => none, log⟩

/-! ## The log -/

def doneWord : Str := ['d', 'o', 'n', 'e']
def propseenWord : Str := ['p', 'r', 'o', 'p', 's', 'e', 'e', 'n']
def acceptedWord : Str := ['a', 'c', 'c', 'e', 'p', 't', 'e', 'd']

def loginstance (a : acceptor) (i : ℕ) (v : Str) : acceptor :=
  { a with log := a.log ++ (doneWord ++ ' ' :: (dec i ++ ' ' :: (v ++ ['\n']))) }

def logprop (a : acceptor) (n_h : prop_t) : acceptor :=
  { a with log := a.log ++ (propseenWord ++ ' ' :: (dec n_h.n ++ ' ' :: (n_h.m ++ ['\n']))) }

def logaccept (a : acceptor) (n : prop_t) (v : Str) : acceptor :=
  { a with log := a.log ++
      (acceptedWord ++ ' ' :: (dec n.n ++ ' ' :: (n.m ++ ' ' :: (v ++ ['\n'])))) }

/-- A `done` record: the members after it, what is left to read, and the local
variable `instance`, which keeps its value when nothing can be read. -/
def read_done (st : Istream) (i : ℕ) (a : acceptor) : Istream × ℕ × acceptor :=
  let ri := st.unsigned 32 i
  let rv := ri.2.get.getline []
  (rv.2, ri.1, { a with
    values := Function.update a.values ri.1 (some rv.1)
    instance_h := ri.1
    v_a := []
    -- only the number is reset: the name of the last proposal stays
    n_h := { a.n_h with n := 0 }
    n_a := { a.n_a with n := 0 } })

def read_propseen (st : Istream) (a : acceptor) : Istream × acceptor :=
  let rn := st.unsigned 32 a.n_h.n
  let rm := rn.2.word a.n_h.m
  (rm.2, { a with n_h := ⟨rn.1, rm.1⟩ })

def read_accepted (st : Istream) (a : acceptor) : Istream × acceptor :=
  let rn := st.unsigned 32 a.n_a.n
  let rm := rn.2.word a.n_a.m
  let rv := rm.2.get.getline []
  (rv.2, { a with n_a := ⟨rn.1, rm.1⟩, v_a := rv.1 })

/-- The loop of `logread`; `none` when an unknown record trips `VERIFY(0)`. -/
def logread_loop : ℕ → Istream → Str → ℕ → acceptor → Option acceptor
  | 0, _, _, _, _ => none
  | fuel + 1, st, type, i, a =>
    let r := st.word type
    -- the extraction that fails at the end of the file ends the loop
    if r.2.fail then some a
    else if r.1 = doneWord then
      let d := read_done r.2 i a
      logread_loop fuel d.1 r.1 d.2.1 d.2.2
    else if r.1 = propseenWord then
      let d := read_propseen r.2 a
      logread_loop fuel d.1 r.1 i d.2
    else if r.1 = acceptedWord then
      let d := read_accepted r.2 a
      logread_loop fuel d.1 r.1 i d.2
    else none

/-- `logread`. Every round reads at least one character; `instance` is uninitialised
in the source, and read before it is set only when the file ends inside a record. -/
def logread (a : acceptor) : Option acceptor :=
  logread_loop (a.log.length + 1) (Istream.open a.log) [] 0 a

/-- The loop of `dump`: the lines of the file, each with its newline. -/
def dump_loop : ℕ → Istream → Str → Str → Str
  | 0, _, _, res => res
  | fuel + 1, st, v, res =>
    let r := st.getline v
    if r.2.fail then res else dump_loop fuel r.2 r.1 (res ++ (r.1 ++ ['\n']))

def dump (a : acceptor) : Str := dump_loop (a.log.length + 1) (Istream.open a.log) [] []

/-- `restore`: the file is replaced and replayed over the members as they are. -/
def restore (a : acceptor) (s : Str) : Option acceptor := logread { a with log := s }

/-- The constructor. -/
def acceptor.new (first : Bool) (me value log : Str) : Option acceptor :=
  (logread (acceptor.blank me log)).map fun a =>
    -- a first node with an empty log decides instance 1 itself
    if a.instance_h = 0 ∧ first = true then
      { loginstance { a with values := Function.update a.values 1 (some value) } 1 value with
        instance_h := 1 }
    else a

/-! ## The handlers -/

/-- `paxos_protocol::preparearg`. -/
structure preparearg where
  inst : ℕ
  n : prop_t
  deriving DecidableEq, Repr

/-- `paxos_protocol::prepareres`; the members a branch does not set keep the values of
the fresh reply. -/
structure prepareres where
  oldinstance : Bool
  accept : Bool
  n_a : prop_t
  v_a : Str
  deriving DecidableEq, Repr

/-- `paxos_protocol::acceptarg`. -/
structure acceptarg where
  inst : ℕ
  n : prop_t
  v : Str
  deriving DecidableEq, Repr

/-- `paxos_protocol::decidearg`. -/
structure decidearg where
  inst : ℕ
  v : Str
  deriving DecidableEq, Repr

def preparereq (s : acceptor) (a : preparearg) : prepareres × acceptor :=
  if a.inst ≤ s.instance_h then (⟨true, false, ⟨0, []⟩, s.value a.inst⟩, s)
  else if prop_gt a.n s.n_h then
    -- the reply carries what was accepted before, under whatever instance
    (⟨false, true, s.n_a, s.v_a⟩, { logprop s a.n with n_h := a.n })
  else (⟨false, false, ⟨0, []⟩, []⟩, s)

/-- `acceptreq` does not look at the instance. -/
def acceptreq (s : acceptor) (a : acceptarg) : Bool × acceptor :=
  if prop_ge a.n s.n_h then (true, { logaccept s a.n a.v with n_a := a.n, v_a := a.v })
  else (false, s)

def commit_wo (s : acceptor) (i : ℕ) (value : Str) : acceptor :=
  if i > s.instance_h then
    { loginstance { s with values := Function.update s.values i (some value) } i value with
      instance_h := i
      n_h := ⟨0, s.me⟩
      n_a := ⟨0, s.me⟩
      v_a := [] }
  else s

/-- `commit`: the same under the mutex. -/
def commit (s : acceptor) (i : ℕ) (value : Str) : acceptor := commit_wo s i value

/-- `none`: a `VERIFY` fails and the process dies. -/
def decidereq (s : acceptor) (a : decidearg) : Option acceptor :=
  if a.inst = s.next then
    if s.v_a = a.v then some (commit_wo s a.inst s.v_a) else none
  else if a.inst ≤ s.instance_h then some s
  else none

/-! ## What the handlers leave alone -/

/-- A prepare settles nothing: no instance is decided by it. -/
theorem preparereq_values (acc : acceptor) (a : preparearg) :
    (preparereq acc a).2.instance_h = acc.instance_h
      ∧ (preparereq acc a).2.values = acc.values := by
  unfold preparereq
  split
  · exact ⟨rfl, rfl⟩
  · split <;> exact ⟨rfl, rfl⟩

/-- An accept decides nothing either: a majority has to grant it first. -/
theorem acceptreq_values (acc : acceptor) (a : acceptarg) :
    (acceptreq acc a).2.instance_h = acc.instance_h
      ∧ (acceptreq acc a).2.values = acc.values := by
  unfold acceptreq
  split <;> exact ⟨rfl, rfl⟩

end Yfs.PaxosAcceptor
