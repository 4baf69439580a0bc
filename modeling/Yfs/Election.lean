/-
Leader election (`config.cc`).

Every node keeps a registry: for each process the epoch it has announced, and how often it
has refreshed it since (`freshness`). A node refreshes its own entry in rounds that need the
acknowledgement of a majority, takes a larger epoch number when a round fails, and reads the
registries of the others in rounds too: a process whose entry has not moved since the last
read is taken for dead, and the leader is the process with the least epoch of the others.

The handlers run under `cfg_mutex` and are one step each. `refresh` is a thread: a round is
its start and, when the timer runs out, `roundTripTimeOut`; between them anything may arrive.
That thread takes the mutex at the start of every round and never gives it back, and some
handlers keep it on some paths, so the source can run fewer rounds than are possible here;
the mutex is left out. The calls that would carry the messages are commented out in the
source, so what arrives, from whom and how often is free.

`unsigned` members wrap at 2^32. Reading a missing key of a map inserts the default, which no
reader can tell from its absence, so reading does not change a map here.
-/
import Yfs.SortedMap
import Yfs.Text
import Mathlib.Data.Char
import Mathlib.Data.List.Lex
import Mathlib.Data.Prod.Lex

set_option autoImplicit false

namespace Yfs.Election

open Text

/-- Conversion to `unsigned`. -/
def u32 (n : ℕ) : ℕ := n % 2 ^ 32

/-! ## Epochs -/

@[ext] structure epochNum where
  serialNum : ℕ
  id : Str
  deriving DecidableEq, Repr

@[ext] structure epochState where
  en : epochNum
  freshness : ℕ
  deriving DecidableEq, Repr

structure epochView where
  state : epochState
  expired : Bool
  deriving DecidableEq, Repr

/-- `epochNum()`. -/
def epochNum.zero : epochNum := ⟨0, []⟩

/-- `epochState()`. -/
def epochState.zero : epochState := ⟨.zero, 0⟩

/-- `epochView()`. -/
def epochView.zero : epochView := ⟨.zero, false⟩

def epochLess (en1 en2 : epochNum) : Prop :=
  en1.serialNum < en2.serialNum ∨ (en1.serialNum = en2.serialNum ∧ en1.id < en2.id)

def stateLess (st1 st2 : epochState) : Prop :=
  st1.en.serialNum < st2.en.serialNum
    ∨ (st1.en.serialNum = st2.en.serialNum ∧ st1.en.id < st2.en.id)
    ∨ (st1.en.serialNum = st2.en.serialNum ∧ st1.en.id = st2.en.id
      ∧ st1.freshness < st2.freshness)

def stateLessOrEqual (st1 st2 : epochState) : Prop :=
  st1.en.serialNum ≤ st2.en.serialNum
    ∨ (st1.en.serialNum = st2.en.serialNum ∧ st1.en.id ≤ st2.en.id)
    ∨ (st1.en.serialNum = st2.en.serialNum ∧ st1.en.id = st2.en.id
      ∧ st1.freshness ≤ st2.freshness)

instance (en1 en2 : epochNum) : Decidable (epochLess en1 en2) :=
  inferInstanceAs (Decidable (_ ∨ _))

instance (st1 st2 : epochState) : Decidable (stateLess st1 st2) :=
  inferInstanceAs (Decidable (_ ∨ _))

instance (st1 st2 : epochState) : Decidable (stateLessOrEqual st1 st2) :=
  inferInstanceAs (Decidable (_ ∨ _))

def maxState (st1 st2 : epochState) : epochState := if stateLess st1 st2 then st2 else st1

/-! ## The orders -/

/-- Epoch numbers are ordered by serial number, then by name. -/
def epochNum.key (a : epochNum) : ℕ ×ₗ Str := toLex (a.serialNum, a.id)

theorem epochNum.key_injective : Function.Injective epochNum.key := by
  intro a b h
  have h' := toLex.injective h
  exact epochNum.ext (congrArg Prod.fst h') (congrArg Prod.snd h')

instance : LinearOrder epochNum := LinearOrder.lift' epochNum.key epochNum.key_injective

/-- States are ordered by epoch, then by freshness. -/
def epochState.key (a : epochState) : epochNum ×ₗ ℕ := toLex (a.en, a.freshness)

theorem epochState.key_injective : Function.Injective epochState.key := by
  intro a b h
  have h' := toLex.injective h
  exact epochState.ext (congrArg Prod.fst h') (congrArg Prod.snd h')

instance : LinearOrder epochState := LinearOrder.lift' epochState.key epochState.key_injective

theorem epochLess_iff {a b : epochNum} : epochLess a b ↔ a < b := by
  have hlex : a < b ↔ a.serialNum < b.serialNum ∨ (a.serialNum = b.serialNum ∧ a.id < b.id) :=
    Prod.Lex.toLex_lt_toLex
  rw [hlex, epochLess]

theorem stateLess_iff {a b : epochState} : stateLess a b ↔ a < b := by
  have hlex : a < b ↔ a.en < b.en ∨ (a.en = b.en ∧ a.freshness < b.freshness) :=
    Prod.Lex.toLex_lt_toLex
  rw [hlex, ← epochLess_iff, epochLess, stateLess, epochNum.ext_iff, or_assoc, and_assoc]

theorem maxState_eq (a b : epochState) : maxState a b = max a b := by
  unfold maxState
  split
  · next h => exact (max_eq_right (stateLess_iff.mp h).le).symm
  · next h => exact (max_eq_left (not_lt.mp fun hlt => h (stateLess_iff.mpr hlt))).symm

/-- The first of the three tests is the weakest: `stateLessOrEqual` looks at the serial
numbers only. -/
theorem stateLessOrEqual_iff {a b : epochState} :
    stateLessOrEqual a b ↔ a.en.serialNum ≤ b.en.serialNum := by
  unfold stateLessOrEqual
  refine ⟨?_, Or.inl⟩
  rintro (h | ⟨h, -⟩ | ⟨h, -⟩) <;> omega

/-! ## The node -/

/-- The members of `config` that the election uses. -/
structure config where
  me : Str
  mems : List Str
  refreshNum : ℕ
  seqNum : ℕ
  readNum : ℕ
  statusMsgCount : ℕ
  ackMsgCount : ℕ
  epochCount : ℕ
  lastReadStartTime : ℕ
  lastCompletedReadStartTime : ℕ
  epochStartTime : ℕ
  delta : ℕ
  theta : ℕ
  leader : Str
  isLeader : Bool
  globalMaxEn : epochNum
  localMaxEn : epochNum
  leaderEpoch : epochNum
  registry : SortedMap Str epochState
  epochViews : SortedMap Str epochView
  oldEpochViews : SortedMap Str epochView

/-- The constructor. -/
def config.new (me : Str) (mems : List Str) : config where
  me := me
  mems := mems
  refreshNum := 0
  seqNum := 0
  readNum := 0
  statusMsgCount := 0
  ackMsgCount := 0
  epochCount := 0
  lastReadStartTime := 0
  lastCompletedReadStartTime := 0
  epochStartTime := 0
  delta := 3
  theta := 3
  leader := []
  isLeader := false
  globalMaxEn := .zero
  localMaxEn := .zero
  leaderEpoch := .zero
  registry := SortedMap.empty.insert me ⟨⟨0, me⟩, 0⟩
  epochViews := SortedMap.empty.insert me ⟨⟨⟨0, me⟩, 0⟩, true⟩
  oldEpochViews := .empty

/-- `(mems.size() >> 1) + 1`. -/
def config.majority (c : config) : ℕ := c.mems.length / 2 + 1

/-- `registry[src]`. -/
def config.entry (c : config) (src : Str) : epochState := (c.registry.find src).getD .zero

/-- `epochViews[id]`. -/
def config.view (c : config) (id : Str) : epochView := (c.epochViews.find id).getD .zero

/-- `oldEpochViews[id]`. -/
def config.oldView (c : config) (id : Str) : epochView := (c.oldEpochViews.find id).getD .zero

/-! ## Refresh -/

/-- A round of `refresh` begins. -/
def refresh (c : config) : config :=
  { c with ackMsgCount := 0, refreshNum := u32 (c.refreshNum + 1) }

def refreshReq (c : config) (src : Str) (rg : epochState) : config :=
  if stateLess (c.entry src) rg then { c with registry := c.registry.insert src rg } else c

/-- `src` and `rn` are not looked at. -/
def ackReq (c : config) (_src : Str) (_rn : ℕ) : config :=
  if u32 (c.ackMsgCount + 1) ≥ c.majority then
    let st := c.entry c.me
    { c with
      ackMsgCount := u32 (c.ackMsgCount + 1)
      registry := c.registry.insert c.me { st with freshness := u32 (st.freshness + 1) } }
  else { c with ackMsgCount := u32 (c.ackMsgCount + 1) }

/-! ## Advance epoch -/

/-- What `getEpochWithTimer` does each time its timer runs out. -/
def getEpochTimeOut (c : config) : config :=
  { c with seqNum := u32 (c.seqNum + 1), epochCount := 0, globalMaxEn := (c.entry c.me).en }

def roundTripTimeOut (c : config) : config :=
  { c with
    refreshNum := u32 (c.refreshNum + 1)
    isLeader := false
    epochViews := c.epochViews.insert c.me { c.view c.me with expired := true }
    epochCount := 0
    globalMaxEn := (c.entry c.me).en
    seqNum := u32 (c.seqNum + 1) }

/-- The loop over the registry. -/
def maxEpoch (localMaxEn : epochNum) : List (Str × epochState) → epochNum
  | [] => localMaxEn
  | p :: rest => maxEpoch (if epochLess localMaxEn p.2.en then p.2.en else localMaxEn) rest

/-- The registry has an entry of the node itself. -/
def getEpochNumReq (c : config) : config :=
  match c.registry.entries with
  | [] => c
  | p :: rest => { c with localMaxEn := maxEpoch p.2.en rest }

def retEpochNumReq (c : config) (sn : ℕ) (en : epochNum) (now : ℕ) : config :=
  if sn = c.seqNum then
    let max := if epochLess c.globalMaxEn en then en else c.globalMaxEn
    let n := u32 (c.epochCount + 1)
    if n ≥ c.majority then
      let st := c.entry c.me
      { c with
        globalMaxEn := max
        epochCount := n
        registry := c.registry.insert c.me
          { st with en := { st.en with serialNum := u32 (max.serialNum + 1) } }
        epochStartTime := now }
    else { c with globalMaxEn := max, epochCount := n }
  else c

/-! ## Collect -/

def readTimeOut (c : config) (now : ℕ) : config :=
  { c with
    lastReadStartTime := now
    readNum := u32 (c.readNum + 1)
    statusMsgCount := 0
    oldEpochViews := c.epochViews }

/-- The first loop of `statusReq`. -/
def mergeViews (views : SortedMap Str epochView) (srcReg : SortedMap Str epochState) :
    SortedMap Str epochView :=
  views.mapVal fun id v => { v with state := maxState v.state ((srcReg.find id).getD .zero) }

/-- The two tests of the second loop, against the view of the last read. -/
def markView (old v : epochView) : epochView :=
  let v1 := if stateLessOrEqual v.state old.state then { v with expired := true } else v
  if epochLess old.state.en v1.state.en then { v1 with expired := false } else v1

/-- The third loop: `inited` and `minEpoch`. -/
def minLoop (inited : Bool) (minEpoch : epochNum) : List (Str × epochView) → Bool × epochNum
  | [] => (inited, minEpoch)
  | p :: rest =>
    -- `inited` is not set
    if (!p.2.expired && !inited) || (!p.2.expired && decide (epochLess p.2.state.en minEpoch)) then
      minLoop inited p.2.state.en rest
    else minLoop inited minEpoch rest

/-- From the majority on. `minEpoch` is not initialised in the source, and not read before it
is set. -/
def completeRead (c : config) : config :=
  let views := c.epochViews.mapVal fun id v => markView (c.oldView id) v
  let r := minLoop false .zero views.entries
  let leaderEpoch := if r.1 then r.2 else ⟨0, []⟩
  { c with
    lastCompletedReadStartTime := c.lastReadStartTime
    epochViews := views
    leaderEpoch := leaderEpoch
    leader := leaderEpoch.id }

/-- `src` is not looked at. -/
def statusReq (c : config) (_src : Str) (rn : ℕ) (srcReg : SortedMap Str epochState) : config :=
  if rn = c.readNum then
    let c1 := { c with
      epochViews := mergeViews c.epochViews srcReg
      statusMsgCount := u32 (c.statusMsgCount + 1) }
    if c1.statusMsgCount ≥ c.majority then completeRead c1 else c1
  else c

/-! ## Become leader -/

/-- The difference of the times is one of `unsigned int`s. -/
def becomeLeader (c : config) : config :=
  if c.leaderEpoch = (c.entry c.me).en
      ∧ u32 (c.lastCompletedReadStartTime + 2 ^ 32 - u32 c.epochStartTime)
        ≥ u32 (2 * c.delta + 3 * c.theta) then
    { c with isLeader := true }
  else c

end Yfs.Election
