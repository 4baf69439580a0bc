/-
Read rounds of the leader election (`config.cc`).

`readTimeOut` takes a snapshot of the views and asks every member for its registry.
`statusReq` merges each registry that comes in, entry by entry, and from a majority on it
compares the views with the snapshot and looks for the leader.

The merge is the maximum of the states. The rest does not do what it is for. The comparison
`stateLessOrEqual` looks at the serial numbers only, so a process whose freshness has moved
within its epoch counts as expired: after a completed round an entry is expired exactly if
its epoch has not advanced. And `inited` is never set, so no leader is ever found.
-/
import Yfs.Election
import Mathlib.Order.Bounds.Basic

set_option autoImplicit false

namespace Yfs.ElectionRead

open Text Yfs.Election

/-! ## What a completed read does -/

/-- A view is expired exactly if its epoch has not advanced; the flag it had is lost. -/
theorem markView_eq (old v : epochView) :
    markView old v = ⟨v.state, !decide (epochLess old.state.en v.state.en)⟩ := by
  unfold markView
  by_cases hless : epochLess old.state.en v.state.en
  · rw [decide_eq_true hless]
    split <;> simp [hless]
  · have hle : stateLessOrEqual v.state old.state := by
      rw [stateLessOrEqual_iff]
      unfold epochLess at hless
      omega
    simp [hless, hle]

/-- `inited` stays as it is. -/
theorem minLoop_inited (inited : Bool) (minEpoch : epochNum) (l : List (Str × epochView)) :
    (minLoop inited minEpoch l).1 = inited := by
  induction l generalizing minEpoch with
  | nil => rfl
  | cons p rest ih =>
    rw [minLoop]
    split
    · exact ih _
    · exact ih _

theorem completeRead_leaderEpoch (c : config) : (completeRead c).leaderEpoch = ⟨0, []⟩ := by
  simp only [completeRead, minLoop_inited, Bool.false_eq_true, if_false]

theorem completeRead_find (c : config) (id : Str) :
    (completeRead c).epochViews.find id
      = (c.epochViews.find id).map fun v => markView (c.oldView id) v :=
  SortedMap.find_mapVal ..

/-! ## Messages -/

structure Status where
  src : Str
  rn : ℕ
  srcReg : SortedMap Str epochState

/-- `srcReg[id]`. -/
def Status.entry (m : Status) (id : Str) : epochState := (m.srcReg.find id).getD .zero

def readMsgs (c : config) (ms : List Status) : config :=
  ms.foldl (fun c m => statusReq c m.src m.rn m.srcReg) c

/-- The state of an entry after the messages. -/
def merged (ms : List Status) (id : Str) (st : epochState) : epochState :=
  ms.foldl (fun st m => maxState st (m.entry id)) st

/-- A merged state is the largest of the states that were merged. -/
theorem merged_isGreatest (ms : List Status) (id : Str) (st : epochState) :
    IsGreatest {x | x = st ∨ ∃ m ∈ ms, x = m.entry id} (merged ms id st) := by
  induction ms generalizing st with
  | nil =>
    refine ⟨.inl rfl, ?_⟩
    rintro x (rfl | ⟨m, hm, -⟩)
    · exact le_refl _
    · cases hm
  | cons m ms ih =>
    obtain ⟨hmem, hupper⟩ := ih (maxState st (m.entry id))
    have hmax := hupper (.inl rfl)
    rw [maxState_eq] at hmem hupper hmax
    have hcons : merged (m :: ms) id st = merged ms id (max st (m.entry id)) := by
      rw [← maxState_eq]
      rfl
    rw [hcons]
    refine ⟨?_, ?_⟩
    · rcases hmem with hst | ⟨m', hm', heq⟩
      · rcases le_total st (m.entry id) with h | h
        · exact .inr ⟨m, List.mem_cons_self, hst.trans (max_eq_right h)⟩
        · exact .inl (hst.trans (max_eq_left h))
      · exact .inr ⟨m', List.mem_cons_of_mem _ hm', heq⟩
    · rintro x (rfl | ⟨m', hm', rfl⟩)
      · exact (le_max_left _ _).trans hmax
      · rcases List.mem_cons.mp hm' with rfl | hm'
        · exact (le_max_right _ _).trans hmax
        · exact hupper (.inr ⟨m', hm', rfl⟩)

/-- What a message leaves of the entry of `id`, but for its flag. -/
def states (c : config) (id : Str) : Option epochState :=
  (c.epochViews.find id).map epochView.state

/-- The fields of a read round that a message leaves alone. -/
structure SameRound (c c' : config) : Prop where
  mems : c'.mems = c.mems
  readNum : c'.readNum = c.readNum
  oldEpochViews : c'.oldEpochViews = c.oldEpochViews

theorem SameRound.majority {c c' : config} (h : SameRound c c') : c'.majority = c.majority := by
  rw [config.majority, h.mems, config.majority]

theorem SameRound.oldView {c c' : config} (h : SameRound c c') (id : Str) :
    c'.oldView id = c.oldView id := by
  rw [config.oldView, h.oldEpochViews, config.oldView]

/-- The merge of a message of the round, before the majority is looked at. -/
def counted (c : config) (m : Status) : config :=
  { c with
    epochViews := mergeViews c.epochViews m.srcReg
    statusMsgCount := u32 (c.statusMsgCount + 1) }

variable {m : Status} {c : config}

theorem statusReq_eq (h : m.rn = c.readNum) :
    statusReq c m.src m.rn m.srcReg =
      if u32 (c.statusMsgCount + 1) ≥ c.majority then completeRead (counted c m)
      else counted c m := by
  simp only [statusReq, if_pos h, counted]

theorem counted_find (c : config) (m : Status) (id : Str) :
    (counted c m).epochViews.find id
      = (c.epochViews.find id).map fun v => { v with state := maxState v.state (m.entry id) } :=
  SortedMap.find_mapVal ..

/-- **One message.** Its states are merged, and it is counted. -/
theorem statusReq_spec (h : m.rn = c.readNum) :
    SameRound c (statusReq c m.src m.rn m.srcReg)
      ∧ (statusReq c m.src m.rn m.srcReg).statusMsgCount = u32 (c.statusMsgCount + 1)
      ∧ ∀ id, states (statusReq c m.src m.rn m.srcReg) id
        = (states c id).map fun st => maxState st (m.entry id) := by
  have hcounted : ∀ id, states (counted c m) id
      = (states c id).map fun st => maxState st (m.entry id) := by
    intro id
    rw [states, states, counted_find, Option.map_map, Option.map_map]
    rfl
  rw [statusReq_eq h]
  split
  · refine ⟨⟨rfl, rfl, rfl⟩, rfl, fun id => ?_⟩
    rw [← hcounted, states, states, completeRead_find, Option.map_map]
    congr 1
    funext v
    rw [Function.comp_apply, markView_eq]
  · exact ⟨⟨rfl, rfl, rfl⟩, rfl, hcounted⟩

/-- **The messages of a round.** -/
theorem readMsgs_spec (ms : List Status) (c : config) (h : ∀ m ∈ ms, m.rn = c.readNum) :
    SameRound c (readMsgs c ms)
      ∧ u32 ((readMsgs c ms).statusMsgCount + 1) = u32 (c.statusMsgCount + ms.length + 1)
      ∧ ∀ id, states (readMsgs c ms) id = (states c id).map (merged ms id) := by
  induction ms generalizing c with
  | nil =>
    refine ⟨⟨rfl, rfl, rfl⟩, rfl, fun id => ?_⟩
    show states c id = _
    cases states c id <;> rfl
  | cons m ms ih =>
    obtain ⟨hsame, hcount, hstates⟩ := statusReq_spec (h m List.mem_cons_self)
    obtain ⟨hsame', hcount', hstates'⟩ := ih (statusReq c m.src m.rn m.srcReg) fun m' hm' => by
      rw [hsame.readNum]
      exact h m' (List.mem_cons_of_mem _ hm')
    refine ⟨?_, ?_, fun id => ?_⟩
    · exact ⟨hsame'.mems.trans hsame.mems, hsame'.readNum.trans hsame.readNum,
        hsame'.oldEpochViews.trans hsame.oldEpochViews⟩
    · rw [readMsgs, List.foldl_cons, ← readMsgs, hcount', hcount, List.length_cons]
      unfold u32
      omega
    · rw [readMsgs, List.foldl_cons, ← readMsgs, hstates', hstates, Option.map_map]
      rfl

/-! ## What a completed round is for -/

/-- The leader's epoch is the least one of the views that have not expired, and nobody's when
they all have. -/
def LeaderSpec (c : config) : Prop :=
  (∃ id v, c.epochViews.find id = some v ∧ v.expired = false ∧ v.state.en = c.leaderEpoch
      ∧ ∀ id' v', c.epochViews.find id' = some v' → v'.expired = false →
        ¬ epochLess v'.state.en c.leaderEpoch)
    ∨ ((∀ id v, c.epochViews.find id = some v → v.expired = true) ∧ c.leaderEpoch = ⟨0, []⟩)

/-- The message that completes a round: a view expires when its state is that of the snapshot,
lives when its epoch is greater, and keeps its flag otherwise. -/
structure RoundSpec (before after : config) : Prop where
  flag : ∀ id v v', before.epochViews.find id = some v → after.epochViews.find id = some v' →
    v'.expired =
      if v'.state = (before.oldView id).state then true
      else if epochLess (before.oldView id).state.en v'.state.en then false
      else v.expired
  leader : LeaderSpec after

theorem not_epochLess_zero (en : epochNum) : ¬ epochLess en ⟨0, []⟩ := by
  rintro (h | ⟨-, h⟩)
  · exact Nat.not_lt_zero _ h
  · exact List.not_lt_nil _ h

/-- The message that completes a round sets the flags by the epochs alone. -/
theorem completed_find (h : m.rn = c.readNum)
    (hmaj : u32 (c.statusMsgCount + 1) ≥ c.majority) (id : Str) :
    (statusReq c m.src m.rn m.srcReg).epochViews.find id
      = (c.epochViews.find id).map fun v => ⟨maxState v.state (m.entry id),
        !decide (epochLess (c.oldView id).state.en (maxState v.state (m.entry id)).en)⟩ := by
  rw [statusReq_eq h, if_pos hmaj, completeRead_find, counted_find, Option.map_map]
  congr 1
  funext v
  rw [Function.comp_apply, markView_eq]
  rfl

theorem completed_leaderEpoch (h : m.rn = c.readNum)
    (hmaj : u32 (c.statusMsgCount + 1) ≥ c.majority) :
    (statusReq c m.src m.rn m.srcReg).leaderEpoch = ⟨0, []⟩ := by
  rw [statusReq_eq h, if_pos hmaj, completeRead_leaderEpoch]

/-- After a completed round a view is expired exactly if its epoch has not advanced. -/
theorem completed_expired (h : m.rn = c.readNum)
    (hmaj : u32 (c.statusMsgCount + 1) ≥ c.majority) {id : Str} {v' : epochView}
    (hv' : (statusReq c m.src m.rn m.srcReg).epochViews.find id = some v') :
    v'.expired = !decide (epochLess (c.oldView id).state.en v'.state.en) := by
  rw [completed_find h hmaj] at hv'
  obtain ⟨v, -, rfl⟩ := Option.map_eq_some_iff.mp hv'
  rfl

/-- When the message that completes a round does what it is for, no entry has advanced its
epoch: a view that lives would be, or be above, the epoch that nobody has. -/
theorem RoundSpec.not_advanced (h : m.rn = c.readNum)
    (hmaj : u32 (c.statusMsgCount + 1) ≥ c.majority)
    (hspec : RoundSpec c (statusReq c m.src m.rn m.srcReg)) {id : Str} {v' : epochView}
    (hv' : (statusReq c m.src m.rn m.srcReg).epochViews.find id = some v') :
    ¬ epochLess (c.oldView id).state.en v'.state.en := by
  intro hless
  have hflag := completed_expired h hmaj hv'
  rw [decide_eq_true hless] at hflag
  rcases hspec.leader with ⟨id₁, v₁, hv₁, hlive, hen, -⟩ | ⟨hall, -⟩
  · have hflag₁ := completed_expired h hmaj hv₁
    rw [hlive, hen, completed_leaderEpoch h hmaj, decide_eq_false (not_epochLess_zero _)] at hflag₁
    cases hflag₁
  · rw [hall id v' hv'] at hflag
    cases hflag

/-- A view for which the completing message does what it is for: with its state `st` after
the merge, it is still the view of the snapshot, or it had expired before and has not
advanced its epoch. -/
def Still (old v : epochView) (st : epochState) : Prop :=
  st = old.state ∨ (v.expired = true ∧ ¬ epochLess old.state.en st.en)

theorem Still.not_advanced {old v : epochView} {st : epochState} (h : Still old v st) :
    ¬ epochLess old.state.en st.en := by
  rcases h with rfl | ⟨-, hless⟩
  · rw [epochLess_iff]
    exact lt_irrefl _
  · exact hless

/-- The message that completes a round does what it is for exactly when nothing has advanced
its epoch, and what has moved at all had expired before. -/
theorem roundSpec_iff (h : m.rn = c.readNum) (hmaj : u32 (c.statusMsgCount + 1) ≥ c.majority) :
    RoundSpec c (statusReq c m.src m.rn m.srcReg) ↔
      ∀ id v, c.epochViews.find id = some v →
        Still (c.oldView id) v (maxState v.state (m.entry id)) := by
  have hfind : ∀ {id v}, c.epochViews.find id = some v →
      (statusReq c m.src m.rn m.srcReg).epochViews.find id = some ⟨maxState v.state (m.entry id),
        !decide (epochLess (c.oldView id).state.en (maxState v.state (m.entry id)).en)⟩ := by
    intro id v hv
    rw [completed_find h hmaj, hv]
    rfl
  constructor
  · intro hspec id v hv
    have hless := hspec.not_advanced h hmaj (hfind hv)
    by_cases hst : maxState v.state (m.entry id) = (c.oldView id).state
    · exact .inl hst
    · refine .inr ⟨?_, hless⟩
      have hkeep := hspec.flag id v _ hv (hfind hv)
      rw [if_neg hst, if_neg hless, decide_eq_false hless] at hkeep
      exact hkeep.symm
  · intro hstill
    refine ⟨?_, .inr ⟨?_, completed_leaderEpoch h hmaj⟩⟩
    · intro id v v' hv hv'
      obtain rfl := Option.some.inj ((hfind hv).symm.trans hv')
      have hless := (hstill id v hv).not_advanced
      rw [if_neg hless, decide_eq_false hless]
      rcases hstill id v hv with heq | ⟨hexp, -⟩
      · rw [if_pos heq]
        rfl
      · rw [hexp, ite_self]
        rfl
    · intro id v' hv'
      have hback := hv'
      rw [completed_find h hmaj] at hback
      obtain ⟨v, hv, rfl⟩ := Option.map_eq_some_iff.mp hback
      rw [decide_eq_false (hstill id v hv).not_advanced]
      rfl

theorem readMsgs_append (c : config) (ms : List Status) (m : Status) :
    readMsgs c (ms ++ [m]) = statusReq (readMsgs c ms) m.src m.rn m.srcReg := by
  rw [readMsgs, List.foldl_append]
  rfl

/-- The views before the completing message have the states merged so far, so that its own
merge is the merge of all the messages. -/
theorem merged_append {ms : List Status} (m : Status)
    (hrn : ∀ x ∈ ms, x.rn = c.readNum) {id : Str} {v₀ v : epochView}
    (hv₀ : c.epochViews.find id = some v₀) (hv : (readMsgs c ms).epochViews.find id = some v) :
    merged (ms ++ [m]) id v₀.state = maxState v.state (m.entry id) := by
  have hstates := (readMsgs_spec ms c hrn).2.2 id
  rw [states, states, hv₀, hv] at hstates
  have hst : v.state = merged ms id v₀.state := Option.some.inj hstates
  rw [hst, merged, List.foldl_append]
  rfl

/-- **A read round.** From any views and any snapshot, with any messages for the current
number, every state is the largest of those that were merged. The message `m` that completes
the round does what it is for exactly when every entry, with the states of all the messages
merged into the one it had before them, either is as in the snapshot, or had expired before
`m` came and has not advanced its epoch. -/
theorem read_round_iff (c : config) (ms : List Status) (m : Status)
    (hrn : ∀ x ∈ ms ++ [m], x.rn = c.readNum)
    (hmaj : u32 (c.statusMsgCount + ms.length + 1) ≥ c.majority) :
    (∀ id v, c.epochViews.find id = some v →
      ∃ v', (readMsgs c (ms ++ [m])).epochViews.find id = some v'
        ∧ v'.state = merged (ms ++ [m]) id v.state
        ∧ IsGreatest {st | st = v.state ∨ ∃ x ∈ ms ++ [m], st = x.entry id} v'.state)
      ∧ (RoundSpec (readMsgs c ms) (readMsgs c (ms ++ [m])) ↔
        ∀ id v₀ v, c.epochViews.find id = some v₀ →
          (readMsgs c ms).epochViews.find id = some v →
            Still (c.oldView id) v (merged (ms ++ [m]) id v₀.state)) := by
  have hms : ∀ x ∈ ms, x.rn = c.readNum := fun x hx => hrn x (List.mem_append_left _ hx)
  obtain ⟨hsame, hcount, hstates⟩ := readMsgs_spec ms c hms
  have hm : m.rn = (readMsgs c ms).readNum := by
    rw [hsame.readNum]
    exact hrn m (List.mem_append_right _ (List.mem_singleton.mpr rfl))
  refine ⟨?_, ?_⟩
  · intro id v hv
    have hall := (readMsgs_spec (ms ++ [m]) c hrn).2.2 id
    rw [states, states, hv] at hall
    obtain ⟨v', hv', hst⟩ := Option.map_eq_some_iff.mp hall
    refine ⟨v', hv', hst, ?_⟩
    rw [hst]
    exact merged_isGreatest (ms ++ [m]) id v.state
  · rw [← hcount, ← hsame.majority] at hmaj
    rw [readMsgs_append, roundSpec_iff hm hmaj]
    simp only [hsame.oldView]
    constructor
    · intro hstill id v₀ v hv₀ hv
      rw [merged_append m hms hv₀ hv]
      exact hstill id v hv
    · intro hstill id v hv
      -- an entry that is there after the messages was there before them
      have hback := hstates id
      rw [states, states, hv] at hback
      obtain ⟨st₀, hst₀, -⟩ := Option.map_eq_some_iff.mp hback.symm
      obtain ⟨v₀, hv₀, -⟩ := Option.map_eq_some_iff.mp hst₀
      rw [← merged_append m hms hv₀ hv]
      exact hstill id v₀ v hv₀ hv

/-- Three members at the start of a read. The entry of the first has expired. -/
def amongThree : config :=
  readTimeOut
    { config.new ['a'] [['a'], ['b'], ['c']] with
      epochViews := ((SortedMap.empty.insert ['a'] ⟨⟨⟨1, ['a']⟩, 4⟩, true⟩).insert ['b']
        ⟨⟨⟨1, ['b']⟩, 2⟩, false⟩).insert ['c'] ⟨⟨⟨0, ['c']⟩, 0⟩, true⟩ } 5

theorem amongThree_find {id : Str} {v : epochView} (h : amongThree.epochViews.find id = some v) :
    id = ['a'] ∨ id = ['b'] ∨ id = ['c'] := by
  by_contra hne
  rw [not_or, not_or] at hne
  have hnone : amongThree.epochViews.find id = none :=
    (SortedMap.find_insert_of_ne _ _ hne.2.2).trans
      ((SortedMap.find_insert_of_ne _ _ hne.2.1).trans (SortedMap.find_insert_of_ne _ _ hne.1))
  rw [hnone] at h
  cases h

/-- The second member has heard of a later refresh of the first. -/
def fromB : Status :=
  ⟨['b'], 1, (SortedMap.empty.insert ['a'] ⟨⟨1, ['a']⟩, 5⟩).insert ['b'] ⟨⟨1, ['b']⟩, 2⟩⟩

def fromC : Status := ⟨['c'], 1, SortedMap.empty.insert ['c'] ⟨⟨0, ['c']⟩, 0⟩⟩

/-- The second message completes the round. The entry of the first member has moved within
its epoch and stays expired, the other two are as in the snapshot and expire, and nobody
leads: all this is as it should be. -/
theorem read_round_iff_amongThree :
    RoundSpec (readMsgs amongThree [fromB]) (readMsgs amongThree ([fromB] ++ [fromC]))
      ∧ amongThree.oldView ['a'] = ⟨⟨⟨1, ['a']⟩, 4⟩, true⟩
      ∧ (readMsgs amongThree ([fromB] ++ [fromC])).epochViews.find ['a']
        = some ⟨⟨⟨1, ['a']⟩, 5⟩, true⟩ := by
  have hround := read_round_iff amongThree [fromB] fromC (by decide) (by decide)
  refine ⟨hround.2.mpr fun id v₀ v hv₀ hv => ?_, by decide, by decide⟩
  rcases amongThree_find hv₀ with rfl | rfl | rfl
  · have ha₀ : amongThree.epochViews.find ['a'] = some ⟨⟨⟨1, ['a']⟩, 4⟩, true⟩ := by decide
    have ha : (readMsgs amongThree [fromB]).epochViews.find ['a']
        = some ⟨⟨⟨1, ['a']⟩, 5⟩, true⟩ := by decide
    obtain rfl := Option.some.inj (ha₀.symm.trans hv₀)
    obtain rfl := Option.some.inj (ha.symm.trans hv)
    exact .inr ⟨rfl, by decide⟩
  · have hb₀ : amongThree.epochViews.find ['b'] = some ⟨⟨⟨1, ['b']⟩, 2⟩, false⟩ := by decide
    obtain rfl := Option.some.inj (hb₀.symm.trans hv₀)
    exact .inl (by decide)
  · have hc₀ : amongThree.epochViews.find ['c'] = some ⟨⟨⟨0, ['c']⟩, 0⟩, true⟩ := by decide
    obtain rfl := Option.some.inj (hc₀.symm.trans hv₀)
    exact .inl (by decide)

/-- The registry of a node that has announced only itself. -/
def registryOf (id : Str) (st : epochState) : SortedMap Str epochState :=
  SortedMap.empty.insert id st

/-- The only member of a view, which reads its own registry. -/
def alone : config := readTimeOut (config.new ['a'] [['a']]) 5

def ownStatus (rn : ℕ) (st : epochState) : Status := ⟨['a'], rn, registryOf ['a'] st⟩

/-- The node has taken a new epoch, and is the only one that lives, but does not lead. In the
next round it has refreshed that epoch, and is taken for dead. -/
theorem live_node_expires :
    let c₁ := readMsgs alone [ownStatus 1 ⟨⟨1, ['a']⟩, 0⟩]
    let c₂ := readTimeOut c₁ 11
    let c₃ := readMsgs c₂ [ownStatus 2 ⟨⟨1, ['a']⟩, 1⟩]
    c₁.epochViews.find ['a'] = some ⟨⟨⟨1, ['a']⟩, 0⟩, false⟩ ∧ c₁.leaderEpoch = ⟨0, []⟩
      ∧ c₂.oldView ['a'] = ⟨⟨⟨1, ['a']⟩, 0⟩, false⟩
      ∧ c₃.epochViews.find ['a'] = some ⟨⟨⟨1, ['a']⟩, 1⟩, true⟩
      ∧ ¬ RoundSpec alone c₁ ∧ ¬ RoundSpec c₂ c₃ := by
  intro c₁ c₂ c₃
  have h₁ : c₁.epochViews.find ['a'] = some ⟨⟨⟨1, ['a']⟩, 0⟩, false⟩ := by decide
  have h₃ : c₃.epochViews.find ['a'] = some ⟨⟨⟨1, ['a']⟩, 1⟩, true⟩ := by decide
  have hen : c₁.leaderEpoch = ⟨0, []⟩ := by decide
  refine ⟨h₁, hen, by decide, h₃, ?_, ?_⟩
  · intro hspec
    rcases hspec.leader with ⟨id, v, hv, hlive, hlead, -⟩ | ⟨hall, -⟩
    · have hflag := completed_expired (c := alone) (m := ownStatus 1 ⟨⟨1, ['a']⟩, 0⟩) rfl
        (by decide) hv
      rw [hlive, hlead, hen, decide_eq_false (not_epochLess_zero _)] at hflag
      cases hflag
    · have hdead := hall _ _ h₁
      cases hdead
  · intro hspec
    have hflag := hspec.flag ['a'] _ _ h₁ h₃
    revert hflag
    decide

end Yfs.ElectionRead
