/-
The types that can be sent: the operators for containers and for the structs of the
protocols, and the format they have in common.

A type of the source is a code `Ty`, and `Ty.Val` are its values. A key of a map needs an
`operator<`; the built-in types have one, and so have the containers of types that have
one, but none of the structs does. So the codes are indexed by whether their type is asked
to be ordered, and the structs are there only where it is not. `Ty.put` and `Ty.get` are
the operators that the compiler chooses for a type. `Ty.encode` is the format, by itself:
numbers most significant byte first, and the length before the contents of a string or
container.
-/
import Yfs.Marshall
import Yfs.SortedMap

set_option autoImplicit false

namespace Yfs.WireTypes

open Bytes Yfs.Marshall

/-! ## Containers -/

section Containers

variable {C A B : Type} [LinearOrder A]

/-- A vector of `2^32` elements would be one the loop never comes to the end of. -/
def putVector (put : marshall → C → Option marshall) (m : marshall) (v : List C) :
    Option marshall := do
  let m ← putUInt m (.ofNat v.length)
  if v.length < 2 ^ 32 then v.foldlM put m else none

def putMap (putA : marshall → A → Option marshall) (putB : marshall → B → Option marshall)
    (m : marshall) (d : SortedMap A B) : Option marshall := do
  let m ← putUInt m (.ofNat d.entries.length)
  d.entries.foldlM (fun m i => do
    let m ← putA m i.1
    putB m i.2) m

/-- The loop that reads `n` elements and adds each to what was read before. -/
def readLoop {δ : Type} (get : unmarshall → unmarshall × C) (add : δ → C → δ) :
    ℕ → unmarshall → δ → unmarshall × δ
  | 0, u, d => (u, d)
  | n + 1, u, d =>
    let (u, z) := get u
    readLoop get add n u (add d z)

def getVector (get : unmarshall → unmarshall × C) (u : unmarshall) : unmarshall × List C :=
  let (u, n) := getUInt u
  readLoop get (fun v z => v ++ [z]) n.toNat u []

def getPair (getA : unmarshall → unmarshall × A) (getB : unmarshall → unmarshall × B)
    (u : unmarshall) : unmarshall × (A × B) :=
  let (u, a) := getA u
  let (u, b) := getB u
  (u, (a, b))

def getMap (getA : unmarshall → unmarshall × A) (getB : unmarshall → unmarshall × B)
    (u : unmarshall) : unmarshall × SortedMap A B :=
  let (u, n) := getUInt u
  readLoop (getPair getA getB) (fun d p => d.insert p.1 p.2) n.toNat u .empty

end Containers

/-! ## The structs of the protocols -/

structure prop_t where
  n : UInt32
  m : List UInt8

structure preparearg where
  instance_ : UInt32
  n : prop_t

structure prepareres where
  oldinstance : Bool
  accept : Bool
  n_a : prop_t
  v_a : List UInt8

structure acceptarg where
  instance_ : UInt32
  n : prop_t
  v : List UInt8

structure decidearg where
  instance_ : UInt32
  v : List UInt8

structure attr where
  atime : UInt32
  mtime : UInt32
  ctime : UInt32
  size : UInt32

structure viewstamp where
  vid : UInt32
  seqno : UInt32

structure transferres where
  state : List UInt8
  last : viewstamp

structure joinres where
  log : List UInt8

def putProp (m : marshall) (a : prop_t) : Option marshall := do
  let m ← putUInt m a.n
  putString m a.m

def putPreparearg (m : marshall) (a : preparearg) : Option marshall := do
  let m ← putUInt m a.instance_
  putProp m a.n

def putPrepareres (m : marshall) (r : prepareres) : Option marshall := do
  let m ← putBool m r.oldinstance
  let m ← putBool m r.accept
  let m ← putProp m r.n_a
  putString m r.v_a

def putAcceptarg (m : marshall) (a : acceptarg) : Option marshall := do
  let m ← putUInt m a.instance_
  let m ← putProp m a.n
  putString m a.v

def putDecidearg (m : marshall) (a : decidearg) : Option marshall := do
  let m ← putUInt m a.instance_
  putString m a.v

def putAttr (m : marshall) (a : attr) : Option marshall := do
  let m ← putUInt m a.atime
  let m ← putUInt m a.mtime
  let m ← putUInt m a.ctime
  putUInt m a.size

def putViewstamp (m : marshall) (v : viewstamp) : Option marshall := do
  let m ← putUInt m v.vid
  putUInt m v.seqno

def putTransferres (m : marshall) (r : transferres) : Option marshall := do
  let m ← putString m r.state
  putViewstamp m r.last

def putJoinres (m : marshall) (r : joinres) : Option marshall := putString m r.log

def getProp (u : unmarshall) : unmarshall × prop_t :=
  let (u, n) := getUInt u
  let (u, m) := getString u []
  (u, ⟨n, m⟩)

def getPreparearg (u : unmarshall) : unmarshall × preparearg :=
  let (u, inst) := getUInt u
  let (u, n) := getProp u
  (u, ⟨inst, n⟩)

def getPrepareres (u : unmarshall) : unmarshall × prepareres :=
  let (u, oldinstance) := getBool u
  let (u, accept) := getBool u
  let (u, n_a) := getProp u
  let (u, v_a) := getString u []
  (u, ⟨oldinstance, accept, n_a, v_a⟩)

def getAcceptarg (u : unmarshall) : unmarshall × acceptarg :=
  let (u, inst) := getUInt u
  let (u, n) := getProp u
  let (u, v) := getString u []
  (u, ⟨inst, n, v⟩)

def getDecidearg (u : unmarshall) : unmarshall × decidearg :=
  let (u, inst) := getUInt u
  let (u, v) := getString u []
  (u, ⟨inst, v⟩)

def getAttr (u : unmarshall) : unmarshall × attr :=
  let (u, atime) := getUInt u
  let (u, mtime) := getUInt u
  let (u, ctime) := getUInt u
  let (u, size) := getUInt u
  (u, ⟨atime, mtime, ctime, size⟩)

def getViewstamp (u : unmarshall) : unmarshall × viewstamp :=
  let (u, vid) := getUInt u
  let (u, seqno) := getUInt u
  (u, ⟨vid, seqno⟩)

def getTransferres (u : unmarshall) : unmarshall × transferres :=
  let (u, state) := getString u []
  let (u, last) := getViewstamp u
  (u, ⟨state, last⟩)

def getJoinres (u : unmarshall) : unmarshall × joinres :=
  let (u, log) := getString u []
  (u, ⟨log⟩)

/-! ## All types -/

/-- The types; of `Ty true` only those with an `operator<`. -/
inductive Ty : Bool → Type
  | bool {c : Bool} : Ty c
  | char {c : Bool} : Ty c
  | uchar {c : Bool} : Ty c
  | short {c : Bool} : Ty c
  | ushort {c : Bool} : Ty c
  | int {c : Bool} : Ty c
  | uint {c : Bool} : Ty c
  | ulonglong {c : Bool} : Ty c
  | string {c : Bool} : Ty c
  | vector {c : Bool} (t : Ty c) : Ty c
  | map {c : Bool} (k : Ty true) (t : Ty c) : Ty c
  | prop_t : Ty false
  | preparearg : Ty false
  | prepareres : Ty false
  | acceptarg : Ty false
  | decidearg : Ty false
  | attr : Ty false
  | viewstamp : Ty false
  | transferres : Ty false
  | joinres : Ty false

/-- The values of a type, and their order if it is asked for. -/
structure Sem (c : Bool) where
  carrier : Type
  order : c = true → LinearOrder carrier

abbrev orderUInt8 : LinearOrder UInt8 := .lift' UInt8.toNat fun _ _ => UInt8.toNat_inj.mp

def Ty.sem : {c : Bool} → Ty c → Sem c
  | _, .bool => ⟨Bool, fun _ => inferInstance⟩
  | _, .char => ⟨Int8, fun _ => .lift' Int8.toInt fun _ _ => Int8.toInt_inj.mp⟩
  | _, .uchar => ⟨UInt8, fun _ => orderUInt8⟩
  | _, .short => ⟨Int16, fun _ => .lift' Int16.toInt fun _ _ => Int16.toInt_inj.mp⟩
  | _, .ushort => ⟨UInt16, fun _ => .lift' UInt16.toNat fun _ _ => UInt16.toNat_inj.mp⟩
  | _, .int => ⟨Int32, fun _ => .lift' Int32.toInt fun _ _ => Int32.toInt_inj.mp⟩
  | _, .uint => ⟨UInt32, fun _ => .lift' UInt32.toNat fun _ _ => UInt32.toNat_inj.mp⟩
  | _, .ulonglong => ⟨UInt64, fun _ => .lift' UInt64.toNat fun _ _ => UInt64.toNat_inj.mp⟩
  -- characters of a string are compared as unsigned
  | _, .string => ⟨List UInt8, fun _ => @List.instLinearOrder _ orderUInt8⟩
  | _, .vector t => ⟨List t.sem.carrier, fun h => @List.instLinearOrder _ (t.sem.order h)⟩
  | _, .map k t =>
    letI := k.sem.order rfl
    ⟨SortedMap k.sem.carrier t.sem.carrier, fun h =>
      letI := t.sem.order h
      inferInstance⟩
  | _, .prop_t => ⟨WireTypes.prop_t, nofun⟩
  | _, .preparearg => ⟨WireTypes.preparearg, nofun⟩
  | _, .prepareres => ⟨WireTypes.prepareres, nofun⟩
  | _, .acceptarg => ⟨WireTypes.acceptarg, nofun⟩
  | _, .decidearg => ⟨WireTypes.decidearg, nofun⟩
  | _, .attr => ⟨WireTypes.attr, nofun⟩
  | _, .viewstamp => ⟨WireTypes.viewstamp, nofun⟩
  | _, .transferres => ⟨WireTypes.transferres, nofun⟩
  | _, .joinres => ⟨WireTypes.joinres, nofun⟩

def Ty.Val {c : Bool} (t : Ty c) : Type := t.sem.carrier

/-- `operator<<`. -/
def Ty.put : {c : Bool} → (t : Ty c) → marshall → t.Val → Option marshall
  | _, .bool => putBool
  | _, .char => putChar
  | _, .uchar => putUChar
  | _, .short => putShort
  | _, .ushort => putUShort
  | _, .int => putInt
  | _, .uint => putUInt
  | _, .ulonglong => putULongLong
  | _, .string => putString
  | _, .vector t => putVector t.put
  | _, .map k t => @putMap _ _ (k.sem.order rfl) k.put t.put
  | _, .prop_t => putProp
  | _, .preparearg => putPreparearg
  | _, .prepareres => putPrepareres
  | _, .acceptarg => putAcceptarg
  | _, .decidearg => putDecidearg
  | _, .attr => putAttr
  | _, .viewstamp => putViewstamp
  | _, .transferres => putTransferres
  | _, .joinres => putJoinres

/-- `operator>>` into a fresh variable. -/
def Ty.get : {c : Bool} → (t : Ty c) → unmarshall → unmarshall × t.Val
  | _, .bool => getBool
  | _, .char => getChar
  | _, .uchar => getUChar
  | _, .short => getShort
  | _, .ushort => getUShort
  | _, .int => getInt
  | _, .uint => getUInt
  | _, .ulonglong => getULongLong
  | _, .string => fun u => getString u []
  | _, .vector t => getVector t.get
  | _, .map k t => @getMap _ _ (k.sem.order rfl) k.get t.get
  | _, .prop_t => getProp
  | _, .preparearg => getPreparearg
  | _, .prepareres => getPrepareres
  | _, .acceptarg => getAcceptarg
  | _, .decidearg => getDecidearg
  | _, .attr => getAttr
  | _, .viewstamp => getViewstamp
  | _, .transferres => getTransferres
  | _, .joinres => getJoinres

/-! ## The format -/

section Containers

variable {C A B : Type} [LinearOrder A]

def encVector (enc : C → List UInt8) (v : List C) : List UInt8 :=
  be32 (.ofNat v.length) ++ v.flatMap enc

def encMap (encA : A → List UInt8) (encB : B → List UInt8) (d : SortedMap A B) : List UInt8 :=
  be32 (.ofNat d.entries.length) ++ d.entries.flatMap fun p => encA p.1 ++ encB p.2

end Containers

def encProp (a : prop_t) : List UInt8 := be32 a.n ++ encString a.m

def encPreparearg (a : preparearg) : List UInt8 := be32 a.instance_ ++ encProp a.n

def encPrepareres (r : prepareres) : List UInt8 :=
  [r.oldinstance.toUInt8] ++ ([r.accept.toUInt8] ++ (encProp r.n_a ++ encString r.v_a))

def encAcceptarg (a : acceptarg) : List UInt8 := be32 a.instance_ ++ (encProp a.n ++ encString a.v)

def encDecidearg (a : decidearg) : List UInt8 := be32 a.instance_ ++ encString a.v

def encAttr (a : attr) : List UInt8 :=
  be32 a.atime ++ (be32 a.mtime ++ (be32 a.ctime ++ be32 a.size))

def encViewstamp (v : viewstamp) : List UInt8 := be32 v.vid ++ be32 v.seqno

def encTransferres (r : transferres) : List UInt8 := encString r.state ++ encViewstamp r.last

def Ty.encode : {c : Bool} → (t : Ty c) → t.Val → List UInt8
  | _, .bool => fun x => [Bool.toUInt8 x]
  | _, .char => fun x => [Int8.toUInt8 x]
  | _, .uchar => fun x => [x]
  | _, .short => fun x => be16 (Int16.toUInt16 x)
  | _, .ushort => be16
  | _, .int => fun x => be32 (Int32.toUInt32 x)
  | _, .uint => be32
  | _, .ulonglong => encULongLong
  | _, .string => encString
  | _, .vector t => encVector t.encode
  | _, .map k t => @encMap _ _ (k.sem.order rfl) k.encode t.encode
  | _, .prop_t => encProp
  | _, .preparearg => encPreparearg
  | _, .prepareres => encPrepareres
  | _, .acceptarg => encAcceptarg
  | _, .decidearg => encDecidearg
  | _, .attr => encAttr
  | _, .viewstamp => encViewstamp
  | _, .transferres => encTransferres
  | _, .joinres => fun r => encString (joinres.log r)

/-! ## The operators keep to the format -/

section Containers

variable {C A B : Type} [LinearOrder A] {enc : C → List UInt8} {encA : A → List UInt8}
  {encB : B → List UInt8}

/-- A container of things that take at least one byte each. -/
theorem length_le_flatMap (hpos : ∀ x, 0 < (enc x).length) (v : List C) :
    v.length ≤ (v.flatMap enc).length := by
  induction v with
  | nil => exact Nat.le_refl _
  | cons x v ih =>
    have hx := hpos x
    rw [List.flatMap_cons, List.length_append, List.length_cons]
    omega

theorem foldlM_puts {put : marshall → C → Option marshall} (h : Puts put enc) :
    Puts (fun m (v : List C) => v.foldlM put m) fun v => v.flatMap enc := by
  intro m v hm hlen
  beta_reduce at hlen ⊢
  induction v generalizing m with
  | nil => exact ⟨m, rfl, .nil hm⟩
  | cons x v ih =>
    rw [List.flatMap_cons, List.length_append] at hlen
    obtain ⟨m', hput, happ⟩ := h m x hm (by omega)
    have hind := happ.ind
    obtain ⟨m'', hput', happ'⟩ := ih m' (happ.room hm) (by omega)
    refine ⟨m'', ?_, happ.append happ'⟩
    rw [List.foldlM_cons, hput]
    exact hput'

/-- The length, then the elements one by one. -/
theorem putVector_puts {put : marshall → C → Option marshall} (h : Puts put enc)
    (hpos : ∀ x, 0 < (enc x).length) : Puts (putVector put) (encVector enc) := by
  intro m v hm hlen
  have hlt : v.length < 2 ^ 32 := by
    have hv := length_le_flatMap hpos v
    have h0 := hm.nonneg
    rw [encVector, List.length_append] at hlen
    omega
  obtain ⟨m', hput, happ⟩ := putUInt_puts.seq (foldlM_puts h)
    (fun v : List C => UInt32.ofNat v.length) (fun v => v) m v hm hlen
  refine ⟨m', ?_, happ⟩
  simpa only [putVector, if_pos hlt] using hput

theorem putMap_puts {putA : marshall → A → Option marshall} {putB : marshall → B → Option marshall}
    (hA : Puts putA encA) (hB : Puts putB encB) : Puts (putMap putA putB) (encMap encA encB) :=
  putUInt_puts.seq (foldlM_puts (hA.seq hB Prod.fst Prod.snd))
    (fun d : SortedMap A B => UInt32.ofNat d.entries.length) SortedMap.entries

/-- The loop reads a list of elements, and adds them in their order. -/
theorem readLoop_gets {δ : Type} {get : unmarshall → unmarshall × C} (h : Gets get enc)
    (add : δ → C → δ) {v : List C} {u : unmarshall} (d : δ) (hu : Holds u (v.flatMap enc)) :
    ∃ u', readLoop get add v.length u d = (u', v.foldl add d)
      ∧ Consumed u (v.flatMap enc).length u' := by
  induction v generalizing u d with
  | nil => exact ⟨u, rfl, .refl u⟩
  | cons x v ih =>
    rw [List.flatMap_cons] at hu
    obtain ⟨u', hget, hu'⟩ := h u x hu.left
    obtain ⟨u'', hloop, hu''⟩ := ih (add d x) (hu.right hu')
    refine ⟨u'', ?_, ?_⟩
    · simp only [List.length_cons, readLoop, hget, List.foldl_cons, hloop]
    · rw [List.flatMap_cons, List.length_append]
      exact hu'.trans hu''

/-- The count before the elements is not cut off. -/
theorem toNat_count (hpos : ∀ x, 0 < (enc x).length) {v : List C} {u : unmarshall}
    (hu : Holds u (v.flatMap enc)) : (UInt32.ofNat v.length).toNat = v.length := by
  have hle := length_le_flatMap hpos v
  have hfit := hu.le
  have h0 := hu.nonneg
  have hsmall := hu.small
  have hlt : v.length < 2 ^ 32 := by omega
  exact UInt32.toNat_ofNat_of_lt' hlt

theorem foldl_push (v w : List C) : w.foldl (fun v z => v ++ [z]) v = v ++ w := by
  induction w generalizing v with
  | nil => exact (List.append_nil v).symm
  | cons z w ih => rw [List.foldl_cons, ih, List.append_assoc, List.singleton_append]

theorem getVector_gets {get : unmarshall → unmarshall × C} (h : Gets get enc)
    (hpos : ∀ x, 0 < (enc x).length) : Gets (getVector get) (encVector enc) := by
  intro u v hu
  obtain ⟨u', hget, hu'⟩ := getUInt_gets u _ hu.left
  have hrest := hu.right hu'
  obtain ⟨u'', hloop, hu''⟩ := readLoop_gets h (fun v z => v ++ [z]) [] hrest
  refine ⟨u'', ?_, ?_⟩
  · simp only [getVector, hget, toNat_count hpos hrest, hloop]
    rw [foldl_push, List.nil_append]
  · rw [encVector, List.length_append]
    exact hu'.trans hu''

/-- Entries that are inserted in the order of their keys go one behind the other. -/
theorem foldl_insert (l : List (A × B)) (d : SortedMap A B)
    (h : SortedMap.KeysIncrease (d.entries ++ l)) :
    (l.foldl (fun d p => d.insert p.1 p.2) d).entries = d.entries ++ l := by
  induction l generalizing d with
  | nil => exact (List.append_nil _).symm
  | cons p l ih =>
    have hlast : (d.insert p.1 p.2).entries = d.entries ++ [p] := by
      refine SortedMap.insertEntry_of_lt _ fun q hq => ?_
      exact (List.pairwise_append.mp h).2.2 q hq p List.mem_cons_self
    rw [List.foldl_cons, ih, hlast, List.append_assoc, List.singleton_append]
    rwa [hlast, List.append_assoc, List.singleton_append]

/-- The pairs come back in the order they were written, and inserting them in that order
rebuilds the map. -/
theorem getMap_gets {getA : unmarshall → unmarshall × A} {getB : unmarshall → unmarshall × B}
    (hA : Gets getA encA) (hB : Gets getB encB) (hpos : ∀ x, 0 < (encA x).length) :
    Gets (getMap getA getB) (encMap encA encB) := by
  intro u d hu
  have hpair : Gets (getPair getA getB) fun p => encA p.1 ++ encB p.2 :=
    hA.seq hB (k := Prod.mk) Prod.fst Prod.snd fun _ => rfl
  have hpos' : ∀ p : A × B, 0 < (encA p.1 ++ encB p.2).length := by
    intro p
    have hp := hpos p.1
    rw [List.length_append]
    omega
  obtain ⟨u', hget, hu'⟩ := getUInt_gets u _ hu.left
  have hrest := hu.right hu'
  obtain ⟨u'', hloop, hu''⟩ := readLoop_gets hpair
    (fun (d : SortedMap A B) p => d.insert p.1 p.2) .empty hrest
  refine ⟨u'', ?_, ?_⟩
  · simp only [getMap, hget, toNat_count hpos' hrest, hloop]
    exact congrArg _ (SortedMap.ext (foldl_insert d.entries .empty d.increase))
  · rw [encMap, List.length_append]
    exact hu'.trans hu''

end Containers

/-! ### Structs -/

theorem putProp_puts : Puts putProp encProp := putUInt_puts.seq putString_puts prop_t.n prop_t.m

theorem putPreparearg_puts : Puts putPreparearg encPreparearg :=
  putUInt_puts.seq putProp_puts preparearg.instance_ preparearg.n

theorem putPrepareres_puts : Puts putPrepareres encPrepareres :=
  putBool_puts.seq (putBool_puts.seq (putProp_puts.seq putString_puts prepareres.n_a
    prepareres.v_a) prepareres.accept fun r => r) prepareres.oldinstance fun r => r

theorem putAcceptarg_puts : Puts putAcceptarg encAcceptarg :=
  putUInt_puts.seq (putProp_puts.seq putString_puts acceptarg.n acceptarg.v) acceptarg.instance_
    fun a => a

theorem putDecidearg_puts : Puts putDecidearg encDecidearg :=
  putUInt_puts.seq putString_puts decidearg.instance_ decidearg.v

theorem putAttr_puts : Puts putAttr encAttr :=
  putUInt_puts.seq (putUInt_puts.seq (putUInt_puts.seq putUInt_puts attr.ctime attr.size)
    attr.mtime fun a => a) attr.atime fun a => a

theorem putViewstamp_puts : Puts putViewstamp encViewstamp :=
  putUInt_puts.seq putUInt_puts viewstamp.vid viewstamp.seqno

theorem putTransferres_puts : Puts putTransferres encTransferres :=
  putString_puts.seq putViewstamp_puts transferres.state transferres.last

theorem getProp_gets : Gets getProp encProp :=
  getUInt_gets.seq (getString_gets []) (k := prop_t.mk) prop_t.n prop_t.m fun _ => rfl

theorem getPreparearg_gets : Gets getPreparearg encPreparearg :=
  getUInt_gets.seq getProp_gets (k := preparearg.mk) preparearg.instance_ preparearg.n fun _ => rfl

theorem getPrepareres_gets : Gets getPrepareres encPrepareres :=
  getBool_gets.seq (getBool_gets.seq (getProp_gets.seq (getString_gets []) (k := Prod.mk)
    Prod.fst Prod.snd fun _ => rfl) (k := Prod.mk) Prod.fst Prod.snd fun _ => rfl)
    (k := fun oldinstance r => prepareres.mk oldinstance r.1 r.2.1 r.2.2)
    prepareres.oldinstance (fun r => (r.accept, r.n_a, r.v_a)) fun _ => rfl

theorem getAcceptarg_gets : Gets getAcceptarg encAcceptarg :=
  getUInt_gets.seq (getProp_gets.seq (getString_gets []) (k := Prod.mk) Prod.fst Prod.snd
    fun _ => rfl) (k := fun inst a => acceptarg.mk inst a.1 a.2)
    acceptarg.instance_ (fun a => (a.n, a.v)) fun _ => rfl

theorem getDecidearg_gets : Gets getDecidearg encDecidearg :=
  getUInt_gets.seq (getString_gets []) (k := decidearg.mk) decidearg.instance_ decidearg.v
    fun _ => rfl

theorem getAttr_gets : Gets getAttr encAttr :=
  getUInt_gets.seq (getUInt_gets.seq (getUInt_gets.seq getUInt_gets (k := Prod.mk) Prod.fst
    Prod.snd fun _ => rfl) (k := Prod.mk) Prod.fst Prod.snd fun _ => rfl)
    (k := fun atime a => attr.mk atime a.1 a.2.1 a.2.2)
    attr.atime (fun a => (a.mtime, a.ctime, a.size)) fun _ => rfl

theorem getViewstamp_gets : Gets getViewstamp encViewstamp :=
  getUInt_gets.seq getUInt_gets (k := viewstamp.mk) viewstamp.vid viewstamp.seqno fun _ => rfl

theorem getTransferres_gets : Gets getTransferres encTransferres :=
  (getString_gets []).seq getViewstamp_gets (k := transferres.mk) transferres.state
    transferres.last fun _ => rfl

theorem getJoinres_gets : Gets getJoinres fun r => encString r.log := by
  intro u r hu
  obtain ⟨u', hget, hu'⟩ := getString_gets [] u r.log hu
  refine ⟨u', ?_, hu'⟩
  simp only [getJoinres, hget]

/-! ### Every type -/

/-- No value is written as nothing, so a container has no more elements than bytes. -/
theorem Ty.encode_pos {c : Bool} (t : Ty c) (x : t.Val) : 0 < (t.encode x).length := by
  cases t <;> exact Nat.succ_pos _

/-- Induction on the type, with the lemma of each instance of `operator<<` as its case. -/
theorem Ty.puts {c : Bool} (t : Ty c) : Puts t.put t.encode := by
  induction t with
  | bool => exact putBool_puts
  | char => exact putChar_puts
  | uchar => exact putUChar_puts
  | short => exact putShort_puts
  | ushort => exact putUShort_puts
  | int => exact putInt_puts
  | uint => exact putUInt_puts
  | ulonglong => exact putULongLong_puts
  | string => exact putString_puts
  | vector t ih => exact putVector_puts ih t.encode_pos
  | map k t ihk iht => exact @putMap_puts _ _ (k.sem.order rfl) _ _ _ _ ihk iht
  | prop_t => exact putProp_puts
  | preparearg => exact putPreparearg_puts
  | prepareres => exact putPrepareres_puts
  | acceptarg => exact putAcceptarg_puts
  | decidearg => exact putDecidearg_puts
  | attr => exact putAttr_puts
  | viewstamp => exact putViewstamp_puts
  | transferres => exact putTransferres_puts
  | joinres => exact putString_puts.comp joinres.log

/-- Induction on the type, with the lemma of each instance of `operator>>` as its case. -/
theorem Ty.gets {c : Bool} (t : Ty c) : Gets t.get t.encode := by
  induction t with
  | bool => exact getBool_gets
  | char => exact getChar_gets
  | uchar => exact getUChar_gets
  | short => exact getShort_gets
  | ushort => exact getUShort_gets
  | int => exact getInt_gets
  | uint => exact getUInt_gets
  | ulonglong => exact getULongLong_gets
  | string => exact getString_gets []
  | vector t ih => exact getVector_gets ih t.encode_pos
  | map k t ihk iht => exact @getMap_gets _ _ (k.sem.order rfl) _ _ _ _ ihk iht k.encode_pos
  | prop_t => exact getProp_gets
  | preparearg => exact getPreparearg_gets
  | prepareres => exact getPrepareres_gets
  | acceptarg => exact getAcceptarg_gets
  | decidearg => exact getDecidearg_gets
  | attr => exact getAttr_gets
  | viewstamp => exact getViewstamp_gets
  | transferres => exact getTransferres_gets
  | joinres => exact getJoinres_gets

end Yfs.WireTypes
