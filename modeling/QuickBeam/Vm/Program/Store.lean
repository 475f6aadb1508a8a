import QuickBeam.Lib.Assoc
import QuickBeam.Lib.GenServer
import QuickBeam.Lib.Transition

/-!
# The pinned-program store (`program/store.ex`)

Pinned programs live in a fixed number of persistent-term slots.  A pinning process asks the
store for a reservation, writes the persistent term of the slot *itself*, and then asks the
store to commit; when the commit fails it erases the slot it wrote.  The store grants leases on
committed entries and erases a slot when an unpinned entry has no lease left.  When the store
process dies its table is lost, and the next one restores it from the slots.

The model has one store (one registered name, so one family of slots) and any number of client
processes.  A client is a state machine whose steps are the reads, writes and calls of the
source in their order: the check and the erasure of `erase_if_owned` are two steps, and so are
every write and the call after it.  A call carries the incarnation of the store it was sent to;
it is served by that incarnation or fails.

References (tokens, lease ids and monitors) come from the counter `nextRef`.  The field `live`
records the leases out: it is read by no operation.
-/

set_option linter.dupNamespace false

namespace QuickBeam.Vm.Program.Store

open QuickBeam.Lib

/-! ### Programs -/

abbrev SlotId := ℕ

/-- What the store reads of a `%Program{}`. -/
structure Program (κ γ : Type) where
  pinKey : Option κ
  bytecodeSize : Option ℕ
  body : γ
deriving DecidableEq

/-- `:erlang.external_size/1` (`none` when it raises), `Verifier.verify_identity/1`, and the
options of the store. -/
structure Env (κ γ : Type) where
  externalSize : Program κ γ → Option ℕ
  verifyIdentity : Program κ γ → Bool
  capacity : ℕ

def maximumCapacity : ℕ := 32

def maximumPinnedBytecodeBytes : ℕ := 2 * 1024 * 1024

def maximumProgramResidencyBytes : ℕ := 32 * 1024 * 1024

def maximumTotalResidencyBytes : ℕ := 128 * 1024 * 1024

/-! ### State -/

structure Lease (κ : Type) where
  id : Ref
  key : κ
  slot : SlotId
  token : Ref
deriving DecidableEq

structure Term (κ γ : Type) where
  key : κ
  token : Ref
  program : Program κ γ
deriving DecidableEq

structure Entry where
  slot : SlotId
  token : Ref
  leases : Assoc Ref Ref
  unpin : Bool
  residencyBytes : ℕ

structure Pending where
  slot : SlotId
  token : Ref
  owner : Pid
  monitor : Ref
  waiters : List Pid
  residencyBytes : ℕ

/-- The state of the store process. -/
structure Table (κ : Type) where
  entries : Assoc κ Entry
  slots : Assoc SlotId κ
  pending : Assoc κ Pending
  residencyBytes : ℕ

/-- A pin in progress: its program and the reservation it was given. -/
structure Install (κ γ : Type) where
  program : Program κ γ
  key : κ
  token : Ref
  slot : SlotId
deriving DecidableEq

inductive Request (κ γ : Type) where
  | reserve (program : Program κ γ) (key : κ) (residencyBytes : ℕ)
  | commit (install : Install κ γ)
  | cancel (install : Install κ γ)
  | recover (install : Install κ γ)
  | checkout (key : κ)
  | unpin (key : κ)
deriving DecidableEq

/-- What the last call of a client returned. -/
inductive Result (κ : Type) where
  | none
  | pinned (key : κ)
  | leased (lease : Lease κ)
  | ok
  | unavailable
  | retiring
  | programTooLarge
  | residencyBudget
  | notPinned
deriving DecidableEq

inductive Client (κ γ : Type) where
  /-- Between two calls of the store's functions. -/
  | returned (result : Result κ)
  /-- About to call the store. -/
  | ready (request : Request κ γ)
  /-- Waiting for incarnation `sentTo` to serve its call. -/
  | calling (request : Request κ γ) (sentTo : ℕ)
  /-- Served with `:noreply`: a waiter of a pending installation. -/
  | queued (sentTo : ℕ)
  /-- Given a reservation, about to write the slot. -/
  | reserved (install : Install κ γ)
  /-- Given a lease by `reserve_and_install`, about to check it in. -/
  | installed (lease : Lease κ)
  /-- In `erase_if_owned`, about to read the slot. -/
  | checking (install : Install κ γ)
  /-- In `erase_if_owned`, found its own term, about to erase the slot. -/
  | erasing (install : Install κ γ)
  /-- Dead, with its last call still under way to incarnation `sentTo`. -/
  | dying (request : Request κ γ) (sentTo : ℕ)
  | dead
deriving DecidableEq

/-- A lease out: whom and by which incarnation it was granted, and the program in its slot at
that moment. -/
structure LiveLease (κ γ : Type) where
  lease : Lease κ
  owner : Pid
  incarnation : ℕ
  program : Option (Program κ γ)

structure State (κ γ : Type) where
  terms : Assoc SlotId (Term κ γ)
  store : Option (Table κ)
  incarnation : ℕ
  clients : Pid → Client κ γ
  monitors : Assoc Ref Pid
  inbox : List (Lease κ)
  live : Assoc Ref (LiveLease κ γ)
  nextRef : Ref

inductive Event (κ γ : Type) where
  /-- A client starts an operation. -/
  | pin (client : Pid) (program : Program κ γ)
  | checkout (client : Pid) (key : κ)
  | unpin (client : Pid) (key : κ)
  | checkin (client : Pid) (lease : Lease κ)
  /-- A client sends the call it is ready for; its call is served, or fails. -/
  | call (client : Pid)
  | serve (client : Pid)
  | fail (client : Pid)
  /-- A client writes its slot (the write may raise), checks in the lease of its own pin, reads
  its slot, or erases it. -/
  | persist (client : Pid) (ok : Bool)
  | finish (client : Pid)
  | check (client : Pid)
  | erase (client : Pid)
  | die (client : Pid)
  /-- The store handles a check-in or a monitor; it dies; it starts. -/
  | deliver (lease : Lease κ)
  | down (monitor : Ref)
  | storeDies
  | storeStarts

section Operations

variable {κ γ : Type} [DecidableEq κ] [DecidableEq γ] (env : Env κ γ)

/-! ### Small updates -/

def State.setClient (s : State κ γ) (p : Pid) (c : Client κ γ) : State κ γ :=
  { s with clients := Function.update s.clients p c }

def State.setStore (s : State κ γ) (st : Table κ) : State κ γ := { s with store := some st }

def Client.isDead : Client κ γ → Bool
  | .dying _ _ => true
  | .dead => true
  | _ => false

/-- A reply: nothing reaches a dead process. -/
def State.answer (s : State κ γ) (p : Pid) (c : Client κ γ) : State κ γ :=
  if (s.clients p).isDead then s else s.setClient p c

def State.monitor (s : State κ γ) (p : Pid) : Ref × State κ γ :=
  (s.nextRef, { s with monitors := s.monitors.put s.nextRef p, nextRef := s.nextRef + 1 })

def State.demonitor (s : State κ γ) (m : Ref) : State κ γ :=
  { s with monitors := s.monitors.delete m }

def fetch (s : State κ γ) (lease : Lease κ) : Option (Program κ γ) :=
  match s.terms.get? lease.slot with
  | some t => if t.key = lease.key ∧ t.token = lease.token then some t.program else none
  | none => none

def persisted (s : State κ γ) (slot : SlotId) (key : κ) (token : Ref) : Bool :=
  match s.terms.get? slot with
  | some t => t.key = key ∧ t.token = token
  | none => false

def eraseSlot (s : State κ γ) (slot : SlotId) : State κ γ :=
  { s with terms := s.terms.delete slot }

/-- `grant_lease/4`.  A dead process takes no lease out; the store learns of its death by the
monitor. -/
def grantLease (s : State κ γ) (key : κ) (entry : Entry) (owner : Pid) :
    Lease κ × Entry × State κ γ :=
  let lease : Lease κ := ⟨s.nextRef, key, entry.slot, entry.token⟩
  let (monitor, s) := { s with nextRef := s.nextRef + 1 }.monitor owner
  let record : LiveLease κ γ :=
    ⟨lease, owner, s.incarnation, (s.terms.get? entry.slot).map Term.program⟩
  let live := if (s.clients owner).isDead then s.live else s.live.put lease.id record
  (lease, { entry with leases := entry.leases.put lease.id monitor }, { s with live := live })

/-- `remove_entry/3` after `Map.fetch!`. -/
def removeEntry (st : Table κ) (key : κ) (entry : Entry) : Table κ :=
  { st with
    entries := st.entries.delete key
    slots := st.slots.delete entry.slot
    residencyBytes := st.residencyBytes - entry.residencyBytes }

def maybeReleaseEntry (s : State κ γ) (st : Table κ) (key : κ) (entry : Entry) : State κ γ :=
  if entry.leases.size = 0 ∧ entry.unpin then
    (eraseSlot s entry.slot).setStore
      (removeEntry { st with entries := st.entries.put key entry } key entry)
  else s.setStore { st with entries := st.entries.put key entry }

/-! ### Reserving -/

/-- `free_slot/1`: the first slot that neither an entry nor a reservation has. -/
def freeSlot (st : Table κ) : Option SlotId :=
  (List.range env.capacity).find? fun slot =>
    !st.slots.hasKey slot && !(st.pending.toList.any fun e => e.2.slot == slot)

def pendingBytes (st : Table κ) : ℕ := st.pending.sumBy fun _ p => p.residencyBytes

def residencyAvailable (st : Table κ) (residencyBytes : ℕ) : Bool :=
  st.residencyBytes + pendingBytes st + residencyBytes ≤ maximumTotalResidencyBytes

def reserveMissing (s : State κ γ) (st : Table κ) (p : Pid) (program : Program κ γ) (key : κ)
    (residencyBytes : ℕ) : State κ γ :=
  match st.pending.get? key with
  | some pending =>
    let pending := { pending with waiters := p :: pending.waiters }
    (s.setStore { st with pending := st.pending.put key pending }).answer p
      (.queued s.incarnation)
  | none =>
    match freeSlot env st with
    | none => s.answer p (.returned .unavailable)
    | some slot =>
      if residencyAvailable st residencyBytes then
        let token := s.nextRef
        let (monitor, s) := { s with nextRef := s.nextRef + 1 }.monitor p
        let pending : Pending := ⟨slot, token, p, monitor, [], residencyBytes⟩
        (s.setStore { st with pending := st.pending.put key pending }).answer p
          (.reserved ⟨program, key, token, slot⟩)
      else s.answer p (.returned .residencyBudget)

def handleReserve (s : State κ γ) (st : Table κ) (p : Pid) (program : Program κ γ) (key : κ)
    (residencyBytes : ℕ) : State κ γ :=
  match st.entries.get? key with
  | some entry =>
    if entry.unpin then s.answer p (.returned .retiring)
    else
      let (lease, entry, s) := grantLease s key entry p
      (s.setStore { st with entries := st.entries.put key entry }).answer p
        (.installed lease)
  | none => reserveMissing env s st p program key residencyBytes

/-! ### Committing and cancelling -/

/-- The waiters of a cancelled or abandoned installation get `:unavailable`. -/
def refuseWaiters (s : State κ γ) (waiters : List Pid) : State κ γ :=
  waiters.foldl (fun s w => s.answer w (.returned .unavailable)) s

def cancelInstall (s : State κ γ) (st : Table κ) (p : Pid) (install : Install κ γ)
    (pending : Pending) : State κ γ :=
  let s := eraseSlot (s.demonitor pending.monitor) pending.slot
  let s := refuseWaiters s pending.waiters
  (s.setStore { st with pending := st.pending.delete install.key }).answer p
    (.ready (.recover install))

/-- The round of `complete_install/5` for one waiter. -/
def grantWaiter (key : κ) (acc : Entry × State κ γ) (w : Pid) : Entry × State κ γ :=
  let (lease, entry, s) := grantLease acc.2 key acc.1 w
  (entry, s.answer w (.installed lease))

def completeInstall (s : State κ γ) (st : Table κ) (p : Pid) (install : Install κ γ)
    (pending : Pending) : State κ γ :=
  let s := s.demonitor pending.monitor
  let entry : Entry := ⟨pending.slot, install.token, ∅, false, pending.residencyBytes⟩
  let (lease, entry, s) := grantLease s install.key entry p
  let (entry, s) := pending.waiters.foldl (grantWaiter install.key) (entry, s)
  (s.setStore
    { entries := st.entries.put install.key entry
      slots := st.slots.put pending.slot install.key
      pending := st.pending.delete install.key
      residencyBytes := st.residencyBytes + pending.residencyBytes }).answer p
    (.installed lease)

/-- The pending installation that a `commit` or `cancel` of `p` names. -/
def ownPending (st : Table κ) (p : Pid) (install : Install κ γ) : Option Pending :=
  (st.pending.get? install.key).filter fun pending =>
    pending.owner = p ∧ pending.token = install.token

def handleCommit (s : State κ γ) (st : Table κ) (p : Pid) (install : Install κ γ) : State κ γ :=
  match ownPending st p install with
  | some pending =>
    if persisted s pending.slot install.key install.token then
      completeInstall s st p install pending
    else cancelInstall s st p install pending
  | none => s.answer p (.ready (.recover install))

def handleCancel (s : State κ γ) (st : Table κ) (p : Pid) (install : Install κ γ) : State κ γ :=
  match ownPending st p install with
  | some pending => cancelInstall s st p install pending
  | none => s.answer p (.ready (.recover install))

/-! ### Checking out, unpinning, checking in -/

/-- `handle_call({:checkout_existing, …})`, answered by `leased` or by `refused`. -/
def handleCheckoutExisting (s : State κ γ) (st : Table κ) (p : Pid) (key : κ)
    (leased : Lease κ → Client κ γ) (refused : Client κ γ) : State κ γ :=
  match st.entries.get? key with
  | some entry =>
    if entry.unpin then s.answer p refused
    else
      let (lease, entry, s) := grantLease s key entry p
      (s.setStore { st with entries := st.entries.put key entry }).answer p (leased lease)
  | none => s.answer p refused

def handleUnpin (s : State κ γ) (st : Table κ) (p : Pid) (key : κ) : State κ γ :=
  match st.entries.get? key with
  | some entry =>
    if entry.leases.size = 0 then
      ((eraseSlot s entry.slot).setStore (removeEntry st key entry)).answer p (.returned .ok)
    else
      (s.setStore { st with entries := st.entries.put key { entry with unpin := true } }).answer
        p (.returned .ok)
  | none => s.answer p (.returned .notPinned)

def handleCheckin (s : State κ γ) (st : Table κ) (lease : Lease κ) : State κ γ :=
  match st.entries.get? lease.key with
  | some entry =>
    match entry.leases.get? lease.id with
    | some monitor =>
      if entry.slot = lease.slot ∧ entry.token = lease.token then
        maybeReleaseEntry (s.demonitor monitor) st lease.key
          { entry with leases := entry.leases.delete lease.id }
      else s
    | none => s
  | none => s

/-- `owner_lease/2`: the entry and the lease a monitor stands for. -/
def ownerLease (st : Table κ) (monitor : Ref) : Option (κ × Ref × Entry) :=
  st.entries.toList.findSome? fun (key, entry) =>
    (entry.leases.toList.find? fun l => l.2 == monitor).map fun l => (key, l.1, entry)

def handleDown (s : State κ γ) (st : Table κ) (monitor : Ref) (owner : Pid) : State κ γ :=
  match st.pending.toList.find? fun e => e.2.monitor == monitor && e.2.owner == owner with
  | some (key, pending) =>
    (refuseWaiters (eraseSlot s pending.slot) pending.waiters).setStore
      { st with pending := st.pending.delete key }
  | none =>
    match ownerLease st monitor with
    | some (key, id, entry) =>
      maybeReleaseEntry s st key { entry with leases := entry.leases.delete id }
    | none => s

/-! ### Restoring -/

/-- The residency of a program that a slot may be restored with: its identity verifies, and it
has a size within the bound of one program. -/
def restorableBytes (program : Program κ γ) : Option ℕ :=
  if env.verifyIdentity program then
    (env.externalSize program).filter fun bytes => bytes ≤ maximumProgramResidencyBytes
  else none

/-- `restore_program_slot/8` and `restore_slots/2` at one slot.  A term of the model is always
a `{key, token, program}`. -/
def restoreSlot (acc : Table κ × Assoc SlotId (Term κ γ)) (slot : SlotId) :
    Table κ × Assoc SlotId (Term κ γ) :=
  let (st, terms) := acc
  match terms.get? slot with
  | none => (st, terms)
  | some t =>
    let fits := (restorableBytes env t.program).filter fun bytes =>
      st.residencyBytes + bytes ≤ maximumTotalResidencyBytes
    match fits with
    | some bytes =>
      ({ st with
          entries := st.entries.put t.key ⟨slot, t.token, ∅, false, bytes⟩
          slots := st.slots.put slot t.key
          residencyBytes := st.residencyBytes + bytes }, terms)
    | none => (st, terms.delete slot)

def restoreSlots (terms : Assoc SlotId (Term κ γ)) : Table κ × Assoc SlotId (Term κ γ) :=
  (List.range env.capacity).foldl (restoreSlot env) (⟨∅, ∅, ∅, 0⟩, terms)

/-! ### Steps -/

/-- `pin/1` up to its call of the store. -/
def pin (program : Program κ γ) : Client κ γ :=
  match program.pinKey, program.bytecodeSize with
  | some key, some size =>
    if size ≤ maximumPinnedBytecodeBytes then
      match env.externalSize program with
      | some bytes =>
        if bytes ≤ maximumProgramResidencyBytes then .ready (.reserve program key bytes)
        else .returned .programTooLarge
      | none => .returned .programTooLarge
    else .returned .programTooLarge
  | none, some size =>
    if maximumPinnedBytecodeBytes < size then .returned .programTooLarge
    else .returned .unavailable
  | _, none => .returned .unavailable

/-- What a client does when its call fails (`safe_store_call` answers `:unavailable`). -/
def Request.failed : Request κ γ → Client κ γ
  | .reserve _ _ _ => .returned .unavailable
  | .commit install => .ready (.recover install)
  | .cancel install => .ready (.recover install)
  | .recover install => .checking install
  | .checkout _ => .returned .unavailable
  | .unpin _ => .returned .notPinned

/-- The store serves the call of `p`. -/
def serve (s : State κ γ) (st : Table κ) (p : Pid) : Request κ γ → State κ γ
  | .reserve program key bytes => handleReserve env s st p program key bytes
  | .commit install => handleCommit s st p install
  | .cancel install => handleCancel s st p install
  | .recover install =>
    handleCheckoutExisting s st p install.key .installed (.checking install)
  | .checkout key =>
    handleCheckoutExisting s st p key (fun lease => .returned (.leased lease))
      (.returned .unavailable)
  | .unpin key => handleUnpin s st p key

/-- `checkin/2`: the lease is no longer out, and a running store gets a message. -/
def sendCheckin (s : State κ γ) (lease : Lease κ) : State κ γ :=
  { s with
    live := s.live.delete lease.id
    inbox := if s.store.isSome then lease :: s.inbox else s.inbox }

def gone (s : State κ γ) (sentTo : ℕ) : Bool := s.store.isNone || s.incarnation != sentTo

def Client.isReturned : Client κ γ → Bool
  | .returned _ => true
  | _ => false

/-- What a process leaves behind when it dies: a call it has sent stays under way. -/
def Client.killed : Client κ γ → Client κ γ
  | .calling request sentTo => .dying request sentTo
  | _ => .dead

def liveWithout (s : State κ γ) (p : Pid) : Assoc Ref (LiveLease κ γ) :=
  (s.live.toList.filter fun e => e.2.owner == p).foldl (fun live e => live.delete e.1) s.live

/-- A process dies: its leases end with it. -/
def killClient (s : State κ γ) (p : Pid) : State κ γ :=
  { s with live := liveWithout s p }.setClient p (s.clients p).killed

def step (s : State κ γ) : Event κ γ → Option (State κ γ)
  | .pin p program =>
    if (s.clients p).isReturned then some (s.setClient p (pin env program)) else none
  | .checkout p key =>
    if (s.clients p).isReturned then some (s.setClient p (.ready (.checkout key))) else none
  | .unpin p key =>
    if (s.clients p).isReturned then some (s.setClient p (.ready (.unpin key))) else none
  | .checkin p lease =>
    -- a reference that does not exist yet cannot be in a lease
    if (s.clients p).isReturned ∧ lease.id < s.nextRef then
      some ((sendCheckin s lease).setClient p (.returned .ok))
    else none
  | .call p =>
    match s.clients p with
    | .ready request => some (s.setClient p (.calling request s.incarnation))
    | _ => none
  | .serve p =>
    match s.clients p, s.store with
    | .calling request sentTo, some st =>
      if s.incarnation = sentTo then some (serve env s st p request) else none
    | .dying request sentTo, some st =>
      if s.incarnation = sentTo then some (serve env (s.setClient p .dead) st p request) else none
    | _, _ => none
  | .fail p =>
    match s.clients p with
    | .calling request sentTo =>
      if gone s sentTo then some (s.setClient p request.failed) else none
    | .queued sentTo =>
      if gone s sentTo then some (s.setClient p (.returned .unavailable)) else none
    | .dying _ sentTo => if gone s sentTo then some (s.setClient p .dead) else none
    | _ => none
  | .persist p ok =>
    match s.clients p with
    | .reserved i =>
      if ok then
        some ({ s with terms := s.terms.put i.slot ⟨i.key, i.token, i.program⟩ }.setClient p
          (.ready (.commit i)))
      else some (s.setClient p (.ready (.cancel i)))
    | _ => none
  | .finish p =>
    match s.clients p with
    | .installed lease => some ((sendCheckin s lease).setClient p (.returned (.pinned lease.key)))
    | _ => none
  | .check p =>
    match s.clients p with
    | .checking i =>
      some (s.setClient p (if persisted s i.slot i.key i.token then .erasing i
        else .returned .unavailable))
    | _ => none
  | .erase p =>
    match s.clients p with
    | .erasing i => some ((eraseSlot s i.slot).setClient p (.returned .unavailable))
    | _ => none
  | .die p => if (s.clients p).isDead then none else some (killClient s p)
  | .deliver lease =>
    match s.store with
    | some st =>
      if lease ∈ s.inbox then
        some (handleCheckin { s with inbox := s.inbox.erase lease } st lease)
      else none
    | none => none
  | .down monitor =>
    match s.store, s.monitors.get? monitor with
    | some st, some owner =>
      if s.clients owner = .dead then some (handleDown (s.demonitor monitor) st monitor owner)
      else none
    | _, _ => none
  | .storeDies =>
    match s.store with
    | some _ => some { s with store := none, monitors := ∅, inbox := [] }
    | none => none
  | .storeStarts =>
    match s.store with
    | some _ => none
    | none =>
      let (st, terms) := restoreSlots env s.terms
      some { s with store := some st, terms := terms, incarnation := s.incarnation + 1 }

/-- Nothing pinned, no store yet, every process between two calls. -/
def initial : State κ γ :=
  { terms := ∅, store := none, incarnation := 0, clients := fun _ => .returned .none,
    monitors := ∅, inbox := [], live := ∅, nextRef := 0 }

def machine : Machine (State κ γ) (Event κ γ) where
  init s := 1 ≤ env.capacity ∧ env.capacity ≤ maximumCapacity ∧ s = initial
  step s e := step env s e

end Operations

end QuickBeam.Vm.Program.Store
