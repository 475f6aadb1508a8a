import QuickBeam.Lib.Assoc
import QuickBeam.Lib.GenServer
import QuickBeam.Lib.Transition
import Mathlib.Data.Finset.Basic
import Mathlib.Data.List.MinMax

/-!
# The module pool of the compiler (`compiler/pool.ex`)

The pool process owns a fixed list of module slots.  A slot is free, compiling a key for a list
of waiting callers, ready with a count of leases, or quarantined.  Five indexes are kept beside
the slots: the key index, the leases by token, the monitors, the compile tasks by reference, and
the drain in progress.

Each handler of the source is one definition over the explicit state `State`.  A `Map.fetch!` or
`Map.update!` that finds nothing crashes the process: the handlers return `none` there.

What the environment decides is explicit.  References (`make_ref`, monitors, task references and
the tags of calls) come from the counter `nextRef`.  The backend answers through `Backend`, whose
functions also take the number of backend calls made so far, so it may answer differently each
time.  Three fields record what has happened and are read by no handler: the `backendLog`, the
`replies` sent, and the callers `issued` and `withdrawn`.  Demonitoring and cancelled timers act
on the mailbox only; since every message may arrive at any time, they leave no trace here.
-/

namespace QuickBeam.Vm.Compiler.Pool

open QuickBeam.Lib

/-- A module atom of `Contract.pool_modules`, by its position there. -/
abbrev Module := ℕ

def poolModules : List Module := List.range 32

def maxCapacity : ℕ := poolModules.length

def maxSkipEntries : ℕ := maxCapacity * 8

def maxRegionAdmissions : ℕ := maxCapacity * 8

def regionAdmissionThreshold : ℕ := 3

/-! ### Data -/

structure Lease (κ : Type) where
  pool : Pid
  module : Module
  key : κ
  epoch : ℕ
  generation : ℕ
  token : Ref
  owner : Pid
deriving DecidableEq

structure LeaseRecord (κ : Type) where
  module : Module
  owner : Pid
  monitor : Ref
  lease : Lease κ
deriving DecidableEq

/-- A waiting caller; `origin` is the source's `from`. -/
structure Waiter where
  origin : From
  owner : Pid
  monitor : Ref
deriving DecidableEq

/-- What a backend function returned (or raised, as `safe_backend_call` catches it). -/
inductive BackendResult (ρ : Type) where
  | ok
  | error (reason : ρ)
  | other (result : ρ)

inductive Reason (ρ : Type) where
  | term (reason : ρ)
  | invalidBackendResult (result : ρ)
  | installFailed (reason : Reason ρ)
  | compileTimeout (milliseconds : ℕ)
  | compileTaskExit (reason : ρ)
  | compilerPoolStopping

inductive SlotStatus (κ ρ : Type) where
  | free
  | compiling (key : κ) (waiters : List Waiter) (taskRef : Ref)
  | ready (key : κ) (leaseCount : ℤ) (lastUsed : ℕ)
  | quarantined (reason : Reason ρ)

structure Slot (κ ρ : Type) where
  module : Module
  generation : ℕ
  status : SlotStatus κ ρ

inductive Monitored where
  | lease (token : Ref)
  | waiter (module : Module)
deriving DecidableEq

structure TaskRecord where
  module : Module
deriving DecidableEq

structure Admission where
  count : ℕ
  clock : ℕ

inductive Mode where
  | running
  | draining
  | drained
deriving DecidableEq

structure Drain where
  origin : From
  reference : Ref

inductive PoolError (ρ : Type) where
  | compilerPoolStopping
  | compilerPoolBusy
  | compilerCompileFailed (reason : Reason ρ)
  | compilerLeaseOwnerMismatch
  | staleCompilerLease
  | compilerPoolShutdownTimeout (leases : ℕ)
  | compilerSlotsQuarantined (slots : List (Module × Reason ρ))

inductive Reply (κ ρ : Type) where
  | ok
  | lease (lease : Lease κ)
  | skip
  | miss
  | hot
  | cold
  | error (reason : PoolError ρ)

/-- A call of the backend, with the number of leases that named the module at that moment. -/
inductive BackendCall where
  | retire (module : Module) (leases : ℕ)
  | install (module : Module) (leases : ℕ) (ok : Bool)
deriving DecidableEq

/-- The backend: its answers may depend on how many calls were made before. -/
structure Backend (α ρ : Type) where
  retire : ℕ → Module → BackendResult ρ
  install : ℕ → Module → α → BackendResult ρ

structure State (κ ρ : Type) where
  self : Pid
  compileTimeout : ℕ
  modules : List Module
  slots : Assoc Module (Slot κ ρ)
  keyIndex : Assoc κ Module
  skipIndex : Assoc κ ℕ
  regionAdmissions : Assoc κ Admission
  regionHot : Finset κ
  regionHotCapacity : ℕ
  leases : Assoc Ref (LeaseRecord κ)
  monitorIndex : Assoc Ref Monitored
  tasks : Assoc Ref TaskRecord
  epoch : ℕ
  clock : ℕ
  mode : Mode
  drain : Option Drain
  nextRef : Ref
  backendLog : List BackendCall
  replies : List (From × Reply κ ρ)
  issued : List From
  withdrawn : List From

/-- The result a compile task sends back. -/
inductive TaskResult (α ρ : Type) where
  | ok (artifact : α)
  | error (reason : Reason ρ)
  | other (result : ρ)

/-- The messages the pool receives.  Every `GenServer.call` carries its caller. -/
inductive Message (κ α ρ : Type) where
  | checkout (caller : Pid) (key : κ)
  | checkoutCached (caller : Pid) (key : κ)
  | rememberSkip (caller : Pid) (key : κ)
  | admitRegion (caller : Pid) (key : κ)
  | checkin (caller : Pid) (lease : Lease κ)
  | validateLease (caller : Pid) (lease : Lease κ)
  | drain (caller : Pid)
  | checkinActive (caller : Pid) (lease : Lease κ)
  | taskResult (reference : Ref) (result : TaskResult α ρ)
  | drainTimeout (reference : Ref)
  | compileTimeout (reference : Ref)
  | down (reference : Ref) (reason : ρ)

/-! ### Slots -/

namespace Slot

variable {κ ρ : Type}

def waiters (slot : Slot κ ρ) : List Waiter :=
  match slot.status with
  | .compiling _ ws _ => ws
  | _ => []

def key? (slot : Slot κ ρ) : Option κ :=
  match slot.status with
  | .compiling k _ _ => some k
  | .ready k _ _ => some k
  | _ => none

def leaseCount (slot : Slot κ ρ) : ℤ :=
  match slot.status with
  | .ready _ n _ => n
  | _ => 0

def taskRef? (slot : Slot κ ρ) : Option Ref :=
  match slot.status with
  | .compiling _ _ r => some r
  | _ => none

def isFree (slot : Slot κ ρ) : Bool :=
  match slot.status with
  | .free => true
  | _ => false

/-- A ready slot without leases: what `select_eviction` filters for. -/
def isIdle (slot : Slot κ ρ) : Bool :=
  match slot.status with
  | .ready _ n _ => n == 0
  | _ => false

def lastUsed (slot : Slot κ ρ) : ℕ :=
  match slot.status with
  | .ready _ _ u => u
  | _ => 0

/-- `Map.update!(slot, :lease_count, f)`: only a ready slot has the field. -/
def updateLeaseCount (f : ℤ → ℤ) (slot : Slot κ ρ) : Option (Slot κ ρ) :=
  match slot.status with
  | .ready k n u => some { slot with status := .ready k (f n) u }
  | _ => none

/-- `Map.update!(slot, :waiters, f)`: only a compiling slot has the field. -/
def updateWaiters (f : List Waiter → List Waiter) (slot : Slot κ ρ) : Option (Slot κ ρ) :=
  match slot.status with
  | .compiling k ws r => some { slot with status := .compiling k (f ws) r }
  | _ => none

/-- `Map.put(slot, :last_used, clock)`; the field is read on ready slots only. -/
def touch (clock : ℕ) (slot : Slot κ ρ) : Slot κ ρ :=
  match slot.status with
  | .ready k n _ => { slot with status := .ready k n clock }
  | _ => slot

end Slot

def freeSlot {κ ρ : Type} (module : Module) (generation : ℕ) : Slot κ ρ :=
  ⟨module, generation, .free⟩

/-- `backend_error/1` on a result that is not `:ok`; `none` stands for `:ok`. -/
def backendError {ρ : Type} : BackendResult ρ → Option (Reason ρ)
  | .ok => none
  | .error r => some (.term r)
  | .other r => some (.invalidBackendResult r)

section Handlers

variable {κ α ρ : Type} [LinearOrder κ] (backend : Backend α ρ)

/-! ### Small updates of the state -/

def tick (s : State κ ρ) : State κ ρ := { s with clock := s.clock + 1 }

def putSlot (s : State κ ρ) (slot : Slot κ ρ) : State κ ρ :=
  { s with slots := s.slots.put slot.module slot }

/-- `update_slot/3` with a function that may crash. -/
def updateSlot (s : State κ ρ) (module : Module) (f : Slot κ ρ → Option (Slot κ ρ)) :
    Option (State κ ρ) := do
  let slot ← s.slots.get? module
  let slot ← f slot
  return { s with slots := s.slots.put module slot }

def touchSlot (s : State κ ρ) (module : Module) : Option (State κ ρ) :=
  let s := tick s
  updateSlot s module fun slot => some (slot.touch s.clock)

def freshRef (s : State κ ρ) : Ref × State κ ρ := (s.nextRef, { s with nextRef := s.nextRef + 1 })

def reply (s : State κ ρ) (origin : From) (r : Reply κ ρ) : State κ ρ :=
  { s with replies := (origin, r) :: s.replies }

def leasesOn (leases : Assoc Ref (LeaseRecord κ)) (module : Module) : ℕ :=
  leases.sumBy fun _ r => if r.module = module then 1 else 0

def callRetire (s : State κ ρ) (module : Module) : BackendResult ρ × State κ ρ :=
  (backend.retire s.backendLog.length module,
    { s with backendLog := .retire module (leasesOn s.leases module) :: s.backendLog })

/-- `safe_backend_call(backend, :install, [module, artifact])`. -/
def callInstall (s : State κ ρ) (module : Module) (artifact : α) :
    BackendResult ρ × State κ ρ :=
  let result := backend.install s.backendLog.length module artifact
  let call := BackendCall.install module (leasesOn s.leases module) (backendError result).isNone
  (result, { s with backendLog := call :: s.backendLog })

/-! ### Leases and waiters -/

def issueLease (s : State κ ρ) (module : Module) (owner : Pid) :
    Option (Lease κ × State κ ρ) := do
  let slot ← s.slots.get? module
  let key ← slot.key?
  let (token, s) := freshRef s
  let (monitor, s) := freshRef s
  let lease : Lease κ :=
    { pool := s.self, module := module, key := key, epoch := s.epoch,
      generation := slot.generation, token := token, owner := owner }
  let record : LeaseRecord κ := ⟨module, owner, monitor, lease⟩
  let s := { s with
    leases := s.leases.put token record
    monitorIndex := s.monitorIndex.put monitor (.lease token) }
  let s ← updateSlot s module (Slot.updateLeaseCount (· + 1))
  let s ← touchSlot s module
  return (lease, s)

def fetchLease (s : State κ ρ) (lease : Lease κ) (caller : Pid) :
    Except (PoolError ρ) (LeaseRecord κ) :=
  if lease.pool = s.self ∧ lease.owner = caller then
    match s.leases.get? lease.token with
    | some record => if record.lease = lease then .ok record else .error .staleCompilerLease
    | none => .error .staleCompilerLease
  else if lease.owner ≠ caller then .error .compilerLeaseOwnerMismatch
  else .error .staleCompilerLease

/-- `release_lease/4`; demonitoring flushes the mailbox only. -/
def releaseLease (s : State κ ρ) (token : Ref) (record : LeaseRecord κ) :
    Option (State κ ρ) := do
  let s := { s with
    leases := s.leases.delete token
    monitorIndex := s.monitorIndex.delete record.monitor }
  let s ← updateSlot s record.module (Slot.updateLeaseCount (· - 1))
  touchSlot s record.module

def monitorWaiter (s : State κ ρ) (module : Module) (origin : From) : Waiter × State κ ρ :=
  let (monitor, s) := freshRef s
  (⟨origin, origin.owner, monitor⟩,
    { s with monitorIndex := s.monitorIndex.put monitor (.waiter module) })

def addWaiter (s : State κ ρ) (module : Module) (origin : From) : Option (State κ ρ) :=
  let (waiter, s) := monitorWaiter s module origin
  updateSlot s module (Slot.updateWaiters (waiter :: ·))

def demonitorWaiter (s : State κ ρ) (waiter : Waiter) : State κ ρ :=
  { s with monitorIndex := s.monitorIndex.delete waiter.monitor }

def releaseMonitoredOwner (s : State κ ρ) (reference : Ref) : Option (State κ ρ) := do
  match ← s.monitorIndex.get? reference with
  | .lease token =>
    let record ← s.leases.get? token
    releaseLease s token record
  | .waiter module =>
    let slot ← s.slots.get? module
    let gone := slot.waiters.filter fun w => w.monitor == reference
    let s := { s with
      monitorIndex := s.monitorIndex.delete reference
      withdrawn := gone.map Waiter.origin ++ s.withdrawn }
    updateSlot s module (Slot.updateWaiters (·.filter fun w => w.monitor != reference))

/-! ### Selecting and retiring slots -/

inductive Selection where
  | free (module : Module)
  | evict (module : Module)
  | busy

/-- `select_eviction/1`: the least recently used ready slot without leases. -/
def selectEviction (s : State κ ρ) : Selection :=
  match ((s.modules.filterMap s.slots.get?).filter Slot.isIdle).argmin Slot.lastUsed with
  | some slot => .evict slot.module
  | none => .busy

def selectSlot (s : State κ ρ) : Selection :=
  match s.modules.find? fun m => (s.slots.get? m).any Slot.isFree with
  | some m => .free m
  | none => selectEviction s

/-- `retire_slot/2`, on the slot it fetched: whether the slot became free, and the state. -/
def retireSlot (s : State κ ρ) (slot : Slot κ ρ) : Bool × State κ ρ :=
  let s := match slot.key? with
    | some key => { s with keyIndex := s.keyIndex.delete key }
    | none => s
  let (result, s) := callRetire backend s slot.module
  match backendError result with
  | none => (true, putSlot s (freeSlot slot.module slot.generation))
  | some reason => (false, putSlot s ⟨slot.module, slot.generation, .quarantined reason⟩)

/-- `start_compilation/5`.  The task's reference keys the task record and the timer. -/
def startCompilation (s : State κ ρ) (module : Module) (key : κ) (origin : From) :
    Option (State κ ρ) := do
  let s := { s with skipIndex := s.skipIndex.delete key }
  let (waiter, s) := monitorWaiter s module origin
  let (taskRef, s) := freshRef s
  let previous ← s.slots.get? module
  let s := putSlot s ⟨module, previous.generation, .compiling key [waiter] taskRef⟩
  return { s with
    keyIndex := s.keyIndex.put key module
    tasks := s.tasks.put taskRef ⟨module⟩ }

/-- `checkout_miss/4`.  Each failed eviction quarantines a slot, so one more round than there
are modules suffices (`checkoutMiss_spec`). -/
def checkoutMissLoop (key : κ) (origin : From) : ℕ → State κ ρ → Option (State κ ρ)
  | 0, _ => none
  | fuel + 1, s =>
    match selectSlot s with
    | .free module => startCompilation s module key origin
    | .evict module => do
      let slot ← s.slots.get? module
      let (retired, s) := retireSlot backend s slot
      if retired then startCompilation s module key origin
      else checkoutMissLoop key origin fuel s
    | .busy => some (reply s origin (.error .compilerPoolBusy))

def checkoutMiss (s : State κ ρ) (key : κ) (origin : From) : Option (State κ ρ) :=
  checkoutMissLoop backend key origin (s.modules.length + 1) s

/-! ### Compilation results -/

def compilationFailed (s : State κ ρ) (slot : Slot κ ρ) (reason : Reason ρ)
    (quarantine : Bool) : State κ ρ :=
  let s := slot.waiters.foldl
    (fun s w => reply s w.origin (.error (.compilerCompileFailed reason))) s
  let s := slot.waiters.foldl demonitorWaiter s
  let s := match slot.key? with
    | some key => { s with keyIndex := s.keyIndex.delete key }
    | none => s
  putSlot s (if quarantine then ⟨slot.module, slot.generation, .quarantined reason⟩
    else freeSlot slot.module slot.generation)

/-- The round of `compilation_ready/2` for one waiter. -/
def grantWaiter (module : Module) (s : State κ ρ) (w : Waiter) : Option (State κ ρ) := do
  let (lease, s) ← issueLease (demonitorWaiter s w) module w.origin.owner
  return reply s w.origin (.lease lease)

def compilationReady (s : State κ ρ) (slot : Slot κ ρ) : Option (State κ ρ) := do
  let key ← slot.key?
  let s := tick s
  let s := putSlot s ⟨slot.module, slot.generation + 1, .ready key 0 s.clock⟩
  slot.waiters.reverse.foldlM (grantWaiter slot.module) s

def finishCompilation (s : State κ ρ) (module : Module) (result : TaskResult α ρ) :
    Option (State κ ρ) := do
  let slot ← s.slots.get? module
  match result with
  | .ok artifact =>
    let (answer, s) := callInstall backend s module artifact
    match backendError answer with
    | none => compilationReady s slot
    | some reason => return compilationFailed s slot (.installFailed reason) true
  | .error reason => return compilationFailed s slot reason false
  | .other r => return compilationFailed s slot (.invalidBackendResult r) false

def dropTask (s : State κ ρ) (reference : Ref) : State κ ρ :=
  { s with tasks := s.tasks.delete reference }

/-- What `handle_info` does with the end of a task: drop it and finish its compilation. -/
def endTask (s : State κ ρ) (reference : Ref) (task : TaskRecord) (result : TaskResult α ρ) :
    Option (State κ ρ) :=
  finishCompilation backend (dropTask s reference) task.module result

def cancelCompilations (s : State κ ρ) : Option (State κ ρ) :=
  s.tasks.toList.foldlM
    (fun s entry => endTask backend s entry.1 entry.2 (.error .compilerPoolStopping)) s

/-! ### Draining -/

def retireReadySlot (slot : Slot κ ρ) (s : State κ ρ) (quarantined : List (Module × Reason ρ)) :
    State κ ρ × List (Module × Reason ρ) :=
  if slot.isIdle then
    let s := match slot.key? with
      | some key => { s with keyIndex := s.keyIndex.delete key }
      | none => s
    let (result, s) := callRetire backend s slot.module
    match backendError result with
    | none => (putSlot s (freeSlot slot.module slot.generation), quarantined)
    | some reason =>
      (putSlot s ⟨slot.module, slot.generation, .quarantined reason⟩,
        (slot.module, reason) :: quarantined)
  else (s, quarantined)

def retireReadySlots (s : State κ ρ) : Option (State κ ρ × List (Module × Reason ρ)) :=
  s.modules.foldlM (fun (acc : State κ ρ × List (Module × Reason ρ)) m => do
    let slot ← acc.1.slots.get? m
    return retireReadySlot backend slot acc.1 acc.2) (s, [])

def maybeCompleteDrain (s : State κ ρ) : Option (State κ ρ) :=
  if s.mode = .running then some s
  else if s.leases.size > 0 ∨ s.tasks.size > 0 then some s
  else do
    let (s, quarantined) ← retireReadySlots backend s
    let response : Reply κ ρ :=
      if quarantined.isEmpty then .ok else .error (.compilerSlotsQuarantined quarantined)
    match s.drain with
    | none => return { s with mode := .drained }
    | some drain => return { reply s drain.origin response with mode := .drained, drain := none }

/-! ### Negative decisions and region admissions -/

def putSkip (s : State κ ρ) (key : κ) : State κ ρ :=
  let s := tick s
  { s with skipIndex := s.skipIndex.put key s.clock }

/-- `trim_skips/1`: over the bound, the oldest decision goes. -/
def trimSkips (s : State κ ρ) : State κ ρ :=
  if s.skipIndex.size ≤ maxSkipEntries then s
  else match s.skipIndex.toList.argmin Prod.snd with
    | some (key, _) => { s with skipIndex := s.skipIndex.delete key }
    | none => s

/-- `trim_region_admissions/1`: over the bound, the least `{clock, key}` goes. -/
def trimRegionAdmissions (s : State κ ρ) : State κ ρ :=
  if s.regionAdmissions.size ≤ maxRegionAdmissions then s
  else match s.regionAdmissions.toList.argmin fun e => toLex (e.2.clock, e.1) with
    | some (key, _) => { s with regionAdmissions := s.regionAdmissions.delete key }
    | none => s

def admitHotRegion (s : State κ ρ) (key : κ) (count : ℕ) : Reply κ ρ × State κ ρ :=
  if key ∈ s.regionHot then (.hot, s)
  else if count < regionAdmissionThreshold then (.cold, s)
  else if s.regionHot.card < s.regionHotCapacity then
    (.hot, { s with regionHot := insert key s.regionHot })
  else (.cold, s)

/-! ### The message handlers -/

def checkoutIndexed (s : State κ ρ) (module : Module) (key : κ) (origin : From) :
    Option (State κ ρ) := do
  let slot ← s.slots.get? module
  let stale := checkoutMiss backend { s with keyIndex := s.keyIndex.delete key } key origin
  match slot.status with
  | .ready k _ _ =>
    if k = key then do
      let (lease, s) ← issueLease s module origin.owner
      return reply s origin (.lease lease)
    else stale
  | .compiling k _ _ => if k = key then addWaiter s module origin else stale
  | _ => stale

def checkoutCachedIndexed (s : State κ ρ) (module : Module) (key : κ) (origin : From) :
    Option (State κ ρ) := do
  let slot ← s.slots.get? module
  let stale := some (reply { s with keyIndex := s.keyIndex.delete key } origin .miss)
  match slot.status with
  | .ready k _ _ =>
    if k = key then do
      let (lease, s) ← issueLease s module origin.owner
      return reply s origin (.lease lease)
    else stale
  | .compiling k _ _ => if k = key then addWaiter s module origin else stale
  | _ => stale

/-- The clauses of `handle_call` that refuse new work once the pool is stopping. -/
def whenRunning (s : State κ ρ) (origin : From) (continue_ : Option (State κ ρ)) :
    Option (State κ ρ) :=
  if s.mode = .running then continue_
  else some (reply s origin (.error .compilerPoolStopping))

def handleCheckout (s : State κ ρ) (origin : From) (key : κ) : Option (State κ ρ) :=
  whenRunning s origin <|
    match s.keyIndex.get? key with
    | some module => checkoutIndexed backend s module key origin
    | none => checkoutMiss backend s key origin

def handleCheckoutCached (s : State κ ρ) (origin : From) (key : κ) : Option (State κ ρ) :=
  whenRunning s origin <|
    match s.keyIndex.get? key with
    | some module => checkoutCachedIndexed s module key origin
    | none =>
      if s.skipIndex.hasKey key then some (reply (putSkip s key) origin .skip)
      else some (reply s origin .miss)

def handleRememberSkip (s : State κ ρ) (origin : From) (key : κ) : Option (State κ ρ) :=
  whenRunning s origin <| some (reply (trimSkips (putSkip s key)) origin .ok)

def handleAdmitRegion (s : State κ ρ) (origin : From) (key : κ) : Option (State κ ρ) :=
  whenRunning s origin <|
    let s := tick s
    let current := (s.regionAdmissions.get? key).getD ⟨0, s.clock⟩
    let count := min (current.count + 1) regionAdmissionThreshold
    let s := trimRegionAdmissions
      { s with regionAdmissions := s.regionAdmissions.put key ⟨count, s.clock⟩ }
    let (answer, s) := admitHotRegion s key count
    some (reply s origin answer)

def handleCheckin (s : State κ ρ) (origin : From) (lease : Lease κ) : Option (State κ ρ) :=
  match fetchLease s lease origin.owner with
  | .ok record => do
    let s ← releaseLease s lease.token record
    maybeCompleteDrain backend (reply s origin .ok)
  | .error reason => some (reply s origin (.error reason))

def handleValidateLease (s : State κ ρ) (origin : From) (lease : Lease κ) : Option (State κ ρ) :=
  match fetchLease s lease origin.owner with
  | .ok _ => some (reply s origin .ok)
  | .error reason => some (reply s origin (.error reason))

def handleDrain (s : State κ ρ) (origin : From) : Option (State κ ρ) :=
  whenRunning s origin <| do
    let s ← cancelCompilations backend s
    let (reference, s) := freshRef s
    maybeCompleteDrain backend { s with mode := .draining, drain := some ⟨origin, reference⟩ }

def handleCheckinActive (s : State κ ρ) (caller : Pid) (lease : Lease κ) :
    Option (State κ ρ) :=
  match fetchLease s lease caller with
  | .ok record => do
    let s ← releaseLease s lease.token record
    maybeCompleteDrain backend s
  | .error _ => maybeCompleteDrain backend s

def handleTaskResult (s : State κ ρ) (reference : Ref) (result : TaskResult α ρ) :
    Option (State κ ρ) :=
  match s.tasks.get? reference with
  | some task => endTask backend s reference task result
  | none => some s

def handleDrainTimeout (s : State κ ρ) (reference : Ref) : State κ ρ :=
  match s.drain with
  | some drain =>
    if drain.reference = reference then
      { reply s drain.origin (.error (.compilerPoolShutdownTimeout s.leases.size)) with
        drain := none }
    else s
  | none => s

def handleCompileTimeout (s : State κ ρ) (reference : Ref) : Option (State κ ρ) :=
  handleTaskResult backend s reference (.error (.compileTimeout s.compileTimeout))

def handleDown (s : State κ ρ) (reference : Ref) (reason : ρ) : Option (State κ ρ) :=
  match s.tasks.get? reference with
  | some task => endTask backend s reference task (.error (.compileTaskExit reason))
  | none =>
    if s.monitorIndex.hasKey reference then do
      let s ← releaseMonitoredOwner s reference
      maybeCompleteDrain backend s
    else some s

def openCall (s : State κ ρ) (caller : Pid) : From × State κ ρ :=
  let (tag, s) := freshRef s
  (⟨caller, tag⟩, { s with issued := ⟨caller, tag⟩ :: s.issued })

def handle (s : State κ ρ) : Message κ α ρ → Option (State κ ρ)
  | .checkout caller key =>
    let (origin, s) := openCall s caller
    handleCheckout backend s origin key
  | .checkoutCached caller key =>
    let (origin, s) := openCall s caller
    handleCheckoutCached s origin key
  | .rememberSkip caller key =>
    let (origin, s) := openCall s caller
    handleRememberSkip s origin key
  | .admitRegion caller key =>
    let (origin, s) := openCall s caller
    handleAdmitRegion s origin key
  | .checkin caller lease =>
    let (origin, s) := openCall s caller
    handleCheckin backend s origin lease
  | .validateLease caller lease =>
    let (origin, s) := openCall s caller
    handleValidateLease s origin lease
  | .drain caller =>
    let (origin, s) := openCall s caller
    handleDrain backend s origin
  | .checkinActive caller lease => handleCheckinActive backend s caller lease
  | .taskResult reference result => handleTaskResult backend s reference result
  | .drainTimeout reference => some (handleDrainTimeout s reference)
  | .compileTimeout reference => handleCompileTimeout backend s reference
  | .down reference reason => handleDown backend s reference reason

/-! ### The initial state -/

def initializeSlot (s : State κ ρ) (module : Module) : State κ ρ :=
  let (result, s) := callRetire backend s module
  putSlot s ⟨module, 0, match backendError result with
    | none => .free
    | some reason => .quarantined reason⟩

/-- `init/1` with validated options: every module is initialised, the first `capacity` ones
are kept. -/
def init (self : Pid) (capacity compileTimeout epoch : ℕ) : State κ ρ :=
  let empty : State κ ρ :=
    { self, compileTimeout, epoch, modules := poolModules.take capacity, slots := ∅,
      keyIndex := ∅, skipIndex := ∅, regionAdmissions := ∅, regionHot := ∅,
      regionHotCapacity := max (capacity / 2) 1, leases := ∅, monitorIndex := ∅, tasks := ∅,
      clock := 0, mode := .running, drain := none, nextRef := 0, backendLog := [],
      replies := [], issued := [], withdrawn := [] }
  let all := poolModules.foldl (initializeSlot backend) empty
  { all with slots := (poolModules.drop capacity).foldl Assoc.delete all.slots }

def machine : Machine (State κ ρ) (Message κ α ρ) where
  init s := ∃ self capacity compileTimeout epoch,
    1 ≤ capacity ∧ capacity ≤ maxCapacity ∧ s = init backend self capacity compileTimeout epoch
  step s m := handle backend s m

end Handlers

end QuickBeam.Vm.Compiler.Pool
