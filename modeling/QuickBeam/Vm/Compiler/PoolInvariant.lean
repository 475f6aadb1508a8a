import QuickBeam.Vm.Compiler.Pool

/-!
# The invariant of the module pool

`Coherent` says how the five indexes of the pool agree with its slots, which references are in
use, what the backend was asked, and where every caller is in its life.  It is stated for the
states between two messages and for those inside a handler: `loose` lists the waiters already
taken out of their slot and not yet answered, `pending` the callers of the message at hand.

Every operation has a closed form (`_eq`) that says once what it does to the state, and a lemma
(`_coherent`) that it keeps `Coherent`; the handlers are chains of these.
-/

set_option linter.unusedSectionVars false

namespace QuickBeam.Vm.Compiler.Pool

open QuickBeam.Lib

section Invariant

variable {κ α ρ : Type} [LinearOrder κ]

/-! ### What the invariant speaks about -/

def Slot.readyKey? (slot : Slot κ ρ) : Option κ :=
  match slot.status with
  | .ready k _ _ => some k
  | _ => none

/-- The number of successful installations of `module` in a log. -/
def installs (module : Module) (log : List BackendCall) : ℕ :=
  log.countP fun c => match c with
    | .install m _ ok => m == module && ok
    | .retire _ _ => false

/-- The number of leases a logged call found on its module. -/
def BackendCall.leases : BackendCall → ℕ
  | .retire _ n => n
  | .install _ n _ => n

/-- `w` waits for `module`: in its slot, or taken out of it and not yet answered. -/
def Waits (slots : Assoc Module (Slot κ ρ)) (loose : List (Module × Waiter)) (module : Module)
    (w : Waiter) : Prop :=
  (∃ slot, slots.get? module = some slot ∧ w ∈ slot.waiters) ∨ (module, w) ∈ loose

/-- How often the caller `f` waits in a slot. -/
def waitingCount (slots : Assoc Module (Slot κ ρ)) (f : From) : ℕ :=
  slots.sumBy fun _ slot => (slot.waiters.map Waiter.origin).count f

/-- How often the caller `f` is in one of the places a call can be. -/
def calls (s : State κ ρ) (loose : List (Module × Waiter)) (pending : List From) (f : From) : ℕ :=
  (s.replies.map Prod.fst).count f + waitingCount s.slots f +
    (loose.map fun e => e.2.origin).count f + s.withdrawn.count f +
    (s.drain.toList.map Drain.origin).count f + pending.count f

structure LeaseLive (s : State κ ρ) (token : Ref) (record : LeaseRecord κ) : Prop where
  lease : record.lease.pool = s.self ∧ record.lease.module = record.module ∧
    record.lease.token = token ∧ record.lease.owner = record.owner
  slot : ∃ slot, s.slots.get? record.module = some slot ∧
    slot.readyKey? = some record.lease.key ∧ slot.generation = record.lease.generation

structure SlotsIndexed (s : State κ ρ) : Prop where
  slot_module : ∀ m slot, s.slots.get? m = some slot → slot.module = m
  slot_iff : ∀ m, m ∈ s.modules ↔ ∃ slot, s.slots.get? m = some slot
  key_index : ∀ k m, s.keyIndex.get? k = some m ↔
    ∃ slot, s.slots.get? m = some slot ∧ slot.key? = some k
  task_index : ∀ r m, s.tasks.get? r = some ⟨m⟩ ↔
    ∃ slot, s.slots.get? m = some slot ∧ slot.taskRef? = some r
  generation : ∀ m slot, s.slots.get? m = some slot → slot.generation = installs m s.backendLog

/-- The pool invariant, inside a handler that started in `s₀`. -/
structure Coherent (s₀ s : State κ ρ) (loose : List (Module × Waiter)) (pending : List From) :
    Prop extends SlotsIndexed s where
  lease_count : ∀ m slot, s.slots.get? m = some slot → slot.leaseCount = leasesOn s.leases m
  lease_live : ∀ t r, s.leases.get? t = some r → LeaseLive s t r
  monitor_lease : ∀ r t, s.monitorIndex.get? r = some (.lease t) ↔
    ∃ record, s.leases.get? t = some record ∧ record.monitor = r
  monitor_waiter : ∀ r m, s.monitorIndex.get? r = some (.waiter m) ↔
    ∃ w, Waits s.slots loose m w ∧ w.monitor = r
  waiter_nodup : ∀ m slot, s.slots.get? m = some slot → (slot.waiters.map Waiter.monitor).Nodup
  loose_nodup : (loose.map fun e => e.2.monitor).Nodup
  loose_slot : ∀ e ∈ loose, ∃ slot, s.slots.get? e.1 = some slot ∧ slot.waiters = []
  fresh_lease : ∀ t r, s.leases.get? t = some r → t < s.nextRef
  fresh_monitor : ∀ r e, s.monitorIndex.get? r = some e → r < s.nextRef
  fresh_task : ∀ r e, s.tasks.get? r = some e → r < s.nextRef
  fresh_issued : ∀ f ∈ s.issued, f.tag < s.nextRef
  unleased : ∀ c ∈ s.backendLog, c.leases = 0
  history : s₀.backendLog <:+ s.backendLog
  withdrawn_same : s.withdrawn = s₀.withdrawn
  issued_nodup : s.issued.Nodup
  no_drain : s.mode = .running → s.drain = none
  ledger : ∀ f, s.issued.count f = calls s loose pending f

variable {s₀ s : State κ ρ} {loose : List (Module × Waiter)} {pending : List From}

/-! ### Observations of a slot -/

variable {k : κ} {slot : Slot κ ρ}

theorem Slot.status_of_readyKey? (h : slot.readyKey? = some k) :
    ∃ n u, slot.status = .ready k n u := by
  cases hs : slot.status with
  | ready k' n u =>
    rw [Slot.readyKey?, hs] at h
    cases h
    exact ⟨n, u, rfl⟩
  | free => rw [Slot.readyKey?, hs] at h; cases h
  | compiling => rw [Slot.readyKey?, hs] at h; cases h
  | quarantined => rw [Slot.readyKey?, hs] at h; cases h

theorem count_cons_origin (origin : From) (l : List From) (f : From) :
    (origin :: l).count f = [origin].count f + l.count f := by
  show ([origin] ++ l).count f = _
  rw [List.count_append]

/-! ### Exchanging a slot for a similar one -/

/-- Two versions of a slot that differ in counts, last use and waiters only. -/
structure Slot.Similar (a b : Slot κ ρ) : Prop where
  module : a.module = b.module
  generation : a.generation = b.generation
  key : a.key? = b.key?
  ready : a.readyKey? = b.readyKey?
  task : a.taskRef? = b.taskRef?

variable {a b : Slot κ ρ} {m : Module} {s' : State κ ρ}

/-- Exchanging the slot of `m` keeps the slots indexed when the indexes follow. -/
theorem SlotsIndexed.replace (h : SlotsIndexed s) (hslot : s.slots.get? m = some a)
    (hslots : s'.slots = s.slots.put m b) (hmods : s'.modules = s.modules) (hmod : b.module = m)
    (hkeys : ∀ k j, s'.keyIndex.get? k = some j ↔ j ≠ m ∧ s.keyIndex.get? k = some j ∨ j = m ∧
    b.key? = some k)
    (htasks : ∀ r j, s'.tasks.get? r = some ⟨j⟩ ↔ j ≠ m ∧ s.tasks.get? r = some ⟨j⟩ ∨ j = m ∧
    b.taskRef? = some r) (hgen : b.generation = installs m s'.backendLog)
    (hlog : ∀ j, j ≠ m → installs j s'.backendLog = installs j s.backendLog) : SlotsIndexed s' := by
  have hobs : ∀ (P : Slot κ ρ → Prop) j, (∃ x, s'.slots.get? j = some x ∧ P x) ↔
      j ≠ m ∧ (∃ x, s.slots.get? j = some x ∧ P x) ∨ j = m ∧ P b := by
    intro P j
    rw [hslots, Assoc.get?_put_eq]
    by_cases hj : j = m
    · simp [hj]
    · simp [hj]
  constructor
  case slot_module =>
    intro j x hx
    rw [hslots] at hx
    rcases Assoc.get?_put_cases hx with ⟨rfl, rfl⟩ | ⟨-, hx⟩
    · exact hmod
    · exact h.slot_module j x hx
  case slot_iff =>
    intro j
    have hj := hobs (fun _ => True) j
    simp only [and_true] at hj
    rw [hj, hmods, ← h.slot_iff]
    have hm := (h.slot_iff m).2 ⟨a, hslot⟩
    by_cases he : j = m
    · simp [he, hm]
    · simp [he]
  case key_index =>
    intro k j
    rw [hkeys, hobs, h.key_index]
  case task_index =>
    intro r j
    rw [htasks, hobs, h.task_index]
  case generation =>
    intro j x hx
    rw [hslots] at hx
    rcases Assoc.get?_put_cases hx with ⟨rfl, rfl⟩ | ⟨hj, hx⟩
    · exact hgen
    · rw [hlog j hj, h.generation j x hx]

theorem SlotsIndexed.key_slot (h : SlotsIndexed s) (hslot : s.slots.get? m = some a) (k : κ) :
    s.keyIndex.get? k = some m ↔ a.key? = some k := by
  rw [h.key_index, hslot]
  simp

theorem SlotsIndexed.task_slot (h : SlotsIndexed s) (hslot : s.slots.get? m = some a) (r : Ref) :
    s.tasks.get? r = some ⟨m⟩ ↔ a.taskRef? = some r := by
  rw [h.task_index, hslot]
  simp

theorem SlotsIndexed.exchange (h : SlotsIndexed s) (hslot : s.slots.get? m = some a)
    (hab : b.Similar a) (hslots : s'.slots = s.slots.put m b) (hmods : s'.modules = s.modules)
    (hkeys : s'.keyIndex = s.keyIndex) (htasks : s'.tasks = s.tasks)
    (hlog : s'.backendLog = s.backendLog) : SlotsIndexed s' := by
  refine h.replace hslot hslots hmods (hab.module.trans (h.slot_module m a hslot)) ?_ ?_ ?_ ?_
  · intro k j
    rw [hkeys, hab.key, ← h.key_slot hslot]
    by_cases hj : j = m
    · simp [hj]
    · simp [hj]
  · intro r j
    rw [htasks, hab.task, ← h.task_slot hslot]
    by_cases hj : j = m
    · simp [hj]
    · simp [hj]
  · rw [hab.generation, hlog, h.generation m a hslot]
  · exact fun j _ => by rw [hlog]

variable {t : Ref}

theorem LeaseLive.exchange {r : LeaseRecord κ} (h : LeaseLive s t r)
    (hslot : s.slots.get? m = some a) (hab : b.Similar a) (hslots : s'.slots = s.slots.put m b)
    (hself : s'.self = s.self) : LeaseLive s' t r := by
  refine ⟨hself ▸ h.lease, ?_⟩
  rw [hslots, Assoc.exists_get?_put_iff hslot (by rw [hab.ready, hab.generation])]
  exact h.slot

theorem Coherent.lease_count_exchange (h : Coherent s₀ s loose pending)
    (hslot : s.slots.get? m = some a) (hab : b.leaseCount = a.leaseCount) (j : Module)
    (x : Slot κ ρ) (hx : (s.slots.put m b).get? j = some x) :
    x.leaseCount = leasesOn s.leases j := by
  rcases Assoc.get?_put_cases hx with ⟨rfl, rfl⟩ | ⟨-, hx⟩
  · rw [hab, h.lease_count j a hslot]
  · exact h.lease_count j x hx

theorem Coherent.loose_exchange (h : Coherent s₀ s loose pending)
    (hslot : s.slots.get? m = some a) (hab : a.waiters = [] → b.waiters = []) :
    ∀ e ∈ loose, ∃ slot, (s.slots.put m b).get? e.1 = some slot ∧ slot.waiters = [] := by
  intro e he
  obtain ⟨x, hx, hw⟩ := h.loose_slot e he
  by_cases hm : e.1 = m
  · rw [hm, hslot] at hx
    cases hx
    exact ⟨b, hm ▸ Assoc.get?_put _ _ _, hab hw⟩
  · exact ⟨x, (Assoc.get?_put_ne _ _ hm).trans hx, hw⟩

/-! ### Fresh references -/

theorem Coherent.lease_none (h : Coherent s₀ s loose pending) (ht : s.nextRef ≤ t) :
    s.leases.get? t = none := by
  cases hl : s.leases.get? t with
  | none => rfl
  | some r => exact absurd (h.fresh_lease t r hl) (not_lt.2 ht)

variable {r : Ref}

theorem Coherent.monitor_none (h : Coherent s₀ s loose pending) (hr : s.nextRef ≤ r) :
    s.monitorIndex.get? r = none := by
  cases he : s.monitorIndex.get? r with
  | none => rfl
  | some e => exact absurd (h.fresh_monitor r e he) (not_lt.2 hr)

theorem Coherent.task_none (h : Coherent s₀ s loose pending) (hr : s.nextRef ≤ r) :
    s.tasks.get? r = none := by
  cases he : s.tasks.get? r with
  | none => rfl
  | some e => exact absurd (h.fresh_task r e he) (not_lt.2 hr)

variable {record : LeaseRecord κ}

theorem Coherent.no_lease (h : Coherent s₀ s loose pending) (hr : s.monitorIndex.get? r = none)
    (ht : s.leases.get? t = some record) : record.monitor ≠ r := by
  intro he
  rw [(h.monitor_lease r t).2 ⟨record, ht, he⟩] at hr
  cases hr

variable {w : Waiter}

theorem Coherent.no_waiter (h : Coherent s₀ s loose pending) (hr : s.monitorIndex.get? r = none)
    (hw : Waits s.slots loose m w) : w.monitor ≠ r := by
  intro he
  rw [(h.monitor_waiter r m).2 ⟨w, hw, he⟩] at hr
  cases hr

/-! ### Issuing a lease -/

def leased (s : State κ ρ) (slot : Slot κ ρ) (k : κ) (n : ℤ) (owner : Pid) :
    Lease κ × State κ ρ :=
  let lease : Lease κ := ⟨s.self, slot.module, k, s.epoch, slot.generation, s.nextRef, owner⟩
  (lease,
    { s with
      leases := s.leases.put s.nextRef ⟨slot.module, owner, s.nextRef + 1, lease⟩
      monitorIndex := s.monitorIndex.put (s.nextRef + 1) (.lease s.nextRef)
      slots := s.slots.put slot.module { slot with status := .ready k (n + 1) (s.clock + 1) }
      clock := s.clock + 1
      nextRef := s.nextRef + 1 + 1 })

variable {n : ℤ} {u : ℕ}

theorem issueLease_eq (hm : slot.module = m) (hslot : s.slots.get? m = some slot)
    (hst : slot.status = .ready k n u) (owner : Pid) :
    issueLease s m owner = some (leased s slot k n owner) := by
  subst hm
  simp only [issueLease, hslot, Slot.key?, hst, freshRef, updateSlot, touchSlot, tick,
    Slot.updateLeaseCount, Slot.touch, Option.bind_eq_bind, Option.bind_some, Assoc.get?_put,
    Option.pure_def, Assoc.put_put, leased]

theorem leased_coherent (h : Coherent s₀ s loose pending)
    (hslot : s.slots.get? slot.module = some slot) (hst : slot.status = .ready k n u)
    (owner : Pid) : Coherent s₀ (leased s slot k n owner).2 loose pending := by
  have hnew : s.leases.get? s.nextRef = none := h.lease_none (le_refl _)
  have hmon : s.monitorIndex.get? (s.nextRef + 1) = none := h.monitor_none (Nat.le_succ _)
  have hsim : Slot.Similar { slot with status := .ready k (n + 1) (s.clock + 1) } slot :=
    ⟨rfl, rfl, by simp only [Slot.key?, hst], by simp only [Slot.readyKey?, hst],
      by simp only [Slot.taskRef?, hst]⟩
  constructor
  case toSlotsIndexed =>
    exact h.toSlotsIndexed.exchange hslot hsim rfl rfl rfl rfl rfl
  case lease_count =>
    intro m x hx
    have hc := h.lease_count _ _ hslot
    simp only [leased, Assoc.get?_put_eq] at hx ⊢
    rw [leasesOn, Assoc.sumBy_put_new _ _ hnew, ← leasesOn]
    grind [h.lease_count, Slot.leaseCount]
  case lease_live =>
    intro t r hr
    simp only [leased, Assoc.get?_put_eq] at hr
    by_cases ht : t = s.nextRef
    · rw [if_pos ht] at hr
      cases hr
      refine ⟨⟨rfl, rfl, ht.symm, rfl⟩, _, Assoc.get?_put _ _ _, rfl, rfl⟩
    · rw [if_neg ht] at hr
      exact (h.lease_live t r hr).exchange hslot hsim rfl rfl
  case monitor_lease =>
    intro r t
    simp only [leased, Assoc.get?_put_eq]
    have hold := h.monitor_lease r t
    by_cases ht : t = s.nextRef
    · rw [ht, hnew] at hold
      by_cases hr : r = s.nextRef + 1
      · simp [ht, hr]
      · simpa [ht, hr, Ne.symm hr] using hold
    · by_cases hr : r = s.nextRef + 1
      · simp only [hr, if_pos, if_neg ht, Option.some.injEq, Monitored.lease.injEq]
        refine ⟨fun he => absurd he.symm ht, ?_⟩
        rintro ⟨_, hl, he⟩
        exact absurd he (h.no_lease hmon hl)
      · simpa only [if_neg ht, if_neg hr] using hold
  case monitor_waiter =>
    intro r m
    have hw : ∀ w, Waits (leased s slot k n owner).2.slots loose m w ↔ Waits s.slots loose m w :=
      fun w => or_congr
        (Assoc.exists_get?_put_iff hslot (by simp only [Slot.waiters, hst]) m) Iff.rfl
    simp only [hw]
    simp only [leased, Assoc.get?_put_eq]
    grind [h.monitor_waiter r m, h.no_waiter hmon (m := m)]
  case waiter_nodup =>
    intro m x hx
    simp only [leased, Assoc.get?_put_eq] at hx
    grind [h.waiter_nodup, Slot.waiters]
  case loose_nodup => exact h.loose_nodup
  case loose_slot => exact h.loose_exchange hslot fun he => by simp only [Slot.waiters]
  case fresh_lease =>
    intro t r hr
    simp only [leased, Assoc.get?_put_eq] at hr ⊢
    split at hr
    · lia
    · exact Nat.lt_add_right 2 (h.fresh_lease t r hr)
  case fresh_monitor =>
    intro r e he
    simp only [leased, Assoc.get?_put_eq] at he ⊢
    split at he
    · lia
    · exact Nat.lt_add_right 2 (h.fresh_monitor r e he)
  case fresh_task => exact fun r e he => Nat.lt_add_right 2 (h.fresh_task r e he)
  case fresh_issued => exact fun f hf => Nat.lt_add_right 2 (h.fresh_issued f hf)
  case unleased => exact h.unleased
  case history => exact h.history
  case withdrawn_same => exact h.withdrawn_same
  case issued_nodup => exact h.issued_nodup
  case no_drain => exact h.no_drain
  case ledger =>
    intro f
    have hw : waitingCount (leased s slot k n owner).2.slots f = waitingCount s.slots f :=
      Assoc.sumBy_put_same _ hslot (by simp only [Slot.waiters, hst])
    rw [calls, hw]
    exact h.ledger f

/-! ### Releasing a lease -/

/-- The state after the lease `token` on the ready slot `slot` is gone. -/
def released (s : State κ ρ) (token : Ref) (record : LeaseRecord κ) (slot : Slot κ ρ) (k : κ)
    (n : ℤ) : State κ ρ :=
  { s with
    leases := s.leases.delete token
    monitorIndex := s.monitorIndex.delete record.monitor
    slots := s.slots.put record.module { slot with status := .ready k (n - 1) (s.clock + 1) }
    clock := s.clock + 1 }

variable {token : Ref}

theorem releaseLease_eq (hslot : s.slots.get? record.module = some slot)
    (hst : slot.status = .ready k n u) :
    releaseLease s token record = some (released s token record slot k n) := by
  simp only [releaseLease, hslot, hst, updateSlot, touchSlot, tick, Slot.updateLeaseCount,
    Slot.touch, Option.bind_eq_bind, Option.bind_some, Assoc.get?_put, Option.pure_def,
    Assoc.put_put, released]

theorem released_coherent (h : Coherent s₀ s loose pending)
    (hrec : s.leases.get? token = some record) (hslot : s.slots.get? record.module = some slot)
    (hst : slot.status = .ready k n u) :
    Coherent s₀ (released s token record slot k n) loose pending := by
  have hmon : s.monitorIndex.get? record.monitor = some (.lease token) :=
    (h.monitor_lease _ _).2 ⟨record, hrec, rfl⟩
  have hsim : Slot.Similar { slot with status := .ready k (n - 1) (s.clock + 1) } slot :=
    ⟨rfl, rfl, by simp only [Slot.key?, hst], by simp only [Slot.readyKey?, hst],
      by simp only [Slot.taskRef?, hst]⟩
  refine { h with
    toSlotsIndexed := ?toSlotsIndexed, lease_count := ?lease_count, lease_live := ?lease_live,
    monitor_lease := ?monitor_lease, monitor_waiter := ?monitor_waiter,
    waiter_nodup := ?waiter_nodup, loose_slot := ?loose_slot, fresh_lease := ?fresh_lease,
    fresh_monitor := ?fresh_monitor, ledger := ?ledger }
  case toSlotsIndexed =>
    exact h.toSlotsIndexed.exchange hslot hsim rfl rfl rfl rfl rfl
  case lease_count =>
    intro m x hx
    have hc := h.lease_count _ _ hslot
    have hsum : ∀ m, leasesOn s.leases m =
        leasesOn (s.leases.delete token) m + if record.module = m then 1 else 0 :=
      fun m => Assoc.sumBy_delete _ hrec
    simp only [released, Assoc.get?_put_eq] at hx ⊢
    have hsum' := hsum m
    grind [h.lease_count, Slot.leaseCount]
  case lease_live =>
    exact fun t r hr =>
      (h.lease_live t r (Assoc.get?_of_delete hr)).exchange hslot hsim rfl rfl
  case monitor_lease =>
    intro r t
    have hold := h.monitor_lease r t
    simp only [released, Assoc.get?_delete_eq]
    grind
  case monitor_waiter =>
    intro r m
    have hw : ∀ w, Waits (released s token record slot k n).slots loose m w ↔
        Waits s.slots loose m w :=
      fun w => or_congr
        (Assoc.exists_get?_put_iff hslot (by simp only [Slot.waiters, hst]) m) Iff.rfl
    have hold := h.monitor_waiter r m
    simp only [hw]
    simp only [released, Assoc.get?_delete_eq]
    grind
  case waiter_nodup =>
    intro m x hx
    simp only [released, Assoc.get?_put_eq] at hx
    grind [h.waiter_nodup, Slot.waiters]
  case loose_slot => exact h.loose_exchange hslot fun he => by simp only [Slot.waiters]
  case fresh_lease => exact fun t r hr => h.fresh_lease t r (Assoc.get?_of_delete hr)
  case fresh_monitor => exact fun r e he => h.fresh_monitor r e (Assoc.get?_of_delete he)
  case ledger =>
    intro f
    have hw : waitingCount (released s token record slot k n).slots f = waitingCount s.slots f :=
      Assoc.sumBy_put_same _ hslot (by simp only [Slot.waiters, hst])
    rw [calls, hw]
    exact h.ledger f

/-! ### Joining a compilation -/

/-- The state after the caller `origin` has joined the compiling slot `slot`. -/
def joined (s : State κ ρ) (slot : Slot κ ρ) (k : κ) (ws : List Waiter) (task : Ref)
    (origin : From) : State κ ρ :=
  { s with
    monitorIndex := s.monitorIndex.put s.nextRef (.waiter slot.module)
    slots := s.slots.put slot.module
      { slot with status := .compiling k (⟨origin, origin.owner, s.nextRef⟩ :: ws) task }
    nextRef := s.nextRef + 1 }

variable {task : Ref} {ws : List Waiter}

theorem addWaiter_eq (hm : slot.module = m) (hslot : s.slots.get? m = some slot)
    (hst : slot.status = .compiling k ws task) (origin : From) :
    addWaiter s m origin = some (joined s slot k ws task origin) := by
  subst hm
  simp only [addWaiter, monitorWaiter, freshRef, updateSlot, hslot, hst, Slot.updateWaiters,
    Option.bind_eq_bind, Option.bind_some, Option.pure_def, joined]

variable {origin : From}

theorem joined_coherent (h : Coherent s₀ s [] (origin :: pending))
    (hslot : s.slots.get? slot.module = some slot) (hst : slot.status = .compiling k ws task) :
    Coherent s₀ (joined s slot k ws task origin) [] pending := by
  have hmon : s.monitorIndex.get? s.nextRef = none := h.monitor_none (le_refl _)
  have hsim : Slot.Similar
      { slot with status := .compiling k (⟨origin, origin.owner, s.nextRef⟩ :: ws) task } slot :=
    ⟨rfl, rfl, by simp only [Slot.key?, hst], by simp only [Slot.readyKey?, hst],
      by simp only [Slot.taskRef?, hst]⟩
  have hws : slot.waiters = ws := by rw [Slot.waiters, hst]
  constructor
  case toSlotsIndexed =>
    exact h.toSlotsIndexed.exchange hslot hsim rfl rfl rfl rfl rfl
  case lease_count =>
    exact h.lease_count_exchange hslot (by simp only [Slot.leaseCount, hst])
  case lease_live =>
    exact fun t r hr => (h.lease_live t r hr).exchange hslot hsim rfl rfl
  case monitor_lease =>
    intro r t
    simp only [joined, Assoc.get?_put_eq]
    grind [h.monitor_lease r t]
  case monitor_waiter =>
    intro r m
    have hold := h.monitor_waiter r m
    have hno := fun w => h.no_waiter hmon (m := m) (w := w)
    have hw : ∀ w, Waits (joined s slot k ws task origin).slots [] m w ↔
        Waits s.slots [] m w ∨ m = slot.module ∧ w = ⟨origin, origin.owner, s.nextRef⟩ := by
      intro w
      simp only [Waits, joined, Assoc.get?_put_eq]
      grind [Slot.waiters]
    simp only [hw]
    simp only [joined, Assoc.get?_put_eq]
    grind
  case waiter_nodup =>
    intro m x hx
    simp only [joined, Assoc.get?_put_eq] at hx
    split at hx
    · cases hx
      have hn := h.waiter_nodup _ _ hslot
      rw [hws] at hn
      refine List.nodup_cons.2 ⟨fun hmem => ?_, hn⟩
      obtain ⟨w, hw, he⟩ := List.mem_map.1 hmem
      exact h.no_waiter hmon (.inl ⟨slot, hslot, hws ▸ hw⟩) he
    · exact h.waiter_nodup m x hx
  case loose_nodup => exact h.loose_nodup
  case loose_slot => exact fun e he => absurd he List.not_mem_nil
  case fresh_lease => exact fun t r hr => Nat.lt_add_right 1 (h.fresh_lease t r hr)
  case fresh_monitor =>
    intro r e he
    simp only [joined, Assoc.get?_put_eq] at he ⊢
    split at he
    · lia
    · exact Nat.lt_add_right 1 (h.fresh_monitor r e he)
  case fresh_task => exact fun r e he => Nat.lt_add_right 1 (h.fresh_task r e he)
  case fresh_issued => exact fun f hf => Nat.lt_add_right 1 (h.fresh_issued f hf)
  case unleased => exact h.unleased
  case history => exact h.history
  case withdrawn_same => exact h.withdrawn_same
  case issued_nodup => exact h.issued_nodup
  case no_drain => exact h.no_drain
  case ledger =>
    intro f
    have hled := h.ledger f
    have hsum : waitingCount (joined s slot k ws task origin).slots f =
        waitingCount s.slots f + [origin].count f := by
      have hswap := Assoc.sumBy_put_swap
        (fun _ (slot : Slot κ ρ) => (slot.waiters.map Waiter.origin).count f)
        { slot with status := .compiling k (⟨origin, origin.owner, s.nextRef⟩ :: ws) task } hslot
      simp only [Slot.waiters, hst, List.map_cons, List.count_cons] at hswap
      simp only [waitingCount, joined, List.count_cons, List.count_nil, Slot.waiters]
      omega
    simp only [calls, List.count_cons, List.count_nil] at hled hsum ⊢
    rw [hsum]
    show s.issued.count f = _
    rw [hled]
    show _ = (s.replies.map Prod.fst).count f + _ + _ + s.withdrawn.count f +
      (s.drain.toList.map Drain.origin).count f + _
    omega

/-! ### A waiter goes down -/

/-- The state after the monitor `r` of a waiter on the compiling slot `slot` has fired. -/
def abandoned (s : State κ ρ) (slot : Slot κ ρ) (k : κ) (ws : List Waiter) (task : Ref)
    (r : Ref) : State κ ρ :=
  { s with
    monitorIndex := s.monitorIndex.delete r
    withdrawn := (ws.filter fun w => w.monitor == r).map Waiter.origin ++ s.withdrawn
    slots := s.slots.put slot.module
      { slot with status := .compiling k (ws.filter fun w => w.monitor != r) task } }

theorem count_filter_add (ws : List Waiter) (r : Ref) (f : From) :
    ((ws.filter fun w => w.monitor == r).map Waiter.origin).count f +
      ((ws.filter fun w => w.monitor != r).map Waiter.origin).count f =
      (ws.map Waiter.origin).count f := by
  induction ws with
  | nil => rfl
  | cons w ws ih =>
    by_cases hw : w.monitor = r
    · simp only [hw, List.filter_cons, beq_self_eq_true, if_true, bne_self_eq_false,
        List.map_cons, List.count_cons, Bool.false_eq_true, if_false]
      omega
    · simp only [List.filter_cons, beq_eq_false_iff_ne.2 hw, bne_iff_ne.2 hw, if_true,
        List.map_cons, List.count_cons, Bool.false_eq_true, if_false]
      omega

theorem abandoned_coherent (h : Coherent s₀ s [] pending)
    (hslot : s.slots.get? slot.module = some slot) (hst : slot.status = .compiling k ws task)
    (hr : s.monitorIndex.get? r = some (.waiter slot.module)) :
    Coherent (abandoned s slot k ws task r) (abandoned s slot k ws task r) [] pending := by
  have hsim : Slot.Similar
      { slot with status := .compiling k (ws.filter fun w => w.monitor != r) task } slot :=
    ⟨rfl, rfl, by simp only [Slot.key?, hst], by simp only [Slot.readyKey?, hst],
      by simp only [Slot.taskRef?, hst]⟩
  have hws : slot.waiters = ws := by rw [Slot.waiters, hst]
  constructor
  case toSlotsIndexed =>
    exact h.toSlotsIndexed.exchange hslot hsim rfl rfl rfl rfl rfl
  case lease_count =>
    exact h.lease_count_exchange hslot (by simp only [Slot.leaseCount, hst])
  case lease_live =>
    exact fun t r hr => (h.lease_live t r hr).exchange hslot hsim rfl rfl
  case monitor_lease =>
    intro r' t
    have hold := h.monitor_lease r' t
    simp only [abandoned, Assoc.get?_delete_eq]
    grind
  case monitor_waiter =>
    intro r' m
    have hold := h.monitor_waiter r' m
    have hw : ∀ w, Waits (abandoned s slot k ws task r).slots [] m w ↔
        Waits s.slots [] m w ∧ (m = slot.module → w.monitor ≠ r) := by
      intro w
      simp only [Waits, abandoned, Assoc.get?_put_eq]
      split
      · rename_i hm
        subst hm
        simp only [Option.some.injEq, exists_eq_left', Slot.waiters, hslot, hst, List.mem_filter,
          bne_iff_ne, ne_eq, true_imp_iff, List.not_mem_nil, or_false]
      · rename_i hm
        exact ⟨fun hw => ⟨hw, fun he => absurd he hm⟩, fun hw => hw.1⟩
    simp only [hw]
    simp only [abandoned, Assoc.get?_delete_eq]
    grind
  case waiter_nodup =>
    intro m x hx
    rcases Assoc.get?_put_cases hx with ⟨rfl, rfl⟩ | ⟨-, hx⟩
    · have hn := h.waiter_nodup _ _ hslot
      rw [hws] at hn
      exact hn.sublist ((List.filter_sublist).map _)
    · exact h.waiter_nodup m x hx
  case loose_nodup => exact h.loose_nodup
  case loose_slot => exact fun e he => absurd he List.not_mem_nil
  case fresh_lease => exact h.fresh_lease
  case fresh_monitor => exact fun r e he => h.fresh_monitor r e (Assoc.get?_of_delete he)
  case fresh_task => exact h.fresh_task
  case fresh_issued => exact h.fresh_issued
  case unleased => exact h.unleased
  case history => exact List.suffix_refl _
  case withdrawn_same => rfl
  case issued_nodup => exact h.issued_nodup
  case no_drain => exact h.no_drain
  case ledger =>
    intro f
    have hled := h.ledger f
    have hsplit := count_filter_add ws r f
    have hsum : waitingCount (abandoned s slot k ws task r).slots f +
        ((ws.filter fun w => w.monitor == r).map Waiter.origin).count f =
        waitingCount s.slots f := by
      have hswap := Assoc.sumBy_put_swap
        (fun _ (slot : Slot κ ρ) => (slot.waiters.map Waiter.origin).count f)
        { slot with status := .compiling k (ws.filter fun w => w.monitor != r) task } hslot
      simp only [hws] at hswap
      simp only [Slot.waiters] at hswap
      simp only [waitingCount, abandoned, Slot.waiters]
      omega
    show s.issued.count f = _
    rw [hled]
    simp only [calls]
    show _ = (s.replies.map Prod.fst).count f + _ + _ +
      ((ws.filter fun w => w.monitor == r).map Waiter.origin ++ s.withdrawn).count f +
      (s.drain.toList.map Drain.origin).count f + _
    rw [List.count_append]
    omega

/-! ### Starting a compilation -/

/-- The state after a compilation of `key` for `origin` has started in the free slot `slot`. -/
def started (s : State κ ρ) (slot : Slot κ ρ) (key : κ) (origin : From) : State κ ρ :=
  { s with
    skipIndex := s.skipIndex.delete key
    monitorIndex := s.monitorIndex.put s.nextRef (.waiter slot.module)
    slots := s.slots.put slot.module ⟨slot.module, slot.generation,
      .compiling key [⟨origin, origin.owner, s.nextRef⟩] (s.nextRef + 1)⟩
    keyIndex := s.keyIndex.put key slot.module
    tasks := s.tasks.put (s.nextRef + 1) ⟨slot.module⟩
    nextRef := s.nextRef + 1 + 1 }

theorem startCompilation_eq (hm : slot.module = m) (hslot : s.slots.get? m = some slot) (key : κ)
    (origin : From) : startCompilation s m key origin = some (started s slot key origin) := by
  subst hm
  simp only [startCompilation, monitorWaiter, freshRef, hslot, putSlot, Option.bind_eq_bind,
    Option.bind_some, Option.pure_def, started]

theorem started_coherent (h : Coherent s₀ s [] (origin :: pending))
    (hslot : s.slots.get? slot.module = some slot) (hst : slot.status = .free) {key : κ}
    (hkey : s.keyIndex.get? key = none) : Coherent s₀ (started s slot key origin) [] pending := by
  have hmon : s.monitorIndex.get? s.nextRef = none := h.monitor_none (le_refl _)
  have htask : s.tasks.get? (s.nextRef + 1) = none := h.task_none (Nat.le_succ _)
  have hk : ∀ k, s.keyIndex.get? k ≠ some slot.module := fun k hk => by
    rw [h.key_slot hslot, Slot.key?, hst] at hk
    cases hk
  have ht : ∀ r, s.tasks.get? r ≠ some ⟨slot.module⟩ := fun r hr => by
    rw [h.task_slot hslot, Slot.taskRef?, hst] at hr
    cases hr
  constructor
  case toSlotsIndexed =>
    refine h.toSlotsIndexed.replace hslot rfl rfl rfl ?_ ?_
      (h.generation _ slot hslot :) fun _ _ => rfl
    · intro k j
      simp only [started, Assoc.get?_put_eq, Slot.key?, Option.some.injEq]
      grind
    · intro r j
      simp only [started, Assoc.get?_put_eq, Slot.taskRef?, Option.some.injEq]
      grind
  case lease_count =>
    exact h.lease_count_exchange hslot (by simp only [Slot.leaseCount, hst])
  case lease_live =>
    intro t r hr
    obtain ⟨hl, x, hx, hkey, hgen⟩ := h.lease_live t r hr
    refine ⟨hl, x, ?_, hkey, hgen⟩
    -- a leased slot is ready, so it is not the free one
    refine (Assoc.get?_put_ne _ _ fun he => ?_).trans hx
    rw [he, hslot] at hx
    cases hx
    rw [Slot.readyKey?, hst] at hkey
    cases hkey
  case monitor_lease =>
    intro r t
    simp only [started, Assoc.get?_put_eq]
    grind [h.monitor_lease r t]
  case monitor_waiter =>
    intro r m
    have hold := h.monitor_waiter r m
    have hno := fun w => h.no_waiter hmon (m := m) (w := w)
    have hw : ∀ w, Waits (started s slot key origin).slots [] m w ↔
        Waits s.slots [] m w ∨ m = slot.module ∧ w = ⟨origin, origin.owner, s.nextRef⟩ := by
      intro w
      simp only [Waits, started, Assoc.get?_put_eq]
      grind [Slot.waiters]
    simp only [hw]
    simp only [started, Assoc.get?_put_eq]
    grind
  case waiter_nodup =>
    intro m x hx
    rcases Assoc.get?_put_cases hx with ⟨rfl, rfl⟩ | ⟨-, hx⟩
    · exact List.nodup_singleton _
    · exact h.waiter_nodup m x hx
  case loose_nodup => exact h.loose_nodup
  case loose_slot => exact fun e he => absurd he List.not_mem_nil
  case fresh_lease => exact fun t r hr => Nat.lt_add_right 2 (h.fresh_lease t r hr)
  case fresh_monitor =>
    intro r e he
    rcases Assoc.get?_put_cases he with ⟨rfl, -⟩ | ⟨-, he⟩
    · exact Nat.lt_add_right 1 (Nat.lt_succ_self _)
    · exact Nat.lt_add_right 2 (h.fresh_monitor r e he)
  case fresh_task =>
    intro r e he
    rcases Assoc.get?_put_cases he with ⟨rfl, -⟩ | ⟨-, he⟩
    · exact Nat.lt_succ_self _
    · exact Nat.lt_add_right 2 (h.fresh_task r e he)
  case fresh_issued => exact fun f hf => Nat.lt_add_right 2 (h.fresh_issued f hf)
  case unleased => exact h.unleased
  case history => exact h.history
  case withdrawn_same => exact h.withdrawn_same
  case issued_nodup => exact h.issued_nodup
  case no_drain => exact h.no_drain
  case ledger =>
    intro f
    have hled := h.ledger f
    have hsum : waitingCount (started s slot key origin).slots f =
        waitingCount s.slots f + [origin].count f := by
      have hswap := Assoc.sumBy_put_swap
        (fun _ (slot : Slot κ ρ) => (slot.waiters.map Waiter.origin).count f)
        ⟨slot.module, slot.generation,
          .compiling key [⟨origin, origin.owner, s.nextRef⟩] (s.nextRef + 1)⟩ hslot
      simp only [Slot.waiters, hst, List.map_cons, List.map_nil, List.count_nil] at hswap
      exact hswap
    show s.issued.count f = _
    rw [hled, calls, calls, hsum, count_cons_origin]
    show _ = (s.replies.map Prod.fst).count f + _ + _ + s.withdrawn.count f +
      (s.drain.toList.map Drain.origin).count f + _
    omega

/-! ### Retiring a slot -/

def SlotStatus.Vacant (st : SlotStatus κ ρ) : Prop := st = .free ∨ ∃ r, st = .quarantined r

variable {st : SlotStatus κ ρ}

theorem SlotStatus.Vacant.observe (h : st.Vacant) (m : Module) (g : ℕ) :
    Slot.key? ⟨m, g, st⟩ = none ∧ Slot.readyKey? ⟨m, g, st⟩ = none ∧
      Slot.taskRef? ⟨m, g, st⟩ = none ∧ Slot.waiters ⟨m, g, st⟩ = [] ∧
      Slot.leaseCount ⟨m, g, st⟩ = 0 := by
  rcases h with rfl | ⟨r, rfl⟩ <;> exact ⟨rfl, rfl, rfl, rfl, rfl⟩

/-- The state after the backend was asked to retire the ready slot `slot` of key `k`. -/
def retired (s : State κ ρ) (slot : Slot κ ρ) (k : κ) (st : SlotStatus κ ρ) : State κ ρ :=
  { s with
    keyIndex := s.keyIndex.delete k
    backendLog := .retire slot.module (leasesOn s.leases slot.module) :: s.backendLog
    slots := s.slots.put slot.module ⟨slot.module, slot.generation, st⟩ }

theorem retired_coherent (h : Coherent s₀ s loose pending)
    (hslot : s.slots.get? slot.module = some slot) (hst : slot.status = .ready k 0 u)
    (hvac : st.Vacant) : Coherent s₀ (retired s slot k st) loose pending := by
  obtain ⟨hk, hrk, htr, hws, hlc⟩ := hvac.observe slot.module slot.generation
  have hzero : leasesOn s.leases slot.module = 0 := by
    have hc := h.lease_count _ _ hslot
    rw [Slot.leaseCount, hst] at hc
    change (0 : ℤ) = _ at hc
    exact_mod_cast hc.symm
  have hkeys : ∀ k', s.keyIndex.get? k' = some slot.module ↔ k = k' := fun k' => by
    rw [h.key_slot hslot, Slot.key?, hst]
    exact Option.some_inj
  have htasks : ∀ r, s.tasks.get? r ≠ some ⟨slot.module⟩ := fun r hr => by
    rw [h.task_slot hslot, Slot.taskRef?, hst] at hr
    cases hr
  refine { h with
    toSlotsIndexed := ?toSlotsIndexed, lease_count := ?lease_count, lease_live := ?lease_live,
    monitor_waiter := ?monitor_waiter, waiter_nodup := ?waiter_nodup, loose_slot := ?loose_slot,
    unleased := ?unleased, history := ?history, ledger := ?ledger }
  case toSlotsIndexed =>
    refine h.toSlotsIndexed.replace hslot rfl rfl rfl ?_ ?_ ?_ ?_
    · intro k' j
      simp only [retired, Assoc.get?_delete_eq, hk]
      grind
    · intro r j
      simp only [retired, htr]
      grind
    · exact (h.generation _ slot hslot).trans (by simp [installs, retired])
    · intro j _
      simp [installs, retired]
  case lease_count =>
    intro m x hx
    rcases Assoc.get?_put_cases hx with ⟨rfl, rfl⟩ | ⟨-, hx⟩
    · rw [hlc]
      exact_mod_cast hzero.symm
    · exact h.lease_count m x hx
  case lease_live =>
    intro t r hr
    obtain ⟨hl, x, hx, hkey, hgen⟩ := h.lease_live t r hr
    refine ⟨hl, x, (Assoc.get?_put_ne _ _ fun he => ?_).trans hx, hkey, hgen⟩
    have hpos := Assoc.le_sumBy (m := s.leases)
      (fun _ (r : LeaseRecord κ) => if r.module = slot.module then 1 else 0) hr
    rw [if_pos he, ← leasesOn, hzero] at hpos
    exact absurd hpos (by decide)
  case monitor_waiter =>
    intro r m
    have hw : ∀ w, Waits (retired s slot k st).slots loose m w ↔ Waits s.slots loose m w :=
      fun w => or_congr
        (Assoc.exists_get?_put_iff hslot (by rw [hws, Slot.waiters, hst]) m) Iff.rfl
    simp only [hw]
    exact h.monitor_waiter r m
  case waiter_nodup =>
    intro m x hx
    rcases Assoc.get?_put_cases hx with ⟨rfl, rfl⟩ | ⟨-, hx⟩
    · rw [hws]
      exact List.nodup_nil
    · exact h.waiter_nodup m x hx
  case loose_slot => exact h.loose_exchange hslot fun _ => hws
  case unleased =>
    intro c hc
    rcases List.mem_cons.1 hc with rfl | hc
    · exact hzero
    · exact h.unleased c hc
  case history => exact h.history.trans (List.suffix_cons _ _)
  case ledger =>
    intro f
    have hw : waitingCount (retired s slot k st).slots f = waitingCount s.slots f :=
      Assoc.sumBy_put_same _ hslot (by rw [hws, Slot.waiters, hst])
    rw [calls, hw]
    exact h.ledger f

/-! ### The end of a compilation -/

/-- The compiling slot `slot` of task `r` becomes `b`, and its waiters are taken out. -/
def detached (s : State κ ρ) (r : Ref) (b : Slot κ ρ) (keys : Assoc κ Module)
    (log : List BackendCall) (clock : ℕ) : State κ ρ :=
  { s with
    tasks := s.tasks.delete r
    keyIndex := keys
    backendLog := log
    clock := clock
    slots := s.slots.put b.module b }

theorem detached_coherent (h : Coherent s₀ s [] pending) {ws l : List Waiter} (hl : l.Perm ws)
    {keys : Assoc κ Module} {log : List BackendCall} {clock : ℕ}
    (hslot : s.slots.get? b.module = some slot) (hst : slot.status = .compiling k ws r)
    (hidx : SlotsIndexed (detached s r b keys log clock)) (hws : b.waiters = [])
    (hlc : b.leaseCount = 0) (hlog : ∀ c ∈ log, c.leases = 0) (hsuf : s.backendLog <:+ log) :
    Coherent s₀ (detached s r b keys log clock) (l.map fun w => (b.module, w)) pending := by
  have hwaiters : slot.waiters = ws := by rw [Slot.waiters, hst]
  constructor
  case toSlotsIndexed => exact hidx
  case lease_count =>
    exact h.lease_count_exchange hslot (hlc.trans (by simp only [Slot.leaseCount, hst]))
  case lease_live =>
    intro t r' hr
    obtain ⟨hl, x, hx, hkey, hgen⟩ := h.lease_live t r' hr
    refine ⟨hl, x, (Assoc.get?_put_ne _ _ fun he => ?_).trans hx, hkey, hgen⟩
    rw [he, hslot] at hx
    cases hx
    rw [Slot.readyKey?, hst] at hkey
    cases hkey
  case monitor_lease => exact h.monitor_lease
  case monitor_waiter =>
    intro r' m
    have hw : ∀ w, Waits (detached s r b keys log clock).slots
        (l.map fun w => (b.module, w)) m w ↔ Waits s.slots [] m w := by
      intro w
      simp only [Waits, detached, Assoc.get?_put_eq]
      by_cases hm : m = b.module
      · subst hm
        simp [hslot, hwaiters, hws, hl.mem_iff]
      · simp [hm, Ne.symm hm]
    simp only [hw]
    exact h.monitor_waiter r' m
  case waiter_nodup =>
    intro m x hx
    rcases Assoc.get?_put_cases hx with ⟨rfl, rfl⟩ | ⟨-, hx⟩
    · rw [hws]
      exact List.nodup_nil
    · exact h.waiter_nodup m x hx
  case loose_nodup =>
    have hn := h.waiter_nodup _ _ hslot
    rw [hwaiters] at hn
    rw [List.map_map]
    exact (hl.map _).nodup_iff.2 hn
  case loose_slot =>
    intro e he
    obtain ⟨w, -, rfl⟩ := List.mem_map.1 he
    exact ⟨b, Assoc.get?_put _ _ _, hws⟩
  case fresh_lease => exact h.fresh_lease
  case fresh_monitor => exact h.fresh_monitor
  case fresh_task => exact fun r e he => h.fresh_task r e (Assoc.get?_of_delete he)
  case fresh_issued => exact h.fresh_issued
  case unleased => exact hlog
  case history => exact h.history.trans hsuf
  case withdrawn_same => exact h.withdrawn_same
  case issued_nodup => exact h.issued_nodup
  case no_drain => exact h.no_drain
  case ledger =>
    intro f
    have hled := h.ledger f
    have hswap := Assoc.sumBy_put_swap
      (fun _ (slot : Slot κ ρ) => (slot.waiters.map Waiter.origin).count f) b hslot
    simp only [hwaiters, hws, List.map_nil, List.count_nil] at hswap
    have hloose : ((l.map fun w => (b.module, w)).map fun e => e.2.origin).count f =
        (ws.map Waiter.origin).count f := by
      rw [List.map_map]
      exact (hl.map _).count_eq f
    show s.issued.count f = _
    rw [hled, calls, calls, hloose]
    show _ = (s.replies.map Prod.fst).count f + Assoc.sumBy _ (s.slots.put b.module b) + _ +
      s.withdrawn.count f + (s.drain.toList.map Drain.origin).count f + _
    simp only [waitingCount, List.map_nil, List.count_nil]
    omega

/-- One waiter taken out of its slot loses its monitor; its caller is to be answered next. -/
theorem demonitorWaiter_coherent (h : Coherent s₀ s ((m, w) :: loose) pending) :
    Coherent s₀ (demonitorWaiter s w) loose (w.origin :: pending) := by
  have hmon : s.monitorIndex.get? w.monitor = some (.waiter m) :=
    (h.monitor_waiter _ _).2 ⟨w, .inr List.mem_cons_self, rfl⟩
  have hnodup := List.nodup_cons.1 h.loose_nodup
  refine { h with
    toSlotsIndexed := ?toSlotsIndexed, lease_live := ?lease_live,
    monitor_lease := ?monitor_lease, monitor_waiter := ?monitor_waiter,
    loose_nodup := ?loose_nodup, loose_slot := ?loose_slot, fresh_monitor := ?fresh_monitor,
    ledger := ?ledger }
  case toSlotsIndexed => exact ⟨h.slot_module, h.slot_iff, h.key_index, h.task_index, h.generation⟩
  case lease_live => exact fun t r hr => ⟨(h.lease_live t r hr).lease, (h.lease_live t r hr).slot⟩
  case monitor_lease =>
    intro r t
    have hold := h.monitor_lease r t
    simp only [demonitorWaiter, Assoc.get?_delete_eq]
    grind
  case monitor_waiter =>
    intro r j
    have hold := h.monitor_waiter r j
    have hw : ∀ v, Waits s.slots ((m, w) :: loose) j v ↔
        Waits s.slots loose j v ∨ j = m ∧ v = w := by
      intro v
      simp only [Waits, List.mem_cons, Prod.mk.injEq]
      exact (or_congr_right or_comm).trans or_assoc.symm
    -- no other waiter carries the monitor of `w`
    have hne : ∀ v, Waits s.slots loose m v → v.monitor ≠ w.monitor := by
      rintro v (⟨x, hx, hv⟩ | hv) he
      · obtain ⟨y, hy, hnil⟩ := h.loose_slot _ List.mem_cons_self
        rw [hx] at hy
        cases hy
        rw [hnil] at hv
        cases hv
      · exact hnodup.1 (List.mem_map.2 ⟨(m, v), hv, he⟩)
    simp only [hw] at hold
    simp only [demonitorWaiter, Assoc.get?_delete_eq]
    by_cases hr : r = w.monitor
    · subst hr
      rw [hmon, Option.some.injEq, Monitored.waiter.injEq] at hold
      rw [if_pos rfl]
      refine ⟨fun he => (by cases he), ?_⟩
      rintro ⟨v, hv, he⟩
      have hj := hold.2 ⟨v, .inl hv, he⟩
      subst hj
      exact absurd he (hne v hv)
    · rw [if_neg hr, hold]
      constructor
      · rintro ⟨v, hv | ⟨-, rfl⟩, he⟩
        · exact ⟨v, hv, he⟩
        · exact absurd he.symm hr
      · rintro ⟨v, hv, he⟩
        exact ⟨v, .inl hv, he⟩
  case loose_nodup => exact hnodup.2
  case loose_slot => exact fun e he => h.loose_slot e (List.mem_cons_of_mem _ he)
  case fresh_monitor => exact fun r e he => h.fresh_monitor r e (Assoc.get?_of_delete he)
  case ledger =>
    intro f
    have hled := h.ledger f
    simp only [calls, List.map_cons] at hled ⊢
    rw [count_cons_origin] at hled ⊢
    show s.issued.count f = (s.replies.map Prod.fst).count f + waitingCount s.slots f + _ +
      s.withdrawn.count f + (s.drain.toList.map Drain.origin).count f + _
    omega

theorem reply_coherent {f : From} (h : Coherent s₀ s loose (f :: pending)) (r : Reply κ ρ) :
    Coherent s₀ (reply s f r) loose pending := by
  refine { h with
    toSlotsIndexed := ⟨h.slot_module, h.slot_iff, h.key_index, h.task_index, h.generation⟩
    lease_live := fun t r hr => ⟨(h.lease_live t r hr).lease, (h.lease_live t r hr).slot⟩
    ledger := fun g => ?_ }
  have hled := h.ledger g
  simp only [calls, reply, List.map_cons] at hled ⊢
  rw [count_cons_origin] at hled ⊢
  omega

/-! ### Bookkeeping and new calls -/

/-- The invariant does not depend on the clock, the skip index or the region tables. -/
theorem Coherent.bookkeeping (h : Coherent s₀ s loose pending) (skips : Assoc κ ℕ)
    (regions : Assoc κ Admission) (hot : Finset κ) (clock : ℕ) :
    Coherent s₀
      { s with skipIndex := skips, regionAdmissions := regions, regionHot := hot, clock := clock }
      loose pending :=
  { h with
    toSlotsIndexed := ⟨h.slot_module, h.slot_iff, h.key_index, h.task_index, h.generation⟩
    lease_live := fun t r hr => ⟨(h.lease_live t r hr).lease, (h.lease_live t r hr).slot⟩
    ledger := h.ledger }

theorem Coherent.freshRef (h : Coherent s₀ s loose pending) :
    Coherent s₀ { s with nextRef := s.nextRef + 1 } loose pending :=
  { h with
    toSlotsIndexed := ⟨h.slot_module, h.slot_iff, h.key_index, h.task_index, h.generation⟩
    lease_live := fun t r hr => ⟨(h.lease_live t r hr).lease, (h.lease_live t r hr).slot⟩
    fresh_lease := fun t r hr => Nat.lt_add_right 1 (h.fresh_lease t r hr)
    fresh_monitor := fun r e he => Nat.lt_add_right 1 (h.fresh_monitor r e he)
    fresh_task := fun r e he => Nat.lt_add_right 1 (h.fresh_task r e he)
    fresh_issued := fun f hf => Nat.lt_add_right 1 (h.fresh_issued f hf)
    ledger := h.ledger }

theorem openCall_coherent (h : Coherent s₀ s loose pending) (caller : Pid) :
    Coherent s₀ (openCall s caller).2 loose ((openCall s caller).1 :: pending) := by
  have h' := h.freshRef
  refine { h' with
    toSlotsIndexed := ⟨h.slot_module, h.slot_iff, h.key_index, h.task_index, h.generation⟩
    lease_live := fun t r hr => ⟨(h.lease_live t r hr).lease, (h.lease_live t r hr).slot⟩
    fresh_issued := fun f hf => ?_
    issued_nodup := List.nodup_cons.2 ⟨fun hmem => ?_, h.issued_nodup⟩
    ledger := fun f => ?_ }
  · rcases List.mem_cons.1 hf with rfl | hf
    · exact Nat.lt_succ_self _
    · exact h'.fresh_issued f hf
  · exact absurd (h.fresh_issued _ hmem) (lt_irrefl _)
  · have hled := h.ledger f
    show (⟨caller, s.nextRef⟩ :: s.issued).count f = _
    rw [count_cons_origin, hled, calls, calls, openCall, freshRef]
    simp only
    rw [count_cons_origin _ pending]
    show _ = (s.replies.map Prod.fst).count f + waitingCount s.slots f + _ +
      s.withdrawn.count f + (s.drain.toList.map Drain.origin).count f + _
    omega

theorem Coherent.restart (h : Coherent s₀ s loose pending) : Coherent s s loose pending :=
  { h with history := List.suffix_refl _, withdrawn_same := rfl }

end Invariant

end QuickBeam.Vm.Compiler.Pool
