import QuickBeam.Vm.Program.StoreInvariant

/-!
# Runs of the pinned-program store

A store that restarts forgets the reservations it has given and the leases it has granted, while
the processes that hold them go on.  `safe` names the steps at which this does damage: a write or
an erasure, by a process whose reservation is forgotten, of a slot in use; an erasure under a
lease that is forgotten; a restoration that drops a leased slot or meets one key twice.  In every
run without such a step the store keeps its promise (`store_invariant`); `staleWriter` is a run
with one.
-/

set_option linter.unusedSectionVars false

namespace QuickBeam.Vm.Program.Store

open QuickBeam.Lib

variable {κ γ : Type} [DecidableEq κ] [DecidableEq γ] {env : Env κ γ}

/-! ### The steps that do no damage -/

/-- No entry of a running store and no lease out is on `slot`. -/
def unused (s : State κ γ) (slot : SlotId) : Bool :=
  (s.store.all fun st => !st.slots.hasKey slot) &&
    s.live.toList.all fun e => e.2.lease.slot != slot

/-- The running store holds the reservation `i` of `p`. -/
def holdsReservation (s : State κ γ) (p : Pid) (i : Install κ γ) : Bool :=
  s.store.any fun st => (ownPending st p i).isSome

/-- A lease granted before the last restart is still out on `key`. -/
def forgotten (s : State κ γ) (key : κ) : Bool :=
  s.live.toList.any fun e => e.2.lease.key == key && e.2.incarnation != s.incarnation

/-- `unpin` erases the slot of an entry without leases. -/
def unpinErases (st : Table κ) (key : κ) : Bool :=
  (st.entries.get? key).any fun entry => entry.leases.size = 0

/-- `maybe_release_entry/3` erases the slot of an entry that loses the lease `id`. -/
def releaseErases (entry : Entry) (id : Ref) : Bool :=
  (entry.leases.delete id).size = 0 ∧ entry.unpin

/-- The restorable terms have distinct keys; the term of every lease out is restorable, and
fits in the budget with the restorable terms of the slots below its own. -/
def restores (env : Env κ γ) (s : State κ γ) : Bool :=
  ((s.terms.toList.filter fun e => (restorableBytes env e.2.program).isSome).map
      fun e => e.2.key).Nodup ∧
    s.live.toList.all fun e =>
      (((s.terms.get? e.2.lease.slot).bind fun t => restorableBytes env t.program).isSome &&
        restorableBelow env s.terms (e.2.lease.slot + 1) ≤ maximumTotalResidencyBytes)

def safe (env : Env κ γ) (s : State κ γ) : Event κ γ → Bool
  | .persist p ok =>
    match s.clients p with
    | .reserved i => !ok || holdsReservation s p i || unused s i.slot
    | _ => true
  | .erase p =>
    match s.clients p with
    | .erasing i => unused s i.slot
    | _ => true
  | .serve p =>
    match s.clients p, s.store with
    | .calling (.unpin key) _, some st => !(unpinErases st key && forgotten s key)
    | .dying (.unpin key) _, some st => !(unpinErases st key && forgotten s key)
    | _, _ => true
  | .deliver lease =>
    match s.store.bind fun st => st.entries.get? lease.key with
    | some entry => !(releaseErases entry lease.id && forgotten s lease.key)
    | none => true
  | .down monitor =>
    match s.store.bind fun st => ownerLease st monitor with
    | some (key, id, entry) => !(releaseErases entry id && forgotten s key)
    | none => true
  | .storeStarts => restores env s
  | _ => true

variable {s : State κ γ} {st : Table κ}

variable {slot : SlotId}

theorem unused_iff : unused s slot = true ↔ Unused s s.store slot := by
  unfold unused Unused
  rw [Bool.and_eq_true]
  refine and_congr ?_ ?_
  · cases s.store with
    | none => simp
    | some st =>
      cases hs : st.slots.get? slot with
      | none => simp [Assoc.hasKey, hs]
      | some k => simp [Assoc.hasKey, hs]
  · rw [List.all_eq_true]
    constructor
    · intro h id l hl
      simpa using h (id, l) (Assoc.mem_toList.2 hl)
    · rintro h ⟨id, l⟩ he
      simpa using h id l (Assoc.mem_toList.1 he)

variable {id : Ref} {key : κ} {l : LiveLease κ γ}

theorem not_forgotten (h : forgotten s key = false) (hl : s.live.get? id = some l)
    (hk : l.lease.key = key) : l.incarnation = s.incarnation := by
  rw [forgotten, List.any_eq_false] at h
  have hthis := h (id, l) (Assoc.mem_toList.2 hl)
  simpa [hk] using hthis

/-! ### Replies -/

@[simp] theorem answer_store (s : State κ γ) (p : Pid) (c : Client κ γ) :
    (s.answer p c).store = s.store := by
  unfold State.answer
  split <;> rfl

@[simp] theorem answer_nextRef (s : State κ γ) (p : Pid) (c : Client κ γ) :
    (s.answer p c).nextRef = s.nextRef := by
  unfold State.answer
  split <;> rfl

theorem refuseWaiters_nextRef (waiters : List Pid) (s : State κ γ) :
    (refuseWaiters s waiters).nextRef = s.nextRef := by
  induction waiters generalizing s with
  | nil => rfl
  | cons w ws ih => exact (ih _).trans (answer_nextRef s w _)

variable {o : Option (Table κ)}

theorem refuseWaiters_coherent (waiters : List Pid) (h : Coherent env s o) :
    Coherent env (refuseWaiters s waiters) o := by
  induction waiters generalizing s with
  | nil => exact h
  | cons w ws ih => exact ih (h.answer_idle w rfl)

/-! ### The handlers of the store -/

theorem grantLease_id_lt (s : State κ γ) (k : κ) (e : Entry) (p : Pid) :
    (grantLease s k e p).1.id < (grantLease s k e p).2.2.nextRef :=
  Nat.lt_add_right 1 (Nat.lt_succ_self s.nextRef)

theorem grantWaiters_nextRef (k : κ) (waiters : List Pid) (e : Entry) (s : State κ γ) :
    s.nextRef ≤ (waiters.foldl (grantWaiter k) (e, s)).2.nextRef := by
  induction waiters generalizing e s with
  | nil => exact le_refl _
  | cons w ws ih =>
    have hgrant : s.nextRef ≤ (grantWaiter k (e, s) w).2.nextRef := by
      rw [grantWaiter, answer_nextRef]
      exact Nat.le_add_right s.nextRef 2
    exact le_trans hgrant (ih _ _)

theorem freeSlot_spec (h : freeSlot env st = some slot) :
    slot < env.capacity ∧ st.slots.get? slot = none ∧
      ∀ k p, st.pending.get? k = some p → p.slot ≠ slot := by
  have hmem := List.mem_range.1 (List.mem_of_find?_eq_some h)
  have hfind := List.find?_some h
  simp only [Bool.and_eq_true, Bool.not_eq_true', List.any_eq_false] at hfind
  refine ⟨hmem, ?_, fun k p hp => ?_⟩
  · cases hs : st.slots.get? slot with
    | none => rfl
    | some k =>
      rw [Assoc.hasKey, hs] at hfind
      cases hfind.1
  · simpa using hfind.2 (k, p) (Assoc.mem_toList.2 hp)

variable {bytes : ℕ} {p : Pid} {program : Program κ γ}

theorem handleReserve_coherent (h : Coherent env s (some st)) (hs : s.store = some st)
    (hkey : program.pinKey = some key) (hsize : env.externalSize program = some bytes) :
    Coherent env (handleReserve env s st p program key bytes)
      (handleReserve env s st p program key bytes).store := by
  unfold handleReserve
  split
  · rename_i e hentry
    split
    · rw [answer_store, hs]
      exact h.answer_idle p rfl
    · rw [answer_store]
      exact ((h.grantLease hentry p).setStore _).answer_installed p (grantLease_id_lt s _ e p)
  · rename_i hentry
    unfold reserveMissing
    split
    · rename_i pending hpending
      rw [answer_store]
      exact ((h.addWaiter hpending p).setStore _).answer_idle p rfl
    · rename_i hpending
      split
      · rw [answer_store, hs]
        exact h.answer_idle p rfl
      · rename_i slot hslot
        obtain ⟨hbound, hfree, hother⟩ := freeSlot_spec hslot
        split
        · rename_i hbudget
          rw [answer_store]
          -- the reservation is entered, then handed to its owner
          have h₁ := h.addPending (p := ⟨slot, s.nextRef, p, s.nextRef + 1, [], bytes⟩) hentry
            hpending hbound hfree hother rfl (of_decide_eq_true hbudget)
          refine (h₁.setStore _).answer p (fun i hi => ?_) (fun _ he => by cases he) rfl rfl
          cases hi
          refine ⟨⟨hkey, Nat.lt_add_right 1 (Nat.lt_succ_self _), hbound⟩, ?_⟩
          intro st' hst k q hq htok
          cases hst
          rcases Assoc.get?_put_cases hq with ⟨rfl, rfl⟩ | ⟨-, hq⟩
          · exact ⟨rfl, rfl, hsize⟩
          · have hlt := (h.table st rfl).pending_fresh k q hq
            exact absurd hlt (not_lt.2 (le_of_eq htok.symm))
        · rw [answer_store, hs]
          exact h.answer_idle p rfl

variable {k : κ} {pending : Pending}

/-- Cancelling an installation erases a slot that only the reservation had. -/
theorem dropReservation_coherent (h : Coherent env s (some st))
    (hk : st.pending.get? k = some pending) : Coherent env (eraseSlot s pending.slot)
      (some { st with pending := st.pending.delete k }) := by
  have hslot := ((h.table st rfl).pending_free k pending hk).2
  have h' := h.dropPending hk
  exact h'.eraseSlot (h'.unused hslot)

variable {i : Install κ γ}

theorem ownPending_some (h : ownPending st p i = some pending) :
    st.pending.get? i.key = some pending ∧ pending.owner = p ∧ pending.token = i.token := by
  obtain ⟨hk, hown⟩ := Option.filter_eq_some_iff.1 h
  exact ⟨hk, of_decide_eq_true hown⟩

theorem cancelInstall_coherent (h : Coherent env s (some st)) (hi : Entitled env s (some st) i)
    (hk : st.pending.get? i.key = some pending) :
    Coherent env (cancelInstall s st p i pending) (cancelInstall s st p i pending).store := by
  unfold cancelInstall
  rw [answer_store]
  have h₁ := dropReservation_coherent (h.demonitor pending.monitor) hk
  have h₂ := (refuseWaiters_coherent pending.waiters h₁).setStore
    { st with pending := st.pending.delete i.key }
  refine h₂.answer p (fun i' hi' => ?_) (fun _ he => by cases he) rfl rfl
  cases hi'
  refine ⟨?_, fun st' hst k q hq => ?_⟩
  · have hnext := refuseWaiters_nextRef pending.waiters
      (eraseSlot (s.demonitor pending.monitor) pending.slot)
    exact ⟨hi.key.1, lt_of_lt_of_eq hi.key.2.1 hnext.symm, hi.key.2.2⟩
  · cases hst
    exact hi.pending st rfl k q (Assoc.get?_of_delete hq)

theorem grantWaiters_coherent (k : κ) : ∀ (waiters : List Pid) (e : Entry) (s : State κ γ)
    (st : Table κ), st.entries.get? k = some e → Coherent env s (some st) →
    Coherent env (waiters.foldl (grantWaiter k) (e, s)).2
      (some { st with
        entries := st.entries.put k (waiters.foldl (grantWaiter k) (e, s)).1 })
  | [], e, s, st, hentry, h => by
    have hsame := h.editEntry (b := e) hentry ⟨rfl, rfl, rfl⟩ (fun _ _ hm => hm) fun _ _ _ => rfl
    exact hsame
  | w :: ws, e, s, st, hentry, h => by
    have h₁ := (h.grantLease hentry w).answer_installed w (grantLease_id_lt s k e w)
    have h₂ := grantWaiters_coherent k ws (grantLease s k e w).2.1 _ _ (Assoc.get?_put _ _ _) h₁
    rw [Assoc.put_put] at h₂
    exact h₂

theorem completeInstall_coherent (h : Coherent env s (some st))
    (hk : st.pending.get? i.key = some pending) (htok : pending.token = i.token)
    (hterm : persisted s pending.slot i.key i.token = true) :
    Coherent env (completeInstall s st p i pending) (completeInstall s st p i pending).store := by
  obtain ⟨q, hq⟩ : ∃ q, s.terms.get? pending.slot = some ⟨i.key, pending.token, q⟩ := by
    unfold persisted at hterm
    split at hterm
    · rename_i t ht
      obtain ⟨hkey, htoken⟩ := of_decide_eq_true hterm
      exact ⟨t.program, by rw [ht, htok, ← hkey, ← htoken]⟩
    · cases hterm
  unfold completeInstall
  rw [answer_store]
  have h₀ := (h.demonitor pending.monitor).commit hk hq
  rw [htok] at h₀
  have h₁ := h₀.grantLease (Assoc.get?_put _ _ _) p
  have h₂ := grantWaiters_coherent i.key pending.waiters _ _ _ (Assoc.get?_put _ _ _) h₁
  rw [Assoc.put_put, Assoc.put_put] at h₂
  exact (h₂.setStore _).answer_installed p
    (lt_of_lt_of_le (grantLease_id_lt _ _ _ p) (grantWaiters_nextRef i.key pending.waiters _ _))

theorem handleCommit_coherent (h : Coherent env s (some st)) (hs : s.store = some st)
    (hi : Entitled env s (some st) i) :
    Coherent env (handleCommit s st p i) (handleCommit s st p i).store := by
  unfold handleCommit
  split
  · rename_i pending hown
    obtain ⟨hk, -, htok⟩ := ownPending_some hown
    split
    · rename_i hterm
      exact completeInstall_coherent h hk htok hterm
    · exact cancelInstall_coherent h hi hk
  · rw [answer_store, hs]
    exact h.answer p (fun i' hi' => by cases hi'; exact hi) (fun _ he => by cases he) rfl rfl

theorem handleCancel_coherent (h : Coherent env s (some st)) (hs : s.store = some st)
    (hi : Entitled env s (some st) i) :
    Coherent env (handleCancel s st p i) (handleCancel s st p i).store := by
  unfold handleCancel
  split
  · rename_i pending hown
    exact cancelInstall_coherent h hi (ownPending_some hown).1
  · rw [answer_store, hs]
    exact h.answer p (fun i' hi' => by cases hi'; exact hi) (fun _ he => by cases he) rfl rfl

theorem handleCheckoutExisting_coherent (h : Coherent env s (some st)) (hs : s.store = some st)
    {leased : Lease κ → Client κ γ} {refused : Client κ γ}
    (hleased : ∀ l, ((leased l).install? = none ∧ (leased l).asks? = none) ∧ (leased l).isDead =
    false ∧ ∀ id, (leased l).held? = some id → id = l.id)
    (hrefused : ∀ i, refused.install? = some i → Entitled env s (some st) i)
    (hheld : refused.held? = none) (hasks : refused.asks? = none)
    (halive : refused.isDead = false) :
    Coherent env (handleCheckoutExisting s st p k leased refused)
      (handleCheckoutExisting s st p k leased refused).store := by
  unfold handleCheckoutExisting
  split
  · rename_i e hentry
    split
    · rw [answer_store, hs]
      exact h.answer p hrefused (fun _ he => by rw [hheld] at he; cases he) hasks halive
    · rw [answer_store]
      obtain ⟨⟨hinst, ha⟩, hlive, hid⟩ := hleased ⟨s.nextRef, k, e.slot, e.token⟩
      refine ((h.grantLease hentry p).setStore _).answer p
        (fun i hi => by rw [hinst] at hi; cases hi) (fun id he => ?_) ha hlive
      rw [hid id he]
      exact Nat.lt_add_right 1 (Nat.lt_succ_self _)
  · rw [answer_store, hs]
    exact h.answer p hrefused (fun _ he => by rw [hheld] at he; cases he) hasks halive

variable {e : Entry}

/-- An entry without leases goes with its slot, unless a forgotten lease is out on it. -/
theorem releaseEntry_coherent (h : Coherent env s (some st)) (hentry : st.entries.get? k = some e)
    (hempty : e.leases.size = 0) (hforgot : forgotten s k = false) :
    Coherent env (eraseSlot s e.slot) (some (removeEntry st k e)) := by
  have ht := h.table st rfl
  have hlive : ∀ id l, s.live.get? id = some l → l.lease.key ≠ k := by
    intro id l hl hk
    obtain ⟨e', he', -, -, hid⟩ := ht.live_entry id l hl
    rw [hk, hentry] at he'
    obtain ⟨m, hm⟩ := hid (not_forgotten hforgot hl hk)
    rw [← Option.some.inj he', Assoc.size_eq_zero.1 hempty id] at hm
    cases hm
  have hslot : (removeEntry st k e).slots.get? e.slot = none := Assoc.get?_delete _ _
  have h' := h.removeEntry hentry hlive
  exact h'.eraseSlot (h'.unused hslot)

theorem handleUnpin_coherent (h : Coherent env s (some st)) (hs : s.store = some st)
    (hsafe : (unpinErases st k && forgotten s k) = false) :
    Coherent env (handleUnpin s st p k) (handleUnpin s st p k).store := by
  unfold handleUnpin
  split
  · rename_i e hentry
    split
    · rename_i hempty
      rw [answer_store]
      have hforgot : forgotten s k = false := by
        have herases : unpinErases st k = true := by
          rw [unpinErases, hentry]
          exact decide_eq_true hempty
        rwa [herases, Bool.true_and] at hsafe
      exact ((releaseEntry_coherent h hentry hempty hforgot).setStore _).answer_idle p rfl
    · rw [answer_store]
      exact ((h.editEntry (b := { e with unpin := true }) hentry ⟨rfl, rfl, rfl⟩
        (fun _ _ hm => hm) fun _ _ _ => rfl).setStore _).answer_idle p rfl
  · rw [answer_store, hs]
    exact h.answer_idle p rfl

/-- An entry loses a lease that is not out any more, and goes when it was the last one. -/
theorem maybeReleaseEntry_coherent (h : Coherent env s (some st))
    (hentry : st.entries.get? k = some e) (hid : s.live.get? id = none)
    (hsafe : (releaseErases e id && forgotten s k) = false) :
    Coherent env (maybeReleaseEntry s st k { e with leases := e.leases.delete id })
      (maybeReleaseEntry s st k { e with leases := e.leases.delete id }).store := by
  have h' := h.editEntry (b := { e with leases := e.leases.delete id }) hentry ⟨rfl, rfl, rfl⟩
    (fun _ _ hm => Assoc.get?_of_delete hm) fun id' l hl => by
      refine (Assoc.get?_delete_ne _ fun he => ?_).symm
      rw [he, hid] at hl
      cases hl
  unfold maybeReleaseEntry
  split
  · rename_i hrel
    have hforgot : forgotten s k = false := by
      have herases : releaseErases e id = true := decide_eq_true hrel
      rwa [herases, Bool.true_and] at hsafe
    exact (releaseEntry_coherent h' (Assoc.get?_put _ _ _) hrel.1 hforgot).setStore _
  · exact h'.setStore _

variable {lease : Lease κ}

theorem handleCheckin_coherent (h : Coherent env s (some st)) (hs : s.store = some st)
    (hid : s.live.get? lease.id = none)
    (hsafe : ∀ e, st.entries.get? lease.key = some e → (releaseErases e lease.id && forgotten s
    lease.key) = false) :
    Coherent env (handleCheckin s st lease) (handleCheckin s st lease).store := by
  have hsame : Coherent env s s.store := hs ▸ h
  unfold handleCheckin
  split
  · rename_i e hentry
    split
    · rename_i m hm
      split
      · exact maybeReleaseEntry_coherent (h.demonitor m) hentry hid (hsafe e hentry)
      · exact hsame
    · exact hsame
  · exact hsame

theorem ownerLease_some {m id : Ref} (h : ownerLease st m = some (k, id, e)) :
    st.entries.get? k = some e ∧ e.leases.get? id = some m := by
  obtain ⟨⟨k', e'⟩, hmem, hfind⟩ := List.exists_of_findSome?_eq_some h
  obtain ⟨⟨id', m'⟩, hl, heq⟩ := Option.map_eq_some_iff.1 hfind
  cases heq
  have hbeq := List.find?_some hl
  have hm : m' = m := eq_of_beq hbeq
  have hmem' := Assoc.mem_toList.1 (List.mem_of_find?_eq_some hl)
  exact ⟨Assoc.mem_toList.1 hmem, hm ▸ hmem'⟩

theorem handleDown_coherent (h : Coherent env s (some st)) (hs : s.store = some st) {m : Ref}
    {owner : Pid} (hm : s.monitors.get? m = some owner) (hdead : s.clients owner = .dead)
    (hsafe : ∀ k id e, ownerLease st m = some (k, id, e) →
      (releaseErases e id && forgotten s k) = false) :
    Coherent env (handleDown (s.demonitor m) st m owner)
      (handleDown (s.demonitor m) st m owner).store := by
  have h' := h.demonitor m
  unfold handleDown
  split
  · rename_i k pending hfind
    have hk := Assoc.mem_toList.1 (List.mem_of_find?_eq_some hfind)
    exact (refuseWaiters_coherent pending.waiters (dropReservation_coherent h' hk)).setStore _
  · split
    · rename_i k id e hown
      obtain ⟨hentry, hlease⟩ := ownerLease_some hown
      refine maybeReleaseEntry_coherent h' hentry ?_ (hsafe k id e hown)
      -- the lease of a dead owner is not out
      cases hl : s.live.get? id with
      | none => exact hl
      | some l =>
        have ho := ((h.table st rfl).lease_live k e id m l hentry hlease hl).2.2 owner hm
        have halive := h.live_owner id l hl
        rw [← ho, hdead] at halive
        cases halive
    · exact (hs ▸ h' : Coherent env (s.demonitor m) s.store)

theorem serve_coherent (h : Coherent env s (some st)) (hs : s.store = some st) {r : Request κ γ}
    {t : ℕ}
    (hasks : ∀ program key bytes, (Client.calling r t).asks? = some (program, key, bytes) →
    program.pinKey = some key ∧ env.externalSize program = some bytes)
    (hinst : ∀ i, (Client.calling r t).install? = some i → Entitled env s (some st) i)
    (hsafe : ∀ key, r = .unpin key → (unpinErases st key && forgotten s key) = false) :
    Coherent env (serve env s st p r) (serve env s st p r).store := by
  cases r with
  | reserve program key bytes =>
    obtain ⟨hkey, hsize⟩ := hasks program key bytes rfl
    exact handleReserve_coherent h hs hkey hsize
  | commit i => exact handleCommit_coherent h hs (hinst i rfl)
  | cancel i => exact handleCancel_coherent h hs (hinst i rfl)
  | recover i =>
    exact handleCheckoutExisting_coherent h hs
      (fun l => ⟨⟨rfl, rfl⟩, rfl, fun id he => by cases he; rfl⟩)
      (fun i' hi' => by cases hi'; exact hinst i rfl) rfl rfl rfl
  | checkout key =>
    show Coherent env (handleCheckoutExisting s st p key (fun lease => .returned (.leased lease))
      (.returned .unavailable)) _
    refine handleCheckoutExisting_coherent h hs (fun l => ⟨⟨rfl, rfl⟩, rfl, fun id he => ?_⟩)
      (fun i' hi' => ?_) rfl rfl rfl
    · cases he
    · cases hi'
  | unpin key => exact handleUnpin_coherent h hs (hsafe key rfl)

/-! ### The store dies and starts -/

theorem storeDies_coherent (h : Coherent env s (some st)) :
    Coherent env { s with store := none, monitors := ∅, inbox := [] } none :=
  { h with
    table := fun _ he => nomatch he
    monitor_fresh := fun _ _ hm => nomatch hm
    inbox_gone := fun _ hl => nomatch hl }

theorem restorableBytes_some (h : restorableBytes env program = some bytes) :
    env.externalSize program = some bytes := by
  unfold restorableBytes at h
  split at h
  · exact (Option.filter_eq_some_iff.1 h).1
  · cases h

theorem restores_distinct (h : restores env s = true) : KeysDistinct env s.terms := by
  intro i j t u ht hu hbt hbu hk
  have hnodup := (of_decide_eq_true h).1
  have heq := List.inj_on_of_nodup_map hnodup (List.mem_filter.2 ⟨Assoc.mem_toList.2 ht, hbt⟩)
    (List.mem_filter.2 ⟨Assoc.mem_toList.2 hu, hbu⟩) hk
  exact (Prod.mk.inj heq).1

theorem restores_live (h : restores env s = true) {t : Term κ γ} (hl : s.live.get? id = some l)
    (ht : s.terms.get? l.lease.slot = some t) : (restorableBytes env t.program).isSome ∧
      restorableBelow env s.terms (l.lease.slot + 1) ≤ maximumTotalResidencyBytes := by
  have hall := List.all_eq_true.1 (of_decide_eq_true h).2 (id, l) (Assoc.mem_toList.2 hl)
  rw [ht] at hall
  exact ((Bool.and_eq_true _ _).mp hall).imp (fun hb => hb) of_decide_eq_true

theorem storeStarts_coherent (h : Coherent env s none) (hsafe : restores env s = true) :
    Coherent env
      { s with
        store := some (restoreSlots env s.terms).1
        terms := (restoreSlots env s.terms).2
        incarnation := s.incarnation + 1 }
      (some (restoreSlots env s.terms).1) := by
  have hr : Restored env s.terms env.capacity (restoreSlots env s.terms).1
      (restoreSlots env s.terms).2 := restoreBelow_restored (restores_distinct hsafe) env.capacity
  have hlive : ∀ id l, s.live.get? id = some l → ∃ p, l.program = some p ∧
      (restoreSlots env s.terms).2.get? l.lease.slot =
        some ⟨l.lease.key, l.lease.token, p⟩ := by
    intro id l hl
    obtain ⟨p, hp, hterm⟩ := h.live_term id l hl
    obtain ⟨hfits, hbelow⟩ := restores_live hsafe hl hterm
    exact ⟨p, hp, hr.kept _ _ hterm hfits hbelow⟩
  refine { h with
    table := fun st hst => ?_
    live_term := hlive
    live_incarnation := fun id l hl => Nat.le_succ_of_le (h.live_incarnation id l hl)
    term_key := fun i t hi => h.term_key i t (hr.sub i t hi)
    install_key := h.install_key, live_id := h.live_id, live_owner := h.live_owner
    monitor_fresh := h.monitor_fresh, held_fresh := h.held_fresh, asks_key := h.asks_key
    inbox_gone := h.inbox_gone }
  cases hst
  have hnopending : ∀ k, (restoreSlots env s.terms).1.pending.get? k = none := fun k => by
    rw [hr.pending]
    rfl
  constructor
  case entry_term =>
    intro k e he
    obtain ⟨-, -, p, hp, hb⟩ := hr.entry k e he
    exact ⟨p, hp, restorableBytes_some hb⟩
  case slot_entry =>
    intro i k
    rw [hr.slot]
    constructor
    · rintro ⟨hi, t, ht, rfl⟩
      exact hr.found i t hi ht
    · rintro ⟨e, he, rfl⟩
      obtain ⟨hs, -, p, hp, -⟩ := hr.entry k e he
      exact ⟨hs, _, hp, rfl⟩
  case entry_bound => exact fun k e he => (hr.entry k e he).1
  case pending_bound => exact fun k p hp => by rw [hnopending] at hp; cases hp
  case pending_free => exact fun k p hp => by rw [hnopending] at hp; cases hp
  case pending_slot => exact fun k k' p p' hp => by rw [hnopending] at hp; cases hp
  case residency => exact hr.residency
  case budget =>
    rw [pendingBytes, hr.pending]
    exact hr.budget
  case pending_fresh => exact fun k p hp => by rw [hnopending] at hp; cases hp
  case pending_install => exact fun c i k p _ hp => by rw [hnopending] at hp; cases hp
  case pending_term => exact fun i t k p _ hp => by rw [hnopending] at hp; cases hp
  case live_entry =>
    intro id l hl
    obtain ⟨p, -, hterm⟩ := hlive id l hl
    have hbound := (h.term_key _ _ (hr.sub _ _ hterm)).2.2
    obtain ⟨e, he, hslot⟩ := hr.found _ _ hbound hterm
    obtain ⟨-, -, p', hp', -⟩ := hr.entry _ e he
    rw [hslot, hterm] at hp'
    refine ⟨e, he, hslot, ?_, fun hinc => ?_⟩
    · exact (congrArg Term.token (Option.some.inj hp')).symm
    · have hle := h.live_incarnation id l hl
      rw [hinc] at hle
      exact absurd hle (Nat.not_succ_le_self _)
  case lease_live =>
    intro k e id m l he hm
    rw [(hr.entry k e he).2.1] at hm
    cases hm
  case lease_fresh =>
    intro k e id m he hm
    rw [(hr.entry k e he).2.1] at hm
    cases hm

/-! ### The steps of a client -/

/-- A client goes on from `c` to `c'`: it takes nothing new, and dies only if it is dead. -/
structure Client.Follows (env : Env κ γ) (c c' : Client κ γ) : Prop where
  install : ∀ i, c'.install? = some i → c.install? = some i
  held : ∀ id, c'.held? = some id → c.held? = some id
  asks : ∀ program key bytes, c'.asks? = some (program, key, bytes) →
    c.asks? = some (program, key, bytes) ∨
      program.pinKey = some key ∧ env.externalSize program = some bytes
  dead : c'.isDead = true → c.isDead = true

variable {c : Client κ γ}

theorem Coherent.follow (h : Coherent env s o) (hc : (s.clients p).Follows env c) :
    Coherent env (s.setClient p c) o := by
  refine h.setClient (fun i hi => h.entitled (hc.install i hi))
    (fun id hid => h.held_fresh p id (hc.held id hid)) (fun program key bytes ha => ?_)
    fun hd id l hl ho => ?_
  · rcases hc.asks program key bytes ha with ha | ha
    · exact h.asks_key p program key bytes ha
    · exact ha
  · have halive := h.live_owner id l hl
    rw [ho, hc.dead hd] at halive
    cases halive

theorem Client.follows_idle (c : Client κ γ) {c' : Client κ γ} (hc : c'.isIdle = true) :
    c.Follows env c' := by
  obtain ⟨⟨⟨hi, hh⟩, ha⟩, hd⟩ := Client.isIdle_iff.1 hc
  constructor
  · exact fun i h => by rw [hi] at h; cases h
  · exact fun id h => by rw [hh] at h; cases h
  · exact fun _ _ _ h => by rw [ha] at h; cases h
  · exact fun h => by rw [hd] at h; cases h

theorem pin_follows (c : Client κ γ) (program : Program κ γ) :
    c.Follows env (pin env program) := by
  unfold pin
  split
  · rename_i key size hkey hsize
    split
    · split
      · rename_i bytes hbytes
        split
        · refine ⟨fun _ hi => (by cases hi), fun _ hi => (by cases hi), fun _ _ _ ha => ?_,
            fun hd => (by cases hd)⟩
          cases ha
          exact .inr ⟨hkey, hbytes⟩
        · exact c.follows_idle rfl
      · exact c.follows_idle rfl
    · exact c.follows_idle rfl
  · split <;> exact c.follows_idle rfl
  · exact c.follows_idle rfl

theorem ready_follows (r : Request κ γ) (t : ℕ) :
    (Client.ready r).Follows env (.calling r t) := by
  refine ⟨fun i hi => ?_, fun _ hi => (by cases hi), fun _ _ _ ha => .inl ?_, fun hd => (by cases hd)⟩
  · cases r <;> exact hi
  · cases r <;> exact ha

theorem failed_follows (r : Request κ γ) (t : ℕ) :
    (Client.calling r t).Follows env r.failed := by
  cases r with
  | reserve => exact Client.follows_idle _ rfl
  | checkout => exact Client.follows_idle _ rfl
  | unpin => exact Client.follows_idle _ rfl
  | _ =>
    exact ⟨fun _ hi => hi, fun _ hi => (by cases hi), fun _ _ _ ha => (by cases ha), fun hd => (by cases hd)⟩

theorem dead_follows (hc : c.isDead = true) : c.Follows env .dead :=
  ⟨fun _ hi => (by cases hi), fun _ hi => (by cases hi), fun _ _ _ ha => (by cases ha), fun _ => hc⟩

theorem sendCheckin_coherent (h : Coherent env s o) (hid : lease.id < s.nextRef) :
    Coherent env (sendCheckin s lease) o := by
  have hgone : (s.live.delete lease.id).get? lease.id = none := Assoc.get?_delete _ _
  have h₁ := h.setLive fun _ _ => Assoc.get?_of_delete (m := s.live) (k := lease.id)
  refine h₁.setInbox fun l hl => ?_
  split at hl
  · rcases List.mem_cons.1 hl with rfl | hl
    · exact ⟨hid, hgone⟩
    · exact h₁.inbox_gone l hl
  · exact h₁.inbox_gone l hl

theorem persist_coherent (h : Coherent env s s.store) (hp : s.clients p = .reserved i)
    (hsafe : holdsReservation s p i = true ∨ unused s i.slot = true) :
    Coherent env { s with terms := s.terms.put i.slot ⟨i.key, i.token, i.program⟩ } s.store := by
  have hinst : (s.clients p).install? = some i := by rw [hp]; rfl
  refine h.persist hinst ?_
  rcases hsafe with hheld | hfree
  · obtain ⟨st, hst, hown⟩ := (Option.any_eq_true _ _).1 hheld
    obtain ⟨pending, hpending⟩ := Option.isSome_iff_exists.1 hown
    obtain ⟨hk, -, htok⟩ := ownPending_some hpending
    have ht := h.table st hst
    have hslot := (ht.pending_free i.key pending hk).2
    rw [(ht.pending_install p i i.key pending hinst hk htok).2.1] at hslot
    rw [hst] at h ⊢
    exact h.unused hslot
  · exact unused_iff.1 hfree

/-! ### One step -/

variable {s' : State κ γ}

theorem call_coherent (h : Coherent env s s.store) (hstep : step env s (.call p) = some s') :
    Coherent env s' s'.store := by
  unfold step at hstep
  dsimp only at hstep
  split at hstep
  · rename_i r hp
    cases hstep
    exact h.follow (hp ▸ ready_follows r s.incarnation)
  · cases hstep

theorem served_coherent (h : Coherent env s s.store) (hsafe : safe env s (.serve p) = true)
    (hstep : step env s (.serve p) = some s') : Coherent env s' s'.store := by
  unfold step at hstep
  unfold safe at hsafe
  dsimp only at hstep hsafe
  split at hstep
  · rename_i r t st hp hst
    rw [hp, hst] at hsafe
    split at hstep
    · cases hstep
      rw [hst] at h
      refine serve_coherent h hst (t := t) (fun program key bytes ha => ?_) (fun i hi => ?_)
        fun key hr => ?_
      · exact h.asks_key p program key bytes (hp ▸ ha)
      · exact h.entitled (p := p) (hp ▸ hi)
      · subst hr
        exact Bool.not_eq_true' _ ▸ hsafe
    · cases hstep
  · rename_i r t st hp hst
    rw [hp, hst] at hsafe
    split at hstep
    · cases hstep
      rw [hst] at h
      -- the sender is dead: it keeps nothing, but the call it made is served
      have hdead : (s.clients p).isDead = true := by rw [hp]; rfl
      have h₁ := h.follow (c := .dead) (p := p) (dead_follows hdead)
      refine serve_coherent h₁ hst (t := t) (fun program key bytes ha => ?_) (fun i hi => ?_)
        fun key hr => ?_
      · refine h.asks_key p program key bytes ?_
        rw [hp]
        cases r <;> exact ha
      · have hentitled := h.entitled (p := p) (i := i) (by rw [hp]; cases r <;> exact hi)
        exact ⟨hentitled.key, hentitled.pending⟩
      · subst hr
        exact Bool.not_eq_true' _ ▸ hsafe
    · cases hstep
  · cases hstep

theorem fail_coherent (h : Coherent env s s.store) (hstep : step env s (.fail p) = some s') :
    Coherent env s' s'.store := by
  unfold step at hstep
  dsimp only at hstep
  split at hstep
  · rename_i r t hp
    split at hstep
    · cases hstep
      exact h.follow (hp ▸ failed_follows r t)
    · cases hstep
  · split at hstep
    · cases hstep
      exact h.follow (Client.follows_idle _ rfl)
    · cases hstep
  · rename_i r t hp
    split at hstep
    · cases hstep
      exact h.follow (dead_follows (by rw [hp]; rfl))
    · cases hstep
  · cases hstep

theorem persisted_coherent (h : Coherent env s s.store) {ok : Bool}
    (hsafe : safe env s (.persist p ok) = true) (hstep : step env s (.persist p ok) = some s') :
    Coherent env s' s'.store := by
  unfold step at hstep
  unfold safe at hsafe
  dsimp only at hstep hsafe
  split at hstep
  · rename_i i hp
    rw [hp] at hsafe
    have hnext : ∀ r : Request κ γ, (Client.ready r).install? = some i →
        (Client.ready r).asks? = none → (s.clients p).Follows env (.ready r) := by
      intro r hi ha
      rw [hp]
      refine ⟨fun i' hi' => ?_, fun _ hi => (by cases hi), fun _ _ _ ha' => ?_,
        fun hd => (by cases hd)⟩
      · rw [hi] at hi'
        exact hi'
      · rw [ha] at ha'
        cases ha'
    split at hstep
    · rename_i hok
      cases hstep
      change (!ok || holdsReservation s p i || unused s i.slot) = true at hsafe
      rw [hok, Bool.not_true, Bool.false_or, Bool.or_eq_true] at hsafe
      exact (persist_coherent h hp hsafe).follow (hnext (.commit i) rfl rfl)
    · cases hstep
      exact h.follow (hnext (.cancel i) rfl rfl)
  · cases hstep

/-- **One step.**  A step that does no damage keeps the store coherent. -/
theorem step_coherent (h : Coherent env s s.store) {e : Event κ γ} (hsafe : safe env s e = true)
    (hstep : step env s e = some s') : Coherent env s' s'.store := by
  cases e with
  | pin p program =>
    obtain ⟨-, he⟩ := Option.ite_none_right_eq_some.1 hstep
    cases he
    exact h.follow (pin_follows _ program)
  | checkout p key =>
    obtain ⟨-, he⟩ := Option.ite_none_right_eq_some.1 hstep
    cases he
    exact h.follow (Client.follows_idle _ rfl)
  | unpin p key =>
    obtain ⟨-, he⟩ := Option.ite_none_right_eq_some.1 hstep
    cases he
    exact h.follow (Client.follows_idle _ rfl)
  | checkin p lease =>
    obtain ⟨⟨-, hid⟩, he⟩ := Option.ite_none_right_eq_some.1 hstep
    cases he
    exact (sendCheckin_coherent h hid).follow (Client.follows_idle _ rfl)
  | call p => exact call_coherent h hstep
  | serve p => exact served_coherent h hsafe hstep
  | fail p => exact fail_coherent h hstep
  | persist p ok => exact persisted_coherent h hsafe hstep
  | finish p =>
    unfold step at hstep
    dsimp only at hstep
    split at hstep
    · rename_i lease hp
      cases hstep
      have hid := h.held_fresh p lease.id (by rw [hp]; rfl)
      exact (sendCheckin_coherent h hid).follow (Client.follows_idle _ rfl)
    · cases hstep
  | check p =>
    unfold step at hstep
    dsimp only at hstep
    split at hstep
    · rename_i i hp
      cases hstep
      refine h.follow ?_
      split
      · rw [hp]
        exact ⟨fun _ hi => hi, fun _ hi => (by cases hi), fun _ _ _ ha => (by cases ha),
          fun hd => (by cases hd)⟩
      · exact Client.follows_idle _ rfl
    · cases hstep
  | erase p =>
    unfold step at hstep
    unfold safe at hsafe
    dsimp only at hstep hsafe
    split at hstep
    · rename_i i hp
      cases hstep
      rw [hp] at hsafe
      exact (h.eraseSlot (unused_iff.1 hsafe)).follow (Client.follows_idle _ rfl)
    · cases hstep
  | die p =>
    obtain ⟨-, he⟩ := Option.ite_none_left_eq_some.1 hstep
    cases he
    exact h.killClient p
  | deliver lease =>
    unfold step at hstep
    unfold safe at hsafe
    dsimp only at hstep hsafe
    split at hstep
    · rename_i st hst
      obtain ⟨hmem, he⟩ := Option.ite_none_right_eq_some.1 hstep
      cases he
      rw [hst] at h hsafe
      have hinbox : ∀ l ∈ s.inbox.erase lease, l.id < s.nextRef ∧ s.live.get? l.id = none :=
        fun l hl => h.inbox_gone l (List.mem_of_mem_erase hl)
      refine handleCheckin_coherent (h.setInbox hinbox) hst (h.inbox_gone lease hmem).2 fun e he => ?_
      rw [Option.bind_some, he] at hsafe
      exact Bool.not_eq_true' _ ▸ hsafe
    · cases hstep
  | down monitor =>
    unfold step at hstep
    unfold safe at hsafe
    dsimp only at hstep hsafe
    split at hstep
    · rename_i st owner hst hm
      obtain ⟨hdead, he⟩ := Option.ite_none_right_eq_some.1 hstep
      cases he
      rw [hst] at h hsafe
      refine handleDown_coherent h hst hm hdead fun k id e he => ?_
      rw [Option.bind_some, he] at hsafe
      exact Bool.not_eq_true' _ ▸ hsafe
    · cases hstep
  | storeDies =>
    unfold step at hstep
    dsimp only at hstep
    split at hstep
    · rename_i st hst
      cases hstep
      exact storeDies_coherent (hst ▸ h)
    · cases hstep
  | storeStarts =>
    unfold step at hstep
    dsimp only at hstep
    split at hstep
    · cases hstep
    · rename_i hst
      cases hstep
      exact storeStarts_coherent (hst ▸ h) hsafe

theorem initial_coherent : Coherent env (initial : State κ γ) none := by
  constructor
  case table => exact fun _ hst => (nomatch hst)
  case live_term => exact fun _ _ hl => (nomatch hl)
  case live_id => exact fun _ _ hl => (nomatch hl)
  case live_owner => exact fun _ _ hl => (nomatch hl)
  case live_incarnation => exact fun _ _ hl => (nomatch hl)
  case term_key => exact fun _ _ hl => (nomatch hl)
  case install_key => exact fun _ _ hi => (nomatch hi)
  case monitor_fresh => exact fun _ _ hm => (nomatch hm)
  case held_fresh => exact fun _ _ hm => (nomatch hm)
  case asks_key => exact fun _ _ _ _ hm => (nomatch hm)
  case inbox_gone => exact fun _ hl => (nomatch hl)

/-! ### Runs -/

/-- What the store promises: the slot of every entry holds its own term, so that a lease out
fetches its program; slots are not shared; capacity and residency are respected. -/
structure LeaseSafe (env : Env κ γ) (s : State κ γ) : Prop where
  entry_term : ∀ st, s.store = some st → ∀ k e, st.entries.get? k = some e →
    ∃ p, s.terms.get? e.slot = some ⟨k, e.token, p⟩ ∧ p.pinKey = some k ∧
      env.externalSize p = some e.residencyBytes
  lease_fetch : ∀ id l, s.live.get? id = some l →
    ∃ p, l.program = some p ∧ p.pinKey = some l.lease.key ∧ fetch s l.lease = some p
  entry_slots : ∀ st, s.store = some st → ∀ k k' e e', st.entries.get? k = some e →
    st.entries.get? k' = some e' → e.slot = e'.slot → k = k'
  pending_slots : ∀ st, s.store = some st → ∀ k k' p p', st.pending.get? k = some p →
    st.pending.get? k' = some p' → p.slot = p'.slot → k = k'
  entry_pending : ∀ st, s.store = some st → ∀ k k' e p, st.entries.get? k = some e →
    st.pending.get? k' = some p → e.slot ≠ p.slot
  capacity : ∀ st, s.store = some st → st.entries.size + st.pending.size ≤ env.capacity
  residency : ∀ st, s.store = some st →
    st.residencyBytes = st.entries.sumBy fun _ e => e.residencyBytes
  budget : ∀ st, s.store = some st →
    st.residencyBytes + pendingBytes st ≤ maximumTotalResidencyBytes

theorem Tabled.entry_slots (h : Tabled env s st) {k k' : κ} {e e' : Entry}
    (he : st.entries.get? k = some e) (he' : st.entries.get? k' = some e')
    (hs : e.slot = e'.slot) : k = k' := by
  have h₁ := (h.slot_entry e'.slot k).2 ⟨e, he, hs⟩
  have h₂ := (h.slot_entry e'.slot k').2 ⟨e', he', rfl⟩
  rw [h₁] at h₂
  exact Option.some.inj h₂

theorem Tabled.entry_pending (h : Tabled env s st) {k k' : κ} {p : Pending}
    (he : st.entries.get? k = some e) (hp : st.pending.get? k' = some p) : e.slot ≠ p.slot := by
  intro hs
  have h₁ := (h.slot_entry p.slot k).2 ⟨e, he, hs⟩
  rw [(h.pending_free k' p hp).2] at h₁
  cases h₁

theorem Tabled.capacity (h : Tabled env s st) :
    st.entries.size + st.pending.size ≤ env.capacity := by
  have hentries : (st.entries.toList.map fun x => x.2.slot).Nodup := by
    refine (List.Nodup.of_map _ (Assoc.nodup_keys_toList st.entries)).map_on ?_
    rintro ⟨k, e⟩ hx ⟨k', e'⟩ hy hs
    have he := Assoc.mem_toList.1 hx
    have he' := Assoc.mem_toList.1 hy
    cases h.entry_slots he he' hs
    cases he.symm.trans he'
    rfl
  have hpending : (st.pending.toList.map fun x => x.2.slot).Nodup := by
    refine (List.Nodup.of_map _ (Assoc.nodup_keys_toList st.pending)).map_on ?_
    rintro ⟨k, p⟩ hx ⟨k', p'⟩ hy hs
    have hp := Assoc.mem_toList.1 hx
    have hp' := Assoc.mem_toList.1 hy
    cases h.pending_slot k k' p p' hp hp' hs
    cases hp.symm.trans hp'
    rfl
  have hnodup := List.nodup_append'.2 ⟨hentries, hpending, fun slot hx hy => by
    obtain ⟨⟨k, e⟩, he, rfl⟩ := List.mem_map.1 hx
    obtain ⟨⟨k', p⟩, hp, hs⟩ := List.mem_map.1 hy
    exact h.entry_pending (Assoc.mem_toList.1 he) (Assoc.mem_toList.1 hp) hs.symm⟩
  have hsub : (st.entries.toList.map fun x => x.2.slot) ++
      (st.pending.toList.map fun x => x.2.slot) ⊆ List.range env.capacity := by
    intro slot hx
    rw [List.mem_range]
    rcases List.mem_append.1 hx with hx | hx
    · obtain ⟨⟨k, e⟩, he, rfl⟩ := List.mem_map.1 hx
      exact h.entry_bound k e (Assoc.mem_toList.1 he)
    · obtain ⟨⟨k, p⟩, hp, rfl⟩ := List.mem_map.1 hx
      exact h.pending_bound k p (Assoc.mem_toList.1 hp)
  have hlen := (hnodup.subperm hsub).length_le
  rw [List.length_append, List.length_map, List.length_map, List.length_range,
    Assoc.length_toList, Assoc.length_toList] at hlen
  exact hlen

theorem Coherent.leaseSafe (h : Coherent env s s.store) : LeaseSafe env s := by
  constructor
  case entry_term =>
    intro st hst k e he
    obtain ⟨p, hterm, hsize⟩ := (h.table st hst).entry_term k e he
    exact ⟨p, hterm, (h.term_key _ _ hterm).1, hsize⟩
  case lease_fetch =>
    intro id l hl
    obtain ⟨p, hp, hterm⟩ := h.live_term id l hl
    refine ⟨p, hp, (h.term_key _ _ hterm).1, ?_⟩
    rw [fetch, hterm]
    exact if_pos ⟨rfl, rfl⟩
  case entry_slots => exact fun st hst _ _ _ _ => (h.table st hst).entry_slots
  case pending_slots => exact fun st hst => (h.table st hst).pending_slot
  case entry_pending => exact fun st hst _ _ _ _ => (h.table st hst).entry_pending
  case capacity => exact fun st hst => (h.table st hst).capacity
  case residency => exact fun st hst => (h.table st hst).residency
  case budget => exact fun st hst => (h.table st hst).budget

/-- **The store.**  In every run whose steps do no damage, every state reached keeps the
promise. -/
theorem store_leaseSafe {s : State κ γ}
    (h : (machine env).ReachableIf (fun s e => safe env s e = true) s) : LeaseSafe env s := by
  refine Coherent.leaseSafe (Machine.ReachableIf.invariant (I := fun s => Coherent env s s.store)
    ?_ ?_ h)
  · rintro s ⟨-, -, rfl⟩
    exact initial_coherent
  · intro s e s' hs hok hstep
    exact step_coherent hs hok hstep

/-! ### Two runs -/

/-- Two slots, and every program is of ten bytes and verifies. -/
def smallEnv : Env ℕ Unit := ⟨fun _ => some 10, fun _ => true, 2⟩

def keyedProgram (key : ℕ) : Program ℕ Unit := ⟨some key, some 5, ()⟩

/-- A program is pinned and leased; the store dies and starts again with the lease out. -/
def restartUnderLease : List (Event ℕ Unit) :=
  [.storeStarts, .pin 1 (keyedProgram 7), .call 1, .serve 1, .persist 1 true, .call 1, .serve 1,
    .finish 1, .deliver ⟨2, 7, 0, 0⟩, .checkout 2 7, .call 2, .serve 2, .storeDies, .storeStarts]

def afterRestart : State ℕ Unit :=
  ((machine smallEnv).execIf (safe smallEnv) initial restartUnderLease).get (by decide)

/-- In the run above the lease outlives the store that granted it. -/
theorem store_leaseSafe_restart :
    LeaseSafe smallEnv afterRestart ∧ afterRestart.incarnation = 2 ∧ afterRestart.live.size = 1 :=
  ⟨store_leaseSafe ⟨initial, restartUnderLease, ⟨by decide, by decide, rfl⟩,
    Machine.guardedRun_of_execIf (Option.some_get _).symm⟩, by decide, by decide⟩

/-- A process is given slot 0 and the store restarts before it writes; the slot is given to a
second program, which is committed and leased; then the first process writes. -/
def staleWriter : List (Event ℕ Unit) :=
  [.storeStarts, .pin 1 (keyedProgram 1), .call 1, .serve 1, .storeDies, .storeStarts,
    .pin 2 (keyedProgram 2), .call 2, .serve 2, .persist 2 true, .call 2, .serve 2, .finish 2,
    .deliver ⟨4, 2, 0, 2⟩, .checkout 3 2, .call 3, .serve 3, .persist 1 true]

def afterStaleWriter : State ℕ Unit :=
  ((machine smallEnv).exec initial staleWriter).get (by decide)

/-- After the run above the entry of key 2 is on slot 0, which holds the term of key 1, and the
lease of the third process fetches nothing. -/
theorem store_staleWriter :
    (machine smallEnv).Reachable afterStaleWriter ∧ ¬ LeaseSafe smallEnv afterStaleWriter ∧
      (afterStaleWriter.live.get? 6).bind (fun l => fetch afterStaleWriter l.lease) = none ∧
      (afterStaleWriter.live.get? 6).isSome := by
  refine ⟨Machine.reachable_of_exec ⟨by decide, by decide, rfl⟩ (Option.some_get _).symm,
    fun h => ?_, by decide, by decide⟩
  obtain ⟨l, hl⟩ := Option.isSome_iff_exists.1
    (show (afterStaleWriter.live.get? 6).isSome = true by decide)
  obtain ⟨p, -, -, hfetch⟩ := h.lease_fetch 6 l hl
  have hnone : (afterStaleWriter.live.get? 6).bind (fun l => fetch afterStaleWriter l.lease) =
      none := by decide
  rw [hl, Option.bind_some, hfetch] at hnone
  cases hnone

end QuickBeam.Vm.Program.Store
