import QuickBeam.Vm.Compiler.PoolInvariant

/-!
# Every message keeps the pool coherent

The handlers are chained from the operations of `PoolInvariant`.  The lemmas are total: from a
coherent state a handler returns a state, so the pool never crashes on a missing key, and the
state it returns is coherent again.  `pool_invariant` is the result over all runs.
-/

set_option linter.unusedSectionVars false

namespace QuickBeam.Vm.Compiler.Pool

open QuickBeam.Lib

variable {κ α ρ : Type}

/-! ### Folds over the waiters of a slot -/

def failWaiter (reason : Reason ρ) (s : State κ ρ) (w : Waiter) : State κ ρ :=
  reply (demonitorWaiter s w) w.origin (.error (.compilerCompileFailed reason))

theorem foldl_failWaiter (reason : Reason ρ) (ws : List Waiter) (s : State κ ρ) :
    ws.foldl (failWaiter reason) s =
      { s with
        monitorIndex := ws.foldl (fun idx w => idx.delete w.monitor) s.monitorIndex
        replies := (ws.map fun w =>
          (w.origin, .error (.compilerCompileFailed reason))).reverse ++ s.replies } := by
  induction ws generalizing s with
  | nil => rfl
  | cons w ws ih =>
    rw [List.foldl_cons, ih]
    simp [failWaiter, reply, demonitorWaiter]

theorem foldl_reply (reason : Reason ρ) (ws : List Waiter) (s : State κ ρ) :
    ws.foldl (fun s w => reply s w.origin (.error (.compilerCompileFailed reason))) s =
      { s with
        replies := (ws.map fun w =>
          (w.origin, .error (.compilerCompileFailed reason))).reverse ++ s.replies } := by
  induction ws generalizing s with
  | nil => rfl
  | cons w ws ih =>
    rw [List.foldl_cons, ih]
    simp [reply]

theorem foldl_demonitorWaiter (ws : List Waiter) (s : State κ ρ) :
    ws.foldl demonitorWaiter s =
      { s with monitorIndex := ws.foldl (fun idx w => idx.delete w.monitor) s.monitorIndex } := by
  induction ws generalizing s with
  | nil => rfl
  | cons w ws ih =>
    rw [List.foldl_cons, ih]
    rfl

variable [LinearOrder κ] {backend : Backend α ρ}
variable {s₀ s : State κ ρ} {loose : List (Module × Waiter)} {pending : List From}

/-- The mode and the drain in progress are the same in both states. -/
def SameDrain (s s' : State κ ρ) : Prop := s'.mode = s.mode ∧ s'.drain = s.drain

theorem SameDrain.trans {s₁ s₂ s₃ : State κ ρ} (h : SameDrain s₁ s₂) (h' : SameDrain s₂ s₃) :
    SameDrain s₁ s₃ :=
  ⟨h'.1.trans h.1, h'.2.trans h.2⟩

/-! ### Leases -/

variable {k : κ} {m : Module} {slot : Slot κ ρ}

theorem issueLease_spec (h : Coherent s₀ s loose pending) (hslot : s.slots.get? m = some slot)
    (hk : slot.readyKey? = some k) (owner : Pid) :
    ∃ lease s', issueLease s m owner = some (lease, s') ∧ Coherent s₀ s' loose pending ∧
      s'.tasks = s.tasks ∧ s'.replies = s.replies ∧ SameDrain s s' ∧
      ∃ slot', s'.slots.get? m = some slot' ∧ slot'.readyKey? = some k := by
  obtain ⟨n, u, hst⟩ := Slot.status_of_readyKey? hk
  have hm := h.slot_module m slot hslot
  refine ⟨_, _, issueLease_eq hm hslot hst owner, ?_, rfl, rfl, ⟨rfl, rfl⟩,
    { slot with status := .ready k (n + 1) (s.clock + 1) }, ?_, rfl⟩
  · subst hm
    exact leased_coherent h hslot hst owner
  · subst hm
    exact Assoc.get?_put _ _ _

variable {record : LeaseRecord κ}

theorem releaseLease_spec (h : Coherent s₀ s loose pending) {token : Ref}
    (hrec : s.leases.get? token = some record) :
    ∃ s', releaseLease s token record = some s' ∧ Coherent s₀ s' loose pending := by
  obtain ⟨-, slot, hslot, hk, -⟩ := h.lease_live token record hrec
  obtain ⟨n, u, hst⟩ := Slot.status_of_readyKey? hk
  exact ⟨_, releaseLease_eq hslot hst, released_coherent h hrec hslot hst⟩

/-! ### The end of a compilation -/

theorem grantWaiters_spec (m : Module) (k : κ) : ∀ (ws : List Waiter) (s : State κ ρ),
    Coherent s₀ s (ws.map fun w => (m, w)) pending →
    (∃ slot, s.slots.get? m = some slot ∧ slot.readyKey? = some k) →
    ∃ s', ws.foldlM (grantWaiter m) s = some s' ∧ Coherent s₀ s' [] pending ∧
      s'.tasks = s.tasks ∧ SameDrain s s' ∧ s.replies <:+ s'.replies ∧
      ∀ w ∈ ws, w.origin ∈ s'.replies.map Prod.fst
  | [], s, h, _ => ⟨s, rfl, h, rfl, ⟨rfl, rfl⟩, List.suffix_refl _, fun _ hw => (nomatch hw)⟩
  | w :: ws, s, h, ⟨slot, hslot, hk⟩ => by
    obtain ⟨lease, s₁, heq, h₁, htasks, hreplies, hsame, hready⟩ :=
      issueLease_spec (demonitorWaiter_coherent h) hslot hk w.origin.owner
    have hstep : grantWaiter m s w = some (reply s₁ w.origin (.lease lease)) := by
      rw [grantWaiter, heq]
      rfl
    obtain ⟨s', hfold, h', htasks', hsame', hsuf, hall⟩ :=
      grantWaiters_spec m k ws _ (reply_coherent h₁ (.lease lease)) hready
    refine ⟨s', ?_, h', htasks'.trans htasks, hsame.trans hsame', ?_, ?_⟩
    · rw [List.foldlM_cons, hstep]
      exact hfold
    · refine List.IsSuffix.trans ?_ hsuf
      show s.replies <:+ (w.origin, _) :: s₁.replies
      rw [hreplies]
      exact List.suffix_cons _ _
    · intro v hv
      rcases List.mem_cons.1 hv with rfl | hv
      · exact List.mem_map.2 ⟨_, hsuf.subset List.mem_cons_self, rfl⟩
      · exact hall v hv

theorem failWaiters_spec (m : Module) (reason : Reason ρ) :
    ∀ (ws : List Waiter) (s : State κ ρ), Coherent s₀ s (ws.map fun w => (m, w)) pending →
      Coherent s₀ (ws.foldl (failWaiter reason) s) [] pending
  | [], _, h => h
  | _ :: ws, _, h =>
    failWaiters_spec m reason ws _ (reply_coherent (demonitorWaiter_coherent h) _)

theorem compilationFailed_eq (slot : Slot κ ρ) (k : κ) (hk : slot.key? = some k) (r : Ref)
    (log : List BackendCall) (reason : Reason ρ) (quarantine : Bool) :
    ∃ st : SlotStatus κ ρ, st.Vacant ∧
      compilationFailed { s with tasks := s.tasks.delete r, backendLog := log } slot reason
        quarantine = slot.waiters.foldl (failWaiter reason)
          (detached s r ⟨slot.module, slot.generation, st⟩ (s.keyIndex.delete k) log s.clock) := by
  refine ⟨if quarantine then .quarantined reason else .free, ?_, ?_⟩
  · cases quarantine
    · exact .inl rfl
    · exact .inr ⟨reason, rfl⟩
  · rw [compilationFailed, foldl_reply, foldl_demonitorWaiter, foldl_failWaiter, hk]
    cases quarantine <;> rfl

theorem installs_cons_of_not_ok (m : Module) (n : ℕ) (j : Module) (log : List BackendCall) :
    installs j (.install m n false :: log) = installs j log := by
  simp [installs]

theorem installs_cons_ok (m : Module) (n : ℕ) (j : Module) (log : List BackendCall) :
    installs j (.install m n true :: log) = installs j log + if m = j then 1 else 0 := by
  simp [installs, List.countP_cons]

variable {r : Ref} {ws : List Waiter}

theorem compilationFailed_spec (h : Coherent s₀ s [] pending)
    (hslot : s.slots.get? slot.module = some slot) (hst : slot.status = .compiling k ws r)
    {log : List BackendCall} (hlog : ∀ j, installs j log = installs j s.backendLog)
    (hzero : ∀ c ∈ log, c.leases = 0) (hsuf : s.backendLog <:+ log) (reason : Reason ρ)
    (quarantine : Bool) :
    ∃ s', compilationFailed { s with tasks := s.tasks.delete r, backendLog := log } slot reason
        quarantine = s' ∧ Coherent s₀ s' [] pending ∧ s'.tasks = s.tasks.delete r ∧
      SameDrain s s' ∧ ∀ w ∈ slot.waiters, w.origin ∈ s'.replies.map Prod.fst := by
  have hk : slot.key? = some k := by rw [Slot.key?, hst]
  have hws : slot.waiters = ws := by rw [Slot.waiters, hst]
  obtain ⟨st, hvac, heq⟩ := compilationFailed_eq (s := s) slot k hk r log reason quarantine
  obtain ⟨hk', -, htr, hnil, hlc⟩ := hvac.observe slot.module slot.generation
  refine ⟨_, rfl, ?_, ?_, ?_, ?_⟩
  · rw [heq, hws]
    refine failWaiters_spec slot.module reason ws _
      (detached_coherent h (List.Perm.refl ws) hslot hst ?_ hnil hlc hzero hsuf)
    refine h.toSlotsIndexed.replace hslot rfl rfl rfl ?_ ?_ ?_ fun j _ => hlog j
    · intro k' j
      have hkeys := h.key_slot hslot k'
      rw [hk] at hkeys
      simp only [detached, Assoc.get?_delete_eq, hk']
      grind
    · intro r' j
      have htasks := h.task_slot hslot r'
      rw [Slot.taskRef?, hst] at htasks
      simp only [detached, Assoc.get?_delete_eq, htr]
      grind
    · exact (h.generation _ slot hslot).trans (hlog _).symm
  · rw [heq, foldl_failWaiter]
    rfl
  · rw [heq, foldl_failWaiter]
    exact ⟨rfl, rfl⟩
  · intro w hw
    rw [heq, foldl_failWaiter]
    simp only [List.map_append, List.map_reverse, List.map_map, List.mem_append, List.mem_reverse]
    exact .inl (List.mem_map.2 ⟨w, hw, rfl⟩)

/-- A successful compilation makes its slot ready, one generation later, and grants every
waiter a lease. -/
theorem compilationReady_spec (h : Coherent s₀ s [] pending)
    (hslot : s.slots.get? slot.module = some slot) (hst : slot.status = .compiling k ws r) :
    ∃ s', compilationReady { s with
        tasks := s.tasks.delete r
        backendLog := .install slot.module 0 true :: s.backendLog } slot = some s' ∧
      Coherent s₀ s' [] pending ∧ s'.tasks = s.tasks.delete r ∧ SameDrain s s' ∧
      ∀ w ∈ slot.waiters, w.origin ∈ s'.replies.map Prod.fst := by
  have hk : slot.key? = some k := by rw [Slot.key?, hst]
  have hws : slot.waiters = ws := by rw [Slot.waiters, hst]
  let ready : Slot κ ρ := ⟨slot.module, slot.generation + 1, .ready k 0 (s.clock + 1)⟩
  let log := BackendCall.install slot.module 0 true :: s.backendLog
  have hidx : SlotsIndexed (detached s r ready s.keyIndex log (s.clock + 1)) := by
    refine h.toSlotsIndexed.replace (b := ready) hslot rfl rfl rfl ?_ ?_ ?_ ?_
    · intro k' j
      have hkeys := h.key_slot hslot k'
      rw [hk] at hkeys
      show s.keyIndex.get? k' = some j ↔ _ ∨ j = slot.module ∧ some k = some k'
      grind
    · intro r' j
      have htasks := h.task_slot hslot r'
      rw [Slot.taskRef?, hst] at htasks
      show (s.tasks.delete r).get? r' = some ⟨j⟩ ↔ _ ∨ j = slot.module ∧ none = some r'
      rw [Assoc.get?_delete_eq]
      grind
    · show slot.generation + 1 = installs slot.module log
      rw [installs_cons_ok, if_pos rfl, h.generation _ slot hslot]
    · intro j hj
      show installs j log = _
      rw [installs_cons_ok, if_neg (Ne.symm hj), Nat.add_zero]
  have hdet := detached_coherent h (List.reverse_perm ws) (b := ready) hslot hst hidx rfl rfl
    (fun c hc => (List.mem_cons.1 hc).elim (fun he => he ▸ rfl) (h.unleased c))
    (List.suffix_cons _ _)
  obtain ⟨s', hfold, h', htasks, hsame, -, hall⟩ := grantWaiters_spec slot.module k ws.reverse _ hdet
    ⟨ready, Assoc.get?_put _ _ _, rfl⟩
  refine ⟨s', ?_, h', htasks, hsame, fun w hw => hall w (List.mem_reverse.2 (hws ▸ hw))⟩
  rw [compilationReady, hk, hws]
  exact hfold

theorem leasesOn_eq_zero (h : Coherent s₀ s loose pending) (hslot : s.slots.get? m = some slot)
    (hn : slot.leaseCount = 0) : leasesOn s.leases m = 0 := by
  have hc := h.lease_count m slot hslot
  rw [hn] at hc
  exact_mod_cast hc.symm

theorem SlotsIndexed.task_compiles (h : SlotsIndexed s) (htask : s.tasks.get? r = some ⟨m⟩) :
    ∃ slot k ws, s.slots.get? m = some slot ∧ slot.module = m ∧
      slot.status = .compiling k ws r := by
  obtain ⟨slot, hslot, hr⟩ := (h.task_index r m).1 htask
  cases hst : slot.status with
  | compiling k ws r' =>
    rw [Slot.taskRef?, hst] at hr
    cases hr
    exact ⟨slot, k, ws, hslot, h.slot_module m slot hslot, hst⟩
  | free => rw [Slot.taskRef?, hst] at hr; cases hr
  | ready => rw [Slot.taskRef?, hst] at hr; cases hr
  | quarantined => rw [Slot.taskRef?, hst] at hr; cases hr

/-- **The end of a task.**  However it ends, its record goes, its slot stops compiling, and
every waiter of the slot is answered. -/
theorem endTask_spec (backend : Backend α ρ) (h : Coherent s₀ s [] pending)
    (htask : s.tasks.get? r = some ⟨m⟩) (result : TaskResult α ρ) :
    ∃ s', endTask backend s r ⟨m⟩ result = some s' ∧ Coherent s₀ s' [] pending ∧
      s'.tasks = s.tasks.delete r ∧ SameDrain s s' ∧
      ∀ slot, s.slots.get? m = some slot → ∀ w ∈ slot.waiters,
        w.origin ∈ s'.replies.map Prod.fst := by
  obtain ⟨slot, k, ws, hslot, hm, hst⟩ := h.task_compiles htask
  subst hm
  have hn : leasesOn s.leases slot.module = 0 :=
    leasesOn_eq_zero h hslot (by rw [Slot.leaseCount, hst])
  suffices hsuff : ∃ s', endTask backend s r ⟨slot.module⟩ result = some s' ∧
      Coherent s₀ s' [] pending ∧ s'.tasks = s.tasks.delete r ∧ SameDrain s s' ∧
      ∀ w ∈ slot.waiters, w.origin ∈ s'.replies.map Prod.fst by
    obtain ⟨s', heq, h', htasks, hsame, hall⟩ := hsuff
    refine ⟨s', heq, h', htasks, hsame, fun x hx => ?_⟩
    rw [hslot] at hx
    cases hx
    exact hall
  -- every branch but the successful installation is a failure with some log
  have hfail : ∀ (log : List BackendCall), (∀ j, installs j log = installs j s.backendLog) →
      (∀ c ∈ log, c.leases = 0) → s.backendLog <:+ log → ∀ reason quarantine,
      ∃ s', pure (compilationFailed { s with tasks := s.tasks.delete r, backendLog := log } slot
          reason quarantine) = some s' ∧ Coherent s₀ s' [] pending ∧
        s'.tasks = s.tasks.delete r ∧ SameDrain s s' ∧
        ∀ w ∈ slot.waiters, w.origin ∈ s'.replies.map Prod.fst := by
    intro log hlog hzero hsuf reason quarantine
    obtain ⟨s', heq, hs'⟩ := compilationFailed_spec h hslot hst hlog hzero hsuf reason quarantine
    exact ⟨s', congrArg some heq, hs'⟩
  have hsame := hfail s.backendLog (fun _ => rfl) h.unleased (List.suffix_refl _)
  cases result with
  | error reason =>
    simp only [endTask, finishCompilation, dropTask, hslot, Option.bind_eq_bind, Option.bind_some]
    exact hsame reason false
  | other x =>
    simp only [endTask, finishCompilation, dropTask, hslot, Option.bind_eq_bind, Option.bind_some]
    exact hsame (.invalidBackendResult x) false
  | ok artifact =>
    simp only [endTask, finishCompilation, dropTask, hslot, Option.bind_eq_bind, Option.bind_some,
      callInstall, hn]
    cases backendError (backend.install s.backendLog.length slot.module artifact) with
    | none => exact compilationReady_spec h hslot hst
    | some reason =>
      exact hfail (.install slot.module 0 false :: s.backendLog)
        (fun j => installs_cons_of_not_ok slot.module 0 j s.backendLog)
        (fun c hc => (List.mem_cons.1 hc).elim (fun he => he ▸ rfl) (h.unleased c))
        (List.suffix_cons _ _) (.installFailed reason) true

theorem cancelTasks_spec (backend : Backend α ρ) : ∀ (entries : List (Ref × TaskRecord))
    (s : State κ ρ), Coherent s₀ s [] pending → (entries.map Prod.fst).Nodup →
    (∀ e ∈ entries, s.tasks.get? e.1 = some e.2) →
    ∃ s', entries.foldlM (fun s entry =>
        endTask backend s entry.1 entry.2 (.error .compilerPoolStopping)) s = some s' ∧
      Coherent s₀ s' [] pending ∧ SameDrain s s'
  | [], s, h, _, _ => ⟨s, rfl, h, rfl, rfl⟩
  | e :: es, s, h, hnodup, hlive => by
    obtain ⟨s₁, heq, h₁, htasks, hsame, -⟩ := endTask_spec backend h (hlive e List.mem_cons_self)
      (.error .compilerPoolStopping)
    obtain ⟨hnotin, hnodup'⟩ := List.nodup_cons.1 hnodup
    have hlive' : ∀ e' ∈ es, s₁.tasks.get? e'.1 = some e'.2 := by
      intro e' he'
      rw [htasks, Assoc.get?_delete_ne]
      · exact hlive e' (List.mem_cons_of_mem _ he')
      · exact fun hsame => hnotin (hsame ▸ List.mem_map_of_mem he')
    obtain ⟨s', hfold, h', hsame'⟩ := cancelTasks_spec backend es s₁ h₁ hnodup' hlive'
    refine ⟨s', ?_, h', hsame.trans hsame'⟩
    rw [List.foldlM_cons, heq]
    exact hfold

theorem cancelCompilations_spec (backend : Backend α ρ) (h : Coherent s₀ s [] pending) :
    ∃ s', cancelCompilations backend s = some s' ∧ Coherent s₀ s' [] pending ∧ SameDrain s s' :=
  cancelTasks_spec backend s.tasks.toList s h (Assoc.nodup_keys_toList _)
    fun _ he => Assoc.mem_toList.1 he

/-! ### Retiring and selecting slots -/

theorem Slot.status_of_isIdle (h : slot.isIdle = true) : ∃ k u, slot.status = .ready k 0 u := by
  cases hst : slot.status with
  | ready k n u =>
    rw [Slot.isIdle, hst] at h
    exact ⟨k, u, by rw [eq_of_beq h]⟩
  | free => rw [Slot.isIdle, hst] at h; cases h
  | compiling => rw [Slot.isIdle, hst] at h; cases h
  | quarantined => rw [Slot.isIdle, hst] at h; cases h

theorem Slot.status_of_isFree (h : slot.isFree = true) : slot.status = .free := by
  cases hst : slot.status with
  | free => rfl
  | ready => rw [Slot.isFree, hst] at h; cases h
  | compiling => rw [Slot.isFree, hst] at h; cases h
  | quarantined => rw [Slot.isFree, hst] at h; cases h

theorem retireSlot_spec (backend : Backend α ρ) (h : Coherent s₀ s loose pending)
    (hslot : s.slots.get? slot.module = some slot) (hidle : slot.isIdle = true) :
    ∃ k st, retireSlot backend s slot =
        (Slot.isFree ⟨slot.module, slot.generation, st⟩, retired s slot k st) ∧
      st.Vacant ∧ Coherent s₀ (retired s slot k st) loose pending := by
  obtain ⟨k, u, hst⟩ := Slot.status_of_isIdle hidle
  have hk : slot.key? = some k := by rw [Slot.key?, hst]
  cases he : backendError (backend.retire s.backendLog.length slot.module) with
  | none =>
    refine ⟨k, .free, ?_, .inl rfl, retired_coherent h hslot hst (.inl rfl)⟩
    simp only [retireSlot, hk, callRetire, he]
    rfl
  | some reason =>
    refine ⟨k, .quarantined reason, ?_, .inr ⟨reason, rfl⟩,
      retired_coherent h hslot hst (.inr ⟨reason, rfl⟩)⟩
    simp only [retireSlot, hk, callRetire, he]
    rfl

theorem retireReadySlot_eq (slot : Slot κ ρ) (s : State κ ρ) (q : List (Module × Reason ρ)) :
    (retireReadySlot backend slot s q).1 =
      if slot.isIdle then (retireSlot backend s slot).2 else s := by
  unfold retireReadySlot retireSlot
  split
  · dsimp only
    split <;> rfl
  · rfl

theorem selectEviction_evict (h : SlotsIndexed s) (hsel : selectEviction s = .evict m) :
    ∃ slot, s.slots.get? m = some slot ∧ slot.module = m ∧ slot.isIdle = true := by
  unfold selectEviction at hsel
  split at hsel
  · rename_i slot hmin
    cases hsel
    have hmem := List.argmin_mem hmin
    obtain ⟨hmem, hidle⟩ := List.mem_filter.1 hmem
    obtain ⟨j, -, hj⟩ := List.mem_filterMap.1 hmem
    have hmod := h.slot_module j slot hj
    exact ⟨slot, hmod ▸ hj, rfl, hidle⟩
  · cases hsel

theorem selectSlot_free (hsel : selectSlot s = .free m) :
    ∃ slot, s.slots.get? m = some slot ∧ slot.isFree = true := by
  unfold selectSlot at hsel
  split at hsel
  · rename_i j hfind
    cases hsel
    have hany := List.find?_some hfind
    cases hj : s.slots.get? m with
    | none => rw [hj] at hany; cases hany
    | some slot => rw [hj] at hany; exact ⟨slot, rfl, hany⟩
  · unfold selectEviction at hsel
    split at hsel <;> cases hsel

theorem selectSlot_evict (h : SlotsIndexed s) (hsel : selectSlot s = .evict m) :
    ∃ slot, s.slots.get? m = some slot ∧ slot.module = m ∧ slot.isIdle = true := by
  unfold selectSlot at hsel
  split at hsel
  · cases hsel
  · exact selectEviction_evict h hsel

/-- The number of idle slots, which bounds the evictions one checkout can try. -/
def idleSlots (s : State κ ρ) : ℕ := s.slots.sumBy fun _ slot => if slot.isIdle then 1 else 0

theorem idleSlots_le (h : SlotsIndexed s) : idleSlots s ≤ s.modules.length := by
  have hsub : s.slots.keys ⊆ s.modules := by
    intro m hm
    rw [h.slot_iff]
    exact Option.isSome_iff_exists.1 (AList.lookup_isSome.2 hm)
  have hlen := (List.Nodup.subperm s.slots.nodupKeys hsub).length_le
  rw [List.keys, List.length_map] at hlen
  refine le_trans (Assoc.sumBy_le_size fun _ slot => ?_) hlen
  split
  · exact le_refl 1
  · exact Nat.zero_le 1

theorem checkoutMissLoop_spec (backend : Backend α ρ) (key : κ) (origin : From) :
    ∀ (fuel : ℕ) (s : State κ ρ), idleSlots s < fuel → Coherent s₀ s [] (origin :: pending) →
      s.keyIndex.get? key = none →
      ∃ s', checkoutMissLoop backend key origin fuel s = some s' ∧ Coherent s₀ s' [] pending
  | 0, s, hfuel, _, _ => absurd hfuel (Nat.not_lt_zero _)
  | fuel + 1, s, hfuel, h, hkey => by
    cases hsel : selectSlot s with
    | busy => exact ⟨_, by rw [checkoutMissLoop, hsel], reply_coherent h _⟩
    | free m =>
      obtain ⟨slot, hslot, hfree⟩ := selectSlot_free hsel
      have hm := h.slot_module m slot hslot
      refine ⟨_, by rw [checkoutMissLoop, hsel]; exact startCompilation_eq hm hslot key origin, ?_⟩
      subst hm
      exact started_coherent h hslot (Slot.status_of_isFree hfree) hkey
    | evict m =>
      obtain ⟨slot, hslot, rfl, hidle⟩ := selectSlot_evict h.toSlotsIndexed hsel
      obtain ⟨k, st, heq, hvac, h'⟩ := retireSlot_spec backend h hslot hidle
      have hkey' : (s.keyIndex.delete k).get? key = none := by
        rw [Assoc.get?_delete_eq, hkey, ite_self]
      let left : Slot κ ρ := ⟨slot.module, slot.generation, st⟩
      have hleft : left.module = slot.module := rfl
      have hput : (retired s slot k st).slots.get? slot.module = some left :=
        Assoc.get?_put _ _ _
      have hunfold : checkoutMissLoop backend key origin (fuel + 1) s =
          if left.isFree then
            startCompilation (retired s slot k st) slot.module key origin
          else checkoutMissLoop backend key origin fuel (retired s slot k st) := by
        rw [checkoutMissLoop, hsel]
        simp only [hslot, heq, Option.bind_eq_bind, Option.bind_some]
        rfl
      rw [hunfold]
      split
      · rename_i hfree
        exact ⟨_, startCompilation_eq hleft hput key origin,
          started_coherent h' hput (Slot.status_of_isFree hfree) hkey'⟩
      · -- the refused slot is quarantined, so one idle slot fewer is left
        refine checkoutMissLoop_spec backend key origin fuel _ ?_ h' hkey'
        have hswap := Assoc.sumBy_put_swap
          (fun _ (slot : Slot κ ρ) => if slot.isIdle then 1 else 0) left hslot
        have hnot : left.isIdle = false := by
          rcases hvac with rfl | ⟨r, rfl⟩ <;> rfl
        rw [hidle, hnot] at hswap
        simp only [if_true, Bool.false_eq_true, if_false] at hswap
        unfold idleSlots at hfuel
        show Assoc.sumBy _ (s.slots.put slot.module left) < fuel
        omega

variable {key : κ} {origin : From}

theorem checkoutMiss_spec (backend : Backend α ρ) (h : Coherent s₀ s [] (origin :: pending))
    (hkey : s.keyIndex.get? key = none) :
    ∃ s', checkoutMiss backend s key origin = some s' ∧ Coherent s₀ s' [] pending :=
  checkoutMissLoop_spec backend key origin _ s
    (Nat.lt_succ_of_le (idleSlots_le h.toSlotsIndexed)) h hkey

/-! ### Draining -/

theorem retireReadySlot_spec (backend : Backend α ρ) (h : Coherent s₀ s loose pending)
    (hslot : s.slots.get? slot.module = some slot) (q : List (Module × Reason ρ)) :
    Coherent s₀ (retireReadySlot backend slot s q).1 loose pending ∧
      (retireReadySlot backend slot s q).1.modules = s.modules ∧
      SameDrain s (retireReadySlot backend slot s q).1 := by
  rw [retireReadySlot_eq]
  split
  · rename_i hidle
    obtain ⟨k, st, heq, -, h'⟩ := retireSlot_spec backend h hslot hidle
    rw [heq]
    exact ⟨h', rfl, rfl, rfl⟩
  · exact ⟨h, rfl, rfl, rfl⟩

theorem retireReadySlots_aux (backend : Backend α ρ) : ∀ (ms : List Module) (s : State κ ρ)
    (q : List (Module × Reason ρ)), Coherent s₀ s [] pending → (∀ m ∈ ms, m ∈ s.modules) →
    ∃ s' q', ms.foldlM (fun (acc : State κ ρ × List (Module × Reason ρ)) m => do
        let slot ← acc.1.slots.get? m
        return retireReadySlot backend slot acc.1 acc.2) (s, q) = some (s', q') ∧
      Coherent s₀ s' [] pending ∧ SameDrain s s'
  | [], s, q, h, _ => ⟨s, q, rfl, h, rfl, rfl⟩
  | m :: ms, s, q, h, hms => by
    obtain ⟨slot, hslot⟩ := (h.slot_iff m).1 (hms m List.mem_cons_self)
    have hm := h.slot_module m slot hslot
    subst hm
    obtain ⟨h₁, hmods, hsame⟩ := retireReadySlot_spec backend h hslot q
    obtain ⟨s', q', hfold, h', hsame'⟩ := retireReadySlots_aux backend ms _
      (retireReadySlot backend slot s q).2 h₁
      fun m hm => hmods ▸ hms m (List.mem_cons_of_mem _ hm)
    refine ⟨s', q', ?_, h', hsame.trans hsame'⟩
    rw [List.foldlM_cons]
    simp only [hslot, Option.bind_eq_bind, Option.bind_some, Option.pure_def]
    exact hfold

theorem Coherent.setMode (h : Coherent s₀ s loose pending) (hd : s.drain = none) (mode : Mode) :
    Coherent s₀ { s with mode := mode } loose pending :=
  { h with
    toSlotsIndexed := ⟨h.slot_module, h.slot_iff, h.key_index, h.task_index, h.generation⟩
    lease_live := fun t r hr => ⟨(h.lease_live t r hr).lease, (h.lease_live t r hr).slot⟩
    no_drain := fun _ => hd
    ledger := h.ledger }

theorem Coherent.closeDrain (h : Coherent s₀ s loose pending) {d : Drain}
    (hd : s.drain = some d) (r : Reply κ ρ) (mode : Mode) :
    Coherent s₀ { reply s d.origin r with mode := mode, drain := none } loose pending := by
  refine { h with
    toSlotsIndexed := ⟨h.slot_module, h.slot_iff, h.key_index, h.task_index, h.generation⟩
    lease_live := fun t r hr => ⟨(h.lease_live t r hr).lease, (h.lease_live t r hr).slot⟩
    no_drain := fun _ => rfl
    ledger := fun f => ?_ }
  have hled := h.ledger f
  rw [calls, hd] at hled
  show s.issued.count f = (((d.origin, r) :: s.replies).map Prod.fst).count f +
    waitingCount s.slots f + _ + s.withdrawn.count f + 0 + _
  simp only [Option.toList_some, List.map_cons, List.map_nil] at hled
  simp only [List.map_cons]
  rw [count_cons_origin d.origin]
  omega

theorem Coherent.openDrain (h : Coherent s₀ s loose (origin :: pending)) (hd : s.drain = none)
    (r : Ref) :
    Coherent s₀ { s with mode := .draining, drain := some ⟨origin, r⟩ } loose pending := by
  refine { h with
    toSlotsIndexed := ⟨h.slot_module, h.slot_iff, h.key_index, h.task_index, h.generation⟩
    lease_live := fun t r hr => ⟨(h.lease_live t r hr).lease, (h.lease_live t r hr).slot⟩
    no_drain := fun he => (nomatch he)
    ledger := fun f => ?_ }
  have hled := h.ledger f
  rw [calls, hd, count_cons_origin] at hled
  simp only [Option.toList_none, List.map_nil, List.count_nil] at hled
  show s.issued.count f = (s.replies.map Prod.fst).count f + waitingCount s.slots f + _ +
    s.withdrawn.count f + [origin].count f + _
  omega

theorem maybeCompleteDrain_spec (backend : Backend α ρ) (h : Coherent s₀ s [] pending) :
    ∃ s', maybeCompleteDrain backend s = some s' ∧ Coherent s₀ s' [] pending := by
  unfold maybeCompleteDrain
  split
  · exact ⟨s, rfl, h⟩
  split
  · exact ⟨s, rfl, h⟩
  obtain ⟨s', q, heq, h', -⟩ := retireReadySlots_aux backend s.modules s [] h fun _ hm => hm
  have heq' : retireReadySlots backend s = some (s', q) := heq
  simp only [heq', Option.bind_eq_bind, Option.bind_some]
  split
  · rename_i hd
    exact ⟨_, rfl, h'.setMode hd _⟩
  · rename_i d hd
    exact ⟨_, rfl, h'.closeDrain hd _ _⟩

/-! ### The handlers -/

theorem fetchLease_ok {lease : Lease κ} {caller : Pid}
    (h : fetchLease s lease caller = .ok record) :
    s.leases.get? lease.token = some record ∧ record.lease = lease := by
  unfold fetchLease at h
  split at h
  · split at h
    · rename_i r hr
      split at h
      · rename_i hl
        cases h
        exact ⟨hr, hl⟩
      · cases h
    · cases h
  · split at h <;> cases h

theorem whenRunning_spec (h : Coherent s₀ s [] (origin :: pending)) {next : Option (State κ ρ)}
    (hnext : s.mode = .running → ∃ s', next = some s' ∧ Coherent s₀ s' [] pending) :
    ∃ s', whenRunning s origin next = some s' ∧ Coherent s₀ s' [] pending := by
  unfold whenRunning
  split
  · rename_i hm
    exact hnext hm
  · exact ⟨_, rfl, reply_coherent h _⟩

theorem checkoutHit_spec (h : Coherent s₀ s [] (origin :: pending))
    (hkey : s.keyIndex.get? key = some m) (stale : Option (State κ ρ)) :
    ∃ slot s', s.slots.get? m = some slot ∧ Coherent s₀ s' [] pending ∧
      (match slot.status with
        | .ready k _ _ => if k = key then do
            let (lease, s) ← issueLease s m origin.owner
            return reply s origin (.lease lease) else stale
        | .compiling k _ _ => if k = key then addWaiter s m origin else stale
        | _ => stale) = some s' := by
  obtain ⟨slot, hslot, hk⟩ := (h.key_index key m).1 hkey
  have hm := h.slot_module m slot hslot
  cases hst : slot.status with
  | ready k n u =>
    rw [Slot.key?, hst, Option.some.injEq] at hk
    obtain ⟨lease, s₁, heq, h₁, -⟩ := issueLease_spec h hslot
      (by rw [Slot.readyKey?, hst]) origin.owner
    refine ⟨slot, _, hslot, reply_coherent h₁ (.lease lease), ?_⟩
    simp only [hst, hk, if_true, heq, Option.bind_eq_bind, Option.bind_some, Option.pure_def]
  | compiling k ws r =>
    rw [Slot.key?, hst, Option.some.injEq] at hk
    subst hm
    refine ⟨slot, _, hslot, joined_coherent h hslot hst, ?_⟩
    simp only [hst, hk, if_true]
    exact hk ▸ addWaiter_eq rfl hslot hst origin
  | free => rw [Slot.key?, hst] at hk; cases hk
  | quarantined => rw [Slot.key?, hst] at hk; cases hk

theorem handleCheckout_spec (backend : Backend α ρ) (h : Coherent s₀ s [] (origin :: pending))
    (key : κ) :
    ∃ s', handleCheckout backend s origin key = some s' ∧ Coherent s₀ s' [] pending := by
  refine whenRunning_spec h fun _ => ?_
  cases hkey : s.keyIndex.get? key with
  | none => exact checkoutMiss_spec backend h hkey
  | some m =>
    obtain ⟨slot, s', hslot, h', heq⟩ := checkoutHit_spec h hkey
      (checkoutMiss backend { s with keyIndex := s.keyIndex.delete key } key origin)
    refine ⟨s', ?_, h'⟩
    simp only [checkoutIndexed, hslot, Option.bind_eq_bind, Option.bind_some]
    exact heq

theorem handleCheckoutCached_spec (h : Coherent s₀ s [] (origin :: pending)) (key : κ) :
    ∃ s', handleCheckoutCached s origin key = some s' ∧ Coherent s₀ s' [] pending := by
  refine whenRunning_spec h fun _ => ?_
  cases hkey : s.keyIndex.get? key with
  | none =>
    simp only
    split
    · exact ⟨_, rfl, reply_coherent (h.bookkeeping _ _ _ _) _⟩
    · exact ⟨_, rfl, reply_coherent h _⟩
  | some m =>
    obtain ⟨slot, s', hslot, h', heq⟩ := checkoutHit_spec h hkey
      (some (reply { s with keyIndex := s.keyIndex.delete key } origin .miss))
    refine ⟨s', ?_, h'⟩
    simp only [checkoutCachedIndexed, hslot, Option.bind_eq_bind, Option.bind_some]
    exact heq

theorem trimSkips_coherent (h : Coherent s₀ s loose pending) :
    Coherent s₀ (trimSkips s) loose pending := by
  unfold trimSkips
  split
  · exact h
  split
  · exact h.bookkeeping _ _ _ _
  · exact h

theorem trimRegionAdmissions_coherent (h : Coherent s₀ s loose pending) :
    Coherent s₀ (trimRegionAdmissions s) loose pending := by
  unfold trimRegionAdmissions
  split
  · exact h
  split
  · exact h.bookkeeping _ _ _ _
  · exact h

theorem admitHotRegion_coherent (h : Coherent s₀ s loose pending) (key : κ) (count : ℕ) :
    Coherent s₀ (admitHotRegion s key count).2 loose pending := by
  unfold admitHotRegion
  split
  · exact h
  split
  · exact h
  split
  · exact h.bookkeeping _ _ _ _
  · exact h

theorem handleRememberSkip_spec (h : Coherent s₀ s [] (origin :: pending)) (key : κ) :
    ∃ s', handleRememberSkip s origin key = some s' ∧ Coherent s₀ s' [] pending :=
  whenRunning_spec h fun _ =>
    ⟨_, rfl, reply_coherent (trimSkips_coherent (h.bookkeeping _ _ _ _)) _⟩

theorem handleAdmitRegion_spec (h : Coherent s₀ s [] (origin :: pending)) (key : κ) :
    ∃ s', handleAdmitRegion s origin key = some s' ∧ Coherent s₀ s' [] pending :=
  whenRunning_spec h fun _ => ⟨_, rfl, reply_coherent
    (admitHotRegion_coherent (trimRegionAdmissions_coherent (h.bookkeeping _ _ _ _)) _ _) _⟩

theorem handleCheckin_spec (backend : Backend α ρ) (h : Coherent s₀ s [] (origin :: pending))
    (lease : Lease κ) :
    ∃ s', handleCheckin backend s origin lease = some s' ∧ Coherent s₀ s' [] pending := by
  unfold handleCheckin
  split
  · rename_i record hfetch
    obtain ⟨s₁, heq, h₁⟩ := releaseLease_spec h (fetchLease_ok hfetch).1
    simp only [heq, Option.bind_eq_bind, Option.bind_some]
    exact maybeCompleteDrain_spec backend (reply_coherent h₁ _)
  · exact ⟨_, rfl, reply_coherent h _⟩

theorem handleValidateLease_spec (h : Coherent s₀ s [] (origin :: pending)) (lease : Lease κ) :
    ∃ s', handleValidateLease s origin lease = some s' ∧ Coherent s₀ s' [] pending := by
  unfold handleValidateLease
  split <;> exact ⟨_, rfl, reply_coherent h _⟩

theorem handleDrain_spec (backend : Backend α ρ) (h : Coherent s₀ s [] (origin :: pending)) :
    ∃ s', handleDrain backend s origin = some s' ∧ Coherent s₀ s' [] pending := by
  refine whenRunning_spec h fun hm => ?_
  obtain ⟨s₁, heq, h₁, hmode, hdrain⟩ := cancelCompilations_spec backend h
  simp only [heq, Option.bind_eq_bind, Option.bind_some, freshRef]
  exact maybeCompleteDrain_spec backend
    (h₁.freshRef.openDrain (hdrain.trans (h.no_drain hm)) _)

theorem handleCheckinActive_spec (backend : Backend α ρ) (h : Coherent s₀ s [] pending)
    (caller : Pid) (lease : Lease κ) :
    ∃ s', handleCheckinActive backend s caller lease = some s' ∧ Coherent s₀ s' [] pending := by
  unfold handleCheckinActive
  split
  · rename_i record hfetch
    obtain ⟨s₁, heq, h₁⟩ := releaseLease_spec h (fetchLease_ok hfetch).1
    simp only [heq, Option.bind_eq_bind, Option.bind_some]
    exact maybeCompleteDrain_spec backend h₁
  · exact maybeCompleteDrain_spec backend h

theorem handleTaskResult_spec (backend : Backend α ρ) (h : Coherent s₀ s [] pending) (r : Ref)
    (result : TaskResult α ρ) :
    ∃ s', handleTaskResult backend s r result = some s' ∧ Coherent s₀ s' [] pending := by
  unfold handleTaskResult
  split
  · rename_i task htask
    obtain ⟨s', heq, h', -⟩ := endTask_spec backend h htask result
    exact ⟨s', heq, h'⟩
  · exact ⟨s, rfl, h⟩

theorem handleDrainTimeout_coherent (h : Coherent s₀ s [] pending) (r : Ref) :
    Coherent s₀ (handleDrainTimeout s r) [] pending := by
  unfold handleDrainTimeout
  split
  · rename_i d hd
    split
    · exact h.closeDrain hd _ s.mode
    · exact h
  · exact h

/-- The callers that wait in `slot` under the monitor `r`. -/
def Slot.callersAt (slot : Slot κ ρ) (r : Ref) : List From :=
  (slot.waiters.filter fun w => w.monitor == r).map Waiter.origin

theorem releaseMonitoredOwner_waiter {task r : Ref} (hslot : s.slots.get? slot.module = some slot)
    (hst : slot.status = .compiling k ws task)
    (hr : s.monitorIndex.get? r = some (.waiter slot.module)) :
    releaseMonitoredOwner s r = some (abandoned s slot k ws task r) := by
  simp only [releaseMonitoredOwner, hr, hslot, Option.bind_eq_bind, Option.bind_some, updateSlot,
    Slot.updateWaiters, hst, Option.pure_def, Slot.waiters, abandoned]

theorem Coherent.waiter_slot (h : Coherent s₀ s [] pending)
    (hr : s.monitorIndex.get? r = some (.waiter m)) :
    ∃ slot k ws task, s.slots.get? m = some slot ∧ slot.module = m ∧
      slot.status = .compiling k ws task := by
  obtain ⟨w, ⟨slot, hslot, hw⟩ | hw, -⟩ := (h.monitor_waiter r m).1 hr
  · cases hst : slot.status with
    | compiling k ws task => exact ⟨slot, k, ws, task, hslot, h.slot_module m slot hslot, hst⟩
    | free => rw [Slot.waiters, hst] at hw; cases hw
    | ready => rw [Slot.waiters, hst] at hw; cases hw
    | quarantined => rw [Slot.waiters, hst] at hw; cases hw
  · cases hw

/-- A monitor goes down.  Only here a caller leaves the pool without an answer: its own process
is gone.  The invariant restarts from the state `base` without it. -/
theorem handleDown_spec (backend : Backend α ρ) (h : Coherent s s [] []) (r : Ref) (reason : ρ) :
    ∃ s' base, handleDown backend s r reason = some s' ∧ Coherent base s' [] [] ∧
      base.backendLog = s.backendLog ∧ (base.withdrawn = s.withdrawn ∨
        ∃ m slot, s.slots.get? m = some slot ∧
          base.withdrawn = slot.callersAt r ++ s.withdrawn) := by
  unfold handleDown
  split
  · rename_i task htask
    obtain ⟨s', heq, h', -⟩ := endTask_spec backend h htask (.error (.compileTaskExit reason))
    exact ⟨s', s, heq, h', rfl, .inl rfl⟩
  split
  · rename_i hmem
    obtain ⟨e, he⟩ := Assoc.hasKey_iff.1 hmem
    cases e with
    | lease token =>
      obtain ⟨record, hrec, -⟩ := (h.monitor_lease r token).1 he
      obtain ⟨s₁, heq, h₁⟩ := releaseLease_spec h hrec
      have hown : releaseMonitoredOwner s r = some s₁ := by
        simp only [releaseMonitoredOwner, he, hrec, Option.bind_eq_bind, Option.bind_some, heq]
      obtain ⟨s', heq', h'⟩ := maybeCompleteDrain_spec backend h₁
      refine ⟨s', s, ?_, h', rfl, .inl rfl⟩
      simp only [hown, Option.bind_eq_bind, Option.bind_some, heq']
    | waiter m =>
      obtain ⟨slot, k, ws, task, hslot, rfl, hst⟩ := h.waiter_slot he
      obtain ⟨s', heq', h'⟩ :=
        maybeCompleteDrain_spec backend (abandoned_coherent h hslot hst he)
      refine ⟨s', abandoned s slot k ws task r, ?_, h', rfl, .inr ⟨_, slot, hslot, ?_⟩⟩
      · simp only [releaseMonitoredOwner_waiter hslot hst he, Option.bind_eq_bind,
          Option.bind_some, heq']
      · rw [Slot.callersAt, Slot.waiters, hst]
        rfl
  · exact ⟨s, s, rfl, h, rfl, .inl rfl⟩

/-- **One message.**  From a coherent state every message is handled, and the state after it is
coherent; the backend log only grows, and only a `down` lets callers go unanswered. -/
theorem handle_spec (backend : Backend α ρ) (h : Coherent s s [] []) (msg : Message κ α ρ) :
    ∃ s' base, handle backend s msg = some s' ∧ Coherent base s' [] [] ∧
      base.backendLog = s.backendLog ∧ (base.withdrawn = s.withdrawn ∨
        ∃ r reason m slot, msg = .down r reason ∧ s.slots.get? m = some slot ∧
          base.withdrawn = slot.callersAt r ++ s.withdrawn) := by
  have hbase : ∀ {o : Option (State κ ρ)}, (∃ s', o = some s' ∧ Coherent s s' [] []) →
      ∃ s' base, o = some s' ∧ Coherent base s' [] [] ∧ base.backendLog = s.backendLog ∧
        (base.withdrawn = s.withdrawn ∨ ∃ r reason m slot, msg = .down r reason ∧
          s.slots.get? m = some slot ∧ base.withdrawn = slot.callersAt r ++ s.withdrawn) :=
    fun ⟨s', heq, h'⟩ => ⟨s', s, heq, h', rfl, .inl rfl⟩
  cases msg with
  | checkout caller key => exact hbase (handleCheckout_spec backend (openCall_coherent h caller) key)
  | checkoutCached caller key =>
    exact hbase (handleCheckoutCached_spec (openCall_coherent h caller) key)
  | rememberSkip caller key =>
    exact hbase (handleRememberSkip_spec (openCall_coherent h caller) key)
  | admitRegion caller key => exact hbase (handleAdmitRegion_spec (openCall_coherent h caller) key)
  | checkin caller lease =>
    exact hbase (handleCheckin_spec backend (openCall_coherent h caller) lease)
  | validateLease caller lease =>
    exact hbase (handleValidateLease_spec (openCall_coherent h caller) lease)
  | drain caller => exact hbase (handleDrain_spec backend (openCall_coherent h caller))
  | checkinActive caller lease => exact hbase (handleCheckinActive_spec backend h caller lease)
  | taskResult r result => exact hbase (handleTaskResult_spec backend h r result)
  | drainTimeout r => exact hbase ⟨_, rfl, handleDrainTimeout_coherent h r⟩
  | compileTimeout r => exact hbase (handleTaskResult_spec backend h r _)
  | down r reason =>
    obtain ⟨s', base, heq, h', hlog, hw⟩ := handleDown_spec backend h r reason
    refine ⟨s', base, heq, h', hlog, hw.imp id ?_⟩
    exact fun ⟨m, slot, hslot, hwith⟩ => ⟨r, reason, m, slot, rfl, hslot, hwith⟩

/-! ### The initial state -/

/-- What holds while `init` goes through the modules; `done` are those it has been at. -/
structure Initialising (s : State κ ρ) (done : List Module) : Prop where
  slots : ∀ m slot, s.slots.get? m = some slot → ∃ st, st.Vacant ∧ slot = ⟨m, 0, st⟩
  slot_iff : ∀ m, m ∈ done ↔ ∃ slot, s.slots.get? m = some slot
  log : ∀ c ∈ s.backendLog, ∃ m, c = .retire m 0
  keys : s.keyIndex = ∅
  leases : s.leases = ∅
  monitors : s.monitorIndex = ∅
  tasks : s.tasks = ∅
  drain : s.drain = none
  calls : s.issued = [] ∧ s.replies = [] ∧ s.withdrawn = []

theorem initializeSlot_initialising (backend : Backend α ρ) {done : List Module}
    (h : Initialising s done) (m : Module) :
    Initialising (initializeSlot backend s m) (m :: done) := by
  have hn : leasesOn s.leases m = 0 := by
    rw [h.leases]
    exact Assoc.sumBy_empty _
  refine ⟨?_, ?_, ?_, h.keys, h.leases, h.monitors, h.tasks, h.drain, h.calls⟩
  · intro j slot hj
    rcases Assoc.get?_put_cases hj with ⟨rfl, rfl⟩ | ⟨-, hj⟩
    · refine ⟨_, ?_, rfl⟩
      split
      · exact .inl rfl
      · exact .inr ⟨_, rfl⟩
    · exact h.slots j slot hj
  · intro j
    show _ ↔ ∃ slot, (s.slots.put m _).get? j = some slot
    rw [List.mem_cons, Assoc.get?_put_eq, h.slot_iff]
    by_cases hj : j = m
    · simp [hj]
    · simp [hj]
  · intro c hc
    rcases List.mem_cons.1 hc with rfl | hc
    · exact ⟨m, by rw [hn]⟩
    · exact h.log c hc

theorem foldl_initializeSlot (backend : Backend α ρ) : ∀ (ms done : List Module) (s : State κ ρ),
    Initialising s done → Initialising (ms.foldl (initializeSlot backend) s) (ms.reverse ++ done)
  | [], _, _, h => h
  | m :: ms, done, s, h => by
    have h' := foldl_initializeSlot backend ms _ _ (initializeSlot_initialising backend h m)
    rw [List.reverse_cons, List.append_assoc]
    exact h'

theorem initializeSlot_modules (backend : Backend α ρ) (ms : List Module) (s : State κ ρ) :
    (ms.foldl (initializeSlot backend) s).modules = s.modules := by
  induction ms generalizing s with
  | nil => rfl
  | cons m ms ih => exact ih _

theorem init_coherent (backend : Backend α ρ) (self : Pid) (capacity timeout epoch : ℕ) :
    Coherent (init backend self capacity timeout epoch : State κ ρ)
      (init backend self capacity timeout epoch) [] [] := by
  let empty : State κ ρ :=
    { self, compileTimeout := timeout, epoch, modules := poolModules.take capacity, slots := ∅,
      keyIndex := ∅, skipIndex := ∅, regionAdmissions := ∅, regionHot := ∅,
      regionHotCapacity := max (capacity / 2) 1, leases := ∅, monitorIndex := ∅, tasks := ∅,
      clock := 0, mode := .running, drain := none, nextRef := 0, backendLog := [],
      replies := [], issued := [], withdrawn := [] }
  have h₀ : Initialising empty [] := by
    refine ⟨fun m slot he => (by cases he), fun m => ⟨fun hm => (by cases hm), ?_⟩,
      fun c hc => (by cases hc), rfl, rfl, rfl, rfl, rfl, rfl, rfl, rfl⟩
    rintro ⟨_, he⟩
    cases he
  have h := foldl_initializeSlot backend poolModules [] empty h₀
  rw [List.append_nil] at h
  generalize hall : poolModules.foldl (initializeSlot backend) empty = all at h
  have hmods : all.modules = poolModules.take capacity := by
    rw [← hall, initializeSlot_modules]
  have hinit : init backend self capacity timeout epoch =
      { all with slots := (poolModules.drop capacity).foldl Assoc.delete all.slots } := by
    rw [← hall]
    rfl
  rw [hinit]
  have hget : ∀ m slot, ((poolModules.drop capacity).foldl Assoc.delete all.slots).get? m =
      some slot → ∃ st, st.Vacant ∧ slot = ⟨m, 0, st⟩ := by
    intro m slot hm
    rw [Assoc.get?_foldl_delete] at hm
    split at hm
    · cases hm
    · exact h.slots m slot hm
  have hnone : ∀ (P : Slot κ ρ → Prop), (∀ m st, SlotStatus.Vacant st → ¬ P ⟨m, 0, st⟩) → ∀ m,
      ¬ ∃ slot, ((poolModules.drop capacity).foldl Assoc.delete all.slots).get? m = some slot ∧
        P slot := by
    rintro P hP m ⟨slot, hm, hp⟩
    obtain ⟨st, hvac, rfl⟩ := hget m slot hm
    exact hP m st hvac hp
  have hinst : ∀ m, installs m all.backendLog = 0 := by
    intro m
    rw [installs, List.countP_eq_zero]
    intro c hc
    obtain ⟨j, rfl⟩ := h.log c hc
    simp
  constructor
  case toSlotsIndexed =>
    constructor
    case slot_module =>
      intro m slot hm
      obtain ⟨st, -, rfl⟩ := hget m slot hm
      rfl
    case slot_iff =>
      intro m
      simp only [hmods, Assoc.get?_foldl_delete]
      have hiff := h.slot_iff m
      rw [List.mem_reverse] at hiff
      have hnd : poolModules.Nodup := List.nodup_range
      have hsplit : m ∈ poolModules ↔ m ∈ poolModules.take capacity ∨ m ∈ poolModules.drop capacity :=
        by rw [← List.mem_append, List.take_append_drop]
      have hdisj : m ∈ poolModules.take capacity → m ∉ poolModules.drop capacity :=
        fun ht hd => List.disjoint_take_drop hnd (le_refl _) ht hd
      split
      · rename_i hd
        exact ⟨fun ht => absurd hd (hdisj ht), by rintro ⟨_, ⟨⟩⟩⟩
      · rename_i hd
        rw [← hiff, hsplit]
        exact ⟨.inl, fun hor => hor.resolve_right hd⟩
    case key_index =>
      intro k m
      rw [h.keys]
      exact iff_of_false (by rintro ⟨⟩)
        (hnone _ (fun m st hvac => by rw [(hvac.observe m 0).1]; rintro ⟨⟩) m)
    case task_index =>
      intro r m
      rw [h.tasks]
      exact iff_of_false (by rintro ⟨⟩)
        (hnone _ (fun m st hvac => by rw [(hvac.observe m 0).2.2.1]; rintro ⟨⟩) m)
    case generation =>
      intro m slot hm
      obtain ⟨st, -, rfl⟩ := hget m slot hm
      exact (hinst m).symm
  case lease_count =>
    intro m slot hm
    obtain ⟨st, hvac, rfl⟩ := hget m slot hm
    rw [(hvac.observe m 0).2.2.2.2, h.leases]
    rfl
  case lease_live => rw [h.leases]; rintro _ _ ⟨⟩
  case monitor_lease =>
    intro r t
    rw [h.monitors, h.leases]
    exact iff_of_false (by rintro ⟨⟩) (by rintro ⟨_, he, -⟩; cases he)
  case monitor_waiter =>
    intro r m
    rw [h.monitors]
    refine iff_of_false (by rintro ⟨⟩) ?_
    rintro ⟨w, ⟨slot, hm, hw⟩ | hw, -⟩
    · obtain ⟨st, hvac, rfl⟩ := hget m slot hm
      rw [(hvac.observe m 0).2.2.2.1] at hw
      cases hw
    · cases hw
  case waiter_nodup =>
    intro m slot hm
    obtain ⟨st, hvac, rfl⟩ := hget m slot hm
    rw [(hvac.observe m 0).2.2.2.1]
    exact List.nodup_nil
  case loose_nodup => exact List.nodup_nil
  case loose_slot => rintro _ ⟨⟩
  case fresh_lease => rw [h.leases]; rintro _ _ ⟨⟩
  case fresh_monitor => rw [h.monitors]; rintro _ _ ⟨⟩
  case fresh_task => rw [h.tasks]; rintro _ _ ⟨⟩
  case fresh_issued => rw [h.calls.1]; rintro _ ⟨⟩
  case unleased =>
    intro c hc
    obtain ⟨m, rfl⟩ := h.log c hc
    rfl
  case history => exact List.suffix_refl _
  case withdrawn_same => rfl
  case issued_nodup => rw [h.calls.1]; exact List.nodup_nil
  case no_drain => exact fun _ => h.drain
  case ledger =>
    intro f
    have hw : waitingCount ((poolModules.drop capacity).foldl Assoc.delete all.slots) f = 0 := by
      refine Assoc.sumBy_eq_zero.2 fun m slot hm => ?_
      obtain ⟨st, hvac, rfl⟩ := hget m slot hm
      rw [(hvac.observe m 0).2.2.2.1]
      rfl
    simp only [calls, hw, h.calls, h.drain]
    rfl

/-! ### The invariant of all runs -/

def Message.endsTask (r : Ref) : Message κ α ρ → Prop
  | .taskResult r' _ => r' = r
  | .compileTimeout r' => r' = r
  | .down r' _ => r' = r
  | _ => False

/-- What one message does not break, from a state `s` to a state `s'`. -/
structure StepPromise (s : State κ ρ) (msg : Message κ α ρ) (s' : State κ ρ) : Prop where
  /-- The log of backend calls only grows. -/
  log_grows : s.backendLog <:+ s'.backendLog
  /-- No generation falls, and an installation raises it. -/
  generation_grows : ∀ m slot slot', s.slots.get? m = some slot → s'.slots.get? m = some slot' →
    slot.generation ≤ slot'.generation ∧
      (installs m s.backendLog < installs m s'.backendLog → slot.generation < slot'.generation)
  /-- A lease that stays finds its slot ready, with the key and the generation it had. -/
  leased_stays : ∀ t r, s.leases.get? t = some r → s'.leases.get? t = some r →
    ∃ slot slot', s.slots.get? r.module = some slot ∧ s'.slots.get? r.module = some slot' ∧
      slot'.readyKey? = slot.readyKey? ∧ slot'.generation = slot.generation
  /-- The end of a task answers every waiter of its slot. -/
  end_answers : ∀ r m slot, msg.endsTask r → s.tasks.get? r = some ⟨m⟩ →
    s.slots.get? m = some slot → ∀ w ∈ slot.waiters, w.origin ∈ s'.replies.map Prod.fst
  /-- A caller leaves without an answer only when its own monitor has gone down. -/
  withdrawn_down : s'.withdrawn = s.withdrawn ∨ ∃ r reason m slot, msg = .down r reason ∧
    s.slots.get? m = some slot ∧ s'.withdrawn = slot.callersAt r ++ s.withdrawn

structure PoolInvariant (backend : Backend α ρ) (s : State κ ρ) : Prop where
  /-- The lease count of a slot is the number of live leases naming it. -/
  lease_count : ∀ m slot, s.slots.get? m = some slot → slot.leaseCount = leasesOn s.leases m
  /-- Only ready slots are leased, under the key and the generation of the lease. -/
  lease_ready : ∀ t r, s.leases.get? t = some r → ∃ slot, s.slots.get? r.module = some slot ∧
    slot.readyKey? = some r.lease.key ∧ slot.generation = r.lease.generation
  /-- The key index maps exactly the keys of ready or compiling slots, to their slot. -/
  key_index : ∀ k m, s.keyIndex.get? k = some m ↔
    ∃ slot, s.slots.get? m = some slot ∧ slot.key? = some k
  /-- The monitor index covers exactly the live leases … -/
  monitor_lease : ∀ r t, s.monitorIndex.get? r = some (.lease t) ↔
    ∃ record, s.leases.get? t = some record ∧ record.monitor = r
  /-- … and the waiters. -/
  monitor_waiter : ∀ r m, s.monitorIndex.get? r = some (.waiter m) ↔
    ∃ slot w, s.slots.get? m = some slot ∧ w ∈ slot.waiters ∧ w.monitor = r
  /-- The task index covers exactly the compiling slots. -/
  task_index : ∀ r m, s.tasks.get? r = some ⟨m⟩ ↔
    ∃ slot, s.slots.get? m = some slot ∧ slot.taskRef? = some r
  /-- The backend was never asked to retire or install a module under a live lease. -/
  unleased : ∀ c ∈ s.backendLog, c.leases = 0
  /-- The generation of a slot is the number of installations into it. -/
  generation : ∀ m slot, s.slots.get? m = some slot → slot.generation = installs m s.backendLog
  /-- A lease of another generation is rejected. -/
  stale_rejected : ∀ (lease : Lease κ) caller slot record,
    s.slots.get? lease.module = some slot → slot.generation ≠ lease.generation →
      fetchLease s lease caller ≠ .ok record
  /-- Calls are told apart by their tag. -/
  issued_nodup : s.issued.Nodup
  /-- Every call is in one place: answered once, waiting in one slot, withdrawn with its
  process, or the call of the drain in progress. -/
  accounted : ∀ f ∈ s.issued, calls s [] [] f = 1
  /-- Only calls are answered. -/
  answered_issued : ∀ f, f ∈ s.replies.map Prod.fst → f ∈ s.issued
  /-- Every message is handled. -/
  step : ∀ msg : Message κ α ρ, ∃ s', (machine backend).step s msg = some s' ∧
    StepPromise s msg s'

theorem Coherent.accounted (h : Coherent s₀ s [] []) {f : From} (hf : f ∈ s.issued) :
    calls s [] [] f = 1 := by
  rw [← h.ledger f]
  exact List.count_eq_one_of_mem h.issued_nodup hf

theorem handle_promise (backend : Backend α ρ) (h : Coherent s s [] []) (msg : Message κ α ρ) :
    ∃ s', handle backend s msg = some s' ∧ StepPromise s msg s' ∧ Coherent s' s' [] [] := by
  obtain ⟨s', base, heq, h', hlog, hw⟩ := handle_spec backend h msg
  have hsuf : s.backendLog <:+ s'.backendLog := hlog ▸ h'.history
  refine ⟨s', heq, ⟨hsuf, ?_, ?_, ?_, ?_⟩, h'.restart⟩
  · intro m slot slot' hslot hslot'
    rw [h.generation m slot hslot, h'.generation m slot' hslot']
    exact ⟨hsuf.sublist.countP_le, id⟩
  · intro t r hr hr'
    obtain ⟨slot, hslot, hk, hg⟩ := (h.lease_live t r hr).slot
    obtain ⟨slot', hslot', hk', hg'⟩ := (h'.lease_live t r hr').slot
    exact ⟨slot, slot', hslot, hslot', hk'.trans hk.symm, hg'.trans hg.symm⟩
  · intro r m slot hends htask hslot
    -- all three messages run `endTask`
    have hend : ∃ result, handle backend s msg = endTask backend s r ⟨m⟩ result := by
      cases msg with
      | taskResult r' result =>
        cases hends
        exact ⟨result, by simp only [handle, handleTaskResult, htask]⟩
      | compileTimeout r' =>
        cases hends
        exact ⟨_, by simp only [handle, handleCompileTimeout, handleTaskResult, htask]; rfl⟩
      | down r' reason =>
        cases hends
        exact ⟨_, by simp only [handle, handleDown, htask]; rfl⟩
      | _ => exact absurd hends id
    obtain ⟨result, hend⟩ := hend
    obtain ⟨s'', heq', -, -, -, hall⟩ := endTask_spec backend h htask result
    rw [hend, heq'] at heq
    cases heq
    exact hall slot hslot
  · rw [h'.withdrawn_same]
    exact hw

/-- **The pool invariant holds in every reachable state**, for any order of messages and any
answers of the backend. -/
theorem pool_invariant (backend : Backend α ρ) (h : (machine (κ := κ) backend).Reachable s) :
    PoolInvariant backend s := by
  have hc : Coherent s s [] [] := by
    refine Machine.Reachable.invariant (I := fun s => Coherent s s [] []) ?_ ?_ h
    · rintro s ⟨self, capacity, timeout, epoch, -, -, rfl⟩
      exact init_coherent backend self capacity timeout epoch
    · intro s msg s' hs hstep
      obtain ⟨s'', heq, -, h''⟩ := handle_promise backend hs msg
      cases heq.symm.trans hstep
      exact h''
  refine ⟨hc.lease_count, fun t r hr => (hc.lease_live t r hr).slot, hc.key_index,
    hc.monitor_lease, ?_, hc.task_index, hc.unleased, hc.generation, ?_, hc.issued_nodup,
    fun f hf => hc.accounted hf, ?_, ?_⟩
  · intro r m
    rw [hc.monitor_waiter]
    constructor
    · rintro ⟨w, ⟨slot, hslot, hw⟩ | hw, hr⟩
      · exact ⟨slot, w, hslot, hw, hr⟩
      · cases hw
    · rintro ⟨slot, w, hslot, hw, hr⟩
      exact ⟨w, .inl ⟨slot, hslot, hw⟩, hr⟩
  · intro lease caller slot record hslot hne hfetch
    obtain ⟨hrec, rfl⟩ := fetchLease_ok hfetch
    have hlive := hc.lease_live _ _ hrec
    obtain ⟨slot', hslot', -, hg⟩ := hlive.slot
    rw [← hlive.lease.2.1, hslot] at hslot'
    cases hslot'
    exact hne hg
  · intro f hf
    have hpos : 0 < s.issued.count f := by
      rw [hc.ledger f, calls]
      have := List.count_pos_iff.2 hf
      omega
    exact List.count_pos_iff.1 hpos
  · intro msg
    obtain ⟨s', heq, hprom, -⟩ := handle_promise backend hc msg
    exact ⟨s', heq, hprom⟩

/-! ### A run -/

def acceptingBackend : Backend Unit Unit := ⟨fun _ _ => .ok, fun _ _ _ => .ok⟩

/-- Two processes ask for one key, the first one dies, the compilation ends, the lease is
returned. -/
def twoCallers : List (Message ℕ Unit Unit) :=
  [.checkout 7 3, .checkout 8 3, .down 1 (), .taskResult 2 (.ok ())]

def afterTwoCallers : State ℕ Unit :=
  ((machine acceptingBackend).exec (init acceptingBackend 0 1 5 9) twoCallers).get (by decide)

theorem afterTwoCallers_reachable :
    (machine (κ := ℕ) acceptingBackend).Reachable afterTwoCallers :=
  Machine.reachable_of_exec ⟨0, 1, 5, 9, by decide, by decide, rfl⟩ (Option.some_get _).symm

/-- The run above: its state keeps the invariant, with one lease out and the first caller
withdrawn. -/
theorem pool_invariant_twoCallers :
    PoolInvariant acceptingBackend afterTwoCallers ∧ afterTwoCallers.leases.size = 1 ∧
      afterTwoCallers.withdrawn = [⟨7, 0⟩] ∧ afterTwoCallers.replies.map Prod.fst = [⟨8, 3⟩] :=
  ⟨pool_invariant acceptingBackend afterTwoCallers_reachable, by decide, by decide, by decide⟩

end QuickBeam.Vm.Compiler.Pool
