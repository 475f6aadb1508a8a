import QuickBeam.Vm.Runtime.PromiseResolution

/-!
# What a step leaves alone

An operation that resolves other promises than `p` leaves `p` alone, and no operation touches the
record of an aggregate but the jobs of that aggregate.  `Frame p id free s s'` collects both, for
a change from `s` to `s'`; `free` is the condition under which the change does not resolve `p`.
`step_frame` is the frame of one step, `runJob_frame` that of a job.
-/

set_option linter.unusedSectionVars false

namespace QuickBeam.Vm.Runtime.Promise

open QuickBeam.Lib

variable {ν η : Type} {env : Env ν η} {s t s' : State ν η} {p id : ℕ} {free : Prop}

/-! ### What is left alone -/

def Waiter.feeds? : Waiter ν → Option ℕ
  | .reaction rx => some rx.resultPromise
  | .adopt target => some target
  | .finallyAdopt target _ => some target
  | .coroutine _ => none
  | .aggregate _ _ => none

def Job.feeds? : Job ν → Option ℕ
  | .runReaction rx _ => some rx.resultPromise
  | .settleAssimilated target _ => some target
  | .settlePromise target _ => some target
  | .assimilateThenable p _ _ => some p
  | .resumeCoroutine _ _ => none
  | .aggregateSettle _ _ _ => none
  | .microtask _ => none

theorem Waiter.feeds?_job (w : Waiter ν) (r : Result ν) : (w.job r).feeds? = w.feeds? := by
  cases w <;> rfl

/-- Nothing that is under way resolves `p`, except the aggregate `id`. -/
structure Quiet (p id : ℕ) (s : State ν η) : Prop where
  waiters : ∀ q, ∀ w ∈ s.waitersOf q, w.feeds? ≠ some p
  jobs : ∀ j ∈ s.jobs, j.feeds? ≠ some p
  syncJobs : ∀ j ∈ s.syncJobs, j.promise ≠ p
  getters : ∀ g b, s.getters.get? g = some b → b.promise ≠ p
  assimilations : ∀ a b, s.assimilations.get? a = some b → b.promise ≠ p
  reactions : ∀ a b, s.reactions.get? a = some b → b.promise ≠ p
  aggregates : ∀ a b, s.aggregates.get? a = some b → a ≠ id → b.promise ≠ p

/-- The members of the aggregate `id` with their indices, in the order in which they were
added. -/
def memberships (s : State ν η) (id : ℕ) : List (ℕ × ℕ) :=
  s.registered.filterMap fun e =>
    match e.waiter with
    | .aggregate id' index => if id' = id then some (e.promise, index) else none
    | _ => none

/-- The settlement of a member that a job brings to the aggregate `id`. -/
def Job.outcome? (id : ℕ) : Job ν → Option (ℕ × Result ν)
  | .aggregateSettle id' index r => if id' = id then some (index, r) else none
  | _ => none

/-- Jobs are only added, and none of the aggregate `id` that is made of no waiter. -/
def Grows (id : ℕ) (s s' : State ν η) : Prop :=
  ∃ new : List (Option ℕ × Job ν), s'.history = s.history ++ new ∧
    s'.jobs = s.jobs ++ new.map Prod.snd ∧ ∀ e ∈ new, e.1 = none → e.2.outcome? id = none

theorem Grows.same (hh : s'.history = s.history) (hj : s'.jobs = s.jobs) : Grows id s s' :=
  ⟨[], by rw [hh, List.append_nil], by rw [hj, List.map_nil, List.append_nil],
    fun _ he => absurd he List.not_mem_nil⟩

theorem Grows.trans (h₁ : Grows id s t) (h₂ : Grows id t s') : Grows id s s' := by
  obtain ⟨new₁, hh₁, hj₁, ho₁⟩ := h₁
  obtain ⟨new₂, hh₂, hj₂, ho₂⟩ := h₂
  refine ⟨new₁ ++ new₂, ?_, ?_, fun e he => ?_⟩
  · rw [hh₂, hh₁, List.append_assoc]
  · rw [hj₂, hj₁, List.map_append, List.append_assoc]
  · rcases List.mem_append.1 he with he | he
    · exact ho₁ e he
    · exact ho₂ e he

/-- A number is not among those that are handed out between two values of a counter. -/
def Apart (k before after : ℕ) : Prop := after ≤ k ∨ k < before

/-- What a change that resolves `p` only against `free` leaves alone. -/
structure Frame (p id : ℕ) (free : Prop) (s s' : State ν η) : Prop where
  nextPromise : s.nextPromise ≤ s'.nextPromise
  nextRef : s.nextRef ≤ s'.nextRef
  grows : Grows id s s'
  aggregate : Apart id s.nextRef s'.nextRef →
    s'.aggregates.get? id = s.aggregates.get? id ∧ memberships s' id = memberships s id
  promise : free → Apart p s.nextPromise s'.nextPromise → Quiet p id s →
    Quiet p id s' ∧ s'.promises.get? p = s.promises.get? p

theorem Frame.refl (s : State ν η) : Frame p id free s s :=
  ⟨le_refl _, le_refl _, .same rfl rfl, fun _ => ⟨rfl, rfl⟩, fun _ _ h => ⟨h, rfl⟩⟩

theorem Frame.trans (h₁ : Frame p id free s t) (h₂ : Frame p id free t s') :
    Frame p id free s s' := by
  have hp₁ := h₁.nextPromise
  have hp₂ := h₂.nextPromise
  have hr₁ := h₁.nextRef
  have hr₂ := h₂.nextRef
  refine ⟨le_trans hp₁ hp₂, le_trans hr₁ hr₂, h₁.grows.trans h₂.grows, fun ha => ?_, fun hfree ha hq => ?_⟩
  · have ha₁ : Apart id s.nextRef t.nextRef := ha.imp (fun h => le_trans hr₂ h) fun h => h
    have ha₂ : Apart id t.nextRef s'.nextRef := ha.imp (fun h => h) fun h => lt_of_lt_of_le h hr₁
    obtain ⟨hm₁, hn₁⟩ := h₁.aggregate ha₁
    obtain ⟨hm₂, hn₂⟩ := h₂.aggregate ha₂
    exact ⟨hm₂.trans hm₁, hn₂.trans hn₁⟩
  · have ha₁ : Apart p s.nextPromise t.nextPromise := ha.imp (fun h => le_trans hp₂ h) fun h => h
    have ha₂ : Apart p t.nextPromise s'.nextPromise :=
      ha.imp (fun h => h) fun h => lt_of_lt_of_le h hp₁
    obtain ⟨hq₁, he₁⟩ := h₁.promise hfree ha₁ hq
    obtain ⟨hq₂, he₂⟩ := h₂.promise hfree ha₂ hq₁
    exact ⟨hq₂, he₂.trans he₁⟩

/-! ### Small updates -/

variable {q : ℕ}

theorem frame_setPromise (st : PromiseState ν) (hq : free → q ≠ p) :
    Frame p id free s (s.setPromise q st) := by
  refine ⟨le_refl _, le_refl _, .same rfl rfl, fun _ => ⟨rfl, rfl⟩, fun hfree _ h => ⟨{ h with }, ?_⟩⟩
  exact Assoc.get?_put_ne _ _ (Ne.symm (hq hfree))

variable {job : Job ν} {o : Option ℕ}

theorem grows_enqueue (ho : o = none → job.outcome? id = none) : Grows id s (s.enqueue o job) := by
  refine ⟨[(o, job)], rfl, rfl, fun e he => ?_⟩
  rw [List.mem_singleton.1 he]
  exact ho

theorem frame_enqueue (ho : o = none → job.outcome? id = none) (hjob : free → job.feeds? ≠ some p) :
    Frame p id free s (s.enqueue o job) := by
  refine ⟨le_refl _, le_refl _, grows_enqueue ho, fun _ => ⟨rfl, rfl⟩,
    fun hfree _ h => ⟨{ h with jobs := ?_ }, rfl⟩⟩
  intro j hj
  rcases List.mem_append.1 hj with hj | hj
  · exact h.jobs j hj
  · rw [List.mem_singleton.1 hj]
    exact hjob hfree

theorem frame_enqueueSync {job : SyncJob ν} (hjob : free → job.promise ≠ p) :
    Frame p id free s (s.enqueueSync job) := by
  refine ⟨le_refl _, le_refl _, .same rfl rfl, fun _ => ⟨rfl, rfl⟩,
    fun hfree _ h => ⟨{ h with syncJobs := ?_ }, rfl⟩⟩
  intro j hj
  rcases List.mem_append.1 hj with hj | hj
  · exact h.syncJobs j hj
  · rw [List.mem_singleton.1 hj]
    exact hjob hfree

def Waiter.membership? (id q : ℕ) : Waiter ν → Option (ℕ × ℕ)
  | .aggregate id' index => if id' = id then some (q, index) else none
  | _ => none

theorem memberships_register (s : State ν η) (q : ℕ) (w : Waiter ν) (b : Bool) (id : ℕ) :
    memberships (s.register q w b) id = memberships s id ++ (w.membership? id q).toList := by
  show List.filterMap _ (s.registered ++ [⟨q, w, b⟩]) = _
  rw [List.filterMap_append]
  rfl

variable {w : Waiter ν}

theorem frame_register {b : Bool} (hw : w.membership? id q = none) :
    Frame p id free s (s.register q w b) := by
  refine ⟨le_refl _, le_refl _, .same rfl rfl, fun _ => ⟨rfl, ?_⟩, fun _ _ h => ⟨{ h with }, rfl⟩⟩
  rw [memberships_register, hw]
  exact List.append_nil _

theorem quiet_setWaiters {waiters : Assoc ℕ (List (Waiter ν))} (h : Quiet p id s)
    (hw : ∀ q, ∀ w ∈ (waiters.get? q).getD [], w.feeds? ≠ some p) :
    Quiet p id { s with waiters } :=
  { h with waiters := hw }

/-- A waiter of another promise, or of `p` itself, that resolves another one. -/
theorem quiet_addWaiter (hw : w.feeds? ≠ some p) (h : Quiet p id s) :
    Quiet p id (s.addWaiter q w) := by
  have hput : Quiet p id { s with waiters := s.waiters.put q (w :: s.waitersOf q) } := by
    refine quiet_setWaiters h fun q' w' hw' => ?_
    rw [Assoc.get?_put_eq] at hw'
    split at hw'
    · rcases List.mem_cons.1 hw' with rfl | hw'
      · exact hw
      · exact h.waiters q w' hw'
    · exact h.waiters q' w' hw'
  exact { hput with }

theorem frame_addWaiter (hw : free → w.feeds? ≠ some p) (hm : w.membership? id q = none) :
    Frame p id free s (s.addWaiter q w) := by
  refine ⟨le_refl _, le_refl _, .same rfl rfl, fun _ => ⟨rfl, ?_⟩, fun hfree _ h =>
    ⟨quiet_addWaiter (hw hfree) h, rfl⟩⟩
  have h := memberships_register s q w false id
  rw [hm] at h
  exact h.trans (List.append_nil _)

theorem frame_new (s : State ν η) : Frame p id free s (new s).2 := by
  refine ⟨Nat.le_succ _, le_refl _, .same rfl rfl, fun _ => ⟨rfl, rfl⟩, fun _ ha h => ⟨{ h with }, ?_⟩⟩
  refine Assoc.get?_put_ne _ _ fun he => ?_
  have hle : s.nextPromise + 1 ≤ p ∨ p < s.nextPromise := ha
  omega

theorem frame_ofNew (h : Frame p id (s.nextPromise ≠ p) (new s).2 s') :
    Frame p id free s s' := by
  have hnext : s.nextPromise + 1 ≤ s'.nextPromise := h.nextPromise
  have hall := (frame_new s).trans h
  refine ⟨hall.nextPromise, hall.nextRef, hall.grows, hall.aggregate,
    fun _ ha hq => hall.promise ?_ ha hq⟩
  have hle : s'.nextPromise ≤ p ∨ p < s.nextPromise := ha
  omega

theorem frame_wake (r : Result ν) (hq : free → q ≠ p) : Frame p id free s (s.wake q r) := by
  have hgrows : Grows id s (s.wake q r) := by
    rw [wake_eq]
    refine ⟨(s.waitersOf q).reverse.map fun w => (some q, w.job r), rfl, ?_, fun e he ho => ?_⟩
    · rw [List.map_map]
      rfl
    · obtain ⟨w, -, rfl⟩ := List.mem_map.1 he
      cases ho
  rw [wake_eq] at hgrows ⊢
  refine ⟨le_refl _, le_refl _, hgrows, fun _ => ⟨rfl, rfl⟩, fun hfree _ h =>
    ⟨{ h with waiters := ?_, jobs := ?_ }, Assoc.get?_put_ne _ _ (Ne.symm (hq hfree))⟩⟩
  · intro q' w hw
    have hw' : w ∈ ((s.waiters.delete q).get? q').getD [] := hw
    rw [Assoc.get?_delete_eq] at hw'
    split at hw'
    · cases hw'
    · exact h.waiters q' w hw'
  · intro j hj
    rcases List.mem_append.1 hj with hj | hj
    · exact h.jobs j hj
    · obtain ⟨w, hw, rfl⟩ := List.mem_map.1 hj
      rw [Waiter.feeds?_job]
      exact h.waiters q w (List.mem_reverse.1 hw)

/-! ### Settling -/

variable {r : Result ν}

theorem settleResult_frame (hq : free → q ≠ p) (h : settleResult s q r = some s') :
    Frame p id free s s' := by
  obtain ⟨st, -, rfl⟩ := Option.map_eq_some_iff.1 h
  cases st with
  | pending => exact frame_wake r hq
  | resolving => exact .refl s
  | settled r' => exact .refl s

theorem settlePlain_frame {v : Plain ν} (hq : free → q ≠ p) (h : settlePlain env s q v = some s') :
    Frame p id free s s' := by
  cases v with
  | term v => exact settleResult_frame hq h
  | object o =>
    obtain ⟨st, -, h⟩ := Option.bind_eq_some_iff.1 h
    cases st with
    | pending =>
      dsimp only at h
      split at h
      · cases h
        refine (frame_setPromise .resolving hq).trans (frame_enqueue (fun _ => rfl) fun hfree he => ?_)
        exact hq hfree (Option.some.inj he)
      · cases h
        exact (frame_setPromise .resolving hq).trans (frame_enqueueSync hq)
      · exact settleResult_frame hq h
    | resolving => cases h; exact .refl s
    | settled r' => cases h; exact .refl s

theorem settleAs_frame (hq : free → q ≠ p) (h : settleAs env s q r = some s') :
    Frame p id free s s' := by
  cases r with
  | ok v => exact settlePlain_frame hq h
  | error reason => exact settleResult_frame hq h

theorem settle_frame {r : Resolution ν} (hq : free → q ≠ p) (h : settle env s q r = some s') :
    Frame p id free s s' := by
  unfold settle at h
  split at h
  · rename_i q'
    split at h
    · exact settleResult_frame hq h
    · obtain ⟨st, -, h⟩ := Option.bind_eq_some_iff.1 h
      cases st with
      | pending =>
        obtain ⟨source, -, h⟩ := Option.bind_eq_some_iff.1 h
        cases hr : source.result? with
        | none =>
          rw [hr] at h
          cases h
          refine (frame_setPromise .resolving hq).trans (frame_addWaiter (fun hfree he => ?_) rfl)
          exact hq hfree (Option.some.inj he)
        | some r' =>
          rw [hr] at h
          obtain ⟨t, ht, rfl⟩ := Option.map_eq_some_iff.1 h
          exact (settleAs_frame hq ht).trans (frame_register rfl)
      | resolving => cases h; exact .refl s
      | settled r' => cases h; exact .refl s
  · exact settlePlain_frame hq h
  · exact settleResult_frame hq h

theorem settleAssimilated_frame {r : Resolution ν} (hq : free → q ≠ p)
    (h : settleAssimilated env s q r = some s') : Frame p id free s s' := by
  obtain ⟨st, -, h⟩ := Option.bind_eq_some_iff.1 h
  cases st with
  | resolving => exact (frame_setPromise .pending hq).trans (settle_frame hq h)
  | pending => cases h; exact .refl s
  | settled r' => cases h; exact .refl s

theorem fulfillAssimilated_frame {v : Plain ν} (hq : free → q ≠ p)
    (h : fulfillAssimilated s q v = some s') : Frame p id free s s' := by
  obtain ⟨st, -, h⟩ := Option.bind_eq_some_iff.1 h
  cases st with
  | resolving => exact (frame_setPromise .pending hq).trans (settleResult_frame hq h)
  | pending => cases h; exact .refl s
  | settled r' => cases h; exact .refl s

/-! ### Waiting -/

theorem attach_frame (hw : free → w.feeds? ≠ some p) (hm : w.membership? id q = none)
    (h : attach s q w = some s') : Frame p id free s s' := by
  obtain ⟨st, -, rfl⟩ := Option.map_eq_some_iff.1 h
  cases st.result? with
  | none => exact frame_addWaiter hw hm
  | some r =>
    refine (frame_register hm).trans (frame_enqueue (fun he => nomatch he) fun hfree => ?_)
    rw [Waiter.feeds?_job]
    exact hw hfree

variable {v : Value ν}

theorem fromValue_frame (h : fromValue env s v = some (q, s')) : Frame p id free s s' := by
  cases v with
  | promise q' => cases h; exact .refl s
  | plain v =>
    obtain ⟨t, ht, he⟩ := Option.map_eq_some_iff.1 h
    cases he
    exact frame_ofNew (settlePlain_frame (fun h => h) ht)

theorem react_frame {source : ℕ} {kind : ReactionKind} {f g : Value ν}
    (h : react s source kind f g = some s') : Frame p id free s s' := by
  have hattach : attach (new s).2 source (.reaction ⟨s.nextPromise, kind, f, g⟩) = some s' := h
  have hw : s.nextPromise ≠ p →
      Waiter.feeds? (.reaction ⟨s.nextPromise, kind, f, g⟩ : Waiter ν) ≠ some p :=
    fun hne he => hne (Option.some.inj he)
  exact frame_ofNew (attach_frame hw rfl hattach)

theorem settleAfterFinally_frame {source target : ℕ} {original : Result ν}
    (hq : free → target ≠ p) (h : settleAfterFinally env s source target original = some s') :
    Frame p id free s s' := by
  obtain ⟨st, -, h⟩ := Option.bind_eq_some_iff.1 h
  cases hr : st.result? with
  | none =>
    rw [hr] at h
    cases h
    exact frame_addWaiter (fun hfree he => hq hfree (Option.some.inj he)) rfl
  | some r =>
    rw [hr] at h
    obtain ⟨t, ht, rfl⟩ := Option.map_eq_some_iff.1 h
    exact (settleAs_frame hq ht).trans (frame_register rfl)

/-! ### Aggregates -/

variable {id' : ℕ}

theorem aggregateValues_frame (hid : id' ≠ id) : ∀ (values : List (Value ν × ℕ)) (s s' : State ν η),
      values.foldlM (aggregateValue env id') s = some s' → Frame p id free s s'
  | [], s, s', h => by
    cases h
    exact .refl s
  | v :: vs, s, s', h => by
    rw [List.foldlM_cons] at h
    obtain ⟨t, ht, h⟩ := Option.bind_eq_some_iff.1 h
    obtain ⟨⟨q, u⟩, hu, ht⟩ := Option.bind_eq_some_iff.1 ht
    have hw : (Waiter.aggregate id' v.2 : Waiter ν).membership? id q = none := if_neg hid
    have hattach : Frame p id free u t := attach_frame (by rintro - ⟨⟩) hw ht
    exact ((fromValue_frame hu).trans hattach).trans (aggregateValues_frame hid vs t s' h)

theorem aggregateInto_frame {kind : AggregateKind} {values : List (Value ν)}
    (hid : Apart id s.nextRef s'.nextRef) (hq : free → q ≠ p)
    (h : aggregateInto env s q kind values = some s') : Frame p id free s s' := by
  unfold aggregateInto at h
  split at h
  · cases kind with
    | all => exact settle_frame hq h
    | allSettled => exact settle_frame hq h
    | any => exact settle_frame hq h
    | race => cases h; exact .refl s
  · have hvalues : Frame p (s.nextRef + 1) free { s with
        aggregates := s.aggregates.put s.nextRef ⟨kind, q, values.length, ∅⟩
        nextRef := s.nextRef + 1 } s' :=
      aggregateValues_frame (Nat.ne_of_lt (Nat.lt_succ_self _)) _ _ _ h
    have hnext : s.nextRef + 1 ≤ s'.nextRef := hvalues.nextRef
    have hne : s.nextRef ≠ id := by
      have hle : s'.nextRef ≤ id ∨ id < s.nextRef := hid
      omega
    refine Frame.trans (t := { s with
      aggregates := s.aggregates.put s.nextRef ⟨kind, q, values.length, ∅⟩
      nextRef := s.nextRef + 1 }) ?_ (aggregateValues_frame hne _ _ _ h)
    refine ⟨le_refl _, Nat.le_succ _, .same rfl rfl, fun _ => ⟨Assoc.get?_put_ne _ _ (Ne.symm hne), rfl⟩,
      fun hfree _ hquiet => ⟨{ hquiet with aggregates := ?_ }, rfl⟩⟩
    intro a b hget ha
    have hget' : (s.aggregates.put s.nextRef ⟨kind, q, values.length, ∅⟩).get? a = some b := hget
    rw [Assoc.get?_put_eq] at hget'
    split at hget'
    · cases hget'
      exact hq hfree
    · exact hquiet.aggregates a b hget' ha

theorem frame_closeAggregate (hid : id' ≠ id) :
    Frame p id free s { s with aggregates := s.aggregates.delete id' } := by
  refine ⟨le_refl _, le_refl _, .same rfl rfl, fun _ => ⟨Assoc.get?_delete_ne _ (Ne.symm hid), rfl⟩,
    fun _ _ h => ⟨{ h with aggregates := ?_ }, rfl⟩⟩
  intro a b hget ha
  exact h.aggregates a b (Assoc.get?_of_delete hget) ha

variable {aggregate : Aggregate ν}

theorem frame_storeAggregate (hid : id' ≠ id) (hq : free → aggregate.promise ≠ p) :
    Frame p id free s { s with aggregates := s.aggregates.put id' aggregate } := by
  refine ⟨le_refl _, le_refl _, .same rfl rfl, fun _ => ⟨Assoc.get?_put_ne _ _ (Ne.symm hid), rfl⟩,
    fun hfree _ h => ⟨{ h with aggregates := ?_ }, rfl⟩⟩
  intro a b hget ha
  have hget' : (s.aggregates.put id' aggregate).get? a = some b := hget
  rw [Assoc.get?_put_eq] at hget'
  split at hget'
  · cases hget'
    exact hq hfree
  · exact h.aggregates a b hget' ha

theorem finishOrStore_frame {finish : List (Value ν) → Resolution ν} (hid : id' ≠ id)
    (hq : free → aggregate.promise ≠ p) (h : finishOrStore env s id' aggregate finish = some s') :
    Frame p id free s s' := by
  unfold finishOrStore at h
  split at h
  · obtain ⟨values, -, h⟩ := Option.bind_eq_some_iff.1 h
    exact (frame_closeAggregate hid).trans (settle_frame hq h)
  · cases h
    exact frame_storeAggregate hid hq

theorem settleAggregate_frame {id' index : ℕ} (hid : id' ≠ id)
    (hq : free → ∀ a, s.aggregates.get? id' = some a → a.promise ≠ p)
    (h : settleAggregate env s id' index r = some s') : Frame p id free s s' := by
  unfold settleAggregate at h
  split at h
  · cases h
    exact .refl s
  · rename_i aggregate hget
    have hp : free → aggregate.promise ≠ p := fun hfree => hq hfree aggregate hget
    unfold updateAggregate at h
    split at h
    · exact (frame_closeAggregate hid).trans (settle_frame hp h)
    · refine finishOrStore_frame hid ?_ h
      exact hp
    · exact (frame_closeAggregate hid).trans (settle_frame hp h)
    · refine finishOrStore_frame hid ?_ h
      exact hp
    · refine finishOrStore_frame hid ?_ h
      exact hp
    · exact (frame_closeAggregate hid).trans (settle_frame hp h)
    · refine finishOrStore_frame hid ?_ h
      exact hp

/-! ### One step -/

def Resolves (p : ℕ) : Event ν η → Prop
  | .settle q _ => q = p
  | .aggregateInto q _ _ => q = p
  | _ => False

theorem runJob_frame (hjob : job.outcome? id = none) (hfeeds : free → job.feeds? ≠ some p)
    (hq : free → ∀ a b, s.aggregates.get? a = some b → a ≠ id → b.promise ≠ p)
    (h : runJob env s job = some s') : Frame p id free s s' := by
  cases job with
  | resumeCoroutine c r => cases h; exact .refl s
  | microtask r => cases h; exact .refl s
  | runReaction rx r =>
    have hp : free → rx.resultPromise ≠ p := fun hfree he => hfeeds hfree (congrArg some he)
    simp only [runJob] at h
    split at h
    · cases h
      refine ⟨le_refl _, Nat.le_succ _, .same rfl rfl, fun _ => ⟨rfl, rfl⟩, fun hfree _ hquiet =>
        ⟨{ hquiet with reactions := ?_ }, rfl⟩⟩
      intro a b hget
      have hget' : (s.reactions.put s.nextRef ⟨rx.resultPromise, rx.kind, r⟩).get? a = some b :=
        hget
      rw [Assoc.get?_put_eq] at hget'
      split at hget'
      · cases hget'
        exact hp hfree
      · exact hquiet.reactions a b hget'
    · exact settle_frame hp h
  | settleAssimilated q r =>
    exact settleAssimilated_frame (fun hfree he => hfeeds hfree (congrArg some he)) h
  | settlePromise q r => exact settle_frame (fun hfree he => hfeeds hfree (congrArg some he)) h
  | aggregateSettle id' index r =>
    have hid : id' ≠ id := by
      intro he
      have hsome : (Job.aggregateSettle id' index r).outcome? id = some (index, r) := if_pos he
      rw [hsome] at hjob
      cases hjob
    exact settleAggregate_frame hid (fun hfree a hget => hq hfree id' a hget hid) h
  | assimilateThenable q v c =>
    have hp : free → q ≠ p := fun hfree he => hfeeds hfree (congrArg some he)
    cases h
    refine ⟨le_refl _, Nat.le_succ _, .same rfl rfl, fun _ => ⟨rfl, rfl⟩, fun hfree _ hquiet =>
      ⟨{ hquiet with assimilations := ?_ }, rfl⟩⟩
    intro a b hget
    have hget' : (s.assimilations.put s.nextRef ⟨q, false⟩).get? a = some b := hget
    rw [Assoc.get?_put_eq] at hget'
    split at hget'
    · cases hget'
      exact hp hfree
    · exact hquiet.assimilations a b hget'

theorem completeThenGetter_frame {boundary : ThenGetter ν} (hq : free → boundary.promise ≠ p)
    (h : completeThenGetter env s boundary v = some s') : Frame p id free s s' := by
  unfold completeThenGetter at h
  split at h
  · cases h
    exact frame_enqueue (fun _ => rfl) fun hfree he => hq hfree (Option.some.inj he)
  · exact fulfillAssimilated_frame hq h

theorem completeReaction_frame {boundary : ReactionBoundary ν} (hq : free → boundary.promise ≠ p)
    (h : completeReaction env s boundary v = some s') : Frame p id free s s' := by
  unfold completeReaction at h
  split at h
  · exact settle_frame hq h
  · obtain ⟨⟨q, t⟩, ht, h⟩ := Option.bind_eq_some_iff.1 h
    exact (fromValue_frame ht).trans (settleAfterFinally_frame hq h)

theorem frame_closeGetter (s : State ν η) (g : ℕ) :
    Frame p id free s { s with getters := s.getters.delete g } :=
  ⟨le_refl _, le_refl _, .same rfl rfl, fun _ => ⟨rfl, rfl⟩, fun _ _ h =>
    ⟨{ h with getters := fun _ b hget => h.getters _ b (Assoc.get?_of_delete hget) }, rfl⟩⟩

theorem frame_closeReaction (s : State ν η) (a : ℕ) :
    Frame p id free s { s with reactions := s.reactions.delete a } :=
  ⟨le_refl _, le_refl _, .same rfl rfl, fun _ => ⟨rfl, rfl⟩, fun _ _ h =>
    ⟨{ h with reactions := fun _ b hget => h.reactions _ b (Assoc.get?_of_delete hget) }, rfl⟩⟩

theorem frame_markCalled {a : ℕ} {as : Assimilation} (ha : s.assimilations.get? a = some as) :
    Frame p id free s (s.markCalled a as) := by
  unfold State.markCalled
  split
  · exact .refl s
  · refine ⟨le_refl _, le_refl _, .same rfl rfl, fun _ => ⟨rfl, rfl⟩, fun _ _ h =>
      ⟨{ h with assimilations := ?_ }, rfl⟩⟩
    intro a' b hget
    have hget' : (s.assimilations.put a { as with called := true }).get? a' = some b := hget
    rw [Assoc.get?_put_eq] at hget'
    split at hget'
    · cases hget'
      exact h.assimilations a as ha
    · exact h.assimilations a' b hget'

/-- **One step** that runs no job leaves the aggregate alone, and `p` when nothing under way
resolves it and the event does not. -/
theorem step_frame {e : Event ν η} (hid : Apart id s.nextRef s'.nextRef) (he : e ≠ .runJob)
    (h : step env s e = some s') : Frame p id (Quiet p id s ∧ ¬ Resolves p e) s s' := by
  cases e with
  | setHeap heap =>
    cases h
    exact ⟨le_refl _, le_refl _, .same rfl rfl, fun _ => ⟨rfl, rfl⟩, fun _ _ h => ⟨{ h with }, rfl⟩⟩
  | newPromise => cases h; exact frame_new s
  | react source kind f g => exact react_frame h
  | await source c => exact attach_frame (by rintro - ⟨⟩) rfl h
  | awaitImmediate c r => cases h; exact frame_enqueue (fun _ => rfl) fun _ he => nomatch he
  | suspendMicrotask r => cases h; exact frame_enqueue (fun _ => rfl) fun _ he => nomatch he
  | fromValue v =>
    obtain ⟨⟨q, t⟩, ht, rfl⟩ := Option.map_eq_some_iff.1 h
    exact fromValue_frame ht
  | aggregateInto q kind values => exact aggregateInto_frame hid And.right h
  | settle q r => exact settle_frame And.right h
  | callResolver a r =>
    obtain ⟨as, ha, h⟩ := Option.bind_eq_some_iff.1 h
    exact (frame_markCalled ha).trans
      (settleAssimilated_frame (fun hfree => hfree.1.assimilations a as ha) h)
  | readThenable =>
    simp only [step] at h
    split at h
    · cases h
    · rename_i job rest hjobs
      cases h
      refine ⟨le_refl _, Nat.le_succ _, .same rfl rfl, fun _ => ⟨rfl, rfl⟩, fun _ _ hquiet =>
        ⟨{ hquiet with syncJobs := ?_, getters := ?_ }, rfl⟩⟩
      · intro j hj
        exact hquiet.syncJobs j (by rw [hjobs]; exact List.mem_cons_of_mem _ hj)
      · intro g b hget
        have hget' : (s.getters.put s.nextRef ⟨job.promise, job.thenable⟩).get? g = some b := hget
        rw [Assoc.get?_put_eq] at hget'
        split at hget'
        · cases hget'
          exact hquiet.syncJobs job (by rw [hjobs]; exact List.mem_cons_self)
        · exact hquiet.getters g b hget'
  | getterReturns g v =>
    obtain ⟨boundary, hg, h⟩ := Option.bind_eq_some_iff.1 h
    exact (frame_closeGetter s g).trans
      (completeThenGetter_frame (fun hfree => hfree.1.getters g boundary hg) h)
  | getterThrows g reason =>
    obtain ⟨boundary, hg, h⟩ := Option.bind_eq_some_iff.1 h
    exact (frame_closeGetter s g).trans
      (settleAssimilated_frame (fun hfree => hfree.1.getters g boundary hg) h)
  | reactionReturns a v =>
    obtain ⟨boundary, ha, h⟩ := Option.bind_eq_some_iff.1 h
    exact (frame_closeReaction s a).trans
      (completeReaction_frame (fun hfree => hfree.1.reactions a boundary ha) h)
  | reactionThrows a reason =>
    obtain ⟨boundary, ha, h⟩ := Option.bind_eq_some_iff.1 h
    exact (frame_closeReaction s a).trans
      (settle_frame (fun hfree => hfree.1.reactions a boundary ha) h)
  | runJob => exact absurd rfl he

end QuickBeam.Vm.Runtime.Promise
