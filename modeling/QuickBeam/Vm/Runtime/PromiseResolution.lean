import QuickBeam.Vm.Runtime.PromiseLedger

/-!
# The first resolution of a promise wins

A promise that was resolved with a promise or a thenable is locked until the other one settles.
`sources s p` counts what may settle a locked promise: an adoption, a settlement on its way, a
read of `then`, and the resolvers of a thenable of which none was called yet.  A locked promise
has one source, and any other promise has none, as long as no resolver of a thenable is called a
second time while its promise is locked (`inTurn`): `settle_assimilated/3` takes the second call
for the first.  In every run whose steps are in turn, only the first call counts
(`promise_firstWins`); `secondCall` is a run with a step out of turn.
-/

set_option linter.unusedSectionVars false

namespace QuickBeam.Vm.Runtime.Promise

open QuickBeam.Lib

variable {ν η : Type} {env : Env ν η} {s s' : State ν η}

/-! ### Sources -/

def adoptions (s : State ν η) (p : ℕ) : ℕ :=
  s.waiters.sumBy fun _ ws => ws.countP fun w => w.locks? = some p

def queuedResolutions (s : State ν η) (p : ℕ) : ℕ := s.jobs.countP fun j => j.resolves? = some p

def queuedReads (s : State ν η) (p : ℕ) : ℕ := s.syncJobs.countP fun j => j.promise = p

def openGetters (s : State ν η) (p : ℕ) : ℕ :=
  s.getters.sumBy fun _ g => if g.promise = p then 1 else 0

def openResolvers (s : State ν η) (p : ℕ) : ℕ :=
  s.assimilations.sumBy fun _ a => if a.promise = p ∧ a.called = false then 1 else 0

/-- What may settle `p` while it is locked. -/
def sources (s : State ν η) (p : ℕ) : ℕ :=
  adoptions s p + queuedResolutions s p + queuedReads s p + openGetters s p + openResolvers s p

def locked (s : State ν η) (p : ℕ) : Bool :=
  match s.promises.get? p with
  | some .resolving => true
  | _ => false

variable {p : ℕ}

theorem locked_iff : locked s p = true ↔ s.promises.get? p = some .resolving := by
  unfold locked
  split
  · rename_i hp
    exact iff_of_true rfl hp
  · rename_i hp
    exact iff_of_false (by rintro ⟨⟩) hp

theorem locked_congr
    (h : s'.promises.get? p = some .resolving ↔ s.promises.get? p = some .resolving) :
    locked s' p = locked s p := by
  rw [Bool.eq_iff_iff, locked_iff, locked_iff, h]

theorem locked_eq_false (hp : s.promises.get? p ≠ some .resolving) : locked s p = false :=
  Bool.eq_false_iff.2 fun h => hp (locked_iff.1 h)

structure Sourced (s : State ν η) : Prop where
  one : ∀ p, sources s p = if locked s p then 1 else 0
  refs : ∀ a, s.nextRef ≤ a → s.getters.get? a = none ∧ s.assimilations.get? a = none

theorem Waiter.resolves?_job (w : Waiter ν) (r : Result ν) : (w.job r).resolves? = w.locks? := by
  cases w <;> rfl

theorem adoptions_addWaiter (s : State ν η) (q : ℕ) (w : Waiter ν) (p : ℕ) :
    adoptions (s.addWaiter q w) p = adoptions s p + if w.locks? = some p then 1 else 0 := by
  show Assoc.sumBy _ (s.waiters.put q (w :: s.waitersOf q)) = _
  have hcons : ∀ ws : List (Waiter ν), (w :: ws).countP (fun w => w.locks? = some p) =
      ws.countP (fun w => w.locks? = some p) + if w.locks? = some p then 1 else 0 := by
    intro ws
    rw [List.countP_cons]
    simp
  cases hq : s.waiters.get? q with
  | none =>
    have hws : s.waitersOf q = [] := by rw [State.waitersOf, hq]; rfl
    rw [hws, Assoc.sumBy_put_new _ _ hq, hcons, List.countP_nil, Nat.zero_add, Nat.add_comm]
    rfl
  | some ws =>
    have hws : s.waitersOf q = ws := by rw [State.waitersOf, hq]; rfl
    have hswap := Assoc.sumBy_put_swap
      (fun _ ws => ws.countP fun w : Waiter ν => w.locks? = some p) (w :: ws) hq
    rw [hcons] at hswap
    rw [hws, adoptions]
    omega

theorem sources_addWaiter (s : State ν η) (q : ℕ) (w : Waiter ν) (p : ℕ) :
    sources (s.addWaiter q w) p = sources s p + if w.locks? = some p then 1 else 0 := by
  unfold sources
  rw [adoptions_addWaiter]
  show _ + _ + queuedResolutions s p + queuedReads s p + openGetters s p + openResolvers s p = _
  omega

theorem sources_enqueue (s : State ν η) (o : Option ℕ) (j : Job ν) (p : ℕ) :
    sources (s.enqueue o j) p = sources s p + if j.resolves? = some p then 1 else 0 := by
  have hq : queuedResolutions (s.enqueue o j) p =
      queuedResolutions s p + if j.resolves? = some p then 1 else 0 := by
    show List.countP _ (s.jobs ++ [j]) = _
    rw [List.countP_append, List.countP_singleton, queuedResolutions]
    simp
  unfold sources
  rw [hq]
  show adoptions s p + _ + queuedReads s p + openGetters s p + openResolvers s p = _
  omega

theorem sources_enqueueSync (s : State ν η) (j : SyncJob ν) (p : ℕ) :
    sources (s.enqueueSync j) p = sources s p + if j.promise = p then 1 else 0 := by
  have hr : queuedReads (s.enqueueSync j) p =
      queuedReads s p + if j.promise = p then 1 else 0 := by
    show List.countP _ (s.syncJobs ++ [j]) = _
    rw [List.countP_append, List.countP_singleton, queuedReads]
    simp
  unfold sources
  rw [hr]
  show adoptions s p + queuedResolutions s p + _ + openGetters s p + openResolvers s p = _
  omega

theorem sources_wake (s : State ν η) (q : ℕ) (r : Result ν) (p : ℕ) :
    sources (s.wake q r) p = sources s p := by
  have hjobs : ((s.waitersOf q).reverse.map fun w => w.job r).countP
      (fun j => j.resolves? = some p) = (s.waitersOf q).countP fun w => w.locks? = some p := by
    rw [List.countP_map, List.countP_reverse]
    refine List.countP_congr fun w _ => ?_
    simp [Waiter.resolves?_job]
  have hsum : adoptions (s.wake q r) p + queuedResolutions (s.wake q r) p =
      adoptions s p + queuedResolutions s p := by
    rw [wake_eq]
    show Assoc.sumBy _ (s.waiters.delete q) + List.countP _ (s.jobs ++ _) = _
    rw [List.countP_append, hjobs, adoptions, queuedResolutions]
    cases hq : s.waiters.get? q with
    | none =>
      rw [State.waitersOf, hq, Assoc.delete_of_get?_none hq]
      rfl
    | some ws =>
      have hdel := Assoc.sumBy_delete
        (fun _ ws => ws.countP fun w : Waiter ν => w.locks? = some p) hq
      rw [State.waitersOf, hq, hdel]
      show _ + (_ + ws.countP _) = _
      omega
  have hrest : queuedReads (s.wake q r) p = queuedReads s p ∧
      openGetters (s.wake q r) p = openGetters s p ∧
      openResolvers (s.wake q r) p = openResolvers s p := by
    rw [wake_eq]
    exact ⟨rfl, rfl, rfl⟩
  obtain ⟨h₁, h₂, h₃⟩ := hrest
  rw [sources, sources, hsum, h₁, h₂, h₃]

/-! ### Actions -/

theorem Sourced.of_eq (h : Sourced s) (hsources : ∀ p, sources s' p = sources s p)
    (hpromises : ∀ p, s'.promises.get? p = some .resolving ↔ s.promises.get? p = some .resolving)
    (hrefs : ∀ a, s'.nextRef ≤ a → s'.getters.get? a = none ∧ s'.assimilations.get? a = none) :
    Sourced s' := by
  refine ⟨fun p => ?_, hrefs⟩
  rw [hsources, h.one, locked_congr (hpromises p)]

theorem Sourced.lock (h : Sourced s) (hp : s.promises.get? p = some .pending)
    (hsources : ∀ q, sources s' q = sources s q + if p = q then 1 else 0)
    (hpromises : s'.promises = s.promises.put p .resolving) (hgetters : s'.getters = s.getters)
    (hassim : s'.assimilations = s.assimilations) (hnext : s'.nextRef = s.nextRef) :
    Sourced s' := by
  refine ⟨fun q => ?_, fun a ha => ?_⟩
  · rw [hsources, h.one]
    by_cases hq : q = p
    · subst hq
      have hlocked : locked s' q = true :=
        locked_iff.2 (by rw [hpromises]; exact Assoc.get?_put _ _ _)
      have hfree : locked s q = false :=
        locked_eq_false (by rw [hp]; exact fun he => nomatch he)
      rw [hlocked, hfree, if_pos rfl]
      rfl
    · have hsame : locked s' q = locked s q :=
        locked_congr (by rw [hpromises, Assoc.get?_put_ne _ _ hq])
      rw [hsame, if_neg (Ne.symm hq), Nat.add_zero]
  · rw [hgetters, hassim]
    exact h.refs a (hnext ▸ ha)

theorem pending_put_resolving {promises : Assoc ℕ (PromiseState ν)}
    (hp : promises.get? p = some .pending) {st : PromiseState ν} (hst : st ≠ .resolving) (q : ℕ) :
    (promises.put p st).get? q = some .resolving ↔ promises.get? q = some .resolving := by
  rw [Assoc.get?_put_eq]
  split
  · rename_i hq
    rw [hq, hp]
    simp [hst]
  · rfl

theorem Act.sourced (h : Act s s') (hf : Fresh s) (hs : Sourced s) : Sourced s' := by
  cases h with
  | same h =>
    refine hs.of_eq (fun p => ?_) (fun p => by rw [h.promises]) fun a ha => ?_
    · unfold sources adoptions queuedResolutions queuedReads openGetters openResolvers
      rw [h.waiters, h.jobs, h.syncJobs, h.getters, h.assimilations]
    · rw [h.getters, h.assimilations]
      exact hs.refs a (le_trans h.nextRef ha)
  | new =>
    refine hs.of_eq (fun p => rfl) (fun p => ?_) hs.refs
    show (s.promises.put s.nextPromise .pending).get? p = _ ↔ _
    rw [Assoc.get?_put_eq]
    split
    · rename_i hp
      rw [hp, hf _ (le_refl _)]
      exact iff_of_false (by rintro ⟨⟩) (by rintro ⟨⟩)
    · rfl
  | @wake p r hp =>
    refine hs.of_eq (sources_wake s p r) (fun q => ?_) ?_
    · rw [wake_eq]
      exact pending_put_resolving hp (fun he : PromiseState.settled r = .resolving => by cases he) q
    · rw [wake_eq]
      exact hs.refs
  | @adopt p q st hp hq hst hne =>
    refine hs.lock hp (fun q' => ?_) rfl rfl rfl rfl
    rw [sources_addWaiter]
    show sources s q' + _ = _
    simp only [Waiter.locks?, Option.some.injEq]
  | assimilate v c hp =>
    refine hs.lock hp (fun q => ?_) rfl rfl rfl rfl
    rw [sources_enqueue]
    show sources s q + _ = _
    simp only [Job.resolves?, Option.some.injEq]
  | read v g hp =>
    refine hs.lock hp (fun q => ?_) rfl rfl rfl rfl
    rw [sources_enqueueSync]
    rfl
  | wait hq hst hw =>
    refine hs.of_eq (fun p => ?_) (fun _ => Iff.rfl) hs.refs
    rw [sources_addWaiter, hw]
    rfl
  | @late q r w hq hw =>
    refine hs.of_eq (fun p => ?_) (fun _ => Iff.rfl) hs.refs
    rw [sources_enqueue, Waiter.resolves?_job, hw]
    rfl
  | immediate => exact hs.of_eq (fun _ => rfl) (fun _ => Iff.rfl) hs.refs
  | resume =>
    refine hs.of_eq (fun p => ?_) (fun _ => Iff.rfl) hs.refs
    rw [sources_enqueue]
    rfl

theorem Acts.sourced (h : Acts s s') (hf : Fresh s) (hs : Sourced s) : Sourced s' := by
  induction h with
  | refl => exact hs
  | tail hacts hact ih => exact hact.sourced (Acts.fresh hacts hf) ih

theorem Sourced.unlock (h : Sourced s)
    (hsources : ∀ q, sources s q = sources s' q + if p = q then 1 else 0)
    (hpromises : s'.promises = s.promises)
    (hrefs : ∀ a, s'.nextRef ≤ a → s'.getters.get? a = none ∧ s'.assimilations.get? a = none) :
    s.promises.get? p = some .resolving ∧ Sourced (s'.setPromise p .pending) := by
  have hp : s.promises.get? p = some .resolving := by
    by_contra hne
    have hzero := h.one p
    rw [hsources, if_pos rfl, locked_eq_false hne] at hzero
    exact absurd hzero (Nat.succ_ne_zero _)
  refine ⟨hp, fun q => ?_, hrefs⟩
  show sources s' q = _
  have hq := h.one q
  rw [hsources] at hq
  by_cases he : q = p
  · subst he
    have hfree : locked (s'.setPromise q .pending) q = false :=
      locked_eq_false (by rw [get?_setPromise, if_pos rfl]; exact fun he => nomatch he)
    rw [if_pos rfl, locked_iff.2 hp, if_pos rfl] at hq
    rw [hfree]
    exact Nat.succ.inj hq
  · rw [if_neg (Ne.symm he), Nat.add_zero] at hq
    have hsame : locked (s'.setPromise p .pending) q = locked s q :=
      locked_congr (by rw [get?_setPromise, if_neg he, hpromises])
    rw [hq, hsame]

/-! ### One step -/

/-- No resolver of a thenable is called again while its promise is locked. -/
def inTurn (s : State ν η) : Event ν η → Bool
  | .callResolver a _ =>
    match s.assimilations.get? a with
    | some as => !(as.called && locked s as.promise)
    | none => true
  | _ => true

/-- The event uses up the source of `p`: it runs the job with the settlement of the promise that
`p` adopts, ends the read of `then` for `p`, or is the first call of the resolvers of `p`. -/
def Completes (s : State ν η) (p : ℕ) : Event ν η → Prop
  | .runJob => ∃ r, s.jobs.head? = some (.settleAssimilated p r)
  | .callResolver a _ => s.assimilations.get? a = some ⟨p, false⟩
  | .getterReturns g _ => ∃ b, s.getters.get? g = some b ∧ b.promise = p
  | .getterThrows g _ => ∃ b, s.getters.get? g = some b ∧ b.promise = p
  | _ => False

/-- How a step goes on from `s₁`: no lock has changed, or the source of one lock is used up. -/
structure Opens (s : State ν η) (e : Event ν η) (s₁ : State ν η) : Prop where
  sourced : Sourced s₁
  fresh : Fresh s₁
  promises : s₁.promises = s.promises ∨ ∃ p, Completes s p e ∧
    s.promises.get? p = some .resolving ∧ s₁.promises = s.promises.put p .pending

theorem Opens.refl (hf : Fresh s) (hs : Sourced s) (e : Event ν η) : Opens s e s :=
  ⟨hs, hf, .inl rfl⟩

variable {e : Event ν η}

theorem opens_unlock (hf : Fresh s) (hs : Sourced s) {t : State ν η} (hcomp : Completes s p e)
    (hpromises : t.promises = s.promises) (hnext : t.nextPromise = s.nextPromise)
    (hsources : ∀ q, sources s q = sources t q + if p = q then 1 else 0)
    (hrefs : ∀ a, t.nextRef ≤ a → t.getters.get? a = none ∧ t.assimilations.get? a = none)
    (hcases : t.promises.get? p ≠ some .resolving ∧ s' = t ∨ t.promises.get? p = some .resolving
    ∧ Acts (t.setPromise p .pending) s' ∧ Taken s' p) : ∃ s₂, Opens s e s₂ ∧ Acts s₂ s' := by
  obtain ⟨hp, hs'⟩ := hs.unlock hsources hpromises hrefs
  rcases hcases with ⟨hne, -⟩ | ⟨-, hacts, -⟩
  · rw [hpromises] at hne
    exact absurd hp hne
  · refine ⟨_, ⟨hs', fun q hq => ?_, .inr ⟨p, hcomp, hp, ?_⟩⟩, hacts⟩
    · rw [get?_setPromise, hpromises, if_neg fun he => ?_]
      · exact hf q (hnext ▸ hq)
      · rw [he] at hq
        rw [hf p (hnext ▸ hq)] at hp
        cases hp
    · rw [State.setPromise, hpromises]

variable {a : ℕ}

theorem openResolvers_put_called (ha : s.assimilations.get? a = some ⟨p, false⟩) (q : ℕ) :
    sources s q =
      sources { s with assimilations := s.assimilations.put a ⟨p, true⟩ } q +
        if p = q then 1 else 0 := by
  have hswap := Assoc.sumBy_put_swap
    (fun _ (as : Assimilation) => if as.promise = q ∧ as.called = false then 1 else 0)
    ⟨p, true⟩ ha
  have hold : openResolvers s q = openResolvers
      { s with assimilations := s.assimilations.put a ⟨p, true⟩ } q + if p = q then 1 else 0 := by
    unfold openResolvers
    simpa using hswap.symm
  rw [sources, hold]
  show _ = adoptions s q + queuedResolutions s q + queuedReads s q + openGetters s q + _ + _
  omega

variable {g : ℕ}

theorem getters_delete {b : ThenGetter ν} (hg : s.getters.get? g = some b) (q : ℕ) :
    sources s q = sources { s with getters := s.getters.delete g } q +
      if b.promise = q then 1 else 0 := by
  have hdel : openGetters s q = openGetters { s with getters := s.getters.delete g } q +
      if b.promise = q then 1 else 0 := Assoc.sumBy_delete _ hg
  rw [sources, hdel]
  show _ = adoptions s q + queuedResolutions s q + queuedReads s q + _ + openResolvers s q + _
  omega

variable {rest : List (Job ν)}

theorem jobs_tail {job : Job ν} (hjobs : s.jobs = job :: rest) (q : ℕ) :
    sources s q = sources { s with jobs := rest } q +
      if job.resolves? = some q then 1 else 0 := by
  have htail : queuedResolutions s q = queuedResolutions { s with jobs := rest } q +
      if job.resolves? = some q then 1 else 0 := by
    rw [queuedResolutions, hjobs, List.countP_cons]
    simp [queuedResolutions]
  rw [sources, htail]
  show _ = adoptions s q + _ + queuedReads s q + openGetters s q + openResolvers s q + _
  omega

theorem refs_put
    (h : ∀ a, s.nextRef ≤ a → s.getters.get? a = none ∧ s.assimilations.get? a = none)
    {as : Assimilation} (ha : s.assimilations.get? a = some as) (as' : Assimilation) :
    ∀ b, s.nextRef ≤ b →
      s.getters.get? b = none ∧ (s.assimilations.put a as').get? b = none := by
  intro b hb
  obtain ⟨h₁, h₂⟩ := h b hb
  refine ⟨h₁, ?_⟩
  rw [Assoc.get?_put_ne _ _ fun he => ?_]
  · exact h₂
  · rw [he, ha] at h₂
    cases h₂

theorem refs_delete
    (h : ∀ a, s.nextRef ≤ a → s.getters.get? a = none ∧ s.assimilations.get? a = none) (g : ℕ) :
    ∀ a, s.nextRef ≤ a →
      (s.getters.delete g).get? a = none ∧ s.assimilations.get? a = none := by
  intro a ha
  obtain ⟨h₁, h₂⟩ := h a ha
  rw [Assoc.get?_delete_eq, h₁, ite_self]
  exact ⟨rfl, h₂⟩

variable {r : Resolution ν}

theorem callResolver_opens (hf : Fresh s) (hs : Sourced s)
    (hok : inTurn s (.callResolver a r) = true) (h : step env s (.callResolver a r) = some s') :
    ∃ s₁, Opens s (.callResolver a r) s₁ ∧ Acts s₁ s' := by
  obtain ⟨⟨p, called⟩, ha, h⟩ := Option.bind_eq_some_iff.1 h
  cases called with
  | true =>
    -- a second call: the promise is not locked, and nothing happens
    simp only [inTurn, ha, Bool.true_and, Bool.not_eq_true'] at hok
    rcases settleAssimilated_cases hf h with ⟨-, rfl⟩ | ⟨hp, -⟩
    · exact ⟨_, .refl hf hs _, .refl⟩
    · exact absurd (locked_iff.2 hp) (by simp [hok])
  | false =>
    have hf' : Fresh (s.markCalled a ⟨p, false⟩) := hf
    exact opens_unlock hf hs (t := s.markCalled a ⟨p, false⟩) ha rfl rfl
      (openResolvers_put_called ha) (refs_put hs.refs ha _) (settleAssimilated_cases hf' h)

theorem readThenable_sourced (hs : Sourced s) {job : SyncJob ν} {rest : List (SyncJob ν)}
    (hjobs : s.syncJobs = job :: rest) :
    Sourced { s with
      syncJobs := rest
      getters := s.getters.put s.nextRef ⟨job.promise, job.thenable⟩
      nextRef := s.nextRef + 1 } := by
  refine hs.of_eq (fun p => ?_) (fun _ => Iff.rfl) fun a ha => ?_
  · have hput : (s.getters.put s.nextRef ⟨job.promise, job.thenable⟩).sumBy
        (fun _ (b : ThenGetter ν) => if b.promise = p then 1 else 0) =
          (if job.promise = p then 1 else 0) + openGetters s p :=
      Assoc.sumBy_put_new _ _ (hs.refs _ (le_refl _)).1
    have hreads : queuedReads s p = (rest.countP fun j => j.promise = p) +
        if job.promise = p then 1 else 0 := by
      rw [queuedReads, hjobs, List.countP_cons]
      simp
    rw [sources, sources, hreads]
    show adoptions s p + queuedResolutions s p + rest.countP _ + Assoc.sumBy _ (s.getters.put _ _) +
      openResolvers s p = _
    rw [hput]
    omega
  · obtain ⟨h₁, h₂⟩ := hs.refs a (Nat.le_of_succ_le ha)
    exact ⟨(Assoc.get?_put_ne _ _ (Nat.ne_of_gt ha)).trans h₁, h₂⟩

theorem assimilateThenable_sourced (hs : Sourced s) {v : Plain ν} {c : Value ν}
    (hjobs : s.jobs = .assimilateThenable p v c :: rest) : Sourced { s with
      jobs := rest
      assimilations := s.assimilations.put s.nextRef ⟨p, false⟩
      nextRef := s.nextRef + 1 } := by
  refine hs.of_eq (fun q => ?_) (fun _ => Iff.rfl) fun a ha => ?_
  · have hput : (s.assimilations.put s.nextRef ⟨p, false⟩).sumBy
        (fun _ (as : Assimilation) => if as.promise = q ∧ as.called = false then 1 else 0) =
          (if p = q then 1 else 0) + openResolvers s q := by
      rw [Assoc.sumBy_put_new _ _ (hs.refs _ (le_refl _)).2]
      simp [openResolvers]
    rw [jobs_tail hjobs q]
    show adoptions s q + rest.countP _ + queuedReads s q + openGetters s q +
      Assoc.sumBy _ (s.assimilations.put _ _) = adoptions s q + rest.countP _ + queuedReads s q +
        openGetters s q + openResolvers s q + _
    rw [hput]
    simp only [Job.resolves?, Option.some.injEq]
    omega
  · obtain ⟨h₁, h₂⟩ := hs.refs a (Nat.le_of_succ_le ha)
    exact ⟨h₁, (Assoc.get?_put_ne _ _ (Nat.ne_of_gt ha)).trans h₂⟩

theorem getterReturns_opens (hf : Fresh s) (hs : Sourced s) {v : Value ν}
    (h : step env s (.getterReturns g v) = some s') :
    ∃ s₁, Opens s (.getterReturns g v) s₁ ∧ Acts s₁ s' := by
  obtain ⟨b, hg, h⟩ := Option.bind_eq_some_iff.1 h
  have hdel := getters_delete hg
  have hrefs := refs_delete hs.refs g
  unfold completeThenGetter at h
  split at h
  · cases h
    have hsourced : Sourced (State.enqueue { s with getters := s.getters.delete g } none
        (.assimilateThenable b.promise b.thenable v)) := by
      refine hs.of_eq (fun p => ?_) (fun _ => Iff.rfl) hrefs
      rw [sources_enqueue, hdel]
      simp only [Job.resolves?, Option.some.injEq]
    exact ⟨_, ⟨hsourced, hf, .inl rfl⟩, .refl⟩
  · exact opens_unlock (t := { s with getters := s.getters.delete g }) hf hs ⟨b, hg, rfl⟩ rfl rfl
      hdel hrefs (fulfillAssimilated_cases h)

theorem getterThrows_opens (hf : Fresh s) (hs : Sourced s) {reason : Value ν}
    (h : step env s (.getterThrows g reason) = some s') :
    ∃ s₁, Opens s (.getterThrows g reason) s₁ ∧ Acts s₁ s' := by
  obtain ⟨b, hg, h⟩ := Option.bind_eq_some_iff.1 h
  have hf' : Fresh { s with getters := s.getters.delete g } := hf
  exact opens_unlock (t := { s with getters := s.getters.delete g }) hf hs ⟨b, hg, rfl⟩ rfl rfl
    (getters_delete hg) (refs_delete hs.refs g) (settleAssimilated_cases hf' h)

theorem runJob_opens (hf : Fresh s) (hs : Sourced s) (h : step env s .runJob = some s') :
    ∃ s₁, Opens s (.runJob : Event ν η) s₁ ∧ Acts s₁ s' := by
  simp only [step] at h
  split at h
  · cases h
  · rename_i job rest hjobs
    have htail := jobs_tail hjobs
    have hf' : Fresh { s with jobs := rest } := hf
    cases hjob : job.resolves? with
    | none =>
      refine ⟨{ s with jobs := rest }, ⟨?_, hf', .inl rfl⟩, runJob_acts hf' hjob h⟩
      refine hs.of_eq (fun p => ?_) (fun _ => Iff.rfl) hs.refs
      rw [htail, hjob]
      rfl
    | some p =>
      cases job with
      | settleAssimilated p r =>
        have hcomp : Completes s p (.runJob : Event ν η) := ⟨r, by rw [hjobs]; rfl⟩
        refine opens_unlock (t := { s with jobs := rest }) hf hs hcomp rfl rfl (fun q => ?_)
          hs.refs (settleAssimilated_cases hf' h)
        rw [htail]
        simp only [Job.resolves?, Option.some.injEq]
      | assimilateThenable p v c =>
        cases h
        exact ⟨_, ⟨assimilateThenable_sourced hs hjobs, hf, .inl rfl⟩, .refl⟩
      | _ => cases hjob

/-- **One step in turn.** -/
theorem step_opens (hf : Fresh s) (hs : Sourced s) (hok : inTurn s e = true)
    (h : step env s e = some s') : ∃ s₁, Opens s e s₁ ∧ Acts s₁ s' := by
  have hself : Acts s s' → ∃ s₁, Opens s e s₁ ∧ Acts s₁ s' := fun hacts =>
    ⟨s, .refl hf hs e, hacts⟩
  cases e with
  | setHeap heap =>
    cases h
    exact hself (Same.acts ⟨rfl, rfl, rfl, rfl, rfl, rfl, rfl, rfl, rfl, le_refl _⟩)
  | newPromise =>
    cases h
    exact hself (new_acts s)
  | react source kind f g =>
    have hattach : Acts (new s).2 s' := attach_acts rfl h
    exact hself ((new_acts s).trans hattach)
  | await source c => exact hself (attach_acts rfl h)
  | awaitImmediate c r =>
    cases h
    exact hself (Act.resume c r).acts
  | suspendMicrotask r =>
    cases h
    have hsourced : Sourced (s.enqueue none (.microtask r)) := by
      refine hs.of_eq (fun p => ?_) (fun _ => Iff.rfl) hs.refs
      rw [sources_enqueue]
      rfl
    exact ⟨_, ⟨hsourced, hf, .inl rfl⟩, .refl⟩
  | fromValue v =>
    obtain ⟨⟨p, t⟩, ht, rfl⟩ := Option.map_eq_some_iff.1 h
    exact hself (fromValue_acts ht)
  | aggregateInto p kind values => exact hself (aggregateInto_acts hf h)
  | settle p r => exact hself (settle_acts hf h).1
  | callResolver a r => exact callResolver_opens hf hs hok h
  | readThenable =>
    simp only [step] at h
    split at h
    · cases h
    · rename_i job rest hjobs
      cases h
      exact ⟨_, ⟨readThenable_sourced hs hjobs, hf, .inl rfl⟩, .refl⟩
  | getterReturns g v => exact getterReturns_opens hf hs h
  | getterThrows g reason => exact getterThrows_opens hf hs h
  | reactionReturns id v =>
    obtain ⟨boundary, -, h⟩ := Option.bind_eq_some_iff.1 h
    have hsame : Same s { s with reactions := s.reactions.delete id } :=
      ⟨rfl, rfl, rfl, rfl, rfl, rfl, rfl, rfl, rfl, le_refl _⟩
    have hf' : Fresh { s with reactions := s.reactions.delete id } := hf
    exact hself (hsame.acts.trans (completeReaction_acts hf' h))
  | reactionThrows id reason =>
    obtain ⟨boundary, -, h⟩ := Option.bind_eq_some_iff.1 h
    have hsame : Same s { s with reactions := s.reactions.delete id } :=
      ⟨rfl, rfl, rfl, rfl, rfl, rfl, rfl, rfl, rfl, le_refl _⟩
    have hf' : Fresh { s with reactions := s.reactions.delete id } := hf
    exact hself (hsame.acts.trans (settle_acts hf' h).1)
  | runJob => exact runJob_opens hf hs h

/-! ### Runs -/

/-- A call after the first one: of the resolvers of a promise that is taken (or a throw of its
executor), or of the resolvers of a thenable of which one was called (or a throw of it). -/
def LaterCall (s : State ν η) : Event ν η → Prop
  | .settle p _ => Taken s p
  | .callResolver a _ => ∃ p, s.assimilations.get? a = some ⟨p, true⟩
  | _ => False

/-- What the step from `s` to `s'` keeps of the first resolutions. -/
structure FirstWins (s : State ν η) (e : Event ν η) (s' : State ν η) : Prop where
  /-- A settled promise stays as it is. -/
  settled : ∀ p r, s.promises.get? p = some (.settled r) → s'.promises.get? p = some (.settled r)
  /-- The first call takes the promise, and a later one changes nothing at all. -/
  first : ∀ p r, e = .settle p r → Taken s' p
  later : LaterCall s e → s' = s
  /-- A promise that is taken changes only by what it waits for, of which there is one. -/
  source : ∀ p, Taken s p → s'.promises.get? p ≠ s.promises.get? p → Completes s p e
  one : ∀ p, sources s' p = if locked s' p then 1 else 0
  /-- The settlement that comes from an adopted promise is that promise's own. -/
  adoption : ∀ p r, .settleAssimilated p r ∈ s'.jobs →
    ∃ q, s'.promises.get? q = some (.settled r) ∧ ⟨q, .adopt p, false⟩ ∈ s'.registered

theorem settle_taken (hp : Taken s p) (h : settle env s p r = some s') : s' = s := by
  obtain ⟨st, hget, hst⟩ := hp
  have hresult : ∀ r', settleResult s p r' = some s' → s' = s := by
    intro r' h
    rw [settleResult, hget] at h
    cases st with
    | pending => exact absurd rfl hst
    | resolving => cases h; rfl
    | settled r₀ => cases h; rfl
  have hplain : ∀ v, settlePlain env s p v = some s' → s' = s := by
    intro v h
    cases v with
    | term v => exact hresult _ h
    | object id =>
      rw [settlePlain, hget] at h
      cases st with
      | pending => exact absurd rfl hst
      | resolving => cases h; rfl
      | settled r₀ => cases h; rfl
  unfold settle at h
  split at h
  · split at h
    · exact hresult _ h
    · rw [hget] at h
      cases st with
      | pending => exact absurd rfl hst
      | resolving => cases h; rfl
      | settled r₀ => cases h; rfl
  · exact hplain _ h
  · exact hresult _ h

theorem laterCall_same (hf : Fresh s) (hok : inTurn s e = true) (hlater : LaterCall s e)
    (h : step env s e = some s') : s' = s := by
  cases e with
  | settle p r => exact settle_taken hlater h
  | callResolver a r =>
    obtain ⟨p, ha⟩ := hlater
    simp only [inTurn, ha, Bool.true_and, Bool.not_eq_true'] at hok
    obtain ⟨as, ha', h⟩ := Option.bind_eq_some_iff.1 h
    cases ha.symm.trans ha'
    rcases settleAssimilated_cases hf h with ⟨-, rfl⟩ | ⟨hp, -⟩
    · rfl
    · exact absurd (locked_iff.2 hp) (by simp [hok])
  | _ => exact absurd hlater id

theorem initial_sourced (heap : η) : Sourced (initial heap : State ν η) :=
  ⟨fun _ => rfl, fun _ _ => ⟨rfl, rfl⟩⟩

theorem step_sourced (hf : Fresh s) (hs : Sourced s) (hok : inTurn s e = true)
    (h : step env s e = some s') : Sourced s' := by
  obtain ⟨s₁, hopens, hacts⟩ := step_opens hf hs hok h
  exact hacts.sourced hopens.fresh hopens.sourced

theorem step_firstWins (hl : Ledger s) (hs : Sourced s) (hok : inTurn s e = true)
    (h : step env s e = some s') : FirstWins s e s' := by
  obtain ⟨s₁, hopens, hacts⟩ := step_opens hl.fresh hs hok h
  -- what is taken in `s` and not unlocked by the step is as it was
  have hkeep : ∀ p st, s.promises.get? p = some st → st ≠ .pending → ¬ Completes s p e →
      s'.promises.get? p = some st := by
    intro p st hp hst hcomp
    refine hacts.promise hopens.fresh ?_ hst
    rcases hopens.promises with hsame | ⟨q, hq, -, hput⟩
    · rw [hsame]
      exact hp
    · have hne : p ≠ q := fun he => hcomp (by rw [he]; exact hq)
      rw [hput, Assoc.get?_put_ne _ _ hne]
      exact hp
  constructor
  case settled =>
    intro p r hp
    refine hacts.promise hopens.fresh ?_ (fun he => nomatch he)
    rcases hopens.promises with hsame | ⟨q, -, hq, hput⟩
    · rw [hsame]
      exact hp
    · rw [hput, Assoc.get?_put_ne _ _ fun he => ?_]
      · exact hp
      · rw [he, hq] at hp
        cases hp
  case first =>
    rintro p r rfl
    exact (settle_acts hl.fresh h).2
  case later => exact fun hlater => laterCall_same hl.fresh hok hlater h
  case source =>
    rintro p ⟨st, hp, hst⟩ hne
    by_contra hcomp
    rw [hkeep p st hp hst hcomp, hp] at hne
    exact hne rfl
  case one => exact (step_sourced hl.fresh hs hok h).one
  case adoption => exact fun p r hjob => (step_ledger hl h).adoption hjob

/-- **The first resolution wins** at every step of every run whose steps are in turn. -/
theorem promise_firstWins {s s' : State ν η} {e : Event ν η}
    (h : (machine env).ReachableIf (fun s e => inTurn s e = true) s) (hok : inTurn s e = true)
    (hstep : step env s e = some s') : FirstWins s e s' := by
  have hs : Ledger s ∧ Sourced s := by
    refine Machine.ReachableIf.invariant (I := fun s => Ledger s ∧ Sourced s) ?_ ?_ h
    · rintro s ⟨heap, rfl⟩
      exact ⟨initial_ledger heap, initial_sourced heap⟩
    · rintro s e s' ⟨hl, hs⟩ hok hstep
      exact ⟨step_ledger hl hstep, step_sourced hl.fresh hs hok hstep⟩
  exact step_firstWins hs.1 hs.2 hok hstep

/-! ### Two runs -/

/-- As `plainEnv`, but every object has a callable `then`. -/
def thenableEnv : Env ℕ Unit :=
  { plainEnv with thenCallable := fun _ _ => .callable (.plain (.term 0)) }

/-- Promise 0 is resolved with a thenable, which calls its `resolve` with 5. -/
def resolvedOnce : List (Event ℕ Unit) :=
  [.newPromise, .settle 0 (.ok (.plain (.object 1))), .runJob,
    .callResolver 0 (.ok (.plain (.term 5)))]

def afterResolvedOnce : State ℕ Unit :=
  ((machine thenableEnv).execIf inTurn (initial ()) resolvedOnce).get (by decide)

/-- After the run above a call of `reject` changes nothing. -/
theorem promise_firstWins_resolvedOnce :
    FirstWins afterResolvedOnce (.callResolver 0 (.error (.plain (.term 6)))) afterResolvedOnce ∧
      afterResolvedOnce.promises.get? 0 = some (.settled (.ok (.term 5))) :=
  ⟨promise_firstWins
    ⟨initial (), resolvedOnce, ⟨(), rfl⟩, Machine.guardedRun_of_execIf (Option.some_get _).symm⟩
    (by decide) rfl, by decide⟩

/-- Promise 0 is resolved with a thenable, which calls its `resolve` with the pending
promise 1. -/
def resolvedWithPending : List (Event ℕ Unit) :=
  [.newPromise, .settle 0 (.ok (.plain (.object 1))), .runJob, .newPromise,
    .callResolver 0 (.ok (.promise 1))]

def afterResolvedWithPending : State ℕ Unit :=
  ((machine thenableEnv).exec (initial ()) resolvedWithPending).get (by decide)

/-- The same thenable then calls its `reject`. -/
def secondCall : Event ℕ Unit := .callResolver 0 (.error (.plain (.term 6)))

def afterSecondCall : State ℕ Unit :=
  (step thenableEnv afterResolvedWithPending secondCall).get (by decide)

/-- The second call rejects promise 0, which was resolved with the pending promise 1. -/
theorem promise_secondCall :
    (machine thenableEnv).Reachable afterResolvedWithPending ∧
      step thenableEnv afterResolvedWithPending secondCall = some afterSecondCall ∧
      ¬ FirstWins afterResolvedWithPending secondCall afterSecondCall ∧
      afterSecondCall.promises.get? 0 = some (.settled (.error (.plain (.term 6)))) ∧
      afterSecondCall.promises.get? 1 = some .pending := by
  refine ⟨Machine.reachable_of_exec ⟨(), rfl⟩ (Option.some_get _).symm, (Option.some_get _).symm,
    fun h => ?_, by decide, by decide⟩
  have hsame := h.later ⟨0, by rfl⟩
  have hlocked : afterResolvedWithPending.promises.get? 0 = some .resolving := by decide
  have hsettled : afterSecondCall.promises.get? 0 =
      some (.settled (.error (.plain (.term 6)))) := by decide
  rw [hsame, hlocked] at hsettled
  cases hsettled

end QuickBeam.Vm.Runtime.Promise
