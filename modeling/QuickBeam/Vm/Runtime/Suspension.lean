import QuickBeam.Vm.Runtime.HostOperations

/-!
# Suspended top-level code

Top-level code that awaits is resumed by the result it queues behind the jobs there are.  The
driver takes the head of the queue for that result: `suspended_evaluation` says when it is, and
when the driver waits for a reply although there are jobs.
-/

set_option linter.unusedSectionVars false

namespace QuickBeam.Vm.Runtime.EventLoop

open QuickBeam.Lib QuickBeam.Vm.Program
open QuickBeam.Vm.Runtime.Promise (Value Plain Resolution Result Job Env)

variable {ν η : Type} {env : Env ν η} {host : Host ν} {s s' : State ν η}

/-! ### Results of suspended code in the queue -/

/-- The queue holds no result of suspended code. -/
def Clear (jobs : List (Job ν)) : Prop := ∀ job ∈ jobs, ∀ r, job ≠ .microtask r

theorem Clear.nil : Clear ([] : List (Job ν)) := fun _ hj => nomatch hj

theorem Clear.append {jobs more : List (Job ν)} (h : Clear jobs) (hmore : Clear more) :
    Clear (jobs ++ more) := by
  intro job hj
  rcases List.mem_append.1 hj with hj | hj
  · exact h job hj
  · exact hmore job hj

theorem Clear.single {job : Job ν} (h : ∀ r, job ≠ .microtask r) : Clear [job] := by
  intro j hj
  rw [List.mem_singleton.1 hj]
  exact h

theorem job_ne_microtask (w : Promise.Waiter ν) (r : Result ν) (r' : Resolution ν) :
    w.job r ≠ .microtask r' := by
  cases w <;> exact fun h => nomatch h

variable {t t' : Promise.State ν η}

theorem act_clear (h : Promise.Act t t') (hc : Clear t.jobs) : Clear t'.jobs := by
  cases h with
  | same h => rw [h.jobs]; exact hc
  | new => exact hc
  | wake r hp =>
    rw [Promise.wake_eq]
    refine hc.append fun job hj => ?_
    obtain ⟨w, -, rfl⟩ := List.mem_map.1 hj
    exact job_ne_microtask w r
  | adopt => exact hc
  | assimilate => exact hc.append (.single fun r hr => nomatch hr)
  | read => exact hc
  | wait => exact hc
  | late => exact hc.append (.single (job_ne_microtask _ _))
  | immediate => exact hc
  | resume => exact hc.append (.single fun r hr => nomatch hr)

theorem acts_clear (h : Promise.Acts t t') (hc : Clear t.jobs) : Clear t'.jobs := by
  induction h with
  | refl => exact hc
  | tail _ hact ih => exact act_clear hact ih

def Unsuspending (es : List (Promise.Event ν η)) : Prop :=
  ∀ event ∈ es, ∀ r, event ≠ .suspendMicrotask r

variable {event : Promise.Event ν η}

theorem step_clear (hf : Promise.Fresh t) (hevent : ∀ r, event ≠ .suspendMicrotask r)
    (h : Promise.step env t event = some t') (hc : Clear t.jobs) : Clear t'.jobs := by
  obtain ⟨u, htake, hrest⟩ := Promise.step_rest hf h
  have hu : Clear u.jobs := by
    rcases htake.jobs with hjobs | ⟨job, hjobs⟩
    · rw [hjobs]
      exact hc
    · intro j hj
      exact hc j (by rw [hjobs]; exact List.mem_cons_of_mem _ hj)
  cases hrest with
  | acts hacts => exact acts_clear hacts hu
  | unlock p hp hacts ht => exact acts_clear hacts hu
  | assimilate p v c he =>
    rw [he]
    exact hu.append (.single fun r hr => nomatch hr)
  | microtask r he => exact absurd he (hevent r)

variable {es : List (Promise.Event ν η)}

theorem exec_clear (hl : Promise.Ledger t) (hes : Unsuspending es)
    (h : (Promise.machine env).exec t es = some t') (hc : Clear t.jobs) : Clear t'.jobs := by
  induction es generalizing t with
  | nil =>
    cases h
    exact hc
  | cons event es ih =>
    obtain ⟨u, hstep, hrest⟩ := Option.bind_eq_some_iff.1 h
    exact ih (Promise.step_ledger hl hstep) (fun e he => hes e (List.mem_cons_of_mem _ he)) hrest
      (step_clear hl.fresh (hes event List.mem_cons_self) hstep hc)

/-! ### What a step does -/

def Delivers (t : Promise.State ν η) (awaited : Awaited ν) (r : Resolution ν) : Prop :=
  match awaited with
  | .value result => r = result
  | .promise p => ∃ result, t.promises.get? p = some (.settled result) ∧ r = result.resolution

/-- Top-level code is not suspended, and the driver has not crashed. -/
def Phase.active : Phase ν → Bool
  | .running _ => true
  | .final _ => true
  | .receiving _ => true
  | .finished => true
  | _ => false

inductive Turn (env : Env ν η) (s : State ν η) (e : Event ν η) (s' : State ν η) : Prop where
  | rests (hphase : s'.phase = s.phase) (hexec : s'.execution = s.execution)
      (hsuspensions : s'.suspensions = s.suspensions) (hresumptions : s'.resumptions = s.resumptions)
  | works (es : List (Promise.Event ν η)) (hfrom : s.phase.active = true)
      (hto : s'.phase.active = true) (hes : Unsuspending es)
      (hexec : (Promise.machine env).exec s.execution es = some s'.execution)
      (hreceiving : ∀ p, s'.phase = .receiving p → s'.execution.jobs = [])
      (hsuspensions : s'.suspensions = s.suspensions) (hresumptions : s'.resumptions = s.resumptions)
  | suspends (p : ℕ) (hfrom : s.phase.active = true) (hto : s'.phase = .legacy p)
      (hexec : s'.execution = s.execution) (hsuspensions : s'.suspensions = s.suspensions + 1)
      (hresumptions : s'.resumptions = s.resumptions)
  | queues (awaited : Awaited ν) (r : Resolution ν) (hfrom : s.phase.active = true)
      (hto : s' = suspendMicrotask s awaited r) (hdelivers : Delivers s.execution awaited r)
  | drives (awaited : Awaited ν) (he : e = .drive) (hfrom : s.phase = .microtask awaited)
      (hto : s' = driveMicrotask s awaited)
  | mistakes (p : ℕ) (r : Resolution ν) (jobs : List (Job ν)) (hfrom : s.phase = .final p)
      (hjobs : s.execution.jobs = .microtask r :: jobs)
  | waits (p : ℕ) (he : e = .drive) (hfrom : s.phase = .legacy p)
      (hto : s' = { s with phase := .waiting p })
  | answers (p : ℕ) (es : List (Promise.Event ν η)) (hfrom : s.phase = .waiting p)
      (hto : s'.phase = .legacy p) (hes : Unsuspending es)
      (hexec : (Promise.machine env).exec s.execution es = some s'.execution)
      (hsuspensions : s'.suspensions = s.suspensions) (hresumptions : s'.resumptions = s.resumptions)
  | delivers (p : ℕ) (r : Resolution ν) (t : Promise.State ν η) (es : List (Promise.Event ν η))
      (hfrom : s.phase = .waiting p) (hto : s'.phase = .microtask (.promise p))
      (hes : Unsuspending es) (ht : (Promise.machine env).exec s.execution es = some t)
      (hexec : s'.execution = t.enqueue none (.microtask r)) (hdelivers : Delivers t (.promise p) r)
      (hsuspensions : s'.suspensions = s.suspensions) (hresumptions : s'.resumptions = s.resumptions)

theorem Turn.one {e : Event ν η} {event : Promise.Event ν η} (hfrom : s.phase.active = true)
    (hto : s'.phase.active = true) (hevent : ∀ r, event ≠ .suspendMicrotask r)
    (hexec : Promise.step env s.execution event = some s'.execution)
    (hreceiving : ∀ p, s'.phase ≠ .receiving p)
    (hsuspensions : s'.suspensions = s.suspensions)
    (hresumptions : s'.resumptions = s.resumptions) : Turn env s e s' := by
  refine .works [event] hfrom hto ?_ (Option.bind_eq_some_iff.2 ⟨_, hexec, rfl⟩)
    (fun p hp => absurd hp (hreceiving p)) hsuspensions hresumptions
  intro event' he
  rw [List.mem_singleton.1 he]
  exact hevent

variable {e : Event ν η}

theorem Turn.none (hfrom : s.phase.active = true) (hto : s'.phase.active = true)
    (hexec : s'.execution = s.execution)
    (hreceiving : ∀ p, s'.phase = .receiving p → s.execution.jobs = [])
    (hsuspensions : s'.suspensions = s.suspensions)
    (hresumptions : s'.resumptions = s.resumptions) : Turn env s e s' :=
  .works [] hfrom hto (fun _ he => nomatch he) (by rw [hexec]; rfl)
    (fun p hp => by rw [hexec]; exact hreceiving p hp) hsuspensions hresumptions

theorem turn_finish (hfrom : s.phase.active = true) : Turn env s e (finish s) :=
  .none hfrom rfl rfl (by rintro _ ⟨⟩) rfl rfl

theorem unsuspending_rejected (p : ℕ) (r : Resolution ν) :
    Unsuspending ([.newPromise, .settle p r] : List (Promise.Event ν η)) := by
  intro event he r' heq
  rw [heq] at he
  rcases List.mem_cons.1 he with he | he
  · cases he
  · cases List.mem_singleton.1 he

theorem mayDo_unsuspending (h : mayDo s event = true) (r : Resolution ν) :
    event ≠ .suspendMicrotask r := by
  rintro rfl
  cases h

theorem turn_ran {final : Option ℕ} (hphase : s.phase = .running final) (h : Ran env s e s') :
    Turn env s e s' := by
  have hactive : s.phase.active = true := by rw [hphase]; rfl
  have hreceiving : ∀ p, s.phase ≠ .receiving p := by
    intro p hp
    rw [hphase] at hp
    cases hp
  cases h with
  | script hmay hexec =>
    exact .one hactive hactive (mayDo_unsuspending hmay) hexec hreceiving rfl rfl
  | refused => exact .rests rfl rfl rfl rfl
  | accepted =>
    have hexec : Promise.step env s.execution .newPromise = some (Promise.new s.execution).2 := rfl
    exact .one hactive hactive (by rintro r ⟨⟩) hexec hreceiving rfl rfl
  | @rejected name start r execution next hexec hnext =>
    refine .works [.newPromise, .settle s.execution.nextPromise r] hactive hactive
      (unsuspending_rejected _ r) ?_ (fun p hp => absurd hp (hreceiving p)) rfl rfl
    exact Option.bind_eq_some_iff.2 ⟨_, rfl, Option.bind_eq_some_iff.2 ⟨_, hexec, rfl⟩⟩
  | @awaits promise => exact .suspends promise hactive rfl rfl rfl rfl
  | @awaitsSettled promise result hstate =>
    exact .queues (.promise promise) result.resolution hactive rfl ⟨result, hstate, rfl⟩
  | @awaitsValue r => exact .queues (.value r) r hactive rfl rfl
  | ends => exact .none hactive rfl rfl (by rintro _ ⟨⟩) rfl rfl
  | finishes => exact turn_finish hactive

theorem turn_driveEventLoop {promise : ℕ} (hphase : s.phase = .final promise)
    (h : driveEventLoop env s promise = some s') : Turn env s e s' := by
  have hactive : s.phase.active = true := by rw [hphase]; rfl
  unfold driveEventLoop at h
  split at h
  · rename_i hjobs
    split at h
    · cases h
      exact .none hactive rfl rfl (fun _ _ => hjobs) rfl rfl
    · cases h
      exact turn_finish hactive
  · rename_i r jobs hjobs
    exact .mistakes promise r jobs hphase hjobs
  · rename_i job rest hjob hjobs
    obtain ⟨execution, hexec, rfl⟩ := Option.map_eq_some_iff.1 h
    have hafter : (phaseAfter env s promise job).active = true ∧
        ∀ p, phaseAfter env s promise job ≠ .receiving p := by
      cases job with
      | microtask r => exact absurd rfl (hjob r)
      | runReaction reaction r =>
        simp only [phaseAfter]
        split
        · exact ⟨rfl, fun p hp => nomatch hp⟩
        · exact ⟨rfl, fun p hp => nomatch hp⟩
      | _ => exact ⟨rfl, fun p hp => nomatch hp⟩
    exact .one hactive hafter.1 (by rintro r ⟨⟩) hexec hafter.2 rfl rfl

theorem turn_driveStep (h : driveStep env s = some s') : Turn env s .drive s' := by
  unfold driveStep at h
  split at h
  · rename_i awaited hphase
    cases h
    exact .drives awaited rfl hphase rfl
  · rename_i promise hphase
    cases h
    exact .waits promise rfl hphase rfl
  · rename_i promise hphase
    have hactive : s.phase.active = true := by rw [hphase]; rfl
    unfold awaitFinalPromise at h
    split at h
    · obtain ⟨state, -, h⟩ := Option.bind_eq_some_iff.1 h
      cases hr : state.result? with
      | none =>
        rw [hr] at h
        exact turn_driveEventLoop hphase h
      | some r =>
        rw [hr] at h
        cases h
        exact turn_finish hactive
    · obtain ⟨execution, hexec, rfl⟩ := Option.map_eq_some_iff.1 h
      exact .one hactive rfl (by rintro r ⟨⟩) hexec (by rintro _ ⟨⟩) rfl rfl
  · cases h

theorem turn_receiveStep (h : receiveStep env s = some s') : Turn env s .receive s' := by
  have hunsuspending : ∀ (p : ℕ) (r : Resolution ν),
      Unsuspending ([.settle p r] : List (Promise.Event ν η)) := by
    intro p r event he r' heq
    rw [heq] at he
    cases List.mem_singleton.1 he
  unfold receiveStep at h
  split at h
  · cases h
  · rename_i message mailbox hmailbox
    split at h
    · rename_i promise hphase
      obtain ⟨⟨ok, t⟩, ht, h⟩ := Option.bind_eq_some_iff.1 h
      rcases settleHostReply_cases ht with ⟨rfl, rfl⟩ | ⟨rfl, op, o, t', hown, hop, hsettle, rfl⟩
      · cases h
        exact .rests rfl rfl rfl rfl
      · have hexec : (Promise.machine env).exec s.execution [.settle o.promise message.result] =
            some t' := Option.bind_eq_some_iff.2 ⟨_, hsettle, rfl⟩
        dsimp only at h
        rw [if_pos rfl] at h
        obtain ⟨state, hstate, rfl⟩ := Option.map_eq_some_iff.1 h
        cases state with
        | pending =>
          exact .answers promise _ hphase rfl (hunsuspending _ _) hexec rfl rfl
        | resolving =>
          exact .answers promise _ hphase rfl (hunsuspending _ _) hexec rfl rfl
        | settled r =>
          exact .delivers promise r.resolution t' _ hphase rfl (hunsuspending _ _) hexec rfl
            ⟨r, hstate, rfl⟩ rfl rfl
    · rename_i promise hphase
      have hactive : s.phase.active = true := by rw [hphase]; rfl
      obtain ⟨⟨ok, t⟩, ht, rfl⟩ := Option.map_eq_some_iff.1 h
      rcases settleHostReply_cases ht with ⟨rfl, rfl⟩ | ⟨rfl, op, o, t', hown, hop, hsettle, rfl⟩
      · exact .rests rfl rfl rfl rfl
      · have hexec : (Promise.machine env).exec s.execution [.settle o.promise message.result] =
            some t' := Option.bind_eq_some_iff.2 ⟨_, hsettle, rfl⟩
        exact .works _ hactive rfl (hunsuspending _ _) hexec (by rintro _ ⟨⟩) rfl rfl
    · cases h

/-- **One step.** -/
theorem step_turn (h : step env host s e = some s') : Turn env s e s' := by
  cases step_cases h with
  | runs final hphase h => exact turn_ran hphase h
  | drives h => exact turn_driveStep h
  | receives h => exact turn_receiveStep h
  | replies ht => exact .rests rfl rfl rfl rfl
  | dies pid => exact .rests rfl rfl rfl rfl
  | duplicates hsent => exact .rests rfl rfl rfl rfl
  | strays n r => exact .rests rfl rfl rfl rfl

/-! ### The invariant -/

/-- What the queue holds in a phase: one result of suspended code, at its end, while that code
waits for its microtask, and none otherwise. -/
def Fits (phase : Phase ν) (t : Promise.State ν η) : Prop :=
  match phase with
  | .microtask awaited => ∃ ahead r, t.jobs = ahead ++ [.microtask r] ∧ Clear ahead ∧
      Delivers t awaited r
  | .receiving _ => t.jobs = []
  | .crashed => True
  | _ => Clear t.jobs

variable {phase : Phase ν}

theorem Fits.clear (h : Fits phase t) (hactive : phase.active = true) : Clear t.jobs := by
  cases phase with
  | receiving p =>
    have hjobs : t.jobs = [] := h
    rw [hjobs]
    exact .nil
  | microtask awaited => cases hactive
  | crashed => cases hactive
  | _ => exact h

theorem Clear.fits (h : Clear t.jobs) (hactive : phase.active = true)
    (hreceiving : ∀ p, phase = .receiving p → t.jobs = []) : Fits phase t := by
  cases phase with
  | receiving p => exact hreceiving p rfl
  | microtask awaited => cases hactive
  | crashed => cases hactive
  | _ => exact h

/-- Every resumption was with its own result, and at most the last suspension has none yet. -/
structure Queued (s : State ν η) : Prop where
  fits : Fits s.phase s.execution
  resumed : ∀ entry ∈ s.resumptions, Delivers s.execution entry.1 entry.2
  once : s.suspensions = s.resumptions.length + if s.phase.active then 0 else 1

theorem initial_queued (heap : η) : Queued (initial heap : State ν η) :=
  ⟨Clear.nil, fun _ he => (nomatch he), rfl⟩

variable {awaited : Awaited ν} {r : Resolution ν}

theorem Delivers.exec (h : Delivers t awaited r) (hl : Promise.Ledger t)
    (hexec : (Promise.machine env).exec t es = some t') : Delivers t' awaited r := by
  cases awaited with
  | value result => exact h
  | promise p =>
    obtain ⟨result, hp, hr⟩ := h
    exact ⟨result, Promise.settled_of_run hl (Machine.guardedRun_of_exec hexec) hp, hr⟩

theorem driveMicrotask_eq {ahead : List (Job ν)}
    (hjobs : s.execution.jobs = ahead ++ [.microtask r]) (hc : Clear ahead) :
    driveMicrotask s awaited =
      if ahead.length = 0 then thenResume s awaited r [] else { s with phase := .crashed } := by
  unfold driveMicrotask
  rw [hjobs]
  cases ahead with
  | nil => rfl
  | cons job ahead =>
    cases job with
    | microtask r' => exact absurd rfl (hc _ List.mem_cons_self r')
    | _ => rfl

theorem Queued.drives (h : Queued s) (hphase : s.phase = .microtask awaited) :
    Queued (driveMicrotask s awaited) := by
  have hfits := h.fits
  have honce := h.once
  rw [hphase] at hfits honce
  obtain ⟨ahead, r, hjobs, hc, hdelivers⟩ := hfits
  rw [driveMicrotask_eq hjobs hc]
  by_cases hahead : ahead.length = 0
  · rw [if_pos hahead]
    refine ⟨Clear.nil, fun entry he => ?_, ?_⟩
    · rcases List.mem_append.1 he with he | he
      · exact h.resumed entry he
      · rw [List.mem_singleton.1 he]
        exact hdelivers
    · show s.suspensions = (s.resumptions ++ [(awaited, r)]).length + 0
      rw [honce, List.length_append]
      rfl
  · rw [if_neg hahead]
    exact ⟨trivial, h.resumed, honce⟩

theorem step_queued (hI : HostInvariant env s) (h : Queued s)
    (hstep : step env host s e = some s') : Queued s' := by
  have honce := h.once
  cases step_turn hstep with
  | rests hphase hexec hsuspensions hresumptions =>
    constructor
    · rw [hphase, hexec]
      exact h.fits
    · rw [hresumptions, hexec]
      exact h.resumed
    · rw [hphase, hsuspensions, hresumptions]
      exact honce
  | works es hfrom hto hes hexec hreceiving hsuspensions hresumptions =>
    refine ⟨(exec_clear hI.ledger hes hexec (h.fits.clear hfrom)).fits hto hreceiving, ?_, ?_⟩
    · rw [hresumptions]
      exact fun entry he => (h.resumed entry he).exec hI.ledger hexec
    · rw [hsuspensions, hresumptions, honce, hfrom, hto]
  | suspends p hfrom hto hexec hsuspensions hresumptions =>
    constructor
    · rw [hto, hexec]
      exact h.fits.clear hfrom
    · rw [hresumptions, hexec]
      exact h.resumed
    · rw [hsuspensions, hresumptions, honce, hfrom, hto]
      rfl
  | queues awaited r hfrom hto hdelivers =>
    subst hto
    refine ⟨⟨s.execution.jobs, r, rfl, h.fits.clear hfrom, ?_⟩, fun entry he => ?_, ?_⟩
    · cases awaited with
      | value result => exact hdelivers
      | promise p => exact hdelivers
    · have hentry := h.resumed entry he
      obtain ⟨awaited', r'⟩ := entry
      cases awaited' with
      | value result => exact hentry
      | promise p => exact hentry
    · show s.suspensions + 1 = s.resumptions.length + 1
      rw [honce, hfrom]
      rfl
  | drives awaited he hfrom hto =>
    rw [hto]
    exact h.drives hfrom
  | mistakes p r jobs hfrom hjobs =>
    have hclear := h.fits.clear (by rw [hfrom]; rfl)
    exact absurd rfl (hclear (.microtask r) (by rw [hjobs]; exact List.mem_cons_self) r)
  | waits p he hfrom hto =>
    subst hto
    have hfits := h.fits
    rw [hfrom] at hfits honce
    exact ⟨hfits, h.resumed, honce⟩
  | answers p es hfrom hto hes hexec hsuspensions hresumptions =>
    have hfits := h.fits
    rw [hfrom] at hfits honce
    constructor
    · rw [hto]
      exact exec_clear hI.ledger hes hexec hfits
    · rw [hresumptions]
      exact fun entry he => (h.resumed entry he).exec hI.ledger hexec
    · rw [hsuspensions, hresumptions, honce, hto]
      rfl
  | delivers p r t es hfrom hto hes ht hexec hdelivers hsuspensions hresumptions =>
    have hfits := h.fits
    rw [hfrom] at hfits honce
    constructor
    · rw [hto, hexec]
      exact ⟨t.jobs, r, rfl, exec_clear hI.ledger hes ht hfits, hdelivers⟩
    · rw [hresumptions, hexec]
      intro entry he
      have hentry := (h.resumed entry he).exec hI.ledger ht
      obtain ⟨awaited', r'⟩ := entry
      cases awaited' with
      | value result => exact hentry
      | promise p => exact hentry
    · rw [hsuspensions, hresumptions, honce, hto]
      rfl

theorem reachable_queued (h : (machine env host).Reachable s) :
    HostInvariant env s ∧ Queued s := by
  refine h.invariant (I := fun s => HostInvariant env s ∧ Queued s) ?_ ?_
  · rintro s ⟨heap, rfl⟩
    exact ⟨initial_hostInvariant heap, initial_queued heap⟩
  · rintro s e s' ⟨hI, hq⟩ he
    have hstep : step env host s e = some s' := he
    exact ⟨step_hostInvariant hI hstep, step_queued hI hq hstep⟩

/-! ### The result -/

/-- The driver works as suspended code expects: every resumption was with its own result, no
suspension is resumed twice, jobs leave the queue in order, and the driver waits for a reply
only when the queue is empty. -/
structure Driven (s : State ν η) : Prop where
  resumed : ∀ entry ∈ s.resumptions, Delivers s.execution entry.1 entry.2
  once : s.suspensions = s.resumptions.length + if s.phase.active then 0 else 1
  running : s.phase ≠ .crashed
  queue : ∃ done, s.execution.history.map Prod.snd = done ++ s.execution.jobs
  waits : ∀ p, s.phase = .waiting p ∨ s.phase = .receiving p → s.execution.jobs = []

/-- The driver goes on with suspended code only when no other job is queued. -/
def Alone (s : State ν η) : Event ν η → Prop
  | .drive => (∀ awaited, s.phase = .microtask awaited → s.execution.jobs.length = 1) ∧
      ∀ p, s.phase = .legacy p → s.execution.jobs = []
  | _ => True

theorem drive_microtask (h : Queued s) (hphase : s.phase = .microtask awaited) :
    ∃ r, Delivers s.execution awaited r ∧ driveMicrotask s awaited =
      if s.execution.jobs.length = 1 then thenResume s awaited r []
      else { s with phase := .crashed } := by
  have hfits := h.fits
  rw [hphase] at hfits
  obtain ⟨ahead, r, hjobs, hc, hdelivers⟩ := hfits
  refine ⟨r, hdelivers, ?_⟩
  have hlength : s.execution.jobs.length = 1 ↔ ahead.length = 0 := by
    rw [hjobs, List.length_append]
    exact Nat.succ_inj
  rw [driveMicrotask_eq hjobs hc]
  exact if_congr hlength.symm rfl rfl

theorem Driven.step (hI : HostInvariant env s) (hq : Queued s) (h : Driven s) {e : Event ν η}
    (hstep : step env host s e = some s') (hok : Alone s e) : Driven s' := by
  have hI' := step_hostInvariant hI hstep
  have hq' := step_queued hI hq hstep
  have hreceiving : ∀ p, s'.phase = .receiving p → s'.execution.jobs = [] := by
    intro p hp
    have hfits := hq'.fits
    rw [hp] at hfits
    exact hfits
  have hrest : s'.phase ≠ .crashed ∧ ∀ p, s'.phase = .waiting p → s'.execution.jobs = [] := by
    cases step_turn hstep with
    | rests hphase hexec =>
      rw [hphase, hexec]
      exact ⟨h.running, fun p hp => h.waits p (.inl hp)⟩
    | works es hfrom hto =>
      constructor
      · intro hp
        rw [hp] at hto
        cases hto
      · intro p hp
        rw [hp] at hto
        cases hto
    | suspends p hfrom hto =>
      rw [hto]
      exact ⟨fun hp => (nomatch hp), fun p hp => nomatch hp⟩
    | queues awaited r hfrom hto =>
      subst hto
      exact ⟨fun hp => (nomatch hp), fun p hp => nomatch hp⟩
    | drives awaited he hfrom hto =>
      subst he
      obtain ⟨r, -, hdrive⟩ := drive_microtask hq hfrom
      rw [hto, hdrive, if_pos (hok.1 awaited hfrom)]
      exact ⟨fun hp => (nomatch hp), fun p hp => nomatch hp⟩
    | mistakes p r jobs hfrom hjobs =>
      have hclear := hq.fits.clear (by rw [hfrom]; rfl)
      exact absurd rfl (hclear (.microtask r) (by rw [hjobs]; exact List.mem_cons_self) r)
    | waits p he hfrom hto =>
      subst he hto
      exact ⟨fun hp => (nomatch hp), fun _ _ => hok.2 p hfrom⟩
    | answers p es hfrom hto =>
      rw [hto]
      exact ⟨fun hp => (nomatch hp), fun p hp => nomatch hp⟩
    | delivers p r t es hfrom hto =>
      rw [hto]
      exact ⟨fun hp => (nomatch hp), fun p hp => nomatch hp⟩
  exact ⟨hq'.resumed, hq'.once, hrest.1, hI'.ledger.queue,
    fun p hp => hp.elim (hrest.2 p) (hreceiving p)⟩

theorem initial_driven (heap : η) : Driven (initial heap : State ν η) :=
  ⟨fun _ he => (nomatch he), rfl, fun hp => (nomatch hp), ⟨[], rfl⟩, fun _ _ => rfl⟩

theorem driven_of_alone (h : (machine env host).ReachableIf Alone s) :
    HostInvariant env s ∧ Queued s ∧ Driven s := by
  refine h.invariant (I := fun s => HostInvariant env s ∧ Queued s ∧ Driven s) ?_ ?_
  · rintro s ⟨heap, rfl⟩
    exact ⟨initial_hostInvariant heap, initial_queued heap, initial_driven heap⟩
  · rintro s e s' ⟨hI, hq, hd⟩ hok he
    have hstep : step env host s e = some s' := he
    exact ⟨step_hostInvariant hI hstep, step_queued hI hq hstep, hd.step hI hq hstep hok⟩

theorem not_driven (hq : Queued s) (hstep : step env host s .drive = some s')
    (hok : ¬ Alone s .drive) : ¬ Driven s' := by
  intro hd
  refine hok ⟨fun awaited hphase => ?_, fun p hphase => ?_⟩
  · obtain ⟨r, -, hdrive⟩ := drive_microtask hq hphase
    have hs' : driveStep env s = some (driveMicrotask s awaited) := by
      unfold driveStep
      rw [hphase]
    cases hs'.symm.trans hstep
    by_contra hlength
    rw [hdrive, if_neg hlength] at hd
    exact hd.running rfl
  · have hs' : driveStep env s = some { s with phase := .waiting p } := by
      unfold driveStep
      rw [hphase]
    cases hs'.symm.trans hstep
    exact hd.waits p (.inl rfl)

/-- **Suspended evaluation.**  The driver does what suspended code expects in every run in which
it goes on with that code only when no other job is queued, and not beyond the first step where
another job is. -/
theorem suspended_evaluation (env : Env ν η) (host : Host ν) :
    (∀ s, (machine env host).ReachableIf Alone s → Driven s) ∧
    (∀ s s', (machine env host).Reachable s → Driven s → step env host s .drive = some s' →
      (Driven s' ↔ Alone s .drive)) ∧
    ∀ s awaited, (machine env host).Reachable s → s.phase = .microtask awaited →
      Alone s .drive → ∃ r, Delivers s.execution awaited r ∧
        step env host s .drive = some (thenResume s awaited r []) := by
  refine ⟨fun s h => (driven_of_alone h).2.2, fun s s' h hd hstep => ?_,
    fun s awaited h hphase hok => ?_⟩
  · obtain ⟨hI, hq⟩ := reachable_queued h
    exact ⟨fun hd' => by_contra fun hok => not_driven hq hstep hok hd',
      fun hok => hd.step hI hq hstep hok⟩
  · obtain ⟨r, hdelivers, hdrive⟩ := drive_microtask (reachable_queued h).2 hphase
    rw [if_pos (hok.1 awaited hphase)] at hdrive
    refine ⟨r, hdelivers, ?_⟩
    rw [← hdrive]
    show driveStep env s = _
    unfold driveStep
    rw [hphase]

/-- The events of an `await` of a host call, until its result. -/
def awaitsHostCall : List (Event ℕ Unit) :=
  [.hostCall (some [101]) (.ok ()), .awaitPromise 0, .drive,
    .replies 0 (.ok (.plain (.term 5))), .receive, .drive]

/-- An `await` of a host call is resumed with the reply. -/
theorem suspended_evaluation_hostCall :
    ∃ s, (machine Promise.plainEnv echoHost).exec (initial ()) awaitsHostCall = some s ∧
      s.resumptions.map Prod.snd = [.ok (.plain (.term 5))] ∧ Driven s := by
  have hruns : ∃ s₁ s₂ s₃ s₄ s₅ s : State ℕ Unit,
      step Promise.plainEnv echoHost (initial ()) (.hostCall (some [101]) (.ok ())) = some s₁ ∧
      step Promise.plainEnv echoHost s₁ (.awaitPromise 0) = some s₂ ∧ s₂.phase = .legacy 0 ∧
      s₂.execution.jobs = [] ∧ step Promise.plainEnv echoHost s₂ .drive = some s₃ ∧
      step Promise.plainEnv echoHost s₃ (.replies 0 (.ok (.plain (.term 5)))) = some s₄ ∧
      step Promise.plainEnv echoHost s₄ .receive = some s₅ ∧
      s₅.phase = .microtask (.promise 0) ∧ s₅.execution.jobs.length = 1 ∧
      step Promise.plainEnv echoHost s₅ .drive = some s ∧
      s.resumptions.map Prod.snd = [.ok (.plain (.term 5))] ∧
      (machine Promise.plainEnv echoHost).exec (initial ()) awaitsHostCall = some s :=
    ⟨_, _, _, _, _, _, rfl, rfl, rfl, rfl, rfl, rfl, rfl, rfl, rfl, rfl, rfl, rfl⟩
  obtain ⟨s₁, s₂, s₃, s₄, s₅, s, h₁, h₂, hp₂, hj₂, h₃, h₄, h₅, hp₅, hj₅, h₆, hresumed, hexec⟩ := hruns
  have hok₂ : Alone s₂ .drive := by
    refine ⟨fun awaited hp => ?_, fun p hp => hj₂⟩
    rw [hp₂] at hp
    cases hp
  have hok₅ : Alone s₅ .drive := by
    refine ⟨fun awaited hp => hj₅, fun p hp => ?_⟩
    rw [hp₅] at hp
    cases hp
  refine ⟨s, hexec, hresumed, (suspended_evaluation Promise.plainEnv echoHost).1 s
    ⟨initial (), awaitsHostCall, ⟨(), rfl⟩, ?_⟩⟩
  exact .cons trivial h₁ (.cons trivial h₂ (.cons hok₂ h₃ (.cons trivial h₄ (.cons trivial h₅
    (.cons hok₅ h₆ (.nil s))))))

def queuesReaction : List (Event ℕ Unit) :=
  [.script .newPromise, .script (.settle 0 (.ok (.plain (.term 1)))),
    .script (.react 0 .thenReaction (.plain (.term 1)) (.plain (.term 1)))]

/-- With a reaction in the queue, an `await` of a value crashes the driver, and an `await` of a
host call lets it wait for the reply while the reaction can run. -/
theorem suspended_evaluation_diverges :
    (∃ s, (machine Promise.plainEnv echoHost).exec (initial ())
        (queuesReaction ++ [.awaitValue (.ok (.plain (.term 2))), .drive]) = some s ∧
      s.phase = .crashed ∧ s.resumptions = [] ∧ ¬ Driven s) ∧
    ∃ s, (machine Promise.plainEnv echoHost).exec (initial ())
        (queuesReaction ++ [.hostCall (some [101]) (.ok ()), .awaitPromise 2, .drive]) = some s ∧
      s.phase = .waiting 2 ∧ s.execution.jobs.length = 1 ∧ ¬ Driven s := by
  have hcrash : ∃ s, (machine Promise.plainEnv echoHost).exec (initial ())
        (queuesReaction ++ [.awaitValue (.ok (.plain (.term 2))), .drive]) = some s ∧
      s.phase = .crashed ∧ s.resumptions = [] := ⟨_, rfl, rfl, rfl⟩
  have hwait : ∃ s, (machine Promise.plainEnv echoHost).exec (initial ())
        (queuesReaction ++ [.hostCall (some [101]) (.ok ()), .awaitPromise 2, .drive]) = some s ∧
      s.phase = .waiting 2 ∧ s.execution.jobs.length = 1 := ⟨_, rfl, rfl, rfl⟩
  obtain ⟨s, hs, hcrashed, hresumed⟩ := hcrash
  obtain ⟨s', hs', hwaiting, hjobs⟩ := hwait
  refine ⟨⟨s, hs, hcrashed, hresumed, fun hd => hd.running hcrashed⟩, s', hs', hwaiting, hjobs,
    fun hd => ?_⟩
  rw [hd.waits 2 (.inl hwaiting)] at hjobs
  cases hjobs

end QuickBeam.Vm.Runtime.EventLoop
