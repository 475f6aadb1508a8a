import QuickBeam.Locks.LockTable

/-!
# Who releases a lock

A release names a lock and a runtime, not the request that was granted, so it takes every lock of
that name which the runtime holds.  The machine here adds to the manager the requests of
`navigator.locks`: each granted request releases once, when its callback is done.

As long as a runtime that releases a lock holds no other lock of that name, nothing that conflicts
with a granted request is granted before that request releases (`respected_of_ownLocks`).  With two
shared locks in one runtime the first release gives away both (`shared_pair_released`).
-/

namespace QuickBeam.LockManager

open QuickBeam.Lib

/-! ### What one step of the manager does -/

theorem subset_tryGrantPending (s : State) : ∀ lock ∈ s.held, lock ∈ (tryGrantPending s).held :=
  fun _ hlock => List.mem_append_left _ hlock

theorem granted_tryGrantPending {s : State} {origin : From}
    (h : (origin, .granted) ∈ (tryGrantPending s).replies) :
    (origin, .granted) ∈ s.replies ∨
      ∃ request ∈ s.pending, request.origin = origin ∧ request.lock ∈ (tryGrantPending s).held := by
  rcases List.mem_append.1 h with h | h
  · exact .inl h
  · obtain ⟨request, hin, heq⟩ := List.mem_map.1 h
    have hgranted := List.mem_reverse.1 hin
    have hperm := @grantPending_perm s.held [] s.pending
    refine .inr ⟨request, hperm.subset (List.mem_append_left _ hgranted), ?_, ?_⟩
    · exact congrArg Prod.fst heq
    · exact List.mem_append_right _ (List.mem_map_of_mem hgranted)

theorem step_grows {s s' : State} {event : Event} (hstep : step s event = some s') :
    (∀ request ∈ s.requests, request ∈ s'.requests) ∧ ∀ holder ∈ s.dead, holder ∈ s'.dead := by
  cases event with
  | request owner holder name mode ifAvailable =>
    rw [← Option.some.inj hstep]
    show (∀ request ∈ s.requests,
        request ∈ (handleRequest s owner holder name mode ifAvailable).requests) ∧
      ∀ pid ∈ s.dead, pid ∈ (handleRequest s owner holder name mode ifAvailable).dead
    unfold handleRequest
    dsimp only
    have hrequests : ∀ request ∈ s.requests,
        request ∈ s.requests ++ [s.arriving owner holder name mode] :=
      fun _ hin => List.mem_append_left _ hin
    split
    · exact ⟨hrequests, fun _ hdead => hdead⟩
    · split
      · exact ⟨hrequests, fun _ hdead => hdead⟩
      · exact ⟨hrequests, fun _ hdead => hdead⟩
  | release name holder =>
    rw [← Option.some.inj hstep]
    exact ⟨fun _ hin => hin, fun _ hdead => hdead⟩
  | query =>
    rw [← Option.some.inj hstep]
    exact ⟨fun _ hin => hin, fun _ hdead => hdead⟩
  | dies holder =>
    rw [← Option.some.inj hstep]
    exact ⟨fun _ hin => hin, fun _ hdead => List.mem_cons_of_mem _ hdead⟩
  | down ref =>
    rw [step] at hstep
    split at hstep
    · rw [← Option.some.inj hstep]
      unfold handleDown
      dsimp only
      split
      · exact ⟨fun _ hin => hin, fun _ hdead => hdead⟩
      · exact ⟨fun _ hin => hin, fun _ hdead => hdead⟩
    · cases hstep

theorem granted_handleRequest {s : State} {owner holder : Pid} {name mode : String}
    {ifAvailable : Bool} {origin : From}
    (h : (origin, .granted) ∈ (handleRequest s owner holder name mode ifAvailable).replies) :
    (origin, .granted) ∈ s.replies ∨
      ∃ request ∈ (handleRequest s owner holder name mode ifAvailable).requests,
        request.origin = origin ∧
          request.lock ∈ (handleRequest s owner holder name mode ifAvailable).held := by
  unfold handleRequest at h ⊢
  dsimp only at h ⊢
  split at h
  · rename_i hgrant
    rw [if_pos hgrant]
    rcases List.mem_append.1 h with h | h
    · exact .inl h
    · refine .inr ⟨s.arriving owner holder name mode, ?_, ?_, List.mem_cons_self⟩
      · exact List.mem_append_right _ (List.mem_singleton_self _)
      · exact (congrArg Prod.fst (List.mem_singleton.1 h)).symm
  · left
    split at h
    · rcases List.mem_append.1 h with h | h
      · exact h
      · cases List.mem_singleton.1 h
    · exact h

theorem granted_handleDown {s : State} {ref : Ref} {origin : From}
    (h : (origin, .granted) ∈ (handleDown s ref).replies) :
    (origin, .granted) ∈ s.replies ∨
      ∃ request ∈ s.pending, request.origin = origin ∧ request.lock ∈ (handleDown s ref).held := by
  -- What a death answers are no grants.
  have hcancelled : ∀ {origin : From}, (origin, Reply.granted) ∈ s.replies ++
      (s.pending.filter fun request => request.ref = ref).map
        (fun request => (request.origin, Reply.holderDown)) →
      (origin, Reply.granted) ∈ s.replies := by
    intro origin h
    rcases List.mem_append.1 h with h | h
    · exact h
    · obtain ⟨request, -, heq⟩ := List.mem_map.1 h
      cases congrArg Prod.snd heq
  unfold handleDown at h ⊢
  dsimp only at h ⊢
  split at h
  · rename_i hreleased
    rw [if_pos hreleased]
    rcases granted_tryGrantPending h with h | ⟨request, hin, horigin, hheld⟩
    · exact .inl (hcancelled h)
    · exact .inr ⟨request, (List.mem_filter.1 hin).1, horigin, hheld⟩
  · exact .inl (hcancelled h)

theorem granted_step {s s' : State} {event : Event} (hs : Invariant s)
    (hstep : step s event = some s') {origin : From} (h : (origin, .granted) ∈ s'.replies) :
    (origin, .granted) ∈ s.replies ∨
      ∃ request ∈ s'.requests, request.origin = origin ∧ request.lock ∈ s'.held := by
  have hrequests := (step_grows hstep).1
  cases event with
  | request owner holder name mode ifAvailable =>
    rw [← Option.some.inj hstep] at h ⊢
    exact granted_handleRequest h
  | release name holder =>
    rw [← Option.some.inj hstep] at h hrequests ⊢
    rcases granted_tryGrantPending h with h | ⟨request, hin, horigin, hheld⟩
    · exact .inl h
    · exact .inr ⟨request, hrequests request (hs.known request hin), horigin, hheld⟩
  | query =>
    rw [← Option.some.inj hstep] at h
    exact .inl h
  | dies holder =>
    rw [← Option.some.inj hstep] at h
    exact .inl h
  | down ref =>
    rw [step] at hstep
    split at hstep
    · rw [← Option.some.inj hstep] at h hrequests ⊢
      rcases granted_handleDown h with h | ⟨request, hin, horigin, hheld⟩
      · exact .inl h
      · exact .inr ⟨request, hrequests request (hs.known request hin), horigin, hheld⟩
    · cases hstep

theorem held_step {s s' : State} {event : Event} (hstep : step s event = some s') {lock : Lock}
    (hlock : lock ∈ s.held) :
    lock ∈ s'.held ∨ event = .release lock.name lock.holder ∨ event = .down lock.ref := by
  cases event with
  | request owner holder name mode ifAvailable =>
    left
    rw [← Option.some.inj hstep]
    show lock ∈ (handleRequest s owner holder name mode ifAvailable).held
    unfold handleRequest
    dsimp only
    split
    · exact List.mem_cons_of_mem _ hlock
    · split
      · exact hlock
      · exact hlock
  | release name holder =>
    rw [← Option.some.inj hstep]
    by_cases hown : lock.name = name ∧ lock.holder = holder
    · rw [hown.1, hown.2]
      exact .inr (.inl rfl)
    · left
      refine subset_tryGrantPending _ lock ?_
      exact List.mem_filter.2 ⟨hlock, decide_eq_true hown⟩
  | query =>
    left
    rw [← Option.some.inj hstep]
    exact hlock
  | dies holder =>
    left
    rw [← Option.some.inj hstep]
    exact hlock
  | down ref =>
    rw [step] at hstep
    split at hstep
    · rw [← Option.some.inj hstep]
      by_cases href : lock.ref = ref
      · rw [href]
        exact .inr (.inr rfl)
      · left
        have hkept : lock ∈ s.held.filter fun lock => ¬ lock.ref = ref :=
          List.mem_filter.2 ⟨hlock, decide_eq_true href⟩
        unfold handleDown
        dsimp only
        split
        · exact subset_tryGrantPending _ lock hkept
        · exact hkept
    · cases hstep

/-! ### The requests of `navigator.locks` -/

/-- The manager with its callers; `released` are the requests that have released their lock. -/
structure Clients where
  manager : State
  released : List Ref

inductive Action where
  | manager (event : Event)
  /-- The `finally` of a granted request, once its callback is done. -/
  | release (request : PendingRequest)
deriving DecidableEq

def Event.isRelease : Event → Bool
  | .release _ _ => true
  | _ => false

def Clients.step (c : Clients) : Action → Option Clients
  | .manager event =>
    if event.isRelease then none
    else (LockManager.step c.manager event).map fun manager => { c with manager }
  | .release request =>
    if request ∈ c.manager.requests ∧ (request.origin, .granted) ∈ c.manager.replies ∧
        request.ref ∉ c.released then
      some ⟨handleRelease c.manager request.name request.holder, request.ref :: c.released⟩
    else none

def clients : Machine Clients Action where
  init c := c = ⟨initial, []⟩
  step := Clients.step

/-- A request is active from its grant to its own release or the death of its runtime. -/
structure Clients.Active (c : Clients) (request : PendingRequest) : Prop where
  arrived : request ∈ c.manager.requests
  granted : (request.origin, .granted) ∈ c.manager.replies
  kept : request.ref ∉ c.released
  alive : request.holder ∉ c.manager.dead

/-- No request that is granted between `c` and `c'` conflicts with one that is active in `c'`. -/
def Respected (c c' : Clients) : Prop :=
  ∀ request, c'.Active request → ∀ other ∈ c'.manager.requests, other ≠ request →
    (other.origin, .granted) ∉ c.manager.replies → (other.origin, .granted) ∈ c'.manager.replies →
    Compatible request.lock other.lock

def OwnLocks (c : Clients) (action : Action) : Prop :=
  ∀ request, action = .release request → ∀ lock ∈ c.manager.held,
    lock.name = request.name → lock.holder = request.holder → lock.ref = request.ref

structure Clients.Invariant (c : Clients) : Prop where
  manager : LockManager.Invariant c.manager
  held : ∀ request, c.Active request → request.lock ∈ c.manager.held

def Action.event : Action → Event
  | .manager event => event
  | .release request => .release request.name request.holder

theorem Clients.step_manager {c c' : Clients} {action : Action} (hstep : c.step action = some c') :
    LockManager.step c.manager action.event = some c'.manager := by
  cases action with
  | manager event =>
    rw [Clients.step] at hstep
    split at hstep
    · cases hstep
    · obtain ⟨manager, hmanager, rfl⟩ := Option.map_eq_some_iff.1 hstep
      exact hmanager
  | release request =>
    rw [Clients.step] at hstep
    split at hstep
    · rw [← Option.some.inj hstep]
      rfl
    · cases hstep

theorem Clients.subset_released {c c' : Clients} {action : Action}
    (hstep : c.step action = some c') :
    (∀ ref ∈ c.released, ref ∈ c'.released) ∧
      ∀ request, action = .release request → request.ref ∈ c'.released := by
  cases action with
  | manager event =>
    rw [Clients.step] at hstep
    split at hstep
    · cases hstep
    · obtain ⟨manager, -, rfl⟩ := Option.map_eq_some_iff.1 hstep
      exact ⟨fun _ href => href, fun request heq => by cases heq⟩
  | release request =>
    rw [Clients.step] at hstep
    split at hstep
    · rw [← Option.some.inj hstep]
      refine ⟨fun _ href => List.mem_cons_of_mem _ href, ?_⟩
      intro other heq
      cases heq
      exact List.mem_cons_self
    · cases hstep

theorem Clients.release_action {c c' : Clients} {action : Action} {name : String} {holder : Pid}
    (hstep : c.step action = some c') (hevent : action.event = .release name holder) :
    ∃ request, action = .release request ∧ request.name = name ∧ request.holder = holder := by
  cases action with
  | manager event =>
    rw [Action.event] at hevent
    rw [hevent] at hstep
    cases hstep
  | release request =>
    cases hevent
    exact ⟨request, rfl, rfl, rfl⟩

/-! ### Active requests hold their locks -/

theorem Accounts.origin_inj {s : State} (h : Accounts s) {a b : PendingRequest}
    (ha : a ∈ s.requests) (hb : b ∈ s.requests) (hab : a.origin = b.origin) : a = b :=
  List.inj_on_of_nodup_map h.origins_nodup ha hb hab

theorem Accounts.request_inj {s : State} (h : Accounts s) {a b : PendingRequest}
    (ha : a ∈ s.requests) (hb : b ∈ s.requests) (hab : a.ref = b.ref) : a = b := by
  have hnodup : (s.requests.map PendingRequest.ref).Nodup :=
    List.Pairwise.map _ (fun _ _ hlt => Nat.ne_of_lt hlt) h.arrived
  exact List.inj_on_of_nodup_map hnodup ha hb hab

theorem Accounts.down_dead {s s' : State} (h : Accounts s) {lock : Lock} (hlock : lock ∈ s.held)
    (hstep : step s (.down lock.ref) = some s') : lock.holder ∈ s.dead := by
  rw [step] at hstep
  split at hstep
  · rename_i hmonitor
    obtain ⟨monitor, hin, href, hdead⟩ := hmonitor
    have hdue : monitor ∈ s.due := h.monitored.subset hin
    have hlockdue : lock.monitor ∈ s.due := List.mem_append_left _ (List.mem_map_of_mem hlock)
    have heq := List.inj_on_of_nodup_map h.distinct hdue hlockdue href
    rw [heq] at hdead
    exact hdead
  · cases hstep

theorem Clients.invariant_initial : Clients.Invariant ⟨initial, []⟩ where
  manager := LockManager.invariant_initial
  held := fun _ hactive => absurd hactive.arrived List.not_mem_nil

theorem Clients.Active.before {c c' : Clients} {action : Action} (hc : Accounts c.manager)
    (hc' : Accounts c'.manager) (hstep : c.step action = some c') {request : PendingRequest}
    (hactive : c'.Active request) (hgranted : (request.origin, .granted) ∈ c.manager.replies) :
    c.Active request := by
  have hgrows := step_grows (Clients.step_manager hstep)
  have horigin : request.origin ∈ c.manager.requests.map PendingRequest.origin :=
    hc.answered.mem_iff.2 (List.mem_append_left _ (List.mem_map_of_mem hgranted))
  obtain ⟨earlier, hearlier, heq⟩ := List.mem_map.1 horigin
  have hsame := hc'.origin_inj (hgrows.1 earlier hearlier) hactive.arrived heq
  rw [hsame] at hearlier
  exact {
    arrived := hearlier
    granted := hgranted
    kept := fun href => hactive.kept ((Clients.subset_released hstep).1 _ href)
    alive := fun hdead => hactive.alive (hgrows.2 _ hdead) }

theorem Clients.invariant_step {c c' : Clients} {action : Action} (hc : c.Invariant)
    (hok : OwnLocks c action) (hstep : c.step action = some c') : c'.Invariant := by
  have hmanager := Clients.step_manager hstep
  have hc' := LockManager.invariant_step hc.manager hmanager
  refine ⟨hc', ?_⟩
  intro request hactive
  rcases granted_step hc.manager hmanager hactive.granted with hgranted | ⟨granted, hin, heq, hheld⟩
  · have hbefore := hactive.before hc.manager.toAccounts hc'.toAccounts hstep hgranted
    have hlock := hc.held request hbefore
    rcases held_step hmanager hlock with hheld | hrelease | hdown
    · exact hheld
    · -- The lock would have to be the releasing request's own.
      obtain ⟨releasing, rfl, hname, hholder⟩ := Clients.release_action hstep hrelease
      have href := hok releasing rfl request.lock hlock hname.symm hholder.symm
      refine absurd ((Clients.subset_released hstep).2 releasing rfl) ?_
      rw [← href]
      exact hactive.kept
    · rw [hdown] at hmanager
      exact absurd (hc.manager.down_dead hlock hmanager) hbefore.alive
  · rw [← hc'.origin_inj hin hactive.arrived heq]
    exact hheld

/-- As long as a release finds only its own lock, no request is granted that conflicts with an
active one. -/
theorem respected_of_ownLocks {c c' : Clients} {action : Action}
    (h : clients.ReachableIf OwnLocks c) (hok : OwnLocks c action)
    (hstep : clients.step c action = some c') : Respected c c' := by
  have hc : c.Invariant := by
    refine Machine.ReachableIf.invariant ?_ ?_ h
    · intro c hinit
      rw [hinit]
      exact Clients.invariant_initial
    · intro c action c' hc hok hstep
      exact Clients.invariant_step hc hok hstep
  have hc' := Clients.invariant_step hc hok hstep
  intro request hactive other hother hne hnew hgranted
  have hmanager := Clients.step_manager hstep
  rcases granted_step hc.manager hmanager hgranted with hbefore | ⟨granted, hin, heq, hheld⟩
  · exact absurd hbefore hnew
  · rw [hc'.manager.origin_inj hin hother heq] at hheld
    have hlock := hc'.held request hactive
    have hdistinct : request.lock ≠ other.lock := by
      intro hsame
      have href : other.ref = request.ref := (congrArg Lock.ref hsame).symm
      exact hne (hc'.manager.request_inj hother hactive.arrived href)
    exact hc'.manager.compatible.forall hlock hheld hdistinct

/-- Two runtimes with exclusive requests: the second is granted when the first releases. -/
theorem respected_handover :
    ∃ c c', clients.step c (.release ⟨"a", "exclusive", ⟨10, 0⟩, 1, 0⟩) = some c' ∧
      (⟨11, 1⟩, .granted) ∈ c'.manager.replies ∧ Respected c c' := by
  have hrequest : ∀ c event, OwnLocks c (.manager event) := by
    intro c event request heq
    cases heq
  have hrun : ∃ c c', clients.ReachableIf OwnLocks c ∧
      OwnLocks c (.release ⟨"a", "exclusive", ⟨10, 0⟩, 1, 0⟩) ∧
      clients.step c (.release ⟨"a", "exclusive", ⟨10, 0⟩, 1, 0⟩) = some c' ∧
      (⟨11, 1⟩, .granted) ∈ c'.manager.replies := by
    refine ⟨_, _, ⟨⟨initial, []⟩, [.manager (.request 10 1 "a" "exclusive" false),
      .manager (.request 11 2 "a" "exclusive" false)], rfl,
      .cons (hrequest _ _) rfl (.cons (hrequest _ _) rfl (.nil _))⟩, ?_, rfl, ?_⟩
    · intro request heq lock hlock _ _
      cases heq
      rw [List.mem_singleton.1 hlock]
      rfl
    · decide
  obtain ⟨c, c', hreachable, hok, hstep, hgranted⟩ := hrun
  exact ⟨c, c', hstep, hgranted, respected_of_ownLocks hreachable hok hstep⟩

/-- A runtime with two shared locks loses both at its first release, and an exclusive request of
another runtime is granted. -/
theorem shared_pair_released :
    ¬ ∀ c c' action, clients.Reachable c → clients.step c action = some c' → Respected c c' := by
  intro h
  have hrun : ∃ c c', clients.exec ⟨initial, []⟩
      [.manager (.request 10 1 "a" "shared" false), .manager (.request 11 1 "a" "shared" false),
        .manager (.request 12 2 "a" "exclusive" false)] = some c ∧
      clients.step c (.release ⟨"a", "shared", ⟨10, 0⟩, 1, 0⟩) = some c' ∧
      c'.Active ⟨"a", "shared", ⟨11, 1⟩, 1, 1⟩ ∧
      ⟨"a", "exclusive", ⟨12, 2⟩, 2, 2⟩ ∈ c'.manager.requests ∧
      (⟨12, 2⟩, .granted) ∉ c.manager.replies ∧ (⟨12, 2⟩, .granted) ∈ c'.manager.replies := by
    refine ⟨_, _, rfl, rfl, ⟨?_, ?_, ?_, ?_⟩, ?_, ?_, ?_⟩ <;> decide
  obtain ⟨c, c', hexec, hstep, hactive, hin, hnew, hgranted⟩ := hrun
  have hcompatible := h c c' _ (Machine.reachable_of_exec rfl hexec) hstep _ hactive _ hin
    (by decide) hnew hgranted rfl
  exact absurd hcompatible.2 (by decide)

end QuickBeam.LockManager
