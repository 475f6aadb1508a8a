import QuickBeam.Locks.LockManager

/-!
# The table of locks

Two locks of one name are held together only when both are shared, no waiting request could be
granted, and monitors and answers are exactly those that the table calls for (`lock_table`).
Everything rests on one reading of the source's check (`canGrant_iff`): a request is granted when
it is compatible with every held lock of its name.
-/

namespace QuickBeam.LockManager

open QuickBeam.Lib

/-! ### Compatible locks -/

def Compatible (a b : Lock) : Prop := a.name = b.name → a.mode = "shared" ∧ b.mode = "shared"

theorem compatible_symm {a b : Lock} (h : Compatible a b) : Compatible b a :=
  fun hname => (h hname.symm).symm

instance : Std.Symm Compatible := ⟨fun _ _ => compatible_symm⟩

theorem canGrant_iff {held : List Lock} {request : PendingRequest} :
    canGrant held request.name request.mode = true ↔
      ∀ lock ∈ held, Compatible request.lock lock := by
  have hmem : ∀ lock, lock ∈ held.filter (fun lock => lock.name = request.name) ↔
      lock ∈ held ∧ lock.name = request.name := by
    intro lock
    rw [List.mem_filter, decide_eq_true_eq]
  unfold canGrant
  dsimp only
  constructor
  · intro h lock hlock hname
    have hin := (hmem lock).2 ⟨hlock, hname.symm⟩
    by_cases hempty : held.filter (fun lock => lock.name = request.name) = []
    · rw [hempty] at hin
      exact absurd hin List.not_mem_nil
    · rw [if_neg hempty] at h
      by_cases hmode : request.mode = "shared"
      · rw [if_pos hmode, List.all_eq_true] at h
        exact ⟨hmode, of_decide_eq_true (h lock hin)⟩
      · rw [if_neg hmode] at h
        cases h
  · intro h
    by_cases hempty : held.filter (fun lock => lock.name = request.name) = []
    · rw [if_pos hempty]
    · rw [if_neg hempty]
      obtain ⟨lock, hin⟩ := List.exists_mem_of_ne_nil _ hempty
      obtain ⟨hlock, hname⟩ := (hmem lock).1 hin
      have hmode : request.mode = "shared" := (h lock hlock hname.symm).1
      rw [if_pos hmode, List.all_eq_true]
      intro lock' hin'
      obtain ⟨hlock', hname'⟩ := (hmem lock').1 hin'
      exact decide_eq_true (h lock' hlock' hname'.symm).2

variable {request : PendingRequest}

theorem canGrant_mono {held held' : List Lock} (hsub : ∀ lock ∈ held, lock ∈ held')
    (h : canGrant held request.name request.mode = false) :
    canGrant held' request.name request.mode = false := by
  rw [Bool.eq_false_iff] at h ⊢
  intro hgrant
  apply h
  rw [canGrant_iff] at hgrant ⊢
  intro lock hlock
  exact hgrant lock (hsub lock hlock)

/-! ### One pass over the waiting requests -/

section Pass

variable {held : List Lock}

theorem grantPending_cons (granted rest : List PendingRequest) (request : PendingRequest) :
    grantPending held granted (request :: rest) =
      if canGrant (held ++ granted.map PendingRequest.lock) request.name request.mode then
        grantPending held (request :: granted) rest
      else
        ((grantPending held granted rest).1, request :: (grantPending held granted rest).2) := rfl

theorem grantPending_perm (granted requests : List PendingRequest) :
    ((grantPending held granted requests).1 ++ (grantPending held granted requests).2).Perm
      (granted ++ requests) := by
  induction requests generalizing granted with
  | nil => exact .refl _
  | cons request rest ih =>
    rw [grantPending_cons]
    split
    · exact (ih (request :: granted)).trans List.perm_middle.symm
    · refine List.perm_middle.trans ?_
      exact ((ih granted).cons request).trans List.perm_middle.symm

theorem subset_grantPending (granted requests : List PendingRequest) :
    ∀ request ∈ granted, request ∈ (grantPending held granted requests).1 := by
  induction requests generalizing granted with
  | nil => exact fun _ h => h
  | cons request rest ih =>
    intro request' h
    rw [grantPending_cons]
    split
    · exact ih _ request' (List.mem_cons_of_mem _ h)
    · exact ih _ request' h

theorem grantPending_compatible {granted : List PendingRequest} (requests : List PendingRequest)
    (h : (held ++ granted.map PendingRequest.lock).Pairwise Compatible) :
    (held ++ (grantPending held granted requests).1.map PendingRequest.lock).Pairwise
      Compatible := by
  induction requests generalizing granted with
  | nil => exact h
  | cons request rest ih =>
    rw [grantPending_cons]
    split
    · rename_i hgrant
      apply ih
      rw [List.map_cons]
      refine (List.Perm.pairwise_iff compatible_symm List.perm_middle).2 ?_
      exact List.pairwise_cons.2 ⟨canGrant_iff.1 hgrant, h⟩
    · exact ih h

theorem grantPending_waiting (granted requests : List PendingRequest) :
    ∀ request ∈ (grantPending held granted requests).2,
      canGrant (held ++ (grantPending held granted requests).1.map PendingRequest.lock)
        request.name request.mode = false := by
  induction requests generalizing granted with
  | nil => exact fun _ h => absurd h List.not_mem_nil
  | cons request rest ih =>
    rw [grantPending_cons]
    split
    · exact ih _
    · rename_i hgrant
      intro request' h
      rcases List.mem_cons.1 h with rfl | h
      · refine canGrant_mono ?_ (Bool.eq_false_iff.2 hgrant)
        intro lock hlock
        rcases List.mem_append.1 hlock with hlock | hlock
        · exact List.mem_append_left _ hlock
        · obtain ⟨request, hin, rfl⟩ := List.mem_map.1 hlock
          exact List.mem_append_right _
            (List.mem_map_of_mem (subset_grantPending granted rest request hin))
      · exact ih granted request' h

end Pass

/-! ### The invariant -/

def Lock.monitor (lock : Lock) : Ref × Pid := (lock.ref, lock.holder)

def PendingRequest.monitor (request : PendingRequest) : Ref × Pid := (request.ref, request.holder)

def State.due (s : State) : List (Ref × Pid) :=
  s.held.map Lock.monitor ++ s.pending.map PendingRequest.monitor

theorem State.due_refs (s : State) :
    s.due.map Prod.fst = s.held.map Lock.ref ++ s.pending.map PendingRequest.ref := by
  simp [State.due, Lock.monitor, PendingRequest.monitor, Function.comp_def]

/-- Everything but the wake-up: this also holds between a release and its pass. -/
structure Accounts (s : State) : Prop where
  /-- Exclusive locks are alone. -/
  compatible : s.held.Pairwise Compatible
  monitored : s.monitors.Perm s.due
  /-- A request is answered or waits. -/
  answered : (s.requests.map PendingRequest.origin).Perm
    (s.replies.map Prod.fst ++ s.pending.map PendingRequest.origin)
  /-- Requests are numbered in the order of their arrival. -/
  arrived : s.requests.Pairwise fun a b => a.ref < b.ref
  tagged : ∀ request ∈ s.requests, request.origin.tag = request.ref ∧ request.ref < s.nextRef
  known : ∀ request ∈ s.pending, request ∈ s.requests
  owned : ∀ lock ∈ s.held, ∃ request ∈ s.requests, request.lock = lock
  distinct : (s.due.map Prod.fst).Nodup

structure Invariant (s : State) : Prop extends Accounts s where
  /-- No waiting request could be granted. -/
  waiting : ∀ request ∈ s.pending, canGrant s.held request.name request.mode = false

theorem invariant_initial : Invariant initial where
  compatible := .nil
  monitored := .refl _
  answered := .refl _
  arrived := .nil
  tagged := by simp [initial]
  known := by simp [initial]
  owned := by simp [initial]
  distinct := by simp [initial, State.due]
  waiting := by simp [initial]

variable {s : State}

theorem Accounts.nextRef_fresh (h : Accounts s) : s.nextRef ∉ s.due.map Prod.fst := by
  rw [s.due_refs, List.mem_append, List.mem_map, List.mem_map]
  rintro (⟨lock, hlock, href⟩ | ⟨request, hin, href⟩)
  · obtain ⟨request, hin, rfl⟩ := h.owned lock hlock
    have := (h.tagged request hin).2
    exact absurd href (Nat.ne_of_lt this)
  · have := (h.tagged request (h.known request hin)).2
    exact absurd href (Nat.ne_of_lt this)

/-! ### The wake-up pass -/

theorem tryGrantPending_due (s : State) : (tryGrantPending s).due.Perm s.due := by
  have hperm := @grantPending_perm s.held [] s.pending
  have hmonitor : (PendingRequest.monitor : PendingRequest → Ref × Pid) =
      Lock.monitor ∘ PendingRequest.lock := rfl
  show ((s.held ++ (grantPending s.held [] s.pending).1.map PendingRequest.lock).map Lock.monitor ++
    (grantPending s.held [] s.pending).2.map PendingRequest.monitor).Perm s.due
  rw [List.map_append, List.append_assoc, List.map_map, ← hmonitor, ← List.map_append]
  exact (hperm.map _).append_left _

theorem invariant_tryGrantPending (h : Accounts s) : Invariant (tryGrantPending s) := by
  have hperm := @grantPending_perm s.held [] s.pending
  have hgranted : ∀ request ∈ (grantPending s.held [] s.pending).1, request ∈ s.pending :=
    fun request hin => hperm.subset (List.mem_append_left _ hin)
  have hpending : ∀ request ∈ (grantPending s.held [] s.pending).2, request ∈ s.pending :=
    fun request hin => hperm.subset (List.mem_append_right _ hin)
  exact {
    compatible := by
      refine grantPending_compatible s.pending ?_
      rw [List.map_nil, List.append_nil]
      exact h.compatible
    monitored := h.monitored.trans (tryGrantPending_due s).symm
    answered := by
      show (s.requests.map PendingRequest.origin).Perm
        ((s.replies ++ (grantPending s.held [] s.pending).1.reverse.map
          fun request => (request.origin, Reply.granted)).map Prod.fst ++
          (grantPending s.held [] s.pending).2.map PendingRequest.origin)
      refine h.answered.trans ?_
      rw [List.map_append, List.append_assoc, List.map_map]
      refine List.Perm.append_left _ ((hperm.map PendingRequest.origin).symm.trans ?_)
      rw [List.map_append]
      exact ((List.reverse_perm _).map PendingRequest.origin).symm.append_right _
    arrived := h.arrived
    tagged := h.tagged
    known := fun request hin => h.known request (hpending request hin)
    owned := by
      intro lock hlock
      rcases List.mem_append.1 hlock with hlock | hlock
      · exact h.owned lock hlock
      · obtain ⟨request, hin, rfl⟩ := List.mem_map.1 hlock
        exact ⟨request, h.known request (hgranted request hin), rfl⟩
    distinct := ((tryGrantPending_due s).map Prod.fst).nodup_iff.2 h.distinct
    waiting := grantPending_waiting [] s.pending }

/-! ### A request -/

section Request

variable {s : State} (h : Accounts s) (owner holder : Pid) (name mode : String)
include h

theorem Accounts.arrived_append :
    (s.requests ++ [s.arriving owner holder name mode]).Pairwise fun a b => a.ref < b.ref := by
  refine List.pairwise_append.2 ⟨h.arrived, List.pairwise_singleton _ _, ?_⟩
  intro request hin request' hin'
  rw [List.mem_singleton.1 hin']
  exact (h.tagged request hin).2

theorem Accounts.tagged_append :
    ∀ request ∈ s.requests ++ [s.arriving owner holder name mode],
      request.origin.tag = request.ref ∧ request.ref < s.nextRef + 1 := by
  intro request hin
  rcases List.mem_append.1 hin with hin | hin
  · exact ⟨(h.tagged request hin).1, Nat.lt_succ_of_lt (h.tagged request hin).2⟩
  · rw [List.mem_singleton.1 hin]
    exact ⟨rfl, Nat.lt_succ_self _⟩

theorem Accounts.owned_append :
    ∀ lock ∈ s.held, ∃ request ∈ s.requests ++ [s.arriving owner holder name mode],
      request.lock = lock := by
  intro lock hlock
  obtain ⟨request, hin, hrequest⟩ := h.owned lock hlock
  exact ⟨request, List.mem_append_left _ hin, hrequest⟩

theorem Accounts.known_append :
    ∀ request ∈ s.pending, request ∈ s.requests ++ [s.arriving owner holder name mode] :=
  fun request hin => List.mem_append_left _ (h.known request hin)

theorem Accounts.answered_append (reply : Reply) :
    ((s.requests ++ [s.arriving owner holder name mode]).map PendingRequest.origin).Perm
      ((s.replies ++ [((s.arriving owner holder name mode).origin, reply)]).map Prod.fst ++
        s.pending.map PendingRequest.origin) := by
  rw [List.map_append, List.map_append, List.append_assoc]
  refine (h.answered.append_right _).trans ?_
  rw [List.append_assoc]
  exact List.perm_append_comm.append_left _

theorem Accounts.grant (hgrant : canGrant s.held name mode = true) :
    Accounts { s with
      nextRef := s.nextRef + 1
      requests := s.requests ++ [s.arriving owner holder name mode]
      held := (s.arriving owner holder name mode).lock :: s.held
      monitors := (s.nextRef, holder) :: s.monitors
      replies := s.replies ++ [((s.arriving owner holder name mode).origin, .granted)] } where
  compatible := by
    refine List.pairwise_cons.2 ⟨?_, h.compatible⟩
    have hiff := @canGrant_iff s.held (s.arriving owner holder name mode)
    exact hiff.1 hgrant
  monitored := h.monitored.cons _
  answered := h.answered_append owner holder name mode .granted
  arrived := h.arrived_append owner holder name mode
  tagged := h.tagged_append owner holder name mode
  known := h.known_append owner holder name mode
  owned := by
    intro lock hlock
    rcases List.mem_cons.1 hlock with rfl | hlock
    · exact ⟨_, List.mem_append_right _ (List.mem_singleton_self _), rfl⟩
    · exact h.owned_append owner holder name mode lock hlock
  distinct := List.nodup_cons.2 ⟨h.nextRef_fresh, h.distinct⟩

theorem Accounts.refuse :
    Accounts { s with
      nextRef := s.nextRef + 1
      requests := s.requests ++ [s.arriving owner holder name mode]
      replies := s.replies ++ [((s.arriving owner holder name mode).origin, .notAvailable)] } where
  __ := h
  answered := h.answered_append owner holder name mode .notAvailable
  arrived := h.arrived_append owner holder name mode
  tagged := h.tagged_append owner holder name mode
  known := h.known_append owner holder name mode
  owned := h.owned_append owner holder name mode

theorem Accounts.wait :
    Accounts { s with
      nextRef := s.nextRef + 1
      requests := s.requests ++ [s.arriving owner holder name mode]
      pending := s.pending ++ [s.arriving owner holder name mode]
      monitors := (s.nextRef, holder) :: s.monitors } := by
  have hdue : s.held.map Lock.monitor ++
      (s.pending ++ [s.arriving owner holder name mode]).map PendingRequest.monitor =
        s.due ++ [(s.nextRef, holder)] := by
    rw [List.map_append, ← List.append_assoc]
    rfl
  exact {
    compatible := h.compatible
    monitored := by
      show ((s.nextRef, holder) :: s.monitors).Perm (_ ++ _)
      rw [hdue]
      exact (h.monitored.cons _).trans (List.perm_append_singleton _ _).symm
    answered := by
      show ((s.requests ++ [_]).map PendingRequest.origin).Perm
        (s.replies.map Prod.fst ++ (s.pending ++ [_]).map PendingRequest.origin)
      rw [List.map_append, List.map_append, ← List.append_assoc]
      exact h.answered.append_right _
    arrived := h.arrived_append owner holder name mode
    tagged := h.tagged_append owner holder name mode
    known := by
      intro request hin
      rcases List.mem_append.1 hin with hin | hin
      · exact h.known_append owner holder name mode request hin
      · exact List.mem_append_right _ hin
    owned := h.owned_append owner holder name mode
    distinct := by
      show ((s.held.map Lock.monitor ++
        (s.pending ++ [s.arriving owner holder name mode]).map PendingRequest.monitor).map
          Prod.fst).Nodup
      rw [hdue, List.map_append]
      refine List.Nodup.append h.distinct (List.nodup_singleton _) ?_
      intro ref href href'
      rw [List.mem_singleton.1 href'] at href
      exact h.nextRef_fresh href }

end Request

theorem invariant_handleRequest (h : Invariant s) (owner holder : Pid) (name mode : String)
    (ifAvailable : Bool) : Invariant (handleRequest s owner holder name mode ifAvailable) := by
  unfold handleRequest
  dsimp only
  split
  · rename_i hgrant
    refine ⟨h.toAccounts.grant owner holder name mode hgrant, ?_⟩
    intro request hin
    exact canGrant_mono (fun lock => List.mem_cons_of_mem _) (h.waiting request hin)
  · rename_i hgrant
    split
    · exact ⟨h.toAccounts.refuse owner holder name mode, h.waiting⟩
    · refine ⟨h.toAccounts.wait owner holder name mode, ?_⟩
      intro request hin
      rcases List.mem_append.1 hin with hin | hin
      · exact h.waiting request hin
      · rw [List.mem_singleton.1 hin]
        exact Bool.eq_false_iff.2 hgrant

/-! ### Releases and deaths -/

section Remove

variable {s : State} (h : Accounts s)
include h

theorem Accounts.ref_inj {a b : Lock} (ha : a ∈ s.held) (hb : b ∈ s.held) (hab : a.ref = b.ref) :
    a = b := by
  have hnodup := h.distinct
  rw [s.due_refs] at hnodup
  exact List.inj_on_of_nodup_map hnodup.of_append_left ha hb hab

theorem Accounts.ref_disjoint {lock : Lock} (hlock : lock ∈ s.held) {request : PendingRequest}
    (hin : request ∈ s.pending) : request.ref ≠ lock.ref := by
  have hnodup := h.distinct
  rw [s.due_refs] at hnodup
  intro href
  refine hnodup.disjoint (List.mem_map_of_mem hlock) ?_
  rw [← href]
  exact List.mem_map_of_mem hin

/-- The monitors of the locks that are let go are exactly those removed. -/
theorem Accounts.release (p : Lock → Bool) :
    Accounts { s with
      held := s.held.filter fun lock => ¬ p lock
      monitors := s.monitors.filter fun monitor =>
        monitor.1 ∉ (s.held.filter p).map Lock.ref } := by
  have hheld : (s.held.map Lock.monitor).filter
      (fun monitor => monitor.1 ∉ (s.held.filter p).map Lock.ref) =
        (s.held.filter fun lock => ¬ p lock).map Lock.monitor := by
    rw [List.filter_map]
    refine congrArg _ (List.filter_congr ?_)
    intro lock hlock
    refine decide_eq_decide.2 (not_congr ?_)
    rw [List.mem_map]
    constructor
    · rintro ⟨lock', hin, href⟩
      obtain ⟨hlock', hp⟩ := List.mem_filter.1 hin
      rwa [← h.ref_inj hlock' hlock href]
    · exact fun hp => ⟨lock, List.mem_filter.2 ⟨hlock, hp⟩, rfl⟩
  have hpending : (s.pending.map PendingRequest.monitor).filter
      (fun monitor => monitor.1 ∉ (s.held.filter p).map Lock.ref) =
        s.pending.map PendingRequest.monitor := by
    refine List.filter_eq_self.2 ?_
    intro monitor hmonitor
    obtain ⟨request, hin, rfl⟩ := List.mem_map.1 hmonitor
    refine decide_eq_true ?_
    rw [List.mem_map]
    rintro ⟨lock, hlock, href⟩
    exact h.ref_disjoint (List.mem_filter.1 hlock).1 hin href.symm
  have hsub : (s.held.filter fun lock => ¬ p lock).Sublist s.held := List.filter_sublist
  exact {
    compatible := h.compatible.sublist hsub
    monitored := by
      refine (h.monitored.filter _).trans ?_
      rw [State.due, List.filter_append, hheld, hpending]
      rfl
    answered := h.answered
    arrived := h.arrived
    tagged := h.tagged
    known := h.known
    owned := fun lock hlock => h.owned lock (hsub.subset hlock)
    distinct := by
      refine List.Nodup.sublist (List.Sublist.map _ ?_) h.distinct
      exact (hsub.map _).append (.refl _) }

theorem Accounts.down (ref : Ref) :
    Accounts { s with
      held := s.held.filter fun lock => ¬ lock.ref = ref
      pending := s.pending.filter fun request => ¬ request.ref = ref
      monitors := s.monitors.filter fun monitor => ¬ monitor.1 = ref
      replies := s.replies ++ (s.pending.filter fun request => request.ref = ref).map
        fun request => (request.origin, .holderDown) } := by
  have hheld : (s.held.filter fun lock => ¬ lock.ref = ref).Sublist s.held := List.filter_sublist
  have hpending : (s.pending.filter fun request => ¬ request.ref = ref).Sublist s.pending :=
    List.filter_sublist
  exact {
    compatible := h.compatible.sublist hheld
    monitored := by
      refine (h.monitored.filter _).trans ?_
      rw [State.due, List.filter_append, List.filter_map, List.filter_map]
      rfl
    answered := by
      show (s.requests.map PendingRequest.origin).Perm
        ((s.replies ++ (s.pending.filter fun request => request.ref = ref).map
          fun request => (request.origin, Reply.holderDown)).map Prod.fst ++
          (s.pending.filter fun request => ¬ request.ref = ref).map PendingRequest.origin)
      refine h.answered.trans ?_
      rw [List.map_append, List.append_assoc, List.map_map]
      refine List.Perm.append_left _ ?_
      have hsplit := List.filter_append_perm (fun request : PendingRequest => request.ref = ref)
        s.pending
      have horigin := (hsplit.map PendingRequest.origin).symm
      rw [List.map_append] at horigin
      simpa [Function.comp_def] using horigin
    arrived := h.arrived
    tagged := h.tagged
    known := fun request hin => h.known request (hpending.subset hin)
    owned := fun lock hlock => h.owned lock (hheld.subset hlock)
    distinct := by
      refine List.Nodup.sublist (List.Sublist.map _ ?_) h.distinct
      exact (hheld.map _).append (hpending.map _) }

theorem Accounts.releaseOwn (name : String) (holder : Pid) :
    Accounts { s with
      held := s.held.filter fun lock => ¬ (lock.name = name ∧ lock.holder = holder)
      monitors := s.monitors.filter fun monitor =>
        monitor.1 ∉ (s.held.filter fun lock => lock.name = name ∧ lock.holder = holder).map
          Lock.ref } := by
  have haccounts := h.release fun lock => lock.name = name ∧ lock.holder = holder
  simp only [decide_eq_true_eq] at haccounts
  exact haccounts

end Remove

theorem invariant_handleRelease (h : Invariant s) (name : String) (holder : Pid) :
    Invariant (handleRelease s name holder) :=
  invariant_tryGrantPending (h.toAccounts.releaseOwn name holder)

theorem invariant_handleDown (h : Invariant s) (ref : Ref) : Invariant (handleDown s ref) := by
  have haccounts := h.toAccounts.down ref
  unfold handleDown
  dsimp only
  split
  · exact invariant_tryGrantPending haccounts
  · -- Nothing is released, so what could not be granted still cannot be.
    rename_i hreleased
    have hheld : s.held.filter (fun lock => ¬ lock.ref = ref) = s.held := by
      refine List.filter_eq_self.2 ?_
      intro lock hlock
      refine decide_eq_true ?_
      intro href
      rw [not_not] at hreleased
      have hin : lock ∈ s.held.filter fun lock => lock.ref = ref :=
        List.mem_filter.2 ⟨hlock, decide_eq_true href⟩
      rw [hreleased] at hin
      exact List.not_mem_nil hin
    refine ⟨haccounts, ?_⟩
    intro request hin
    show canGrant (s.held.filter fun lock => ¬ lock.ref = ref) request.name request.mode = false
    rw [hheld]
    exact h.waiting request (List.mem_filter.1 hin).1

theorem invariant_step {s s' : State} {event : Event} (h : Invariant s)
    (hstep : step s event = some s') : Invariant s' := by
  cases event with
  | request owner holder name mode ifAvailable =>
    rw [← Option.some.inj hstep]
    exact invariant_handleRequest h owner holder name mode ifAvailable
  | release name holder =>
    rw [← Option.some.inj hstep]
    exact invariant_handleRelease h name holder
  | query =>
    rw [← Option.some.inj hstep]
    exact h
  | dies holder =>
    rw [← Option.some.inj hstep]
    exact ⟨⟨h.compatible, h.monitored, h.answered, h.arrived, h.tagged, h.known, h.owned,
      h.distinct⟩, h.waiting⟩
  | down ref =>
    rw [step] at hstep
    split at hstep
    · rw [← Option.some.inj hstep]
      exact invariant_handleDown h ref
    · cases hstep

theorem invariant_of_reachable (h : machine.Reachable s) : Invariant s := by
  refine Machine.Reachable.invariant ?_ ?_ h
  · intro s hinit
    rw [hinit]
    exact invariant_initial
  · intro s event s' hinvariant hstep
    exact invariant_step hinvariant hstep

/-! ### Answers -/

theorem Accounts.origins_nodup (h : Accounts s) : (s.requests.map PendingRequest.origin).Nodup := by
  have htags : (s.requests.map PendingRequest.origin).map From.tag =
      s.requests.map PendingRequest.ref := by
    rw [List.map_map]
    exact List.map_congr_left fun request hin => (h.tagged request hin).1
  refine List.Nodup.of_map From.tag ?_
  rw [htags]
  refine List.Pairwise.map _ ?_ h.arrived
  intro a b hlt
  exact Nat.ne_of_lt hlt

theorem Accounts.answer_count (h : Accounts s) (hin : request ∈ s.requests) :
    (s.replies.map Prod.fst).count request.origin = if request ∈ s.pending then 0 else 1 := by
  have hone : (s.requests.map PendingRequest.origin).count request.origin = 1 :=
    List.count_eq_one_of_mem h.origins_nodup (List.mem_map_of_mem hin)
  rw [h.answered.count_eq, List.count_append] at hone
  by_cases hpending : request ∈ s.pending
  · rw [if_pos hpending]
    have hpos : 0 < (s.pending.map PendingRequest.origin).count request.origin :=
      List.count_pos_iff.2 (List.mem_map_of_mem hpending)
    omega
  · rw [if_neg hpending]
    have hzero : (s.pending.map PendingRequest.origin).count request.origin = 0 := by
      refine List.count_eq_zero.2 ?_
      rw [List.mem_map]
      rintro ⟨other, hother, horigin⟩
      have heq := List.inj_on_of_nodup_map h.origins_nodup (h.known other hother) hin horigin
      exact hpending (heq ▸ hother)
    omega

theorem Accounts.held_name (h : Accounts s) (name : String) :
    (∃ lock, s.held.filter (fun lock => lock.name = name) = [lock]) ∨
      ∀ lock ∈ s.held, lock.name = name → lock.mode = "shared" := by
  have hmem : ∀ lock, lock ∈ s.held.filter (fun lock => lock.name = name) ↔
      lock ∈ s.held ∧ lock.name = name := by
    intro lock
    rw [List.mem_filter, decide_eq_true_eq]
  have hpair := h.compatible.filter fun lock => lock.name = name
  generalize s.held.filter (fun lock => lock.name = name) = named at hmem hpair ⊢
  match named, hmem, hpair with
  | [], hmem, _ =>
    right
    intro lock hlock hname
    exact absurd ((hmem lock).2 ⟨hlock, hname⟩) List.not_mem_nil
  | [lock], _, _ => exact .inl ⟨lock, rfl⟩
  | first :: second :: rest, hmem, hpair =>
    right
    have hall := (List.pairwise_cons.1 hpair).1
    have hfirst := ((hmem first).1 List.mem_cons_self).2
    intro lock hlock hname
    rcases List.mem_cons.1 ((hmem lock).2 ⟨hlock, hname⟩) with rfl | hin
    · have hsecond := ((hmem second).1 (List.mem_cons_of_mem _ List.mem_cons_self)).2
      exact (hall second List.mem_cons_self (hfirst.trans hsecond.symm)).1
    · exact (hall lock hin (hfirst.trans hname.symm)).2

/-- In every reachable state the locks of a name are compatible, nothing that waits could be
granted, monitors are those of the locks and of what waits, and a request is answered exactly
once, when it stops waiting. -/
theorem lock_table {s : State} (h : machine.Reachable s) :
    (∀ name, (∃ lock, s.held.filter (fun lock => lock.name = name) = [lock]) ∨
        ∀ lock ∈ s.held, lock.name = name → lock.mode = "shared") ∧
      (∀ request ∈ s.pending, canGrant s.held request.name request.mode = false) ∧
      s.monitors.Perm (s.held.map Lock.monitor ++ s.pending.map PendingRequest.monitor) ∧
      (∀ request ∈ s.requests,
        (s.replies.map Prod.fst).count request.origin = if request ∈ s.pending then 0 else 1) ∧
      ∀ reply ∈ s.replies, ∃ request ∈ s.requests, request.origin = reply.1 := by
  have hinvariant := invariant_of_reachable h
  refine ⟨hinvariant.held_name, hinvariant.waiting, hinvariant.monitored,
    fun request hin => hinvariant.answer_count hin, ?_⟩
  intro reply hreply
  have hin : reply.1 ∈ s.requests.map PendingRequest.origin :=
    hinvariant.answered.mem_iff.2 (List.mem_append_left _ (List.mem_map_of_mem hreply))
  exact List.mem_map.1 hin

/-- One release grants both shared requests that waited. -/
theorem lock_table_cascade :
    ∃ s, machine.exec initial
        [.request 10 1 "a" "exclusive" false, .request 11 2 "a" "shared" false,
          .request 12 3 "a" "shared" false, .release "a" 1] = some s ∧
      s.held = [⟨"a", "shared", 3, 2⟩, ⟨"a", "shared", 2, 1⟩] ∧
      ∀ request ∈ s.requests,
        (s.replies.map Prod.fst).count request.origin = if request ∈ s.pending then 0 else 1 := by
  have hrun : ∃ s, machine.exec initial
      [.request 10 1 "a" "exclusive" false, .request 11 2 "a" "shared" false,
        .request 12 3 "a" "shared" false, .release "a" 1] = some s ∧
      s.held = [⟨"a", "shared", 3, 2⟩, ⟨"a", "shared", 2, 1⟩] := ⟨_, rfl, rfl⟩
  obtain ⟨s, hexec, hheld⟩ := hrun
  exact ⟨s, hexec, hheld, (lock_table (Machine.reachable_of_exec rfl hexec)).2.2.2.1⟩

end QuickBeam.LockManager
