import QuickBeam.Locks.LockOwnership

/-!
# The order of the grants

A request is checked against the held locks only, never against those that wait, so a shared
request can pass an exclusive one that waits (`shared_overtakes`).  Nothing else is passed: of two
requests of one name the later is granted only after the earlier has its answer, unless the later
is shared and the earlier is not (`first_come`).
-/

namespace QuickBeam.LockManager

open QuickBeam.Lib

/-! ### The order of one pass -/

section Pass

variable {held : List Lock}

theorem grantPending_append (granted first second : List PendingRequest) :
    (grantPending held granted (first ++ second)).1 =
      (grantPending held (grantPending held granted first).1 second).1 := by
  induction first generalizing granted with
  | nil => rfl
  | cons request rest ih =>
    rw [List.cons_append, grantPending, grantPending]
    split
    · exact ih (request :: granted)
    · exact ih granted

theorem grantPending_grows (granted requests : List PendingRequest) :
    ∃ new, (grantPending held granted requests).1 = new ++ granted ∧
      ∀ request ∈ new, request ∈ requests := by
  induction requests generalizing granted with
  | nil => exact ⟨[], rfl, fun _ h => absurd h List.not_mem_nil⟩
  | cons request rest ih =>
    rw [grantPending_cons]
    split
    · obtain ⟨new, heq, hnew⟩ := ih (request :: granted)
      refine ⟨new ++ [request], ?_, ?_⟩
      · rw [heq, List.append_assoc]
        rfl
      · intro request' hin
        rcases List.mem_append.1 hin with hin | hin
        · exact List.mem_cons_of_mem _ (hnew request' hin)
        · rw [List.mem_singleton.1 hin]
          exact List.mem_cons_self
    · obtain ⟨new, heq, hnew⟩ := ih granted
      exact ⟨new, heq, fun request' hin => List.mem_cons_of_mem _ (hnew request' hin)⟩

theorem grantPending_sublist (granted requests : List PendingRequest) :
    (grantPending held granted requests).2.Sublist requests := by
  induction requests generalizing granted with
  | nil => exact .refl _
  | cons request rest ih =>
    rw [grantPending_cons]
    split
    · exact (ih (request :: granted)).cons request
    · exact (ih granted).cons_cons request

end Pass

variable {earlier later : PendingRequest} {held : List Lock}

/-- What can be granted makes way for every request of the name, unless it is shared and the
other is not. -/
theorem canGrant_of_canGrant (hname : earlier.name = later.name)
    (hmode : later.mode = "shared" → earlier.mode = "shared")
    (h : canGrant held later.name later.mode = true) :
    canGrant held earlier.name earlier.mode = true := by
  rw [canGrant_iff] at h ⊢
  intro lock hlock heq
  have hcompatible := h lock hlock (hname.symm.trans heq)
  exact ⟨hmode hcompatible.1, hcompatible.2⟩

theorem grantPending_order {requests : List PendingRequest}
    (hsorted : requests.Pairwise fun a b => a.ref < b.ref) (hearlier : earlier ∈ requests)
    (hname : earlier.name = later.name) (horder : earlier.ref < later.ref)
    (hmode : later.mode = "shared" → earlier.mode = "shared")
    (hlater : later ∈ (grantPending held [] requests).1) :
    [earlier, later].Sublist (grantPending held [] requests).1.reverse := by
  have hperm := @grantPending_perm held [] requests
  have hin : later ∈ requests := hperm.subset (List.mem_append_left _ hlater)
  obtain ⟨first, second, rfl⟩ := List.append_of_mem hin
  obtain ⟨hfirst, hsecond, hbetween⟩ := List.pairwise_append.1 hsorted
  have hafter := (List.pairwise_cons.1 hsecond).1
  have hbefore : earlier ∈ first := by
    rcases List.mem_append.1 hearlier with h | h
    · exact h
    · rcases List.mem_cons.1 h with heq | h
      · rw [heq] at horder
        exact absurd horder (Nat.lt_irrefl _)
      · exact absurd (hafter earlier h) (Nat.lt_asymm horder)
  rw [grantPending_append] at hlater ⊢
  -- What the pass has granted when it comes to the later request.
  generalize hgranted : (grantPending held [] first).1 = granted at hlater ⊢
  rw [grantPending] at hlater ⊢
  split at hlater
  · rename_i hgrant
    have hin : earlier ∈ granted := by
      have hperm := @grantPending_perm held [] first
      rcases List.mem_append.1 (hperm.symm.subset hbefore) with h | h
      · rwa [hgranted] at h
      · have hwaits := @grantPending_waiting held [] first earlier h
        rw [hgranted, canGrant_of_canGrant hname hmode hgrant] at hwaits
        cases hwaits
    rw [if_pos hgrant]
    obtain ⟨new, heq, -⟩ := @grantPending_grows held (later :: granted) second
    rw [heq, List.reverse_append, List.reverse_cons]
    refine List.Sublist.trans ?_ (List.sublist_append_left _ _)
    exact (List.singleton_sublist.2 (List.mem_reverse.2 hin)).append (.refl [later])
  · obtain ⟨new, heq, hnew⟩ := @grantPending_grows held granted second
    dsimp only at hlater
    rw [heq] at hlater
    rcases List.mem_append.1 hlater with h | h
    · exact absurd (hafter later (hnew later h)) (Nat.lt_irrefl _)
    · rw [← hgranted] at h
      have hperm := @grantPending_perm held [] first
      have hin := hperm.subset (List.mem_append_left _ h)
      exact absurd (hbetween later hin later List.mem_cons_self) (Nat.lt_irrefl _)

/-! ### The order of the answers -/

def Precedes (s : State) (earlier later : PendingRequest) : Prop :=
  (later.origin, .granted) ∈ s.replies →
    [earlier.origin, later.origin].Sublist (s.replies.map Prod.fst)

structure MustFollow (earlier later : PendingRequest) : Prop where
  name : earlier.name = later.name
  order : earlier.ref < later.ref
  mode : later.mode = "shared" → earlier.mode = "shared"

structure Ordered (s : State) : Prop where
  queued : s.pending.Sublist s.requests
  precedes : ∀ earlier ∈ s.requests, ∀ later ∈ s.requests, MustFollow earlier later →
    Precedes s earlier later

theorem ordered_initial : Ordered initial where
  queued := .refl _
  precedes := fun _ hin => absurd hin List.not_mem_nil

variable {request : PendingRequest} {s : State}

theorem Accounts.answered_or_pending (h : Accounts s) (hin : request ∈ s.requests) :
    request.origin ∈ s.replies.map Prod.fst ∨ request ∈ s.pending := by
  have horigin := h.answered.subset (List.mem_map_of_mem hin)
  rcases List.mem_append.1 horigin with h' | h'
  · exact .inl h'
  · obtain ⟨other, hother, heq⟩ := List.mem_map.1 h'
    rw [← h.origin_inj (h.known other hother) hin heq]
    exact .inr hother

variable {new : List (From × Reply)}

theorem Precedes.append {s s' : State} (h : Precedes s earlier later)
    (hs' : s'.replies = s.replies ++ new) (hgranted : (later.origin, .granted) ∈ s.replies) :
    Precedes s' earlier later := by
  intro _
  rw [hs', List.map_append]
  exact (h hgranted).trans (List.sublist_append_left _ _)

theorem ordered_tryGrantPending (hs : Accounts s) (h : Ordered s) :
    Ordered (tryGrantPending s) := by
  have hreplies : (tryGrantPending s).replies = s.replies ++
      (grantPending s.held [] s.pending).1.reverse.map fun request => (request.origin, .granted) :=
    rfl
  refine ⟨(grantPending_sublist [] s.pending).trans h.queued, ?_⟩
  intro earlier hearlier later hlater hfollow
  by_cases hgranted : (later.origin, Reply.granted) ∈ s.replies
  · exact (h.precedes earlier hearlier later hlater hfollow).append hreplies hgranted
  · intro hnew
    rw [hreplies] at hnew ⊢
    rcases List.mem_append.1 hnew with hold | hnew
    · exact absurd hold hgranted
    · obtain ⟨granted, hin, heq⟩ := List.mem_map.1 hnew
      have hin := List.mem_reverse.1 hin
      have hperm := @grantPending_perm s.held [] s.pending
      have hknown := hs.known granted (hperm.subset (List.mem_append_left _ hin))
      rw [hs.origin_inj hknown hlater (congrArg Prod.fst heq)] at hin
      have hsorted := hs.arrived.sublist h.queued
      have hmap : ((grantPending s.held [] s.pending).1.reverse.map
          fun request => (request.origin, Reply.granted)).map Prod.fst =
            (grantPending s.held [] s.pending).1.reverse.map PendingRequest.origin := by
        rw [List.map_map]
        rfl
      rw [List.map_append, hmap]
      rcases hs.answered_or_pending hearlier with hanswered | hpending
      · have hlast := List.mem_map_of_mem (f := PendingRequest.origin) (List.mem_reverse.2 hin)
        exact (List.singleton_sublist.2 hanswered).append (List.singleton_sublist.2 hlast)
      · have hpass := grantPending_order hsorted hpending hfollow.name hfollow.order hfollow.mode hin
        exact (hpass.map PendingRequest.origin).trans (List.sublist_append_right _ _)

theorem Accounts.arriving_fresh (h : Accounts s) (hin : request ∈ s.requests) (owner holder : Pid)
    (name mode : String) : request.origin ≠ (s.arriving owner holder name mode).origin := by
  intro heq
  have htag : request.origin.tag = s.nextRef := congrArg From.tag heq
  obtain ⟨hrequest, hlt⟩ := h.tagged request hin
  rw [← hrequest, htag] at hlt
  exact Nat.lt_irrefl _ hlt

theorem Accounts.replied (h : Accounts s) {origin : From} {reply : Reply}
    (hreply : (origin, reply) ∈ s.replies) : ∃ request ∈ s.requests, request.origin = origin := by
  have hin := h.answered.symm.subset (List.mem_append_left _ (List.mem_map_of_mem hreply))
  exact List.mem_map.1 hin

theorem Ordered.arrive {s s' : State} (hs : Invariant s) (h : Ordered s) {owner holder : Pid}
    {name mode : String}
    (hrequests : s'.requests = s.requests ++ [s.arriving owner holder name mode])
    (hreplies : s'.replies = s.replies ++ new)
    (hnew : ∀ origin, (origin, .granted) ∈ new → canGrant s.held name mode = true ∧ origin =
    (s.arriving owner holder name mode).origin) :
    ∀ earlier ∈ s'.requests, ∀ later ∈ s'.requests, MustFollow earlier later →
      Precedes s' earlier later := by
  intro earlier hearlier later hlater hfollow hgranted
  rw [hrequests] at hearlier hlater
  rw [hreplies] at hgranted
  -- The earlier of two requests is never the one that arrives now.
  have hbefore : earlier ∈ s.requests := by
    rcases List.mem_append.1 hearlier with hin | hin
    · exact hin
    · have hbound := (hs.tagged_append owner holder name mode later hlater).2
      have horder := hfollow.order
      rw [List.mem_singleton.1 hin] at horder
      exact absurd (Nat.lt_of_lt_of_le horder (Nat.le_of_lt_succ hbound)) (Nat.lt_irrefl _)
  rcases List.mem_append.1 hgranted with hold | hnow
  · obtain ⟨request, hin, heq⟩ := hs.replied hold
    rcases List.mem_append.1 hlater with hlater | hlater
    · have hprecedes := h.precedes earlier hbefore later hlater hfollow
      refine hprecedes.append hreplies hold ?_
      rw [hreplies]
      exact hgranted
    · rw [List.mem_singleton.1 hlater] at heq
      exact absurd heq (hs.arriving_fresh hin owner holder name mode)
  · obtain ⟨hgrant, horigin⟩ := hnew later.origin hnow
    rcases List.mem_append.1 hlater with hlater | hlater
    · exact absurd horigin (hs.arriving_fresh hlater owner holder name mode)
    · have hlast := List.mem_map_of_mem (f := Prod.fst) hnow
      rw [hreplies, List.map_append]
      rcases hs.answered_or_pending hbefore with hanswered | hpending
      · exact (List.singleton_sublist.2 hanswered).append (List.singleton_sublist.2 hlast)
      · -- The earlier one waits, so this one could not be granted either.
        rw [List.mem_singleton.1 hlater] at hfollow
        have hwaits := hs.waiting earlier hpending
        have hgrant' : canGrant s.held (s.arriving owner holder name mode).name
          (s.arriving owner holder name mode).mode = true := hgrant
        rw [canGrant_of_canGrant hfollow.name hfollow.mode hgrant'] at hwaits
        cases hwaits

theorem ordered_handleRequest (hs : Invariant s) (h : Ordered s) (owner holder : Pid)
    (name mode : String) (ifAvailable : Bool) :
    Ordered (handleRequest s owner holder name mode ifAvailable) := by
  have hqueued := h.queued.trans (List.sublist_append_left s.requests
    [s.arriving owner holder name mode])
  unfold handleRequest
  dsimp only
  split
  · rename_i hgrant
    refine ⟨hqueued, h.arrive hs rfl rfl ?_⟩
    intro origin hin
    exact ⟨hgrant, congrArg Prod.fst (List.mem_singleton.1 hin)⟩
  · split
    · refine ⟨hqueued, h.arrive hs rfl rfl ?_⟩
      intro origin hin
      cases List.mem_singleton.1 hin
    · refine ⟨h.queued.append (.refl _), h.arrive hs rfl (List.append_nil _).symm ?_⟩
      intro origin hin
      exact absurd hin List.not_mem_nil

theorem ordered_handleDown (hs : Invariant s) (h : Ordered s) (ref : Ref) :
    Ordered (handleDown s ref) := by
  have hdown : Ordered { s with
      held := s.held.filter fun lock => ¬ lock.ref = ref
      pending := s.pending.filter fun request => ¬ request.ref = ref
      monitors := s.monitors.filter fun monitor => ¬ monitor.1 = ref
      replies := s.replies ++ (s.pending.filter fun request => request.ref = ref).map
        fun request => (request.origin, .holderDown) } := by
    refine ⟨List.filter_sublist.trans h.queued, ?_⟩
    intro earlier hearlier later hlater hfollow hgranted
    have hold : (later.origin, Reply.granted) ∈ s.replies := by
      rcases List.mem_append.1 hgranted with hin | hin
      · exact hin
      · obtain ⟨request, -, heq⟩ := List.mem_map.1 hin
        cases congrArg Prod.snd heq
    exact (h.precedes earlier hearlier later hlater hfollow).append rfl hold hgranted
  unfold handleDown
  dsimp only
  split
  · exact ordered_tryGrantPending (hs.toAccounts.down ref) hdown
  · exact hdown

theorem ordered_step {s s' : State} {event : Event} (hs : Invariant s) (h : Ordered s)
    (hstep : step s event = some s') : Ordered s' := by
  cases event with
  | request owner holder name mode ifAvailable =>
    rw [← Option.some.inj hstep]
    exact ordered_handleRequest hs h owner holder name mode ifAvailable
  | release name holder =>
    rw [← Option.some.inj hstep]
    exact ordered_tryGrantPending (hs.toAccounts.releaseOwn name holder) ⟨h.queued, h.precedes⟩
  | query =>
    rw [← Option.some.inj hstep]
    exact h
  | dies holder =>
    rw [← Option.some.inj hstep]
    exact ⟨h.queued, h.precedes⟩
  | down ref =>
    rw [step] at hstep
    split at hstep
    · rw [← Option.some.inj hstep]
      exact ordered_handleDown hs h ref
    · cases hstep

/-- Of two requests of one name the later is granted only after the earlier has its answer, unless
the later is shared and the earlier is not. -/
theorem first_come {s : State} (h : machine.Reachable s) {earlier later : PendingRequest}
    (hearlier : earlier ∈ s.requests) (hlater : later ∈ s.requests)
    (hname : earlier.name = later.name) (horder : earlier.ref < later.ref)
    (hmode : later.mode = "shared" → earlier.mode = "shared")
    (hgranted : (later.origin, .granted) ∈ s.replies) :
    [earlier.origin, later.origin].Sublist (s.replies.map Prod.fst) := by
  have hordered : Invariant s ∧ Ordered s := by
    refine Machine.Reachable.invariant (I := fun s => Invariant s ∧ Ordered s) ?_ ?_ h
    · intro s hinit
      rw [hinit]
      exact ⟨invariant_initial, ordered_initial⟩
    · intro s event s' hs hstep
      exact ⟨invariant_step hs.1 hstep, ordered_step hs.1 hs.2 hstep⟩
  exact hordered.2.precedes earlier hearlier later hlater ⟨hname, horder, hmode⟩ hgranted

/-- Two exclusive requests wait for a shared one. -/
theorem first_come_exclusive :
    ∃ s, machine.exec initial
        [.request 10 1 "a" "shared" false, .request 11 2 "a" "exclusive" false,
          .request 12 3 "a" "exclusive" false, .release "a" 1, .release "a" 2] = some s ∧
      [(⟨11, 1⟩ : From), ⟨12, 2⟩].Sublist (s.replies.map Prod.fst) := by
  have hrun : ∃ s, machine.exec initial
      [.request 10 1 "a" "shared" false, .request 11 2 "a" "exclusive" false,
        .request 12 3 "a" "exclusive" false, .release "a" 1, .release "a" 2] = some s ∧
      ⟨"a", "exclusive", ⟨11, 1⟩, 2, 1⟩ ∈ s.requests ∧
      ⟨"a", "exclusive", ⟨12, 2⟩, 3, 2⟩ ∈ s.requests ∧ (⟨12, 2⟩, .granted) ∈ s.replies := by
    refine ⟨_, rfl, ?_, ?_, ?_⟩ <;> decide
  obtain ⟨s, hexec, hearlier, hlater, hgranted⟩ := hrun
  refine ⟨s, hexec, ?_⟩
  exact first_come (Machine.reachable_of_exec rfl hexec) hearlier hlater rfl (by decide)
    (fun hmode => absurd hmode (by decide)) hgranted

/-- A shared request is granted while an exclusive one that came before it waits. -/
theorem shared_overtakes :
    ¬ ∀ s, machine.Reachable s → ∀ earlier ∈ s.requests, ∀ later ∈ s.requests,
      earlier.name = later.name → earlier.ref < later.ref →
      (later.origin, .granted) ∈ s.replies → earlier ∉ s.pending := by
  intro h
  have hrun : ∃ s, machine.exec initial
      [.request 10 1 "a" "shared" false, .request 11 2 "a" "exclusive" false,
        .request 12 3 "a" "shared" false] = some s ∧
      ⟨"a", "exclusive", ⟨11, 1⟩, 2, 1⟩ ∈ s.requests ∧
      ⟨"a", "shared", ⟨12, 2⟩, 3, 2⟩ ∈ s.requests ∧ (⟨12, 2⟩, .granted) ∈ s.replies ∧
      ⟨"a", "exclusive", ⟨11, 1⟩, 2, 1⟩ ∈ s.pending := by
    refine ⟨_, rfl, ?_, ?_, ?_, ?_⟩ <;> decide
  obtain ⟨s, hexec, hearlier, hlater, hgranted, hpending⟩ := hrun
  exact h s (Machine.reachable_of_exec rfl hexec) _ hearlier _ hlater rfl (by decide) hgranted
    hpending

end QuickBeam.LockManager
