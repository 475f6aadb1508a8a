import QuickBeam.Native.Worker

/-!
# No message is lost

As long as no wait meets a message that it does not handle, every message waits in the queue, is in
progress or is finished, and each finished request has one reply (`nothingLost`).  A compilation
that reaches the queue while an evaluation waits for a promise is dropped (`compile_lost`).
-/

namespace QuickBeam.Native.Runtime

open QuickBeam.Lib

def unfinished (s : Runtime) : List Message := s.queue ++ s.stack.filterMap Frame.message

structure NothingLost (s : Runtime) : Prop where
  /-- A message is in the queue, in progress or finished, and only one of these. -/
  accounted : s.enqueued.Perm (s.unfinished ++ s.finished)
  distinct : (s.enqueued.map Message.ref).Nodup
  /-- The replies are those of the finished requests. -/
  replied : s.replies = (s.finished.filter fun message => message.variant.replies).map Message.ref
  /-- What the server waits for is still to come. -/
  pending : ∀ ref ∈ s.pending,
    (∃ message ∈ s.unfinished, message.ref = ref) ∨ ref ∈ s.mailbox
  /-- Only a stop ends the main loop. -/
  stopped : s.stopped = true → ∃ message ∈ s.finished, message.variant = .stop

/-- A wait meets only messages that it handles, and no thread-safe function is called that has
nothing to deliver. -/
def Handled (s : Runtime) : Event → Prop
  | .dequeueWait => ∀ message ∈ s.queue.head?,
    message.variant.handledInWait = true ∨ message.variant = .stop
  | .breakLoop => False
  | _ => True

structure Invariant (s : Runtime) : Prop extends NothingLost s where
  /-- References are handed out once. -/
  fresh : ∀ message ∈ s.enqueued, message.ref < s.nextRef
  known : ∀ ref ∈ s.pending, ref < s.nextRef
  /-- Only requests are pending. -/
  requested : ∀ message ∈ s.enqueued, message.ref ∈ s.pending → message.variant.replies = true

theorem invariant_initial : Invariant initial where
  accounted := .refl _
  distinct := .nil
  replied := rfl
  pending := by simp [initial]
  stopped := by simp [initial]
  fresh := by simp [initial]
  known := by simp [initial]
  requested := by simp [initial]

section Step

variable {s s' : Runtime} (h : Invariant s)
include h

theorem Invariant.enqueue (variant : Variant) (server : Bool) :
    Invariant (s.enqueue variant server) := by
  have hpending : ∀ {ref}, ref ∈ (s.enqueue variant server).pending →
      (ref = s.nextRef ∧ variant.replies = true) ∨ ref ∈ s.pending := by
    intro ref href
    by_cases hserver : (server && variant.replies) = true
    · rw [Runtime.enqueue, if_pos hserver] at href
      rcases List.mem_cons.1 href with heq | href
      · exact .inl ⟨heq, (Bool.and_eq_true_iff.1 hserver).2⟩
      · exact .inr href
    · rw [Runtime.enqueue, if_neg hserver] at href
      exact .inr href
  have hunfinished : (s.enqueue variant server).unfinished.Perm
      (s.unfinished ++ [(⟨variant, s.nextRef⟩ : Message)]) := by
    show ((s.queue ++ [_]) ++ s.stack.filterMap Frame.message).Perm
      ((s.queue ++ s.stack.filterMap Frame.message) ++ [_])
    rw [List.append_assoc, List.append_assoc]
    exact List.perm_append_comm.append_left _
  exact {
    accounted := by
      refine (h.accounted.append_right [(⟨variant, s.nextRef⟩ : Message)]).trans ?_
      refine List.Perm.trans ?_ (hunfinished.symm.append_right s.finished)
      rw [List.append_assoc, List.append_assoc]
      exact List.perm_append_comm.append_left _
    distinct := by
      show ((s.enqueued ++ [(⟨variant, s.nextRef⟩ : Message)]).map Message.ref).Nodup
      rw [List.map_append]
      refine List.Nodup.append h.distinct (List.nodup_singleton _) ?_
      intro ref hold hnew
      obtain ⟨message, hin, href⟩ := List.mem_map.1 hold
      rw [← href] at hnew
      exact absurd (List.mem_singleton.1 hnew) (Nat.ne_of_lt (h.fresh message hin))
    replied := h.replied
    pending := by
      intro ref href
      rcases hpending href with ⟨heq, -⟩ | href
      · refine .inl ⟨⟨variant, s.nextRef⟩, ?_, heq.symm⟩
        exact hunfinished.mem_iff.2 (List.mem_append_right _ (List.mem_singleton_self _))
      · rcases h.pending ref href with ⟨message, hin, heq⟩ | hmail
        · exact .inl ⟨message, hunfinished.mem_iff.2 (List.mem_append_left _ hin), heq⟩
        · exact .inr hmail
    stopped := h.stopped
    fresh := by
      intro message hin
      rcases List.mem_append.1 hin with hin | hin
      · exact Nat.lt_succ_of_lt (h.fresh message hin)
      · rw [List.mem_singleton.1 hin]
        exact Nat.lt_succ_self _
    known := by
      intro ref href
      rcases hpending href with ⟨heq, -⟩ | href
      · rw [heq]
        exact Nat.lt_succ_self _
      · exact Nat.lt_succ_of_lt (h.known ref href)
    requested := by
      intro message hin href
      rcases List.mem_append.1 hin with hin | hin
      · rcases hpending href with ⟨heq, -⟩ | href
        · exact absurd heq (Nat.ne_of_lt (h.fresh message hin))
        · exact h.requested message hin href
      · rw [List.mem_singleton.1 hin] at href ⊢
        rcases hpending href with ⟨-, hreplies⟩ | href
        · exact hreplies
        · exact absurd (h.known _ href) (Nat.lt_irrefl _) }

variable {queue : List Message} {stack : List Frame}

theorem Invariant.move (hmove : s.unfinished.Perm (queue ++ stack.filterMap Frame.message)) :
    Invariant { s with queue, stack } where
  __ := h
  accounted := h.accounted.trans (hmove.append_right s.finished)
  pending := by
    intro ref href
    rcases h.pending ref href with ⟨message, hin, heq⟩ | hmail
    · exact .inl ⟨message, hmove.mem_iff.1 hin, heq⟩
    · exact .inr hmail

variable {message : Message}

/-- What is pending is in progress elsewhere, or its reply is on the way, or it is this request. -/
theorem Invariant.pending_cases {rest : List Message}
    (hmove : s.unfinished.Perm (message :: rest)) {ref : Ref} (href : ref ∈ s.pending) :
    (∃ message' ∈ rest, message'.ref = ref) ∨ ref ∈ s.mailbox ∨
      message.ref = ref ∧ message.variant.replies = true := by
  rcases h.pending ref href with ⟨message', hin, heq⟩ | hmail
  · rcases List.mem_cons.1 (hmove.mem_iff.1 hin) with hsame | hrest
    · have hknown := h.accounted.mem_iff.2 (List.mem_append_left _ hin)
      rw [← heq] at href
      have hrequest := h.requested message' hknown href
      rw [hsame] at heq hrequest
      exact .inr (.inr ⟨heq, hrequest⟩)
    · exact .inl ⟨message', hrest, heq⟩
  · exact .inr (.inl hmail)

theorem Invariant.finishMessage {stopped : Bool}
    (hmove : s.unfinished.Perm (message :: (queue ++ stack.filterMap Frame.message)))
    (hstopped : stopped = true → s.stopped = true ∨ message.variant = .stop) :
    Invariant ({ s with queue, stack, stopped }.finishMessage message) := by
  have haccounted : s.enqueued.Perm
      ((queue ++ stack.filterMap Frame.message) ++ (s.finished ++ [message])) := by
    refine h.accounted.trans ((hmove.append_right s.finished).trans ?_)
    rw [← List.append_assoc]
    exact (List.perm_append_singleton message _).symm
  have hended : stopped = true →
      ∃ message' ∈ s.finished ++ [message], message'.variant = .stop := by
    intro hend
    rcases hstopped hend with hbefore | hstop
    · obtain ⟨message', hin, hvariant⟩ := h.stopped hbefore
      exact ⟨message', List.mem_append_left _ hin, hvariant⟩
    · exact ⟨message, List.mem_append_right _ (List.mem_singleton_self _), hstop⟩
  unfold Runtime.finishMessage
  split
  · rename_i hreplies
    exact {
      accounted := haccounted
      distinct := h.distinct
      replied := by
        show s.replies ++ [message.ref] =
          ((s.finished ++ [message]).filter fun message => message.variant.replies).map Message.ref
        rw [List.filter_append, List.map_append, ← h.replied]
        simp [hreplies]
      pending := by
        intro ref href
        rcases h.pending_cases hmove href with hrest | hmail | ⟨hsame, -⟩
        · exact .inl hrest
        · exact .inr (List.mem_append_left _ hmail)
        · rw [← hsame]
          exact .inr (List.mem_append_right _ (List.mem_singleton_self _))
      stopped := hended
      fresh := h.fresh
      known := h.known
      requested := h.requested }
  · rename_i hreplies
    exact {
      accounted := haccounted
      distinct := h.distinct
      replied := by
        show s.replies =
          ((s.finished ++ [message]).filter fun message => message.variant.replies).map Message.ref
        rw [List.filter_append, List.map_append, ← h.replied]
        simp [hreplies]
      pending := by
        intro ref href
        rcases h.pending_cases hmove href with hrest | hmail | ⟨-, hrequest⟩
        · exact .inl hrest
        · exact .inr hmail
        · exact absurd hrequest hreplies
      stopped := hended
      fresh := h.fresh
      known := h.known
      requested := h.requested }

theorem Invariant.dequeue (hstep : s.dequeue = some s') : Invariant s' := by
  unfold Runtime.dequeue at hstep
  split at hstep
  · rename_i message queue hqueue hstack hstopped
    have hmove : s.unfinished.Perm (message :: queue) := by
      rw [unfinished, hqueue, hstack, List.filterMap_nil, List.append_nil]
    split at hstep
    · rename_i hstop
      rw [← Option.some.inj hstep]
      refine h.finishMessage ?_ (fun _ => .inr hstop)
      rw [hstack, List.filterMap_nil, List.append_nil]
      exact hmove
    · rw [← Option.some.inj hstep]
      refine h.move (hmove.trans ?_)
      exact (List.perm_append_singleton message queue).symm
  · cases hstep

theorem Invariant.dequeueWait (hok : Handled s .dequeueWait) (hstep : s.dequeueWait = some s') :
    Invariant s' := by
  unfold Runtime.dequeueWait at hstep
  split at hstep
  · rename_i message queue outer stack hqueue hstack
    have hmove : s.unfinished.Perm (message :: (queue ++ s.stack.filterMap Frame.message)) := by
      rw [unfinished, hqueue]
      rfl
    split at hstep
    · rw [← Option.some.inj hstep]
      exact h.move (hmove.trans List.perm_middle.symm)
    · split at hstep
      · rw [← Option.some.inj hstep]
        rw [hstack] at hmove
        exact h.finishMessage hmove .inl
      · rename_i hhandled hstop
        rw [Handled, hqueue] at hok
        rcases hok message rfl with hin | hin
        · exact absurd hin hhandled
        · exact absurd hin hstop
  · cases hstep

theorem Invariant.restack
    (hstack : stack.filterMap Frame.message = s.stack.filterMap Frame.message) :
    Invariant { s with stack } := by
  refine h.move ?_
  rw [hstack]
  exact .refl _

theorem Invariant.runTimers (hstep : s.runTimers = some s') : Invariant s' := by
  unfold Runtime.runTimers at hstep
  split at hstep
  · rename_i hstack _
    rw [← Option.some.inj hstep]
    refine h.restack ?_
    rw [hstack]
    rfl
  · rename_i message stack hstack
    rw [← Option.some.inj hstep]
    refine h.restack ?_
    rw [hstack]
    rfl
  · cases hstep

theorem Invariant.await (hstep : s.await = some s') : Invariant s' := by
  unfold Runtime.await at hstep
  split at hstep
  · rename_i message stack hstack
    rw [← Option.some.inj hstep]
    refine h.restack ?_
    rw [hstack]
    rfl
  · cases hstep

theorem Invariant.settle (hstep : s.settle = some s') : Invariant s' := by
  unfold Runtime.settle at hstep
  split at hstep
  · rename_i message stack hstack
    rw [← Option.some.inj hstep]
    refine h.restack ?_
    rw [hstack]
    rfl
  · cases hstep

theorem Invariant.finish (hstep : s.finish = some s') : Invariant s' := by
  unfold Runtime.finish at hstep
  split at hstep
  · rename_i message stack hstack
    rw [← Option.some.inj hstep]
    refine h.finishMessage ?_ .inl
    rw [unfinished, hstack]
    exact List.perm_middle
  · rename_i stack hstack
    rw [← Option.some.inj hstep]
    refine h.restack ?_
    rw [hstack]
    rfl
  · cases hstep

theorem Invariant.deliver (hstep : s.deliver = some s') : Invariant s' := by
  unfold Runtime.deliver at hstep
  split at hstep
  · cases hstep
  · rename_i ref mailbox hmailbox
    -- Only the reference of the reply leaves the mailbox.
    have hpending : ∀ ref' ∈ s.pending, ref' ≠ ref →
        (∃ message ∈ s.unfinished, message.ref = ref') ∨ ref' ∈ mailbox := by
      intro ref' href' hne
      rcases h.pending ref' href' with hunfinished | hmail
      · exact .inl hunfinished
      · rw [hmailbox] at hmail
        rcases List.mem_cons.1 hmail with heq | hmail
        · exact absurd heq hne
        · exact .inr hmail
    split at hstep
    · rw [← Option.some.inj hstep]
      exact { h with
        pending := by
          intro ref' href'
          obtain ⟨href', hne⟩ := List.mem_filter.1 href'
          exact hpending ref' href' (of_decide_eq_true hne)
        known := fun ref' href' => h.known ref' (List.mem_filter.1 href').1
        requested := fun message hin href' =>
          h.requested message hin (List.mem_filter.1 href').1 }
    · rename_i habsent
      rw [← Option.some.inj hstep]
      exact { h with
        pending := by
          intro ref' href'
          refine hpending ref' href' ?_
          rintro rfl
          exact habsent href' }

theorem Invariant.step {event : Event} (hok : Handled s event) (hstep : step s event = some s') :
    Invariant s' := by
  cases event with
  | enqueue variant server =>
    rw [← Option.some.inj hstep]
    exact h.enqueue variant server
  | dequeue => exact h.dequeue hstep
  | breakLoop => exact absurd hok id
  | runTimers => exact h.runTimers hstep
  | await => exact h.await hstep
  | dequeueWait => exact h.dequeueWait hok hstep
  | settle => exact h.settle hstep
  | finish => exact h.finish hstep
  | deliver => exact h.deliver hstep

end Step

end QuickBeam.Native.Runtime
