import QuickBeam.Native.ContextPool

/-!
# The order of a context's messages

While the pump puts a message back only when the queue has no other message of its context, the
messages of each context start in the order of the queue, no message is lost or handled twice, and
a context is missing only to messages that came before its creation or after its destruction
(`perContextOrder`).  Two requests behind an evaluation that waits are enough to swap them
(`eval_overtaken`).
-/

namespace QuickBeam.Native

open QuickBeam.Lib

variable {α : Type}

/-- The requests of a context, with its creation and destruction. -/
def PoolVariant.ordered : PoolVariant → Bool
  | .ctxMemoryUsage | .ctxResolveCall | .ctxRejectCall | .ctxResolveCallTerm | .stop => false
  | _ => true

def PoolMessage.concerns (context : ContextId) (message : PoolMessage α) : Bool :=
  message.variant.ordered && message.context == context

namespace ContextPool

/-! ### What a queue that keeps its order does -/

def present (there : Bool) : List (PoolMessage α) → Bool
  | [] => there
  | message :: rest =>
    match message.variant with
    | .createContext => present true rest
    | .destroyContext => present false rest
    | _ => present there rest

def missing (there : Bool) : List (PoolMessage α) → List (PoolMessage α)
  | [] => []
  | message :: rest =>
    match message.variant with
    | .createContext => missing true rest
    | .destroyContext => missing false rest
    | _ => if there then missing there rest else message :: missing there rest

def afterStop : List (PoolMessage α) → List (PoolMessage α)
  | [] => []
  | message :: rest => if message.variant = .stop then rest else afterStop rest

def pending (s : ContextPool α) : List (PoolMessage α) := s.held.toList ++ s.queue

structure PerContextOrder (s : ContextPool α) : Prop where
  /-- The messages of a context that have started are its first ones. -/
  order : ∀ context, s.enqueued.filter (PoolMessage.concerns context) =
    s.started.filter (PoolMessage.concerns context) ++
      s.pending.filter (PoolMessage.concerns context)
  /-- Every message has started or is still to start, and only one of these. -/
  once : s.enqueued.Perm (s.started ++ s.pending)
  /-- Nothing misses its context that would not miss it in the order of the queue. -/
  missed : ∀ context, s.missed.filter (PoolMessage.concerns context) <+:
    missing false (s.enqueued.filter (PoolMessage.concerns context))
  /-- The thread leaves behind only what was enqueued after the stop. -/
  stopped : s.stopped = true → s.pending.Sublist (afterStop s.enqueued)

/-- The pump puts a message back only when no other message of its context is in the queue, and no
`stop`. -/
def PutsBackLast (s : ContextPool α) : Event α → Prop
  | .putBack => ∀ message ∈ s.held, ∀ other ∈ s.queue,
    (message.variant.ordered = true → other.concerns message.context = false) ∧
      other.variant ≠ .stop
  | _ => True

theorem present_append (there : Bool) (l l' : List (PoolMessage α)) :
    present there (l ++ l') = present (present there l) l' := by
  induction l generalizing there with
  | nil => rfl
  | cons message rest ih =>
    rw [List.cons_append, present, present]
    split
    · exact ih true
    · exact ih false
    · exact ih there

theorem missing_append (there : Bool) (l l' : List (PoolMessage α)) :
    missing there (l ++ l') = missing there l ++ missing (present there l) l' := by
  induction l generalizing there with
  | nil => rfl
  | cons message rest ih =>
    rw [List.cons_append, missing, missing, present]
    split
    · exact ih true
    · exact ih false
    · by_cases hthere : there = true
      · rw [if_pos hthere, if_pos hthere, ih]
      · rw [if_neg hthere, if_neg hthere, ih, List.cons_append]

theorem afterStop_append {l : List (PoolMessage α)} (hstop : ∃ message ∈ l, message.variant = .stop)
    (l' : List (PoolMessage α)) : afterStop (l ++ l') = afterStop l ++ l' := by
  induction l with
  | nil =>
    obtain ⟨message, hin, -⟩ := hstop
    cases hin
  | cons first rest ih =>
    rw [List.cons_append, afterStop, afterStop]
    by_cases hfirst : first.variant = .stop
    · rw [if_pos hfirst, if_pos hfirst]
    · rw [if_neg hfirst, if_neg hfirst]
      obtain ⟨message, hin, hstop⟩ := hstop
      rcases List.mem_cons.1 hin with heq | hin
      · rw [heq] at hstop
        exact absurd hstop hfirst
      · exact ih ⟨message, hin, hstop⟩

theorem concat_eq_append_cons {l before after : List (PoolMessage α)} {last first : PoolMessage α}
    (h : l ++ [last] = before ++ first :: after) :
    after = [] ∨ ∃ rest, after = rest ++ [last] ∧ l = before ++ first :: rest := by
  rcases List.eq_nil_or_concat after with hnil | ⟨rest, other, hconcat⟩
  · exact .inl hnil
  · rw [hconcat, List.concat_eq_append, ← List.cons_append, ← List.append_assoc] at h
    obtain ⟨hinit, hlast⟩ := List.append_inj' h rfl
    refine .inr ⟨rest, ?_, hinit⟩
    rw [hconcat, List.concat_eq_append, hlast]

/-! ### The invariant -/

structure Invariant (s : ContextPool α) : Prop where
  order : ∀ context, s.enqueued.filter (PoolMessage.concerns context) =
    s.started.filter (PoolMessage.concerns context) ++
      s.pending.filter (PoolMessage.concerns context)
  once : s.enqueued.Perm (s.started ++ s.pending)
  contexts : ∀ context, context ∈ s.contexts ↔
    present false (s.started.filter (PoolMessage.concerns context)) = true
  missed : ∀ context, s.missed.filter (PoolMessage.concerns context) =
    missing false (s.started.filter (PoolMessage.concerns context))
  /-- What is behind a `stop` in the queue came after it. -/
  behind : ∀ before message after, s.pending = before ++ message :: after →
    message.variant = .stop → after.Sublist (afterStop s.enqueued)
  ended : s.stopped = true → s.pending.Sublist (afterStop s.enqueued) ∧
    ∃ message ∈ s.started, message.variant = .stop
  idle : s.stopped = true → s.held = none ∧ s.pumping = false

variable {s : ContextPool α}

theorem Invariant.keepsOrder (h : Invariant s) : PerContextOrder s where
  __ := h
  missed := by
    intro context
    rw [h.missed, h.order, missing_append]
    exact List.prefix_append _ _
  stopped := fun hstopped => (h.ended hstopped).1

theorem invariant_initial : Invariant (initial : ContextPool α) where
  order := fun _ => rfl
  once := .refl _
  contexts := fun _ => by simp [initial, present]
  missed := fun _ => rfl
  behind := by
    intro before message after hpending _
    exact absurd hpending.symm (List.append_ne_nil_of_right_ne_nil _ (List.cons_ne_nil _ _))
  ended := nofun
  idle := nofun

section Step

variable {s s' : ContextPool α} (h : Invariant s)
include h

theorem Invariant.enqueue (message : PoolMessage α) : Invariant (s.enqueue message) := by
  have hpending : (s.enqueue message).pending = s.pending ++ [message] := by
    rw [pending, pending, ContextPool.enqueue, List.append_assoc]
  have hafter : (∃ message ∈ s.enqueued, message.variant = .stop) →
      afterStop (s.enqueue message).enqueued = afterStop s.enqueued ++ [message] :=
    fun hstop => afterStop_append hstop _
  exact {
    order := by
      intro context
      rw [hpending]
      show (s.enqueued ++ [message]).filter _ = s.started.filter _ ++ _
      rw [List.filter_append, List.filter_append, h.order, List.append_assoc]
    once := by
      rw [hpending, ← List.append_assoc]
      exact h.once.append_right [message]
    contexts := h.contexts
    missed := h.missed
    behind := by
      intro before stop after hsplit hstop
      rw [hpending] at hsplit
      rcases concat_eq_append_cons hsplit with rfl | ⟨rest, rfl, hinit⟩
      · exact List.nil_sublist _
      · have hin : stop ∈ s.enqueued := by
          refine h.once.mem_iff.2 (List.mem_append_right _ ?_)
          rw [hinit]
          exact List.mem_append_right _ List.mem_cons_self
        rw [hafter ⟨stop, hin, hstop⟩]
        exact (h.behind before stop rest hinit hstop).append_right _
    ended := by
      intro hstopped
      obtain ⟨hpend, stop, hin, hstop⟩ := h.ended hstopped
      refine ⟨?_, stop, hin, hstop⟩
      rw [hpending, hafter ⟨stop, h.once.mem_iff.2 (List.mem_append_left _ hin), hstop⟩]
      exact hpend.append_right _
    idle := h.idle }

end Step

/-! ### Messages that start -/

section Handle

variable (s : ContextPool α) (message : PoolMessage α)

theorem handle_cases : ∃ contexts missed stopped,
    s.handle message = { s with started := s.started ++ [message], contexts, missed, stopped } ∧
      (stopped = true → s.stopped = true ∨ message.variant = .stop) := by
  unfold handle
  dsimp only
  split
  · exact ⟨_, _, _, rfl, .inl⟩
  · exact ⟨_, _, _, rfl, .inl⟩
  · exact ⟨_, _, _, rfl, fun _ => .inr ‹_›⟩
  · split
    · exact ⟨_, _, _, rfl, .inl⟩
    · exact ⟨_, _, _, rfl, .inl⟩

theorem handle_started : (s.handle message).started = s.started ++ [message] := by
  obtain ⟨_, _, _, heq, -⟩ := handle_cases s message
  rw [heq]

theorem handle_pending : (s.handle message).pending = s.pending := by
  obtain ⟨_, _, _, heq, -⟩ := handle_cases s message
  rw [heq]
  rfl

theorem handle_enqueued : (s.handle message).enqueued = s.enqueued := by
  obtain ⟨_, _, _, heq, -⟩ := handle_cases s message
  rw [heq]

theorem handle_held : (s.handle message).held = s.held := by
  obtain ⟨_, _, _, heq, -⟩ := handle_cases s message
  rw [heq]

theorem handle_pumping : (s.handle message).pumping = s.pumping := by
  obtain ⟨_, _, _, heq, -⟩ := handle_cases s message
  rw [heq]

theorem handle_stopped (hstopped : (s.handle message).stopped = true) :
    s.stopped = true ∨ message.variant = .stop := by
  obtain ⟨_, _, _, heq, hstop⟩ := handle_cases s message
  rw [heq] at hstopped
  exact hstop hstopped

theorem mem_handle_contexts (context : ContextId) :
    context ∈ (s.handle message).contexts ↔
      present (decide (context ∈ s.contexts))
        ([message].filter (PoolMessage.concerns context)) = true := by
  by_cases hcontext : message.context = context
  · unfold handle
    dsimp only
    split
    · rename_i hvariant
      simp [PoolMessage.concerns, PoolVariant.ordered, present, hvariant, hcontext]
    · rename_i hvariant
      simp [PoolMessage.concerns, PoolVariant.ordered, present, hvariant, hcontext]
    · rename_i hvariant
      simp [PoolMessage.concerns, PoolVariant.ordered, present, hvariant]
    · rename_i hcreate hdestroy hstop
      have hpresent : present (decide (context ∈ s.contexts))
          ([message].filter (PoolMessage.concerns context)) = decide (context ∈ s.contexts) := by
        rw [List.filter_cons]
        split
        · rw [present]
          split
          · exact absurd ‹_› hcreate
          · exact absurd ‹_› hdestroy
          · rfl
        · rfl
      rw [hpresent, decide_eq_true_eq]
      split
      · rfl
      · rfl
  · have hnot : message.concerns context = false := by
      simp [PoolMessage.concerns, hcontext]
    have hne : context ≠ message.context := fun heq => hcontext heq.symm
    rw [List.filter_cons_of_neg (by rw [hnot]; exact Bool.false_ne_true), List.filter_nil, present,
      decide_eq_true_eq]
    unfold handle
    dsimp only
    split
    · simp [hne]
    · simp [hne]
    · rfl
    · split
      · rfl
      · rfl

theorem handle_missed (context : ContextId) :
    (s.handle message).missed.filter (PoolMessage.concerns context) =
      s.missed.filter (PoolMessage.concerns context) ++
        missing (decide (context ∈ s.contexts))
          ([message].filter (PoolMessage.concerns context)) := by
  by_cases hconcerns : message.concerns context = true
  · have hcontext : message.context = context := by
      simp only [PoolMessage.concerns, Bool.and_eq_true, beq_iff_eq] at hconcerns
      exact hconcerns.2
    rw [List.filter_cons_of_pos hconcerns, List.filter_nil]
    unfold handle
    dsimp only
    split
    · rename_i hvariant
      simp [missing, hvariant]
    · rename_i hvariant
      simp [missing, hvariant]
    · rename_i hvariant
      rw [PoolMessage.concerns, hvariant] at hconcerns
      cases hconcerns
    · rename_i hcreate hdestroy _
      have hmissing : missing (decide (context ∈ s.contexts)) [message] =
          if decide (context ∈ s.contexts) = true then [] else [message] := by
        rw [missing]
        split
        · exact absurd ‹_› hcreate
        · exact absurd ‹_› hdestroy
        · rfl
      rw [hmissing, hcontext]
      by_cases hin : context ∈ s.contexts
      · simp [hin]
      · simp [hin, hconcerns]
  · rw [List.filter_cons_of_neg hconcerns, List.filter_nil, missing, List.append_nil]
    unfold handle
    dsimp only
    split
    · rfl
    · rfl
    · rfl
    · split
      · rfl
      · rw [List.filter_append, List.filter_cons_of_neg hconcerns, List.filter_nil,
          List.append_nil]

end Handle

theorem Invariant.handle (h : Invariant s) {message : PoolMessage α}
    {queue : List (PoolMessage α)} (hqueue : s.queue = message :: queue) (hheld : s.held = none)
    (hstop : message.variant = .stop → s.pumping = false) :
    Invariant ({ s with queue }.handle message) := by
  have hpending : s.pending = message :: queue := by
    rw [pending, hheld, hqueue]
    rfl
  have hrest : ({ s with queue } : ContextPool α).pending = queue := by
    rw [pending]
    show s.held.toList ++ queue = queue
    rw [hheld]
    rfl
  have hthere : ∀ context, decide (context ∈ s.contexts) =
      present false (s.started.filter (PoolMessage.concerns context)) :=
    fun context => Bool.eq_iff_iff.2 (decide_eq_true_iff.trans (h.contexts context))
  exact {
    order := by
      intro context
      rw [handle_enqueued, handle_started, handle_pending, hrest, h.order, hpending,
        ← List.filter_append, ← List.filter_append, List.append_assoc, List.singleton_append]
    once := by
      rw [handle_enqueued, handle_started, handle_pending, hrest, List.append_assoc,
        List.singleton_append, ← hpending]
      exact h.once
    contexts := by
      intro context
      rw [mem_handle_contexts, handle_started, List.filter_append, present_append, ← hthere]
    missed := by
      intro context
      rw [handle_missed, handle_started, List.filter_append, missing_append, ← hthere, ← h.missed]
    behind := by
      intro before stop after hsplit hstop
      rw [handle_pending, hrest] at hsplit
      rw [handle_enqueued]
      refine h.behind (message :: before) stop after ?_ hstop
      rw [hpending, hsplit, List.cons_append]
    ended := by
      intro hstopped
      rw [handle_enqueued, handle_started, handle_pending, hrest]
      rcases handle_stopped _ _ hstopped with hstopped | hvariant
      · obtain ⟨hpend, stop, hin, hstop⟩ := h.ended hstopped
        rw [hpending] at hpend
        exact ⟨(List.sublist_cons_self _ _).trans hpend, stop, List.mem_append_left _ hin, hstop⟩
      · refine ⟨h.behind [] message queue hpending hvariant, message, ?_, hvariant⟩
        exact List.mem_append_right _ (List.mem_singleton_self _)
    idle := by
      intro hstopped
      rw [handle_held, handle_pumping]
      refine ⟨hheld, ?_⟩
      rcases handle_stopped _ _ hstopped with hstopped | hvariant
      · exact (h.idle hstopped).2
      · exact hstop hvariant }

/-! ### Steps and runs -/

theorem Invariant.same {s s' : ContextPool α} (h : Invariant s) (hpending : s'.pending = s.pending)
    (hrecords : s'.enqueued = s.enqueued ∧ s'.started = s.started ∧ s'.missed = s.missed)
    (hcontexts : s'.contexts = s.contexts) (hstopped : s'.stopped = s.stopped)
    (hidle : s.stopped = true → s'.held = none ∧ s'.pumping = false) : Invariant s' := by
  obtain ⟨henqueued, hstarted, hmissed⟩ := hrecords
  exact {
    order := by
      intro context
      rw [hpending, henqueued, hstarted]
      exact h.order context
    once := by
      rw [hpending, henqueued, hstarted]
      exact h.once
    contexts := by
      intro context
      rw [hcontexts, hstarted]
      exact h.contexts context
    missed := by
      intro context
      rw [hmissed, hstarted]
      exact h.missed context
    behind := by
      rw [hpending, henqueued]
      exact h.behind
    ended := by
      rw [hpending, henqueued, hstarted, hstopped]
      exact h.ended
    idle := by
      rw [hstopped]
      exact hidle }

section Step

variable {s s' : ContextPool α} (h : Invariant s)
include h

theorem Invariant.dequeue (hstep : s.dequeue = some s') : Invariant s' := by
  unfold ContextPool.dequeue at hstep
  split at hstep
  · rename_i message queue hqueue hpumping hheld hstopped
    rw [← Option.some.inj hstep]
    refine (h.handle hqueue hheld fun _ => hpumping).same rfl ⟨rfl, rfl, rfl⟩ rfl rfl ?_
    intro hstopped'
    rw [handle_held]
    refine ⟨hheld, ?_⟩
    rcases handle_stopped _ _ hstopped' with hold | hstop
    · exact absurd (hstopped.symm.trans hold) Bool.false_ne_true
    · show (message.variant.pumps && _) = false
      rw [hstop]
      rfl
  · cases hstep

theorem Invariant.drain (hstep : s.drain = some s') : Invariant s' := by
  unfold ContextPool.drain at hstep
  split at hstep
  · rename_i message queue hqueue hpumping hheld
    split at hstep
    · rename_i hdrained
      rw [← Option.some.inj hstep]
      refine h.handle hqueue hheld fun hstop => ?_
      rw [hstop] at hdrained
      cases hdrained
    · rw [← Option.some.inj hstep]
      refine h.same ?_ ⟨rfl, rfl, rfl⟩ rfl rfl ?_
      · rw [pending, pending, hqueue, hheld]
        rfl
      · intro hstopped
        exact absurd ((h.idle hstopped).2.symm.trans hpumping) Bool.false_ne_true
  · cases hstep

theorem Invariant.putBack (hok : PutsBackLast s .putBack) (hstep : s.putBack = some s') :
    Invariant s' := by
  unfold ContextPool.putBack at hstep
  split at hstep
  · rename_i message hheld
    have hlast := hok message hheld
    have hold : s.pending = message :: s.queue := by
      rw [pending, hheld]
      rfl
    have hrunning : s.stopped = true → False := by
      intro hstopped
      have hnone := (h.idle hstopped).1
      rw [hheld] at hnone
      cases hnone
    rw [← Option.some.inj hstep]
    set t : ContextPool α := { s with queue := s.queue ++ [message], held := none } with ht
    have hnew : t.pending = s.queue ++ [message] := rfl
    exact {
      order := by
        intro context
        rw [hnew]
        show s.enqueued.filter _ = s.started.filter _ ++ _
        rw [h.order, hold]
        congr 1
        by_cases hconcerns : message.concerns context = true
        · have hordered := hconcerns
          simp only [PoolMessage.concerns, Bool.and_eq_true, beq_iff_eq] at hordered
          have hnone : s.queue.filter (PoolMessage.concerns context) = [] := by
            refine List.filter_eq_nil_iff.2 ?_
            intro other hin
            rw [← hordered.2]
            exact Bool.eq_false_iff.1 ((hlast other hin).1 hordered.1)
          rw [List.filter_append, List.filter_cons, hnone, List.nil_append,
            List.filter_cons, List.filter_nil]
        · rw [List.filter_append, List.filter_cons_of_neg hconcerns,
            List.filter_cons_of_neg hconcerns, List.filter_nil, List.append_nil]
      once := by
        rw [hnew]
        refine h.once.trans ?_
        rw [hold]
        exact (List.perm_append_singleton message s.queue).symm.append_left _
      contexts := h.contexts
      missed := h.missed
      behind := by
        intro before stop after hsplit hstop
        rw [hnew] at hsplit
        rcases concat_eq_append_cons hsplit with rfl | ⟨rest, rfl, hinit⟩
        · exact List.nil_sublist _
        · have hin : stop ∈ s.queue := by
            rw [hinit]
            exact List.mem_append_right _ List.mem_cons_self
          exact absurd hstop (hlast stop hin).2
      ended := fun hstopped => (hrunning hstopped).elim
      idle := fun hstopped => (hrunning hstopped).elim }
  · cases hstep

theorem Invariant.finish (hstep : s.finish = some s') : Invariant s' := by
  unfold ContextPool.finish at hstep
  split at hstep
  · rename_i hpumping hheld
    rw [← Option.some.inj hstep]
    exact h.same rfl ⟨rfl, rfl, rfl⟩ rfl rfl fun _ => ⟨hheld, rfl⟩
  · cases hstep

theorem Invariant.step {event : Event α} (hok : PutsBackLast s event)
    (hstep : step s event = some s') : Invariant s' := by
  cases event with
  | enqueue message =>
    rw [← Option.some.inj hstep]
    exact h.enqueue message
  | dequeue => exact h.dequeue hstep
  | drain => exact h.drain hstep
  | putBack => exact h.putBack hok hstep
  | finish => exact h.finish hstep

end Step

/-- In every run whose pump puts messages back last, the messages of a context keep their order. -/
theorem perContextOrder {s : ContextPool α} (h : machine.ReachableIf PutsBackLast s) :
    PerContextOrder s := by
  refine Invariant.keepsOrder (Machine.ReachableIf.invariant ?_ ?_ h)
  · intro s hinit
    rw [hinit]
    exact invariant_initial
  · intro s event s' hs hok hstep
    exact hs.step hok hstep

/-- An evaluation that waits lets a reply and another context's message pass, and the next
evaluation goes back to the queue. -/
theorem perContextOrder_waiting :
    ∃ s : ContextPool ℕ, machine.exec initial [.enqueue ⟨.createContext, 1, 0⟩,
        .enqueue ⟨.ctxEval, 1, 1⟩, .dequeue, .dequeue, .enqueue ⟨.ctxEval, 1, 2⟩,
        .enqueue ⟨.ctxResolveCall, 1, 3⟩, .drain, .putBack, .drain, .finish, .dequeue] = some s ∧
      s.started.map PoolMessage.payload = [0, 1, 3, 2] ∧ PerContextOrder s := by
  have hrun : ∃ s : ContextPool ℕ, machine.exec initial [.enqueue ⟨.createContext, 1, 0⟩,
      .enqueue ⟨.ctxEval, 1, 1⟩, .dequeue, .dequeue, .enqueue ⟨.ctxEval, 1, 2⟩,
      .enqueue ⟨.ctxResolveCall, 1, 3⟩, .drain, .putBack, .drain, .finish, .dequeue] = some s ∧
      s.started.map PoolMessage.payload = [0, 1, 3, 2] ∧
      machine.GuardedRun PutsBackLast initial [.enqueue ⟨.createContext, 1, 0⟩,
        .enqueue ⟨.ctxEval, 1, 1⟩, .dequeue, .dequeue, .enqueue ⟨.ctxEval, 1, 2⟩,
        .enqueue ⟨.ctxResolveCall, 1, 3⟩, .drain, .putBack, .drain, .finish, .dequeue] s := by
    refine ⟨_, rfl, rfl, ?_⟩
    refine .cons trivial rfl <| .cons trivial rfl <| .cons trivial rfl <| .cons trivial rfl <|
      .cons trivial rfl <| .cons trivial rfl <| .cons trivial rfl <| .cons ?_ rfl <|
      .cons trivial rfl <| .cons trivial rfl <| .cons trivial rfl <| .nil _
    rintro _ ⟨⟩ other hin
    rw [List.mem_singleton.1 hin]
    exact ⟨fun _ => rfl, nofun⟩
  obtain ⟨s, hexec, hstarted, hrun⟩ := hrun
  exact ⟨s, hexec, hstarted, perContextOrder ⟨_, _, rfl, hrun⟩⟩

/-- A global that is set after an evaluation takes effect before it. -/
theorem eval_overtaken :
    ¬ ∀ s : ContextPool ℕ, machine.Reachable s → PerContextOrder s := by
  intro h
  have hrun : ∃ s : ContextPool ℕ, machine.exec initial [.enqueue ⟨.createContext, 1, 0⟩,
      .enqueue ⟨.ctxEval, 1, 1⟩, .dequeue, .dequeue, .enqueue ⟨.ctxEval, 1, 2⟩,
      .enqueue ⟨.ctxDefineGlobal, 1, 3⟩, .drain, .putBack, .drain] = some s ∧
      (s.enqueued.filter (PoolMessage.concerns 1)).map PoolMessage.payload = [0, 1, 2, 3] ∧
      (s.started.filter (PoolMessage.concerns 1)).map PoolMessage.payload = [0, 1, 3] :=
    ⟨_, rfl, rfl, rfl⟩
  obtain ⟨s, hexec, henqueued, hstarted⟩ := hrun
  have horder := congrArg (List.map PoolMessage.payload)
    ((h s (Machine.reachable_of_exec rfl hexec)).order 1)
  rw [List.map_append, henqueued, hstarted] at horder
  have hthird := congrArg (fun l => l[2]?) horder
  cases hthird

end ContextPool

end QuickBeam.Native
