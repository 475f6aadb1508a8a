import QuickBeam.Lib.Transition

/-!
# The ids of a context pool (`context_pool.ex`, `context_worker.zig`)

The pool process hands out an id and a thread for each creation and waits for the reply of the
thread; it counts on only after an `{:ok, id}`.  The thread keeps its contexts in a table by id and
its owner addresses them by the id it was given.

A creation is named by the reference of its reply.  A wait may put messages back, so a thread takes
the messages of its queue in any order.  A thread may have stopped from the start, where its runtime
was not made.  `alive` holds the contexts that were made and not destroyed, `given` the creations
whose owner has got the id, and `acted` each owner's operations with the context they reached.
-/

namespace QuickBeam.Native

open QuickBeam.Lib

/-! ### The pool and its threads -/

structure Creation where
  ref : ℕ
  owner : ℕ
  id : ℕ
  thread : ℕ
deriving DecidableEq

/-- The messages of a thread that bear on its table; `op` stands for all that look a context up. -/
inductive ThreadMessage where
  | create (creation : Creation)
  | destroy (owner id : ℕ)
  | op (owner id : ℕ)
deriving DecidableEq

structure ContextIds where
  /-- The number of threads. -/
  size : ℕ
  nextRef : ℕ
  nextId : ℕ
  nextThread : ℕ
  /-- The creation whose reply the pool waits for. -/
  waiting : Option Creation
  queue : ℕ → List ThreadMessage
  table : ℕ → ℕ → Option Creation
  alive : ℕ → List Creation
  stopped : ℕ → Bool
  replies : List (ℕ × Bool)
  given : List Creation
  dead : List ℕ
  acted : List (ℕ × Creation)

namespace ContextIds

def initial (size : ℕ) (stopped : ℕ → Bool) : ContextIds :=
  ⟨size, 0, 1, 0, none, fun _ => [], fun _ _ => none, fun _ => [], stopped, [], [], [], []⟩

def enqueue (s : ContextIds) (t : ℕ) (message : ThreadMessage) : ContextIds :=
  { s with queue := Function.update s.queue t (s.queue t ++ [message]) }

def setTable (s : ContextIds) (t id : ℕ) (entry : Option Creation) : ContextIds :=
  { s with table := Function.update s.table t (Function.update (s.table t) id entry) }

def setAlive (s : ContextIds) (t : ℕ) (alive : List Creation) : ContextIds :=
  { s with alive := Function.update s.alive t alive }

/-! ### Steps of the pool -/

/-- `handle_call({:create_context, …})` up to its `receive`. -/
def request (s : ContextIds) (owner : ℕ) : Option ContextIds :=
  match s.waiting with
  | none =>
    let creation : Creation := ⟨s.nextRef, owner, s.nextId, s.nextThread % s.size⟩
    some ({ s with nextRef := s.nextRef + 1, waiting := creation }.enqueue creation.thread
      (.create creation))
  | some _ => none

def give (s : ContextIds) (creation : Creation) : ContextIds :=
  if creation.owner ∈ s.dead then s else { s with given := s.given ++ [creation] }

/-- The `receive` finds the reply. -/
def receive (s : ContextIds) (ok : Bool) : Option ContextIds :=
  match s.waiting with
  | some w =>
    if (w.ref, ok) ∈ s.replies then
      let s := { s with waiting := none, replies := s.replies.erase (w.ref, ok) }
      if ok then some ({ s with nextId := w.id + 1, nextThread := w.thread + 1 }.give w) else some s
    else none
  | none => none

def timeout (s : ContextIds) : Option ContextIds :=
  match s.waiting with
  | some w =>
    if (w.ref, true) ∈ s.replies ∨ (w.ref, false) ∈ s.replies then none
    else some { s with waiting := none }
  | none => none

/-! ### Steps of a thread -/

def handleCreate (s : ContextIds) (t : ℕ) (creation : Creation) (ok : Bool) : ContextIds :=
  if ok then
    { (s.setTable t creation.id creation).setAlive t (s.alive t ++ [creation]) with
      replies := s.replies ++ [(creation.ref, true)] }
  else { s with replies := s.replies ++ [(creation.ref, false)] }

def handleDestroy (s : ContextIds) (t owner id : ℕ) : ContextIds :=
  match s.table t id with
  | some entry =>
    { (s.setTable t id none).setAlive t ((s.alive t).erase entry) with
      acted := s.acted ++ [(owner, entry)] }
  | none => s

def handleOp (s : ContextIds) (t owner id : ℕ) : ContextIds :=
  match s.table t id with
  | some entry => { s with acted := s.acted ++ [(owner, entry)] }
  | none => s

def handle (s : ContextIds) (t : ℕ) (message : ThreadMessage) (ok : Bool) : Option ContextIds :=
  if message ∈ s.queue t ∧ s.stopped t = false then
    let s := { s with queue := Function.update s.queue t ((s.queue t).erase message) }
    match message with
    | .create creation => some (s.handleCreate t creation ok)
    | .destroy owner id => some (s.handleDestroy t owner id)
    | .op owner id => some (s.handleOp t owner id)
  else none

/-- The thread leaves its loop and destroys what is in its table. -/
def stop (s : ContextIds) (t : ℕ) : ContextIds :=
  { s.setAlive t ((s.alive t).filter fun c => s.table t c.id ≠ some c) with
    table := Function.update s.table t fun _ => none
    stopped := Function.update s.stopped t true }

inductive Event where
  | request (owner : ℕ)
  | receive (ok : Bool)
  | timeout
  | handle (t : ℕ) (message : ThreadMessage) (ok : Bool)
  | stop (t : ℕ)
  /-- An owner uses or destroys the context whose id it was given. -/
  | use (creation : Creation)
  | destroy (creation : Creation)
  | die (owner : ℕ)

def step (s : ContextIds) : Event → Option ContextIds
  | .request owner => s.request owner
  | .receive ok => s.receive ok
  | .timeout => s.timeout
  | .handle t message ok => s.handle t message ok
  | .stop t => some (s.stop t)
  | .use c => if c ∈ s.given then some (s.enqueue c.thread (.op c.owner c.id)) else none
  | .destroy c => if c ∈ s.given then some (s.enqueue c.thread (.destroy c.owner c.id)) else none
  | .die owner => some { s with dead := owner :: s.dead }

def machine : Machine ContextIds Event where
  init s := ∃ size stopped, s = initial size stopped
  step := step

/-! ### Unique ids -/

structure IdsUnique (s : ContextIds) : Prop where
  /-- No two contexts alive on one thread have the same id. -/
  unique : ∀ t, ((s.alive t).map Creation.id).Nodup
  /-- The owner of an entry has its id, or the pool is about to give it. -/
  owned : ∀ t id c, s.table t id = some c → c ∈ s.given ∨ s.waiting = some c
  /-- What an owner does reaches its own context. -/
  own : ∀ p ∈ s.acted, p.2.owner = p.1
  /-- A context leaves the table only when it is destroyed. -/
  kept : ∀ t c, c ∈ s.alive t → s.table t c.id = some c

/-- A wait is given up only where the creation will not be carried out any more, and an owner is
there to get its id. -/
def Answered (s : ContextIds) : Event → Prop
  | .timeout => ∀ w, s.waiting = some w → s.stopped w.thread = true
  | .receive true => ∀ w, s.waiting = some w → w.owner ∉ s.dead
  | _ => True

def creations (queue : List ThreadMessage) : List Creation :=
  queue.filterMap fun
    | .create c => some c
    | _ => none

structure Invariant (s : ContextIds) : Prop where
  waits : ∀ w, s.waiting = some w → w.id = s.nextId ∧ w.ref < s.nextRef
  /-- Only the creation the pool waits for is under way. -/
  creates : ∀ t, s.stopped t = false → creations (s.queue t) = [] ∨
    ∃ w, s.waiting = some w ∧ w.thread = t ∧ creations (s.queue t) = [w]
  unanswered : ∀ t w, s.waiting = some w → s.stopped t = false → w ∈ creations (s.queue t) →
    ∀ ok, (w.ref, ok) ∉ s.replies
  answered : ∀ w, s.waiting = some w → ∀ t id, s.table t id = some w → (w.ref, true) ∈ s.replies
  failed : ∀ w, s.waiting = some w → (w.ref, false) ∈ s.replies → ∀ t id, s.table t id ≠ some w
  refs : ∀ p ∈ s.replies, p.1 < s.nextRef
  entries : ∀ t id c, s.table t id = some c → c.id = id ∧ c ∈ s.alive t
  owned : ∀ t id c, s.table t id = some c → c ∈ s.given ∨ s.waiting = some c
  kept : ∀ t c, c ∈ s.alive t → s.table t c.id = some c
  nodup : ∀ t, (s.alive t).Nodup
  below : ∀ c ∈ s.given, c.id < s.nextId
  distinct : ∀ c ∈ s.given, ∀ d ∈ s.given, c.id = d.id → c = d
  /-- What is addressed with an id comes from the owner that was given it. -/
  destroys : ∀ t owner id, .destroy owner id ∈ s.queue t → ∃ c ∈ s.given, c.owner = owner ∧ c.id = id
  ops : ∀ t owner id, .op owner id ∈ s.queue t → ∃ c ∈ s.given, c.owner = owner ∧ c.id = id
  own : ∀ p ∈ s.acted, p.2.owner = p.1

theorem Invariant.toIdsUnique {s : ContextIds} (h : Invariant s) : IdsUnique s where
  __ := h
  unique t := by
    refine (List.nodup_map_iff_inj_on (h.nodup t)).2 fun c hc d hd heq => ?_
    have hentry := h.kept t c hc
    rw [heq, h.kept t d hd] at hentry
    exact (Option.some.inj hentry).symm

theorem invariant_initial (size : ℕ) (stopped : ℕ → Bool) : Invariant (initial size stopped) where
  waits := nofun
  creates _ _ := .inl rfl
  unanswered := nofun
  answered := nofun
  failed := nofun
  refs := nofun
  entries := nofun
  owned := nofun
  kept := nofun
  nodup _ := .nil
  below := nofun
  distinct := nofun
  destroys := nofun
  ops := nofun
  own := nofun

theorem mem_creations {queue : List ThreadMessage} {c : Creation} :
    c ∈ creations queue ↔ .create c ∈ queue := by
  rw [creations, List.mem_filterMap]
  constructor
  · rintro ⟨message, hin, hc⟩
    cases message with
    | create d =>
      rw [← Option.some.inj hc]
      exact hin
    | destroy owner id => cases hc
    | op owner id => cases hc
  · exact fun hin => ⟨_, hin, rfl⟩

theorem creations_erase (queue : List ThreadMessage) (message : ThreadMessage) :
    creations (queue.erase message) = match message with
      | .create c => (creations queue).erase c
      | _ => creations queue := by
  induction queue with
  | nil => cases message <;> rfl
  | cons head queue ih =>
    by_cases heq : head = message
    · subst heq
      rw [List.erase_cons_head]
      cases head with
      | create c => exact (List.erase_cons_head ..).symm
      | destroy owner id => rfl
      | op owner id => rfl
    · rw [List.erase_cons_tail (by simpa using heq)]
      cases head with
      | create d =>
        show d :: creations (queue.erase message) = _
        rw [ih]
        cases message with
        | create c =>
          have hne : d ≠ c := fun h => heq (congrArg _ h)
          exact (List.erase_cons_tail (by simpa using hne)).symm
        | destroy owner id => rfl
        | op owner id => rfl
      | destroy owner id =>
        show creations (queue.erase message) = _
        rw [ih]
        cases message <;> rfl
      | op owner id =>
        show creations (queue.erase message) = _
        rw [ih]
        cases message <;> rfl

theorem table_setTable (s : ContextIds) (t id t' id' : ℕ) (entry : Option Creation) :
    (s.setTable t id entry).table t' id' = if t' = t ∧ id' = id then entry else s.table t' id' := by
  show Function.update s.table t _ t' id' = _
  by_cases ht : t' = t
  · subst ht
    rw [Function.update_self, Function.update_apply]
    simp only [true_and]
  · rw [Function.update_of_ne ht, if_neg fun h => ht h.1]

theorem alive_setAlive (s : ContextIds) (t t' : ℕ) (alive : List Creation) :
    (s.setAlive t alive).alive t' = if t' = t then alive else s.alive t' :=
  Function.update_apply ..

/-! ### What the pool does -/

section Step

variable {s s' : ContextIds} (h : Invariant s)
include h

variable {t : ℕ}

theorem Invariant.idle (hwait : s.waiting = none) (hlive : s.stopped t = false) :
    creations (s.queue t) = [] := by
  rcases h.creates t hlive with hnil | ⟨w, hw, -⟩
  · exact hnil
  · rw [hwait] at hw
    cases hw

variable {message : ThreadMessage}

theorem Invariant.enqueue
    (hmessage : ∀ owner id, message = .destroy owner id ∨ message = .op owner id → ∃ c ∈ s.given,
    c.owner = owner ∧ c.id = id) (hcreate : creations [message] = []) :
    Invariant (s.enqueue t message) := by
  have hqueue : ∀ t', (s.enqueue t message).queue t' = s.queue t' ∨
      (s.enqueue t message).queue t' = s.queue t' ++ [message] := by
    intro t'
    by_cases ht : t' = t
    · subst ht
      exact .inr (Function.update_self _ _ _)
    · exact .inl (Function.update_of_ne ht _ _)
  have hcreations : ∀ t', creations ((s.enqueue t message).queue t') = creations (s.queue t') := by
    intro t'
    rcases hqueue t' with heq | heq
    · rw [heq]
    · rw [heq, creations, List.filterMap_append]
      exact (congrArg _ hcreate).trans (List.append_nil _)
  have hin : ∀ t' m, m ∈ (s.enqueue t message).queue t' → m ∈ s.queue t' ∨ m = message := by
    intro t' m hm
    rcases hqueue t' with heq | heq
    · rw [heq] at hm
      exact .inl hm
    · rw [heq] at hm
      exact (List.mem_append.1 hm).imp_right List.mem_singleton.1
  exact { h with
    creates := by
      intro t' hlive
      rw [hcreations]
      exact h.creates t' hlive
    unanswered := by
      intro t' w hw hlive hin
      rw [hcreations] at hin
      exact h.unanswered t' w hw hlive hin
    destroys := by
      intro t' owner id hm
      rcases hin t' _ hm with hold | hnew
      · exact h.destroys t' owner id hold
      · exact hmessage owner id (.inl hnew.symm)
    ops := by
      intro t' owner id hm
      rcases hin t' _ hm with hold | hnew
      · exact h.ops t' owner id hold
      · exact hmessage owner id (.inr hnew.symm) }

variable {owner : ℕ}

theorem Invariant.request (hstep : s.request owner = some s') : Invariant s' := by
  unfold ContextIds.request at hstep
  split at hstep
  · rename_i hwait
    rw [← Option.some.inj hstep]
    -- The new creation is in no table and has no reply.
    have hnew : ∀ t id c, s.table t id = some c → c.id < s.nextId := by
      intro t id c hentry
      rcases h.owned t id c hentry with hgiven | hw
      · exact h.below c hgiven
      · rw [hwait] at hw
        cases hw
    have hqueue : ∀ t m, m ∈ Function.update s.queue (s.nextThread % s.size)
        (s.queue (s.nextThread % s.size) ++
          [.create ⟨s.nextRef, owner, s.nextId, s.nextThread % s.size⟩]) t →
        m ∈ s.queue t ∨ m = .create ⟨s.nextRef, owner, s.nextId, s.nextThread % s.size⟩ := by
      intro t m hm
      by_cases ht : t = s.nextThread % s.size
      · subst ht
        rw [Function.update_self] at hm
        exact (List.mem_append.1 hm).imp_right List.mem_singleton.1
      · rw [Function.update_of_ne ht] at hm
        exact .inl hm
    exact { h with
      waits := by
        intro w hw
        rw [← Option.some.inj hw]
        exact ⟨rfl, Nat.lt_succ_self _⟩
      creates := by
        intro t hlive
        have hidle := h.idle hwait hlive
        by_cases ht : t = s.nextThread % s.size
        · subst ht
          refine .inr ⟨_, rfl, rfl, ?_⟩
          show creations (Function.update s.queue _ _ _) = _
          rw [Function.update_self, creations, List.filterMap_append]
          exact congrArg (· ++ _) hidle
        · refine .inl ?_
          show creations (Function.update s.queue _ _ _) = _
          rw [Function.update_of_ne ht]
          exact hidle
      unanswered := by
        intro t w hw _ _ ok hreply
        rw [← Option.some.inj hw] at hreply
        exact Nat.lt_irrefl _ (h.refs _ hreply)
      answered := by
        intro w hw t id hentry
        rw [← Option.some.inj hw] at hentry
        exact absurd (hnew t id _ hentry) (Nat.lt_irrefl _)
      failed := by
        intro w hw hreply
        rw [← Option.some.inj hw] at hreply
        exact absurd (h.refs _ hreply) (Nat.lt_irrefl _)
      refs := fun p hp => Nat.lt_succ_of_lt (h.refs p hp)
      owned := by
        intro t id c hentry
        rcases h.owned t id c hentry with hgiven | hw
        · exact .inl hgiven
        · rw [hwait] at hw
          cases hw
      destroys := by
        intro t owner' id hm
        rcases hqueue t _ hm with hold | hnew
        · exact h.destroys t owner' id hold
        · cases hnew
      ops := by
        intro t owner' id hm
        rcases hqueue t _ hm with hold | hnew
        · exact h.ops t owner' id hold
        · cases hnew }
  · cases hstep

variable {ok : Bool}

theorem Invariant.delivered {w : Creation} (hw : s.waiting = some w)
    (hreply : (w.ref, ok) ∈ s.replies) (hlive : s.stopped t = false) :
    creations (s.queue t) = [] := by
  rcases h.creates t hlive with hnil | ⟨v, hv, -, hqueue⟩
  · exact hnil
  · obtain rfl : w = v := Option.some.inj (hw.symm.trans hv)
    refine absurd hreply (h.unanswered t w hw hlive ?_ ok)
    rw [hqueue]
    exact List.mem_singleton_self w

theorem Invariant.receive (hok : Answered s (.receive ok)) (hstep : s.receive ok = some s') :
    Invariant s' := by
  unfold ContextIds.receive at hstep
  split at hstep
  · rename_i w hw
    split at hstep
    · rename_i hreply
      have hcreations : ∀ t, s.stopped t = false → creations (s.queue t) = [] :=
        fun t hlive => h.delivered hw hreply hlive
      have hrefs : ∀ p ∈ s.replies.erase (w.ref, ok), p.1 < s.nextRef :=
        fun p hp => h.refs p (List.mem_of_mem_erase hp)
      obtain ⟨hid, href⟩ := h.waits w hw
      cases ok with
      | true =>
        have halive : w.owner ∉ s.dead := hok w hw
        rw [← Option.some.inj hstep]
        simp only [give, if_neg halive]
        exact { h with
          waits := nofun
          creates := fun t hlive => .inl (hcreations t hlive)
          unanswered := nofun
          answered := nofun
          failed := nofun
          refs := hrefs
          owned := by
            intro t id c hentry
            rcases h.owned t id c hentry with hgiven | hc
            · exact .inl (List.mem_append_left _ hgiven)
            · obtain rfl : w = c := Option.some.inj (hw.symm.trans hc)
              exact .inl (List.mem_append_right _ (List.mem_singleton_self w))
          below := by
            intro c hc
            rcases List.mem_append.1 hc with hold | hnew
            · have hlt := h.below c hold
              show c.id < w.id + 1
              omega
            · rw [List.mem_singleton.1 hnew]
              exact Nat.lt_succ_self _
          distinct := by
            intro c hc d hd heq
            rcases List.mem_append.1 hc with hc | hc
            · rcases List.mem_append.1 hd with hd | hd
              · exact h.distinct c hc d hd heq
              · rw [List.mem_singleton.1 hd] at heq
                have hlt := h.below c hc
                omega
            · rw [List.mem_singleton.1 hc] at heq ⊢
              rcases List.mem_append.1 hd with hd | hd
              · have hlt := h.below d hd
                omega
              · exact (List.mem_singleton.1 hd).symm
          destroys := by
            intro t owner id hm
            obtain ⟨c, hc, hc'⟩ := h.destroys t owner id hm
            exact ⟨c, List.mem_append_left _ hc, hc'⟩
          ops := by
            intro t owner id hm
            obtain ⟨c, hc, hc'⟩ := h.ops t owner id hm
            exact ⟨c, List.mem_append_left _ hc, hc'⟩ }
      | false =>
        rw [← Option.some.inj hstep]
        exact { h with
          waits := nofun
          creates := fun t hlive => .inl (hcreations t hlive)
          unanswered := nofun
          answered := nofun
          failed := nofun
          refs := hrefs
          owned := by
            intro t id c hentry
            rcases h.owned t id c hentry with hgiven | hc
            · exact .inl hgiven
            · obtain rfl : w = c := Option.some.inj (hw.symm.trans hc)
              exact absurd hentry (h.failed w hw hreply t id) }
    · cases hstep
  · cases hstep

theorem Invariant.timeout (hok : Answered s .timeout) (hstep : s.timeout = some s') :
    Invariant s' := by
  unfold ContextIds.timeout at hstep
  split at hstep
  · rename_i w hw
    split at hstep
    · cases hstep
    · rename_i hsilent
      rw [← Option.some.inj hstep]
      exact { h with
        waits := nofun
        creates := by
          intro t hlive
          rcases h.creates t hlive with hnil | ⟨v, hv, rfl, -⟩
          · exact .inl hnil
          · obtain rfl : w = v := Option.some.inj (hw.symm.trans hv)
            exact absurd (hok w hw) (by rw [hlive]; nofun)
        unanswered := nofun
        answered := nofun
        failed := nofun
        owned := by
          intro t id c hentry
          rcases h.owned t id c hentry with hgiven | hc
          · exact .inl hgiven
          · obtain rfl : w = c := Option.some.inj (hw.symm.trans hc)
            exact absurd (.inl (h.answered w hw t id hentry)) hsilent }
  · cases hstep

/-! ### What a thread does -/

theorem Invariant.dequeue (t : ℕ) (message : ThreadMessage) :
    Invariant { s with queue := Function.update s.queue t ((s.queue t).erase message) } := by
  have hin : ∀ t' m, m ∈ Function.update s.queue t ((s.queue t).erase message) t' →
      m ∈ s.queue t' := by
    intro t' m hm
    by_cases ht : t' = t
    · subst ht
      rw [Function.update_self] at hm
      exact List.mem_of_mem_erase hm
    · rwa [Function.update_of_ne ht] at hm
  exact { h with
    creates := by
      intro t' hlive
      show creations (Function.update s.queue t _ t') = [] ∨ ∃ w, s.waiting = some w ∧ w.thread = t' ∧
        creations (Function.update s.queue t _ t') = [w]
      by_cases ht : t' = t
      · subst ht
        rw [Function.update_self, creations_erase]
        cases message with
        | create c =>
          rcases h.creates t' hlive with hnil | ⟨w, hw, hthread, hqueue⟩
          · rw [hnil]
            exact .inl rfl
          · rw [hqueue]
            by_cases hc : w = c
            · subst hc
              exact .inl (List.erase_cons_head ..)
            · exact .inr ⟨w, hw, hthread, List.erase_cons_tail (by simpa using hc)⟩
        | destroy owner id => exact h.creates t' hlive
        | op owner id => exact h.creates t' hlive
      · rw [Function.update_of_ne ht]
        exact h.creates t' hlive
    unanswered := by
      intro t' w hw hlive hm
      exact h.unanswered t' w hw hlive (mem_creations.2 (hin t' _ (mem_creations.1 hm)))
    destroys := fun t' owner id hm => h.destroys t' owner id (hin t' _ hm)
    ops := fun t' owner id hm => h.ops t' owner id (hin t' _ hm) }

theorem Invariant.handleCreate {c : Creation} (hw : s.waiting = some c)
    (hqueue : ∀ t', s.stopped t' = false → creations (s.queue t') = [])
    (hsilent : ∀ ok, (c.ref, ok) ∉ s.replies) : Invariant (s.handleCreate t c ok) := by
  have habsent : ∀ t' id, s.table t' id ≠ some c :=
    fun t' id hentry => hsilent true (h.answered c hw t' id hentry)
  have hlast : ∀ b, (c.ref, b) ∈ s.replies ++ [(c.ref, b)] :=
    fun b => List.mem_append_right _ (List.mem_singleton_self _)
  have hrefs : ∀ b, ∀ p ∈ s.replies ++ [(c.ref, b)], p.1 < s.nextRef := by
    intro b p hp
    rcases List.mem_append.1 hp with hp | hp
    · exact h.refs p hp
    · rw [List.mem_singleton.1 hp]
      exact (h.waits c hw).2
  have hnone : ∀ {t' : ℕ} {w : Creation}, s.stopped t' = false → w ∉ creations (s.queue t') := by
    intro t' w hlive
    rw [hqueue t' hlive]
    exact List.not_mem_nil
  unfold ContextIds.handleCreate
  cases ok with
  | false =>
    exact { h with
      unanswered := fun t' w _ hlive hm => absurd hm (hnone hlive)
      answered := fun w hw' t' id hentry => List.mem_append_left _ (h.answered w hw' t' id hentry)
      failed := by
        intro w hw'
        obtain rfl : c = w := Option.some.inj (hw.symm.trans hw')
        exact fun _ => habsent
      refs := hrefs false }
  | true =>
    -- The id is the one to be given next, so there is no entry to overwrite.
    have hfree : ∀ d, s.table t c.id = some d → d = c := by
      intro d hentry
      rcases h.owned t c.id d hentry with hgiven | hwait
      · have hlt := h.below d hgiven
        have heq := (h.entries t c.id d hentry).1
        have hid := (h.waits c hw).1
        omega
      · exact Option.some.inj (hwait.symm.trans hw)
    have hnot : c ∉ s.alive t := fun hin => habsent t c.id (h.kept t c hin)
    have htable : ∀ t' id d,
        (s.setTable t c.id (some c)).table t' id = some d →
          t' = t ∧ id = c.id ∧ d = c ∨ s.table t' id = some d := by
      intro t' id d hentry
      rw [table_setTable] at hentry
      split at hentry
      · rename_i hhere
        exact .inl ⟨hhere.1, hhere.2, (Option.some.inj hentry).symm⟩
      · exact .inr hentry
    have halive : ∀ t', (s.setAlive t (s.alive t ++ [c])).alive t' = if t' = t then s.alive t ++ [c]
        else s.alive t' := fun t' => alive_setAlive s t t' _
    exact { h with
      unanswered := fun t' w _ hlive hm => absurd hm (hnone hlive)
      answered := by
        intro w hw' t' id hentry
        obtain rfl : c = w := Option.some.inj (hw.symm.trans hw')
        exact hlast true
      failed := by
        intro w hw' hreply
        obtain rfl : c = w := Option.some.inj (hw.symm.trans hw')
        rcases List.mem_append.1 hreply with hold | hnew
        · exact absurd hold (hsilent false)
        · cases List.mem_singleton.1 hnew
      refs := hrefs true
      entries := by
        intro t' id d hentry
        show d.id = id ∧ d ∈ (s.setAlive t (s.alive t ++ [c])).alive t'
        rw [halive]
        rcases htable t' id d hentry with ⟨rfl, rfl, rfl⟩ | hold
        · rw [if_pos rfl]
          exact ⟨rfl, List.mem_append_right _ (List.mem_singleton_self _)⟩
        · obtain ⟨hid, hin⟩ := h.entries t' id d hold
          refine ⟨hid, ?_⟩
          split
          · rename_i ht
            subst ht
            exact List.mem_append_left _ hin
          · exact hin
      owned := by
        intro t' id d hentry
        rcases htable t' id d hentry with ⟨-, -, rfl⟩ | hold
        · exact .inr hw
        · exact h.owned t' id d hold
      kept := by
        intro t' d hd
        show (s.setTable t c.id (some c)).table t' d.id = some d
        have hin : d ∈ if t' = t then s.alive t ++ [c] else s.alive t' := halive t' ▸ hd
        rw [table_setTable]
        split
        · rename_i hhere
          obtain ⟨rfl, hid⟩ := hhere
          rw [if_pos rfl] at hin
          rcases List.mem_append.1 hin with hold | hnew
          · have hentry := h.kept t' d hold
            rw [hid] at hentry
            exact congrArg some (hfree d hentry).symm
          · exact congrArg some (List.mem_singleton.1 hnew).symm
        · rename_i hother
          split at hin
          · rename_i ht
            subst ht
            rcases List.mem_append.1 hin with hold | hnew
            · exact h.kept t' d hold
            · exact absurd ⟨rfl, congrArg Creation.id (List.mem_singleton.1 hnew)⟩ hother
          · exact h.kept t' d hin
      nodup := by
        intro t'
        show ((s.setAlive t (s.alive t ++ [c])).alive t').Nodup
        rw [halive]
        split
        · refine List.Nodup.append (h.nodup t) (List.nodup_singleton c) ?_
          intro d hd hnew
          rw [List.mem_singleton.1 hnew] at hd
          exact hnot hd
        · exact h.nodup t' }

variable {entry : Creation} {id : ℕ}

theorem Invariant.found (hgiven : ∃ c ∈ s.given, c.owner = owner ∧ c.id = id)
    (hentry : s.table t id = some entry) : entry.owner = owner := by
  obtain ⟨c, hc, rfl, rfl⟩ := hgiven
  have hid := (h.entries t c.id entry hentry).1
  rcases h.owned t c.id entry hentry with hin | hw
  · rw [h.distinct entry hin c hc hid]
  · have hlt := h.below c hc
    have hnext := (h.waits entry hw).1
    omega

theorem Invariant.acts (hgiven : ∃ c ∈ s.given, c.owner = owner ∧ c.id = id)
    (hentry : s.table t id = some entry) : ∀ p ∈ s.acted ++ [(owner, entry)], p.2.owner = p.1 := by
  intro p hp
  rcases List.mem_append.1 hp with hp | hp
  · exact h.own p hp
  · rw [List.mem_singleton.1 hp]
    exact h.found hgiven hentry

theorem Invariant.handleDestroy (hgiven : ∃ c ∈ s.given, c.owner = owner ∧ c.id = id) :
    Invariant (s.handleDestroy t owner id) := by
  unfold ContextIds.handleDestroy
  split
  · rename_i entry hentry
    have htable : ∀ t' id' d, (s.setTable t id none).table t' id' = some d →
        s.table t' id' = some d ∧ ¬ (t' = t ∧ id' = id) := by
      intro t' id' d hd
      rw [table_setTable] at hd
      split at hd
      · cases hd
      · rename_i hother
        exact ⟨hd, hother⟩
    have halive : ∀ t' d, d ∈ (s.setAlive t ((s.alive t).erase entry)).alive t' →
        d ∈ s.alive t' ∧ ¬ (t' = t ∧ d = entry) := by
      intro t' d hd
      rw [alive_setAlive] at hd
      split at hd
      · rename_i ht
        subst ht
        obtain ⟨hne, hin⟩ := (h.nodup t').mem_erase_iff.1 hd
        exact ⟨hin, fun hboth => hne hboth.2⟩
      · rename_i ht
        exact ⟨hd, fun hboth => ht hboth.1⟩
    exact { h with
      answered := fun w hw t' id' hd => h.answered w hw t' id' (htable t' id' w hd).1
      failed := fun w hw hreply t' id' hd => h.failed w hw hreply t' id' (htable t' id' w hd).1
      entries := by
        intro t' id' d hd
        obtain ⟨hold, hother⟩ := htable t' id' d hd
        obtain ⟨hid, hin⟩ := h.entries t' id' d hold
        refine ⟨hid, ?_⟩
        show d ∈ (s.setAlive t ((s.alive t).erase entry)).alive t'
        rw [alive_setAlive]
        split
        · rename_i ht
          subst ht
          refine (h.nodup t').mem_erase_iff.2 ⟨?_, hin⟩
          rintro rfl
          exact hother ⟨rfl, hid.symm.trans (h.entries t' id d hentry).1⟩
        · exact hin
      owned := fun t' id' d hd => h.owned t' id' d (htable t' id' d hd).1
      kept := by
        intro t' d hd
        obtain ⟨hin, hother⟩ := halive t' d hd
        have hold := h.kept t' d hin
        show (s.setTable t id none).table t' d.id = some d
        rw [table_setTable]
        split
        · rename_i hhere
          obtain ⟨rfl, rfl⟩ := hhere
          exact absurd ⟨rfl, Option.some.inj (hold.symm.trans hentry)⟩ hother
        · exact hold
      nodup := by
        intro t'
        show ((s.setAlive t ((s.alive t).erase entry)).alive t').Nodup
        rw [alive_setAlive]
        split
        · exact (h.nodup t).erase entry
        · exact h.nodup t'
      own := h.acts hgiven hentry }
  · exact h

theorem Invariant.handleOp (hgiven : ∃ c ∈ s.given, c.owner = owner ∧ c.id = id) :
    Invariant (s.handleOp t owner id) := by
  unfold ContextIds.handleOp
  split
  · rename_i entry hentry
    exact { h with own := h.acts hgiven hentry }
  · exact h

theorem Invariant.handle (hstep : s.handle t message ok = some s') : Invariant s' := by
  unfold ContextIds.handle at hstep
  split at hstep
  · rename_i hin
    obtain ⟨hin, hlive⟩ := hin
    have hrest := h.dequeue t message
    cases message with
    | create c =>
      rw [← Option.some.inj hstep]
      have hc := mem_creations.2 hin
      obtain ⟨hw, hthread, hsingle⟩ :
          s.waiting = some c ∧ c.thread = t ∧ creations (s.queue t) = [c] := by
        rcases h.creates t hlive with hnil | ⟨w, hw, hthread, hqueue⟩
        · rw [hnil] at hc
          exact absurd hc List.not_mem_nil
        · rw [hqueue] at hc
          obtain rfl := List.mem_singleton.1 hc
          exact ⟨hw, hthread, hqueue⟩
      refine hrest.handleCreate hw ?_ (h.unanswered t c hw hlive hc)
      intro t' hlive'
      show creations (Function.update s.queue t _ t') = []
      by_cases ht : t' = t
      · subst ht
        rw [Function.update_self, creations_erase, hsingle]
        exact List.erase_cons_head ..
      · rw [Function.update_of_ne ht]
        rcases h.creates t' hlive' with hnil | ⟨w, hw', hthread', -⟩
        · exact hnil
        · obtain rfl : c = w := Option.some.inj (hw.symm.trans hw')
          exact absurd (hthread'.symm.trans hthread) ht
    | destroy owner id =>
      rw [← Option.some.inj hstep]
      exact hrest.handleDestroy (h.destroys t owner id hin)
    | op owner id =>
      rw [← Option.some.inj hstep]
      exact hrest.handleOp (h.ops t owner id hin)
  · cases hstep

theorem Invariant.stop (t : ℕ) : Invariant (s.stop t) := by
  have htable : ∀ t' id d, Function.update s.table t (fun _ => none) t' id = some d →
      t' ≠ t ∧ s.table t' id = some d := by
    intro t' id d hd
    by_cases ht : t' = t
    · subst ht
      rw [Function.update_self] at hd
      cases hd
    · rw [Function.update_of_ne ht] at hd
      exact ⟨ht, hd⟩
  have hlive : ∀ t', Function.update s.stopped t true t' = false → s.stopped t' = false := by
    intro t' hstopped
    by_cases ht : t' = t
    · subst ht
      rw [Function.update_self] at hstopped
      cases hstopped
    · rwa [Function.update_of_ne ht] at hstopped
  have halive : ∀ t', (s.setAlive t ((s.alive t).filter fun c => s.table t c.id ≠ some c)).alive t' =
      if t' = t then [] else s.alive t' := by
    intro t'
    rw [alive_setAlive]
    split
    · refine List.filter_eq_nil_iff.2 fun c hc => ?_
      rw [decide_eq_true_eq, not_not]
      exact h.kept t c hc
    · rfl
  exact { h with
    creates := fun t' hstopped => h.creates t' (hlive t' hstopped)
    unanswered := fun t' w hw hstopped => h.unanswered t' w hw (hlive t' hstopped)
    answered := fun w hw t' id hd => h.answered w hw t' id (htable t' id w hd).2
    failed := fun w hw hreply t' id hd => h.failed w hw hreply t' id (htable t' id w hd).2
    entries := by
      intro t' id d hd
      obtain ⟨ht, hold⟩ := htable t' id d hd
      refine ⟨(h.entries t' id d hold).1, ?_⟩
      show d ∈ (s.setAlive t _).alive t'
      rw [halive, if_neg ht]
      exact (h.entries t' id d hold).2
    owned := fun t' id d hd => h.owned t' id d (htable t' id d hd).2
    kept := by
      intro t' d hd
      have hin : d ∈ if t' = t then [] else s.alive t' := halive t' ▸ hd
      split at hin
      · cases hin
      · rename_i ht
        exact (congrFun (Function.update_of_ne ht _ _) _).trans (h.kept t' d hin)
    nodup := by
      intro t'
      show ((s.setAlive t _).alive t').Nodup
      rw [halive]
      split
      · exact .nil
      · exact h.nodup t' }

theorem Invariant.step {event : Event} (hok : Answered s event) (hstep : step s event = some s') :
    Invariant s' := by
  cases event with
  | request owner => exact h.request hstep
  | receive ok => exact h.receive hok hstep
  | timeout => exact h.timeout hok hstep
  | handle t message ok => exact h.handle hstep
  | stop t =>
    rw [← Option.some.inj hstep]
    exact h.stop t
  | use c =>
    rw [ContextIds.step] at hstep
    split at hstep
    · rename_i hc
      rw [← Option.some.inj hstep]
      refine h.enqueue ?_ rfl
      rintro owner id (hm | hm)
      · cases hm
      · cases hm
        exact ⟨c, hc, rfl, rfl⟩
    · cases hstep
  | destroy c =>
    rw [ContextIds.step] at hstep
    split at hstep
    · rename_i hc
      rw [← Option.some.inj hstep]
      refine h.enqueue ?_ rfl
      rintro owner id (hm | hm)
      · cases hm
        exact ⟨c, hc, rfl, rfl⟩
      · cases hm
    · cases hstep
  | die owner =>
    rw [← Option.some.inj hstep]
    exact { h with }

end Step

/-- In every run whose creations are answered, the ids of the contexts are unique. -/
theorem idsUnique {s : ContextIds} (h : machine.ReachableIf Answered s) : IdsUnique s := by
  refine Invariant.toIdsUnique (Machine.ReachableIf.invariant ?_ ?_ h)
  · rintro s ⟨size, stopped, rfl⟩
    exact invariant_initial size stopped
  · intro s event s' hs hok hstep
    exact hs.step hok hstep

/-- Two contexts of one thread, of which the first is used and destroyed. -/
theorem idsUnique_two :
    ∃ s, machine.exec (initial 1 fun _ => false) [.request 10, .handle 0 (.create ⟨0, 10, 1, 0⟩) true,
        .receive true, .request 11, .use ⟨0, 10, 1, 0⟩, .handle 0 (.create ⟨1, 11, 2, 0⟩) true,
        .receive true, .handle 0 (.op 10 1) true, .destroy ⟨0, 10, 1, 0⟩,
        .handle 0 (.destroy 10 1) true] = some s ∧
      s.alive 0 = [⟨1, 11, 2, 0⟩] ∧ s.acted.length = 2 ∧ IdsUnique s := by
  have hrun : ∃ s, machine.exec (initial 1 fun _ => false) [.request 10,
      .handle 0 (.create ⟨0, 10, 1, 0⟩) true, .receive true, .request 11, .use ⟨0, 10, 1, 0⟩,
      .handle 0 (.create ⟨1, 11, 2, 0⟩) true, .receive true, .handle 0 (.op 10 1) true,
      .destroy ⟨0, 10, 1, 0⟩, .handle 0 (.destroy 10 1) true] = some s ∧
      s.alive 0 = [⟨1, 11, 2, 0⟩] ∧ s.acted.length = 2 ∧
      machine.GuardedRun Answered (initial 1 fun _ => false) [.request 10,
        .handle 0 (.create ⟨0, 10, 1, 0⟩) true, .receive true, .request 11, .use ⟨0, 10, 1, 0⟩,
        .handle 0 (.create ⟨1, 11, 2, 0⟩) true, .receive true, .handle 0 (.op 10 1) true,
        .destroy ⟨0, 10, 1, 0⟩, .handle 0 (.destroy 10 1) true] s :=
    ⟨_, rfl, rfl, rfl, .cons trivial rfl <| .cons trivial rfl <| .cons nofun rfl <|
      .cons trivial rfl <| .cons trivial rfl <| .cons trivial rfl <| .cons nofun rfl <|
      .cons trivial rfl <| .cons trivial rfl <| .cons trivial rfl <| .nil _⟩
  obtain ⟨s, hexec, halive, hacted, hrun⟩ := hrun
  exact ⟨s, hexec, halive, hacted, idsUnique ⟨_, _, ⟨1, _, rfl⟩, hrun⟩⟩

/-- A creation that comes after its time shares its id with the next one. -/
theorem late_creation_shares_id : ¬ ∀ s, machine.Reachable s → IdsUnique s := by
  intro h
  have hrun : ∃ s, machine.exec (initial 1 fun _ => false) [.request 10, .timeout,
      .handle 0 (.create ⟨0, 10, 1, 0⟩) true, .request 11,
      .handle 0 (.create ⟨1, 11, 1, 0⟩) true] = some s ∧
      s.alive 0 = [⟨0, 10, 1, 0⟩, ⟨1, 11, 1, 0⟩] := ⟨_, rfl, rfl⟩
  obtain ⟨s, hexec, halive⟩ := hrun
  have hunique := (h s (Machine.reachable_of_exec ⟨1, _, rfl⟩ hexec)).unique 0
  rw [halive] at hunique
  exact absurd hunique (by decide)

end ContextIds

end QuickBeam.Native
