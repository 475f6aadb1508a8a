import QuickBeam.Lib.Transition

/-!
# Workers of a context (`context.ex`)

`Worker` spawns by a host call that answers with an id at once; a task starts the child context and
tells the parent with `:worker_started`, and only then does the parent know the child under the id.
A post or a terminate looks the id up, a terminated child is stopped by another task.  The parent's
own `terminate` callback shuts down the children it knows.

A worker is named by its id, which stands for the reference and the process of its entry as well.
`posted` and `delivered` record the messages posted before the termination and those that the
child's message handler was called with.
-/

namespace QuickBeam.Native

open QuickBeam.Lib

variable {α : Type}

/-! ### Workers -/

inductive WorkerPhase where
  | unborn
  /-- The task has not started the child yet. -/
  | starting
  | running
  | dead
deriving DecidableEq

inductive WorkerMail (α : Type) where
  | post (data : α)
  | stop

structure ContextWorker (α : Type) where
  phase : WorkerPhase
  /-- `:worker_started` is under way. -/
  started : Bool
  /-- The parent's table has an entry. -/
  entry : Bool
  /-- A task is about to call `Context.stop`. -/
  stopping : Bool
  /-- The script has set a message handler. -/
  ready : Bool
  mailbox : List (WorkerMail α)
  posted : List α
  delivered : List α
  terminated : Bool
  crashed : Bool

structure ContextWorkers (α : Type) where
  worker : ℕ → ContextWorker α
  nextWorkerId : ℕ
  /-- The parent runs. -/
  parent : Bool

namespace ContextWorker

def unborn : ContextWorker α := ⟨.unborn, false, false, false, false, [], [], [], false, false⟩

def crash (w : ContextWorker α) : Option (ContextWorker α) :=
  if w.phase = .running then some { w with phase := .dead, crashed := true, mailbox := [] } else none

/-- `Context.start_link` in the task, and its message to the parent, which may be gone. -/
def start (w : ContextWorker α) (parent : Bool) : Option (ContextWorker α) :=
  if w.phase = .starting then some { w with phase := .running, started := parent } else none

def startFails (w : ContextWorker α) : Option (ContextWorker α) :=
  if w.phase = .starting then some { w with phase := .dead } else none

def setHandler (w : ContextWorker α) : Option (ContextWorker α) :=
  if w.phase = .running then some { w with ready := true } else none

/-- The child takes a message; without a handler, a posted one is dropped. -/
def receive (w : ContextWorker α) : Option (ContextWorker α) :=
  match w.phase, w.mailbox with
  | .running, .post data :: mailbox =>
    if w.ready then some { w with mailbox, delivered := w.delivered ++ [data] }
    else some { w with mailbox }
  | .running, .stop :: _ => some { w with phase := .dead, mailbox := [] }
  | _, _ => none

/-- The task of a terminate calls `Context.stop`. -/
def stopTask (w : ContextWorker α) : Option (ContextWorker α) :=
  if w.stopping then
    some { w with
      stopping := false
      mailbox := if w.phase = .running then w.mailbox ++ [.stop] else w.mailbox }
  else none

/-- `handle_info({:worker_started, …})`. -/
def register (w : ContextWorker α) : Option (ContextWorker α) :=
  if w.started then some { w with started := false, entry := true } else none

/-- `handle_info({:DOWN, …})`. -/
def down (w : ContextWorker α) : Option (ContextWorker α) :=
  if w.entry ∧ w.phase = .dead then some { w with entry := false } else none

/-- `handle_worker_call(:post_to_child, …)`. -/
def post (w : ContextWorker α) (data : α) : ContextWorker α :=
  { w with
    posted := if w.terminated then w.posted else w.posted ++ [data]
    mailbox := if w.entry ∧ w.phase = .running then w.mailbox ++ [.post data] else w.mailbox }

/-- `handle_worker_call(:terminate, …)`. -/
def terminate (w : ContextWorker α) : ContextWorker α :=
  if w.entry then { w with entry := false, stopping := true, terminated := true }
  else { w with terminated := true }

/-- What the `terminate` callback of the parent does to a worker. -/
def shutdown (w : ContextWorker α) : ContextWorker α :=
  if w.entry then { w with phase := .dead, mailbox := [], entry := false, started := false }
  else { w with started := false }

/-- The parent is gone without its callback. -/
def abandon (w : ContextWorker α) : ContextWorker α := { w with entry := false, started := false }

end ContextWorker

namespace ContextWorkers

def initial : ContextWorkers α := ⟨fun _ => .unborn, 1, true⟩

def setWorker (s : ContextWorkers α) (k : ℕ) (w : ContextWorker α) : ContextWorkers α :=
  { s with worker := Function.update s.worker k w }

/-! ### Steps -/

inductive Event (α : Type) where
  | spawn
  | start (k : ℕ)
  | startFails (k : ℕ)
  | setHandler (k : ℕ)
  | receive (k : ℕ)
  | crash (k : ℕ)
  | stopTask (k : ℕ)
  | register (k : ℕ)
  | down (k : ℕ)
  | post (k : ℕ) (data : α)
  | terminate (k : ℕ)
  /-- The parent ends by its `terminate` callback, or is killed. -/
  | stop
  | kill

/-- `handle_worker_call(:spawn, …)`. -/
def spawn (s : ContextWorkers α) : ContextWorkers α :=
  { s.setWorker s.nextWorkerId { ContextWorker.unborn with phase := .starting } with
    nextWorkerId := s.nextWorkerId + 1 }

/-- A step of the parent, while it runs and knows the id. -/
def ofParent (s : ContextWorkers α) (k : ℕ) (f : ContextWorker α → Option (ContextWorker α)) :
    Option (ContextWorkers α) :=
  if s.parent = true ∧ (s.worker k).phase ≠ .unborn then (f (s.worker k)).map (s.setWorker k)
  else none

def step (s : ContextWorkers α) : Event α → Option (ContextWorkers α)
  | .spawn => if s.parent then some s.spawn else none
  | .start k => ((s.worker k).start s.parent).map (s.setWorker k)
  | .startFails k => (s.worker k).startFails.map (s.setWorker k)
  | .setHandler k => (s.worker k).setHandler.map (s.setWorker k)
  | .receive k => (s.worker k).receive.map (s.setWorker k)
  | .crash k => (s.worker k).crash.map (s.setWorker k)
  | .stopTask k => (s.worker k).stopTask.map (s.setWorker k)
  | .register k => s.ofParent k ContextWorker.register
  | .down k => s.ofParent k ContextWorker.down
  | .post k data => s.ofParent k fun w => some (w.post data)
  | .terminate k => s.ofParent k fun w => some w.terminate
  | .stop =>
    if s.parent then
      some { s with parent := false, worker := fun k => (s.worker k).shutdown }
    else none
  | .kill =>
    if s.parent then
      some { s with parent := false, worker := fun k => (s.worker k).abandon }
    else none

def machine : Machine (ContextWorkers α) (Event α) where
  init s := s = initial
  step := step

/-! ### Workers are served -/

def posts (mailbox : List (WorkerMail α)) : List α :=
  mailbox.filterMap fun
    | .post data => some data
    | .stop => none

/-- No message and no task is in flight. -/
def Quiescent (s : ContextWorkers α) : Prop :=
  ∀ k, (s.worker k).phase ≠ .starting ∧ (s.worker k).started = false ∧
    (s.worker k).stopping = false ∧ (s.worker k).mailbox = [] ∧
    ¬ ((s.worker k).entry = true ∧ (s.worker k).phase = .dead)

structure WorkersServed (s : ContextWorkers α) : Prop where
  /-- What was posted is delivered once and in order, or still in the mailbox. -/
  delivered : ∀ k, (s.worker k).crashed = false →
    (s.worker k).posted = (s.worker k).delivered ++ posts (s.worker k).mailbox
  terminated : Quiescent s → ∀ k, (s.worker k).terminated = true →
    (s.worker k).phase ≠ .running ∧ (s.worker k).entry = false
  stopped : Quiescent s → s.parent = false → ∀ k, (s.worker k).phase ≠ .running

/-- A task will stop the child, or has sent it the stop. -/
def Ending (w : ContextWorker α) : Prop :=
  w.phase = .running ∧ (w.stopping = true ∨ .stop ∈ w.mailbox)

/-- Posts and terminates come when the worker is registered, children take their messages when their
handler is set, and the parent ends by its callback, when every child is registered and has
taken its messages, unless it has ended or is ending. -/
def Registered (s : ContextWorkers α) : Event α → Prop
  | .post k _ => (s.worker k).entry = true ∨ (s.worker k).terminated = true ∨
      (s.worker k).crashed = true
  | .terminate k => (s.worker k).entry = true ∨ (s.worker k).terminated = true ∨
      (s.worker k).phase = .dead
  | .receive k => ∀ data, (s.worker k).mailbox.head? = some (.post data) → (s.worker k).ready = true
  | .stop => ∀ k, (s.worker k).phase = .unborn ∨ (s.worker k).phase = .dead ∨
      Ending (s.worker k) ∨ (s.worker k).entry = true ∧ (s.worker k).mailbox = []
  | .kill => ∀ k, (s.worker k).phase = .unborn ∨ (s.worker k).phase = .dead ∨ Ending (s.worker k)
  | _ => True

structure WorkerOk (parent : Bool) (w : ContextWorker α) : Prop where
  accounted : w.crashed = false → w.posted = w.delivered ++ posts w.mailbox
  early : w.phase = .unborn ∨ w.phase = .starting →
    w.entry = false ∧ w.started = false ∧ w.stopping = false ∧ .stop ∉ w.mailbox ∧
      w.terminated = false
  registered : w.entry = true → w.started = false ∧ w.stopping = false ∧ .stop ∉ w.mailbox ∧
    (w.phase = .running ∨ w.crashed = true)
  unregistered : w.started = true → w.entry = false ∧ w.stopping = false ∧ .stop ∉ w.mailbox ∧
    (w.phase = .running ∨ w.crashed = true)
  stopping : w.stopping = true → .stop ∉ w.mailbox
  /-- Nothing comes behind a stop. -/
  last : .stop ∈ w.mailbox → ∃ datas : List α, w.mailbox = datas.map .post ++ [.stop]
  terminated : w.terminated = true →
    w.phase = .dead ∨ Ending w ∧ w.entry = false ∧ w.started = false
  crashed : w.crashed = true → w.phase = .dead
  gone : w.phase = .dead → .stop ∉ w.mailbox
  orphan : parent = false →
    (w.phase = .unborn ∨ w.phase = .dead ∨ Ending w) ∧ w.entry = false ∧ w.started = false

theorem workerOk_dead {parent : Bool} {w : ContextWorker α} (hphase : w.phase = .dead)
    (hmailbox : w.mailbox = []) (haccounted : w.crashed = false → w.posted = w.delivered)
    (hregistered : w.entry = true → w.started = false ∧ w.stopping = false ∧ w.crashed = true)
    (hunregistered : w.started = true → w.entry = false ∧ w.stopping = false ∧ w.crashed = true)
    (horphan : parent = false → w.entry = false ∧ w.started = false) : WorkerOk parent w := by
  have hnone : WorkerMail.stop ∉ w.mailbox := by
    rw [hmailbox]
    exact List.not_mem_nil
  exact {
    accounted := by
      intro hcrashed
      rw [haccounted hcrashed, hmailbox]
      exact (List.append_nil _).symm
    early := by
      rw [hphase]
      rintro (hin | hin) <;> cases hin
    registered := by
      intro hentry
      obtain ⟨hstarted, hstopping, hcrashed⟩ := hregistered hentry
      exact ⟨hstarted, hstopping, hnone, .inr hcrashed⟩
    unregistered := by
      intro hstarted
      obtain ⟨hentry, hstopping, hcrashed⟩ := hunregistered hstarted
      exact ⟨hentry, hstopping, hnone, .inr hcrashed⟩
    stopping := fun _ => hnone
    last := fun hin => absurd hin hnone
    terminated := fun _ => .inl hphase
    crashed := fun _ => hphase
    gone := fun _ => hnone
    orphan := fun hparent => ⟨.inr (.inl hphase), horphan hparent⟩ }

/-! ### Mailboxes -/

theorem posts_append (xs ys : List (WorkerMail α)) : posts (xs ++ ys) = posts xs ++ posts ys :=
  List.filterMap_append

theorem posts_post (data : α) (xs : List (WorkerMail α)) : posts (.post data :: xs) = data :: posts xs :=
  rfl

variable {mailbox : List (WorkerMail α)}

theorem stop_mem_append_post {data : α} (h : .stop ∈ mailbox ++ [.post data]) :
    .stop ∈ mailbox := by
  rcases List.mem_append.1 h with h | h
  · exact h
  · cases List.mem_singleton.1 h

theorem eq_map_post (h : .stop ∉ mailbox) : ∃ datas : List α, mailbox = datas.map .post := by
  induction mailbox with
  | nil => exact ⟨[], rfl⟩
  | cons mail mailbox ih =>
    obtain ⟨datas, rfl⟩ := ih fun hin => h (List.mem_cons_of_mem _ hin)
    cases mail with
    | post data => exact ⟨data :: datas, rfl⟩
    | stop => exact absurd List.mem_cons_self h

theorem eq_stop {datas : List α} (h : .stop :: mailbox = datas.map .post ++ [.stop]) :
    mailbox = [] := by
  cases datas with
  | nil => exact (List.cons.inj h).2
  | cons data datas => cases (List.cons.inj h).1

/-! ### Steps of one worker -/

section Worker

variable {parent : Bool} {w w' : ContextWorker α} (h : WorkerOk parent w)
include h

theorem WorkerOk.start (hstep : w.start parent = some w') : WorkerOk parent w' := by
  unfold ContextWorker.start at hstep
  split at hstep
  · rename_i hphase
    rw [← Option.some.inj hstep]
    obtain ⟨hentry, hstarted, hstopping, hmail, hterminated⟩ := h.early (.inr hphase)
    have hcrashed : w.crashed = false := by
      by_contra hcrashed
      rw [Bool.not_eq_false] at hcrashed
      have hdead := h.crashed hcrashed
      rw [hphase] at hdead
      cases hdead
    refine {
      accounted := h.accounted
      early := nofun
      registered := fun hin => absurd hin (by rw [hentry]; nofun)
      unregistered := fun _ => ⟨hentry, hstopping, hmail, .inl rfl⟩
      stopping := h.stopping
      last := h.last
      terminated := fun hin => absurd hin (by rw [hterminated]; nofun)
      crashed := fun hin => absurd hin (by rw [hcrashed]; nofun)
      gone := nofun
      orphan := fun hparent => ?_ }
    -- Without a parent no child is being started.
    rcases (h.orphan hparent).1 with hborn | hdead | hending
    · rw [hphase] at hborn
      cases hborn
    · rw [hphase] at hdead
      cases hdead
    · have hrunning := hending.1
      rw [hphase] at hrunning
      cases hrunning
  · cases hstep

theorem WorkerOk.startFails (hstep : w.startFails = some w') : WorkerOk parent w' := by
  unfold ContextWorker.startFails at hstep
  split at hstep
  · rename_i hphase
    rw [← Option.some.inj hstep]
    obtain ⟨hentry, hstarted, hstopping, hmail, hterminated⟩ := h.early (.inr hphase)
    exact {
      accounted := h.accounted
      early := by
        rintro (hin | hin) <;> cases hin
      registered := fun hin => absurd hin (by rw [hentry]; nofun)
      unregistered := fun hin => absurd hin (by rw [hstarted]; nofun)
      stopping := h.stopping
      last := h.last
      terminated := fun _ => .inl rfl
      crashed := fun _ => rfl
      gone := fun _ => hmail
      orphan := fun _ => ⟨.inr (.inl rfl), hentry, hstarted⟩ }
  · cases hstep

theorem WorkerOk.setHandler (hstep : w.setHandler = some w') : WorkerOk parent w' := by
  unfold ContextWorker.setHandler at hstep
  split at hstep
  · rw [← Option.some.inj hstep]
    exact { h with }
  · cases hstep

theorem WorkerOk.crash (hstep : w.crash = some w') : WorkerOk parent w' := by
  unfold ContextWorker.crash at hstep
  split at hstep
  · rw [← Option.some.inj hstep]
    refine workerOk_dead rfl rfl nofun ?_ ?_ fun hparent => (h.orphan hparent).2
    · intro hentry
      obtain ⟨hstarted, hstopping, -, -⟩ := h.registered hentry
      exact ⟨hstarted, hstopping, rfl⟩
    · intro hstarted
      obtain ⟨hentry, hstopping, -, -⟩ := h.unregistered hstarted
      exact ⟨hentry, hstopping, rfl⟩
  · cases hstep

theorem WorkerOk.receive
    (hready : ∀ data, w.mailbox.head? = some (.post data) → w.ready = true)
    (hstep : w.receive = some w') : WorkerOk parent w' := by
  unfold ContextWorker.receive at hstep
  split at hstep
  · rename_i data mailbox hphase hmailbox
    rw [if_pos (hready data (by rw [hmailbox]; rfl))] at hstep
    rw [← Option.some.inj hstep]
    have hsub : ∀ mail ∈ mailbox, mail ∈ w.mailbox := by
      rw [hmailbox]
      exact fun _ hin => List.mem_cons_of_mem _ hin
    have hstop : .stop ∈ w.mailbox → .stop ∈ mailbox := by
      rw [hmailbox]
      intro hin
      rcases List.mem_cons.1 hin with heq | hin
      · cases heq
      · exact hin
    have hending : Ending w → Ending { w with mailbox, delivered := w.delivered ++ [data] } :=
      fun hend => ⟨hend.1, hend.2.imp_right hstop⟩
    exact { h with
      accounted := by
        intro hcrashed
        show w.posted = w.delivered ++ [data] ++ posts mailbox
        rw [h.accounted hcrashed, hmailbox, posts_post, List.append_assoc]
        rfl
      early := by
        intro hearly
        obtain ⟨hentry, hstarted, hstopping, hmail, hterminated⟩ := h.early hearly
        exact ⟨hentry, hstarted, hstopping, fun hin => hmail (hsub _ hin), hterminated⟩
      registered := by
        intro hentry
        obtain ⟨hstarted, hstopping, hmail, hlive⟩ := h.registered hentry
        exact ⟨hstarted, hstopping, fun hin => hmail (hsub _ hin), hlive⟩
      unregistered := by
        intro hstarted
        obtain ⟨hentry, hstopping, hmail, hlive⟩ := h.unregistered hstarted
        exact ⟨hentry, hstopping, fun hin => hmail (hsub _ hin), hlive⟩
      stopping := fun hstopping hin => h.stopping hstopping (hsub _ hin)
      last := by
        intro hin
        obtain ⟨datas, hdatas⟩ := h.last (hsub _ hin)
        rw [hmailbox] at hdatas
        cases datas with
        | nil => cases (List.cons.inj hdatas).1
        | cons first datas => exact ⟨datas, (List.cons.inj hdatas).2⟩
      terminated := fun hterminated =>
        (h.terminated hterminated).imp_right fun hend => ⟨hending hend.1, hend.2⟩
      gone := fun hdead hin => h.gone hdead (hsub _ hin)
      orphan := fun hparent =>
        ⟨(h.orphan hparent).1.imp_right (Or.imp_right hending), (h.orphan hparent).2⟩ }
  · rename_i mailbox hphase hmailbox
    rw [← Option.some.inj hstep]
    have hin : .stop ∈ w.mailbox := by
      rw [hmailbox]
      exact List.mem_cons_self
    obtain ⟨datas, hdatas⟩ := h.last hin
    have hnil : mailbox = [] := by
      rw [hmailbox] at hdatas
      exact eq_stop hdatas
    have hentry : w.entry = false := by
      by_contra hentry
      rw [Bool.not_eq_false] at hentry
      exact (h.registered hentry).2.2.1 hin
    have hstarted : w.started = false := by
      by_contra hstarted
      rw [Bool.not_eq_false] at hstarted
      exact (h.unregistered hstarted).2.2.1 hin
    refine workerOk_dead rfl rfl ?_ ?_ ?_ fun hparent => (h.orphan hparent).2
    · intro hcrashed
      have hold := h.accounted hcrashed
      rw [hmailbox, hnil] at hold
      exact hold.trans (List.append_nil _)
    · intro hin
      rw [show w.entry = true from hin] at hentry
      cases hentry
    · intro hin
      rw [show w.started = true from hin] at hstarted
      cases hstarted
  · cases hstep

theorem WorkerOk.stopTask (hstep : w.stopTask = some w') : WorkerOk parent w' := by
  unfold ContextWorker.stopTask at hstep
  split at hstep
  · rename_i hstopping
    have hentry : w.entry = false := by
      by_contra hentry
      rw [Bool.not_eq_false] at hentry
      rw [(h.registered hentry).2.1] at hstopping
      cases hstopping
    have hstarted : w.started = false := by
      by_contra hstarted
      rw [Bool.not_eq_false] at hstarted
      rw [(h.unregistered hstarted).2.1] at hstopping
      cases hstopping
    by_cases hphase : w.phase = .running
    · rw [if_pos hphase] at hstep
      rw [← Option.some.inj hstep]
      have hlast : .stop ∈ w.mailbox ++ [.stop] := List.mem_append_right _ List.mem_cons_self
      have hending : Ending { w with stopping := false, mailbox := w.mailbox ++ [.stop] } :=
        ⟨hphase, .inr hlast⟩
      exact {
        accounted := by
          intro hcrashed
          show w.posted = w.delivered ++ posts (w.mailbox ++ [.stop])
          rw [posts_append, h.accounted hcrashed]
          exact congrArg _ (List.append_nil _).symm
        early := by
          intro hearly
          rw [show w.phase = .running from hphase] at hearly
          rcases hearly with hearly | hearly <;> cases hearly
        registered := fun hin => absurd hin (by rw [hentry]; nofun)
        unregistered := fun hin => absurd hin (by rw [hstarted]; nofun)
        stopping := nofun
        last := by
          intro _
          obtain ⟨datas, hdatas⟩ := eq_map_post (h.stopping hstopping)
          exact ⟨datas, congrArg (· ++ _) hdatas⟩
        terminated := fun _ => .inr ⟨hending, hentry, hstarted⟩
        crashed := h.crashed
        gone := by
          intro hdead
          rw [show w.phase = .running from hphase] at hdead
          cases hdead
        orphan := fun _ => ⟨.inr (.inr hending), hentry, hstarted⟩ }
    · rw [if_neg hphase] at hstep
      rw [← Option.some.inj hstep]
      have hending : ¬ Ending w := fun hend => hphase hend.1
      exact { h with
        early := by
          intro hearly
          obtain ⟨hentry, hstarted, -, hmail, hterminated⟩ := h.early hearly
          exact ⟨hentry, hstarted, rfl, hmail, hterminated⟩
        registered := fun hin => absurd hin (by rw [hentry]; nofun)
        unregistered := fun hin => absurd hin (by rw [hstarted]; nofun)
        stopping := nofun
        terminated := fun hterminated =>
          (h.terminated hterminated).imp_right fun hend => absurd hend.1 hending
        orphan := fun hparent => ⟨(h.orphan hparent).1.imp_right
          (Or.imp_right fun hend => absurd hend hending), (h.orphan hparent).2⟩ }
  · cases hstep

theorem WorkerOk.register (hstep : w.register = some w') : WorkerOk parent w' := by
  unfold ContextWorker.register at hstep
  split at hstep
  · rename_i hstarted
    rw [← Option.some.inj hstep]
    obtain ⟨hentry, hstopping, hmail, hlive⟩ := h.unregistered hstarted
    exact { h with
      early := by
        intro hearly
        rw [(h.early hearly).2.1] at hstarted
        cases hstarted
      registered := fun _ => ⟨rfl, hstopping, hmail, hlive⟩
      unregistered := nofun
      terminated := by
        intro hterminated
        refine (h.terminated hterminated).imp_right fun hend => ?_
        rw [hend.2.2] at hstarted
        cases hstarted
      orphan := by
        intro hparent
        rw [(h.orphan hparent).2.2] at hstarted
        cases hstarted }
  · cases hstep

theorem WorkerOk.down (hstep : w.down = some w') : WorkerOk parent w' := by
  unfold ContextWorker.down at hstep
  split at hstep
  · rename_i hdead
    rw [← Option.some.inj hstep]
    exact { h with
      early := by
        intro hearly
        obtain ⟨-, hstarted, hstopping, hmail, hterminated⟩ := h.early hearly
        exact ⟨rfl, hstarted, hstopping, hmail, hterminated⟩
      registered := nofun
      unregistered := by
        intro hstarted
        obtain ⟨-, hstopping, hmail, hlive⟩ := h.unregistered hstarted
        exact ⟨rfl, hstopping, hmail, hlive⟩
      terminated := fun _ => .inl hdead.2
      orphan := fun hparent => ⟨(h.orphan hparent).1, rfl, (h.orphan hparent).2.2⟩ }
  · cases hstep

theorem WorkerOk.post {data : α}
    (hok : w.entry = true ∨ w.terminated = true ∨ w.crashed = true) :
    WorkerOk parent (w.post data) := by
  have hstop : .stop ∈ (w.post data).mailbox → .stop ∈ w.mailbox := by
    intro hin
    unfold ContextWorker.post at hin
    split at hin
    · exact stop_mem_append_post hin
    · exact hin
  have hkeep : .stop ∈ w.mailbox → (w.post data).mailbox = w.mailbox := by
    intro hin
    refine if_neg fun hboth => ?_
    exact (h.registered hboth.1).2.2.1 hin
  have hending : Ending w → Ending (w.post data) := by
    intro hend
    refine ⟨hend.1, hend.2.imp_right fun hin => ?_⟩
    rw [hkeep hin]
    exact hin
  exact {
    accounted := by
      intro hcrashed
      have hold := h.accounted hcrashed
      show (if w.terminated then w.posted else w.posted ++ [data]) = w.delivered ++
        posts (if w.entry ∧ w.phase = .running then w.mailbox ++ [.post data] else w.mailbox)
      by_cases hentry : w.entry = true
      · have hrunning : w.phase = .running := by
          rcases (h.registered hentry).2.2.2 with hrunning | hlost
          · exact hrunning
          · rw [show w.crashed = false from hcrashed] at hlost
            cases hlost
        have hterminated : w.terminated = false := by
          by_contra hterminated
          rw [Bool.not_eq_false] at hterminated
          rcases h.terminated hterminated with hdead | hend
          · rw [hrunning] at hdead
            cases hdead
          · rw [hend.2.1] at hentry
            cases hentry
        have hmailbox : (if w.entry ∧ w.phase = .running then w.mailbox ++ [.post data]
            else w.mailbox) = w.mailbox ++ [.post data] := if_pos ⟨hentry, hrunning⟩
        rw [hmailbox, posts_append, hterminated, hold]
        exact List.append_assoc _ _ _
      · have hmailbox : (if w.entry ∧ w.phase = .running then w.mailbox ++ [.post data]
            else w.mailbox) = w.mailbox := if_neg fun hboth => hentry hboth.1
        rw [hmailbox]
        rcases hok with hin | hterminated | hlost
        · exact absurd hin hentry
        · rw [hterminated]
          exact hold
        · rw [show w.crashed = false from hcrashed] at hlost
          cases hlost
    early := by
      intro hearly
      obtain ⟨hentry, hstarted, hstopping, hmail, hterminated⟩ := h.early hearly
      exact ⟨hentry, hstarted, hstopping, fun hin => hmail (hstop hin), hterminated⟩
    registered := by
      intro hentry
      obtain ⟨hstarted, hstopping, hmail, hlive⟩ := h.registered hentry
      exact ⟨hstarted, hstopping, fun hin => hmail (hstop hin), hlive⟩
    unregistered := by
      intro hstarted
      obtain ⟨hentry, hstopping, hmail, hlive⟩ := h.unregistered hstarted
      exact ⟨hentry, hstopping, fun hin => hmail (hstop hin), hlive⟩
    stopping := fun hstopping hin => h.stopping hstopping (hstop hin)
    last := by
      intro hin
      rw [hkeep (hstop hin)]
      exact h.last (hstop hin)
    terminated := fun hterminated =>
      (h.terminated hterminated).imp_right fun hend => ⟨hending hend.1, hend.2⟩
    crashed := h.crashed
    gone := fun hdead hin => h.gone hdead (hstop hin)
    orphan := fun hparent =>
      ⟨(h.orphan hparent).1.imp_right (Or.imp_right hending), (h.orphan hparent).2⟩ }

theorem WorkerOk.terminate
    (hok : w.entry = true ∨ w.terminated = true ∨ w.phase = .dead) :
    WorkerOk parent w.terminate := by
  unfold ContextWorker.terminate
  split
  · rename_i hentry
    obtain ⟨hstarted, hstopping, hmail, hlive⟩ := h.registered hentry
    have hphase : w.phase = .running ∨ w.phase = .dead := hlive.imp_right h.crashed
    exact { h with
      early := by
        intro hearly
        rcases hphase with hphase | hphase
        · rw [show w.phase = .running from hphase] at hearly
          rcases hearly with hearly | hearly <;> cases hearly
        · rw [show w.phase = .dead from hphase] at hearly
          rcases hearly with hearly | hearly <;> cases hearly
      registered := nofun
      unregistered := fun hin => absurd hin (by rw [hstarted]; nofun)
      stopping := fun _ => hmail
      terminated := fun _ => hphase.symm.imp_right fun hrunning =>
        ⟨⟨hrunning, .inl rfl⟩, rfl, hstarted⟩
      orphan := by
        intro hparent
        rw [(h.orphan hparent).2.1] at hentry
        cases hentry }
  · rename_i hentry
    have hend : w.phase = .dead ∨ Ending w ∧ w.entry = false ∧ w.started = false := by
      rcases hok with hin | hterminated | hdead
      · exact absurd hin hentry
      · exact h.terminated hterminated
      · exact .inl hdead
    exact { h with
      early := by
        intro hearly
        rcases hend with hdead | ⟨⟨hrunning, -⟩, -⟩
        · rw [show w.phase = .dead from hdead] at hearly
          rcases hearly with hearly | hearly <;> cases hearly
        · rw [show w.phase = .running from hrunning] at hearly
          rcases hearly with hearly | hearly <;> cases hearly
      terminated := fun _ => hend }

theorem WorkerOk.shutdown
    (hok : w.phase = .unborn ∨ w.phase = .dead ∨ Ending w ∨ w.entry = true ∧ w.mailbox = []) :
    WorkerOk false w.shutdown := by
  unfold ContextWorker.shutdown
  split
  · rename_i hentry
    obtain ⟨-, hstopping, -, hlive⟩ := h.registered hentry
    have hempty : w.crashed = false → w.mailbox = [] := by
      intro hcrashed
      rcases hlive with hrunning | hlost
      swap
      · rw [hcrashed] at hlost
        cases hlost
      rcases hok with hborn | hdead | ⟨-, hstop | hstop⟩ | ⟨-, hnil⟩
      · rw [hrunning] at hborn
        cases hborn
      · rw [hrunning] at hdead
        cases hdead
      · rw [hstopping] at hstop
        cases hstop
      · exact absurd hstop (h.registered hentry).2.2.1
      · exact hnil
    refine workerOk_dead rfl rfl (fun hcrashed => ?_) nofun nofun fun _ => ⟨rfl, rfl⟩
    have hold := h.accounted hcrashed
    rw [hempty hcrashed] at hold
    exact hold.trans (List.append_nil _)
  · rename_i hentry
    rw [Bool.not_eq_true] at hentry
    exact { h with
      early := by
        intro hearly
        obtain ⟨hentry, -, hstopping, hmail, hterminated⟩ := h.early hearly
        exact ⟨hentry, rfl, hstopping, hmail, hterminated⟩
      registered := fun hin => absurd hin (by rw [hentry]; nofun)
      unregistered := nofun
      terminated := fun hterminated =>
        (h.terminated hterminated).imp_right fun hend => ⟨hend.1, hend.2.1, rfl⟩
      orphan := by
        intro _
        refine ⟨?_, hentry, rfl⟩
        rcases hok with hborn | hdead | hend | ⟨hin, -⟩
        · exact .inl hborn
        · exact .inr (.inl hdead)
        · exact .inr (.inr hend)
        · rw [hentry] at hin
          cases hin }

theorem WorkerOk.abandon (hok : w.phase = .unborn ∨ w.phase = .dead ∨ Ending w) :
    WorkerOk false w.abandon :=
  { h with
    early := by
      intro hearly
      obtain ⟨-, -, hstopping, hmail, hterminated⟩ := h.early hearly
      exact ⟨rfl, rfl, hstopping, hmail, hterminated⟩
    registered := nofun
    unregistered := nofun
    terminated := fun hterminated =>
      (h.terminated hterminated).imp_right fun hend => ⟨hend.1, rfl, rfl⟩
    orphan := fun _ => ⟨hok, rfl, rfl⟩ }

end Worker

/-! ### Runs -/

theorem Quiescent.not_ending {s : ContextWorkers α} (hquiet : Quiescent s) (k : ℕ) : ¬ Ending (s.worker k) := by
  obtain ⟨-, -, hstopping, hmailbox, -⟩ := hquiet k
  rintro ⟨-, hstop | hstop⟩
  · rw [hstopping] at hstop
    cases hstop
  · rw [hmailbox] at hstop
    cases hstop

def Invariant (s : ContextWorkers α) : Prop := ∀ k, WorkerOk s.parent (s.worker k)

theorem workerOk_fresh (phase : WorkerPhase) :
    WorkerOk true { (ContextWorker.unborn : ContextWorker α) with phase } where
  accounted _ := rfl
  early _ := ⟨rfl, rfl, rfl, List.not_mem_nil, rfl⟩
  registered := nofun
  unregistered := nofun
  stopping := nofun
  last := nofun
  terminated := nofun
  crashed := nofun
  gone _ := List.not_mem_nil
  orphan := nofun

section Step

variable {s s' : ContextWorkers α} (h : Invariant s)
include h

variable {k : ℕ}

theorem Invariant.setWorker {w : ContextWorker α} (hw : WorkerOk s.parent w) :
    Invariant (s.setWorker k w) := by
  intro j
  show WorkerOk s.parent (Function.update s.worker k w j)
  rw [Function.update_apply]
  split
  · exact hw
  · exact h j

theorem Invariant.ofWorker {o : Option (ContextWorker α)}
    (hw : ∀ w', o = some w' → WorkerOk s.parent w') (hstep : o.map (s.setWorker k) = some s') :
    Invariant s' := by
  obtain ⟨w', ho, rfl⟩ := Option.map_eq_some_iff.1 hstep
  exact h.setWorker (hw w' ho)

theorem Invariant.ofParent {f : ContextWorker α → Option (ContextWorker α)}
    (hw : ∀ w', f (s.worker k) = some w' → WorkerOk s.parent w')
    (hstep : s.ofParent k f = some s') : Invariant s' := by
  unfold ContextWorkers.ofParent at hstep
  split at hstep
  · exact h.ofWorker hw hstep
  · cases hstep

theorem Invariant.step {event : Event α} (hok : Registered s event)
    (hstep : step s event = some s') : Invariant s' := by
  cases event with
  | spawn =>
    rw [ContextWorkers.step] at hstep
    split at hstep
    · rename_i hparent
      rw [← Option.some.inj hstep]
      refine h.setWorker ?_
      rw [hparent]
      exact workerOk_fresh .starting
    · cases hstep
  | start k => exact h.ofWorker (fun w' hw => (h k).start hw) hstep
  | startFails k => exact h.ofWorker (fun w' hw => (h k).startFails hw) hstep
  | setHandler k => exact h.ofWorker (fun w' hw => (h k).setHandler hw) hstep
  | receive k => exact h.ofWorker (fun w' hw => (h k).receive hok hw) hstep
  | crash k => exact h.ofWorker (fun w' hw => (h k).crash hw) hstep
  | stopTask k => exact h.ofWorker (fun w' hw => (h k).stopTask hw) hstep
  | register k => exact h.ofParent (fun w' hw => (h k).register hw) hstep
  | down k => exact h.ofParent (fun w' hw => (h k).down hw) hstep
  | post k data =>
    have hpost : ∀ w', some ((s.worker k).post data) = some w' → WorkerOk s.parent w' := by
      intro w' hw
      rw [← Option.some.inj hw]
      exact (h k).post hok
    exact h.ofParent (f := fun w => some (w.post data)) hpost hstep
  | terminate k =>
    have hterminate : ∀ w', some (s.worker k).terminate = some w' → WorkerOk s.parent w' := by
      intro w' hw
      rw [← Option.some.inj hw]
      exact (h k).terminate hok
    exact h.ofParent (f := fun w => some w.terminate) hterminate hstep
  | stop =>
    rw [ContextWorkers.step] at hstep
    split at hstep
    · rw [← Option.some.inj hstep]
      exact fun k => (h k).shutdown (hok k)
    · cases hstep
  | kill =>
    rw [ContextWorkers.step] at hstep
    split at hstep
    · rw [← Option.some.inj hstep]
      exact fun k => (h k).abandon (hok k)
    · cases hstep

theorem Invariant.served : WorkersServed s where
  delivered k := (h k).accounted
  terminated := by
    intro hquiet k hterminated
    obtain ⟨-, -, -, -, hdown⟩ := hquiet k
    rcases (h k).terminated hterminated with hdead | hend
    · refine ⟨by rw [hdead]; nofun, ?_⟩
      by_contra hentry
      rw [Bool.not_eq_false] at hentry
      exact hdown ⟨hentry, hdead⟩
    · exact absurd hend.1 (hquiet.not_ending k)
  stopped := by
    intro hquiet hparent k hrunning
    rcases ((h k).orphan hparent).1 with hborn | hdead | hend
    · rw [hrunning] at hborn
      cases hborn
    · rw [hrunning] at hdead
      cases hdead
    · exact hquiet.not_ending k hend

end Step

/-- In every run that waits for its workers to be registered, the workers of a context are served. -/
theorem workersServed {s : ContextWorkers α} (h : machine.ReachableIf Registered s) :
    WorkersServed s := by
  refine Invariant.served (Machine.ReachableIf.invariant ?_ ?_ h)
  · rintro s rfl
    exact fun k => workerOk_fresh .unborn
  · intro s event s' hs hok hstep
    exact hs.step hok hstep

/-- A worker that is registered, gets two messages and is terminated. -/
theorem workersServed_one :
    ∃ s : ContextWorkers ℕ, machine.exec initial [.spawn, .start 1, .setHandler 1, .register 1,
        .post 1 7, .post 1 8, .terminate 1, .receive 1, .receive 1, .stopTask 1,
        .receive 1] = some s ∧
      (s.worker 1).delivered = [7, 8] ∧ (s.worker 1).phase = .dead ∧ WorkersServed s := by
  have hrun : ∃ s : ContextWorkers ℕ, machine.exec initial [.spawn, .start 1, .setHandler 1,
      .register 1, .post 1 7, .post 1 8, .terminate 1, .receive 1, .receive 1, .stopTask 1,
      .receive 1] = some s ∧ (s.worker 1).delivered = [7, 8] ∧ (s.worker 1).phase = .dead ∧
      machine.GuardedRun Registered initial [.spawn, .start 1, .setHandler 1, .register 1,
        .post 1 7, .post 1 8, .terminate 1, .receive 1, .receive 1, .stopTask 1, .receive 1] s :=
    ⟨_, rfl, rfl, rfl, .cons trivial rfl <| .cons trivial rfl <| .cons trivial rfl <|
      .cons trivial rfl <| .cons (.inl rfl) rfl <| .cons (.inl rfl) rfl <| .cons (.inl rfl) rfl <|
      .cons (fun _ _ => rfl) rfl <| .cons (fun _ _ => rfl) rfl <| .cons trivial rfl <|
      .cons (fun _ _ => rfl) rfl <| .nil _⟩
  obtain ⟨s, hexec, hdelivered, hphase, hrun⟩ := hrun
  exact ⟨s, hexec, hdelivered, hphase, workersServed ⟨_, _, rfl, hrun⟩⟩

/-- A terminate that comes before the registration does nothing. -/
theorem early_terminate_leaks :
    ¬ ∀ s : ContextWorkers ℕ, machine.Reachable s → WorkersServed s := by
  intro h
  have hrun : ∃ s : ContextWorkers ℕ, machine.exec initial [.spawn, .terminate 1, .start 1,
      .register 1] = some s ∧ (s.worker 1).terminated = true ∧ (s.worker 1).phase = .running ∧
      Quiescent s := by
    refine ⟨_, rfl, rfl, rfl, fun k => ?_⟩
    by_cases hk : k = 1
    · subst hk
      exact ⟨nofun, rfl, rfl, rfl, fun hboth => by cases hboth.2⟩
    · simp [setWorker, spawn, Function.update_of_ne hk, initial, ContextWorker.unborn]
  obtain ⟨s, hexec, hterminated, hrunning, hquiet⟩ := hrun
  exact ((h s (Machine.reachable_of_exec rfl hexec)).terminated hquiet 1 hterminated).1 hrunning

end ContextWorkers

end QuickBeam.Native
