import QuickBeam.Lib.Transition

/-!
# Fetches and their aborts (`fetch.ex`, `fetch.ts`)

Every `fetch` of every runtime picks the time as its id and runs `QuickBEAM.Fetch.fetch` in a task,
which keeps `{fetch_id, request_id}` in one table of the node while it waits.  An abort calls
`__fetch_cancel`, which takes the entry under the id and cancels the request it finds.

Fetches are numbered; a request is named by the number of the fetch that made it.  `stopped` records
which requests an abort has stopped.
-/

namespace QuickBeam.Native

open QuickBeam.Lib

/-! ### Fetches -/

inductive FetchPhase where
  /-- There is no such fetch yet. -/
  | unborn
  | called
  /-- `:httpc.request` has returned an id. -/
  | requested
  /-- The entry is in the table. -/
  | waiting
  | received
  | finished
deriving DecidableEq

inductive Request where
  | none
  | running
  /-- The reply or the error is in the mailbox of the task. -/
  | replied (ok : Bool)
  | cancelled
deriving DecidableEq

/-- The abort of a fetch; `late` when the fetch had finished at the time. -/
inductive Abort where
  | none
  | called (late : Bool)
  /-- `:ets.take` has returned. -/
  | took (late : Bool) (entry : Option ℕ)
  | done

structure Fetch where
  id : ℕ
  phase : FetchPhase
  request : Request
  abort : Abort

/-- An abort of `fetch` has stopped the running request of `request`. -/
structure Stop where
  fetch : ℕ
  request : ℕ
  late : Bool

/-- All fetches of the node with the table `:quickbeam_fetch_requests`. -/
structure Fetches where
  fetch : ℕ → Fetch
  table : ℕ → Option ℕ
  stopped : List Stop

namespace Fetches

def initial : Fetches := ⟨fun _ => ⟨0, .unborn, .none, .none⟩, fun _ => none, []⟩

def setFetch (s : Fetches) (f : ℕ) (fetch : Fetch) : Fetches :=
  { s with fetch := Function.update s.fetch f fetch }

def setEntry (s : Fetches) (id : ℕ) (entry : Option ℕ) : Fetches :=
  { s with table := Function.update s.table id entry }

/-! ### Steps -/

/-- `fetchImpl` up to `Beam.call`, at the time `now`. -/
def start (s : Fetches) (f now : ℕ) : Option Fetches :=
  if (s.fetch f).phase = .unborn then
    some (s.setFetch f { s.fetch f with id := now, phase := .called })
  else none

/-- `:httpc.request`; the task raises where it fails. -/
def request (s : Fetches) (f : ℕ) (ok : Bool) : Option Fetches :=
  if (s.fetch f).phase = .called then
    if ok then some (s.setFetch f { s.fetch f with phase := .requested, request := .running })
    else some (s.setFetch f { s.fetch f with phase := .finished })
  else none

def insert (s : Fetches) (f : ℕ) : Option Fetches :=
  if (s.fetch f).phase = .requested then
    some ((s.setFetch f { s.fetch f with phase := .waiting }).setEntry (s.fetch f).id f)
  else none

/-- The HTTP client ends a request. -/
def reply (s : Fetches) (f : ℕ) (ok : Bool) : Option Fetches :=
  if (s.fetch f).request = .running then
    some (s.setFetch f { s.fetch f with request := .replied ok })
  else none

/-- The `receive` of the task; it raises on an error. -/
def receive (s : Fetches) (f : ℕ) : Option Fetches :=
  if (s.fetch f).phase = .waiting then
    match (s.fetch f).request with
    | .replied true => some (s.setFetch f { s.fetch f with phase := .received })
    | .replied false => some (s.setFetch f { s.fetch f with phase := .finished })
    | _ => none
  else none

def cancelHttpc : Request → Request
  | .running => .cancelled
  | request => request

/-- The `after` branch of the `receive`, which cancels and raises. -/
def timeout (s : Fetches) (f : ℕ) : Option Fetches :=
  if (s.fetch f).phase = .waiting then
    match (s.fetch f).request with
    | .replied _ => none
    | request =>
      some (s.setFetch f { s.fetch f with phase := .finished, request := cancelHttpc request })
  else none

/-- `:ets.delete` after a result. -/
def delete (s : Fetches) (f : ℕ) : Option Fetches :=
  if (s.fetch f).phase = .received then
    some ((s.setFetch f { s.fetch f with phase := .finished }).setEntry (s.fetch f).id none)
  else none

/-- The `abort` listener runs, once. -/
def abort (s : Fetches) (f : ℕ) : Option Fetches :=
  match (s.fetch f).phase, (s.fetch f).abort with
  | .unborn, _ => none
  | phase, .none => some (s.setFetch f { s.fetch f with abort := .called (phase = .finished) })
  | _, _ => none

/-- The `:ets.take` of `cancel`. -/
def take (s : Fetches) (f : ℕ) : Option Fetches :=
  match (s.fetch f).abort with
  | .called late =>
    let entry := s.table (s.fetch f).id
    some ((s.setFetch f { s.fetch f with abort := .took late entry }).setEntry (s.fetch f).id none)
  | _ => none

def cancel (s : Fetches) (f : ℕ) : Option Fetches :=
  match (s.fetch f).abort with
  | .took _ none => some (s.setFetch f { s.fetch f with abort := .done })
  | .took late (some g) =>
    let stopped :=
      if (s.fetch g).request = .running then s.stopped ++ [⟨f, g, late⟩] else s.stopped
    let s := s.setFetch g { s.fetch g with request := cancelHttpc (s.fetch g).request }
    some { s.setFetch f { s.fetch f with abort := .done } with stopped }
  | _ => none

inductive Event where
  | start (f now : ℕ)
  | request (f : ℕ) (ok : Bool)
  | insert (f : ℕ)
  | reply (f : ℕ) (ok : Bool)
  | receive (f : ℕ)
  | timeout (f : ℕ)
  | delete (f : ℕ)
  | abort (f : ℕ)
  | take (f : ℕ)
  | cancel (f : ℕ)

def step (s : Fetches) : Event → Option Fetches
  | .start f now => s.start f now
  | .request f ok => s.request f ok
  | .insert f => s.insert f
  | .reply f ok => s.reply f ok
  | .receive f => s.receive f
  | .timeout f => s.timeout f
  | .delete f => s.delete f
  | .abort f => s.abort f
  | .take f => s.take f
  | .cancel f => s.cancel f

def machine : Machine Fetches Event where
  init s := s = initial
  step := step

/-! ### Aborts keep to their own fetch -/

/-- The request of this fetch was made and has ended, or will not be made. -/
def Ended (s : Fetches) (f : ℕ) : Prop :=
  (s.fetch f).phase ≠ .unborn ∧ (s.fetch f).phase ≠ .called ∧ (s.fetch f).request ≠ .running

/-- An abort that looks up its id finds the entry of its own fetch, or that fetch's request has ended
and the entry is of no running request; a fetch that ends by an error or a timeout has no entry
any more. -/
def FindsOwn (s : Fetches) : Event → Prop
  | .take f =>
    (s.table (s.fetch f).id = some f ∨ Ended s f) ∧
      ∀ g, s.table (s.fetch f).id = some g → g = f ∨ (s.fetch g).request ≠ .running
  | .receive f => (s.fetch f).request = .replied false → s.table (s.fetch f).id ≠ some f
  | .timeout f => s.table (s.fetch f).id ≠ some f
  | _ => True

structure Invariant (s : Fetches) : Prop where
  own : ∀ stop ∈ s.stopped, stop.request = stop.fetch ∧ stop.late = false
  done : ∀ f, (s.fetch f).abort = .done → Ended s f
  entries : ∀ id f, s.table id = some f →
    (s.fetch f).id = id ∧ ((s.fetch f).phase = .waiting ∨ (s.fetch f).phase = .received)
  unborn : ∀ f, (s.fetch f).phase = .unborn → (s.fetch f).abort = .none
  calledLate : ∀ f, (s.fetch f).abort = .called true → (s.fetch f).phase = .finished
  /-- A taken entry is the aborted fetch's own, or of a request that has ended. -/
  took : ∀ f late g, (s.fetch f).abort = .took late (some g) → g = f ∧ late = false ∨ Ended s g
  made : ∀ f late g, (s.fetch f).abort = .took late (some g) →
    (s.fetch g).phase ≠ .unborn ∧ (s.fetch g).phase ≠ .called
  missed : ∀ f late, (s.fetch f).abort = .took late none → Ended s f
  /-- An abort that took another entry came after the end of its own request. -/
  other : ∀ f late g, (s.fetch f).abort = .took late (some g) → g = f ∨ Ended s f

variable {s : Fetches}

theorem invariant_initial : Invariant initial where
  own := nofun
  done := nofun
  entries := nofun
  unborn _ _ := rfl
  calledLate := nofun
  took := nofun
  made := nofun
  missed := nofun
  other := nofun

/-! ### Steps of one task -/

@[simp] theorem fetch_setFetch_self (s : Fetches) (f : ℕ) (x : Fetch) :
    (s.setFetch f x).fetch f = x := Function.update_self ..

theorem fetch_setFetch_ne (s : Fetches) {f g : ℕ} (x : Fetch) (h : g ≠ f) :
    (s.setFetch f x).fetch g = s.fetch g := Function.update_of_ne h ..

/-- What a fetch may become without its abort: it goes forward, and its request does not start
again. -/
structure Forward (x y : Fetch) : Prop where
  abort : y.abort = x.abort
  unborn : y.phase = .unborn → x.phase = .unborn
  called : y.phase = .called → x.phase = .unborn ∨ x.phase = .called
  running : y.request = .running → x.phase = .called ∨ x.request = .running
  finished : x.phase = .finished → y.phase = .finished

theorem Ended.forward {f g : ℕ} {x : Fetch} (h : Ended s g) (hx : Forward (s.fetch f) x) :
    Ended (s.setFetch f x) g := by
  unfold Ended
  by_cases hg : g = f
  · subst hg
    rw [fetch_setFetch_self]
    refine ⟨fun hborn => h.1 (hx.unborn hborn), fun hcalled => ?_, fun hrunning => ?_⟩
    · rcases hx.called hcalled with hphase | hphase
      · exact h.1 hphase
      · exact h.2.1 hphase
    · rcases hx.running hrunning with hphase | hrequest
      · exact h.2.1 hphase
      · exact h.2.2 hrequest
  · rw [fetch_setFetch_ne _ _ hg]
    exact h

theorem cancelHttpc_ne_running (request : Request) : cancelHttpc request ≠ .running := by
  cases request <;> nofun

theorem entries_remove {P : ℕ → ℕ → Prop} {table : ℕ → Option ℕ} (id : ℕ)
    (hall : ∀ id' g, table id' = some g → id' ≠ id → P id' g) :
    ∀ id' g, Function.update table id none id' = some g → P id' g := by
  intro id' g hentry
  by_cases hid : id' = id
  · rw [hid, Function.update_self] at hentry
    cases hentry
  · rw [Function.update_of_ne hid] at hentry
    exact hall id' g hentry hid

section Step

variable {s s' : Fetches} (h : Invariant s)
include h

variable {f : ℕ}

theorem Invariant.forward (x : Fetch) (hx : Forward (s.fetch f) x) {table : ℕ → Option ℕ}
    (hentries : ∀ id g, table id = some g → ((s.setFetch f x).fetch g).id = id ∧ (((s.setFetch f
    x).fetch g).phase = .waiting ∨ ((s.setFetch f x).fetch g).phase = .received)) :
    Invariant { s.setFetch f x with table } := by
  have habort : ∀ g, ((s.setFetch f x).fetch g).abort = (s.fetch g).abort := by
    intro g
    by_cases hg : g = f
    · subst hg
      rw [fetch_setFetch_self, hx.abort]
    · rw [fetch_setFetch_ne _ _ hg]
  exact {
    own := h.own
    done := fun g hdone => (h.done g ((habort g).symm.trans hdone)).forward hx
    entries := hentries
    unborn := by
      intro g hborn
      show ((s.setFetch f x).fetch g).abort = _
      rw [habort]
      refine h.unborn g ?_
      by_cases hg : g = f
      · subst hg
        exact hx.unborn ((congrArg Fetch.phase (fetch_setFetch_self s g x)).symm.trans hborn)
      · exact (congrArg Fetch.phase (fetch_setFetch_ne s x hg)).symm.trans hborn
    calledLate := by
      intro g hcalled
      have hfinished := h.calledLate g ((habort g).symm.trans hcalled)
      by_cases hg : g = f
      · subst hg
        exact (congrArg Fetch.phase (fetch_setFetch_self s g x)).trans (hx.finished hfinished)
      · exact (congrArg Fetch.phase (fetch_setFetch_ne s x hg)).trans hfinished
    took := fun g late k htook =>
      (h.took g late k ((habort g).symm.trans htook)).imp_right fun hended => hended.forward hx
    made := by
      intro g late k htook
      have hmade := h.made g late k ((habort g).symm.trans htook)
      show ((s.setFetch f x).fetch k).phase ≠ _ ∧ ((s.setFetch f x).fetch k).phase ≠ _
      by_cases hk : k = f
      · subst hk
        rw [fetch_setFetch_self]
        refine ⟨fun hborn => hmade.1 (hx.unborn hborn), fun hcalled => ?_⟩
        exact (hx.called hcalled).elim hmade.1 hmade.2
      · rw [fetch_setFetch_ne _ _ hk]
        exact hmade
    missed := fun g late htook => (h.missed g late ((habort g).symm.trans htook)).forward hx
    other := fun g late k htook =>
      (h.other g late k ((habort g).symm.trans htook)).imp_right fun hended => hended.forward hx }

theorem Invariant.entries_setFetch (x : Fetch)
    (hx : (s.fetch f).phase = .waiting ∨ (s.fetch f).phase = .received → s.table (s.fetch f).id =
    some f → x.id = (s.fetch f).id ∧ (x.phase = .waiting ∨ x.phase = .received)) :
    ∀ id g, s.table id = some g →
      ((s.setFetch f x).fetch g).id = id ∧ (((s.setFetch f x).fetch g).phase = .waiting ∨
        ((s.setFetch f x).fetch g).phase = .received) := by
  intro id g hentry
  obtain ⟨rfl, hphase⟩ := h.entries id g hentry
  by_cases hg : g = f
  · subst hg
    rw [fetch_setFetch_self]
    exact hx hphase hentry
  · rw [fetch_setFetch_ne _ _ hg]
    exact ⟨rfl, hphase⟩

theorem Invariant.start {f now : ℕ} (hstep : s.start f now = some s') : Invariant s' := by
  unfold Fetches.start at hstep
  split at hstep
  · rename_i hborn
    rw [← Option.some.inj hstep]
    have hphase : ¬ ((s.fetch f).phase = .waiting ∨ (s.fetch f).phase = .received) := by
      rw [hborn]
      rintro (hphase | hphase) <;> cases hphase
    refine h.forward { s.fetch f with id := now, phase := .called } ?_
      (h.entries_setFetch _ fun hin => absurd hin hphase)
    exact {
      abort := rfl
      unborn := nofun
      called := fun _ => .inl hborn
      running := .inr
      finished := by
        rw [hborn]
        nofun }
  · cases hstep

variable {ok : Bool}

theorem Invariant.request (hstep : s.request f ok = some s') : Invariant s' := by
  unfold Fetches.request at hstep
  split at hstep
  · rename_i hcalled
    have hphase : ¬ ((s.fetch f).phase = .waiting ∨ (s.fetch f).phase = .received) := by
      rw [hcalled]
      rintro (hphase | hphase) <;> cases hphase
    cases ok with
    | true =>
      rw [← Option.some.inj hstep]
      refine h.forward { s.fetch f with phase := .requested, request := .running } ?_
        (h.entries_setFetch _ fun hin => absurd hin hphase)
      exact {
        abort := rfl
        unborn := nofun
        called := nofun
        running := fun _ => .inl hcalled
        finished := by
          rw [hcalled]
          nofun }
    | false =>
      rw [← Option.some.inj hstep]
      exact h.forward { s.fetch f with phase := .finished } ⟨rfl, nofun, nofun, .inr, fun _ => rfl⟩
        (h.entries_setFetch _ fun hin => absurd hin hphase)
  · cases hstep

theorem Invariant.insert (hstep : s.insert f = some s') : Invariant s' := by
  unfold Fetches.insert at hstep
  split at hstep
  · rename_i hrequested
    rw [← Option.some.inj hstep]
    have hforward : Forward (s.fetch f) { s.fetch f with phase := .waiting } := {
      abort := rfl
      unborn := nofun
      called := nofun
      running := .inr
      finished := by
        rw [hrequested]
        nofun }
    refine h.forward { s.fetch f with phase := .waiting } hforward ?_
    intro id g hentry
    have hupdate : Function.update s.table (s.fetch f).id (some f) id = some g := hentry
    by_cases hid : id = (s.fetch f).id
    · rw [hid, Function.update_self, Option.some.injEq] at hupdate
      rw [← hupdate, hid, fetch_setFetch_self]
      exact ⟨rfl, .inl rfl⟩
    · rw [Function.update_of_ne hid] at hupdate
      exact h.entries_setFetch { s.fetch f with phase := .waiting } (fun _ _ => ⟨rfl, .inl rfl⟩) id g
        hupdate
  · cases hstep

theorem Invariant.reply (hstep : s.reply f ok = some s') : Invariant s' := by
  unfold Fetches.reply at hstep
  split at hstep
  · rw [← Option.some.inj hstep]
    exact h.forward { s.fetch f with request := .replied ok } ⟨rfl, id, .inr, nofun, id⟩
      (h.entries_setFetch _ fun hphase _ => ⟨rfl, hphase⟩)
  · cases hstep

theorem Invariant.receive (hok : FindsOwn s (.receive f)) (hstep : s.receive f = some s') :
    Invariant s' := by
  unfold Fetches.receive at hstep
  split at hstep
  · rename_i hwaiting
    split at hstep
    · rw [← Option.some.inj hstep]
      have hforward : Forward (s.fetch f) { s.fetch f with phase := .received } := {
        abort := rfl
        unborn := nofun
        called := nofun
        running := .inr
        finished := by
          rw [hwaiting]
          nofun }
      exact h.forward _ hforward (h.entries_setFetch _ fun _ _ => ⟨rfl, .inr rfl⟩)
    · rename_i hfailed
      rw [← Option.some.inj hstep]
      exact h.forward { s.fetch f with phase := .finished } ⟨rfl, nofun, nofun, .inr, fun _ => rfl⟩
        (h.entries_setFetch _ fun _ hentry => absurd hentry (hok hfailed))
    · cases hstep
  · cases hstep

theorem Invariant.timeout (hok : FindsOwn s (.timeout f)) (hstep : s.timeout f = some s') :
    Invariant s' := by
  unfold Fetches.timeout at hstep
  split at hstep
  · split at hstep
    · cases hstep
    · rw [← Option.some.inj hstep]
      have hforward : Forward (s.fetch f) { s.fetch f with
          phase := .finished, request := cancelHttpc (s.fetch f).request } := {
        abort := rfl
        unborn := nofun
        called := nofun
        running := fun hrunning => absurd hrunning (cancelHttpc_ne_running _)
        finished := fun _ => rfl }
      exact h.forward _ hforward (h.entries_setFetch _ fun _ hentry => absurd hentry hok)
  · cases hstep

theorem Invariant.delete (hstep : s.delete f = some s') : Invariant s' := by
  unfold Fetches.delete at hstep
  split at hstep
  · rw [← Option.some.inj hstep]
    refine h.forward { s.fetch f with phase := .finished } ⟨rfl, nofun, nofun, .inr, fun _ => rfl⟩
      (entries_remove (s.fetch f).id fun id g hentry hid => ?_)
    obtain ⟨rfl, hphase⟩ := h.entries id g hentry
    have hg : g ≠ f := by
      rintro rfl
      exact hid rfl
    rw [fetch_setFetch_ne _ _ hg]
    exact ⟨rfl, hphase⟩
  · cases hstep

end Step

/-! ### Steps of an abort -/

section AbortStep

variable {s s' : Fetches} (h : Invariant s)
include h

variable {f : ℕ}

theorem Invariant.setAbort (a : Abort) (hborn : (s.fetch f).phase ≠ .unborn)
    (hcalled : a = .called true → (s.fetch f).phase = .finished) (hdone : a = .done → Ended s f)
    (htook : ∀ late g, a = .took late (some g) → s.table (s.fetch f).id = some g ∧ (g = f ∧ late
    = false ∨ Ended s g) ∧ (g = f ∨ Ended s f))
    (hmissed : ∀ late, a = .took late none → Ended s f) {table : ℕ → Option ℕ}
    (htable : ∀ id g, table id = some g → s.table id = some g) :
    Invariant { s.setFetch f { s.fetch f with abort := a } with table } := by
  have hsame : ∀ g, ((s.setFetch f { s.fetch f with abort := a }).fetch g).phase = (s.fetch g).phase ∧
      ((s.setFetch f { s.fetch f with abort := a }).fetch g).request = (s.fetch g).request ∧
      ((s.setFetch f { s.fetch f with abort := a }).fetch g).id = (s.fetch g).id := by
    intro g
    by_cases hg : g = f
    · subst hg
      rw [fetch_setFetch_self]
      exact ⟨rfl, rfl, rfl⟩
    · rw [fetch_setFetch_ne _ _ hg]
      exact ⟨rfl, rfl, rfl⟩
  have hended : ∀ g, Ended s g →
      Ended { s.setFetch f { s.fetch f with abort := a } with table } g := by
    intro g hg
    unfold Ended
    rw [(hsame g).1, (hsame g).2.1]
    exact hg
  -- The abort of `f` is the new one, every other abort is the old one.
  have habort : ∀ {b : Abort} {g : ℕ},
      ((s.setFetch f { s.fetch f with abort := a }).fetch g).abort = b →
        g = f ∧ a = b ∨ g ≠ f ∧ (s.fetch g).abort = b := by
    intro b g hb
    by_cases hg : g = f
    · subst hg
      rw [fetch_setFetch_self] at hb
      exact .inl ⟨rfl, hb⟩
    · rw [fetch_setFetch_ne _ _ hg] at hb
      exact .inr ⟨hg, hb⟩
  exact {
    own := h.own
    done := by
      intro g hg
      rcases habort hg with ⟨rfl, ha⟩ | ⟨-, hold⟩
      · exact hended g (hdone ha)
      · exact hended g (h.done g hold)
    entries := by
      intro id g hentry
      show ((s.setFetch f { s.fetch f with abort := a }).fetch g).id = id ∧ _
      rw [(hsame g).1, (hsame g).2.2]
      exact h.entries id g (htable id g hentry)
    unborn := by
      intro g hg
      have hphase := (hsame g).1.symm.trans hg
      have hne : g ≠ f := by
        rintro rfl
        exact hborn hphase
      exact (congrArg Fetch.abort (fetch_setFetch_ne s _ hne)).trans (h.unborn g hphase)
    calledLate := by
      intro g hg
      refine (hsame g).1.trans ?_
      rcases habort hg with ⟨rfl, ha⟩ | ⟨-, hold⟩
      · exact hcalled ha
      · exact h.calledLate g hold
    took := by
      intro g late k hg
      rcases habort hg with ⟨rfl, ha⟩ | ⟨-, hold⟩
      · exact (htook late k ha).2.1.imp_right (hended k)
      · exact (h.took g late k hold).imp_right (hended k)
    made := by
      intro g late k hg
      show ((s.setFetch f { s.fetch f with abort := a }).fetch k).phase ≠ _ ∧ _
      rw [(hsame k).1]
      rcases habort hg with ⟨rfl, ha⟩ | ⟨-, hold⟩
      · rcases (h.entries _ _ (htook late k ha).1).2 with hphase | hphase
        · rw [hphase]
          exact ⟨nofun, nofun⟩
        · rw [hphase]
          exact ⟨nofun, nofun⟩
      · exact h.made g late k hold
    missed := by
      intro g late hg
      rcases habort hg with ⟨rfl, ha⟩ | ⟨-, hold⟩
      · exact hended g (hmissed late ha)
      · exact hended g (h.missed g late hold)
    other := by
      intro g late k hg
      rcases habort hg with ⟨rfl, ha⟩ | ⟨-, hold⟩
      · exact (htook late k ha).2.2.imp_right (hended g)
      · exact (h.other g late k hold).imp_right (hended g) }

theorem Invariant.abort (hstep : s.abort f = some s') : Invariant s' := by
  unfold Fetches.abort at hstep
  split at hstep
  · cases hstep
  · rename_i phase hborn
    rw [← Option.some.inj hstep]
    refine h.setAbort (.called (decide ((s.fetch f).phase = .finished))) hborn ?_ nofun nofun nofun
      fun _ _ => id
    intro hlate
    rw [Abort.called.injEq, decide_eq_true_eq] at hlate
    exact hlate
  · cases hstep

theorem Invariant.born (habort : (s.fetch f).abort ≠ .none) :
    (s.fetch f).phase ≠ .unborn := fun hborn => habort (h.unborn f hborn)

theorem Invariant.take (hok : FindsOwn s (.take f)) (hstep : s.take f = some s') :
    Invariant s' := by
  unfold Fetches.take at hstep
  split at hstep
  · rename_i late hcalled
    rw [← Option.some.inj hstep]
    obtain ⟨hown, hrunning⟩ := hok
    refine h.setAbort (.took late (s.table (s.fetch f).id)) (h.born (by rw [hcalled]; nofun)) nofun
      nofun ?_ ?_ ?_
    · intro late' g htook
      rw [Abort.took.injEq] at htook
      obtain ⟨rfl, hentry⟩ := htook
      obtain ⟨-, hphase⟩ := h.entries _ _ hentry
      refine ⟨hentry, ?_, ?_⟩
      · rcases hrunning g hentry with rfl | hended
        · refine .inl ⟨rfl, ?_⟩
          -- A fetch that has an entry has not finished.
          cases late with
          | false => rfl
          | true =>
            rw [h.calledLate g hcalled] at hphase
            rcases hphase with hphase | hphase <;> cases hphase
        · refine .inr ⟨?_, ?_, hended⟩
          · rcases hphase with hphase | hphase <;> rw [hphase] <;> nofun
          · rcases hphase with hphase | hphase <;> rw [hphase] <;> nofun
      · refine hown.imp_left fun hf => ?_
        exact Option.some.inj (hentry.symm.trans hf)
    · intro late' htook
      rw [Abort.took.injEq] at htook
      rcases hown with hf | hended
      · rw [htook.2] at hf
        cases hf
      · exact hended
    · exact entries_remove _ fun _ _ hentry _ => hentry
  · cases hstep

theorem Invariant.cancel (hstep : s.cancel f = some s') : Invariant s' := by
  unfold Fetches.cancel at hstep
  split at hstep
  · rename_i late htook
    rw [← Option.some.inj hstep]
    exact h.setAbort .done (h.born (by rw [htook]; nofun)) nofun (fun _ => h.missed f late htook)
      nofun nofun fun _ _ => id
  · rename_i late g htook
    rw [← Option.some.inj hstep]
    have hforward : Forward (s.fetch g)
        { s.fetch g with request := cancelHttpc (s.fetch g).request } :=
      ⟨rfl, id, .inr, fun hrunning => absurd hrunning (cancelHttpc_ne_running _), id⟩
    have hcancelled := h.forward _ hforward (h.entries_setFetch _ fun hphase _ => ⟨rfl, hphase⟩)
    have hended : Ended (s.setFetch g
        { s.fetch g with request := cancelHttpc (s.fetch g).request }) f := by
      rcases h.other f late g htook with rfl | hended
      · obtain ⟨hborn, hcalled⟩ := h.made g late g htook
        unfold Ended
        rw [fetch_setFetch_self]
        exact ⟨hborn, hcalled, cancelHttpc_ne_running _⟩
      · exact hended.forward hforward
    have hdone := hcancelled.setAbort .done hended.1 nofun (fun _ => hended) nofun nofun
      fun _ _ => id
    refine { hdone with own := ?_ }
    intro stop hstop
    split at hstop
    · rename_i hrunning
      rcases List.mem_append.1 hstop with hold | hnew
      · exact h.own stop hold
      · rw [List.mem_singleton.1 hnew]
        rcases h.took f late g htook with hown | hend
        · exact hown
        · exact absurd hrunning hend.2.2
    · exact h.own stop hstop
  · cases hstep

end AbortStep

theorem Invariant.step {s s' : Fetches} {event : Event} (h : Invariant s) (hok : FindsOwn s event)
    (hstep : step s event = some s') : Invariant s' := by
  cases event with
  | start f now => exact h.start hstep
  | request f ok => exact h.request hstep
  | insert f => exact h.insert hstep
  | reply f ok => exact h.reply hstep
  | receive f => exact h.receive hok hstep
  | timeout f => exact h.timeout hok hstep
  | delete f => exact h.delete hstep
  | abort f => exact h.abort hstep
  | take f => exact h.take hok hstep
  | cancel f => exact h.cancel hstep

end Fetches

end QuickBeam.Native
