import QuickBeam.Lib.Transition

/-!
# Timers of a runtime (`timers.zig`, `worker.zig`)

`fire_expired_timers` takes the ids of at most 64 expired timers and calls their callbacks one by
one; an entry stays in the table while its callback runs.  A callback that waits for a promise fires
timers itself, so passes nest.  Between any two steps the clock may advance and scripts may set and
clear timers.  A callback that throws ends like one that returns.

The callbacks' references are named by the ids; `releases` lists the references freed so far,
`calls` the calls made, and `cleared` the ids of the timers that were cleared or reset.
-/

namespace QuickBeam.Native

open QuickBeam.Lib

/-! ### Timers -/

/-- A `TimerEntry`; times are in nanoseconds. -/
structure TimerEntry where
  deadline : ℕ
  intervalNs : Option ℕ
deriving DecidableEq

structure FirePass where
  /-- The ids of `expired_buf` still to be looked at. -/
  remaining : List ℕ
  /-- The callback that runs, with the interval read before it was called. -/
  calling : Option (ℕ × Option ℕ)

inductive LastCall where
  | never
  | running
  | ended (time : ℕ)

structure TimerCall where
  id : ℕ
  intervalNs : Option ℕ
  start : ℕ
  previous : LastCall
  /-- The timer had been cleared. -/
  cleared : Bool

structure Timers where
  now : ℕ
  nextTimerId : ℕ
  timers : ℕ → Option TimerEntry
  /-- The passes under way, the innermost first. -/
  passes : List FirePass
  lastCall : ℕ → LastCall
  calls : List TimerCall
  cleared : List ℕ
  releases : List ℕ

namespace Timers

def initial : Timers := ⟨0, 1, fun _ => none, [], fun _ => .never, [], [], []⟩

def ids (s : Timers) : List ℕ := (List.range s.nextTimerId).filter fun id => (s.timers id).isSome

def isExpired (s : Timers) (id : ℕ) : Bool :=
  match s.timers id with
  | some entry => entry.deadline ≤ s.now
  | none => false

def expired (s : Timers) : List ℕ := (List.range s.nextTimerId).filter s.isExpired

/-- The ids whose callbacks run. -/
def callings (s : Timers) : List ℕ := s.passes.filterMap fun pass => pass.calling.map Prod.fst

/-! ### Steps -/

inductive Event where
  | tick (ns : ℕ)
  /-- `setInterval` or `setTimeout`. -/
  | set (delayNs : ℕ) (isInterval : Bool)
  | clear (id : ℕ)
  /-- `fire_expired_timers` has filled its buffer. -/
  | fire (ids : List ℕ)
  | call
  | ret
  | endPass
  | reset

/-- `set_timer_common`; an interval is at least a millisecond. -/
def setTimer (s : Timers) (delayNs : ℕ) (isInterval : Bool) : Timers :=
  let delay := if isInterval then max delayNs 1000000 else delayNs
  { s with
    nextTimerId := s.nextTimerId + 1
    timers := Function.update s.timers s.nextTimerId
      (some ⟨s.now + delay, if isInterval then some delay else none⟩) }

/-- Take an entry out of the table and free its callback. -/
def remove (s : Timers) (id : ℕ) : Timers :=
  { s with timers := Function.update s.timers id none, releases := s.releases ++ [id] }

def clear (s : Timers) (id : ℕ) : Timers :=
  let s := { s with cleared := if id < s.nextTimerId then s.cleared ++ [id] else s.cleared }
  match s.timers id with
  | some _ => s.remove id
  | none => s

/-- What the loop over the hash map can put into `expired_buf`: its order is unknown. -/
def IsBuffer (s : Timers) (buf : List ℕ) : Prop :=
  buf.Nodup ∧ (∀ id ∈ buf, id ∈ s.expired) ∧ buf.length = min 64 s.expired.length

instance (s : Timers) (buf : List ℕ) : Decidable (s.IsBuffer buf) :=
  inferInstanceAs (Decidable (_ ∧ _))

/-- `JS_Call` of the callback of an entry. -/
def enter (s : Timers) (id : ℕ) (entry : TimerEntry) (remaining : List ℕ) (passes : List FirePass) :
    Timers :=
  { s with
    passes := ⟨remaining, some (id, entry.intervalNs)⟩ :: passes
    lastCall := Function.update s.lastCall id .running
    calls := s.calls ++ [⟨id, entry.intervalNs, s.now, s.lastCall id, decide (id ∈ s.cleared)⟩] }

/-- `JS_Call` has returned. -/
def leave (s : Timers) (id : ℕ) (remaining : List ℕ) (passes : List FirePass) : Timers :=
  { s with
    passes := ⟨remaining, none⟩ :: passes
    lastCall := Function.update s.lastCall id (.ended s.now) }

/-- The next id of the buffer: its callback is called if it is still in the table. -/
def call (s : Timers) : Option Timers :=
  match s.passes with
  | ⟨id :: remaining, none⟩ :: passes =>
    match s.timers id with
    | some entry => some (s.enter id entry remaining passes)
    | none => some { s with passes := ⟨remaining, none⟩ :: passes }
  | _ => none

/-- After the callback an interval that is still in the table starts again, and a timeout is taken
out. -/
def ret (s : Timers) : Option Timers :=
  match s.passes with
  | ⟨remaining, some (id, interval)⟩ :: passes =>
    match s.timers id, interval with
    | some entry, some iv =>
      some { s.leave id remaining passes with
        timers := Function.update s.timers id (some { entry with deadline := s.now + iv }) }
    | some _, none => some ((s.leave id remaining passes).remove id)
    | none, _ => some (s.leave id remaining passes)
  | _ => none

/-- `do_reset`, which only the main loop calls. -/
def reset (s : Timers) : Option Timers :=
  match s.passes with
  | [] => some { s with
      timers := fun _ => none
      cleared := s.cleared ++ s.ids
      releases := s.releases ++ s.ids }
  | _ :: _ => none

def step (s : Timers) : Event → Option Timers
  | .tick ns => some { s with now := s.now + ns }
  | .set delayNs isInterval => some (s.setTimer delayNs isInterval)
  | .clear id => some (s.clear id)
  | .fire buf => if s.IsBuffer buf then some { s with passes := ⟨buf, none⟩ :: s.passes } else none
  | .call => s.call
  | .ret => s.ret
  | .endPass =>
    match s.passes with
    | ⟨[], none⟩ :: passes => some { s with passes }
    | _ => none
  | .reset => s.reset

def machine : Machine Timers Event where
  init s := s = initial
  step := step

/-! ### Timers fire as registered -/

def timeoutCalls (s : Timers) (id : ℕ) : ℕ :=
  s.calls.countP fun c => c.id = id ∧ c.intervalNs = none

/-- The reference of a timer is held by its table entry or has been released once. -/
def Released (s : Timers) : Prop :=
  ∀ id, (if (s.timers id).isSome then 1 else 0) + s.releases.count id =
    if 1 ≤ id ∧ id < s.nextTimerId then 1 else 0

structure FiresAsRegistered (s : Timers) : Prop where
  once : ∀ id, s.timeoutCalls id ≤ 1
  live : ∀ c ∈ s.calls, c.cleared = false
  spaced : ∀ c ∈ s.calls, ∀ iv, c.intervalNs = some iv →
    c.previous = .never ∨ ∃ t, c.previous = .ended t ∧ t + iv ≤ c.start
  released : Released s

/-- A callback is called when its entry is expired and the callback does not run. -/
def OnTime (s : Timers) : Event → Prop
  | .call =>
    match s.passes with
    | ⟨id :: _, none⟩ :: _ =>
      ∀ entry, s.timers id = some entry → entry.deadline ≤ s.now ∧ id ∉ s.callings
    | _ => True
  | _ => True

def EntryOk (s : Timers) (id : ℕ) (entry : TimerEntry) : Prop :=
  match s.lastCall id with
  | .never => True
  | .running => id ∈ s.callings
  | .ended t => ∃ iv, entry.intervalNs = some iv ∧ t + iv ≤ entry.deadline

structure Invariant (s : Timers) : Prop where
  fires : FiresAsRegistered s
  known : ∀ id entry, s.timers id = some entry → 1 ≤ id ∧ id < s.nextTimerId
  started : 1 ≤ s.nextTimerId
  cleared : ∀ id ∈ s.cleared, id < s.nextTimerId ∧ s.timers id = none
  entries : ∀ id entry, s.timers id = some entry → EntryOk s id entry
  captured : ∀ pass ∈ s.passes, ∀ id interval, pass.calling = some (id, interval) →
    id < s.nextTimerId ∧ ∀ entry, s.timers id = some entry → entry.intervalNs = interval
  fresh : ∀ id, s.nextTimerId ≤ id → s.lastCall id = .never
  uncalled : ∀ id, s.lastCall id = .never → ∀ c ∈ s.calls, c.id ≠ id

/-! ### The table and the references -/

section Table

variable {s : Timers} {id : ℕ} {entry : TimerEntry}

theorem remove_timers_self : (s.remove id).timers id = none := Function.update_self ..

theorem remove_timers_of_ne {j : ℕ} (hj : j ≠ id) : (s.remove id).timers j = s.timers j :=
  Function.update_of_ne hj ..

theorem of_remove_timers {j : ℕ} {e : TimerEntry} (h : (s.remove id).timers j = some e) :
    j ≠ id ∧ s.timers j = some e := by
  by_cases hj : j = id
  · rw [hj, remove_timers_self] at h
    cases h
  · rw [remove_timers_of_ne hj] at h
    exact ⟨hj, h⟩

theorem Released.remove (h : Released s) (hin : s.timers id = some entry) : Released (s.remove id) := by
  intro j
  have hj := h j
  show (if ((s.remove id).timers j).isSome then 1 else 0) + (s.releases ++ [id]).count j = _
  by_cases heq : j = id
  · subst heq
    rw [hin] at hj
    rw [remove_timers_self, List.count_append, List.count_singleton_self]
    show 0 + (s.releases.count j + 1) = if 1 ≤ j ∧ j < s.nextTimerId then 1 else 0
    rw [← hj, Option.isSome_some, if_pos rfl]
    omega
  · have hcount : List.count j [id] = 0 := List.count_eq_zero.2 (by simpa using heq)
    rw [remove_timers_of_ne heq, List.count_append, hcount]
    exact hj

theorem mem_ids : id ∈ s.ids ↔ id < s.nextTimerId ∧ (s.timers id).isSome = true := by
  unfold ids
  rw [List.mem_filter, List.mem_range]

theorem nodup_ids : s.ids.Nodup := List.nodup_range.filter _

end Table

/-! ### Steps keep the invariant -/

section Step

variable {s s' : Timers} (h : Invariant s)
include h

variable {id : ℕ}

theorem Invariant.not_set (hid : s.nextTimerId ≤ id) : s.timers id = none := by
  cases hin : s.timers id with
  | none => rfl
  | some entry => exact absurd (h.known id entry hin).2 (by omega)

theorem Invariant.tick (ns : ℕ) : Invariant { s with now := s.now + ns } :=
  { h with fires := { h.fires with } }

theorem Invariant.setTimer (delayNs : ℕ) (isInterval : Bool) : Invariant (s.setTimer delayNs isInterval) := by
  have hnew : s.timers s.nextTimerId = none := h.not_set le_rfl
  have hself : ((s.setTimer delayNs isInterval).timers s.nextTimerId).isSome = true := by
    unfold Timers.setTimer
    simp
  have hother : ∀ j, j ≠ s.nextTimerId → (s.setTimer delayNs isInterval).timers j = s.timers j :=
    fun j hj => Function.update_of_ne hj ..
  have hstarted := h.started
  exact { h with
    fires := { h.fires with
      released := by
        intro j
        have hj := h.fires.released j
        show _ + s.releases.count j = if 1 ≤ j ∧ j < s.nextTimerId + 1 then 1 else 0
        by_cases heq : j = s.nextTimerId
        · have hnone : ¬ (1 ≤ s.nextTimerId ∧ s.nextTimerId < s.nextTimerId) := by omega
          rw [heq, hnew, if_neg hnone] at hj
          rw [heq, hself, if_pos rfl, if_pos ⟨hstarted, Nat.lt_succ_self _⟩]
          have hzero : s.releases.count s.nextTimerId = 0 := (Nat.zero_add _).symm.trans hj
          rw [hzero]
        · rw [hother j heq, hj]
          exact if_congr (by omega) rfl rfl }
    known := by
      intro j entry hin
      show 1 ≤ j ∧ j < s.nextTimerId + 1
      by_cases heq : j = s.nextTimerId
      · omega
      · rw [hother j heq] at hin
        have := h.known j entry hin
        omega
    started := Nat.le_add_left ..
    cleared := by
      intro j hj
      obtain ⟨hlt, hnone⟩ := h.cleared j hj
      exact ⟨Nat.lt_succ_of_lt hlt, (hother j (by omega)).trans hnone⟩
    entries := by
      intro j entry hin
      by_cases heq : j = s.nextTimerId
      · have hfresh : (s.setTimer delayNs isInterval).lastCall j = .never := h.fresh j heq.ge
        unfold EntryOk
        rw [hfresh]
        trivial
      · rw [hother j heq] at hin
        exact h.entries j entry hin
    captured := by
      intro pass hpass j interval hcalling
      obtain ⟨hlt, hentry⟩ := h.captured pass hpass j interval hcalling
      refine ⟨Nat.lt_succ_of_lt hlt, fun entry hin => hentry entry ?_⟩
      rw [← hin, hother j (by omega)]
    fresh := fun j hj => h.fresh j (Nat.le_of_succ_le hj) }

variable {entry : TimerEntry}

theorem Invariant.remove (hin : s.timers id = some entry) : Invariant (s.remove id) :=
  { h with
    fires := { h.fires with released := h.fires.released.remove hin }
    known := fun j e hj => h.known j e (of_remove_timers hj).2
    cleared := by
      intro j hj
      obtain ⟨hlt, hnone⟩ := h.cleared j hj
      have hne : j ≠ id := by
        rintro rfl
        rw [hin] at hnone
        cases hnone
      exact ⟨hlt, (remove_timers_of_ne hne).trans hnone⟩
    entries := fun j e hj => h.entries j e (of_remove_timers hj).2
    captured := by
      intro pass hpass j interval hcalling
      obtain ⟨hlt, hentry⟩ := h.captured pass hpass j interval hcalling
      exact ⟨hlt, fun e hj => hentry e (of_remove_timers hj).2⟩ }

theorem Invariant.mark {marked : List ℕ}
    (hmarked : ∀ id ∈ marked, id < s.nextTimerId ∧ s.timers id = none) :
    Invariant { s with cleared := s.cleared ++ marked } :=
  { h with
    fires := { h.fires with }
    cleared := by
      intro id hid
      rcases List.mem_append.1 hid with hold | hnew
      · exact h.cleared id hold
      · exact hmarked id hnew }

theorem Invariant.clear (id : ℕ) : Invariant (s.clear id) := by
  unfold Timers.clear
  by_cases hid : id < s.nextTimerId
  · simp only [if_pos hid]
    cases hin : s.timers id with
    | none =>
      refine h.mark fun j hj => ?_
      rw [List.mem_singleton.1 hj]
      exact ⟨hid, hin⟩
    | some entry =>
      refine (h.remove hin).mark fun j hj => ?_
      rw [List.mem_singleton.1 hj]
      exact ⟨hid, remove_timers_self⟩
  · simp only [if_neg hid, h.not_set (not_lt.1 hid)]
    exact h

theorem Invariant.fire (buf : List ℕ) : Invariant { s with passes := ⟨buf, none⟩ :: s.passes } :=
  { h with
    fires := { h.fires with }
    captured := by
      intro pass hpass id interval hcalling
      rcases List.mem_cons.1 hpass with rfl | hin
      · cases hcalling
      · exact h.captured pass hin id interval hcalling }

variable {pass : FirePass} {passes : List FirePass}

theorem Invariant.skip (upper : List FirePass) (hpasses : s.passes = pass :: passes)
    (hidle : pass.calling = none) (hupper : ∀ p ∈ upper, p.calling = none) :
    Invariant { s with passes := upper ++ passes } := by
  have hnone : upper.filterMap (fun p => p.calling.map Prod.fst) = [] :=
    List.filterMap_eq_nil_iff.2 fun p hp => by rw [hupper p hp]; rfl
  have hcallings : Timers.callings { s with passes := upper ++ passes } = s.callings := by
    unfold Timers.callings
    rw [hpasses, List.filterMap_append, hnone, List.filterMap_cons, hidle]
    rfl
  exact { h with
    fires := { h.fires with }
    entries := by
      intro id entry hin
      have hold := h.entries id entry hin
      unfold EntryOk at hold ⊢
      rw [hcallings]
      exact hold
    captured := by
      intro p hp id interval hcalling
      rcases List.mem_append.1 hp with hup | hin
      · rw [hupper p hup] at hcalling
        cases hcalling
      · exact h.captured p (hpasses ▸ List.mem_cons_of_mem pass hin) id interval hcalling }

theorem Invariant.previous (hin : s.timers id = some entry) (hdeadline : entry.deadline ≤ s.now)
    (hidle : id ∉ s.callings) : s.lastCall id = .never ∨
      ∃ t iv, s.lastCall id = .ended t ∧ entry.intervalNs = some iv ∧ t + iv ≤ s.now := by
  have hentry := h.entries id entry hin
  unfold EntryOk at hentry
  cases hlast : s.lastCall id with
  | never => exact .inl rfl
  | running =>
    rw [hlast] at hentry
    exact absurd hentry hidle
  | ended t =>
    rw [hlast] at hentry
    obtain ⟨iv, hiv, hle⟩ := hentry
    exact .inr ⟨t, iv, rfl, hiv, hle.trans hdeadline⟩

variable {remaining : List ℕ}

theorem Invariant.enter_fires (hin : s.timers id = some entry)
    (hdeadline : entry.deadline ≤ s.now) (hidle : id ∉ s.callings) :
    FiresAsRegistered (s.enter id entry remaining passes) where
  once := by
    intro j
    show (s.calls ++ [_]).countP _ ≤ 1
    have hold := h.fires.once j
    rw [List.countP_append, List.countP_singleton]
    split
    · rename_i hj
      obtain ⟨rfl, htimeout⟩ := of_decide_eq_true hj
      have hnever : s.lastCall id = .never := by
        rcases h.previous hin hdeadline hidle with hnever | ⟨_, iv, _, hiv, _⟩
        · exact hnever
        · rw [show entry.intervalNs = none from htimeout] at hiv
          cases hiv
      have hzero : s.calls.countP (fun c => decide (c.id = id ∧ c.intervalNs = none)) = 0 :=
        List.countP_eq_zero.2 fun c hc hboth =>
          h.uncalled id hnever c hc (of_decide_eq_true hboth).1
      exact (congrArg (· + 1) hzero).le
    · exact hold
  live := by
    intro c hc
    rcases List.mem_append.1 hc with hold | hnew
    · exact h.fires.live c hold
    · rw [List.mem_singleton.1 hnew]
      refine decide_eq_false fun hcleared => ?_
      rw [(h.cleared id hcleared).2] at hin
      cases hin
  spaced := by
    intro c hc iv hiv
    rcases List.mem_append.1 hc with hold | hnew
    · exact h.fires.spaced c hold iv hiv
    · rw [List.mem_singleton.1 hnew] at hiv ⊢
      refine (h.previous hin hdeadline hidle).imp_right ?_
      rintro ⟨t, iv', hlast, hiv', hle⟩
      have heq : iv' = iv := Option.some.inj (hiv'.symm.trans hiv)
      exact ⟨t, hlast, heq ▸ hle⟩
  released := h.fires.released

theorem Invariant.captured_below (upper : FirePass) (hpasses : s.passes = pass :: passes)
    (hupper : ∀ id interval, upper.calling = some (id, interval) → id < s.nextTimerId ∧ ∀ entry,
    s.timers id = some entry → entry.intervalNs = interval) :
    ∀ p ∈ upper :: passes, ∀ id interval, p.calling = some (id, interval) →
      id < s.nextTimerId ∧ ∀ entry, s.timers id = some entry → entry.intervalNs = interval := by
  intro p hp id interval hcalling
  rcases List.mem_cons.1 hp with rfl | hin
  · exact hupper id interval hcalling
  · exact h.captured p (hpasses ▸ List.mem_cons_of_mem pass hin) id interval hcalling

theorem Invariant.enter {id : ℕ} {entry : TimerEntry} {remaining : List ℕ} {passes : List FirePass}
    (hpasses : s.passes = ⟨id :: remaining, none⟩ :: passes) (hin : s.timers id = some entry)
    (hdeadline : entry.deadline ≤ s.now) (hidle : id ∉ s.callings) :
    Invariant (s.enter id entry remaining passes) := by
  have hlt := (h.known id entry hin).2
  have hother : ∀ j, j ≠ id → (s.enter id entry remaining passes).lastCall j = s.lastCall j :=
    fun j hj => Function.update_of_ne hj ..
  have hself : (s.enter id entry remaining passes).lastCall id = .running := Function.update_self ..
  have hcallings : (s.enter id entry remaining passes).callings = id :: s.callings := by
    unfold Timers.callings
    rw [hpasses]
    rfl
  exact { h with
    fires := h.enter_fires hin hdeadline hidle
    entries := by
      intro j e hj
      unfold EntryOk
      rw [hcallings]
      by_cases heq : j = id
      · rw [heq, hself]
        exact List.mem_cons_self
      · rw [hother j heq]
        have hold := h.entries j e hj
        unfold EntryOk at hold
        cases hlast : s.lastCall j with
        | never => trivial
        | running =>
          rw [hlast] at hold
          exact List.mem_cons_of_mem id hold
        | ended t =>
          rw [hlast] at hold
          exact hold
    captured := by
      refine h.captured_below _ hpasses fun j interval hcalling => ?_
      obtain ⟨rfl, rfl⟩ := Prod.mk.inj (Option.some.inj hcalling)
      refine ⟨hlt, fun e he => ?_⟩
      rw [hin] at he
      rw [← Option.some.inj he]
    fresh := fun j hj => (hother j (hlt.trans_le hj).ne').trans (h.fresh j hj)
    uncalled := by
      intro j hj c hc
      have hne : j ≠ id := by
        rintro rfl
        rw [hself] at hj
        cases hj
      rw [hother j hne] at hj
      rcases List.mem_append.1 hc with hold | hnew
      · exact h.uncalled j hj c hold
      · rw [List.mem_singleton.1 hnew]
        exact hne.symm }

theorem Invariant.call (hok : OnTime s .call) (hstep : s.call = some s') : Invariant s' := by
  unfold Timers.call at hstep
  unfold OnTime at hok
  split at hstep
  · rename_i id remaining passes hpasses
    rw [hpasses] at hok
    split at hstep
    · rename_i entry hin
      rw [← Option.some.inj hstep]
      obtain ⟨hdeadline, hidle⟩ := hok entry hin
      exact h.enter hpasses hin hdeadline hidle
    · rw [← Option.some.inj hstep]
      exact h.skip [⟨remaining, none⟩] hpasses rfl
        fun p hp => by rw [List.mem_singleton.1 hp]
  · cases hstep

variable {interval : Option ℕ}

theorem Invariant.leave_entry {id j : ℕ} {remaining rest : List ℕ}
    (hpasses : s.passes = ⟨remaining, some (id, interval)⟩ :: passes) (hj : j ≠ id)
    (hin : s.timers j = some entry) : EntryOk (s.leave id rest passes) j entry := by
  have hlast : (s.leave id rest passes).lastCall j = s.lastCall j := Function.update_of_ne hj ..
  have hcallings : s.callings = id :: (s.leave id rest passes).callings := by
    unfold Timers.callings
    rw [hpasses]
    rfl
  have hold := h.entries j entry hin
  unfold EntryOk at hold ⊢
  rw [hlast]
  cases hcall : s.lastCall j with
  | never => trivial
  | running =>
    rw [hcall, hcallings] at hold
    exact List.mem_of_ne_of_mem hj hold
  | ended t =>
    rw [hcall] at hold
    exact hold

theorem Invariant.leave {remaining rest : List ℕ} {timers : ℕ → Option TimerEntry}
    {releases : List ℕ} (hpasses : s.passes = ⟨remaining, some (id, interval)⟩ :: passes)
    (hother : ∀ j, j ≠ id → timers j = s.timers j)
    (hself : ∀ entry, timers id = some entry → ∃ old iv, s.timers id = some old ∧ old.intervalNs
    = some iv ∧ entry.intervalNs = some iv ∧ s.now + iv ≤ entry.deadline)
    (hreleased : Released { s with timers, releases }) :
    Invariant { s.leave id rest passes with timers, releases } := by
  have hlt : id < s.nextTimerId :=
    (h.captured _ (hpasses ▸ List.mem_cons_self) id interval rfl).1
  have hold : ∀ j entry, timers j = some entry →
      ∃ old, s.timers j = some old ∧ old.intervalNs = entry.intervalNs := by
    intro j entry hin
    by_cases heq : j = id
    · subst heq
      obtain ⟨old, iv, hold, holdiv, hiv, -⟩ := hself entry hin
      exact ⟨old, hold, holdiv.trans hiv.symm⟩
    · exact ⟨entry, (hother j heq).symm.trans hin, rfl⟩
  have hlast : ∀ j, j ≠ id → (s.leave id rest passes).lastCall j = s.lastCall j :=
    fun j hj => Function.update_of_ne hj ..
  have hended : (s.leave id rest passes).lastCall id = .ended s.now := Function.update_self ..
  exact {
    fires := { h.fires with released := hreleased }
    known := by
      intro j entry hin
      obtain ⟨old, hin, -⟩ := hold j entry hin
      exact h.known j old hin
    started := h.started
    cleared := by
      intro j hj
      obtain ⟨hjlt, hnone⟩ := h.cleared j hj
      refine ⟨hjlt, ?_⟩
      show timers j = none
      cases hin : timers j with
      | none => rfl
      | some entry =>
        obtain ⟨old, hin, -⟩ := hold j entry hin
        rw [hnone] at hin
        cases hin
    entries := by
      intro j entry hin
      by_cases heq : j = id
      · subst heq
        obtain ⟨-, iv, -, -, hiv, hle⟩ := hself entry hin
        unfold EntryOk
        show match (s.leave j rest passes).lastCall j with
          | .never => True
          | .running => _
          | .ended t => ∃ iv, entry.intervalNs = some iv ∧ t + iv ≤ entry.deadline
        rw [hended]
        exact ⟨iv, hiv, hle⟩
      · exact h.leave_entry hpasses heq ((hother j heq).symm.trans hin)
    captured := by
      have hbelow := h.captured_below ⟨rest, none⟩ hpasses nofun
      intro pass hpass j iv hcalling
      obtain ⟨hjlt, hentry⟩ := hbelow pass hpass j iv hcalling
      refine ⟨hjlt, fun entry hin => ?_⟩
      obtain ⟨old, hin, heq⟩ := hold j entry hin
      exact heq.symm.trans (hentry old hin)
    fresh := fun j hj => (hlast j (hlt.trans_le hj).ne').trans (h.fresh j hj)
    uncalled := by
      intro j hj
      have hne : j ≠ id := by
        rintro rfl
        rw [show (s.leave j rest passes).lastCall j = .never from hj] at hended
        cases hended
      exact h.uncalled j ((hlast j hne).symm.trans hj) }

theorem Invariant.ret (hstep : s.ret = some s') : Invariant s' := by
  unfold Timers.ret at hstep
  split at hstep
  swap
  · cases hstep
  rename_i remaining id interval passes hpasses
  have hinterval := (h.captured _ (hpasses ▸ List.mem_cons_self) id interval rfl).2
  split at hstep
  · rename_i entry iv hin
    rw [← Option.some.inj hstep]
    have hself : Function.update s.timers id (some { entry with deadline := s.now + iv }) id =
        some { entry with deadline := s.now + iv } := Function.update_self ..
    have hother : ∀ j, j ≠ id →
        Function.update s.timers id (some { entry with deadline := s.now + iv }) j = s.timers j :=
      fun j hj => Function.update_of_ne hj ..
    refine h.leave hpasses hother (fun e he => ?_) fun j => ?_
    · rw [← Option.some.inj (hself.symm.trans he)]
      exact ⟨entry, iv, hin, hinterval entry hin, hinterval entry hin, le_rfl⟩
    · have hj := h.fires.released j
      show (if (Function.update s.timers id _ j).isSome then 1 else 0) + s.releases.count j = _
      by_cases heq : j = id
      · rw [heq, hself]
        rw [heq, hin] at hj
        exact hj
      · rw [hother j heq]
        exact hj
  · rename_i entry hin
    rw [← Option.some.inj hstep]
    refine h.leave hpasses (fun j hj => Function.update_of_ne hj ..) (fun e he => ?_)
      (h.fires.released.remove hin)
    have hgone : ((s.leave id remaining passes).remove id).timers id = none := remove_timers_self
    cases hgone.symm.trans he
  · rename_i hin
    rw [← Option.some.inj hstep]
    refine h.leave hpasses (fun _ _ => rfl) (fun e he => ?_) h.fires.released
    rw [hin] at he
    cases he

theorem Invariant.reset (hstep : s.reset = some s') : Invariant s' := by
  unfold Timers.reset at hstep
  split at hstep
  swap
  · cases hstep
  rename_i hpasses
  rw [← Option.some.inj hstep]
  exact { h with
    fires := { h.fires with
      released := by
        intro id
        have hid := h.fires.released id
        show 0 + (s.releases ++ s.ids).count id = _
        rw [List.count_append]
        cases hin : s.timers id with
        | none =>
          have hzero : s.ids.count id = 0 := by
            refine List.count_eq_zero.2 fun hmem => ?_
            rw [mem_ids, hin] at hmem
            cases hmem.2
          rw [hin] at hid
          rw [hzero]
          exact hid
        | some entry =>
          have hone : s.ids.count id = 1 := by
            refine List.count_eq_one_of_mem nodup_ids (mem_ids.2 ⟨(h.known id entry hin).2, ?_⟩)
            rw [hin]
            rfl
          rw [hin] at hid
          rw [hone, ← hid, Option.isSome_some, if_pos rfl]
          omega }
    known := nofun
    cleared := by
      intro id hid
      refine ⟨?_, rfl⟩
      rcases List.mem_append.1 hid with hold | hnew
      · exact (h.cleared id hold).1
      · exact (mem_ids.1 hnew).1
    entries := nofun
    captured := by
      intro pass hpass
      rw [show s.passes = [] from hpasses] at hpass
      cases hpass }

theorem Invariant.step {event : Event} (hok : OnTime s event)
    (hstep : Timers.step s event = some s') : Invariant s' := by
  cases event with
  | tick ns =>
    rw [← Option.some.inj hstep]
    exact h.tick ns
  | set delayNs isInterval =>
    rw [← Option.some.inj hstep]
    exact h.setTimer delayNs isInterval
  | clear id =>
    rw [← Option.some.inj hstep]
    exact h.clear id
  | fire buf =>
    rw [Timers.step] at hstep
    split at hstep
    · rw [← Option.some.inj hstep]
      exact h.fire buf
    · cases hstep
  | call => exact h.call hok hstep
  | ret => exact h.ret hstep
  | endPass =>
    rw [Timers.step] at hstep
    split at hstep
    · rename_i passes hpasses
      rw [← Option.some.inj hstep]
      exact h.skip [] hpasses rfl nofun
    · cases hstep
  | reset => exact h.reset hstep

end Step

theorem invariant_initial : Invariant initial where
  fires := {
    once := fun _ => Nat.zero_le _
    live := nofun
    spaced := nofun
    released := by
      intro id
      have hnot : ¬ (1 ≤ id ∧ id < 1) := by omega
      exact (if_neg hnot).symm }
  known := nofun
  started := le_rfl
  cleared := nofun
  entries := nofun
  captured := nofun
  fresh _ _ := rfl
  uncalled := nofun

/-- In every run that calls no callback that runs and none whose entry is not expired, timers fire
as registered. -/
theorem firesAsRegistered {s : Timers} (h : machine.ReachableIf OnTime s) : FiresAsRegistered s := by
  refine Invariant.fires (Machine.ReachableIf.invariant ?_ ?_ h)
  · rintro s rfl
    exact invariant_initial
  · intro s event s' hs hok hstep
    exact hs.step hok hstep

theorem onTime_call {s : Timers} {id : ℕ} {entry : TimerEntry} {remaining : List ℕ}
    {passes : List FirePass} (hpasses : s.passes = ⟨id :: remaining, none⟩ :: passes)
    (hin : s.timers id = some entry) (hdeadline : entry.deadline ≤ s.now) (hidle : id ∉ s.callings) :
    OnTime s .call := by
  unfold OnTime
  rw [hpasses]
  intro e he
  rw [hin] at he
  rw [← Option.some.inj he]
  exact ⟨hdeadline, hidle⟩

/-- A timeout and an interval; the interval is cleared by its second call. -/
theorem firesAsRegistered_two :
    ∃ s, machine.exec initial [.set 0 false, .set 1000000 true, .tick 1000000, .fire [2, 1], .call,
        .ret, .call, .ret, .endPass, .tick 1000000, .fire [2], .call, .clear 2, .ret,
        .endPass] = some s ∧
      s.calls.map TimerCall.id = [2, 1, 2] ∧ s.releases = [1, 2] ∧ FiresAsRegistered s := by
  have hrun : ∃ s, machine.exec initial [.set 0 false, .set 1000000 true, .tick 1000000,
      .fire [2, 1], .call, .ret, .call, .ret, .endPass, .tick 1000000, .fire [2], .call, .clear 2,
      .ret, .endPass] = some s ∧
      s.calls.map TimerCall.id = [2, 1, 2] ∧ s.releases = [1, 2] ∧
      machine.GuardedRun OnTime initial [.set 0 false, .set 1000000 true, .tick 1000000,
        .fire [2, 1], .call, .ret, .call, .ret, .endPass, .tick 1000000, .fire [2], .call, .clear 2,
        .ret, .endPass] s :=
    ⟨_, rfl, rfl, rfl, .cons trivial rfl <| .cons trivial rfl <| .cons trivial rfl <|
      .cons trivial rfl <| .cons (onTime_call rfl rfl (by decide) (by decide)) rfl <| .cons trivial rfl <| .cons (onTime_call rfl rfl (by decide) (by decide)) rfl <|
      .cons trivial rfl <| .cons trivial rfl <| .cons trivial rfl <| .cons trivial rfl <|
      .cons (onTime_call rfl rfl (by decide) (by decide)) rfl <| .cons trivial rfl <| .cons trivial rfl <| .cons trivial rfl <| .nil _⟩
  obtain ⟨s, hexec, hcalls, hreleases, hrun⟩ := hrun
  exact ⟨s, hexec, hcalls, hreleases, firesAsRegistered ⟨_, _, rfl, hrun⟩⟩

/-- A timeout whose callback waits for a promise is called again by the nested pass. -/
theorem waiting_timeout_called_twice : ¬ ∀ s, machine.Reachable s → FiresAsRegistered s := by
  intro h
  have hrun : ∃ s, machine.exec initial [.set 0 false, .fire [1], .call, .fire [1],
      .call] = some s ∧ s.timeoutCalls 1 = 2 := ⟨_, rfl, rfl⟩
  obtain ⟨s, hexec, htwice⟩ := hrun
  have honce := (h s (Machine.reachable_of_exec rfl hexec)).once 1
  omega

end Timers

end QuickBeam.Native
