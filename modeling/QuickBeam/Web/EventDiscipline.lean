import QuickBeam.Lib.History
import QuickBeam.Web.EventTarget

/-!
# The discipline of event listeners

What may happen to listeners, as a property of the history: of each dispatch, call and removal
given what happened before.  The code keeps it in runs of the steps that are `Allowed`.
-/

namespace QuickBeam.Web.EventTarget

open QuickBeam.Lib

variable {F : Type} [DecidableEq F]

/-! ### The discipline -/

def registrations (target : ℕ) (type : Text) (past : List (Happening F)) :
    List (ListenerEntry F) :=
  past.filterMap fun
    | .registered target' type' entry =>
      if target' = target ∧ type' = type then some entry else none
    | _ => none

def gone (past : List (Happening F)) (entry : ListenerEntry F) : Bool :=
  past.any fun
    | .removed entry' _ => decide (entry' = entry)
    | _ => false

def present (target : ℕ) (type : Text) (past : List (Happening F)) : List (ListenerEntry F) :=
  (registrations target type past).filter fun entry => !gone past entry

/-- The entries a dispatch has called, in order. -/
def calls (id : ℕ) (past : List (Happening F)) : List (ListenerEntry F) :=
  past.filterMap fun
    | .called id' entry => if id' = id then some entry else none
    | _ => none

/-- What may happen, given the past.  A dispatch begins with the listeners present.  It calls them
in their order and each at most once; none that has been removed or whose signal has aborted, and
none registered with `once` that any dispatch has called.  An abort removes only what was
registered with that signal.  When a dispatch ends, or a listener throws in it, each of its
listeners has been called or removed. -/
def Disciplined (past : List (Happening F)) : Happening F → Prop
  | .began id target type snapshot => snapshot = present target type past ∧ snapshot.Nodup ∧
      ∀ target' type' snapshot', .began id target' type' snapshot' ∉ past
  | .called id entry =>
    (∃ target type snapshot, .began id target type snapshot ∈ past ∧
        (calls id past ++ [entry]).Sublist snapshot) ∧
      gone past entry = false ∧
      (entry.once = true → ∀ id', .called id' entry ∉ past) ∧
      ∀ signal, entry.signal = some signal → .aborted signal ∉ past
  | .removed entry signal => ∀ g, signal = some g → entry.signal = some g
  | .ended id _ | .threw id => ∀ target type snapshot, .began id target type snapshot ∈ past →
      ∀ entry ∈ snapshot, .called id entry ∈ past ∨ gone past entry = true
  | _ => True

/-! ### The condition -/

namespace Frame

def aborting : Frame F → Option ℕ
  | .dispatch d => if d.aborts then some d.target else none
  | .onabort signal _ => some signal

def event : Frame F → ℕ
  | .dispatch d => d.event
  | .onabort _ event => event

def entry : Frame F → Option (ListenerEntry F)
  | .dispatch d => d.entry
  | .onabort _ _ => none

def rest : Frame F → List (ListenerEntry F)
  | .dispatch d => d.rest
  | .onabort _ _ => []

end Frame

/-- The callback is the closure that a registration of `callback` leaves on its signal. -/
def Callback.removes (target : ℕ) (type : Text) (callback : F) : Callback F → Prop
  | .removal _ target' type' callback' =>
    target' = target ∧ type' = type ∧ callback' = callback
  | .script _ => False

namespace State

variable (s : State F) (target : ℕ) (type : Text)

def Unfinished (signal : ℕ) : Prop :=
  signal ∉ s.aborted ∨ ∃ f ∈ s.stack, f.aborting = some signal

/-- A dispatch may start: no listener of it that is registered with `once` is being called, and none
is registered with a signal whose abort is under way. -/
def Quiet : Prop :=
  ∀ entry ∈ s.listed target type, ∀ f ∈ s.stack,
    (f.entry = some entry → entry.once = false) ∧
      ∀ signal ∈ f.aborting, entry.signal ≠ some signal

end State

/-- The steps that keep the discipline.

* A signal is not the signal of its own abort listeners, and a callback is registered again only
  with the signals that still hold a closure of an earlier registration of it.
* Dispatches, also those of aborts, start when that is `Quiet`.
* The event of an abort under way is not stopped.
* A listener throws only when it is not a `once` listener and none is left to be called, and
  `onabort` only when the signal has no abort listener. -/
def Allowed (s : State F) : Step F → Prop
  | .add target type (some callback) _ signal =>
    (type = abort → signal ≠ some target) ∧
      ∀ list ∈ s.listeners.toList, list.1.2 = abort → s.Unfinished list.1.1 →
        (∃ closure ∈ list.2, closure.callback.removes target type callback) →
          signal = some list.1.1
  | .dispatch target event => ∀ e ∈ s.events[event]?, s.Quiet target e.type
  | .stopImmediate event => ∀ f ∈ s.stack, f.aborting.isSome = true → f.event ≠ event
  | .abort signal =>
    signal ∈ s.aborted ∨ (s.onabort.get? signal).isSome = true ∨ s.Quiet signal abort
  | .ret =>
    match s.stack with
    | .onabort signal _ :: _ => s.Quiet signal abort
    | _ => True
  | .throw =>
    match s.stack with
    | .dispatch d :: _ =>
      (∀ entry ∈ d.entry, entry.once = false) ∧ ∀ entry ∈ d.rest, entry ∈ s.removed
    | .onabort signal _ :: _ => s.listed signal abort = []
    | [] => True
  | _ => True

instance (target : ℕ) (type : Text) (callback : F) (c : Callback F) :
    Decidable (c.removes target type callback) :=
  match c with
  | .removal _ target' type' callback' =>
    inferInstanceAs (Decidable (target' = target ∧ type' = type ∧ callback' = callback))
  | .script _ => inferInstanceAs (Decidable False)

instance (s : State F) (signal : ℕ) : Decidable (s.Unfinished signal) :=
  inferInstanceAs (Decidable (_ ∨ _))

instance (s : State F) (target : ℕ) (type : Text) : Decidable (s.Quiet target type) :=
  inferInstanceAs (Decidable (∀ _ ∈ _, _))

instance (s : State F) (e : Step F) : Decidable (Allowed s e) :=
  match e with
  | .add _ _ (some _) _ _ => inferInstanceAs (Decidable (_ ∧ _))
  | .dispatch target event =>
    inferInstanceAs (Decidable (∀ e ∈ s.events[event]?, s.Quiet target e.type))
  | .stopImmediate _ => inferInstanceAs (Decidable (∀ f ∈ s.stack, _))
  | .abort _ => inferInstanceAs (Decidable (_ ∨ _ ∨ _))
  | .ret =>
    match h : s.stack with
    | .onabort signal _ :: _ => decidable_of_iff (s.Quiet signal abort) (by rw [Allowed, h])
    | .dispatch _ :: _ => .isTrue (by rw [Allowed, h]; trivial)
    | [] => .isTrue (by rw [Allowed, h]; trivial)
  | .throw =>
    match h : s.stack with
    | .dispatch d :: _ =>
      decidable_of_iff ((∀ entry ∈ d.entry, entry.once = false) ∧
        ∀ entry ∈ d.rest, entry ∈ s.removed) (by rw [Allowed, h])
    | .onabort signal _ :: _ => decidable_of_iff (s.listed signal abort = []) (by rw [Allowed, h])
    | [] => .isTrue (by rw [Allowed, h]; trivial)
  | .create _ | .add _ _ none _ _ | .remove _ _ _ | .preventDefault _ | .setOnabort _ _
  | .advance => inferInstanceAs (Decidable True)

/-! ### Reading the history -/

section

omit [DecidableEq F]

variable {past more : List (Happening F)} {target id : ℕ} {type : Text} {entry : ListenerEntry F}

theorem registrations_append : registrations target type (past ++ more) =
    registrations target type past ++ registrations target type more := List.filterMap_append

theorem calls_append : calls id (past ++ more) = calls id past ++ calls id more :=
  List.filterMap_append

theorem mem_registrations :
    entry ∈ registrations target type past ↔ .registered target type entry ∈ past := by
  rw [registrations, List.mem_filterMap]
  constructor
  · rintro ⟨h, hmem, he⟩
    cases h with
    | registered target' type' entry' =>
      simp only [Option.ite_none_right_eq_some, Option.some.injEq] at he
      obtain ⟨⟨rfl, rfl⟩, rfl⟩ := he
      exact hmem
    | _ => cases he
  · intro hmem
    exact ⟨_, hmem, if_pos ⟨rfl, rfl⟩⟩

theorem mem_calls : entry ∈ calls id past ↔ .called id entry ∈ past := by
  rw [calls, List.mem_filterMap]
  constructor
  · rintro ⟨h, hmem, he⟩
    cases h with
    | called id' entry' =>
      simp only [Option.ite_none_right_eq_some, Option.some.injEq] at he
      obtain ⟨rfl, rfl⟩ := he
      exact hmem
    | _ => cases he
  · intro hmem
    exact ⟨_, hmem, if_pos rfl⟩

def Happening.silent : Happening F → Bool
  | .registered _ _ _ | .removed _ _ => false
  | _ => true

theorem registrations_silent (h : ∀ x ∈ more, x.silent = true) :
    registrations target type more = [] := by
  refine List.filterMap_eq_nil_iff.2 fun x hx => ?_
  cases x with
  | registered => cases h _ hx
  | _ => rfl

end

section

variable {past more : List (Happening F)} {target : ℕ} {type : Text} {entry : ListenerEntry F}

theorem gone_append : gone (past ++ more) entry = (gone past entry || gone more entry) :=
  List.any_append

theorem mem_present : entry ∈ present target type past ↔
    .registered target type entry ∈ past ∧ gone past entry = false := by
  rw [present, List.mem_filter, mem_registrations, Bool.not_eq_true']

theorem gone_silent (h : ∀ x ∈ more, x.silent = true) : gone more entry = false := by
  refine List.any_eq_false.2 fun x hx => ?_
  cases x with
  | removed => cases h _ hx
  | _ => exact Bool.false_ne_true

theorem gone_append_silent (h : ∀ x ∈ more, x.silent = true) :
    gone (past ++ more) entry = gone past entry := by
  rw [gone_append, gone_silent h, Bool.or_false]

theorem present_append_silent (h : ∀ x ∈ more, x.silent = true) :
    present target type (past ++ more) = present target type past := by
  unfold present
  rw [registrations_append, registrations_silent h, List.append_nil]
  exact List.filter_congr fun entry _ => by rw [gone_append_silent h]

variable {entry' : ListenerEntry F} {signal : Option ℕ}

theorem gone_removed :
    gone [Happening.removed entry' signal] entry = decide (entry' = entry) := Bool.or_false _

theorem gone_append_removed {entry' : ListenerEntry F} {signal : Option ℕ} :
    gone (past ++ [.removed entry' signal]) entry = true ↔ gone past entry = true ∨ entry = entry' := by
  rw [gone_append, gone_removed, Bool.or_eq_true, decide_eq_true_eq, eq_comm (a := entry)]

theorem present_append_removed : present target type (past ++ [.removed entry' signal]) =
      (present target type past).filter fun e => decide (e ≠ entry') := by
  have hnone : registrations target type [Happening.removed entry' signal] = [] := rfl
  unfold present
  rw [registrations_append, hnone, List.append_nil, List.filter_filter]
  refine List.filter_congr fun e _ => ?_
  rw [gone_append, gone_removed, Bool.not_or, Bool.and_comm, decide_not,
    decide_eq_decide.2 (eq_comm (a := e) (b := entry'))]

theorem present_append_registered {target' : ℕ} {type' : Text} (h : gone past entry = false) :
    present target type (past ++ [.registered target' type' entry]) =
      present target type past ++ if target' = target ∧ type' = type then [entry] else [] := by
  have hgone : ∀ e : ListenerEntry F, gone [Happening.registered target' type' entry] e = false :=
    fun _ => rfl
  have hone : registrations target type [Happening.registered target' type' entry] =
      if target' = target ∧ type' = type then [entry] else [] := by
    unfold registrations
    by_cases hsame : target' = target ∧ type' = type
    · simp only [List.filterMap_cons, List.filterMap_nil, if_pos hsame]
    · simp only [List.filterMap_cons, List.filterMap_nil, if_neg hsame]
  unfold present
  rw [registrations_append, List.filter_append, hone]
  congr 1
  · exact List.filter_congr fun e _ => by rw [gone_append, hgone, Bool.or_false]
  · split
    · rw [List.filter_cons_of_pos, List.filter_nil]
      rw [gone_append, hgone, h]
      rfl
    · rfl

end

end QuickBeam.Web.EventTarget
