import QuickBeam.Lib.Transition

/-!
# Thread-safe functions (`napi/tsfn.zig`)

Producer threads put items into a queue of the function and one message for each item into the
queue of the runtime.  The JS thread takes the messages, in its main loop or inside a promise wait,
and frees the function once it is closing and empty.

The steps are those between which threads can interleave: a call holds the lock from its checks to
its append and sends the message afterwards, a release subtracts its reference before it stores
`closing`, and the main loop runs the callback without the lock.  A thread uses the function only
while it has a reference to it.  `accepted`, `delivered`, `late`, `finalizers` and `usedAfter` are
records.
-/

namespace QuickBeam.Napi

open QuickBeam.Lib

/-- The data of a call, with the thread that made it. -/
structure Item where
  producer : ℕ
  data : ℕ
deriving DecidableEq

structure ThreadSafeFunction where
  maxQueueSize : ℕ
  queue : List Item
  threadCount : ℤ
  closing : Bool
  finalized : Bool
  /-- The references, each with the thread that has it. -/
  holders : List ℕ
  /-- The call that has the lock and has passed its checks. -/
  locked : Option Item
  /-- Blocking calls that wait for room. -/
  waiting : List Item
  /-- Threads that have appended an item and not yet sent its message. -/
  senders : List ℕ
  /-- Releases that are about to store `closing`. -/
  closers : ℕ
  /-- The `napi_tsfn_call` messages in flight. -/
  messages : ℕ
  /-- What the main loop is delivering, and whether it finalizes afterwards. -/
  calling : Option (Item × Bool)
  /-- The main loop has ended. -/
  stopped : Bool
  accepted : List Item
  /-- What the callback got; `none` where it got no data. -/
  delivered : List (Option Item)
  /-- The items accepted after `closing` was set. -/
  late : List Item
  finalizers : ℕ
  usedAfter : Bool

namespace ThreadSafeFunction

/-- `napi_create_threadsafe_function`; `holders` has the initial thread count. -/
def create (maxQueueSize : ℕ) (holders : List ℕ) : ThreadSafeFunction :=
  ⟨maxQueueSize, [], holders.length, false, false, holders, none, [], [], 0, 0, none, false, [], [],
    [], 0, false⟩

def touch (f : ThreadSafeFunction) : ThreadSafeFunction :=
  { f with usedAfter := f.usedAfter || decide (f.finalizers ≠ 0) }

def full (f : ThreadSafeFunction) : Prop := 0 < f.maxQueueSize ∧ f.maxQueueSize ≤ f.queue.length

instance (f : ThreadSafeFunction) : Decidable f.full := inferInstanceAs (Decidable (_ ∧ _))

def Busy (f : ThreadSafeFunction) (producer : ℕ) : Prop :=
  producer ∈ f.locked.toList.map Item.producer ++ f.waiting.map Item.producer ++ f.senders

instance (f : ThreadSafeFunction) (producer : ℕ) : Decidable (f.Busy producer) :=
  inferInstanceAs (Decidable (_ ∈ _))

/-! ### Producers -/

/-- `napi_call_threadsafe_function` up to the checks under the lock. -/
def call (f : ThreadSafeFunction) (item : Item) (blocking : Bool) : Option ThreadSafeFunction :=
  if item.producer ∈ f.holders ∧ ¬ f.Busy item.producer ∧ f.locked = none then
    let f := f.touch
    if f.closing then some f
    else if f.full then
      if blocking then some { f with waiting := f.waiting ++ [item] } else some f
    else some { f with locked := some item }
  else none

/-- A blocking call wakes and has the lock again. -/
def wake (f : ThreadSafeFunction) (i : ℕ) : Option ThreadSafeFunction :=
  match f.waiting[i]?, f.locked with
  | some item, none =>
    let f := f.touch
    if f.closing then some { f with waiting := f.waiting.eraseIdx i }
    else if f.full then some f
    else some { f with waiting := f.waiting.eraseIdx i, locked := some item }
  | _, _ => none

def append (f : ThreadSafeFunction) : Option ThreadSafeFunction :=
  match f.locked with
  | some item =>
    let f := f.touch
    some { f with
      queue := f.queue ++ [item]
      locked := none
      senders := f.senders ++ [item.producer]
      accepted := f.accepted ++ [item]
      late := if f.closing then f.late ++ [item] else f.late }
  | none => none

def send (f : ThreadSafeFunction) (i : ℕ) : Option ThreadSafeFunction :=
  if i < f.senders.length then
    let f := f.touch
    some { f with senders := f.senders.eraseIdx i, messages := f.messages + 1 }
  else none

/-- `napi_acquire_threadsafe_function` by `acquirer` for a thread `producer`; while nobody has had a
reference, anybody may acquire. -/
def acquire (f : ThreadSafeFunction) (acquirer producer : ℕ) : Option ThreadSafeFunction :=
  if acquirer ∈ f.holders ∨ f.holders = [] ∧ f.closers = 0 ∧ f.closing = false then
    let f := f.touch
    some { f with threadCount := f.threadCount + 1, holders := producer :: f.holders }
  else none

/-- `napi_release_threadsafe_function` up to the `fetchSub`. -/
def release (f : ThreadSafeFunction) (producer : ℕ) (abort : Bool) : Option ThreadSafeFunction :=
  if producer ∈ f.holders ∧ ¬ f.Busy producer then
    let f := f.touch
    let prev := f.threadCount
    some { f with
      threadCount := prev - 1
      holders := f.holders.erase producer
      closers := if abort ∨ prev = 1 then f.closers + 1 else f.closers }
  else none

def close (f : ThreadSafeFunction) : Option ThreadSafeFunction :=
  match f.closers with
  | 0 => none
  | closers + 1 =>
    let f := f.touch
    some { f with closing := true, closers }

/-! ### The JS thread -/

/-- `finalize_cb` and `deinit`, once `finalized` is exchanged. -/
def finalize (f : ThreadSafeFunction) : ThreadSafeFunction :=
  if f.finalized then f else { f with finalized := true, finalizers := f.finalizers + 1 }

/-- `napi_tsfn_call` in the main loop, up to the callback; an empty queue ends the loop. -/
def pop (f : ThreadSafeFunction) : Option ThreadSafeFunction :=
  match f.messages with
  | 0 => none
  | messages + 1 =>
    if f.calling = none ∧ f.locked = none ∧ f.stopped = false then
      let f := { f.touch with messages }
      match f.queue with
      | [] => some { if f.closing then f.finalize else f with stopped := true }
      | item :: queue =>
        let finalizes := f.closing ∧ queue = [] ∧ f.finalized = false
        some { f with queue, calling := some (item, finalizes) }
    else none

def callback (f : ThreadSafeFunction) : Option ThreadSafeFunction :=
  match f.calling with
  | some (item, finalizes) =>
    let f := { f.touch with calling := none, delivered := f.delivered ++ [some item] }
    some (if finalizes then f.finalize else f)
  | none => none

/-- `napi_tsfn_call` inside `await_promise`: the callback gets the `data` of the message, which is
`null`. -/
def popWait (f : ThreadSafeFunction) : Option ThreadSafeFunction :=
  match f.messages with
  | 0 => none
  | messages + 1 =>
    if f.calling = none ∧ f.stopped = false then
      some { f.touch with messages, delivered := f.delivered ++ [none] }
    else none

/-! ### Runs -/

inductive Step where
  | call (item : Item) (blocking : Bool)
  | wake (i : ℕ)
  | append
  | send (i : ℕ)
  | acquire (acquirer producer : ℕ)
  | release (producer : ℕ) (abort : Bool)
  | close
  | pop
  | callback
  | popWait
deriving DecidableEq

def step (f : ThreadSafeFunction) : Step → Option ThreadSafeFunction
  | .call item blocking => f.call item blocking
  | .wake i => f.wake i
  | .append => f.append
  | .send i => f.send i
  | .acquire acquirer producer => f.acquire acquirer producer
  | .release producer abort => f.release producer abort
  | .close => f.close
  | .pop => f.pop
  | .callback => f.callback
  | .popWait => f.popWait

def machine : Machine ThreadSafeFunction Step where
  init f := ∃ maxQueueSize holders, f = create maxQueueSize holders
  step := step

theorem busy_iff {f : ThreadSafeFunction} {producer : ℕ} :
    f.Busy producer ↔ (∃ item, f.locked = some item ∧ item.producer = producer) ∨
      (∃ item ∈ f.waiting, item.producer = producer) ∨ producer ∈ f.senders := by
  rw [Busy, List.mem_append, List.mem_append, List.mem_map, List.mem_map, or_assoc]
  simp only [Option.mem_toList]

/-! ### Delivery -/

/-- The item in the main loop's hands. -/
def current (f : ThreadSafeFunction) : List (Option Item) := f.calling.toList.map (some ·.1)

structure Delivery (f : ThreadSafeFunction) : Prop where
  /-- What was accepted is delivered once and in order, is being delivered or waits. -/
  items : f.accepted.map some = f.delivered ++ f.current ++ f.queue.map some
  /-- Each waiting item has a message. -/
  owed : f.queue.length = f.messages + f.senders.length
  bounded : 0 < f.maxQueueSize → f.queue.length ≤ f.maxQueueSize
  late : f.late = []
  finalized : f.closing = true → f.queue = [] → f.messages = 0 → f.calling = none →
    f.finalizers = 1
  once : f.finalizers ≤ 1
  unused : f.usedAfter = false
  running : f.stopped = false

/-- No promise wait takes a message, only the last holder aborts, and the queue is not empty when
`closing` is set. -/
def Orderly (f : ThreadSafeFunction) : Step → Prop
  | .release _ abort => abort = true → f.threadCount = 1
  | .close => f.queue ≠ []
  | .popWait => False
  | _ => True

structure Invariant (f : ThreadSafeFunction) : Prop where
  items : f.accepted.map some = f.delivered ++ f.current ++ f.queue.map some
  owed : f.queue.length = f.messages + f.senders.length
  bounded : 0 < f.maxQueueSize → f.queue.length ≤ f.maxQueueSize
  room : f.locked ≠ none → ¬ f.full
  counted : f.threadCount = f.holders.length
  inside : ∀ producer, f.Busy producer → producer ∈ f.holders
  closes : f.closers + (if f.closing then 1 else 0) ≤ 1
  /-- Nobody has a reference once the function is about to close. -/
  abandoned : f.closers ≠ 0 ∨ f.closing = true → f.holders = []
  counts : f.finalizers = if f.finalized then 1 else 0
  ended : f.finalized = true → f.closing = true ∧ f.queue = [] ∧ f.calling = none
  last : ∀ item, f.calling = some (item, true) → f.closing = true ∧ f.queue = []
  /-- A closing function that is empty is about to be finalized. -/
  due : f.closing = true → f.finalized = false → f.queue = [] →
    ∃ item, f.calling = some (item, true)
  late : f.late = []
  unused : f.usedAfter = false
  running : f.stopped = false

theorem invariant_create (maxQueueSize : ℕ) (holders : List ℕ) :
    Invariant (create maxQueueSize holders) where
  items := rfl
  owed := rfl
  bounded := fun _ => Nat.zero_le _
  room := fun hlocked => absurd rfl hlocked
  counted := rfl
  inside := fun _ hbusy => absurd hbusy List.not_mem_nil
  closes := Nat.zero_le _
  abandoned := by simp [create]
  counts := rfl
  ended := by simp [create]
  last := by simp [create]
  due := by simp [create]
  late := rfl
  unused := rfl
  running := rfl

namespace Invariant

variable {f f' : ThreadSafeFunction} (h : Invariant f)
include h

theorem delivered : Delivery f where
  __ := h
  finalized := by
    intro hclosing hqueue _ hcalling
    rw [h.counts]
    by_cases hfinalized : f.finalized = true
    · rw [if_pos hfinalized]
    · obtain ⟨item, hlast⟩ := h.due hclosing (Bool.eq_false_iff.2 hfinalized) hqueue
      rw [hlast] at hcalling
      cases hcalling
  once := by
    rw [h.counts]
    split
    · exact Nat.le_refl _
    · exact Nat.zero_le _

variable {producer : ℕ}

theorem open_of_holder (hproducer : producer ∈ f.holders) : f.closers = 0 ∧ f.closing = false := by
  have hne : f.holders ≠ [] := List.ne_nil_of_mem hproducer
  constructor
  · by_contra hclosers
    exact hne (h.abandoned (.inl hclosers))
  · by_contra hclosing
    exact hne (h.abandoned (.inr (Bool.eq_true_of_not_eq_false hclosing)))

theorem touch (hfinalized : f.finalized = false) : f.touch = f := by
  have hcounts := h.counts
  rw [hfinalized] at hcounts
  have hused : (f.usedAfter || decide (f.finalizers ≠ 0)) = f.usedAfter := by
    rw [hcounts]
    simp
  rw [ThreadSafeFunction.touch, hused]

theorem finalized_of_closing (hclosing : f.closing = false) : f.finalized = false := by
  by_contra hfinalized
  have hended := h.ended (Bool.eq_true_of_not_eq_false hfinalized)
  rw [hended.1] at hclosing
  cases hclosing

theorem call {item : Item} {blocking : Bool} (hstep : f.call item blocking = some f') :
    Invariant f' := by
  rw [ThreadSafeFunction.call] at hstep
  split at hstep
  · rename_i hguard
    have hopen := h.open_of_holder hguard.1
    rw [h.touch (h.finalized_of_closing hopen.2)] at hstep
    dsimp only at hstep
    rw [if_neg (Bool.eq_false_iff.1 hopen.2)] at hstep
    split at hstep
    · split at hstep
      · rw [← Option.some.inj hstep]
        refine { h with inside := ?_ }
        intro producer hbusy
        rcases busy_iff.1 hbusy with hlocked | ⟨item', hin, heq⟩ | hsender
        · exact h.inside producer (busy_iff.2 (.inl hlocked))
        · rcases List.mem_append.1 hin with hin | hin
          · exact h.inside producer (busy_iff.2 (.inr (.inl ⟨item', hin, heq⟩)))
          · rw [← heq, List.mem_singleton.1 hin]
            exact hguard.1
        · exact h.inside producer (busy_iff.2 (.inr (.inr hsender)))
      · rwa [← Option.some.inj hstep]
    · rename_i hroom
      rw [← Option.some.inj hstep]
      refine { h with room := fun _ => hroom, inside := ?_ }
      intro producer hbusy
      rcases busy_iff.1 hbusy with ⟨item', hlocked, heq⟩ | hwaiting | hsender
      · rw [← heq, ← Option.some.inj hlocked]
        exact hguard.1
      · exact h.inside producer (busy_iff.2 (.inr (.inl hwaiting)))
      · exact h.inside producer (busy_iff.2 (.inr (.inr hsender)))
  · cases hstep

theorem wake {i : ℕ} (hstep : f.wake i = some f') : Invariant f' := by
  rw [ThreadSafeFunction.wake] at hstep
  split at hstep
  · rename_i item hitem hlocked
    have hwaits : item ∈ f.waiting := List.mem_of_getElem? hitem
    have hholder := h.inside item.producer (busy_iff.2 (.inr (.inl ⟨item, hwaits, rfl⟩)))
    have hopen := h.open_of_holder hholder
    rw [h.touch (h.finalized_of_closing hopen.2)] at hstep
    dsimp only at hstep
    rw [if_neg (Bool.eq_false_iff.1 hopen.2)] at hstep
    split at hstep
    · rwa [← Option.some.inj hstep]
    · rename_i hroom
      rw [← Option.some.inj hstep]
      refine { h with room := fun _ => hroom, inside := ?_ }
      intro producer hbusy
      rcases busy_iff.1 hbusy with ⟨item', hlocked', heq⟩ | ⟨item', hin, heq⟩ | hsender
      · rw [← heq, ← Option.some.inj hlocked']
        exact hholder
      · have hin' := List.mem_of_mem_eraseIdx hin
        exact h.inside producer (busy_iff.2 (.inr (.inl ⟨item', hin', heq⟩)))
      · exact h.inside producer (busy_iff.2 (.inr (.inr hsender)))
  · cases hstep

theorem append (hstep : f.append = some f') : Invariant f' := by
  rw [ThreadSafeFunction.append] at hstep
  split at hstep
  · rename_i item hlocked
    have hholder := h.inside item.producer (busy_iff.2 (.inl ⟨item, hlocked, rfl⟩))
    have hopen := h.open_of_holder hholder
    have hroom : ¬ f.full := h.room (by rw [hlocked]; exact Option.some_ne_none item)
    rw [h.touch (h.finalized_of_closing hopen.2)] at hstep
    dsimp only at hstep
    rw [if_neg (Bool.eq_false_iff.1 hopen.2)] at hstep
    rw [← Option.some.inj hstep]
    exact { h with
      items := by
        rw [List.map_append, h.items, List.map_append, List.append_assoc, List.append_assoc,
          List.append_assoc]
        rfl
      owed := by
        have howed := h.owed
        simp only [List.length_append, List.length_singleton]
        omega
      bounded := by
        intro hmax
        have hlt := not_and.1 hroom hmax
        simp only [List.length_append, List.length_singleton]
        omega
      room := fun hlocked => absurd rfl hlocked
      inside := by
        intro producer hbusy
        rcases busy_iff.1 hbusy with ⟨item', hnone, _⟩ | hwaiting | hsender
        · cases hnone
        · exact h.inside producer (busy_iff.2 (.inr (.inl hwaiting)))
        · rcases List.mem_append.1 hsender with hsender | hsender
          · exact h.inside producer (busy_iff.2 (.inr (.inr hsender)))
          · rw [List.mem_singleton.1 hsender]
            exact hholder
      ended := by
        intro hfinalized
        rw [h.finalized_of_closing hopen.2] at hfinalized
        cases hfinalized
      last := by
        intro item' hlast
        rw [(h.last item' hlast).1] at hopen
        cases hopen.2
      due := by
        intro hclosing
        rw [hopen.2] at hclosing
        cases hclosing }
  · cases hstep

theorem send {i : ℕ} (hstep : f.send i = some f') : Invariant f' := by
  rw [ThreadSafeFunction.send] at hstep
  split at hstep
  · rename_i hi
    have hholder := h.inside f.senders[i] (busy_iff.2 (.inr (.inr (List.getElem_mem hi))))
    have hopen := h.open_of_holder hholder
    rw [h.touch (h.finalized_of_closing hopen.2)] at hstep
    rw [← Option.some.inj hstep]
    exact { h with
      owed := by
        have howed := h.owed
        simp only [List.length_eraseIdx_of_lt hi]
        omega
      inside := by
        intro producer hbusy
        rcases busy_iff.1 hbusy with hlocked | hwaiting | hsender
        · exact h.inside producer (busy_iff.2 (.inl hlocked))
        · exact h.inside producer (busy_iff.2 (.inr (.inl hwaiting)))
        · have hsender' := List.mem_of_mem_eraseIdx hsender
          exact h.inside producer (busy_iff.2 (.inr (.inr hsender'))) }
  · cases hstep

theorem acquire {acquirer producer : ℕ} (hstep : f.acquire acquirer producer = some f') :
    Invariant f' := by
  rw [ThreadSafeFunction.acquire] at hstep
  split at hstep
  · rename_i hguard
    have hopen : f.closers = 0 ∧ f.closing = false := by
      rcases hguard with hholder | ⟨-, hopen⟩
      · exact h.open_of_holder hholder
      · exact hopen
    rw [h.touch (h.finalized_of_closing hopen.2)] at hstep
    rw [← Option.some.inj hstep]
    exact { h with
      counted := by
        have hcounted := h.counted
        simp only [List.length_cons]
        omega
      inside := fun producer hbusy => List.mem_cons_of_mem _ (h.inside producer hbusy)
      abandoned := by
        rintro (hclosers | hclosing)
        · exact absurd hopen.1 hclosers
        · rw [hopen.2] at hclosing
          cases hclosing }
  · cases hstep

theorem release {abort : Bool} (hok : Orderly f (.release producer abort))
    (hstep : f.release producer abort = some f') : Invariant f' := by
  rw [ThreadSafeFunction.release] at hstep
  split at hstep
  · rename_i hguard
    have hopen := h.open_of_holder hguard.1
    have hcounted := h.counted
    have hlength := List.length_erase_of_mem hguard.1
    have hpos := List.length_pos_of_mem hguard.1
    rw [h.touch (h.finalized_of_closing hopen.2)] at hstep
    have hinside : ∀ p, f.Busy p → p ∈ f.holders.erase producer := by
      intro p hbusy
      refine (List.mem_erase_of_ne ?_).2 (h.inside p hbusy)
      rintro rfl
      exact hguard.2 hbusy
    rw [← Option.some.inj hstep]
    exact { h with
      counted := by
        show f.threadCount - 1 = ((f.holders.erase producer).length : ℤ)
        omega
      inside := hinside
      closes := by
        show (if abort = true ∨ f.threadCount = 1 then f.closers + 1 else f.closers) +
          (if f.closing then 1 else 0) ≤ 1
        rw [hopen.1, hopen.2]
        split <;> simp
      abandoned := by
        intro hclosed
        by_cases hlast : abort = true ∨ f.threadCount = 1
        · -- The last reference goes.
          have hone : f.threadCount = 1 := hlast.elim hok id
          refine List.length_eq_zero_iff.1 ?_
          show (f.holders.erase producer).length = 0
          omega
        · simp only [if_neg hlast, hopen.1, hopen.2] at hclosed
          simp at hclosed }
  · cases hstep

theorem close (hok : Orderly f .close) (hstep : f.close = some f') : Invariant f' := by
  rw [ThreadSafeFunction.close] at hstep
  split at hstep
  · cases hstep
  · rename_i closers hclosers
    have hcloses := h.closes
    have hclosing : f.closing = false := by
      by_contra hclosing
      rw [Bool.eq_true_of_not_eq_false hclosing, if_pos rfl] at hcloses
      omega
    rw [hclosing, if_neg Bool.false_ne_true] at hcloses
    rw [h.touch (h.finalized_of_closing hclosing)] at hstep
    rw [← Option.some.inj hstep]
    exact { h with
      closes := by
        show closers + 1 ≤ 1
        omega
      abandoned := by
        intro _
        refine h.abandoned (.inl ?_)
        omega
      ended := by
        intro hfinalized
        rw [h.finalized_of_closing hclosing] at hfinalized
        cases hfinalized
      last := by
        intro item hlast
        rw [(h.last item hlast).1] at hclosing
        cases hclosing
      due := fun _ _ hqueue => absurd hqueue hok }

theorem pop (hstep : f.pop = some f') : Invariant f' := by
  rw [ThreadSafeFunction.pop] at hstep
  split at hstep
  · cases hstep
  · rename_i messages hmessages
    split at hstep
    · rename_i hguard
      have howed := h.owed
      -- Each message has an item.
      have hne : f.queue ≠ [] := by
        intro hqueue
        rw [hqueue, List.length_nil] at howed
        omega
      have hfinalized : f.finalized = false := by
        by_contra hfinalized
        exact hne (h.ended (Bool.eq_true_of_not_eq_false hfinalized)).2.1
      rw [h.touch hfinalized] at hstep
      obtain ⟨item, queue, hqueue⟩ := List.exists_cons_of_ne_nil hne
      simp only [hqueue] at hstep
      rw [← Option.some.inj hstep]
      have hcurrent : f.current = [] := by
        rw [current, hguard.1]
        rfl
      exact { h with
        items := by
          have hitems := h.items
          rw [hcurrent, hqueue, List.append_nil] at hitems
          show f.accepted.map some = f.delivered ++ [some item] ++ queue.map some
          rw [hitems, List.append_assoc]
          rfl
        owed := by
          rw [hqueue, List.length_cons] at howed
          show queue.length = messages + f.senders.length
          omega
        bounded := by
          intro hmax
          have hbounded := h.bounded hmax
          rw [hqueue, List.length_cons] at hbounded
          show queue.length ≤ f.maxQueueSize
          omega
        room := fun hlocked => absurd hguard.2.1 hlocked
        ended := by
          intro hended
          rw [hfinalized] at hended
          cases hended
        last := by
          intro item' hlast
          have hlast := congrArg Prod.snd (Option.some.inj hlast)
          have hlast := of_decide_eq_true hlast
          exact ⟨hlast.1, hlast.2.1⟩
        due := by
          intro hclosing _ hempty
          refine ⟨item, ?_⟩
          have hfinalizes : f.closing = true ∧ queue = [] ∧ f.finalized = false :=
            ⟨hclosing, hempty, hfinalized⟩
          show some (item, decide (f.closing = true ∧ queue = [] ∧ f.finalized = false)) = _
          rw [decide_eq_true hfinalizes] }
    · cases hstep

theorem callback (hstep : f.callback = some f') : Invariant f' := by
  rw [ThreadSafeFunction.callback] at hstep
  split at hstep
  · rename_i item finalizes hcalling
    have hfinalized : f.finalized = false := by
      by_contra hfinalized
      rw [(h.ended (Bool.eq_true_of_not_eq_false hfinalized)).2.2] at hcalling
      cases hcalling
    have hcounts := h.counts
    rw [hfinalized, if_neg Bool.false_ne_true] at hcounts
    rw [h.touch hfinalized] at hstep
    have hitems : f.accepted.map some = f.delivered ++ [some item] ++ [] ++ f.queue.map some := by
      rw [List.append_nil, h.items, current, hcalling]
      rfl
    cases finalizes with
    | true =>
      obtain ⟨hclosing, hqueue⟩ := h.last item hcalling
      simp only [if_true, finalize, hfinalized, Bool.false_eq_true, if_false] at hstep
      rw [← Option.some.inj hstep]
      exact { h with
        items := hitems
        counts := by
          show f.finalizers + 1 = 1
          rw [hcounts]
        ended := fun _ => ⟨hclosing, hqueue, rfl⟩
        last := fun _ hlast => by cases hlast
        due := fun _ hended => by cases hended }
    | false =>
      simp only [Bool.false_eq_true, if_false] at hstep
      rw [← Option.some.inj hstep]
      exact { h with
        items := hitems
        ended := by
          intro hended
          rw [hfinalized] at hended
          cases hended
        last := fun _ hlast => by cases hlast
        due := by
          intro hclosing hended hqueue
          obtain ⟨item', hlast⟩ := h.due hclosing hended hqueue
          rw [hcalling] at hlast
          cases hlast }
  · cases hstep

theorem step {e : Step} (hok : Orderly f e) (hstep : step f e = some f') : Invariant f' := by
  cases e with
  | call item blocking => exact h.call hstep
  | wake i => exact h.wake hstep
  | append => exact h.append hstep
  | send i => exact h.send hstep
  | acquire acquirer producer => exact h.acquire hstep
  | release producer abort => exact h.release hok hstep
  | close => exact h.close hok hstep
  | pop => exact h.pop hstep
  | callback => exact h.callback hstep
  | popWait => exact absurd hok id

end Invariant

/-- In every orderly run, each accepted item is delivered once and in order, and the function is
finalized once, when it is closing and empty. -/
theorem delivery {f : ThreadSafeFunction} (h : machine.ReachableIf Orderly f) : Delivery f := by
  refine Invariant.delivered (Machine.ReachableIf.invariant ?_ ?_ h)
  · rintro f ⟨maxQueueSize, holders, rfl⟩
    exact invariant_create maxQueueSize holders
  · intro f e f' hf hok hstep
    exact hf.step hok hstep

/-- One producer makes a call and gives its reference back before the item is delivered. -/
theorem delivery_released :
    ∃ f, machine.exec (create 1 [1]) [.call ⟨1, 7⟩ true, .append, .send 0, .release 1 false, .close,
        .pop, .callback] = some f ∧
      f.delivered = [some ⟨1, 7⟩] ∧ f.finalizers = 1 ∧ Delivery f := by
  have hrun : ∃ f, machine.exec (create 1 [1]) [.call ⟨1, 7⟩ true, .append, .send 0,
      .release 1 false, .close, .pop, .callback] = some f ∧
      f.delivered = [some ⟨1, 7⟩] ∧ f.finalizers = 1 ∧
      machine.GuardedRun Orderly (create 1 [1]) [.call ⟨1, 7⟩ true, .append, .send 0,
        .release 1 false, .close, .pop, .callback] f :=
    ⟨_, rfl, rfl, rfl, .cons trivial rfl <| .cons trivial rfl <| .cons trivial rfl <|
      .cons (fun habort => by cases habort) rfl <| .cons (List.cons_ne_nil _ _) rfl <|
      .cons trivial rfl <| .cons trivial rfl <| .nil _⟩
  obtain ⟨f, hexec, hdelivered, hfinalizers, hrun⟩ := hrun
  exact ⟨f, hexec, hdelivered, hfinalizers, delivery ⟨_, _, ⟨1, [1], rfl⟩, hrun⟩⟩

/-- Inside a promise wait the callback gets no data, and the item stays. -/
theorem wait_delivers_null : ¬ ∀ f, machine.Reachable f → Delivery f := by
  intro h
  have hrun : ∃ f, machine.exec (create 0 [1]) [.call ⟨1, 7⟩ false, .append, .send 0, .popWait] =
      some f ∧ f.accepted = [⟨1, 7⟩] ∧ f.delivered = [none] ∧ f.current = [] ∧
      f.queue = [⟨1, 7⟩] := ⟨_, rfl, rfl, rfl, rfl, rfl⟩
  obtain ⟨f, hexec, haccepted, hdelivered, hcurrent, hqueue⟩ := hrun
  have hitems := (h f (Machine.reachable_of_exec ⟨0, [1], rfl⟩ hexec)).items
  rw [haccepted, hdelivered, hcurrent, hqueue] at hitems
  exact absurd hitems (by decide)

end ThreadSafeFunction

end QuickBeam.Napi
