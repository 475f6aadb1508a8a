import QuickBeam.Lib.Binary64
import QuickBeam.Native.Timers

/-!
# Delays, ids and the order of timers (`timers.zig`, `worker.zig`)

The steps of `Timers` with the numbers scripts pass and the hash map that `fire_expired_timers`
goes through.  Delays and ids are doubles, which `@intFromFloat` takes to 64 bits without a check.
The map has any order, and may have another one in each pass.

An illegal conversion or an overflow ends the run.  `records` says for each pass under way, the
innermost first, what it found and did.
-/

namespace QuickBeam.Native

open QuickBeam.Lib

namespace TimerOrder

/-! ### Passes and clearings -/

/-- A pass of `fire_expired_timers`. -/
structure PassRecord where
  /-- The timers when the pass began. -/
  start : Timers
  /-- The ids of the buffer it has come to, with whether the callback was called. -/
  looked : List (ℕ × Bool)

/-- A call of `clearTimeout` or `clearInterval`. -/
structure ClearCall where
  id : Binary64
  /-- The id is one that was returned. -/
  known : Bool
  before : Timers
  after : Timers

structure State where
  base : Timers
  /-- What the calls of `setTimeout` and `setInterval` returned. -/
  handles : List Binary64
  clears : List ClearCall
  records : List PassRecord
  finished : List PassRecord
  /-- An undefined conversion or an overflow has happened. -/
  illegal : Bool

def initial : State := ⟨.initial, [], [], [], [], false⟩

/-! ### Delays and ids -/

def million : Double := ⟨false, 1000000 * Double.unitsPerOne, isMagnitude_of_le (by decide)⟩

def zero : Binary64 := .finite .zero

def one : Binary64 := .finite ⟨false, 1 * Double.unitsPerOne, isMagnitude_of_le (by decide)⟩

/-- The delay of `set_timer_common`, in milliseconds; the second argument may be missing. -/
def delayMs (delay : Option Binary64) (isInterval : Bool) : Binary64 :=
  let ms := delay.getD zero
  let ms := if ms.lt zero then zero else ms
  if isInterval && ms.lt one then one else ms

/-- `@intFromFloat(delay_ms * 1_000_000)`. -/
def toNs (ms : Binary64) : Option ℕ := (ms.mul (.finite million)).toUnsigned 64

def delayNs (delay : Option Binary64) (isInterval : Bool) : Option ℕ := toNs (delayMs delay isInterval)

def put (s : Timers) (delayNs : ℕ) (isInterval : Bool) : Timers :=
  { s with
    nextTimerId := s.nextTimerId + 1
    timers := Function.update s.timers s.nextTimerId
      (some ⟨s.now + delayNs, if isInterval then some delayNs else none⟩) }

/-- `min_deadline` after the loop over the values of the map. -/
def minDeadline (s : Timers) (order : List ℕ) : Option ℕ :=
  (order.filterMap s.timers).foldl
    (fun min entry => match min with
      | none => some entry.deadline
      | some d => if entry.deadline < d then some entry.deadline else some d) none

/-! ### Steps -/

inductive Event where
  | tick (ns : ℕ)
  | setTimer (delay : Option Binary64) (isInterval : Bool)
  /-- The argument may be missing. -/
  | clearTimer (id : Option Binary64)
  /-- `next_timer_timeout_ns`, with the order of the map. -/
  | timeout (order : List ℕ)
  /-- `fire_expired_timers` begins, with the order of the map. -/
  | fire (order : List ℕ)
  | call
  | ret
  | endPass
  | reset

def fail (s : State) : State := { s with illegal := true }

def setTimer (s : State) (delay : Option Binary64) (isInterval : Bool) : State :=
  match delayNs delay isInterval with
  | none => fail s
  | some ns =>
    if s.base.nextTimerId + 1 < 2 ^ 64 then
      { s with
        base := put s.base ns isInterval
        handles := s.handles ++ [Binary64.ofInt s.base.nextTimerId] }
    else fail s

def clearTimer (s : State) (id : Binary64) : State :=
  match id.toUnsigned 64 with
  | none => fail s
  | some k =>
    { s with
      base := s.base.clear k
      clears := s.clears ++ [⟨id, decide (id ∈ s.handles), s.base, s.base.clear k⟩] }

/-- `next_timer_timeout_ns`: the time that is left is cast to 64 bits. -/
def timeout (s : State) (order : List ℕ) : State :=
  match minDeadline s.base order with
  | none => s
  | some d => if d ≤ s.base.now then s else if d - s.base.now < 2 ^ 64 then s else fail s

def IsOrder (s : Timers) (order : List ℕ) : Prop :=
  order.Nodup ∧ (∀ id ∈ order, id ∈ s.ids) ∧ ∀ id ∈ s.ids, id ∈ order

instance (s : Timers) (order : List ℕ) : Decidable (IsOrder s order) :=
  inferInstanceAs (Decidable (_ ∧ _))

def buffer (s : Timers) (order : List ℕ) : List ℕ := (order.filter s.isExpired).take 64

def fire (s : State) (order : List ℕ) : State :=
  { s with
    base := { s.base with passes := ⟨buffer s.base order, none⟩ :: s.base.passes }
    records := ⟨s.base, []⟩ :: s.records }

/-- The innermost pass comes to the next id of its buffer. -/
def call (s : State) : Option State :=
  match s.base.passes, s.records with
  | ⟨id :: _, none⟩ :: _, record :: records =>
    s.base.call.map fun base => { s with
      base
      records := { record with looked := record.looked ++ [(id, (s.base.timers id).isSome)] } ::
        records }
  | _, _ => none

def endPass (s : State) : Option State :=
  match s.base.passes, s.records with
  | ⟨[], none⟩ :: passes, record :: records =>
    some { s with
      base := { s.base with passes }
      records
      finished := s.finished ++ [record] }
  | _, _ => none

def step (s : State) (event : Event) : Option State :=
  if s.illegal then none
  else match event with
    | .tick ns => some { s with base := { s.base with now := s.base.now + ns } }
    | .setTimer delay isInterval => some (setTimer s delay isInterval)
    | .clearTimer none => some s
    | .clearTimer (some id) => some (clearTimer s id)
    | .timeout order => if IsOrder s.base order then some (timeout s order) else none
    | .fire order => if IsOrder s.base order then some (fire s order) else none
    | .call => call s
    | .ret => s.base.ret.map fun base => { s with base }
    | .endPass => endPass s
    | .reset => s.base.reset.map fun base => { s with base }

def machine : Machine State Event where
  init s := s = initial
  step := step

/-! ### Timers in order -/

/-- The deadline of `a` is before that of `b`, or it is the same and `a` was set first. -/
def Earlier (s : Timers) (a b : ℕ) : Prop :=
  ∃ e ∈ s.timers a, ∃ f ∈ s.timers b,
    e.deadline < f.deadline ∨ e.deadline = f.deadline ∧ a < b

instance (s : Timers) (a b : ℕ) : Decidable (Earlier s a b) :=
  inferInstanceAs (Decidable (∃ e ∈ s.timers a, ∃ f ∈ s.timers b, _ ∨ _ ∧ _))

def PassRecord.called (r : PassRecord) : List ℕ := (r.looked.filter Prod.snd).map Prod.fst

/-- A pass calls callbacks of expired timers in order; when it calls one, all timers that expired
earlier have had their turn. -/
structure PassRecord.InOrder (r : PassRecord) : Prop where
  expired : ∀ id ∈ r.called, id ∈ r.start.expired
  sorted : r.called.Pairwise (Earlier r.start)
  fair : ∀ before id after, r.looked = before ++ (id, true) :: after →
    ∀ a ∈ r.start.expired, Earlier r.start a id → a ∈ before.map Prod.fst

structure FiresInOrder (s : State) : Prop where
  legal : s.illegal = false
  fresh : s.handles.Nodup
  unknown : ∀ c ∈ s.clears, c.known = false →
    c.after.timers = c.before.timers ∧ c.after.releases = c.before.releases
  ordered : ∀ r ∈ s.records ++ s.finished, r.InOrder

/-- A delay is negative, or its nanoseconds are rounded to less than `2 ^ 64`. -/
def ConvertibleDelay : Option Binary64 → Prop
  | none => True
  | some (.finite x) =>
    x.neg = true ∨ x.units * 1000000 < (2 ^ 64 - 2 ^ 10) * Double.unitsPerOne
  | some (.infinity neg) => neg = true
  | some .nan => False

instance : (delay : Option Binary64) → Decidable (ConvertibleDelay delay)
  | none => .isTrue trivial
  | some (.finite _) => inferInstanceAs (Decidable (_ ∨ _))
  | some (.infinity neg) => inferInstanceAs (Decidable (neg = true))
  | some .nan => .isFalse id

/-- The integer part of an id has 64 bits, and is the id itself or no timer's. -/
def ProperId (s : Timers) : Binary64 → Prop
  | .finite x => 0 ≤ x.trunc ∧ x.trunc < 2 ^ 64 ∧
    (x.units % Double.unitsPerOne = 0 ∨ s.timers x.trunc.toNat = none)
  | _ => False

instance (s : Timers) : (id : Binary64) → Decidable (ProperId s id)
  | .finite x => inferInstanceAs (Decidable (0 ≤ x.trunc ∧ x.trunc < 2 ^ 64 ∧
      (x.units % Double.unitsPerOne = 0 ∨ s.timers x.trunc.toNat = none)))
  | .infinity _ => .isFalse id
  | .nan => .isFalse id

/-- The map gives the expired timers in order as far as the buffer goes, and later ones behind. -/
def SortedMap (s : Timers) (order : List ℕ) : Prop :=
  (buffer s order).Pairwise (Earlier s) ∧
    ∀ a ∈ buffer s order, ∀ b ∈ (order.filter s.isExpired).drop 64, Earlier s a b

instance (s : Timers) (order : List ℕ) : Decidable (SortedMap s order) :=
  inferInstanceAs (Decidable (_ ∧ _))

/-- Delays and ids are converted, ids are exact as doubles, and the map is sorted. -/
def Proper (s : State) : Event → Prop
  | .setTimer delay _ => ConvertibleDelay delay ∧ s.base.nextTimerId ≤ 2 ^ 53
  | .clearTimer (some id) => ProperId s.base id
  | .fire order => SortedMap s.base order
  | _ => True

instance (s : State) : (event : Event) → Decidable (Proper s event)
  | .setTimer delay _ => inferInstanceAs (Decidable (ConvertibleDelay delay ∧ _))
  | .clearTimer (some id) => inferInstanceAs (Decidable (ProperId s.base id))
  | .fire order => inferInstanceAs (Decidable (SortedMap s.base order))
  | .clearTimer none | .tick _ | .timeout _ | .call | .ret | .endPass | .reset => .isTrue trivial

/-! ### Conversions -/

theorem toNs_fixed : (toNs zero).isSome ∧ (toNs (.finite .negZero)).isSome ∧ (toNs one).isSome ∧
    ¬ (toNs (.infinity false)).isSome ∧ zero.lt one ∧ (Binary64.finite .negZero).lt one ∧
    2 ^ (64 + 1074) - 2 ^ (64 + 1020) = (2 ^ 64 - 2 ^ 10) * Double.unitsPerOne := by
  decide +kernel

variable {x : Double}

theorem toNs_isSome_iff (hpos : x.neg = false) :
    (toNs (.finite x)).isSome ↔ x.units * 1000000 < (2 ^ 64 - 2 ^ 10) * Double.unitsPerOne := by
  obtain ⟨-, -, -, -, -, -, hbound⟩ := toNs_fixed
  have hsign : (x.neg ^^ million.neg) = false := by rw [hpos]; rfl
  have hmillion : x.units * million.units = x.units * 1000000 * Double.unitsPerOne :=
    (Nat.mul_assoc ..).symm
  rw [toNs, Binary64.toUnsigned_mul_isSome_iff (by decide) hsign, hbound, hmillion,
    Nat.mul_lt_mul_right Double.unitsPerOne_pos]

variable {ms : Binary64}

theorem interval_isSome (hlt : ms.lt one = true) (h : (toNs ms).isSome) (isInterval : Bool) :
    (toNs (if isInterval && ms.lt one then one else ms)).isSome := by
  obtain ⟨-, -, hone, -⟩ := toNs_fixed
  rw [hlt, Bool.and_true]
  cases isInterval with
  | true => exact hone
  | false => exact h

theorem delayNs_none (isInterval : Bool) : (delayNs none isInterval).isSome := by
  obtain ⟨hzero, -, -, -, hlt, -⟩ := toNs_fixed
  have hdef : delayMs none isInterval = if isInterval && zero.lt one then one else zero := rfl
  rw [delayNs, hdef]
  exact interval_isSome hlt hzero isInterval

theorem delayMs_some (ms : Binary64) (isInterval : Bool) : delayMs (some ms) isInterval =
    if ms.lt zero then delayMs none isInterval else if isInterval && ms.lt one then one else ms := by
  have hdef : delayMs (some ms) isInterval =
      if isInterval && (if ms.lt zero then zero else ms).lt one then one
        else if ms.lt zero then zero else ms := rfl
  rw [hdef]
  cases ms.lt zero <;> rfl

theorem delayNs_of_lt (h : ms.lt zero = true) (isInterval : Bool) :
    delayNs (some ms) isInterval = delayNs none isInterval := by
  rw [delayNs, delayMs_some, if_pos h, delayNs]

theorem delayNs_negative (hneg : x.neg = true) (isInterval : Bool) :
    (delayNs (some (.finite x)) isInterval).isSome := by
  by_cases hzero : x.units = 0
  · obtain ⟨neg, units, hm⟩ := x
    obtain rfl : neg = true := hneg
    obtain rfl : units = 0 := hzero
    obtain ⟨-, hsome, -, -, -, hlt, -⟩ := toNs_fixed
    rw [delayNs, delayMs_some, if_neg (by exact Bool.false_ne_true)]
    exact interval_isSome hlt hsome isInterval
  · have hlt : x.toUnits < Double.zero.toUnits := by
      show x.toUnits < 0
      rw [Double.toUnits, if_pos hneg]
      omega
    have hzero : (Binary64.finite x).lt zero = true := decide_eq_true hlt
    rw [delayNs_of_lt hzero]
    exact delayNs_none isInterval

theorem delayNs_positive (hpos : x.neg = false) (isInterval : Bool) :
    (delayNs (some (.finite x)) isInterval).isSome ↔
      x.units * 1000000 < (2 ^ 64 - 2 ^ 10) * Double.unitsPerOne := by
  have hunits : x.toUnits = x.units := by rw [Double.toUnits, hpos, if_neg Bool.false_ne_true]
  have hzero : (Binary64.finite x).lt zero = false := by
    refine decide_eq_false ?_
    rw [hunits]
    exact not_lt.2 (Int.natCast_nonneg _)
  rw [delayNs, delayMs_some, if_neg (by rw [hzero]; exact Bool.false_ne_true)]
  by_cases hone : (isInterval && (Binary64.finite x).lt one) = true
  · have hlt : x.units < 1 * Double.unitsPerOne := by
      have hlt := of_decide_eq_true (Bool.and_eq_true_iff.1 hone).2
      rw [hunits] at hlt
      exact Int.ofNat_lt.1 hlt
    rw [if_pos hone]
    refine ⟨fun _ => ?_, fun _ => toNs_fixed.2.2.1⟩
    calc x.units * 1000000 < 1 * Double.unitsPerOne * 1000000 := by omega
      _ ≤ (2 ^ 64 - 2 ^ 10) * Double.unitsPerOne := by omega
  · rw [if_neg hone]
    exact toNs_isSome_iff hpos

/-- **The delays that can be converted.** -/
theorem delayNs_isSome_iff (delay : Option Binary64) (isInterval : Bool) :
    (delayNs delay isInterval).isSome ↔ ConvertibleDelay delay := by
  match delay with
  | none => exact ⟨fun _ => trivial, fun _ => delayNs_none isInterval⟩
  | some .nan => cases isInterval <;> exact ⟨nofun, nofun⟩
  | some (.infinity true) =>
    rw [delayNs_of_lt rfl]
    exact ⟨fun _ => rfl, fun _ => delayNs_none isInterval⟩
  | some (.infinity false) =>
    have hms : delayMs (some (.infinity false)) isInterval = .infinity false := by
      cases isInterval <;> rfl
    rw [delayNs, hms]
    exact ⟨fun h => absurd h toNs_fixed.2.2.2.1, fun h => absurd h Bool.false_ne_true⟩
  | some (.finite x) =>
    cases hneg : x.neg with
    | true => exact ⟨fun _ => .inl hneg, fun _ => delayNs_negative hneg isInterval⟩
    | false =>
      rw [delayNs_positive hneg]
      refine ⟨.inr, fun h => h.resolve_left ?_⟩
      rw [hneg]
      exact Bool.false_ne_true

/-! ### Passes keep the order -/

theorem Earlier.asymm {s : Timers} {a b : ℕ} (h : Earlier s a b) : ¬ Earlier s b a := by
  rintro ⟨f', hb', e', ha', hback⟩
  obtain ⟨e, ha, f, hb, hlt⟩ := h
  obtain rfl := Option.mem_unique ha ha'
  obtain rfl := Option.mem_unique hb hb'
  omega

theorem clear_cases (s : Timers) (id : ℕ) : ∃ cleared, s.clear id =
    match s.timers id with
    | some _ => { s.remove id with cleared }
    | none => { s with cleared } := by
  refine ⟨if id < s.nextTimerId then s.cleared ++ [id] else s.cleared, ?_⟩
  have hclear : s.clear id = match s.timers id with
    | some _ => Timers.remove { s with cleared := if id < s.nextTimerId then s.cleared ++ [id] else s.cleared } id
    | none => { s with cleared := if id < s.nextTimerId then s.cleared ++ [id] else s.cleared } := rfl
  rw [hclear]
  cases s.timers id with
  | none => rfl
  | some entry => rfl

structure PassOk (pass : FirePass) (r : PassRecord) : Prop where
  expired : ∀ id ∈ r.looked.map Prod.fst ++ pass.remaining, id ∈ r.start.expired
  sorted : (r.looked.map Prod.fst ++ pass.remaining).Pairwise (Earlier r.start)
  rest : ∀ a ∈ r.start.expired, a ∈ r.looked.map Prod.fst ++ pass.remaining ∨
    ∀ b ∈ r.looked.map Prod.fst ++ pass.remaining, Earlier r.start b a

section Pass

variable {pass : FirePass} {r : PassRecord}

theorem PassOk.recordInOrder (h : PassOk pass r) : r.InOrder := by
  have hsub : r.called.Sublist (r.looked.map Prod.fst ++ pass.remaining) :=
    ((List.filter_sublist (l := r.looked)).map Prod.fst).trans (List.sublist_append_left ..)
  refine ⟨fun id hid => h.expired id (hsub.subset hid), h.sorted.sublist hsub, ?_⟩
  intro before id after hlooked a ha hearlier
  have hall : r.looked.map Prod.fst ++ pass.remaining =
      before.map Prod.fst ++ id :: (after.map Prod.fst ++ pass.remaining) := by
    rw [hlooked, List.map_append, List.map_cons, List.append_assoc, List.cons_append]
  have hsorted := h.sorted
  have hrest := h.rest a ha
  rw [hall] at hsorted hrest
  rcases hrest with hin | hlater
  · rcases List.mem_append.1 hin with hbefore | hbehind
    · exact hbefore
    · exfalso
      rcases List.mem_cons.1 hbehind with rfl | htail
      · exact hearlier.asymm hearlier
      · have hcons := (List.pairwise_append.1 hsorted).2.1
        exact hearlier.asymm ((List.pairwise_cons.1 hcons).1 a htail)
  · exact absurd (hlater id (List.mem_append_right _ List.mem_cons_self)) hearlier.asymm

variable {id : ℕ}

theorem PassOk.look {remaining : List ℕ} {calling calling' : Option (ℕ × Option ℕ)}
    (h : PassOk ⟨id :: remaining, calling⟩ r) (called : Bool) :
    PassOk ⟨remaining, calling'⟩ { r with looked := r.looked ++ [(id, called)] } := by
  have hall : (r.looked ++ [(id, called)]).map Prod.fst ++ remaining =
      r.looked.map Prod.fst ++ id :: remaining := by
    rw [List.map_append, List.append_assoc]
    rfl
  constructor
  · rw [hall]
    exact h.expired
  · rw [hall]
    exact h.sorted
  · rw [hall]
    exact h.rest

theorem PassOk.congr {pass' : FirePass} (h : PassOk pass r) (heq : pass'.remaining = pass.remaining) :
    PassOk pass' r := by
  constructor
  · rw [heq]
    exact h.expired
  · rw [heq]
    exact h.sorted
  · rw [heq]
    exact h.rest

variable {s : Timers}

theorem mem_expired : id ∈ s.expired ↔ id ∈ s.ids ∧ s.isExpired id = true := by
  unfold Timers.expired Timers.ids
  rw [List.mem_filter, List.mem_filter, List.mem_range]
  refine ⟨fun h => ⟨⟨h.1, ?_⟩, h.2⟩, fun h => ⟨h.1.1, h.2⟩⟩
  have hexpired := h.2
  unfold Timers.isExpired at hexpired
  cases hin : s.timers id with
  | none =>
    rw [hin] at hexpired
    cases hexpired
  | some entry => rfl

variable {order : List ℕ}

theorem passOk_fire (horder : IsOrder s order) (hsorted : SortedMap s order) :
    PassOk ⟨buffer s order, none⟩ ⟨s, []⟩ where
  expired id hid := by
    obtain ⟨hin, hexpired⟩ := List.mem_filter.1 (List.mem_of_mem_take hid)
    exact mem_expired.2 ⟨horder.2.1 id hin, hexpired⟩
  sorted := hsorted.1
  rest a ha := by
    obtain ⟨hid, hexpired⟩ := mem_expired.1 ha
    have hin : a ∈ order.filter s.isExpired := List.mem_filter.2 ⟨horder.2.2 a hid, hexpired⟩
    rw [← List.take_append_drop 64 (order.filter s.isExpired)] at hin
    rcases List.mem_append.1 hin with htake | hdrop
    · exact .inl htake
    · exact .inr fun b hb => hsorted.2 b hb a hdrop

end Pass

/-! ### The invariant -/

structure Invariant (s : State) : Prop where
  legal : s.illegal = false
  started : 1 ≤ s.base.nextTimerId ∧ s.base.nextTimerId ≤ 2 ^ 53 + 1
  fresh : s.handles.Nodup
  returned : ∀ h, h ∈ s.handles ↔ ∃ k, 1 ≤ k ∧ k < s.base.nextTimerId ∧ h = Binary64.ofInt k
  unknown : ∀ c ∈ s.clears, c.known = false →
    c.after.timers = c.before.timers ∧ c.after.releases = c.before.releases
  known : ∀ id entry, s.base.timers id = some entry → 1 ≤ id ∧ id < s.base.nextTimerId
  bounded : ∀ id entry, s.base.timers id = some entry → entry.deadline < s.base.now + 2 ^ 64 ∧
    ∀ iv, entry.intervalNs = some iv → iv < 2 ^ 64
  captured : ∀ pass ∈ s.base.passes, ∀ id iv, pass.calling = some (id, some iv) → iv < 2 ^ 64
  passes : List.Forall₂ PassOk s.base.passes s.records
  finished : ∀ r ∈ s.finished, r.InOrder

theorem inOrder_of_passes {passes : List FirePass} {records : List PassRecord}
    (h : List.Forall₂ PassOk passes records) : ∀ r ∈ records, r.InOrder := by
  induction h with
  | nil => exact nofun
  | cons hok _ ih => exact List.forall_mem_cons.2 ⟨hok.recordInOrder, ih⟩

theorem Invariant.toFiresInOrder {s : State} (h : Invariant s) : FiresInOrder s where
  __ := h
  ordered r hr := by
    rcases List.mem_append.1 hr with hopen | hfinished
    · exact inOrder_of_passes h.passes r hopen
    · exact h.finished r hfinished

section Step

variable {s s' : State} (h : Invariant s)
include h

theorem Invariant.of_entries (base : Timers) {records finished : List PassRecord}
    (hnext : base.nextTimerId = s.base.nextTimerId)
    (hentries : ∀ id e, base.timers id = some e → (∃ e', s.base.timers id = some e') ∧
      e.deadline < base.now + 2 ^ 64 ∧ ∀ iv, e.intervalNs = some iv → iv < 2 ^ 64)
    (hcaptured : ∀ pass ∈ base.passes, ∀ id iv, pass.calling = some (id, some iv) → iv < 2 ^ 64)
    (hpasses : List.Forall₂ PassOk base.passes records) (hfinished : ∀ r ∈ finished, r.InOrder) :
    Invariant { s with base, records, finished } :=
  { h with
    started := hnext ▸ h.started
    returned := by
      intro handle
      rw [h.returned, hnext]
    known := by
      intro id e hin
      obtain ⟨e', hold⟩ := (hentries id e hin).1
      rw [hnext]
      exact h.known id e' hold
    bounded := fun id e hin => (hentries id e hin).2
    captured := hcaptured
    passes := hpasses
    finished := hfinished }

variable {base : Timers}

theorem Invariant.same_entries (htimers : base.timers = s.base.timers)
    (hnow : s.base.now ≤ base.now) : ∀ id e, base.timers id = some e →
      (∃ e', s.base.timers id = some e') ∧ e.deadline < base.now + 2 ^ 64 ∧
        ∀ iv, e.intervalNs = some iv → iv < 2 ^ 64 := by
  intro id e hin
  rw [htimers] at hin
  obtain ⟨hdeadline, hinterval⟩ := h.bounded id e hin
  exact ⟨⟨e, hin⟩, by omega, hinterval⟩

theorem Invariant.setTimer {delay : Option Binary64} {isInterval : Bool}
    (hdelay : ConvertibleDelay delay) (hnext : s.base.nextTimerId ≤ 2 ^ 53) :
    Invariant (setTimer s delay isInterval) := by
  obtain ⟨ns, hns⟩ := Option.isSome_iff_exists.1 ((delayNs_isSome_iff delay isInterval).2 hdelay)
  have hlt : ns < 2 ^ 64 := Binary64.toUnsigned_lt hns
  have hstarted := h.started
  unfold TimerOrder.setTimer
  rw [hns]
  simp only
  rw [if_pos (by omega)]
  exact { h with
    started := by
      show 1 ≤ s.base.nextTimerId + 1 ∧ s.base.nextTimerId + 1 ≤ 2 ^ 53 + 1
      omega
    fresh := by
      refine List.nodup_append.2 ⟨h.fresh, List.nodup_singleton _, ?_⟩
      rintro handle hold _ hnew rfl
      obtain ⟨k, -, hk, heq⟩ := (h.returned handle).1 hold
      rw [List.mem_singleton.1 hnew] at heq
      have := Binary64.ofInt_inj hnext (by omega) heq
      omega
    returned := by
      intro handle
      rw [List.mem_append, List.mem_singleton, h.returned]
      constructor
      · rintro (⟨k, hone, hk, heq⟩ | heq)
        · exact ⟨k, hone, Nat.lt_succ_of_lt hk, heq⟩
        · exact ⟨_, hstarted.1, Nat.lt_succ_self _, heq⟩
      · rintro ⟨k, hone, hk, heq⟩
        rcases Nat.lt_or_eq_of_le (Nat.lt_succ_iff.1 hk) with hlt | rfl
        · exact .inl ⟨k, hone, hlt, heq⟩
        · exact .inr heq
    known := by
      intro id entry hin
      show 1 ≤ id ∧ id < s.base.nextTimerId + 1
      by_cases heq : id = s.base.nextTimerId
      · omega
      · have hin' : s.base.timers id = some entry := (Function.update_of_ne heq ..).symm.trans hin
        have := h.known id entry hin'
        omega
    bounded := by
      intro id entry hin
      by_cases heq : id = s.base.nextTimerId
      · subst heq
        rw [← Option.some.inj ((Function.update_self (s.base.nextTimerId) _ _).symm.trans hin)]
        refine ⟨Nat.add_lt_add_left hlt _, fun iv hiv => ?_⟩
        cases isInterval with
        | true => exact Option.some.inj hiv ▸ hlt
        | false => cases hiv
      · have hin' : s.base.timers id = some entry := (Function.update_of_ne heq ..).symm.trans hin
        exact h.bounded id entry hin' }

theorem Invariant.clearTimer {id : Binary64} (hid : ProperId s.base id) :
    Invariant (clearTimer s id) := by
  cases id with
  | nan => exact hid.elim
  | infinity neg => exact hid.elim
  | finite x =>
    obtain ⟨hzero, hlt, hproper⟩ := hid
    have hunsigned : (Binary64.finite x).toUnsigned 64 = some x.trunc.toNat := if_pos ⟨hzero, hlt⟩
    unfold TimerOrder.clearTimer
    rw [hunsigned]
    obtain ⟨cleared, hclear⟩ := clear_cases s.base x.trunc.toNat
    dsimp only
    rw [hclear]
    cases hin : s.base.timers x.trunc.toNat with
    | none =>
      have hbase := h.of_entries { s.base with cleared } rfl (h.same_entries rfl le_rfl)
        h.captured h.passes h.finished
      exact { hbase with
        unknown := List.forall_mem_append.2 ⟨h.unknown, List.forall_mem_singleton.2 fun _ => ⟨rfl, rfl⟩⟩ }
    | some entry =>
      have hbase := h.of_entries { s.base.remove x.trunc.toNat with cleared } rfl
        (fun j e hj => by
          have hold := (Timers.of_remove_timers hj).2
          exact ⟨⟨e, hold⟩, h.bounded j e hold⟩) h.captured h.passes h.finished
      refine { hbase with
        unknown := List.forall_mem_append.2 ⟨h.unknown, List.forall_mem_singleton.2 fun hknown => ?_⟩ }
      -- The id is the handle of a timer.
      exfalso
      refine of_decide_eq_false hknown ((h.returned _).2 ?_)
      obtain ⟨hone, hbelow⟩ := h.known _ _ hin
      refine ⟨_, hone, hbelow, ?_⟩
      have hwhole := hproper.resolve_right (by rw [hin]; exact Option.some_ne_none _)
      have hstarted := h.started
      rw [Binary64.ofInt_of_le (by omega)]
      exact congrArg _ (Double.eq_of_trunc hone hwhole)

variable {order : List ℕ}

omit h in
theorem minDeadline_mem {d : ℕ} (hmin : minDeadline s.base order = some d) :
    ∃ id entry, s.base.timers id = some entry ∧ entry.deadline = d := by
  have hfold : ∀ (entries : List TimerEntry) (acc : Option ℕ),
      entries.foldl (fun min entry => match min with
        | none => some entry.deadline
        | some m => if entry.deadline < m then some entry.deadline else some m) acc = some d →
      acc = some d ∨ ∃ entry ∈ entries, entry.deadline = d := by
    intro entries
    induction entries with
    | nil => exact fun acc hacc => .inl hacc
    | cons entry entries ih =>
      intro acc hacc
      rcases ih _ hacc with hnew | ⟨e, he, hdeadline⟩
      · cases acc with
        | none => exact .inr ⟨entry, List.mem_cons_self, Option.some.inj hnew⟩
        | some m =>
          dsimp only at hnew
          split at hnew
          · exact .inr ⟨entry, List.mem_cons_self, Option.some.inj hnew⟩
          · exact .inl hnew
      · exact .inr ⟨e, List.mem_cons_of_mem _ he, hdeadline⟩
  rcases hfold _ _ hmin with hnone | ⟨entry, hentry, hdeadline⟩
  · cases hnone
  · obtain ⟨id, -, hin⟩ := List.mem_filterMap.1 hentry
    exact ⟨id, entry, hin, hdeadline⟩

theorem Invariant.timeout (order : List ℕ) : timeout s order = s := by
  unfold TimerOrder.timeout
  cases hmin : minDeadline s.base order with
  | none => rfl
  | some d =>
    obtain ⟨id, entry, hin, rfl⟩ := minDeadline_mem hmin
    have hbound := (h.bounded id entry hin).1
    by_cases hpast : entry.deadline ≤ s.base.now
    · exact if_pos hpast
    · exact (if_neg hpast).trans (if_pos (by omega))

theorem Invariant.fire (horder : IsOrder s.base order) (hsorted : SortedMap s.base order) :
    Invariant (fire s order) := by
  refine h.of_entries _ rfl (h.same_entries rfl le_rfl) (List.forall_mem_cons.2 ⟨nofun, h.captured⟩) ?_
    h.finished
  exact .cons (passOk_fire horder hsorted) h.passes

theorem Invariant.call (hstep : call s = some s') : Invariant s' := by
  unfold TimerOrder.call at hstep
  split at hstep
  swap
  · cases hstep
  rename_i id remaining passes record records hpasses hrecords
  obtain ⟨base, hbase, rfl⟩ := Option.map_eq_some_iff.1 hstep
  have hcaptured := h.captured
  have hok := h.passes
  rw [hpasses] at hcaptured
  rw [hpasses, hrecords] at hok
  obtain ⟨hpass, hrest⟩ := List.forall₂_cons.1 hok
  unfold Timers.call at hbase
  rw [hpasses] at hbase
  dsimp only at hbase
  cases hin : s.base.timers id with
  | none =>
    rw [hin] at hbase
    cases hbase
    exact h.of_entries _ rfl (h.same_entries rfl le_rfl)
      (List.forall_mem_cons.2 ⟨nofun, (List.forall_mem_cons.1 hcaptured).2⟩)
      (.cons (hpass.look false) hrest) h.finished
  | some entry =>
    rw [hin] at hbase
    cases hbase
    refine h.of_entries _ rfl (h.same_entries rfl le_rfl) (List.forall_mem_cons.2 ⟨?_, ?_⟩)
      (.cons (hpass.look true) hrest) h.finished
    · intro k iv hcalling
      injection hcalling with hpair
      exact (h.bounded id entry hin).2 iv (Prod.mk.inj hpair).2
    · exact (List.forall_mem_cons.1 hcaptured).2

theorem Invariant.ret {base : Timers} (hstep : s.base.ret = some base) : Invariant { s with base } := by
  unfold Timers.ret at hstep
  split at hstep
  swap
  · cases hstep
  rename_i remaining id interval passes hpasses
  have hcaptured := h.captured
  rw [hpasses] at hcaptured
  obtain ⟨hcalling, hother⟩ := List.forall_mem_cons.1 hcaptured
  have hidle : ∀ pass ∈ (⟨remaining, none⟩ : FirePass) :: passes, ∀ k iv,
      pass.calling = some (k, some iv) → iv < 2 ^ 64 := List.forall_mem_cons.2 ⟨nofun, hother⟩
  have hok : List.Forall₂ PassOk (⟨remaining, none⟩ :: passes) s.records := by
    have hold := h.passes
    rw [hpasses] at hold
    obtain ⟨record, records, hpass, hrest, hrecords⟩ := List.forall₂_cons_left_iff.1 hold
    rw [hrecords]
    exact .cons (hpass.congr rfl) hrest
  split at hstep
  · rename_i entry iv hin
    cases hstep
    refine h.of_entries _ rfl (fun j e hj => ?_) hidle hok h.finished
    by_cases heq : j = id
    · subst heq
      rw [← Option.some.inj ((Function.update_self j _ _).symm.trans hj)]
      exact ⟨⟨entry, hin⟩, Nat.add_lt_add_left (hcalling j iv rfl) _, (h.bounded j entry hin).2⟩
    · have hold : s.base.timers j = some e := (Function.update_of_ne heq ..).symm.trans hj
      exact ⟨⟨e, hold⟩, h.bounded j e hold⟩
  · cases hstep
    refine h.of_entries _ rfl (fun j e hj => ?_) hidle hok h.finished
    have hold : s.base.timers j = some e := (Timers.of_remove_timers hj).2
    exact ⟨⟨e, hold⟩, h.bounded j e hold⟩
  · cases hstep
    exact h.of_entries _ rfl (h.same_entries rfl le_rfl) hidle hok h.finished

theorem Invariant.endPass (hstep : endPass s = some s') : Invariant s' := by
  unfold TimerOrder.endPass at hstep
  split at hstep
  swap
  · cases hstep
  rename_i passes record records hpasses hrecords
  cases hstep
  have hcaptured := h.captured
  have hok := h.passes
  rw [hpasses] at hcaptured
  rw [hpasses, hrecords] at hok
  obtain ⟨hpass, hrest⟩ := List.forall₂_cons.1 hok
  exact h.of_entries _ rfl (h.same_entries rfl le_rfl) (List.forall_mem_cons.1 hcaptured).2 hrest
    (List.forall_mem_append.2 ⟨h.finished, List.forall_mem_singleton.2 hpass.recordInOrder⟩)

theorem Invariant.reset (hstep : s.base.reset = some base) : Invariant { s with base } := by
  unfold Timers.reset at hstep
  split at hstep
  swap
  · cases hstep
  cases hstep
  exact h.of_entries _ rfl nofun h.captured h.passes h.finished

theorem Invariant.step {event : Event} (hproper : Proper s event) (hstep : step s event = some s') :
    Invariant s' := by
  unfold TimerOrder.step at hstep
  rw [if_neg (by rw [h.legal]; exact Bool.false_ne_true)] at hstep
  cases event with
  | tick ns =>
    cases hstep
    exact h.of_entries { s.base with now := s.base.now + ns } rfl
      (h.same_entries rfl (Nat.le_add_right ..)) h.captured h.passes h.finished
  | setTimer delay isInterval =>
    cases hstep
    exact h.setTimer hproper.1 hproper.2
  | clearTimer id =>
    cases id with
    | none =>
      cases hstep
      exact h
    | some id =>
      cases hstep
      exact h.clearTimer hproper
  | timeout order =>
    dsimp only at hstep
    split at hstep
    · cases hstep
      rw [h.timeout]
      exact h
    · cases hstep
  | fire order =>
    dsimp only at hstep
    split at hstep
    · rename_i horder
      cases hstep
      exact h.fire horder hproper
    · cases hstep
  | call => exact h.call hstep
  | ret =>
    obtain ⟨base, hbase, rfl⟩ := Option.map_eq_some_iff.1 hstep
    exact h.ret hbase
  | endPass => exact h.endPass hstep
  | reset =>
    obtain ⟨base, hbase, rfl⟩ := Option.map_eq_some_iff.1 hstep
    exact h.reset hbase

end Step

theorem invariant_initial : Invariant initial where
  legal := rfl
  started := ⟨le_rfl, by decide⟩
  fresh := .nil
  returned handle := by
    refine ⟨fun hin => absurd hin List.not_mem_nil, ?_⟩
    rintro ⟨k, hone, hlt, -⟩
    exact absurd hlt (not_lt.2 hone)
  unknown := List.forall_mem_nil _
  known := nofun
  bounded := nofun
  captured := List.forall_mem_nil _
  passes := .nil
  finished := List.forall_mem_nil _

/-- **In every run with proper delays and ids whose passes find the map sorted, timers fire in
order.** -/
theorem firesInOrder {s : State} (h : machine.ReachableIf Proper s) : FiresInOrder s := by
  refine Invariant.toFiresInOrder (Machine.ReachableIf.invariant ?_ ?_ h)
  · rintro s rfl
    exact invariant_initial
  · intro s event s' hs hproper hstep
    exact hs.step hproper hstep

/-- Timeouts of 20 and of 10 milliseconds expire together. -/
def twoTimeouts (order : List ℕ) : List Event :=
  [.setTimer (some (Binary64.ofInt 20)) false, .setTimer (some (Binary64.ofInt 10)) false,
    .tick 20000000, .timeout order, .fire order, .call, .ret, .call, .ret]

/-- The map gives the shorter one first. -/
theorem firesInOrder_twoTimeouts :
    ∃ s, machine.execIf (fun s event => decide (Proper s event)) initial
        (twoTimeouts [2, 1] ++ [.endPass, .clearTimer (some (Binary64.ofInt 3))]) = some s ∧
      s.finished.map PassRecord.called = [[2, 1]] ∧ FiresInOrder s := by
  have hrun : (machine.execIf (fun s event => decide (Proper s event)) initial
      (twoTimeouts [2, 1] ++ [.endPass, .clearTimer (some (Binary64.ofInt 3))])).map
        (fun s => s.finished.map PassRecord.called) = some [[2, 1]] := by decide +kernel
  obtain ⟨s, hexec, hcalled⟩ := Option.map_eq_some_iff.1 hrun
  have hguarded := Machine.guardedRun_of_execIf hexec
  simp only [decide_eq_true_eq] at hguarded
  exact ⟨s, hexec, hcalled, firesInOrder ⟨_, _, rfl, hguarded⟩⟩

/-- A delay that is not a number is converted; and a map that gives the longer one first has its
callback called first. -/
theorem nan_delay_and_unsorted_map :
    ¬ (∀ s, machine.Reachable s → s.illegal = false) ∧
      ¬ ∀ s, machine.Reachable s → ∀ r ∈ s.records, r.InOrder := by
  constructor
  · intro h
    have hrun : ∃ s, machine.exec initial [.setTimer (some .nan) false] = some s ∧
        s.illegal = true := ⟨_, rfl, rfl⟩
    obtain ⟨s, hexec, hillegal⟩ := hrun
    have hlegal := h s (Machine.reachable_of_exec rfl hexec)
    rw [hillegal] at hlegal
    cases hlegal
  · intro h
    have hrun : (machine.exec initial (twoTimeouts [1, 2])).map
        (fun s => decide (∀ r ∈ s.records, r.called.Pairwise (Earlier r.start))) = some false := by
      decide +kernel
    obtain ⟨s, hexec, hunsorted⟩ := Option.map_eq_some_iff.1 hrun
    refine of_decide_eq_false hunsorted fun r hr => ?_
    exact (h s (Machine.reachable_of_exec rfl hexec) r hr).sorted

end TimerOrder

end QuickBeam.Native
