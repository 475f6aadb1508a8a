import QuickBeam.Lib.Assoc
import QuickBeam.Vm.Program.Function

/-!
# The operand-stack analysis (`bytecode/verifier/stack.ex`)

The analysis walks the instructions a function can reach with a worklist.  A level is the stack
depth at the entry of an instruction together with the catch that is active there; the level of
an instruction is fixed when it is first reached, and reaching it with another level is an
error.  The main result is `analyze_sound`: in an accepted function every instruction with a
level has enough entries for what it pops, and every transition out of it ends at an instruction
with the level of that transition.
-/

namespace QuickBeam.Vm.Bytecode.Verifier.Stack

open QuickBeam.Lib QuickBeam.Vm.Program

/-! ### Definitions -/

/-- The groups of opcode names in the guards of `transitions`. -/
inductive Kind where
  | terminal | goto | conditional | gosub | withOne | withTwo | withPutVar | catch_
  | iteratorStart | leave | nipCatch | other
deriving DecidableEq

/-- `@terminal_ops`, `@goto_ops` and so on. -/
def kind : Op → Kind
  | .tailCall | .tailCallMethod | .return_ | .returnUndef | .returnAsync | .throw_ | .throwError
  | .ret => .terminal
  | .goto | .goto8 | .goto16 => .goto
  | .ifTrue | .ifTrue8 | .ifFalse | .ifFalse8 => .conditional
  | .gosub => .gosub
  | .withGetVar | .withDeleteVar => .withOne
  | .withMakeRef | .withGetRef | .withGetRefUndef => .withTwo
  | .withPutVar => .withPutVar
  | .catch_ => .catch_
  | .forOfStart | .forAwaitOfStart => .iteratorStart
  | .drop | .nip | .nip1 | .iteratorClose => .leave
  | .nipCatch => .nipCatch
  | _ => .other

/-- The depth at the entry of an instruction and the active catch. -/
abbrev Level := ℤ × Option ℕ

abbrev Levels := Assoc ℕ Level

/-- The reasons of a rejection; `badMatch` is a pattern match that fails in the source, and
`outOfFuel` never happens (`walk_fuel`). -/
inductive StackError where
  | stackSizeMismatch (declared : ℕ)
  | emptyInstructionStream
  | stackUnderflow (index depth pops : ℤ)
  | missingCatch (index : ℕ)
  | inconsistentStack (index : ℤ) (existing found : Level)
  | invalidFallthrough (index : ℤ)
  | badMatch (index : ℕ)
  | outOfFuel
deriving DecidableEq

/-- A transition: the instruction it leads to and the level there. -/
structure Transition where
  index : ℤ
  depth : ℤ
  catchIndex : Option ℕ

structure State where
  levels : Levels
  queue : List ℕ
  maximum : ℤ

def fetch (f : FunctionHeader) (index : ℕ) : Option (Op × Row × List Operand) :=
  match f.instructions[index]? with
  | some (opcode, operands) => (info opcode).map fun (name, row) => (name, row, operands)
  | none => none

def opcodeName (f : FunctionHeader) (index : ℕ) : Option Op :=
  (fetch f index).map fun (name, _, _) => name

/-- The first operand of a call that pops as many entries as it says. -/
def variablePops (format : Format) (operands : List Operand) : ℤ :=
  if format ∈ [.npop, .npopU16, .npopx] then
    match operands with
    | .int count :: _ => count
    | _ => 0
  else 0

/-- A label operand; an atom is no index of an instruction. -/
def label : Operand → ℤ
  | .int target => target
  | _ => -1

def catchLevel (name : Op) (depth : ℤ) : ℤ :=
  if name = .drop then depth
  else if name = .iteratorClose then depth + 2
  else depth - 1

/-- Entries that a catch or an iterator start leaves below the value of `nip_catch`. -/
def extra (f : FunctionHeader) (catchIndex : ℕ) : ℤ :=
  if opcodeName f catchIndex = some .catch_ then 1 else 2

def maybeLeaveCatch (f : FunctionHeader) (levels : Levels) (level : ℤ) :
    Option ℕ → Option (Option ℕ)
  | none => some none
  | some catchIndex =>
      match levels.get? catchIndex with
      | none => none
      | some (entryDepth, parent) =>
          if level = entryDepth + (extra f catchIndex - 1) then some parent
          else some (some catchIndex)

def next (index : ℕ) (depth : ℤ) (catchIndex : Option ℕ) : Transition :=
  ⟨index + 1, depth, catchIndex⟩

def transitions (f : FunctionHeader) (levels : Levels) (name : Op) (operands : List Operand)
    (index : ℕ) (depth : ℤ) (catchIndex : Option ℕ) : Except StackError (List Transition) :=
  match kind name, operands with
  | .terminal, _ => .ok []
  | .goto, target :: _ => .ok [⟨label target, depth, catchIndex⟩]
  | .conditional, target :: _ =>
      .ok [⟨label target, depth, catchIndex⟩, next index depth catchIndex]
  | .gosub, [target] =>
      .ok [⟨label target, depth + 1, catchIndex⟩, next index depth catchIndex]
  | .withOne, _ :: target :: _ =>
      .ok [⟨label target, depth + 1, catchIndex⟩, next index depth catchIndex]
  | .withTwo, _ :: target :: _ =>
      .ok [⟨label target, depth + 2, catchIndex⟩, next index depth catchIndex]
  | .withPutVar, _ :: target :: _ =>
      if 0 < depth then .ok [⟨label target, depth - 1, catchIndex⟩, next index depth catchIndex]
      else .error (.stackUnderflow index depth (depth + 1))
  | .withPutVar, _ => .error (.stackUnderflow index depth (depth + 1))
  | .catch_, [target] =>
      .ok [⟨label target, depth, catchIndex⟩, next index depth (some index)]
  | .iteratorStart, _ => .ok [next index depth (some index)]
  | .leave, _ =>
      match maybeLeaveCatch f levels (catchLevel name depth) catchIndex with
      | some remaining => .ok [next index depth remaining]
      | none => .error (.badMatch index)
  | .nipCatch, _ =>
      match catchIndex with
      | none => .error (.missingCatch index)
      | some marker =>
          match levels.get? marker with
          | some (entryDepth, parent) => .ok [next index (entryDepth + extra f marker) parent]
          | none => .error (.badMatch index)
  | _, _ => .ok [next index depth catchIndex]

def enqueue (f : FunctionHeader) (s : State) (t : Transition) : Except StackError State :=
  if 0 ≤ t.index ∧ t.index < f.instructions.length ∧ 0 ≤ t.depth then
    match s.levels.get? t.index.toNat with
    | none => .ok
        { levels := s.levels.put t.index.toNat (t.depth, t.catchIndex)
          queue := t.index.toNat :: s.queue
          maximum := max s.maximum t.depth }
    | some level =>
        if level = (t.depth, t.catchIndex) then .ok s
        else .error (.inconsistentStack t.index level (t.depth, t.catchIndex))
  else if t.depth < 0 then .error (.stackUnderflow t.index t.depth 0)
  else .error (.invalidFallthrough t.index)

def enqueueAll (f : FunctionHeader) : State → List Transition → Except StackError State
  | s, [] => .ok s
  | s, t :: ts =>
      match enqueue f s t with
      | .ok s => enqueueAll f s ts
      | .error e => .error e

def pops (row : Row) (operands : List Operand) : ℤ :=
  row.pops + variablePops row.format operands

def visit (f : FunctionHeader) (index : ℕ) (s : State) : Except StackError State :=
  match s.levels.get? index, fetch f index with
  | some (depth, catchIndex), some (name, row, operands) =>
      if depth < pops row operands then
        .error (.stackUnderflow index depth (pops row operands))
      else
        let nextDepth := depth + row.pushes - pops row operands
        let s := { s with maximum := max s.maximum nextDepth }
        match transitions f s.levels name operands index nextDepth catchIndex with
        | .ok ts => enqueueAll f s ts
        | .error e => .error e
  | _, _ => .error (.badMatch index)

/-- The worklist, one unit of fuel a round. -/
def walk (f : FunctionHeader) : ℕ → State → Except StackError State
  | fuel, s =>
      match s.queue with
      | [] => .ok s
      | index :: queue =>
          match fuel with
          | 0 => .error .outOfFuel
          | fuel + 1 =>
              match visit f index { s with queue := queue } with
              | .ok s => walk f fuel s
              | .error e => .error e

structure Analysis where
  levels : Levels
  maximum : ℤ

def initial : State := { levels := (∅ : Levels).put 0 (0, none), queue := [0], maximum := 0 }

def analyze (f : FunctionHeader) : Except StackError Analysis :=
  if f.instructions = [] then .error .emptyInstructionStream
  else
    match walk f f.instructions.length initial with
    | .ok s => .ok { levels := s.levels, maximum := s.maximum }
    | .error e => .error e

def verify (f : FunctionHeader) : Except StackError Unit :=
  match analyze f with
  | .error e => .error e
  | .ok analysis =>
      if analysis.maximum = f.stackSize then .ok ()
      else .error (.stackSizeMismatch f.stackSize)

/-! ### Levels only grow -/

def Extends (a b : Levels) : Prop := ∀ index level, a.get? index = some level →
  b.get? index = some level

theorem Extends.refl (a : Levels) : Extends a a := fun _ _ h => h

theorem Extends.trans {a b c : Levels} (hab : Extends a b) (hbc : Extends b c) : Extends a c :=
  fun index level h => hbc index level (hab index level h)

variable {f : FunctionHeader}

theorem maybeLeaveCatch_mono {a b : Levels} (h : Extends a b) {level : ℤ}
    {catchIndex remaining : Option ℕ}
    (hok : maybeLeaveCatch f a level catchIndex = some remaining) :
    maybeLeaveCatch f b level catchIndex = some remaining := by
  cases catchIndex with
  | none => exact hok
  | some marker =>
    simp only [maybeLeaveCatch] at hok ⊢
    cases ha : a.get? marker with
    | none => simp [ha] at hok
    | some entry => rw [h marker entry ha]; rw [ha] at hok; exact hok

variable {index : ℕ}

theorem transitions_mono {a b : Levels} (h : Extends a b) {name : Op} {operands : List Operand}
    {depth : ℤ} {catchIndex : Option ℕ} {ts : List Transition}
    (hok : transitions f a name operands index depth catchIndex = .ok ts) :
    transitions f b name operands index depth catchIndex = .ok ts := by
  cases hk : kind name with
  | leave =>
    cases hm : maybeLeaveCatch f a (catchLevel name depth) catchIndex with
    | none => simp [transitions, hk, hm] at hok
    | some remaining =>
      simpa [transitions, hk, hm, maybeLeaveCatch_mono h hm] using hok
  | nipCatch =>
    cases catchIndex with
    | none => simp [transitions, hk] at hok
    | some marker =>
      cases hg : a.get? marker with
      | none => simp [transitions, hk, hg] at hok
      | some entry => simpa [transitions, hk, hg, h marker entry hg] using hok
  | _ =>
    rw [← hok]
    rcases operands with _ | ⟨x, _ | ⟨y, ys⟩⟩ <;> simp only [transitions, hk]

/-! ### What the analysis has settled -/

structure Reached (f : FunctionHeader) (s : State) (t : Transition) : Prop where
  nonneg : 0 ≤ t.index
  inRange : t.index.toNat < f.instructions.length
  level : s.levels.get? t.index.toNat = some (t.depth, t.catchIndex)
  depthNonneg : 0 ≤ t.depth
  depthLe : t.depth ≤ s.maximum

/-- An instruction with a level pops no more than is there, stays within the maximum, and its
transitions are reached. -/
def Settled (f : FunctionHeader) (s : State) (index : ℕ) (level : Level) : Prop :=
  ∃ name row operands ts,
    fetch f index = some (name, row, operands) ∧
    pops row operands ≤ level.1 ∧
    level.1 + row.pushes - pops row operands ≤ s.maximum ∧
    transitions f s.levels name operands index (level.1 + row.pushes - pops row operands) level.2 =
      .ok ts ∧
    ∀ t ∈ ts, Reached f s t

/-- The state of the walk `s` is followed by `s'`. -/
structure Grows (s s' : State) : Prop where
  levels : Extends s.levels s'.levels
  maximum : s.maximum ≤ s'.maximum
  queue : ∀ index ∈ s.queue, index ∈ s'.queue

theorem Grows.refl (s : State) : Grows s s := ⟨.refl _, Int.le_refl _, fun _ h => h⟩

theorem Grows.trans {a b c : State} (hab : Grows a b) (hbc : Grows b c) : Grows a c where
  levels := hab.levels.trans hbc.levels
  maximum := hab.maximum.trans hbc.maximum
  queue index h := hbc.queue index (hab.queue index h)

variable {s s' : State} {t : Transition}

theorem Reached.grows (h : Reached f s t) (hg : Grows s s') : Reached f s' t where
  __ := h
  level := hg.levels _ _ h.level
  depthLe := h.depthLe.trans hg.maximum

theorem Settled.grows {level : Level} (h : Settled f s index level) (hg : Grows s s') :
    Settled f s' index level := by
  obtain ⟨name, row, operands, ts, hf, hp, hm, ht, hr⟩ := h
  exact ⟨name, row, operands, ts, hf, hp, hm.trans hg.maximum, transitions_mono hg.levels ht,
    fun t hmem => (hr t hmem).grows hg⟩

/-- What holds between two rounds: every level is in range, and it is settled or waits in the
queue. -/
structure Progress (f : FunctionHeader) (s : State) : Prop where
  entry : s.levels.get? 0 = some (0, none)
  bounded : ∀ index level, s.levels.get? index = some level →
    index < f.instructions.length ∧ 0 ≤ level.1 ∧ level.1 ≤ s.maximum
  settled : ∀ index level, s.levels.get? index = some level →
    index ∈ s.queue ∨ Settled f s index level

/-! ### One round -/

theorem enqueue_cases (h : enqueue f s t = .ok s') :
    0 ≤ t.index ∧ t.index < f.instructions.length ∧ 0 ≤ t.depth ∧
    (s.levels.get? t.index.toNat = none ∧
        s' = { levels := s.levels.put t.index.toNat (t.depth, t.catchIndex)
               queue := t.index.toNat :: s.queue
               maximum := max s.maximum t.depth } ∨
      s.levels.get? t.index.toNat = some (t.depth, t.catchIndex) ∧ s' = s) := by
  unfold enqueue at h
  split at h
  case isTrue hc =>
    refine ⟨hc.1, hc.2.1, hc.2.2, ?_⟩
    split at h
    case h_1 hg =>
      cases h
      exact .inl ⟨hg, rfl⟩
    case h_2 level hg =>
      split at h
      case isTrue hl =>
        cases h
        exact .inr ⟨by rw [hg, hl], rfl⟩
      case isFalse => cases h
  case isFalse =>
    split at h <;> cases h

theorem enqueue_grows (h : enqueue f s t = .ok s') : Grows s s' := by
  obtain ⟨-, -, -, ⟨hnew, rfl⟩ | ⟨-, rfl⟩⟩ := enqueue_cases h
  · refine ⟨fun index level hl => ?_, le_max_left _ _, fun index hm => List.mem_cons_of_mem _ hm⟩
    show (s.levels.put _ _).get? index = some level
    rw [Assoc.get?_put_ne _ _ (by rintro rfl; simp [hnew] at hl)]
    exact hl
  · exact .refl _

/-- What a round adds to the walk: the new levels wait in the queue. -/
structure Adds (f : FunctionHeader) (s s' : State) : Prop where
  grows : Grows s s'
  bounded : ∀ index level, s'.levels.get? index = some level →
    s.levels.get? index = some level ∨
      index ∈ s'.queue ∧ index < f.instructions.length ∧ 0 ≤ level.1 ∧ level.1 ≤ s'.maximum
  fuel : s'.queue.length + s.levels.size = s.queue.length + s'.levels.size

theorem Adds.refl (f : FunctionHeader) (s : State) : Adds f s s :=
  ⟨.refl s, fun _ _ h => .inl h, rfl⟩

theorem Adds.trans {a b c : State} (hab : Adds f a b) (hbc : Adds f b c) : Adds f a c where
  grows := hab.grows.trans hbc.grows
  bounded index level h := by
    rcases hbc.bounded index level h with hb | hb
    · rcases hab.bounded index level hb with ha | ⟨hq, hi, hn, hm⟩
      · exact .inl ha
      · exact .inr ⟨hbc.grows.queue _ hq, hi, hn, hm.trans hbc.grows.maximum⟩
    · exact .inr hb
  fuel := by
    have h₁ := hab.fuel
    have h₂ := hbc.fuel
    omega

theorem size_put_new (m : Levels) (index : ℕ) (level : Level) (h : m.get? index = none) :
    (m.put index level).size = m.size + 1 := by
  rw [Assoc.size_eq_sumBy, Assoc.size_eq_sumBy, Assoc.sumBy_put_new _ _ h, Nat.add_comm]

def Below (s : State) : Prop := ∀ index level, s.levels.get? index = some level →
  level.1 ≤ s.maximum

theorem Adds.below (h : Adds f s s') (hb : Below s) : Below s' := by
  intro index level hl
  rcases h.bounded index level hl with hold | ⟨-, -, -, hle⟩
  · exact (hb index level hold).trans h.grows.maximum
  · exact hle

theorem enqueue_adds (hb : Below s) (h : enqueue f s t = .ok s') :
    Adds f s s' ∧ Reached f s' t := by
  have hg := enqueue_grows h
  obtain ⟨hi, hr, hd, ⟨hnew, rfl⟩ | ⟨hold, rfl⟩⟩ := enqueue_cases h
  · have hput : (s.levels.put t.index.toNat (t.depth, t.catchIndex)).get? t.index.toNat =
        some (t.depth, t.catchIndex) := Assoc.get?_put _ _ _
    refine ⟨⟨hg, fun index level hl => ?_, ?_⟩, ⟨hi, by omega, hput, hd, le_max_right _ _⟩⟩
    · rcases Assoc.get?_put_cases hl with ⟨rfl, rfl⟩ | ⟨-, hl⟩
      · exact .inr ⟨List.mem_cons_self, by omega, hd, le_max_right _ _⟩
      · exact .inl hl
    · show (t.index.toNat :: s.queue).length + s.levels.size = s.queue.length + _
      rw [size_put_new _ _ _ hnew, List.length_cons]
      omega
  · exact ⟨.refl f s', ⟨hi, by omega, hold, hd, hb _ _ hold⟩⟩

theorem enqueueAll_adds (ts : List Transition) :
    ∀ {s s' : State}, Below s → enqueueAll f s ts = .ok s' →
      Adds f s s' ∧ ∀ t ∈ ts, Reached f s' t := by
  induction ts with
  | nil =>
    intro s s' _ h
    cases h
    exact ⟨.refl f s, fun t ht => absurd ht List.not_mem_nil⟩
  | cons t ts ih =>
    intro s s' hb h
    simp only [enqueueAll] at h
    cases he : enqueue f s t with
    | error e => simp [he] at h
    | ok m =>
      rw [he] at h
      obtain ⟨hadd, hreach⟩ := enqueue_adds hb he
      obtain ⟨hrest, hall⟩ := ih (hadd.below hb) h
      refine ⟨hadd.trans hrest, fun u hu => ?_⟩
      rcases List.mem_cons.1 hu with rfl | hu
      · exact hreach.grows hrest.grows
      · exact hall u hu

/-- What a round does: the instruction has a level and pops no more than is there, its depth goes
into the maximum, and its transitions are enqueued. -/
theorem visit_cases (h : visit f index s = .ok s') : ∃ depth catchIndex name row operands ts,
      s.levels.get? index = some (depth, catchIndex) ∧
      fetch f index = some (name, row, operands) ∧ pops row operands ≤ depth ∧
      transitions f s.levels name operands index (depth + row.pushes - pops row operands) catchIndex =
        .ok ts ∧
      enqueueAll f
        { s with maximum := max s.maximum (depth + row.pushes - pops row operands) } ts = .ok s' := by
  unfold visit at h
  split at h
  case h_2 => cases h
  case h_1 depth catchIndex name row operands hl hf =>
    split at h
    case isTrue => cases h
    case isFalse hp =>
      simp only at h
      split at h
      case h_2 => cases h
      case h_1 ts ht =>
        exact ⟨depth, catchIndex, name, row, operands, ts, hl, hf, by simpa using hp, ht, h⟩

theorem visit_adds (hb : Below s) (h : visit f index s = .ok s') :
    Adds f s s' ∧ ∃ level, s.levels.get? index = some level ∧ Settled f s' index level := by
  obtain ⟨depth, catchIndex, name, row, operands, ts, hl, hf, hp, ht, hall⟩ := visit_cases h
  have hraise : Adds f s
      { s with maximum := max s.maximum (depth + row.pushes - pops row operands) } :=
    ⟨⟨.refl _, le_max_left _ _, fun _ h => h⟩, fun _ _ h => .inl h, rfl⟩
  obtain ⟨hadd, hreached⟩ := enqueueAll_adds ts (hraise.below hb) hall
  refine ⟨hraise.trans hadd, _, hl, name, row, operands, ts, hf, hp, ?_,
    transitions_mono hadd.grows.levels ht, hreached⟩
  exact (le_max_right _ _).trans hadd.grows.maximum

/-! ### The whole walk -/

theorem visit_progress {queue : List ℕ} (hp : Progress f s)
    (hq : ∀ i ∈ s.queue, i = index ∨ i ∈ queue)
    (h : visit f index { s with queue := queue } = .ok s') : Progress f s' := by
  have hb : Below { s with queue := queue } := fun i l hl => (hp.bounded i l hl).2.2
  obtain ⟨hadd, level, hl, hset⟩ := visit_adds hb h
  constructor
  · exact hadd.grows.levels _ _ hp.entry
  · intro i l hi
    rcases hadd.bounded i l hi with hold | ⟨-, hnew⟩
    · obtain ⟨h₁, h₂, h₃⟩ := hp.bounded i l hold
      exact ⟨h₁, h₂, h₃.trans hadd.grows.maximum⟩
    · exact hnew
  · intro i l hi
    rcases hadd.bounded i l hi with hold | ⟨hnew, -⟩
    · rcases hp.settled i l hold with hmem | hdone
      · rcases hq i hmem with rfl | hmem
        · rw [show level = l from Option.some.inj (hl.symm.trans hold)] at hset
          exact .inr hset
        · exact .inl (hadd.grows.queue _ hmem)
      · -- a settled instruction does not depend on the queue
        obtain ⟨name, row, operands, ts, hf, hp', hm, ht, hr⟩ := hdone
        have hsame : Settled f { s with queue := queue } i l :=
          ⟨name, row, operands, ts, hf, hp', hm, ht, fun t hmem =>
            ⟨(hr t hmem).nonneg, (hr t hmem).inRange, (hr t hmem).level, (hr t hmem).depthNonneg,
              (hr t hmem).depthLe⟩⟩
        exact .inr (hsame.grows hadd.grows)
    · exact .inl hnew

theorem initial_progress (h : f.instructions ≠ []) : Progress f initial := by
  have hlen : 0 < f.instructions.length := List.length_pos_of_ne_nil h
  have hget : ∀ index level, initial.levels.get? index = some level →
      index = 0 ∧ level = (0, none) := by
    intro index level hl
    rcases Assoc.get?_put_cases hl with ⟨rfl, rfl⟩ | ⟨-, hl⟩
    · exact ⟨rfl, rfl⟩
    · simp at hl
  refine ⟨Assoc.get?_put _ _ _, fun index level hl => ?_, fun index level hl => ?_⟩
  · obtain ⟨rfl, rfl⟩ := hget index level hl
    exact ⟨hlen, Int.le_refl _, Int.le_refl _⟩
  · obtain ⟨rfl, rfl⟩ := hget index level hl
    exact .inl List.mem_cons_self

theorem walk_progress (fuel : ℕ) :
    ∀ {s s' : State}, Progress f s → walk f fuel s = .ok s' → Progress f s' ∧ s'.queue = [] := by
  induction fuel with
  | zero =>
    intro s s' hp h
    unfold walk at h
    split at h
    case h_1 hq => cases h; exact ⟨hp, hq⟩
    case h_2 => cases h
  | succ fuel ih =>
    intro s s' hp h
    unfold walk at h
    split at h
    case h_1 hq => cases h; exact ⟨hp, hq⟩
    case h_2 index queue hq =>
      simp only at h
      split at h
      case h_1 m hv => exact ih (visit_progress hp (fun i hi => List.mem_cons.1 (hq ▸ hi)) hv) h
      case h_2 => cases h

theorem size_le_length (hp : Progress f s) : s.levels.size ≤ f.instructions.length := by
  have hsub : s.levels.toList.map Prod.fst ⊆ List.range f.instructions.length := by
    intro index hmem
    obtain ⟨⟨i, l⟩, hil, rfl⟩ := List.mem_map.1 hmem
    exact List.mem_range.2 (hp.bounded i l (Assoc.mem_toList.1 hil)).1
  have hle := ((Assoc.nodup_keys_toList s.levels).subperm hsub).length_le
  rwa [List.length_map, Assoc.length_toList, List.length_range] at hle

theorem transitions_fuel (f : FunctionHeader) (levels : Levels) (name : Op)
    (operands : List Operand) (index : ℕ) (depth : ℤ) (catchIndex : Option ℕ) :
    transitions f levels name operands index depth catchIndex ≠ .error .outOfFuel := by
  intro h
  unfold transitions at h
  repeat' split at h
  all_goals cases h

theorem enqueueAll_fuel (f : FunctionHeader) (ts : List Transition) (s : State) :
    enqueueAll f s ts ≠ .error .outOfFuel := by
  induction ts generalizing s with
  | nil => simp [enqueueAll]
  | cons t ts ih =>
    have hone : enqueue f s t ≠ .error .outOfFuel := by
      intro h
      unfold enqueue at h
      repeat' split at h
      all_goals cases h
    unfold enqueueAll
    split
    case h_1 => exact ih _
    case h_2 e he =>
      intro h
      cases h
      exact hone he

theorem visit_fuel (f : FunctionHeader) (index : ℕ) (s : State) :
    visit f index s ≠ .error .outOfFuel := by
  unfold visit
  split
  case h_2 => simp
  case h_1 =>
    split
    · simp
    · simp only
      split
      case h_1 => exact enqueueAll_fuel f _ _
      case h_2 e he =>
        intro h
        cases h
        exact transitions_fuel _ _ _ _ _ _ _ he

theorem walk_fuel_aux (fuel : ℕ) :
    ∀ {s : State}, Progress f s → s.queue.length + f.instructions.length ≤ fuel + s.levels.size →
      walk f fuel s ≠ .error .outOfFuel := by
  induction fuel with
  | zero =>
    intro s hp hfuel h
    have hsize := size_le_length hp
    unfold walk at h
    split at h
    case h_1 => cases h
    case h_2 index queue hq =>
      rw [hq, List.length_cons] at hfuel
      omega
  | succ fuel ih =>
    intro s hp hfuel h
    unfold walk at h
    split at h
    case h_1 => cases h
    case h_2 index queue hq =>
      simp only at h
      split at h
      case h_1 m hv =>
        have hb : Below { s with queue := queue } := fun i l hl => (hp.bounded i l hl).2.2
        have hadd := (visit_adds hb hv).1.fuel
        refine ih (visit_progress hp (fun i hi => List.mem_cons.1 (hq ▸ hi)) hv) ?_ h
        rw [hq, List.length_cons] at hfuel
        simp only at hadd
        omega
      case h_2 e hv =>
        cases h
        exact visit_fuel _ _ _ hv

/-- **The fuel is enough.**  An instruction enters the queue at most once, so as many rounds as
instructions empty it. -/
theorem walk_fuel (h : f.instructions ≠ []) :
    walk f f.instructions.length initial ≠ .error .outOfFuel := by
  apply walk_fuel_aux _ (initial_progress h)
  have hsize : initial.levels.size = 1 := rfl
  rw [hsize]
  show 1 + f.instructions.length ≤ f.instructions.length + 1
  omega

/-! ### The analysis of an accepted function -/

structure Sound (f : FunctionHeader) (analysis : Analysis) : Prop where
  entry : analysis.levels.get? 0 = some (0, none)
  bounded : ∀ index level, analysis.levels.get? index = some level →
    index < f.instructions.length ∧ 0 ≤ level.1 ∧ level.1 ≤ analysis.maximum
  settled : ∀ index level, analysis.levels.get? index = some level →
    Settled f ⟨analysis.levels, [], analysis.maximum⟩ index level

/-- **Every instruction with a level is settled.** -/
theorem analyze_sound {analysis : Analysis} (h : analyze f = .ok analysis) : Sound f analysis := by
  unfold analyze at h
  split at h
  case isTrue => cases h
  case isFalse hne =>
    split at h
    case h_2 => cases h
    case h_1 s hw =>
      cases h
      obtain ⟨hp, hq⟩ := walk_progress _ (initial_progress hne) hw
      obtain ⟨levels, queue, maximum⟩ := s
      subst hq
      refine ⟨hp.entry, hp.bounded, fun index level hl => ?_⟩
      rcases hp.settled index level hl with hmem | hdone
      · exact absurd hmem List.not_mem_nil
      · exact hdone

theorem verify_sound (h : verify f = .ok ()) :
    ∃ analysis, analyze f = .ok analysis ∧ analysis.maximum = f.stackSize ∧ Sound f analysis := by
  unfold verify at h
  split at h
  case h_1 => cases h
  case h_2 analysis ha =>
    split at h
    case isTrue hm => exact ⟨analysis, ha, hm, analyze_sound ha⟩
    case isFalse => cases h

end QuickBeam.Vm.Bytecode.Verifier.Stack
