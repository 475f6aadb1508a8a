import Mathlib.Order.Bounds.Defs
import QuickBeam.Vm.Bytecode.VerifierStack

/-!
# The stack analysis solves the dataflow problem

A solution gives every reachable instruction one level, and is consistent along every edge.  The
levels of the walk are at all times a part of every solution (`Part`), so with a solution no
round fails, whichever instruction of the queue is taken; and when the queue is empty the levels
are a solution themselves.  Hence there is at most one solution, and every order finds it or
none does: `analyze_dataflow`.
-/

namespace QuickBeam.Vm.Bytecode.Verifier.Stack

open QuickBeam.Lib QuickBeam.Vm.Program

/-! ### Reachable instructions and solutions -/

/-- The instructions where an instruction continues. -/
def targets (name : Op) (operands : List Operand) (index : ℕ) : List ℤ :=
  match kind name, operands with
  | .terminal, _ => []
  | .goto, target :: _ => [label target]
  | .conditional, target :: _ => [label target, index + 1]
  | .gosub, [target] => [label target, index + 1]
  | .withOne, _ :: target :: _ => [label target, index + 1]
  | .withTwo, _ :: target :: _ => [label target, index + 1]
  | .withPutVar, _ :: target :: _ => [label target, index + 1]
  | .catch_, [target] => [label target, index + 1]
  | _, _ => [(index : ℤ) + 1]

inductive Reachable (f : FunctionHeader) : ℕ → Prop
  | entry : Reachable f 0
  | edge {index next : ℕ} {name : Op} {row : Row} {operands : List Operand}
      (path : Reachable f index) (hfetch : fetch f index = some (name, row, operands))
      (hedge : (next : ℤ) ∈ targets name operands index) : Reachable f next

structure Consistent (f : FunctionHeader) (levels : Levels) (t : Transition) : Prop where
  nonneg : 0 ≤ t.index
  inRange : t.index < f.instructions.length
  depth : 0 ≤ t.depth
  level : levels.get? t.index.toNat = some (t.depth, t.catchIndex)

/-- The instruction pops no more than is there, and its transitions are consistent; that there
are transitions at all says that a `nip_catch` is in a catch. -/
def Satisfied (f : FunctionHeader) (levels : Levels) (index : ℕ) (level : Level) : Prop :=
  ∃ name row operands ts,
    fetch f index = some (name, row, operands) ∧
    pops row operands ≤ level.1 ∧
    transitions f levels name operands index (level.1 + row.pushes - pops row operands) level.2 =
      .ok ts ∧
    ∀ t ∈ ts, Consistent f levels t

/-- One level for every reachable instruction, consistent along every edge. -/
structure Solution (f : FunctionHeader) (levels : Levels) : Prop where
  reachable : ∀ index, (∃ level, levels.get? index = some level) ↔ Reachable f index
  entry : levels.get? 0 = some (0, none)
  satisfied : ∀ index level, levels.get? index = some level → Satisfied f levels index level

/-- The depths along the paths: before every instruction, and after the ones that end a path. -/
inductive DepthOnPath (f : FunctionHeader) (levels : Levels) : ℤ → Prop
  | before {index : ℕ} {depth : ℤ} {catchIndex : Option ℕ}
      (hlevel : levels.get? index = some (depth, catchIndex)) : DepthOnPath f levels depth
  | atEnd {index : ℕ} {depth : ℤ} {catchIndex : Option ℕ} {name : Op} {row : Row}
      {operands : List Operand} (hlevel : levels.get? index = some (depth, catchIndex))
      (hfetch : fetch f index = some (name, row, operands)) (hkind : kind name = .terminal) :
      DepthOnPath f levels (depth + row.pushes - pops row operands)

/-! ### The worklist in any order -/

def Round (f : FunctionHeader) (s s' : State) : Prop :=
  ∃ before index after, s.queue = before ++ index :: after ∧
    visit f index { s with queue := before ++ after } = .ok s'

inductive Rounds (f : FunctionHeader) : ℕ → State → Prop
  | start : Rounds f 0 initial
  | round {n : ℕ} {s s' : State} (run : Rounds f n s) (hround : Round f s s') : Rounds f (n + 1) s'

/-! ### Transitions and their targets -/

variable {catchIndex : Option ℕ} {depth : ℤ} {f : FunctionHeader} {index : ℕ} {levels : Levels}
  {name : Op} {operands : List Operand} {ts : List Transition}

theorem transitions_targets
    (h : transitions f levels name operands index depth catchIndex = .ok ts) :
    ts.map Transition.index = targets name operands index := by
  unfold transitions at h
  unfold targets
  repeat' split at h
  all_goals try cases h
  all_goals simp_all [next]

def Marked (levels : Levels) (catchIndex : Option ℕ) : Prop :=
  ∀ marker, catchIndex = some marker → ∃ level, levels.get? marker = some level

theorem marked_none (levels : Levels) : Marked levels none := nofun

theorem Marked.extends {a b : Levels} (h : Marked a catchIndex) (hext : Extends a b) :
    Marked b catchIndex := by
  intro marker heq
  obtain ⟨level, hl⟩ := h marker heq
  exact ⟨level, hext marker level hl⟩

def AllMarked (levels : Levels) : Prop := ∀ index depth catchIndex,
  levels.get? index = some (depth, catchIndex) → Marked levels catchIndex

theorem maybeLeaveCatch_marked {level : ℤ} {catchIndex remaining : Option ℕ}
    (hall : AllMarked levels) (h : maybeLeaveCatch f levels level catchIndex = some remaining) :
    Marked levels remaining := by
  cases catchIndex with
  | none =>
    cases h
    exact marked_none _
  | some marker =>
    simp only [maybeLeaveCatch] at h
    cases hget : levels.get? marker with
    | none => simp [hget] at h
    | some entry =>
      obtain ⟨entryDepth, parent⟩ := entry
      rw [hget] at h
      simp only at h
      split at h
      · cases h
        exact hall marker entryDepth _ hget
      · cases h
        intro marker' heq
        cases heq
        exact ⟨_, hget⟩

/-- A transition keeps the catch, leaves it for its parent, or enters the instruction itself. -/
theorem transitions_marked (hall : AllMarked levels) (hcatch : Marked levels catchIndex)
    (hself : Marked levels (some index))
    (h : transitions f levels name operands index depth catchIndex = .ok ts) :
    ∀ t ∈ ts, Marked levels t.catchIndex := by
  cases hk : kind name with
  | leave =>
    cases hleave : maybeLeaveCatch f levels (catchLevel name depth) catchIndex with
    | none => simp [transitions, hk, hleave] at h
    | some remaining =>
      simp only [transitions, hk, hleave] at h
      cases h
      intro t hmem
      rw [List.mem_singleton.1 hmem]
      exact maybeLeaveCatch_marked hall hleave
  | nipCatch =>
    cases catchIndex with
    | none => simp [transitions, hk] at h
    | some marker =>
      cases hget : levels.get? marker with
      | none => simp [transitions, hk, hget] at h
      | some entry =>
        obtain ⟨entryDepth, parent⟩ := entry
        simp only [transitions, hk, hget] at h
        cases h
        intro t hmem
        rw [List.mem_singleton.1 hmem]
        exact hall _ _ _ hget
  | _ =>
    rcases operands with _ | ⟨x, _ | ⟨y, ys⟩⟩ <;> simp only [transitions, hk] at h
    all_goals try split at h
    all_goals cases h
    all_goals simp [next, hcatch, hself]

theorem transitions_of_extends {a b : Levels} (h : Extends a b) (hcatch : Marked a catchIndex)
    (hok : transitions f b name operands index depth catchIndex = .ok ts) :
    transitions f a name operands index depth catchIndex = .ok ts := by
  have hsame : ∀ marker, catchIndex = some marker → a.get? marker = b.get? marker := by
    intro marker heq
    obtain ⟨level, hl⟩ := hcatch marker heq
    rw [hl, h marker level hl]
  have hleave : ∀ level, maybeLeaveCatch f a level catchIndex =
      maybeLeaveCatch f b level catchIndex := by
    intro level
    cases catchIndex with
    | none => rfl
    | some marker => simp only [maybeLeaveCatch, hsame marker rfl]
  rw [← hok]
  unfold transitions
  cases catchIndex with
  | none => simp only [hleave]
  | some marker => simp only [hleave, hsame marker rfl]

/-- The depth behind an instruction is the one before it on some edge, unless the path ends here
or the stack is cut back to a catch. -/
theorem transitions_depth (h : transitions f levels name operands index depth catchIndex = .ok ts) :
    kind name = .terminal ∨ kind name = .nipCatch ∨ ∃ t ∈ ts, t.depth = depth := by
  cases hk : kind name with
  | terminal => exact .inl rfl
  | nipCatch => exact .inr (.inl rfl)
  | leave =>
    cases hleave : maybeLeaveCatch f levels (catchLevel name depth) catchIndex with
    | none => simp [transitions, hk, hleave] at h
    | some remaining =>
      simp only [transitions, hk, hleave] at h
      cases h
      exact .inr (.inr ⟨_, List.mem_singleton_self _, rfl⟩)
  | _ =>
    rcases operands with _ | ⟨x, _ | ⟨y, ys⟩⟩ <;> simp only [transitions, hk] at h
    all_goals try split at h
    all_goals cases h
    all_goals simp [next]

theorem nipCatch_of_kind (h : kind name = .nipCatch) : name = .nipCatch := by
  cases name <;> first | rfl | cases h

variable {row : Row}

theorem nipCatch_cut (hfetch : fetch f index = some (name, row, operands))
    (hkind : kind name = .nipCatch) : (row.pushes : ℤ) < pops row operands := by
  unfold fetch at hfetch
  split at hfetch
  case h_2 => cases hfetch
  case h_1 =>
    obtain ⟨⟨name', row'⟩, hinfo, heq⟩ := Option.map_eq_some_iff.1 hfetch
    obtain ⟨-, rfl⟩ := info_eq_some hinfo
    cases heq
    rw [nipCatch_of_kind hkind]
    show (1 : ℤ) < 2 + 0
    omega

/-! ### What holds after every round -/

theorem DepthOnPath.extends {a b : Levels} (h : DepthOnPath f a depth) (hext : Extends a b) :
    DepthOnPath f b depth := by
  cases h with
  | before hlevel => exact .before (hext _ _ hlevel)
  | atEnd hlevel hfetch hkind => exact .atEnd (hext _ _ hlevel) hfetch hkind

/-- The part of the invariant that a single transition keeps; `maximum` is the maximum before the
transitions of an instruction. -/
structure Filled (f : FunctionHeader) (maximum : ℤ) (s : State) : Prop where
  marked : AllMarked s.levels
  reachable : ∀ index level, s.levels.get? index = some level → Reachable f index
  queued : ∀ index ∈ s.queue, ∃ level, s.levels.get? index = some level
  attained : s.maximum = maximum ∨ DepthOnPath f s.levels s.maximum

variable {maximum : ℤ} {t : Transition}

theorem enqueue_filled {s s' : State} (h : Filled f maximum s)
    (hmarked : Marked s.levels t.catchIndex) (hreachable : Reachable f t.index.toNat)
    (hok : enqueue f s t = .ok s') : Filled f maximum s' := by
  have hext := (enqueue_grows hok).levels
  obtain ⟨-, -, -, ⟨hnew, rfl⟩ | ⟨-, rfl⟩⟩ := enqueue_cases hok
  · have hput : (s.levels.put t.index.toNat (t.depth, t.catchIndex)).get? t.index.toNat =
        some (t.depth, t.catchIndex) := Assoc.get?_put _ _ _
    refine ⟨fun index depth catchIndex hl => ?_, fun index level hl => ?_, fun index hmem => ?_, ?_⟩
    · rcases Assoc.get?_put_cases hl with ⟨-, heq⟩ | ⟨-, hl⟩
      · obtain ⟨-, rfl⟩ := Prod.mk.injEq .. ▸ heq
        exact hmarked.extends hext
      · exact (h.marked index depth catchIndex hl).extends hext
    · rcases Assoc.get?_put_cases hl with ⟨rfl, -⟩ | ⟨-, hl⟩
      · exact hreachable
      · exact h.reachable index level hl
    · rcases List.mem_cons.1 hmem with rfl | hmem
      · exact ⟨_, hput⟩
      · obtain ⟨level, hl⟩ := h.queued index hmem
        exact ⟨level, hext index level hl⟩
    · show max s.maximum t.depth = maximum ∨ DepthOnPath f _ (max s.maximum t.depth)
      rcases le_total t.depth s.maximum with hle | hle
      · rw [max_eq_left hle]
        exact h.attained.imp_right fun hpath => hpath.extends hext
      · rw [max_eq_right hle]
        exact .inr (.before hput)
  · exact h

theorem enqueueAll_filled (ts : List Transition) :
    ∀ {s s' : State}, Filled f maximum s → (∀ t ∈ ts, Marked s.levels t.catchIndex) →
      (∀ t ∈ ts, Reachable f t.index.toNat) → enqueueAll f s ts = .ok s' →
      Filled f maximum s' := by
  induction ts with
  | nil =>
    intro s s' h _ _ hok
    cases hok
    exact h
  | cons t ts ih =>
    intro s s' h hmarked hreachable hok
    simp only [enqueueAll] at hok
    cases he : enqueue f s t with
    | error e => simp [he] at hok
    | ok m =>
      rw [he] at hok
      have hext := (enqueue_grows he).levels
      refine ih (enqueue_filled h (hmarked t List.mem_cons_self) (hreachable t List.mem_cons_self) he)
        (fun u hu => ?_) (fun u hu => hreachable u (List.mem_cons_of_mem _ hu)) hok
      exact (hmarked u (List.mem_cons_of_mem _ hu)).extends hext

/-- What holds between two rounds, in any order. -/
structure Walked (f : FunctionHeader) (n : ℕ) (s : State) : Prop where
  progress : Progress f s
  filled : Filled f s.maximum s
  attained : DepthOnPath f s.levels s.maximum
  rounds : n + s.queue.length = s.levels.size

theorem initial_walked (h : f.instructions ≠ []) : Walked f 0 initial := by
  have hget : initial.levels.get? 0 = some (0, none) := Assoc.get?_put _ _ _
  have honly : ∀ index level, initial.levels.get? index = some level →
      index = 0 ∧ level = (0, none) := by
    intro index level hl
    rcases Assoc.get?_put_cases hl with ⟨rfl, rfl⟩ | ⟨-, hl⟩
    · exact ⟨rfl, rfl⟩
    · simp at hl
  refine ⟨initial_progress h, ⟨?_, ?_, ?_, .inl rfl⟩, .before hget, rfl⟩
  · intro index depth catchIndex hl
    obtain ⟨-, heq⟩ := honly index _ hl
    cases heq
    exact marked_none _
  · intro index level hl
    obtain ⟨rfl, -⟩ := honly index level hl
    exact .entry
  · intro index hmem
    rw [List.mem_singleton.1 hmem]
    exact ⟨_, hget⟩

theorem reachable_of_transitions (hpath : Reachable f index)
    (hfetch : fetch f index = some (name, row, operands))
    (hok : transitions f levels name operands index depth catchIndex = .ok ts) (hmem : t ∈ ts)
    (hnonneg : 0 ≤ t.index) : Reachable f t.index.toNat := by
  refine .edge hpath hfetch ?_
  rw [Int.toNat_of_nonneg hnonneg, ← transitions_targets hok]
  exact List.mem_map_of_mem hmem

/-- **A round keeps what holds**, whichever instruction it takes. -/
theorem Walked.round {f : FunctionHeader} {n : ℕ} {s s' : State} (h : Walked f n s)
    (hround : Round f s s') : Walked f (n + 1) s' := by
  obtain ⟨before, index, after, hqueue, hvisit⟩ := hround
  have hsplit : ∀ i ∈ s.queue, i = index ∨ i ∈ before ++ after := by
    intro i hi
    rw [hqueue] at hi
    simpa [or_left_comm] using hi
  have hbelow : Below { s with queue := before ++ after } :=
    fun i l hl => (h.progress.bounded i l hl).2.2
  have hadds := (visit_adds hbelow hvisit).1
  obtain ⟨depth, catchIndex, name, row, operands, ts, hl, hf, hp, ht, hall⟩ := visit_cases hvisit
  have hraisedBelow : Below
      { s with queue := before ++ after,
               maximum := max s.maximum (depth + row.pushes - pops row operands) } :=
    fun i l hl => (hbelow i l hl).trans (le_max_left _ _)
  have hreached := (enqueueAll_adds ts hraisedBelow hall).2
  have hmarked := transitions_marked h.filled.marked (h.filled.marked index depth catchIndex hl)
    (fun marker heq => by cases heq; exact ⟨_, hl⟩) ht
  have hraised : Filled f (max s.maximum (depth + row.pushes - pops row operands))
      { s with queue := before ++ after,
               maximum := max s.maximum (depth + row.pushes - pops row operands) } :=
    { h.filled with
      queued := fun i hi => h.filled.queued i (by rw [hqueue]; simpa [or_left_comm] using .inr (List.mem_append.1 hi))
      attained := .inl rfl }
  have hfilled := enqueueAll_filled ts hraised hmarked (fun t hmem => reachable_of_transitions
    (h.filled.reachable index _ hl) hf ht hmem (hreached t hmem).nonneg) hall
  refine ⟨visit_progress h.progress hsplit hvisit, { hfilled with attained := .inl rfl }, ?_, ?_⟩
  · rcases hfilled.attained with heq | hpath
    · rw [heq]
      rcases le_total (depth + row.pushes - pops row operands) s.maximum with hle | hle
      · rw [max_eq_left hle]
        exact h.attained.extends hadds.grows.levels
      · rw [max_eq_right hle]
        -- the depth behind the instruction is the maximum
        rcases transitions_depth ht with hk | hk | ⟨t, hmem, hdepth⟩
        · exact .atEnd (hadds.grows.levels _ _ hl) hf hk
        · have hcut := nipCatch_cut hf hk
          have hle' := hbelow index _ hl
          simp only at hle' hl
          omega
        · rw [← hdepth]
          exact .before (hreached t hmem).level
    · exact hpath
  · have hfuel := hadds.fuel
    have hrounds := h.rounds
    rw [hqueue] at hrounds
    simp only [List.length_append, List.length_cons] at hfuel hrounds
    omega

variable {n : ℕ} {s : State}

theorem Rounds.walked (hne : f.instructions ≠ []) (h : Rounds f n s) : Walked f n s := by
  induction h with
  | start => exact initial_walked hne
  | round _ hround ih => exact ih.round hround

theorem Walked.solution (h : Walked f n s) (hqueue : s.queue = []) : Solution f s.levels := by
  have hsettled : ∀ index level, s.levels.get? index = some level → Settled f s index level := by
    intro index level hl
    rcases h.progress.settled index level hl with hmem | hdone
    · rw [hqueue] at hmem
      exact absurd hmem List.not_mem_nil
    · exact hdone
  refine ⟨fun index => ⟨fun ⟨level, hl⟩ => h.filled.reachable index level hl, fun hpath => ?_⟩,
    h.progress.entry, fun index level hl => ?_⟩
  · induction hpath with
    | entry => exact ⟨_, h.progress.entry⟩
    | @edge index next name row operands _ hfetch hedge ih =>
      obtain ⟨level, hl⟩ := ih
      obtain ⟨name', row', operands', ts, hf, -, -, ht, hr⟩ := hsettled index level hl
      rw [hfetch] at hf
      cases hf
      rw [← transitions_targets ht] at hedge
      obtain ⟨t, hmem, heq⟩ := List.mem_map.1 hedge
      have hlevel := (hr t hmem).level
      rw [heq, Int.toNat_natCast] at hlevel
      exact ⟨_, hlevel⟩
  · obtain ⟨name, row, operands, ts, hf, hp, -, ht, hr⟩ := hsettled index level hl
    refine ⟨name, row, operands, ts, hf, hp, ht, fun t hmem => ?_⟩
    have hreached := hr t hmem
    have hrange := hreached.inRange
    have hnonneg := hreached.nonneg
    exact ⟨hnonneg, by omega, hreached.depthNonneg, hreached.level⟩

/-! ### The levels are a part of every solution -/

theorem enqueue_of_consistent (hext : Extends s.levels levels) (ht : Consistent f levels t) :
    ∃ s', enqueue f s t = .ok s' ∧ Extends s'.levels levels := by
  unfold enqueue
  rw [if_pos ⟨ht.nonneg, ht.inRange, ht.depth⟩]
  cases hget : s.levels.get? t.index.toNat with
  | none =>
    refine ⟨_, rfl, fun index level hl => ?_⟩
    rcases Assoc.get?_put_cases hl with ⟨rfl, rfl⟩ | ⟨-, hl⟩
    · exact ht.level
    · exact hext index level hl
  | some level =>
    have heq : level = (t.depth, t.catchIndex) :=
      Option.some.inj ((hext _ _ hget).symm.trans ht.level)
    simp only
    rw [if_pos heq]
    exact ⟨s, rfl, hext⟩

theorem enqueueAll_of_consistent {f : FunctionHeader} {levels : Levels} (ts : List Transition) :
    ∀ {s : State}, Extends s.levels levels → (∀ t ∈ ts, Consistent f levels t) →
      ∃ s', enqueueAll f s ts = .ok s' ∧ Extends s'.levels levels := by
  induction ts with
  | nil =>
    intro s hext _
    exact ⟨s, rfl, hext⟩
  | cons t ts ih =>
    intro s hext hall
    obtain ⟨m, hm, hext'⟩ := enqueue_of_consistent hext (hall t List.mem_cons_self)
    obtain ⟨s', hs', hext''⟩ := ih hext' fun u hu => hall u (List.mem_cons_of_mem _ hu)
    refine ⟨s', ?_, hext''⟩
    simp only [enqueueAll, hm]
    exact hs'

/-- **With a solution a round succeeds and stays within it.** -/
theorem visit_of_solution {f : FunctionHeader} {levels : Levels} {s : State} {index : ℕ}
    (hsol : Solution f levels) (hmarked : AllMarked s.levels) (hext : Extends s.levels levels)
    (hlevel : ∃ level, s.levels.get? index = some level) :
    ∃ s', visit f index s = .ok s' ∧ Extends s'.levels levels := by
  obtain ⟨⟨depth, catchIndex⟩, hl⟩ := hlevel
  obtain ⟨name, row, operands, ts, hf, hp, ht, hall⟩ :=
    hsol.satisfied index _ (hext index _ hl)
  have ht' := transitions_of_extends hext (hmarked index depth catchIndex hl) ht
  obtain ⟨s', hs', hext'⟩ := @enqueueAll_of_consistent f levels ts
    { s with maximum := max s.maximum (depth + row.pushes - pops row operands) } hext hall
  refine ⟨s', ?_, hext'⟩
  unfold visit
  simp only [hl, hf]
  rw [if_neg (not_lt.2 hp), ht']
  exact hs'

theorem initial_extends (hsol : Solution f levels) : Extends initial.levels levels := by
  intro index level hl
  rcases Assoc.get?_put_cases hl with ⟨rfl, rfl⟩ | ⟨-, hl⟩
  · exact hsol.entry
  · simp at hl

theorem Rounds.extends (hne : f.instructions ≠ []) (hsol : Solution f levels) (h : Rounds f n s) :
    Extends s.levels levels := by
  induction h with
  | start => exact initial_extends hsol
  | @round n s s' run hround ih =>
    obtain ⟨before, index, after, hqueue, hvisit⟩ := hround
    have hwalked := run.walked hne
    obtain ⟨s'', hs'', hext⟩ := @visit_of_solution f levels { s with queue := before ++ after } index
      hsol hwalked.filled.marked ih (hwalked.filled.queued index (by rw [hqueue]; simp))
    rw [hvisit] at hs''
    cases hs''
    exact hext

/-! ### The walk -/

theorem walk_rounds (fuel : ℕ) : ∀ {n : ℕ} {s s' : State}, Rounds f n s →
    walk f fuel s = .ok s' → ∃ m, Rounds f m s' ∧ s'.queue = [] := by
  induction fuel with
  | zero =>
    intro n s s' hrun h
    unfold walk at h
    split at h
    case h_1 hq => cases h; exact ⟨n, hrun, hq⟩
    case h_2 => cases h
  | succ fuel ih =>
    intro n s s' hrun h
    unfold walk at h
    split at h
    case h_1 hq => cases h; exact ⟨n, hrun, hq⟩
    case h_2 index queue hq =>
      simp only at h
      split at h
      case h_1 m hv => exact ih (hrun.round ⟨[], index, queue, hq, hv⟩) h
      case h_2 => cases h

theorem walk_of_solution (hne : f.instructions ≠ []) (hsol : Solution f levels) (fuel : ℕ) :
    ∀ {n : ℕ} {s : State}, Rounds f n s →
      walk f fuel s = .error .outOfFuel ∨ ∃ s', walk f fuel s = .ok s' := by
  induction fuel with
  | zero =>
    intro n s hrun
    unfold walk
    cases s.queue with
    | nil => exact .inr ⟨s, rfl⟩
    | cons index queue => exact .inl rfl
  | succ fuel ih =>
    intro n s hrun
    unfold walk
    cases hq : s.queue with
    | nil => exact .inr ⟨s, rfl⟩
    | cons index queue =>
      have hwalked := hrun.walked hne
      obtain ⟨m, hm, -⟩ := @visit_of_solution f levels { s with queue := queue } index hsol
        hwalked.filled.marked (hrun.extends hne hsol :)
        (hwalked.filled.queued index (by rw [hq]; exact List.mem_cons_self))
      simp only [hm]
      exact ih (hrun.round ⟨[], index, queue, hq, hm⟩)

/-! ### The analysis -/

theorem Walked.isGreatest (h : Walked f n s) (hqueue : s.queue = []) :
    IsGreatest {depth | DepthOnPath f s.levels depth} s.maximum := by
  refine ⟨h.attained, fun depth hpath => ?_⟩
  cases hpath with
  | before hlevel => exact (h.progress.bounded _ _ hlevel).2.2
  | @atEnd index depth catchIndex name row operands hlevel hfetch hkind =>
    rcases h.progress.settled index _ hlevel with hmem | hdone
    · rw [hqueue] at hmem
      exact absurd hmem List.not_mem_nil
    · obtain ⟨name', row', operands', ts, hf, -, hle, -⟩ := hdone
      rw [hfetch] at hf
      cases hf
      exact hle

theorem analyze_rounds {analysis : Analysis} (h : analyze f = .ok analysis) :
    ∃ n, Rounds f n ⟨analysis.levels, [], analysis.maximum⟩ := by
  unfold analyze at h
  split at h
  case isTrue => cases h
  case isFalse =>
    split at h
    case h_2 => cases h
    case h_1 s hw =>
      cases h
      obtain ⟨n, hrun, hqueue⟩ := walk_rounds _ .start hw
      obtain ⟨levels, queue, maximum⟩ := s
      subst hqueue
      exact ⟨n, hrun⟩

theorem analyze_of_solution (hne : f.instructions ≠ []) (hsol : Solution f levels) :
    ∃ analysis, analyze f = .ok analysis := by
  unfold analyze
  rw [if_neg hne]
  rcases walk_of_solution hne hsol f.instructions.length .start with hfuel | ⟨s, hs⟩
  · exact absurd hfuel (walk_fuel hne)
  · rw [hs]
    exact ⟨_, rfl⟩

theorem Solution.unique (hne : f.instructions ≠ []) (hrun : Rounds f n s) (hqueue : s.queue = [])
    (hsol : Solution f levels) (index : ℕ) : levels.get? index = s.levels.get? index := by
  have hext := hrun.extends hne hsol
  cases hget : s.levels.get? index with
  | some level => exact hext index level hget
  | none =>
    rw [Option.eq_none_iff_forall_ne_some]
    intro level hl
    -- the instruction is reachable, so it has a level in both
    have hpath := (hsol.reachable index).1 ⟨level, hl⟩
    obtain ⟨level', hl'⟩ := (((hrun.walked hne).solution hqueue).reachable index).2 hpath
    rw [hget] at hl'
    cases hl'

/-- What `Stack.analyze/1` computes: it ends, it succeeds exactly when there is a solution, and
then with the only one and with the largest depth on any path; an order in which the queue is
processed makes no difference. -/
structure Dataflow (f : FunctionHeader) : Prop where
  terminates : analyze f ≠ .error .outOfFuel
  succeeds : (∃ analysis, analyze f = .ok analysis) ↔ ∃ levels, Solution f levels
  solution : ∀ analysis, analyze f = .ok analysis → Solution f analysis.levels ∧
    ∀ levels, Solution f levels → ∀ index, levels.get? index = analysis.levels.get? index
  maximum : ∀ analysis, analyze f = .ok analysis →
    IsGreatest {depth | DepthOnPath f analysis.levels depth} analysis.maximum
  bounded : ∀ n s, Rounds f n s → n ≤ f.instructions.length
  anyOrder : ∀ n s, Rounds f n s → s.queue = [] → ∃ analysis, analyze f = .ok analysis ∧
    s.maximum = analysis.maximum ∧ ∀ index, s.levels.get? index = analysis.levels.get? index
  neverFails : ∀ analysis, analyze f = .ok analysis → ∀ n s, Rounds f n s →
    ∀ before index after, s.queue = before ++ index :: after →
      ∃ s', visit f index { s with queue := before ++ after } = .ok s'

/-- **The analysis computes the dataflow solution.** -/
theorem analyze_dataflow (f : FunctionHeader) (hne : f.instructions ≠ []) : Dataflow f where
  terminates := by
    unfold analyze
    rw [if_neg hne]
    intro h
    split at h
    case h_1 => cases h
    case h_2 e hw =>
      cases h
      exact walk_fuel hne hw
  succeeds := by
    refine ⟨fun ⟨analysis, h⟩ => ?_, fun ⟨levels, hsol⟩ => analyze_of_solution hne hsol⟩
    obtain ⟨n, hrun⟩ := analyze_rounds h
    exact ⟨_, (hrun.walked hne).solution rfl⟩
  solution analysis h := by
    obtain ⟨n, hrun⟩ := analyze_rounds h
    exact ⟨(hrun.walked hne).solution rfl, fun levels hsol => hsol.unique hne hrun rfl⟩
  maximum analysis h := by
    obtain ⟨n, hrun⟩ := analyze_rounds h
    exact (hrun.walked hne).isGreatest rfl
  bounded n s hrun := by
    have hwalked := hrun.walked hne
    have hsize := size_le_length hwalked.progress
    have hrounds := hwalked.rounds
    omega
  anyOrder n s hrun hqueue := by
    have hwalked := hrun.walked hne
    obtain ⟨analysis, h⟩ := analyze_of_solution hne (hwalked.solution hqueue)
    obtain ⟨m, hrun'⟩ := analyze_rounds h
    have hwalked' := hrun'.walked hne
    have hsame : ∀ index, s.levels.get? index = analysis.levels.get? index :=
      fun index => (hwalked.solution hqueue).unique hne hrun' rfl index
    have hto : ∀ index level, s.levels.get? index = some level →
        analysis.levels.get? index = some level := fun index level hl => hsame index ▸ hl
    have hfrom : ∀ index level, analysis.levels.get? index = some level →
        s.levels.get? index = some level := fun index level hl => (hsame index).symm ▸ hl
    refine ⟨analysis, h, le_antisymm ?_ ?_, hsame⟩
    · exact (hwalked'.isGreatest rfl).2 ((hwalked.isGreatest hqueue).1.extends hto)
    · exact (hwalked.isGreatest hqueue).2 ((hwalked'.isGreatest rfl).1.extends hfrom)
  neverFails analysis h n s hrun before index after hqueue := by
    obtain ⟨m, hrun'⟩ := analyze_rounds h
    have hsol : Solution f analysis.levels := (hrun'.walked hne).solution rfl
    have hwalked := hrun.walked hne
    obtain ⟨s', hs', -⟩ := @visit_of_solution f analysis.levels
      { s with queue := before ++ after } index hsol hwalked.filled.marked (hrun.extends hne hsol :)
      (hwalked.filled.queued index (by rw [hqueue]; simp))
    exact ⟨s', hs'⟩

/-- `catch` over a `drop` and a return, with a `throw` as its handler. -/
def guardedReturn : FunctionHeader :=
  ⟨0, 0, 0, 0, 1, 0, [], [], [(107, [.int 3]), (14, []), (41, []), (48, [])], [], false, 0⟩

theorem analyze_dataflow_guardedReturn :
    (∃ levels, Solution guardedReturn levels) ∧ ∀ n s, Rounds guardedReturn n s → n ≤ 4 := by
  have h := analyze_dataflow guardedReturn (by decide)
  exact ⟨h.succeeds.1 ⟨_, rfl⟩, h.bounded⟩

end QuickBeam.Vm.Bytecode.Verifier.Stack
