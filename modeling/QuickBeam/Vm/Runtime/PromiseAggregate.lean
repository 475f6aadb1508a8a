import QuickBeam.Vm.Runtime.PromiseFrame

/-!
# Promise combinators

`verdict` says what `Promise.all`, `allSettled`, `any` and `race` settle with, given the
settlements of their members in order.  `aggregate_settles` says that the result promise of a
combinator takes that verdict, once, in every run in which nothing else resolves it.
-/

set_option linter.unusedSectionVars false

namespace QuickBeam.Vm.Runtime.Promise

open QuickBeam.Lib

variable {ν η : Type} {env : Env ν η} {s t s' : State ν η} {p id n : ℕ} {kind : AggregateKind}

/-! ### The verdict -/

/-- A settlement of a member: its index and its result. -/
abbrev Outcome (ν : Type) := ℕ × Result ν

/-- A settlement that decides alone. -/
def decisive : AggregateKind → Result ν → Bool
  | .race, _ => true
  | .all, .error _ => true
  | .any, .ok _ => true
  | _, _ => false

def entry (env : Env ν η) : AggregateKind → Result ν → Value ν
  | .allSettled, .ok v => .plain (.term (env.fulfilledEntry (.plain v)))
  | .allSettled, .error reason => .plain (.term (env.rejectedEntry (env.unwrapReason reason)))
  | .any, .error reason => env.unwrapReason reason
  | _, .ok v => .plain v
  | _, .error reason => reason

/-- What was kept of the settlements, in the order of the members. -/
def entries (env : Env ν η) (kind : AggregateKind) (n : ℕ) (outcomes : List (Outcome ν)) :
    List (Value ν) :=
  (List.range n).filterMap fun i => (outcomes.lookup i).map (entry env kind)

/-- How a combinator settles whose members have all settled. -/
def complete (env : Env ν η) (kind : AggregateKind) (values : List (Value ν)) : Resolution ν :=
  match kind with
  | .any => .error (.plain (.term (env.aggregateError values)))
  | _ => .ok (.plain (.term (env.valueList values)))

/-- What a combinator of `n` members settles with after the settlements `outcomes`, if it
settles: with the first decisive settlement, or when all members have settled. -/
def verdict (env : Env ν η) (kind : AggregateKind) (n : ℕ) (outcomes : List (Outcome ν)) :
    Option (Resolution ν) :=
  match outcomes.find? fun o => decisive kind o.2 with
  | some o => some o.2.resolution
  | none =>
    if kind ≠ .race ∧ outcomes.length = n then
      some (complete env kind (entries env kind n outcomes))
    else none

/-- Settlements of different members. -/
structure Fits (n : ℕ) (outcomes : List (Outcome ν)) : Prop where
  nodup : (outcomes.map Prod.fst).Nodup
  lt : ∀ o ∈ outcomes, o.1 < n

variable {outcomes : List (Outcome ν)}

theorem Fits.length_le (h : Fits n outcomes) : outcomes.length ≤ n := by
  have hsub : (outcomes.map Prod.fst).toFinset ⊆ Finset.range n := by
    intro k hk
    obtain ⟨o, ho, rfl⟩ := List.mem_map.1 (List.mem_toFinset.1 hk)
    exact Finset.mem_range.2 (h.lt o ho)
  have hcard := Finset.card_le_card hsub
  rw [List.toFinset_card_of_nodup h.nodup, List.length_map, Finset.card_range] at hcard
  exact hcard

theorem verdict_concat (o : Outcome ν) (hnone : verdict env kind n outcomes = none) :
    verdict env kind n (outcomes ++ [o]) =
      if decisive kind o.2 then some o.2.resolution
      else if kind ≠ .race ∧ outcomes.length + 1 = n then
        some (complete env kind (entries env kind n (outcomes ++ [o])))
      else none := by
  unfold verdict at hnone ⊢
  have hfind : outcomes.find? (fun o => decisive kind o.2) = none := by
    cases hf : outcomes.find? fun o => decisive kind o.2 with
    | none => rfl
    | some o' =>
      rw [hf] at hnone
      cases hnone
  rw [List.find?_append, hfind, List.length_append, List.length_singleton]
  by_cases ho : decisive kind o.2 = true
  · simp [ho]
  · simp [ho]

variable {resolution : Resolution ν}

theorem verdict_append (h : verdict env kind n outcomes = some resolution)
    (more : List (Outcome ν)) (hfits : Fits n (outcomes ++ more)) :
    verdict env kind n (outcomes ++ more) = some resolution := by
  have hlength := hfits.length_le
  rw [List.length_append] at hlength
  cases hf : outcomes.find? fun o => decisive kind o.2 with
  | some o =>
    unfold verdict at h ⊢
    rw [hf] at h
    rw [List.find?_append, hf]
    exact h
  | none =>
    -- all members have settled: there is no further settlement
    have hdone : outcomes.length = n := by
      unfold verdict at h
      rw [hf] at h
      dsimp only at h
      split at h
      · rename_i hc
        exact hc.2
      · cases h
    have hmore : more = [] := List.length_eq_zero_iff.1 (by omega)
    rw [hmore, List.append_nil]
    exact h

/-! ### The record of an aggregate -/

/-- The values that are stored after the settlements. -/
def recorded (env : Env ν η) (kind : AggregateKind) (outcomes : List (Outcome ν)) :
    Assoc ℕ (Value ν) :=
  outcomes.foldl (fun m o => m.put o.1 (entry env kind o.2)) ∅

def recordOf (env : Env ν η) (kind : AggregateKind) (p n : ℕ) (outcomes : List (Outcome ν)) :
    Aggregate ν :=
  ⟨kind, p, n - outcomes.length, recorded env kind outcomes⟩

theorem recordOf_concat (outcomes : List (Outcome ν)) (i : ℕ) (r : Result ν) :
    (recordOf env kind p n outcomes).record i (entry env kind r) =
      recordOf env kind p n (outcomes ++ [(i, r)]) := by
  unfold recordOf Aggregate.record recorded
  rw [List.foldl_append, List.length_append, List.length_singleton, ← Nat.sub_sub]
  rfl

variable {i : ℕ} {r : Result ν}

theorem lookup_of_disjoint
    (hdisjoint : ∀ a ∈ outcomes.map Prod.fst, ∀ b ∈ [(i, r)].map Prod.fst, a ≠ b) :
    outcomes.lookup i = none := by
  rw [List.lookup_eq_none_iff]
  intro o ho
  have hne := hdisjoint o.1 (List.mem_map_of_mem ho) i (by simp)
  simpa using Ne.symm hne

theorem get?_recorded (h : (outcomes.map Prod.fst).Nodup) (i : ℕ) :
    (recorded env kind outcomes).get? i = (outcomes.lookup i).map (entry env kind) := by
  induction outcomes using List.reverseRecOn with
  | nil => rfl
  | append_singleton outcomes o ih =>
    obtain ⟨j, r⟩ := o
    rw [List.map_append, List.nodup_append] at h
    obtain ⟨hnodup, -, hdisjoint⟩ := h
    unfold recorded
    rw [List.foldl_append, List.lookup_append]
    show ((recorded env kind outcomes).put j (entry env kind r)).get? i = _
    rw [Assoc.get?_put_eq]
    by_cases hij : i = j
    · subst hij
      rw [if_pos rfl, lookup_of_disjoint hdisjoint]
      simp
    · rw [if_neg hij, ih hnodup]
      have hbeq : (i == j) = false := by simpa using hij
      simp [List.lookup_cons, hbeq]

theorem size_recorded (h : (outcomes.map Prod.fst).Nodup) :
    (recorded env kind outcomes).size = outcomes.length := by
  induction outcomes using List.reverseRecOn with
  | nil => rfl
  | append_singleton outcomes o ih =>
    obtain ⟨j, r⟩ := o
    rw [List.map_append, List.nodup_append] at h
    obtain ⟨hnodup, -, hdisjoint⟩ := h
    have hnew : (recorded env kind outcomes).get? j = none := by
      rw [get?_recorded hnodup, lookup_of_disjoint hdisjoint, Option.map_none]
    unfold recorded
    rw [List.foldl_append]
    show ((recorded env kind outcomes).put j (entry env kind r)).size = _
    rw [Assoc.size_eq_sumBy, Assoc.sumBy_put_new _ _ hnew, ← Assoc.size_eq_sumBy, ih hnodup,
      List.length_append]
    exact Nat.add_comm _ _

theorem lookup_isSome (hfits : Fits n outcomes) (hlength : outcomes.length = n) (hi : i < n) :
    (outcomes.lookup i).isSome := by
  have hsub : (outcomes.map Prod.fst).toFinset ⊆ Finset.range n := by
    intro k hk
    obtain ⟨o, ho, rfl⟩ := List.mem_map.1 (List.mem_toFinset.1 hk)
    exact Finset.mem_range.2 (hfits.lt o ho)
  have hcard : (Finset.range n).card ≤ (outcomes.map Prod.fst).toFinset.card := by
    rw [List.toFinset_card_of_nodup hfits.nodup, List.length_map, hlength, Finset.card_range]
  have hmem : i ∈ (outcomes.map Prod.fst).toFinset := by
    rw [Finset.eq_of_subset_of_card_le hsub hcard]
    exact Finset.mem_range.2 hi
  obtain ⟨o, ho, rfl⟩ := List.mem_map.1 (List.mem_toFinset.1 hmem)
  rw [Option.isSome_iff_ne_none]
  intro hnone
  have hne := List.lookup_eq_none_iff.1 hnone o ho
  simp at hne

theorem mapM_eq_filterMap {α β : Type*} {f : α → Option β} :
    ∀ {l : List α}, (∀ a ∈ l, (f a).isSome) → l.mapM f = some (l.filterMap f)
  | [], _ => rfl
  | a :: l, h => by
    obtain ⟨b, hb⟩ := Option.isSome_iff_exists.1 (h a List.mem_cons_self)
    have htail := mapM_eq_filterMap fun c hc => h c (List.mem_cons_of_mem _ hc)
    rw [List.mapM_cons, hb, htail, List.filterMap_cons, hb]
    rfl

theorem orderedValues_recordOf (hfits : Fits n outcomes) (hlength : outcomes.length = n) :
    orderedValues (recordOf env kind p n outcomes) = some (entries env kind n outcomes) := by
  unfold orderedValues recordOf entries
  dsimp only
  rw [size_recorded hfits.nodup, hlength]
  have hget : (recorded env kind outcomes).get? =
      fun i => (outcomes.lookup i).map (entry env kind) := by
    funext i
    exact get?_recorded hfits.nodup i
  rw [hget]
  refine mapM_eq_filterMap fun i hi => ?_
  rw [Option.isSome_map]
  exact lookup_isSome hfits hlength (List.mem_range.1 hi)

theorem finishOrStore_recordOf {outcomes : List (Outcome ν)} (hfits : Fits n outcomes)
    (hle : outcomes.length ≤ n) :
    finishOrStore env s id (recordOf env kind p n outcomes) (complete env kind) =
      if outcomes.length = n then
        settle env { s with aggregates := s.aggregates.delete id } p
          (complete env kind (entries env kind n outcomes))
      else some { s with aggregates := s.aggregates.put id (recordOf env kind p n outcomes) } := by
  unfold finishOrStore
  by_cases hlength : outcomes.length = n
  · have hzero : (recordOf env kind p n outcomes).remaining = 0 := by
      show n - outcomes.length = 0
      omega
    rw [if_pos hzero, if_pos hlength, orderedValues_recordOf hfits hlength]
    rfl
  · have hpos : (recordOf env kind p n outcomes).remaining ≠ 0 := by
      show n - outcomes.length ≠ 0
      omega
    rw [if_neg hpos, if_neg hlength]

/-- **One settlement** of an undecided aggregate decides it or is recorded. -/
theorem updateAggregate_recordOf (hfits : Fits n (outcomes ++ [(i, r)]))
    (hnone : verdict env kind n outcomes = none) :
    updateAggregate env s id (recordOf env kind p n outcomes) i r =
      match verdict env kind n (outcomes ++ [(i, r)]) with
      | some resolution =>
          settle env { s with aggregates := s.aggregates.delete id } p resolution
      | none =>
          some { s with
            aggregates := s.aggregates.put id (recordOf env kind p n (outcomes ++ [(i, r)])) } := by
  have hlength := hfits.length_le
  rw [List.length_append, List.length_singleton] at hlength
  rw [verdict_concat (i, r) hnone]
  have hfinish := @finishOrStore_recordOf ν η env s p id n kind _ hfits hfits.length_le
  rw [List.length_append, List.length_singleton] at hfinish
  cases hd : decisive kind r with
  | true =>
    rw [if_pos rfl]
    cases kind with
    | race => rfl
    | all =>
      cases r with
      | ok v => cases hd
      | error reason => rfl
    | any =>
      cases r with
      | ok v => rfl
      | error reason => cases hd
    | allSettled => cases r <;> cases hd
  | false =>
    have hkind : kind ≠ .race := by
      rintro rfl
      cases hd
    have hrecord : updateAggregate env s id (recordOf env kind p n outcomes) i r =
        finishOrStore env s id (recordOf env kind p n (outcomes ++ [(i, r)]))
          (complete env kind) := by
      rw [← recordOf_concat]
      cases kind with
      | race => exact absurd rfl hkind
      | all =>
        cases r with
        | ok v => rfl
        | error reason => cases hd
      | any =>
        cases r with
        | ok v => cases hd
        | error reason => rfl
      | allSettled => cases r <;> rfl
    rw [hrecord, hfinish]
    by_cases hn : outcomes.length + 1 = n
    · rw [if_pos hn, if_neg Bool.false_ne_true, if_pos ⟨hkind, hn⟩]
    · rw [if_neg hn, if_neg Bool.false_ne_true, if_neg fun h => hn h.2]

/-! ### The members -/

/-- The settlements of the members, in the order in which they made their jobs. -/
def settlements (s : State ν η) (id : ℕ) : List (Outcome ν) :=
  s.history.filterMap fun e => e.2.outcome? id

def queued (s : State ν η) (id : ℕ) : List (Outcome ν) := s.jobs.filterMap (Job.outcome? id)

/-- The state of the promise that `promise_from_value/2` makes of a value. -/
def resolvedState (env : Env ν η) (heap : η) : Plain ν → PromiseState ν
  | .term v => .settled (.ok (.term v))
  | .object o =>
    match env.thenCallable heap o with
    | .none => .settled (.ok (.object o))
    | _ => .resolving

/-- The promises that a combinator waits for: a promise itself, or a new promise that is
resolved with the value. -/
structure Members (env : Env ν η) (s s' : State ν η) (values : List (Value ν))
    (members : List ℕ) : Prop where
  length : members.length = values.length
  promise : ∀ i q : ℕ, values[i]? = some (Value.promise q) → members[i]? = some q
  plain : ∀ (i : ℕ) v, values[i]? = some (Value.plain v) → ∃ q, members[i]? = some q ∧
    s.nextPromise ≤ q ∧ s'.promises.get? q = some (resolvedState env s.heap v)

variable {q : ℕ}

theorem settlePlain_new {v : Plain ν} (hq : s.promises.get? q = some .pending)
    (h : settlePlain env s q v = some s') :
    s'.promises.get? q = some (resolvedState env s.heap v) ∧ s'.heap = s.heap ∧
      s'.registered = s.registered := by
  have hsettled (r : Result ν) (hr : settleResult s q r = some s') :
      s'.promises.get? q = some (.settled r) ∧ s'.heap = s.heap ∧
        s'.registered = s.registered := by
    unfold settleResult at hr
    rw [hq] at hr
    cases hr
    show (s.wake q r).promises.get? q = _ ∧ (s.wake q r).heap = _ ∧ (s.wake q r).registered = _
    rw [wake_eq]
    exact ⟨Assoc.get?_put .., rfl, rfl⟩
  cases v with
  | term v => exact hsettled _ h
  | object o =>
    unfold settlePlain at h
    rw [hq] at h
    unfold resolvedState
    dsimp only [Option.bind_some] at h ⊢
    cases hthen : env.thenCallable s.heap o with
    | none =>
      rw [hthen] at h
      exact hsettled _ h
    | callable c =>
      rw [hthen] at h
      cases h
      exact ⟨Assoc.get?_put .., rfl, rfl⟩
    | getter g receiver =>
      rw [hthen] at h
      cases h
      exact ⟨Assoc.get?_put .., rfl, rfl⟩

theorem resolvedState_ne_pending (heap : η) (v : Plain ν) :
    resolvedState env heap v ≠ .pending := by
  unfold resolvedState
  split
  · exact fun he => nomatch he
  · split <;> exact fun he => nomatch he

variable {w : Waiter ν}

theorem heap_attach (h : attach s q w = some s') : s'.heap = s.heap := by
  obtain ⟨st, -, rfl⟩ := Option.map_eq_some_iff.1 h
  cases st.result? <;> rfl

theorem memberships_attach (h : attach s q (.aggregate id i) = some s') :
    memberships s' id = memberships s id ++ [(q, i)] := by
  have hw : (Waiter.aggregate id i : Waiter ν).membership? id q = some (q, i) := if_pos rfl
  have hregister := memberships_register s q (.aggregate id i) false id
  rw [hw] at hregister
  obtain ⟨st, -, rfl⟩ := Option.map_eq_some_iff.1 h
  cases st.result? with
  | none => exact hregister
  | some r => exact hregister

/-- What one round of `aggregate_into/4` makes of a value: its member. -/
structure Member (env : Env ν η) (s s' : State ν η) (v : Value ν) (q : ℕ) : Prop where
  promise : ∀ q', v = .promise q' → q = q'
  plain : ∀ v', v = .plain v' → s.nextPromise ≤ q ∧
    s'.promises.get? q = some (resolvedState env s.heap v')

variable {v : Value ν}

theorem aggregateValue_member (hf : Fresh s) (h : aggregateValue env id s (v, i) = some s') :
    ∃ q, memberships s' id = memberships s id ++ [(q, i)] ∧ s'.heap = s.heap ∧
      Member env s s' v q := by
  obtain ⟨⟨q, t⟩, ht, h⟩ := Option.bind_eq_some_iff.1 h
  refine ⟨q, ?_⟩
  rw [memberships_attach h]
  cases v with
  | promise q' =>
    cases ht
    refine ⟨rfl, heap_attach h, ?_, fun v' he => nomatch he⟩
    rintro q' ⟨⟩
    rfl
  | plain v =>
    have hfresh : Fresh t := (fromValue_acts ht).fresh hf
    obtain ⟨u, hu, he⟩ := Option.map_eq_some_iff.1 ht
    cases he
    have hnew : (new s).2.promises.get? s.nextPromise = some .pending := Assoc.get?_put ..
    obtain ⟨hstate, hheap, hregistered⟩ := settlePlain_new hnew hu
    have hmem : memberships t id = memberships s id := by
      unfold memberships
      rw [hregistered]
      rfl
    refine ⟨by rw [hmem], (heap_attach h).trans hheap, fun q' he => (nomatch he), ?_⟩
    rintro v' ⟨⟩
    have hacts : Acts t s' := attach_acts rfl h
    exact ⟨le_refl _, hacts.promise hfresh hstate (resolvedState_ne_pending _ _)⟩

variable {values : List (Value ν)}

theorem aggregateValues_members : ∀ {k : ℕ} {s : State ν η}, Fresh s →
    (values.zipIdx k).foldlM (aggregateValue env id) s = some s' →
    ∃ members : List ℕ, memberships s' id = memberships s id ++ members.zipIdx k ∧
      s'.heap = s.heap ∧ Members env s s' values members := by
  induction values with
  | nil =>
    intro k s _ h
    cases h
    exact ⟨[], by simp, rfl, rfl, by simp, by simp⟩
  | cons v values ih =>
    intro k s hf h
    rw [List.zipIdx_cons, List.foldlM_cons] at h
    obtain ⟨t, ht, h⟩ := Option.bind_eq_some_iff.1 h
    have hone : [(v, k)].foldlM (aggregateValue env id) s = some t := by
      rw [List.foldlM_cons, ht]
      rfl
    have hacts : Acts s t := aggregateValues_acts id _ s t hone
    obtain ⟨q, hmem, hheap, hmember⟩ := aggregateValue_member hf ht
    obtain ⟨members, hmems, hheap', hmembers⟩ := ih (hacts.fresh hf) h
    have hframe : Frame 0 (id + 1) True s t :=
      aggregateValues_frame (Nat.ne_of_lt (Nat.lt_succ_self id)) _ s t hone
    have hnext : s.nextPromise ≤ t.nextPromise := hframe.nextPromise
    refine ⟨q :: members, ?_, hheap'.trans hheap, ?_⟩
    · rw [hmems, hmem, List.zipIdx_cons, List.append_assoc]
      rfl
    · constructor
      · rw [List.length_cons, List.length_cons, hmembers.length]
      · intro i q' hi
        cases i with
        | zero =>
          rw [hmember.promise q' (Option.some.inj hi)]
          rfl
        | succ i => exact hmembers.promise i q' hi
      · intro i v' hi
        cases i with
        | zero =>
          obtain ⟨hle, hstate⟩ := hmember.plain v' (Option.some.inj hi)
          have hlater := aggregateValues_acts id _ t s' h
          exact ⟨q, rfl, hle,
            hlater.promise (hacts.fresh hf) hstate (resolvedState_ne_pending _ _)⟩
        | succ i =>
          obtain ⟨q', hq', hle, hstate⟩ := hmembers.plain i v' hi
          rw [hheap] at hstate
          exact ⟨q', hq', le_trans hnext hle, hstate⟩

/-! ### The settlements of the members -/

/-- The jobs of the aggregate `id` are made of waiters. -/
def Traced (id : ℕ) (s : State ν η) : Prop :=
  ∀ e ∈ s.history, e.1 = none → e.2.outcome? id = none

theorem memberships_eq (s : State ν η) (id : ℕ) :
    memberships s id = s.registered.filterMap fun e => e.waiter.membership? id e.promise := by
  refine List.filterMap_congr fun e _ => ?_
  cases e.waiter <;> rfl

theorem membership?_eq_some {q q' i : ℕ} (h : w.membership? id q = some (q', i)) :
    w = .aggregate id i ∧ q = q' := by
  cases w with
  | aggregate id' index =>
    unfold Waiter.membership? at h
    dsimp only at h
    split at h
    · rename_i hid
      cases h
      rw [hid]
      exact ⟨rfl, rfl⟩
    · cases h
  | _ => cases h

theorem outcome?_job {r r' : Result ν} (h : (w.job r').outcome? id = some (i, r)) :
    w = .aggregate id i ∧ r' = r := by
  cases w with
  | aggregate id' index =>
    have h' : (if id' = id then some (index, r') else none) = some (i, r) := h
    split at h'
    · rename_i hid
      cases h'
      rw [hid]
      exact ⟨rfl, rfl⟩
    · cases h'
  | _ => cases h

theorem member_of_outcome (hl : Ledger s) (ht : Traced id s) {e : Option ℕ × Job ν}
    (he : e ∈ s.history) (ho : e.2.outcome? id = some (i, r)) :
    ∃ q, e.1 = some q ∧ s.promises.get? q = some (.settled r) ∧ (q, i) ∈ memberships s id := by
  obtain ⟨origin, job⟩ := e
  cases origin with
  | none =>
    rw [ht _ he rfl] at ho
    cases ho
  | some q =>
    have hmade : job ∈ made s q := List.mem_filterMap.2 ⟨_, he, if_pos rfl⟩
    have hsettled : Settled s q := by
      by_contra hnot
      rw [(hl.unsettled q hnot).1] at hmade
      cases hmade
    obtain ⟨r', hr'⟩ := hsettled
    rw [(hl.settled q r' hr').2] at hmade
    obtain ⟨w, hw, rfl⟩ := List.mem_map.1 hmade
    obtain ⟨rfl, rfl⟩ := outcome?_job ho
    obtain ⟨e', he', hreg⟩ := List.mem_filterMap.1 hw
    split at hreg
    · rename_i hc
      refine ⟨q, rfl, hr', ?_⟩
      rw [memberships_eq, List.mem_filterMap]
      refine ⟨e', he', ?_⟩
      rw [Option.some.inj hreg, hc.1]
      exact if_pos rfl
    · cases hreg

theorem outcome_of_member (hl : Ledger s) (hm : (q, i) ∈ memberships s id)
    (hq : s.promises.get? q = some (.settled r)) : (i, r) ∈ settlements s id := by
  rw [memberships_eq, List.mem_filterMap] at hm
  obtain ⟨e, he, hw⟩ := hm
  obtain ⟨hwaiter, hpromise⟩ := membership?_eq_some hw
  have howed : e.immediate = false := by
    cases him : e.immediate with
    | false => rfl
    | true =>
      have htarget := (hl.immediate e he him).2
      rw [hwaiter] at htarget
      cases htarget
  have hreg : Waiter.aggregate id i ∈ registrations s q :=
    List.mem_filterMap.2 ⟨e, he, by rw [if_pos ⟨hpromise, howed⟩, hwaiter]⟩
  have hmade : Job.aggregateSettle id i r ∈ made s q := by
    rw [(hl.settled q r hq).2]
    exact List.mem_map.2 ⟨_, hreg, rfl⟩
  obtain ⟨e', he', horigin⟩ := List.mem_filterMap.1 hmade
  split at horigin
  · refine List.mem_filterMap.2 ⟨e', he', ?_⟩
    rw [Option.some.inj horigin]
    exact if_pos rfl
  · cases horigin

variable {members : List ℕ}

theorem mem_memberships_iff (hm : memberships s id = members.zipIdx) :
    (q, i) ∈ memberships s id ↔ members[i]? = some q := by
  rw [hm]
  exact List.mem_zipIdx_iff_getElem?

theorem mem_settlements_iff (hl : Ledger s) (ht : Traced id s)
    (hm : memberships s id = members.zipIdx) : (i, r) ∈ settlements s id ↔
      ∃ q, members[i]? = some q ∧ s.promises.get? q = some (.settled r) := by
  constructor
  · intro h
    obtain ⟨e, he, ho⟩ := List.mem_filterMap.1 h
    obtain ⟨q, -, hq, hmem⟩ := member_of_outcome hl ht he ho
    exact ⟨q, (mem_memberships_iff hm).1 hmem, hq⟩
  · rintro ⟨q, hi, hq⟩
    exact outcome_of_member hl ((mem_memberships_iff hm).2 hi) hq

theorem isKey_job (w : Waiter ν) (r : Result ν) (q i : ℕ) :
    ((w.job r).outcome? id).map Prod.fst = some i ↔ w.membership? id q = some (q, i) := by
  cases w with
  | aggregate id' index =>
    show (if id' = id then some (index, r) else none).map Prod.fst = some i ↔
      (if id' = id then some (q, index) else none) = some (q, i)
    by_cases hid : id' = id
    · simp [hid]
    · simp [hid]
  | coroutine c => exact iff_of_false (fun he => nomatch he) (fun he => nomatch he)
  | reaction rx => exact iff_of_false (fun he => nomatch he) (fun he => nomatch he)
  | adopt target => exact iff_of_false (fun he => nomatch he) (fun he => nomatch he)
  | finallyAdopt target original =>
    exact iff_of_false (fun he => nomatch he) (fun he => nomatch he)

theorem count_memberships_le (hm : memberships s id = members.zipIdx) (m : ℕ × ℕ) :
    (memberships s id).count m ≤ 1 := by
  have hnodup : (members.zipIdx.map Prod.snd).Nodup := by
    rw [List.zipIdx_map_snd]
    exact List.nodup_range'
  rw [hm]
  exact List.nodup_iff_count_le_one.1 hnodup.of_map m

theorem count_settlements_le (hl : Ledger s) (ht : Traced id s)
    (hm : memberships s id = members.zipIdx) (i : ℕ) :
    ((settlements s id).map Prod.fst).count i ≤ 1 := by
  by_cases hi : i ∈ (settlements s id).map Prod.fst
  · obtain ⟨⟨i', r⟩, ho, rfl⟩ := List.mem_map.1 hi
    obtain ⟨q, hmember, hq⟩ := (mem_settlements_iff hl ht hm).1 ho
    calc ((settlements s id).map Prod.fst).count i'
        = s.history.countP fun e => (e.2.outcome? id).map Prod.fst = some i' := by
          rw [List.count, List.countP_map, settlements, List.countP_filterMap]
          refine List.countP_congr fun e _ => ?_
          cases e.2.outcome? id <;> simp
      _ = (made s q).countP fun job => (job.outcome? id).map Prod.fst = some i' := by
          rw [made, List.countP_filterMap]
          refine List.countP_congr fun e he => ?_
          by_cases hq' : e.1 = some q
          · simp [hq']
          · rw [if_neg hq']
            simp only [decide_eq_true_eq, Option.map_none, Option.getD_none, Bool.false_eq_true,
              iff_false]
            intro hkey
            obtain ⟨⟨i₁, r₁⟩, ho₁, rfl⟩ := Option.map_eq_some_iff.1 hkey
            obtain ⟨q₁, he₁, -, hmem₁⟩ := member_of_outcome hl ht he ho₁
            have hsame := (mem_memberships_iff hm).1 hmem₁
            rw [hmember] at hsame
            rw [Option.some.inj hsame] at hq'
            exact hq' he₁
      _ = (registrations s q).countP fun w => w.membership? id q = some (q, i') := by
          rw [(hl.settled q r hq).2, List.countP_map]
          refine List.countP_congr fun w _ => ?_
          simp only [Function.comp, decide_eq_true_eq]
          exact isKey_job w r q i'
      _ ≤ s.registered.countP fun e => e.waiter.membership? id e.promise = some (q, i') := by
          rw [registrations, List.countP_filterMap]
          refine List.countP_mono_left fun e _ h => ?_
          by_cases hc : e.promise = q ∧ e.immediate = false
          · rw [if_pos hc] at h
            rw [hc.1]
            exact h
          · rw [if_neg hc] at h
            cases h
      _ = (memberships s id).count (q, i') := by
          rw [memberships_eq, List.count, List.countP_filterMap]
          refine List.countP_congr fun e _ => ?_
          cases e.waiter.membership? id e.promise <;> simp
      _ ≤ 1 := count_memberships_le hm _
  · rw [List.count_eq_zero_of_not_mem hi]
    exact Nat.zero_le 1

theorem fits_settlements (hl : Ledger s) (ht : Traced id s)
    (hm : memberships s id = members.zipIdx) : Fits members.length (settlements s id) := by
  refine ⟨List.nodup_iff_count_le_one.2 (count_settlements_le hl ht hm), ?_⟩
  rintro ⟨i, r⟩ ho
  obtain ⟨q, hi, -⟩ := (mem_settlements_iff hl ht hm).1 ho
  exact (List.getElem?_eq_some_iff.1 hi).1

/-! ### One step -/

theorem Grows.settlements (h : Grows id s s') : ∃ new, settlements s' id = settlements s id ++ new ∧
    queued s' id = queued s id ++ new := by
  obtain ⟨new, hhistory, hjobs, -⟩ := h
  refine ⟨new.filterMap fun e => e.2.outcome? id, ?_, ?_⟩
  · rw [Promise.settlements, hhistory, List.filterMap_append]
    rfl
  · rw [queued, hjobs, List.filterMap_append, List.filterMap_map]
    rfl

theorem Grows.traced (h : Grows id s s') (ht : Traced id s) : Traced id s' := by
  obtain ⟨new, hhistory, -, hnew⟩ := h
  intro e he
  rw [hhistory] at he
  rcases List.mem_append.1 he with he | he
  · exact ht e he
  · exact hnew e he

theorem runJob_step (h : step env s .runJob = some s') :
    ∃ job rest, s.jobs = job :: rest ∧ runJob env { s with jobs := rest } job = some s' := by
  simp only [step] at h
  split at h
  · cases h
  · rename_i job rest hjobs
    exact ⟨job, rest, hjobs, h⟩

variable {e : Event ν η}

theorem step_settled (hf : Fresh s) (h : step env s e = some s')
    (hq : s.promises.get? q = some (.settled r)) : s'.promises.get? q = some (.settled r) := by
  obtain ⟨t, htake, hrest⟩ := step_rest hf h
  have hqt : t.promises.get? q = some (.settled r) := by rw [htake.promises, hq]
  have hft : Fresh t := htake.fresh hf
  cases hrest with
  | acts hacts => exact hacts.promise hft hqt fun he => nomatch he
  | unlock q' hq' hacts ht =>
    have hne : q ≠ q' := by
      rintro rfl
      rw [hqt] at hq'
      cases hq'
    have hf' : Fresh (t.setPromise q' .pending) := fun a ha => hft.put hq' _ ha
    exact hacts.promise hf' ((Assoc.get?_put_ne _ _ hne).trans hqt) fun he => nomatch he
  | assimilate q' v c he =>
    rw [he]
    exact hqt
  | microtask r' _ he =>
    rw [he]
    exact hqt

theorem step_mono (h : step env s e = some s') :
    s.nextPromise ≤ s'.nextPromise ∧ s.nextRef ≤ s'.nextRef := by
  by_cases he : e = .runJob
  · subst he
    obtain ⟨job, rest, -, hrun⟩ := runJob_step h
    have hout : ∃ id, job.outcome? id = none := by
      cases job with
      | aggregateSettle id index r =>
        exact ⟨id + 1, if_neg (Nat.ne_of_lt (Nat.lt_succ_self id))⟩
      | _ => exact ⟨0, rfl⟩
    obtain ⟨id, hid⟩ := hout
    have hframe : Frame 0 id False { s with jobs := rest } s' :=
      runJob_frame hid False.elim False.elim hrun
    exact ⟨hframe.nextPromise, hframe.nextRef⟩
  · have hframe : Frame 0 s'.nextRef _ s s' := step_frame (.inl (le_refl _)) he h
    exact ⟨hframe.nextPromise, hframe.nextRef⟩

/-- What a step that runs no job of the aggregate `id` keeps. -/
structure Other (p id : ℕ) (e : Event ν η) (s s' : State ν η) : Prop where
  aggregate : s'.aggregates.get? id = s.aggregates.get? id
  memberships : memberships s' id = memberships s id
  traced : Traced id s → Traced id s'
  settlements : ∃ new, settlements s' id = settlements s id ++ new ∧
    queued s' id = queued s id ++ new
  promise : ¬ Resolves p e → Apart p s.nextPromise s'.nextPromise → Quiet p id s →
    Quiet p id s' ∧ s'.promises.get? p = s.promises.get? p

variable {rest : List (Job ν)}

theorem quiet_tail {job : Job ν} (hjobs : s.jobs = job :: rest) (h : Quiet p id s) :
    Quiet p id { s with jobs := rest } :=
  { h with jobs := fun j hj => h.jobs j (by rw [hjobs]; exact List.mem_cons_of_mem _ hj) }

theorem step_other (hid : Apart id s.nextRef s'.nextRef)
    (hjob : e = .runJob → ∀ job ∈ s.jobs.head?, job.outcome? id = none)
    (h : step env s e = some s') : Other p id e s s' := by
  by_cases he : e = .runJob
  · subst he
    obtain ⟨job, rest, hjobs, hrun⟩ := runJob_step h
    have hout : job.outcome? id = none := hjob rfl job (by rw [hjobs]; rfl)
    have hmem : job ∈ s.jobs := by rw [hjobs]; exact List.mem_cons_self
    have hframe : Frame p id (Quiet p id s) { s with jobs := rest } s' :=
      runJob_frame hout (fun hq => hq.jobs job hmem) (fun hq => hq.aggregates) hrun
    have hqueued : queued s id = queued { s with jobs := rest } id := by
      rw [queued, hjobs, List.filterMap_cons, hout]
      rfl
    obtain ⟨haggregate, hmemberships⟩ := hframe.aggregate hid
    refine ⟨haggregate, hmemberships, hframe.grows.traced, ?_, fun _ hp hq => ?_⟩
    · rw [hqueued]
      exact hframe.grows.settlements
    · exact hframe.promise hq hp (quiet_tail hjobs hq)
  · have hframe : Frame p id _ s s' := step_frame hid he h
    obtain ⟨haggregate, hmemberships⟩ := hframe.aggregate hid
    exact ⟨haggregate, hmemberships, hframe.grows.traced, hframe.grows.settlements,
      fun hres hp hq => hframe.promise ⟨hq, hres⟩ hp hq⟩

/-! ### Before the combinator -/

/-- Nothing resolves `p`, and there is no aggregate `id` yet. -/
structure Before (p id : ℕ) (s : State ν η) : Prop where
  ledger : Ledger s
  traced : Traced id s
  memberships : memberships s id = []
  quiet : Quiet p id s

theorem Before.settlements (h : Before p id s) : settlements s id = [] := by
  refine List.eq_nil_iff_forall_not_mem.2 ?_
  rintro ⟨i, r⟩ ho
  have hm : Promise.memberships s id = ([] : List ℕ).zipIdx := h.memberships
  obtain ⟨q, hq, -⟩ := (mem_settlements_iff h.ledger h.traced hm).1 ho
  cases hq

theorem Before.queued (h : Before p id s) : queued s id = [] := by
  obtain ⟨done, hdone⟩ := h.ledger.queue
  have hall : Promise.settlements s id = done.filterMap (Job.outcome? id) ++ Promise.queued s id := by
    rw [Promise.queued, ← List.filterMap_append, ← hdone, List.filterMap_map]
    rfl
  rw [h.settlements] at hall
  exact (List.append_eq_nil_iff.1 hall.symm).2

theorem initial_before (heap : η) : Before p id (initial heap : State ν η) := by
  refine ⟨initial_ledger heap, fun _ he => (nomatch he), rfl, ?_⟩
  constructor
  · exact fun q w hw => nomatch hw
  · exact fun j hj => nomatch hj
  · exact fun j hj => nomatch hj
  · exact fun g b hb => nomatch hb
  · exact fun a b hb => nomatch hb
  · exact fun a b hb => nomatch hb
  · exact fun a b hb => nomatch hb

theorem Before.step (hb : Before p id s) {e : Event ν η} (he : ¬ Resolves p e)
    (h : step env s e = some s') (hp : Apart p s.nextPromise s'.nextPromise)
    (hid : s'.nextRef ≤ id) : Before p id s' ∧ s'.promises.get? p = s.promises.get? p := by
  have hjob : ∀ job ∈ s.jobs.head?, job.outcome? id = none := by
    intro job hjob
    cases ho : job.outcome? id with
    | none => rfl
    | some o =>
      have hmem : o ∈ Promise.queued s id :=
        List.mem_filterMap.2 ⟨job, List.mem_of_mem_head? hjob, ho⟩
      rw [hb.queued] at hmem
      cases hmem
  have hother : Other p id e s s' := step_other (.inl hid) (fun _ => hjob) h
  obtain ⟨hquiet, hsame⟩ := hother.promise he hp hb.quiet
  exact ⟨⟨step_ledger hb.ledger h, hother.traced hb.traced,
    hother.memberships.trans hb.memberships, hquiet⟩, hsame⟩

/-- The events leave `p` to the combinator. -/
abbrev Leaves (p : ℕ) (_ : State ν η) (e : Event ν η) : Prop := ¬ Resolves p e

variable {es : List (Event ν η)}

theorem run_mono (hr : (machine env).GuardedRun (Leaves p) s es s') :
    s.nextPromise ≤ s'.nextPromise ∧ s.nextRef ≤ s'.nextRef := by
  induction hr with
  | nil => exact ⟨le_refl _, le_refl _⟩
  | snoc _ _ hstep ih =>
    obtain ⟨hp, hr⟩ := step_mono hstep
    exact ⟨le_trans ih.1 hp, le_trans ih.2 hr⟩

theorem before_of_run (hb : Before p id s) (hr : (machine env).GuardedRun (Leaves p) s es s')
    (hp : Apart p s.nextPromise s'.nextPromise) (hid : s'.nextRef ≤ id) :
    Before p id s' ∧ s'.promises.get? p = s.promises.get? p := by
  induction hr with
  | nil => exact ⟨hb, rfl⟩
  | @snoc t u es e hrun he hstep ih =>
    obtain ⟨hmono, -⟩ := run_mono hrun
    obtain ⟨hp', hr'⟩ := step_mono hstep
    have hpt : Apart p s.nextPromise t.nextPromise := hp.imp (fun h => le_trans hp' h) fun h => h
    have hpu : Apart p t.nextPromise u.nextPromise :=
      hp.imp (fun h => h) fun h => lt_of_lt_of_le h hmono
    obtain ⟨hbt, hsame⟩ := ih hpt (le_trans hr' hid)
    obtain ⟨hbu, hsame'⟩ := hbt.step he hstep hpu hid
    exact ⟨hbu, hsame'.trans hsame⟩

/-! ### The combinator starts -/

/-- What the rounds of `aggregate_into/4` for the aggregate `id` itself keep. -/
structure Opening (p id : ℕ) (s s' : State ν η) : Prop where
  nextPromise : s.nextPromise ≤ s'.nextPromise
  nextRef : s.nextRef ≤ s'.nextRef
  grows : Grows id s s'
  aggregate : s'.aggregates.get? id = s.aggregates.get? id
  quiet : Quiet p id s → Quiet p id s'
  promise : s'.promises.get? p = s.promises.get? p

theorem Opening.trans (h₁ : Opening p id s t) (h₂ : Opening p id t s') : Opening p id s s' :=
  ⟨le_trans h₁.nextPromise h₂.nextPromise, le_trans h₁.nextRef h₂.nextRef,
    h₁.grows.trans h₂.grows, h₂.aggregate.trans h₁.aggregate, fun h => h₂.quiet (h₁.quiet h),
    h₂.promise.trans h₁.promise⟩

theorem attach_opening (hw : w.feeds? ≠ some p) (h : attach s q w = some s') :
    Opening p id s s' := by
  obtain ⟨st, -, rfl⟩ := Option.map_eq_some_iff.1 h
  cases st.result? with
  | none =>
    exact ⟨le_refl _, le_refl _, .same rfl rfl, rfl, quiet_addWaiter hw, rfl⟩
  | some r =>
    have hgrows : Grows id (s.register q w false)
        ((s.register q w false).enqueue (some q) (w.job r)) := grows_enqueue fun he => nomatch he
    refine ⟨le_refl _, le_refl _, Grows.trans (.same rfl rfl) hgrows, rfl, fun hq => ?_, rfl⟩
    refine { hq with jobs := fun j hj => ?_ }
    rcases List.mem_append.1 hj with hj | hj
    · exact hq.jobs j hj
    · rw [List.mem_singleton.1 hj, Waiter.feeds?_job]
      exact hw

theorem fromValue_opening (hp : p < s.nextPromise) (hid : id < s.nextRef) (hq : Quiet p id s)
    (h : fromValue env s v = some (q, s')) : Opening p id s s' := by
  have hframe : Frame p id True s s' := fromValue_frame h
  obtain ⟨hquiet, hsame⟩ := hframe.promise trivial (.inr hp) hq
  exact ⟨hframe.nextPromise, hframe.nextRef, hframe.grows, (hframe.aggregate (.inr hid)).1,
    fun _ => hquiet, hsame⟩

theorem aggregateValues_opening : ∀ (values : List (Value ν × ℕ)) (s s' : State ν η),
    p < s.nextPromise → id < s.nextRef → Quiet p id s →
    values.foldlM (aggregateValue env id) s = some s' → Opening p id s s'
  | [], s, s', _, _, _, h => by
    cases h
    exact ⟨le_refl _, le_refl _, .same rfl rfl, rfl, fun hq => hq, rfl⟩
  | v :: vs, s, s', hp, hid, hq, h => by
    rw [List.foldlM_cons] at h
    obtain ⟨t, ht, h⟩ := Option.bind_eq_some_iff.1 h
    obtain ⟨⟨q, u⟩, hu, ht⟩ := Option.bind_eq_some_iff.1 ht
    have hattach : Opening p id u t := attach_opening (by rintro ⟨⟩) ht
    have hround : Opening p id s t := (fromValue_opening hp hid hq hu).trans hattach
    exact hround.trans (aggregateValues_opening vs t s' (lt_of_lt_of_le hp hround.nextPromise)
      (lt_of_lt_of_le hid hround.nextRef) (hround.quiet hq) h)

/-! ### The books of a combinator -/

/-- What holds of the aggregate `id` with the settlements `outcomes` taken so far. -/
structure Books (p id : ℕ) (members : List ℕ) (outcomes : List (Outcome ν)) (s : State ν η) :
    Prop where
  ledger : Ledger s
  traced : Traced id s
  promise : p < s.nextPromise
  ref : id < s.nextRef
  memberships : memberships s id = members.zipIdx
  queue : settlements s id = outcomes ++ queued s id

/-- `p` was pending until one `settle/3` resolved it with `resolution`. -/
def ResolvedWith (env : Env ν η) (p : ℕ) (resolution : Resolution ν) (s : State ν η) : Prop :=
  ∃ t t' es, t.promises.get? p = some .pending ∧ settle env t p resolution = some t' ∧
    (machine env).GuardedRun (Leaves p) t' es s

def Resolution.settles? : Resolution ν → Option (Result ν)
  | .error reason => some (.error reason)
  | .ok (.plain (.term v)) => some (.ok (.term v))
  | .ok (.plain (.object _)) => none
  | .ok (.promise _) => none

theorem settle_settles (hr : resolution.settles? = some r)
    (hq : s.promises.get? q = some .pending) (h : settle env s q resolution = some s') :
    s'.promises.get? q = some (.settled r) := by
  have hresult : settleResult s q r = some s' := by
    cases resolution with
    | error reason => cases hr; exact h
    | ok v =>
      cases v with
      | promise q' => cases hr
      | plain v =>
        cases v with
        | object o => cases hr
        | term v => cases hr; exact h
  unfold settleResult at hresult
  rw [hq] at hresult
  cases hresult
  show (s.wake q r).promises.get? q = _
  rw [wake_eq]
  exact Assoc.get?_put ..

inductive Decision (env : Env ν η) (kind : AggregateKind) (p id n : ℕ)
    (outcomes : List (Outcome ν)) (s : State ν η) : Prop where
  | undecided (hverdict : verdict env kind n outcomes = none) (hquiet : Quiet p id s)
      (hp : s.promises.get? p = some .pending)
      (ha : s.aggregates.get? id = some (recordOf env kind p n outcomes))
  | decided (resolution : Resolution ν) (hverdict : verdict env kind n outcomes = some resolution)
      (ha : s.aggregates.get? id = none) (hresolved : ResolvedWith env p resolution s)
      (hsettled : ∀ r, resolution.settles? = some r → s.promises.get? p = some (.settled r))

theorem Fits.of_append {outcomes more : List (Outcome ν)} (h : Fits n (outcomes ++ more)) :
    Fits n outcomes := by
  refine ⟨?_, fun o ho => h.lt o (List.mem_append_left _ ho)⟩
  have hnodup := h.nodup
  rw [List.map_append] at hnodup
  exact (List.nodup_append.1 hnodup).1

theorem Books.fits (h : Books p id members outcomes s) :
    Fits members.length (outcomes ++ queued s id) := by
  rw [← h.queue]
  exact fits_settlements h.ledger h.traced h.memberships

theorem ResolvedWith.step {resolution : Resolution ν} (h : ResolvedWith env p resolution s)
    {e : Event ν η} (he : ¬ Resolves p e) (hstep : step env s e = some s') :
    ResolvedWith env p resolution s' := by
  obtain ⟨t, t', es, hp, hsettle, hrun⟩ := h
  exact ⟨t, t', es ++ [e], hp, hsettle, .snoc hrun he hstep⟩

variable {outcomes : List (Outcome ν)}

theorem books_other (hb : Books p id members outcomes s)
    (hd : Decision env kind p id n outcomes s) (he : ¬ Resolves p e)
    (hstep : step env s e = some s')
    (hjob : e = .runJob → ∀ job ∈ s.jobs.head?, job.outcome? id = none) :
    Books p id members outcomes s' ∧ Decision env kind p id n outcomes s' := by
  obtain ⟨hmonoP, hmonoR⟩ := step_mono hstep
  have hother : Other p id e s s' := step_other (.inr hb.ref) hjob hstep
  obtain ⟨new, hsettlements, hqueued⟩ := hother.settlements
  refine ⟨⟨step_ledger hb.ledger hstep, hother.traced hb.traced, lt_of_lt_of_le hb.promise hmonoP,
    lt_of_lt_of_le hb.ref hmonoR, hother.memberships.trans hb.memberships, ?_⟩, ?_⟩
  · rw [hsettlements, hb.queue, hqueued, List.append_assoc]
  · cases hd with
    | undecided hverdict hquiet hp ha =>
      obtain ⟨hquiet', hsame⟩ := hother.promise he (.inr hb.promise) hquiet
      exact .undecided hverdict hquiet' (hsame.trans hp) (hother.aggregate.trans ha)
    | decided resolution hverdict ha hresolved hsettled =>
      exact .decided resolution hverdict (hother.aggregate.trans ha) (hresolved.step he hstep)
        fun r hr => step_settled hb.ledger.fresh hstep (hsettled r hr)

theorem queued_cons (hjobs : s.jobs = .aggregateSettle id i r :: rest) :
    queued s id = (i, r) :: queued { s with jobs := rest } id := by
  have hout : (Job.aggregateSettle id i r).outcome? id = some (i, r) := if_pos rfl
  rw [queued, hjobs, List.filterMap_cons, hout]
  rfl

theorem Books.fits_next (hb : Books p id members outcomes s)
    (hjobs : s.jobs = .aggregateSettle id i r :: rest) :
    Fits members.length (outcomes ++ [(i, r)]) := by
  have hall := hb.fits
  rw [queued_cons hjobs, ← List.singleton_append, ← List.append_assoc] at hall
  exact hall.of_append

theorem books_settlement (hb : Books p id members outcomes s)
    (hd : Decision env kind p id members.length outcomes s)
    (hjobs : s.jobs = .aggregateSettle id i r :: rest) (hstep : step env s .runJob = some s') :
    Books p id members (outcomes ++ [(i, r)]) s' ∧
      Decision env kind p id members.length (outcomes ++ [(i, r)]) s' := by
  obtain ⟨hmonoP, hmonoR⟩ := step_mono hstep
  have hqueued := queued_cons hjobs
  have hfits := hb.fits_next hjobs
  have hbooks : Traced id s' → memberships s' id = memberships s id →
      (∃ new, settlements s' id = settlements s id ++ new ∧
        queued s' id = queued { s with jobs := rest } id ++ new) →
      Books p id members (outcomes ++ [(i, r)]) s' := by
    rintro htraced hmemberships ⟨new, hsettlements, hq⟩
    refine ⟨step_ledger hb.ledger hstep, htraced, lt_of_lt_of_le hb.promise hmonoP,
      lt_of_lt_of_le hb.ref hmonoR, hmemberships.trans hb.memberships, ?_⟩
    rw [hsettlements, hb.queue, hqueued, hq]
    simp only [List.append_assoc, List.cons_append, List.nil_append]
  obtain ⟨job, rest', hjobs', hrun⟩ := runJob_step hstep
  rw [hjobs] at hjobs'
  cases hjobs'
  have hsettle : settleAggregate env { s with jobs := rest } id i r = some s' := hrun
  unfold settleAggregate at hsettle
  cases hd with
  | undecided hverdict hquiet hp ha =>
    have ha' : { s with jobs := rest }.aggregates.get? id =
        some (recordOf env kind p members.length outcomes) := ha
    rw [ha'] at hsettle
    dsimp only at hsettle
    rw [updateAggregate_recordOf hfits hverdict] at hsettle
    cases hnew : verdict env kind members.length (outcomes ++ [(i, r)]) with
    | none =>
      -- it is recorded
      rw [hnew] at hsettle
      cases hsettle
      refine ⟨hbooks hb.traced rfl ⟨[], (List.append_nil _).symm, (List.append_nil _).symm⟩, ?_⟩
      have hq : Quiet p id { s with jobs := rest } := quiet_tail hjobs hquiet
      refine .undecided hnew { hq with aggregates := ?_ } hp (Assoc.get?_put ..)
      intro a b hget hne
      exact hq.aggregates a b ((Assoc.get?_put_ne _ _ hne).symm.trans hget) hne
    | some resolution =>
      -- it decides
      rw [hnew] at hsettle
      dsimp only at hsettle
      have hframe : Frame p id False
          { s with jobs := rest, aggregates := s.aggregates.delete id } s' :=
        settle_frame False.elim hsettle
      obtain ⟨haggregate, hmemberships⟩ := hframe.aggregate (.inr hb.ref)
      refine ⟨hbooks (hframe.grows.traced hb.traced) hmemberships hframe.grows.settlements, ?_⟩
      have hp' : { s with jobs := rest, aggregates := s.aggregates.delete id }.promises.get? p =
          some .pending := hp
      exact .decided resolution hnew (haggregate.trans (Assoc.get?_delete ..))
        ⟨_, s', [], hp', hsettle, .nil s'⟩ fun r' hr' => settle_settles hr' hp' hsettle
  | decided resolution hverdict ha hresolved hsettled =>
    have ha' : { s with jobs := rest }.aggregates.get? id = none := ha
    rw [ha'] at hsettle
    cases hsettle
    refine ⟨hbooks hb.traced rfl ⟨[], (List.append_nil _).symm, (List.append_nil _).symm⟩, ?_⟩
    have hleaves : ¬ Resolves p (.runJob : Event ν η) := not_false
    exact .decided resolution (verdict_append hverdict _ hfits) ha
      (hresolved.step hleaves hstep) hsettled

/-- **One step** of a combinator that is under way. -/
theorem books_step (hb : Books p id members outcomes s)
    (hd : Decision env kind p id members.length outcomes s) (he : ¬ Resolves p e)
    (hstep : step env s e = some s') : ∃ outcomes', Books p id members outcomes' s' ∧
      Decision env kind p id members.length outcomes' s' := by
  by_cases hjob : ∃ i r rest, e = .runJob ∧ s.jobs = .aggregateSettle id i r :: rest
  · obtain ⟨i, r, rest, rfl, hjobs⟩ := hjob
    exact ⟨_, books_settlement hb hd hjobs hstep⟩
  · refine ⟨outcomes, books_other hb hd he hstep fun he job hhead => ?_⟩
    obtain ⟨rest, hjobs⟩ := List.head?_eq_some_iff.1 hhead
    cases job with
    | aggregateSettle id' i r =>
      refine if_neg fun hid => hjob ⟨i, r, rest, he, ?_⟩
      rw [hjobs, hid]
    | _ => rfl

theorem books_run (hb : Books p id members [] s) (hd : Decision env kind p id members.length [] s)
    (hr : (machine env).GuardedRun (Leaves p) s es s') :
    ∃ outcomes, Books p id members outcomes s' ∧
      Decision env kind p id members.length outcomes s' := by
  induction hr with
  | nil => exact ⟨[], hb, hd⟩
  | snoc _ he hstep ih =>
    obtain ⟨outcomes, hb', hd'⟩ := ih
    exact books_step hb' hd' he hstep

/-! ### Nothing is stuck -/

theorem isSome_put {promises : Assoc ℕ (PromiseState ν)} (h : (promises.get? q).isSome) (k : ℕ)
    (st : PromiseState ν) : ((promises.put k st).get? q).isSome := by
  rw [Assoc.get?_put_eq]
  split
  · rfl
  · exact h

theorem Act.isSome (h : Act s s') (hq : (s.promises.get? q).isSome) :
    (s'.promises.get? q).isSome := by
  cases h with
  | same h => rwa [h.promises]
  | new => exact isSome_put hq _ _
  | wake r hp => rw [wake_eq]; exact isSome_put hq _ _
  | adopt hp => exact isSome_put hq _ _
  | assimilate v c hp => exact isSome_put hq _ _
  | read v g hp => exact isSome_put hq _ _
  | wait => exact hq
  | late => exact hq
  | immediate => exact hq
  | resume => exact hq

theorem Acts.isSome (h : Acts s s') (hq : (s.promises.get? q).isSome) :
    (s'.promises.get? q).isSome := by
  induction h with
  | refl => exact hq
  | tail _ hact ih => exact hact.isSome ih

theorem settleResult_isSome (hq : (s.promises.get? q).isSome) (r : Result ν) :
    (settleResult s q r).isSome := by
  rw [settleResult, Option.isSome_map]
  exact hq

theorem settlePlain_isSome (hq : (s.promises.get? q).isSome) (v : Plain ν) :
    (settlePlain env s q v).isSome := by
  cases v with
  | term v => exact settleResult_isSome hq _
  | object o =>
    unfold settlePlain
    obtain ⟨st, hst⟩ := Option.isSome_iff_exists.1 hq
    rw [hst]
    cases st with
    | pending =>
      dsimp only [Option.bind_some]
      split
      · rfl
      · rfl
      · exact settleResult_isSome hq _
    | resolving => rfl
    | settled r => rfl

theorem settle_isSome (hq : (s.promises.get? q).isSome)
    (hplain : ∀ q', resolution ≠ .ok (.promise q')) : (settle env s q resolution).isSome := by
  cases resolution with
  | error reason => exact settleResult_isSome hq _
  | ok v =>
    cases v with
    | promise q' => exact absurd rfl (hplain q')
    | plain v => exact settlePlain_isSome hq v

theorem verdict_ne_promise (h : verdict env kind n outcomes = some resolution) (q : ℕ) :
    resolution ≠ .ok (.promise q) := by
  rintro rfl
  unfold verdict at h
  split at h
  · rename_i o _
    obtain ⟨i, r⟩ := o
    cases r <;> cases h
  · split at h
    · have hcomplete := Option.some.inj h
      unfold complete at hcomplete
      split at hcomplete <;> cases hcomplete
    · cases h

theorem settlement_runs (hb : Books p id members outcomes s)
    (hd : Decision env kind p id members.length outcomes s)
    (hjobs : s.jobs = .aggregateSettle id i r :: rest) : (step env s .runJob).isSome := by
  have hfits := hb.fits_next hjobs
  unfold step
  rw [hjobs]
  show (settleAggregate env { s with jobs := rest } id i r).isSome
  unfold settleAggregate
  cases hd with
  | undecided hverdict hquiet hp ha =>
    have ha' : { s with jobs := rest }.aggregates.get? id =
        some (recordOf env kind p members.length outcomes) := ha
    rw [ha']
    dsimp only
    rw [updateAggregate_recordOf hfits hverdict]
    cases hnew : verdict env kind members.length (outcomes ++ [(i, r)]) with
    | none => rfl
    | some resolution =>
      refine settle_isSome ?_ (verdict_ne_promise hnew)
      show (s.promises.get? p).isSome
      rw [hp]
      rfl
  | decided resolution hverdict ha hresolved hsettled =>
    have ha' : { s with jobs := rest }.aggregates.get? id = none := ha
    rw [ha']
    rfl

theorem fromValue_isSome (hv : ∀ q, v = .promise q → (s.promises.get? q).isSome) :
    ∃ q t, fromValue env s v = some (q, t) ∧ (t.promises.get? q).isSome := by
  cases v with
  | promise q => exact ⟨q, s, rfl, hv q rfl⟩
  | plain v =>
    have hnew : ((new s).2.promises.get? s.nextPromise).isSome := by
      rw [show (new s).2.promises.get? s.nextPromise = some .pending from Assoc.get?_put ..]
      rfl
    have hsome : (settlePlain env (new s).2 s.nextPromise v).isSome := settlePlain_isSome hnew v
    obtain ⟨t, ht⟩ := Option.isSome_iff_exists.1 hsome
    refine ⟨s.nextPromise, t, ?_, (settlePlain_acts ht).1.isSome hnew⟩
    show (settlePlain env (new s).2 s.nextPromise v).map _ = _
    rw [ht]
    rfl

theorem aggregateValues_isSome : ∀ (values : List (Value ν × ℕ)) (s : State ν η),
    (∀ v ∈ values, ∀ q, v.1 = .promise q → (s.promises.get? q).isSome) →
    (values.foldlM (aggregateValue env id) s).isSome
  | [], _, _ => rfl
  | v :: vs, s, h => by
    have hvalue : ∃ q t, fromValue env s v.1 = some (q, t) ∧ (t.promises.get? q).isSome :=
      fromValue_isSome (h v List.mem_cons_self)
    obtain ⟨q, t, ht, hq⟩ := hvalue
    have hattach : (attach t q (.aggregate id v.2)).isSome := by
      rw [attach, Option.isSome_map]
      exact hq
    obtain ⟨u, hu⟩ := Option.isSome_iff_exists.1 hattach
    have hround : aggregateValue env id s v = some u := by
      rw [aggregateValue, ht]
      exact hu
    have hwait : Acts t u := attach_acts rfl hu
    have hacts : Acts s u := (fromValue_acts ht).trans hwait
    rw [List.foldlM_cons, hround]
    exact aggregateValues_isSome vs u fun w hw q' he =>
      hacts.isSome (h w (List.mem_cons_of_mem _ hw) q' he)

theorem aggregateInto_isSome (hp : (s.promises.get? p).isSome)
    (hvalues : ∀ q, Value.promise q ∈ values → (s.promises.get? q).isSome) :
    (aggregateInto env s p kind values).isSome := by
  unfold aggregateInto
  split
  · cases kind with
    | race => rfl
    | all => exact settle_isSome hp fun q he => nomatch he
    | allSettled => exact settle_isSome hp fun q he => nomatch he
    | any => exact settle_isSome hp fun q he => nomatch he
  · refine aggregateValues_isSome _ _ fun v hv q he => ?_
    obtain ⟨v, i⟩ := v
    have hmem : v ∈ values := List.fst_mem_of_mem_zipIdx hv
    have hv' : v = .promise q := he
    rw [hv'] at hmem
    exact hvalues q hmem

/-! ### Runs -/

/-- What a combinator with the result promise `p` has done: it started in `s` with the state `t`,
its members' settlements `outcomes` have been taken and the settlements `waiting` are still in the
job queue of `s'`. -/
structure Combined (env : Env ν η) (p : ℕ) (kind : AggregateKind) (values : List (Value ν))
    (members : List ℕ) (outcomes waiting : List (Outcome ν)) (s t s' : State ν η) : Prop where
  waitsFor : Members env s t values members
  /-- The settlements are those of the members that have settled, one each, in the order in
  which they made their jobs. -/
  fits : Fits values.length (outcomes ++ waiting)
  settled : ∀ i r, (i, r) ∈ outcomes ++ waiting ↔
    ∃ q, members[i]? = some q ∧ s'.promises.get? q = some (.settled r)
  order : values ≠ [] →
    settlements s' s.nextRef = outcomes ++ waiting ∧ queued s' s.nextRef = waiting
  /-- The result promise is pending without a verdict, and resolved once with the verdict. -/
  pending : verdict env kind values.length outcomes = none → s'.promises.get? p = some .pending
  resolved : ∀ resolution, verdict env kind values.length outcomes = some resolution →
    ResolvedWith env p resolution s' ∧
      ∀ r, resolution.settles? = some r → s'.promises.get? p = some (.settled r)
  /-- No settlement is stuck, and when all members have settled there is a verdict. -/
  runs : values ≠ [] → ∀ i r rest, s'.jobs = .aggregateSettle s.nextRef i r :: rest →
    (step env s' .runJob).isSome
  done : values ≠ [] → s'.jobs = [] → (∀ q ∈ members, Settled s' q) →
    (verdict env kind values.length outcomes).isSome

theorem verdict_nil (hn : n ≠ 0) : verdict env kind n [] = none := by
  unfold verdict
  rw [List.find?_nil]
  exact if_neg fun h => hn h.2.symm

theorem Fits.length_eq (h : Fits n outcomes) (hall : ∀ i < n, i ∈ outcomes.map Prod.fst) :
    outcomes.length = n := by
  have hsub : Finset.range n ⊆ (outcomes.map Prod.fst).toFinset := by
    intro i hi
    exact List.mem_toFinset.2 (hall i (Finset.mem_range.1 hi))
  have hcard := Finset.card_le_card hsub
  rw [List.toFinset_card_of_nodup h.nodup, List.length_map, Finset.card_range] at hcard
  exact le_antisymm h.length_le hcard

theorem verdict_zero (kind : AggregateKind) :
    verdict env kind 0 [] = if kind ≠ .race then some (complete env kind []) else none := by
  unfold verdict
  rw [List.find?_nil]
  by_cases hkind : kind = .race
  · rw [if_neg fun h => h.1 hkind, if_neg fun h => h hkind]
  · rw [if_pos ⟨hkind, rfl⟩, if_pos hkind]
    rfl

theorem verdict_zero_eq_none (h : verdict env kind 0 [] = none) : kind = .race := by
  by_contra hkind
  rw [verdict_zero, if_pos hkind] at h
  cases h

theorem verdict_zero_eq_some (h : verdict env kind 0 [] = some resolution) :
    kind ≠ .race ∧ complete env kind [] = resolution := by
  rw [verdict_zero] at h
  split at h
  · rename_i hkind
    exact ⟨hkind, Option.some.inj h⟩
  · cases h

theorem aggregateInto_nil (hkind : kind ≠ .race) :
    aggregateInto env s p kind [] = settle env s p (complete env kind []) := by
  cases kind with
  | race => exact absurd rfl hkind
  | all => rfl
  | allSettled => rfl
  | any => rfl

theorem verdict_isSome (hn : n ≠ 0) (hlength : outcomes.length = n) :
    (verdict env kind n outcomes).isSome := by
  unfold verdict
  cases hf : outcomes.find? fun o => decisive kind o.2 with
  | some o => rfl
  | none =>
    have hkind : kind ≠ .race := by
      rintro rfl
      obtain ⟨o, rest, rfl⟩ := List.exists_cons_of_ne_nil
        (List.ne_nil_of_length_pos (by omega : 0 < outcomes.length))
      cases hf
    dsimp only
    rw [if_pos ⟨hkind, hlength⟩]
    rfl

def State.addAggregate (s : State ν η) (p : ℕ) (kind : AggregateKind) (n : ℕ) : State ν η :=
  { s with
    aggregates := s.aggregates.put s.nextRef ⟨kind, p, n, ∅⟩
    nextRef := s.nextRef + 1 }

theorem Before.lt_nextPromise (hb : Before p id s) {st : PromiseState ν}
    (hp : s.promises.get? p = some st) : p < s.nextPromise := by
  by_contra hle
  rw [hb.ledger.fresh p (Nat.le_of_not_lt hle)] at hp
  cases hp

theorem books_start (hb : Before p s.nextRef s) (hp : s.promises.get? p = some .pending)
    (hne : values ≠ []) (h : aggregateInto env s p kind values = some s') :
    ∃ members, Members env s s' values members ∧ Books p s.nextRef members [] s' ∧
      Decision env kind p s.nextRef members.length [] s' := by
  have hlt := hb.lt_nextPromise hp
  have hstep : step env s (.aggregateInto p kind values) = some s' := h
  unfold aggregateInto at h
  rw [if_neg (by simpa using hne)] at h
  obtain ⟨s₁, hs₁⟩ : ∃ s₁, s₁ = s.addAggregate p kind values.length := ⟨_, rfl⟩
  have hrounds : values.zipIdx.foldlM (aggregateValue env s.nextRef) s₁ = some s' := by
    rw [hs₁]
    exact h
  have hlt₁ : p < s₁.nextPromise := by
    rw [hs₁]
    exact hlt
  have href₁ : s.nextRef < s₁.nextRef := by
    rw [hs₁]
    exact Nat.lt_succ_self _
  have hfresh₁ : Fresh s₁ := by
    rw [hs₁]
    exact hb.ledger.fresh
  have hquiet₁ : Quiet p s.nextRef s₁ := by
    rw [hs₁]
    refine { hb.quiet with aggregates := fun a b hget hne => ?_ }
    exact hb.quiet.aggregates a b ((Assoc.get?_put_ne _ _ hne).symm.trans hget) hne
  have hopening := aggregateValues_opening _ _ _ hlt₁ href₁ hquiet₁ hrounds
  obtain ⟨members, hmemberships, -, hmembers⟩ := aggregateValues_members hfresh₁ hrounds
  obtain ⟨new, hsettlements, hqueued⟩ := hopening.grows.settlements
  have htraced := hopening.grows.traced
  have hsame := hopening.promise
  have haggregate := hopening.aggregate
  rw [hs₁] at hmemberships hmembers hsettlements hqueued htraced hsame haggregate
  have hbefore : memberships s s.nextRef = [] := hb.memberships
  have hnone : settlements s s.nextRef = [] := hb.settlements
  have hnoneQueued : queued s s.nextRef = [] := hb.queued
  refine ⟨members, ⟨hmembers.length, hmembers.promise, hmembers.plain⟩, ?_, ?_⟩
  · refine ⟨step_ledger hb.ledger hstep, htraced hb.traced,
      lt_of_lt_of_le hlt₁ hopening.nextPromise, lt_of_lt_of_le href₁ hopening.nextRef, ?_, ?_⟩
    · rw [hmemberships]
      exact congrArg (· ++ members.zipIdx) hbefore
    · rw [hsettlements, hqueued]
      exact congrArg (· ++ new) (hnone.trans hnoneQueued.symm)
  · refine .undecided (verdict_nil ?_) (hopening.quiet hquiet₁) (hsame.trans hp) ?_
    · rw [hmembers.length]
      exact fun he => hne (List.length_eq_zero_iff.1 he)
    · rw [hmembers.length]
      exact haggregate.trans (Assoc.get?_put ..)

theorem settled_of_run {ok : State ν η → Event ν η → Prop} (hl : Ledger s)
    (hr : (machine env).GuardedRun ok s es s') (hp : s.promises.get? p = some (.settled r)) :
    s'.promises.get? p = some (.settled r) := by
  have hboth : Ledger s' ∧ s'.promises.get? p = some (.settled r) := by
    refine hr.invariant (I := fun s => Ledger s ∧ s.promises.get? p = some (.settled r)) ?_ ⟨hl, hp⟩
    rintro t e u ⟨hl, hp⟩ - hstep
    exact ⟨step_ledger hl hstep, step_settled hl.fresh hstep hp⟩
  exact hboth.2

theorem before_start {heap : η} {es₀ es₁ : List (Event ν η)} {s₀ : State ν η}
    (h₀ : (machine env).GuardedRun (Leaves p) (initial heap) es₀ s₀) (hp : s₀.nextPromise = p)
    (h₁ : (machine env).GuardedRun (Leaves p) (new s₀).2 es₁ s) (hid : s.nextRef ≤ id) :
    Before p id s ∧ s.promises.get? p = some .pending := by
  obtain ⟨-, hmono⟩ := run_mono h₁
  obtain ⟨hb, -⟩ := before_of_run (initial_before heap) h₀ (.inl (le_of_eq hp))
    (le_trans hmono hid)
  have hnew : Before p id (new s₀).2 :=
    ⟨hb.ledger.create, hb.traced, hb.memberships, { hb.quiet with }⟩
  have hlt : p < (new s₀).2.nextPromise := by
    rw [← hp]
    exact Nat.lt_succ_self _
  obtain ⟨hbefore, hsame⟩ := before_of_run hnew h₁ (.inr hlt) hid
  refine ⟨hbefore, hsame.trans ?_⟩
  rw [← hp]
  exact Assoc.get?_put ..

theorem combined_nil {members : List ℕ} (hmembers : members = [])
    (hpending : verdict env kind 0 [] = none → s'.promises.get? p = some .pending)
    (hresolved : ∀ resolution, verdict env kind 0 [] = some resolution →
      ResolvedWith env p resolution s' ∧
        ∀ r, resolution.settles? = some r → s'.promises.get? p = some (.settled r)) :
    Combined env p kind [] members [] [] s t s' := by
  subst hmembers
  refine ⟨⟨rfl, ?_, ?_⟩, ⟨List.nodup_nil, ?_⟩, ?_, ?_, hpending, hresolved, ?_, ?_⟩
  · exact fun i q hi => nomatch hi
  · exact fun i v hi => nomatch hi
  · exact fun o ho => nomatch ho
  · intro i r
    refine iff_of_false (fun ho => nomatch ho) ?_
    rintro ⟨q, hq, -⟩
    cases hq
  · exact fun hne => absurd rfl hne
  · exact fun hne => absurd rfl hne
  · exact fun hne => absurd rfl hne

/-- **Promise combinators.**  `p` is a promise that only the combinator resolves: it is created
by `newPromise`, and no event before or after `aggregateInto` resolves it.  The combinator starts
when its promises exist, and in every run it waits for each member once, takes the settlements in
order, and resolves `p` once, with the verdict on the settlements taken. -/
theorem aggregate_settles (heap : η) (p : ℕ) (kind : AggregateKind) (values : List (Value ν))
    (es₀ es₁ : List (Event ν η)) (s₀ s : State ν η)
    (h₀ : (machine env).GuardedRun (Leaves p) (initial heap) es₀ s₀) (hp : s₀.nextPromise = p)
    (h₁ : (machine env).GuardedRun (Leaves p) (new s₀).2 es₁ s) :
    ((∀ q, Value.promise q ∈ values → (s.promises.get? q).isSome) →
      ∃ t, step env s (.aggregateInto p kind values) = some t) ∧
    ∀ t es s', step env s (.aggregateInto p kind values) = some t →
      (machine env).GuardedRun (Leaves p) t es s' →
      ∃ members outcomes waiting, Combined env p kind values members outcomes waiting s t s' := by
  obtain ⟨hb, hpending⟩ := before_start h₀ hp h₁ (le_refl _)
  constructor
  · intro hvalues
    exact Option.isSome_iff_exists.1 (aggregateInto_isSome (by rw [hpending]; rfl) hvalues)
  · intro t es s' hstart hr
    cases hvalues : values with
    | nil =>
      subst hvalues
      refine ⟨[], [], [], combined_nil rfl ?_ ?_⟩
      · intro hverdict
        obtain rfl := verdict_zero_eq_none hverdict
        cases hstart
        obtain ⟨hb', -⟩ := before_start h₀ hp h₁ (run_mono hr).2
        have hlt : p < s.nextPromise := hb.lt_nextPromise hpending
        exact (before_of_run hb' hr (.inr hlt) (le_refl _)).2.trans hpending
      · intro resolution hverdict
        obtain ⟨hkind, rfl⟩ := verdict_zero_eq_some hverdict
        have hsettle : settle env s p (complete env kind []) = some t := by
          rw [← aggregateInto_nil hkind]
          exact hstart
        refine ⟨⟨s, t, es, hpending, hsettle, hr⟩, fun r hr' => ?_⟩
        exact settled_of_run (step_ledger hb.ledger hstart) hr
          (settle_settles hr' hpending hsettle)
    | cons v vs =>
      rw [← hvalues]
      have hne : values ≠ [] := by
        rw [hvalues]
        exact List.cons_ne_nil v vs
      obtain ⟨members, hmembers, hbooks, hdecision⟩ := books_start hb hpending hne hstart
      obtain ⟨outcomes, hb', hd'⟩ := books_run hbooks hdecision hr
      have hfits := hb'.fits
      have hnonzero : values.length ≠ 0 := fun he => hne (List.length_eq_zero_iff.1 he)
      rw [hmembers.length] at hfits
      refine ⟨members, outcomes, queued s' s.nextRef, hmembers, hfits, fun i r => ?_,
        fun _ => ⟨hb'.queue, rfl⟩, fun hverdict => ?_, fun resolution hverdict => ?_,
        fun _ i r rest hjobs => settlement_runs hb' hd' hjobs, fun _ hjobs hall => ?_⟩
      · rw [← hb'.queue]
        exact mem_settlements_iff hb'.ledger hb'.traced hb'.memberships
      · rw [hmembers.length] at hd'
        cases hd' with
        | undecided _ _ hp' _ => exact hp'
        | decided resolution hv => rw [hverdict] at hv; cases hv
      · rw [hmembers.length] at hd'
        cases hd' with
        | undecided hv => rw [hverdict] at hv; cases hv
        | decided resolution' hv _ hresolved hsettled =>
          rw [hverdict] at hv
          cases hv
          exact ⟨hresolved, hsettled⟩
      · have hqueued : queued s' s.nextRef = [] := by
          rw [queued, hjobs]
          rfl
        rw [hqueued, List.append_nil] at hfits
        refine verdict_isSome hnonzero (hfits.length_eq fun i hi => ?_)
        have hi' : i < members.length := by
          rw [hmembers.length]
          exact hi
        obtain ⟨r, hr⟩ := hall members[i] (List.getElem_mem hi')
        have hmem : (i, r) ∈ settlements s' s.nextRef :=
          (mem_settlements_iff hb'.ledger hb'.traced hb'.memberships).2
            ⟨_, List.getElem?_eq_getElem hi', hr⟩
        rw [hb'.queue, hqueued, List.append_nil] at hmem
        exact List.mem_map.2 ⟨_, hmem, rfl⟩

theorem run_of_exec (h : (machine env).exec s es = some s') (hes : ∀ e ∈ es, ¬ Resolves p e) :
    (machine env).GuardedRun (Leaves p) s es s' := by
  induction es generalizing s with
  | nil =>
    cases h
    exact .nil _
  | cons e es ih =>
    obtain ⟨t, hstep, hrest⟩ := Option.bind_eq_some_iff.1 h
    exact .cons (hes e List.mem_cons_self) hstep
      (ih hrest fun e' he' => hes e' (List.mem_cons_of_mem _ he'))

/-- `Promise.all` of a pending promise, a value and the same promise again. -/
theorem aggregate_settles_all :
    ∃ s₀ t s', (machine plainEnv).exec (initial ()) [.newPromise] = some s₀ ∧
      step plainEnv (new s₀).2 (.aggregateInto 1 .all
        [.promise 0, .plain (.term 7), .promise 0]) = some t ∧
      (machine plainEnv).exec t
        [.settle 0 (.ok (.plain (.term 5))), .runJob, .runJob, .runJob] = some s' ∧
      s'.promises.get? 1 = some (.settled (.ok (.term (plainEnv.valueList
        [.plain (.term 5), .plain (.term 7), .plain (.term 5)])))) ∧
      ∃ members outcomes waiting, Combined plainEnv 1 .all
        [.promise 0, .plain (.term 7), .promise 0] members outcomes waiting (new s₀).2 t s' := by
  have hruns : ∃ s₀ t s', (machine plainEnv).exec (initial ()) [.newPromise] = some s₀ ∧
      s₀.nextPromise = 1 ∧
      step plainEnv (new s₀).2 (.aggregateInto 1 .all
        [.promise 0, .plain (.term 7), .promise 0]) = some t ∧
      (machine plainEnv).exec t
        [.settle 0 (.ok (.plain (.term 5))), .runJob, .runJob, .runJob] = some s' ∧
      s'.promises.get? 1 = some (.settled (.ok (.term (plainEnv.valueList
        [.plain (.term 5), .plain (.term 7), .plain (.term 5)])))) :=
    ⟨_, _, _, rfl, rfl, rfl, rfl, rfl⟩
  obtain ⟨s₀, t, s', h₀, hp, hstart, hrun, hresult⟩ := hruns
  have hleaves : ∀ e ∈ ([.newPromise] : List (Event ℕ Unit)), ¬ Resolves 1 e := by
    simp [Resolves]
  have hleaves' : ∀ e ∈ ([.settle 0 (.ok (.plain (.term 5))), .runJob, .runJob, .runJob] :
      List (Event ℕ Unit)), ¬ Resolves 1 e := by
    simp [Resolves]
  exact ⟨s₀, t, s', h₀, hstart, hrun, hresult,
    (aggregate_settles () 1 .all _ _ _ s₀ _ (run_of_exec h₀ hleaves) hp (.nil _)).2 t _ s' hstart
      (run_of_exec hrun hleaves')⟩

end QuickBeam.Vm.Runtime.Promise
