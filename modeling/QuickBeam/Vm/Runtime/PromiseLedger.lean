import QuickBeam.Vm.Runtime.PromiseActions

/-!
# No promise reaction is lost or made twice

`made s p` lists the jobs made of waiters of `p`, `registrations s p` the waiters registered on
`p` that are owed a job.  `Ledger` says how they are related in every reachable state: nothing is
made before `p` settles, and afterwards each registered waiter has made its job, in order, with
the result of `p`.

An adoption of a promise that is already settled, and the end of a `finally` callback that
returned one, make no job: the target takes the result in the same step.  These registrations
are `immediate`.
-/

set_option linter.unusedSectionVars false

namespace QuickBeam.Vm.Runtime.Promise

open QuickBeam.Lib

variable {ν η : Type} {env : Env ν η} {s s' : State ν η}

/-! ### The books -/

/-- The jobs made of waiters of `p`, in the order in which they were enqueued. -/
def made (s : State ν η) (p : ℕ) : List (Job ν) :=
  s.history.filterMap fun e => if e.1 = some p then some e.2 else none

/-- The waiters registered on `p` that are owed a job, in order. -/
def registrations (s : State ν η) (p : ℕ) : List (Waiter ν) :=
  s.registered.filterMap fun e => if e.promise = p ∧ e.immediate = false then some e.waiter else none

theorem made_enqueue (s : State ν η) (o : Option ℕ) (j : Job ν) (p : ℕ) :
    made (s.enqueue o j) p = made s p ++ if o = some p then [j] else [] := by
  show List.filterMap _ (s.history ++ [(o, j)]) = _
  rw [List.filterMap_append]
  by_cases ho : o = some p
  · simp [made, ho]
  · simp [made, ho]

theorem registrations_register (s : State ν η) (q : ℕ) (w : Waiter ν) (b : Bool) (p : ℕ) :
    registrations (s.register q w b) p =
      registrations s p ++ if q = p ∧ b = false then [w] else [] := by
  show List.filterMap _ (s.registered ++ [⟨q, w, b⟩]) = _
  rw [List.filterMap_append]
  by_cases hq : q = p ∧ b = false
  · simp [registrations, hq]
  · simp [registrations, hq]

def Settled (s : State ν η) (p : ℕ) : Prop := ∃ r, s.promises.get? p = some (.settled r)

structure Ledger (s : State ν η) : Prop where
  queue : ∃ done, s.history.map Prod.snd = done ++ s.jobs
  unsettled : ∀ p, ¬ Settled s p → made s p = [] ∧ (s.waitersOf p).reverse = registrations s p
  settled : ∀ p r, s.promises.get? p = some (.settled r) →
    s.waiters.get? p = none ∧ made s p = (registrations s p).map fun w => w.job r
  immediate : ∀ e ∈ s.registered, e.immediate = true →
    Settled s e.promise ∧ e.waiter.target?.isSome
  origin : ∀ p r, (none, .settleAssimilated p r) ∉ s.history
  fresh : Fresh s

/-! ### One action -/

variable {p : ℕ} {st : PromiseState ν}

theorem unsettled_of_get? (hp : s.promises.get? p = some st) (hst : st.result? = none) :
    ¬ Settled s p := by
  rintro ⟨r, hr⟩
  rw [hp] at hr
  cases hr
  cases hst

theorem get?_setPromise (s : State ν η) (p q : ℕ) (st : PromiseState ν) :
    (s.setPromise p st).promises.get? q = if q = p then some st else s.promises.get? q :=
  Assoc.get?_put_eq _ _ _ _

theorem waitersOf_put (s : State ν η) (q p : ℕ) (ws : List (Waiter ν)) :
    { s with waiters := s.waiters.put q ws }.waitersOf p = if p = q then ws else s.waitersOf p := by
  show ((s.waiters.put q ws).get? p).getD [] = _
  rw [Assoc.get?_put_eq]
  split <;> rfl

theorem Ledger.same (h : Ledger s) (hs : Same s s') : Ledger s' := by
  have hmade : ∀ p, made s' p = made s p := fun p => by rw [made, made, hs.history]
  have hreg : ∀ p, registrations s' p = registrations s p := fun p => by
    rw [registrations, registrations, hs.registered]
  have hwait : ∀ p, s'.waitersOf p = s.waitersOf p := fun p => by
    rw [State.waitersOf, State.waitersOf, hs.waiters]
  constructor
  · rw [hs.history, hs.jobs]
    exact h.queue
  · intro p hp
    rw [hmade, hwait, hreg]
    refine h.unsettled p ?_
    rwa [Settled, hs.promises] at hp
  · intro p r hp
    rw [hmade, hreg, hs.waiters]
    exact h.settled p r (hs.promises ▸ hp)
  · intro e he him
    rw [hs.registered] at he
    unfold Settled
    rw [hs.promises]
    exact h.immediate e he him
  · rw [hs.history]
    exact h.origin
  · intro p hp
    rw [hs.promises]
    exact h.fresh p (hs.nextPromise ▸ hp)

theorem Ledger.setPromise (h : Ledger s) {st st' : PromiseState ν}
    (hp : s.promises.get? p = some st) (hst : st.result? = none) (hst' : st'.result? = none) :
    Ledger (s.setPromise p st') := by
  have hsettled : ∀ q, Settled (s.setPromise p st') q ↔ Settled s q := by
    intro q
    unfold Settled
    simp only [get?_setPromise]
    split
    · rename_i he
      subst he
      refine iff_of_false ?_ (unsettled_of_get? hp hst)
      rintro ⟨r, hr⟩
      cases hr
      cases hst'
    · rfl
  refine { h with
    unsettled := fun q hq => h.unsettled q (fun hs => hq ((hsettled q).2 hs))
    settled := fun q r hq => h.settled q r ?_
    immediate := fun e he him => (h.immediate e he him).imp_left (hsettled _).2
    fresh := fun q hq => h.fresh.put hp st' hq }
  rw [get?_setPromise] at hq
  split at hq
  · cases hq
    cases hst'
  · exact hq

theorem Ledger.create (h : Ledger s) : Ledger (new s).2 := by
  have hnone := h.fresh s.nextPromise (le_refl _)
  have hget : ∀ q, (new s).2.promises.get? q =
      if q = s.nextPromise then some .pending else s.promises.get? q :=
    fun q => Assoc.get?_put_eq _ _ _ _
  have hsettled : ∀ q r, (new s).2.promises.get? q = some (.settled r) ↔
      s.promises.get? q = some (.settled r) := by
    intro q r
    rw [hget]
    split
    · rename_i he
      rw [he, hnone]
      exact iff_of_false (by rintro ⟨⟩) (by rintro ⟨⟩)
    · rfl
  have hset : ∀ q, Settled (new s).2 q ↔ Settled s q := fun q => exists_congr (hsettled q)
  exact { h with
    unsettled := fun q hq => h.unsettled q (fun hs => hq ((hset q).2 hs))
    settled := fun q r hq => h.settled q r ((hsettled q r).1 hq)
    immediate := fun e he him => (h.immediate e he him).imp_left (hset _).2
    fresh := Act.new.fresh h.fresh }

theorem Ledger.wake (h : Ledger s) {p : ℕ} (r : Result ν)
    (hp : s.promises.get? p = some .pending) : Ledger (s.wake p r) := by
  obtain ⟨hmade, hwait⟩ := h.unsettled p (unsettled_of_get? hp rfl)
  have hnew : ∀ q, made (s.wake p r) q =
      made s q ++ if q = p then (s.waitersOf p).reverse.map fun w => w.job r else [] := by
    intro q
    rw [made, wake_eq, made]
    show List.filterMap _ (s.history ++ _) = _
    rw [List.filterMap_append, List.filterMap_map]
    split
    · rename_i he
      subst he
      congr 1
      rw [← List.filterMap_eq_map]
      refine List.filterMap_congr fun w _ => ?_
      simp
    · rename_i hne
      congr 1
      refine List.filterMap_eq_nil_iff.2 fun w _ => ?_
      simp [Ne.symm hne]
  have hget : ∀ q, (s.wake p r).promises.get? q =
      if q = p then some (.settled r) else s.promises.get? q := by
    intro q
    rw [wake_eq]
    exact Assoc.get?_put_eq _ _ _ _
  have hreg : ∀ q, registrations (s.wake p r) q = registrations s q := by
    intro q
    rw [wake_eq]
    rfl
  have hwaiters : ∀ q, (s.wake p r).waiters.get? q = if q = p then none else s.waiters.get? q := by
    intro q
    rw [wake_eq]
    exact Assoc.get?_delete_eq _ _ _
  have hset : ∀ q, Settled s q → Settled (s.wake p r) q := by
    rintro q ⟨r', hr⟩
    unfold Settled
    rw [hget]
    split
    · exact ⟨r, rfl⟩
    · exact ⟨r', hr⟩
  constructor
  · obtain ⟨done, hdone⟩ := h.queue
    refine ⟨done, ?_⟩
    rw [wake_eq]
    show List.map Prod.snd (s.history ++ _) = _
    rw [List.map_append, hdone, List.map_map, List.append_assoc]
    rfl
  · intro q hq
    have hne : q ≠ p := fun he => hq ⟨r, by rw [hget, if_pos he]⟩
    rw [hnew, if_neg hne, List.append_nil, hreg]
    rw [State.waitersOf, hwaiters, if_neg hne]
    exact h.unsettled q fun hs => hq (hset q hs)
  · intro q r' hq
    rw [hget] at hq
    rw [hnew, hreg, hwaiters]
    split at hq
    · rename_i he
      cases hq
      subst he
      rw [if_pos rfl, if_pos rfl, hmade, hwait]
      exact ⟨rfl, rfl⟩
    · rename_i hne
      rw [if_neg hne, if_neg hne, List.append_nil]
      exact h.settled q r' hq
  · intro e he him
    rw [wake_eq] at he
    exact (h.immediate e he him).imp_left (hset _)
  · intro q r' he
    rw [wake_eq] at he
    rcases List.mem_append.1 he with he | he
    · exact h.origin q r' he
    · obtain ⟨w, -, hw⟩ := List.mem_map.1 he
      cases hw
  · exact (Act.wake r hp).fresh h.fresh

theorem Ledger.addWaiter (h : Ledger s) {q : ℕ} (w : Waiter ν) (hq : s.promises.get? q = some st)
    (hst : st.result? = none) : Ledger (s.addWaiter q w) := by
  have hreg : ∀ p, registrations (s.addWaiter q w) p =
      registrations s p ++ if q = p then [w] else [] := by
    intro p
    rw [State.addWaiter, registrations_register]
    simp only [and_true]
    rfl
  have hwait : ∀ p, (s.addWaiter q w).waitersOf p =
      if p = q then w :: s.waitersOf q else s.waitersOf p := fun p => waitersOf_put s q p _
  refine { h with
    unsettled := fun p hp => ?_
    settled := fun p r hp => ?_
    immediate := fun e he him => ?_ }
  · obtain ⟨hmade, hrev⟩ := h.unsettled p hp
    refine ⟨hmade, ?_⟩
    rw [hreg, hwait]
    by_cases he : p = q
    · subst he
      rw [if_pos rfl, if_pos rfl, List.reverse_cons, hrev]
    · rw [if_neg he, if_neg (Ne.symm he), List.append_nil, hrev]
  · have hne : p ≠ q := fun he => unsettled_of_get? hq hst ⟨r, he ▸ hp⟩
    obtain ⟨hnone, hmade⟩ := h.settled p r hp
    rw [hreg, if_neg (Ne.symm hne), List.append_nil]
    exact ⟨(Assoc.get?_put_ne _ _ hne).trans hnone, hmade⟩
  · rcases List.mem_append.1 he with he | he
    · exact h.immediate e he him
    · rw [List.mem_singleton.1 he] at him
      cases him

theorem Ledger.enqueue (h : Ledger s) {job : Job ν} (hjob : ∀ p r, job ≠ .settleAssimilated p r) :
    Ledger (s.enqueue none job) := by
  have hmade : ∀ p, made (s.enqueue none job) p = made s p := fun p => by
    rw [made_enqueue, if_neg (fun he => nomatch he), List.append_nil]
  refine { h with
    queue := ?_
    unsettled := fun p hp => ?_
    settled := fun p r hp => ?_
    origin := fun p r he => ?_ }
  · obtain ⟨done, hdone⟩ := h.queue
    refine ⟨done, ?_⟩
    show List.map Prod.snd (s.history ++ [_]) = done ++ (s.jobs ++ [_])
    rw [List.map_append, hdone, List.append_assoc]
    rfl
  · rw [hmade]
    exact h.unsettled p hp
  · rw [hmade]
    exact h.settled p r hp
  · rcases List.mem_append.1 he with he | he
    · exact h.origin p r he
    · cases List.mem_singleton.1 he
      exact hjob p r rfl

theorem Ledger.late (h : Ledger s) {q : ℕ} {r : Result ν} (w : Waiter ν)
    (hq : s.promises.get? q = some (.settled r)) :
    Ledger ((s.register q w false).enqueue (some q) (w.job r)) := by
  have hmade : ∀ p, made ((s.register q w false).enqueue (some q) (w.job r)) p =
      made s p ++ if q = p then [w.job r] else [] := fun p => by
    rw [made_enqueue]
    simp only [Option.some.injEq]
    rfl
  have hreg : ∀ p, registrations ((s.register q w false).enqueue (some q) (w.job r)) p =
      registrations s p ++ if q = p then [w] else [] := fun p => by
    show registrations (s.register q w false) p = _
    rw [registrations_register]
    simp only [and_true]
  refine { h with
    queue := ?_
    unsettled := fun p hp => ?_
    settled := fun p r' hp => ?_
    immediate := fun e he him => ?_
    origin := fun p r' he => ?_ }
  · obtain ⟨done, hdone⟩ := h.queue
    refine ⟨done, ?_⟩
    show List.map Prod.snd (s.history ++ [_]) = done ++ (s.jobs ++ [_])
    rw [List.map_append, hdone, List.append_assoc]
    rfl
  · have hne : q ≠ p := fun he => hp ⟨r, he ▸ hq⟩
    rw [hmade, hreg, if_neg hne, if_neg hne, List.append_nil, List.append_nil]
    exact h.unsettled p hp
  · obtain ⟨hnone, hm⟩ := h.settled p r' hp
    refine ⟨hnone, ?_⟩
    rw [hmade, hreg, hm, List.map_append]
    split
    · rename_i he
      subst he
      cases hq.symm.trans hp
      rfl
    · rfl
  · rcases List.mem_append.1 he with he | he
    · exact h.immediate e he him
    · rw [List.mem_singleton.1 he] at him
      cases him
  · rcases List.mem_append.1 he with he | he
    · exact h.origin p r' he
    · cases List.mem_singleton.1 he

theorem Ledger.registerImmediate (h : Ledger s) {q t : ℕ} {w : Waiter ν} (hq : Settled s q)
    (hw : w.target? = some t) : Ledger (s.register q w true) := by
  have hreg : ∀ p, registrations (s.register q w true) p = registrations s p := fun p => by
    rw [registrations_register, if_neg (by simp), List.append_nil]
  refine { h with
    unsettled := fun p hp => ?_
    settled := fun p r hp => ?_
    immediate := fun e he him => ?_ }
  · rw [hreg]
    exact h.unsettled p hp
  · rw [hreg]
    exact h.settled p r hp
  · rcases List.mem_append.1 he with he | he
    · exact h.immediate e he him
    · rw [List.mem_singleton.1 he]
      exact ⟨hq, Option.isSome_of_mem hw⟩

theorem Act.ledger (h : Act s s') (hl : Ledger s) : Ledger s' := by
  cases h with
  | same h => exact hl.same h
  | new => exact hl.create
  | wake r hp => exact hl.wake r hp
  | adopt hp hq hst hne =>
    have hq' := (Assoc.get?_put_ne s.promises .resolving hne).trans hq
    exact (hl.setPromise hp rfl rfl).addWaiter _ hq' hst
  | assimilate v c hp =>
    exact (hl.setPromise hp rfl rfl).enqueue (fun _ _ he => nomatch he)
  | @read p v g hp =>
    have h' : Ledger (s.setPromise p .resolving) := hl.setPromise hp rfl rfl
    exact { h' with }
  | wait hq hst => exact hl.addWaiter _ hq hst
  | late hq => exact hl.late _ hq
  | immediate hq hw => exact hl.registerImmediate ⟨_, hq⟩ hw
  | resume c r => exact hl.enqueue (fun _ _ he => nomatch he)

theorem Acts.ledger (h : Acts s s') (hl : Ledger s) : Ledger s' := by
  induction h with
  | refl => exact hl
  | tail _ hact ih => exact hact.ledger ih

/-! ### One step -/

theorem Ledger.taking (h : Ledger s) (ht : Taking s s') : Ledger s' := by
  have hmade : ∀ p, made s' p = made s p := fun p => by rw [made, made, ht.history]
  have hreg : ∀ p, registrations s' p = registrations s p := fun p => by
    rw [registrations, registrations, ht.registered]
  have hset : ∀ p, Settled s' p ↔ Settled s p := fun p => by rw [Settled, Settled, ht.promises]
  constructor
  · obtain ⟨done, hdone⟩ := h.queue
    rw [ht.history]
    rcases ht.jobs with hj | ⟨job, hj⟩
    · exact ⟨done, by rw [hdone, hj]⟩
    · exact ⟨done ++ [job], by rw [hdone, hj, List.append_assoc]; rfl⟩
  · intro p hp
    rw [hmade, hreg, State.waitersOf, ht.waiters]
    exact h.unsettled p fun hs => hp ((hset p).2 hs)
  · intro p r hp
    rw [hmade, hreg, ht.waiters]
    exact h.settled p r (ht.promises ▸ hp)
  · intro e he him
    rw [ht.registered] at he
    exact (h.immediate e he him).imp_left (hset _).2
  · rw [ht.history]
    exact h.origin
  · exact ht.fresh h.fresh

variable {e : Event ν η}

theorem Rest.ledger (h : Rest e s s') (hl : Ledger s) : Ledger s' := by
  cases h with
  | acts h => exact h.ledger hl
  | unlock p hp h ht => exact h.ledger (hl.setPromise hp rfl rfl)
  | assimilate p v c h =>
    rw [h]
    exact hl.enqueue (fun _ _ he => nomatch he)
  | microtask r _ h =>
    rw [h]
    exact hl.enqueue (fun _ _ he => nomatch he)

theorem Acts.registered (h : Acts s s') (hf : Fresh s) : ∀ e ∈ s'.registered,
    e.immediate = true → e ∈ s.registered ∨ ∀ t, e.waiter.target? = some t → Taken s' t := by
  induction h with
  | refl => exact fun e he _ => .inl he
  | @tail t u hacts hact ih =>
    have hft := Acts.fresh hacts hf
    intro e he him
    -- a registration of the last action, or an older one
    have hold : e ∈ t.registered → e ∈ s.registered ∨
        ∀ q, e.waiter.target? = some q → Taken u q := fun he' => by
      rcases ih e he' him with he' | ht
      · exact .inl he'
      · exact .inr fun q hq => hact.acts.taken hft (ht q hq)
    have hnew : ∀ {q : ℕ} {w : Waiter ν} {b : Bool}, e ∈ t.registered ++ [⟨q, w, b⟩] →
        e ∈ t.registered ∨ e = ⟨q, w, b⟩ := fun he' => by
      rcases List.mem_append.1 he' with he' | he'
      · exact .inl he'
      · exact .inr (List.mem_singleton.1 he')
    have hlate : ∀ {q : ℕ} {w : Waiter ν}, e ∈ t.registered ++ [⟨q, w, false⟩] →
        e ∈ t.registered := fun he' => by
      rcases hnew he' with he' | rfl
      · exact he'
      · cases him
    cases hact with
    | same h => exact hold (h.registered ▸ he)
    | new => exact hold he
    | wake r hp =>
      rw [wake_eq] at he
      exact hold he
    | adopt => exact hold (hlate he)
    | assimilate => exact hold he
    | read => exact hold he
    | wait => exact hold (hlate he)
    | late => exact hold (hlate he)
    | @immediate q t' r w hq hw ht =>
      rcases hnew he with he | rfl
      · exact hold he
      · refine .inr fun q' hq' => ?_
        cases hw.symm.trans hq'
        exact ht
    | resume => exact hold he

theorem step_ledger (h : Ledger s) (hstep : step env s e = some s') : Ledger s' := by
  obtain ⟨s₁, htake, hrest⟩ := step_rest h.fresh hstep
  exact hrest.ledger (h.taking htake)

theorem initial_ledger (heap : η) : Ledger (initial heap : State ν η) := by
  constructor
  · exact ⟨[], rfl⟩
  · exact fun _ _ => ⟨rfl, rfl⟩
  · exact fun _ _ hp => (nomatch hp)
  · exact fun _ he => (nomatch he)
  · exact fun _ _ he => (nomatch he)
  · exact fun _ _ => rfl

theorem Ledger.adoption (h : Ledger s) {r : Result ν} (hjob : .settleAssimilated p r ∈ s.jobs) :
    ∃ q, s.promises.get? q = some (.settled r) ∧ ⟨q, .adopt p, false⟩ ∈ s.registered := by
  obtain ⟨done, hdone⟩ := h.queue
  have hmem : Job.settleAssimilated p r ∈ s.history.map Prod.snd := by
    rw [hdone]
    exact List.mem_append_right _ hjob
  obtain ⟨⟨o, j⟩, he, rfl⟩ := List.mem_map.1 hmem
  cases o with
  | none => exact absurd he (h.origin p r)
  | some q =>
    have hmade : Job.settleAssimilated p r ∈ made s q :=
      List.mem_filterMap.2 ⟨_, he, if_pos rfl⟩
    by_cases hq : Settled s q
    · obtain ⟨r', hr'⟩ := hq
      rw [(h.settled q r' hr').2] at hmade
      obtain ⟨w, hw, hjob⟩ := List.mem_map.1 hmade
      obtain ⟨e, hmem, hreg⟩ := List.mem_filterMap.1 hw
      obtain ⟨⟨hp, him⟩, hew⟩ := Option.ite_none_right_eq_some.1 hreg
      obtain ⟨qe, we, ie⟩ := e
      cases hew
      cases hp
      cases him
      cases we with
      | adopt t =>
        cases hjob
        exact ⟨_, hr', hmem⟩
      | _ => cases hjob
    · rw [(h.unsettled q hq).1] at hmade
      cases hmade

/-! ### Runs -/

/-- Terms are numbers, no object has a `then`, nothing is callable. -/
def plainEnv : Env ℕ Unit where
  thenCallable _ _ := .none
  callable _ _ := false
  promiseSelfResolution := 0
  valueList values := values.length
  fulfilledEntry _ := 1
  rejectedEntry _ := 2
  aggregateError _ := 3
  unwrapReason v := v

end QuickBeam.Vm.Runtime.Promise
