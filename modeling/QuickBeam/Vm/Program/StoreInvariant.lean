import QuickBeam.Vm.Program.Store

/-!
# What the pinned-program store keeps

`Coherent env s o` relates the slots, the clients and the leases out of `s` to the table `o` of
the store.  The table is a parameter, since inside a handler the new table is still being built;
between two steps it is `s.store`.

Every operation has one lemma.  Those that write or erase a slot ask that the slot is not in
use by an entry or a lease; where the table itself does not give this, it stands as a hypothesis
(`free`), and `StoreSafety` says at which steps it can fail.
-/

set_option linter.unusedSectionVars false

namespace QuickBeam.Vm.Program.Store

open QuickBeam.Lib

variable {κ γ : Type} [DecidableEq κ] [DecidableEq γ] {env : Env κ γ}

/-- The reservation a client holds, from the reply that gave it to the end of its pin. -/
def Client.install? : Client κ γ → Option (Install κ γ)
  | .ready (.commit i) => some i
  | .ready (.cancel i) => some i
  | .ready (.recover i) => some i
  | .calling (.commit i) _ => some i
  | .calling (.cancel i) _ => some i
  | .calling (.recover i) _ => some i
  | .reserved i => some i
  | .checking i => some i
  | .erasing i => some i
  | .dying (.commit i) _ => some i
  | .dying (.cancel i) _ => some i
  | .dying (.recover i) _ => some i
  | _ => none

def Client.held? : Client κ γ → Option Ref
  | .installed lease => some lease.id
  | _ => none

def Client.asks? : Client κ γ → Option (Program κ γ × κ × ℕ)
  | .ready (.reserve program key bytes) => some (program, key, bytes)
  | .calling (.reserve program key bytes) _ => some (program, key, bytes)
  | .dying (.reserve program key bytes) _ => some (program, key, bytes)
  | _ => none

/-- The table of a running store agrees with itself, the slots, the clients and the leases. -/
structure Tabled (env : Env κ γ) (s : State κ γ) (st : Table κ) : Prop where
  entry_term : ∀ k e, st.entries.get? k = some e →
    ∃ p, s.terms.get? e.slot = some ⟨k, e.token, p⟩ ∧ env.externalSize p = some e.residencyBytes
  slot_entry : ∀ i k, st.slots.get? i = some k ↔ ∃ e, st.entries.get? k = some e ∧ e.slot = i
  entry_bound : ∀ k e, st.entries.get? k = some e → e.slot < env.capacity
  pending_bound : ∀ k p, st.pending.get? k = some p → p.slot < env.capacity
  pending_free : ∀ k p, st.pending.get? k = some p →
    st.entries.get? k = none ∧ st.slots.get? p.slot = none
  pending_slot : ∀ k k' p p', st.pending.get? k = some p → st.pending.get? k' = some p' →
    p.slot = p'.slot → k = k'
  residency : st.residencyBytes = st.entries.sumBy fun _ e => e.residencyBytes
  budget : st.residencyBytes + pendingBytes st ≤ maximumTotalResidencyBytes
  pending_fresh : ∀ k p, st.pending.get? k = some p → p.token < s.nextRef
  pending_install : ∀ c i k p, (s.clients c).install? = some i → st.pending.get? k = some p →
    p.token = i.token → k = i.key ∧ p.slot = i.slot ∧
      env.externalSize i.program = some p.residencyBytes
  pending_term : ∀ i t k p, s.terms.get? i = some t → st.pending.get? k = some p →
    p.token = t.token → k = t.key ∧ env.externalSize t.program = some p.residencyBytes
  live_entry : ∀ id l, s.live.get? id = some l → ∃ e, st.entries.get? l.lease.key = some e ∧
    e.slot = l.lease.slot ∧ e.token = l.lease.token ∧
      (l.incarnation = s.incarnation → ∃ m, e.leases.get? id = some m)
  lease_live : ∀ k e id m l, st.entries.get? k = some e → e.leases.get? id = some m →
    s.live.get? id = some l → l.lease.key = k ∧ l.incarnation = s.incarnation ∧
      ∀ o, s.monitors.get? m = some o → o = l.owner
  lease_fresh : ∀ k e id m, st.entries.get? k = some e → e.leases.get? id = some m →
    id < s.nextRef ∧ m < s.nextRef

/-- The invariant of the store and its clients, with the table `o`. -/
structure Coherent (env : Env κ γ) (s : State κ γ) (o : Option (Table κ)) : Prop where
  table : ∀ st, o = some st → Tabled env s st
  live_term : ∀ id l, s.live.get? id = some l → ∃ p, l.program = some p ∧
    s.terms.get? l.lease.slot = some ⟨l.lease.key, l.lease.token, p⟩
  live_id : ∀ id l, s.live.get? id = some l → l.lease.id = id ∧ id < s.nextRef
  live_owner : ∀ id l, s.live.get? id = some l → (s.clients l.owner).isDead = false
  live_incarnation : ∀ id l, s.live.get? id = some l → l.incarnation ≤ s.incarnation
  term_key : ∀ i t, s.terms.get? i = some t → t.program.pinKey = some t.key ∧
    t.token < s.nextRef ∧ i < env.capacity
  install_key : ∀ c i, (s.clients c).install? = some i → i.program.pinKey = some i.key ∧
    i.token < s.nextRef ∧ i.slot < env.capacity
  monitor_fresh : ∀ m p, s.monitors.get? m = some p → m < s.nextRef
  held_fresh : ∀ c id, (s.clients c).held? = some id → id < s.nextRef
  asks_key : ∀ c program key bytes, (s.clients c).asks? = some (program, key, bytes) →
    program.pinKey = some key ∧ env.externalSize program = some bytes
  inbox_gone : ∀ l ∈ s.inbox, l.id < s.nextRef ∧ s.live.get? l.id = none

variable {s : State κ γ} {o : Option (Table κ)} {st : Table κ}

/-! ### Slots in use -/

/-- No entry of the table and no lease out is on `slot`. -/
def Unused (s : State κ γ) (o : Option (Table κ)) (slot : SlotId) : Prop :=
  (∀ st, o = some st → st.slots.get? slot = none) ∧
    ∀ id l, s.live.get? id = some l → l.lease.slot ≠ slot

variable {slot : SlotId}

theorem Coherent.unused (h : Coherent env s (some st)) (hslot : st.slots.get? slot = none) :
    Unused s (some st) slot := by
  refine ⟨fun st' hst => ?_, fun id l hl he => ?_⟩
  · cases hst
    exact hslot
  · obtain ⟨e, hentry, hes, -⟩ := (h.table st rfl).live_entry id l hl
    have hsome := ((h.table st rfl).slot_entry slot l.lease.key).2 ⟨e, hentry, hes.trans he⟩
    rw [hslot] at hsome
    cases hsome

/-! ### Clients -/

/-- A reservation a client may hold: it is of its program, and the table does not say
otherwise. -/
structure Entitled (env : Env κ γ) (s : State κ γ) (o : Option (Table κ)) (i : Install κ γ) :
    Prop where
  key : i.program.pinKey = some i.key ∧ i.token < s.nextRef ∧ i.slot < env.capacity
  pending : ∀ st, o = some st → ∀ k p, st.pending.get? k = some p → p.token = i.token →
    k = i.key ∧ p.slot = i.slot ∧ env.externalSize i.program = some p.residencyBytes

variable {i : Install κ γ}

theorem Coherent.entitled (h : Coherent env s o) {p : Pid} (hi : (s.clients p).install? = some i) :
    Entitled env s o i :=
  ⟨h.install_key p i hi, fun st hst k q => (h.table st hst).pending_install p i k q hi⟩

variable {c : Client κ γ}

/-- A client may take any state with a reservation it is entitled to. -/
theorem Coherent.setClient (h : Coherent env s o) {p : Pid}
    (hinst : ∀ i, c.install? = some i → Entitled env s o i)
    (hheld : ∀ id, c.held? = some id → id < s.nextRef)
    (hasks : ∀ program key bytes, c.asks? = some (program, key, bytes) → program.pinKey = some
    key ∧ env.externalSize program = some bytes)
    (hdead : c.isDead = true → ∀ id l, s.live.get? id = some l → l.owner ≠ p) :
    Coherent env (s.setClient p c) o := by
  have hget : ∀ q, (s.setClient p c).clients q = if q = p then c else s.clients q :=
    fun q => Function.update_apply _ _ _ _
  refine { h with
    table := fun st hst => { h.table st hst with pending_install := ?_ }
    live_owner := ?_
    install_key := ?_
    held_fresh := ?_
    asks_key := ?_ }
  · intro q i k pend hi hk ht
    rw [hget] at hi
    split at hi
    · exact (hinst i hi).pending st hst k pend hk ht
    · exact (h.table st hst).pending_install q i k pend hi hk ht
  · intro id l hl
    rw [hget]
    split
    · rename_i ho
      cases hc : c.isDead with
      | false => rfl
      | true => exact absurd ho (hdead hc id l hl)
    · exact h.live_owner id l hl
  · intro q i hi
    rw [hget] at hi
    split at hi
    · exact (hinst i hi).key
    · exact h.install_key q i hi
  · intro q id hid
    rw [hget] at hid
    split at hid
    · exact hheld id hid
    · exact h.held_fresh q id hid
  · intro q program key bytes hq
    rw [hget] at hq
    split at hq
    · exact hasks program key bytes hq
    · exact h.asks_key q program key bytes hq

theorem Coherent.setClient_live (h : Coherent env s o) (p : Pid)
    (hinst : ∀ i, c.install? = some i → Entitled env s o i)
    (hheld : ∀ id, c.held? = some id → id < s.nextRef) (hasks : c.asks? = none)
    (hdead : c.isDead = false) : Coherent env (s.setClient p c) o :=
  h.setClient hinst hheld (fun _ _ _ ha => by rw [hasks] at ha; cases ha)
    fun hd => by rw [hdead] at hd; cases hd

theorem Coherent.answer (h : Coherent env s o) (p : Pid)
    (hinst : ∀ i, c.install? = some i → Entitled env s o i)
    (hheld : ∀ id, c.held? = some id → id < s.nextRef) (hasks : c.asks? = none)
    (hdead : c.isDead = false) : Coherent env (s.answer p c) o := by
  unfold State.answer
  split
  · exact h
  · exact h.setClient_live p hinst hheld hasks hdead

/-- A living client that holds neither a reservation nor a lease to check in. -/
def Client.isIdle (c : Client κ γ) : Bool :=
  c.install?.isNone && c.held?.isNone && c.asks?.isNone && !c.isDead

theorem Client.isIdle_iff : c.isIdle = true ↔
      ((c.install? = none ∧ c.held? = none) ∧ c.asks? = none) ∧ c.isDead = false := by
  simp [Client.isIdle]

theorem Coherent.setClient_idle (h : Coherent env s o) (p : Pid) (hc : c.isIdle = true) :
    Coherent env (s.setClient p c) o := by
  obtain ⟨⟨⟨hi, hh⟩, ha⟩, hd⟩ := Client.isIdle_iff.1 hc
  exact h.setClient_live p (fun i hi' => by rw [hi] at hi'; cases hi')
    (fun id hid => by rw [hh] at hid; cases hid) ha hd

theorem Coherent.answer_idle (h : Coherent env s o) (p : Pid) (hc : c.isIdle = true) :
    Coherent env (s.answer p c) o := by
  unfold State.answer
  split
  · exact h
  · exact h.setClient_idle p hc

theorem Coherent.answer_installed (h : Coherent env s o) (p : Pid) {lease : Lease κ}
    (hid : lease.id < s.nextRef) : Coherent env (s.answer p (.installed lease)) o :=
  h.answer p (fun _ hi => (nomatch hi)) (fun _ he => by cases he; exact hid) rfl rfl

/-! ### Entries -/

/-- Two versions of an entry that differ in their leases and their `unpin` flag only. -/
structure Entry.Similar (a b : Entry) : Prop where
  slot : a.slot = b.slot
  token : a.token = b.token
  residency : a.residencyBytes = b.residencyBytes

variable {k : κ}

/-- Exchange an entry for a similar one, in a state with the same slots and clients.  What the
leases of the new entry must satisfy is left to show. -/
theorem Tabled.exchange {s' : State κ γ} (h : Tabled env s st) {a b : Entry}
    (hentry : st.entries.get? k = some a) (hab : b.Similar a) (hterms : s'.terms = s.terms)
    (hclients : s'.clients = s.clients) (hnext : s.nextRef ≤ s'.nextRef)
    (hlive : ∀ id l, s'.live.get? id = some l → ∃ e, (st.entries.put k b).get? l.lease.key = some
    e ∧ e.slot = l.lease.slot ∧ e.token = l.lease.token ∧ (l.incarnation = s'.incarnation → ∃ m,
    e.leases.get? id = some m))
    (hleases : ∀ k' e id m l, (st.entries.put k b).get? k' = some e → e.leases.get? id = some m →
    s'.live.get? id = some l → l.lease.key = k' ∧ l.incarnation = s'.incarnation ∧ ∀ o,
    s'.monitors.get? m = some o → o = l.owner)
    (hfresh : ∀ id m, b.leases.get? id = some m → id < s'.nextRef ∧ m < s'.nextRef) :
    Tabled env s' { st with entries := st.entries.put k b } := by
  constructor
  case entry_term =>
    intro k' e he
    rw [hterms]
    rcases Assoc.get?_put_cases he with ⟨rfl, rfl⟩ | ⟨-, he⟩
    · rw [hab.slot, hab.token, hab.residency]
      exact h.entry_term _ _ hentry
    · exact h.entry_term k' e he
  case slot_entry =>
    intro i k'
    rw [h.slot_entry]
    by_cases hk : k' = k
    · subst hk
      simp only [Assoc.get?_put, hentry, Option.some.injEq, exists_eq_left', hab.slot]
    · simp only [Assoc.get?_put_ne _ _ hk]
  case entry_bound =>
    intro k' e he
    rcases Assoc.get?_put_cases he with ⟨rfl, rfl⟩ | ⟨-, he⟩
    · rw [hab.slot]
      exact h.entry_bound _ _ hentry
    · exact h.entry_bound k' e he
  case pending_bound => exact h.pending_bound
  case pending_free =>
    intro k' p hp
    obtain ⟨hnone, hslot⟩ := h.pending_free k' p hp
    refine ⟨?_, hslot⟩
    rw [Assoc.get?_put_ne _ _ fun hk => ?_]
    · exact hnone
    · rw [hk, hentry] at hnone
      cases hnone
  case pending_slot => exact h.pending_slot
  case residency =>
    rw [show Assoc.sumBy _ _ = _ from
      Assoc.sumBy_put_same (fun _ e => e.residencyBytes) hentry hab.residency]
    exact h.residency
  case budget => exact h.budget
  case pending_fresh => exact fun k' p hp => lt_of_lt_of_le (h.pending_fresh k' p hp) hnext
  case pending_install =>
    rw [hclients]
    exact h.pending_install
  case pending_term =>
    rw [hterms]
    exact h.pending_term
  case live_entry => exact hlive
  case lease_live => exact hleases
  case lease_fresh =>
    intro k' e id m he hid
    rcases Assoc.get?_put_cases he with ⟨rfl, rfl⟩ | ⟨-, he⟩
    · exact hfresh id m hid
    · exact (h.lease_fresh k' e id m he hid).imp (lt_of_lt_of_le · hnext) (lt_of_lt_of_le · hnext)

theorem Coherent.live_none (h : Coherent env s o) {id : Ref} (hid : s.nextRef ≤ id) :
    s.live.get? id = none := by
  cases hl : s.live.get? id with
  | none => rfl
  | some l => exact absurd (h.live_id id l hl).2 (not_lt.2 hid)

variable {e : Entry}

/-- **Granting.**  A lease of an entry keeps the store coherent. -/
theorem Coherent.grantLease (h : Coherent env s (some st)) (hentry : st.entries.get? k = some e)
    (owner : Pid) : Coherent env (grantLease s k e owner).2.2
      (some { st with entries := st.entries.put k (Store.grantLease s k e owner).2.1 }) := by
  have ht := h.table st rfl
  obtain ⟨p, hterm, -⟩ := ht.entry_term k e hentry
  -- the leases after the grant: the old ones, and the new one of a living owner
  have hlive : ∀ id l, (Store.grantLease s k e owner).2.2.live.get? id = some l →
      s.live.get? id = some l ∧ id ≠ s.nextRef ∨ id = s.nextRef ∧ l.lease =
        ⟨s.nextRef, k, e.slot, e.token⟩ ∧ l.owner = owner ∧ l.incarnation = s.incarnation ∧
          l.program = some p ∧ (s.clients owner).isDead = false := by
    intro id l hl
    have hold : s.live.get? id = some l → id ≠ s.nextRef := fun hl' he => by
      rw [he, h.live_none (le_refl _)] at hl'
      cases hl'
    have hunfold : (Store.grantLease s k e owner).2.2.live = if (s.clients owner).isDead then s.live
        else s.live.put s.nextRef ⟨⟨s.nextRef, k, e.slot, e.token⟩, owner, s.incarnation,
          (s.terms.get? e.slot).map Term.program⟩ := rfl
    rw [hunfold, hterm] at hl
    split at hl
    · exact .inl ⟨hl, hold hl⟩
    · rename_i hdead
      rcases Assoc.get?_put_cases hl with ⟨rfl, rfl⟩ | ⟨hne, hl⟩
      · exact .inr ⟨rfl, rfl, rfl, rfl, rfl, by simpa using hdead⟩
      · exact .inl ⟨hl, hne⟩
  have hmon : ∀ m q, (s.monitors.put (s.nextRef + 1) owner).get? m = some q →
      m = s.nextRef + 1 ∧ q = owner ∨ m ≠ s.nextRef + 1 ∧ s.monitors.get? m = some q :=
    fun m q hm => Assoc.get?_put_cases hm
  constructor
  case table =>
    intro st' hst
    cases hst
    refine ht.exchange hentry ⟨rfl, rfl, rfl⟩ rfl rfl (Nat.le_add_right s.nextRef 2) ?_ ?_ ?_
    · intro id l hl
      rcases hlive id l hl with ⟨hl, hne⟩ | ⟨rfl, hlease, -, hinc, -⟩
      · obtain ⟨e', he', hs, htok, hid⟩ := ht.live_entry id l hl
        by_cases hk : l.lease.key = k
        · rw [hk] at he'
          rw [hentry] at he'
          cases he'
          refine ⟨(Store.grantLease s k e owner).2.1, by rw [hk]; exact Assoc.get?_put _ _ _, hs,
            htok, fun hinc => ?_⟩
          obtain ⟨m, hm⟩ := hid hinc
          exact ⟨m, (Assoc.get?_put_ne _ _ hne).trans hm⟩
        · exact ⟨e', (Assoc.get?_put_ne _ _ hk).trans he', hs, htok, hid⟩
      · rw [hlease]
        exact ⟨_, Assoc.get?_put _ _ _, rfl, rfl, fun _ => ⟨_, Assoc.get?_put _ _ _⟩⟩
    · intro k' e' id m l he' hm hl
      have hcase : ∀ e₀, st.entries.get? k' = some e₀ → e₀.leases.get? id = some m →
          l.lease.key = k' ∧ l.incarnation = s.incarnation ∧
            ∀ o, (s.monitors.put (s.nextRef + 1) owner).get? m = some o → o = l.owner := by
        intro e₀ he₀ hm₀
        rcases hlive id l hl with ⟨hl, hne⟩ | ⟨rfl, -⟩
        · obtain ⟨hk, hinc, howner⟩ := ht.lease_live k' e₀ id m l he₀ hm₀ hl
          refine ⟨hk, hinc, fun o ho => ?_⟩
          rcases hmon m o ho with ⟨rfl, rfl⟩ | ⟨-, ho⟩
          · exact absurd (ht.lease_fresh k' e₀ id _ he₀ hm₀).2 (by lia)
          · exact howner o ho
        · exact absurd (ht.lease_fresh k' e₀ _ m he₀ hm₀).1 (lt_irrefl _)
      rcases Assoc.get?_put_cases he' with ⟨rfl, rfl⟩ | ⟨-, he'⟩
      · rcases Assoc.get?_put_cases hm with ⟨rfl, rfl⟩ | ⟨-, hm⟩
        · rcases hlive _ l hl with ⟨-, hne⟩ | ⟨-, hlease, ho, hinc, -⟩
          · exact absurd rfl hne
          · refine ⟨by rw [hlease], hinc, fun o ho' => ?_⟩
            rcases hmon _ o ho' with ⟨-, rfl⟩ | ⟨hne, -⟩
            · exact ho.symm
            · exact absurd rfl hne
        · exact hcase e hentry hm
      · exact hcase e' he' hm
    · intro id m hm
      rcases Assoc.get?_put_cases hm with ⟨rfl, rfl⟩ | ⟨-, hm⟩
      · exact ⟨Nat.lt_add_right 1 (Nat.lt_succ_self _), Nat.lt_succ_self _⟩
      · exact (ht.lease_fresh k e id m hentry hm).imp (Nat.lt_add_right 2) (Nat.lt_add_right 2)
  case live_term =>
    intro id l hl
    rcases hlive id l hl with ⟨hl, -⟩ | ⟨rfl, hlease, -, -, hp, -⟩
    · exact h.live_term id l hl
    · exact ⟨p, hp, by rw [hlease]; exact hterm⟩
  case live_id =>
    intro id l hl
    rcases hlive id l hl with ⟨hl, -⟩ | ⟨rfl, hlease, -⟩
    · exact ⟨(h.live_id id l hl).1, Nat.lt_add_right 2 (h.live_id id l hl).2⟩
    · exact ⟨by rw [hlease], Nat.lt_add_right 1 (Nat.lt_succ_self _)⟩
  case live_owner =>
    intro id l hl
    rcases hlive id l hl with ⟨hl, -⟩ | ⟨rfl, -, ho, -, -, hd⟩
    · exact h.live_owner id l hl
    · rw [ho]
      exact hd
  case live_incarnation =>
    intro id l hl
    rcases hlive id l hl with ⟨hl, -⟩ | ⟨rfl, -, -, hinc, -⟩
    · exact h.live_incarnation id l hl
    · exact le_of_eq hinc
  case term_key =>
    intro i t hi
    obtain ⟨hk, htok, hb⟩ := h.term_key i t hi
    exact ⟨hk, Nat.lt_add_right 2 htok, hb⟩
  case install_key =>
    intro c i hi
    obtain ⟨hk, htok, hb⟩ := h.install_key c i hi
    exact ⟨hk, Nat.lt_add_right 2 htok, hb⟩
  case monitor_fresh =>
    intro m q hm
    rcases hmon m q hm with ⟨rfl, -⟩ | ⟨-, hm⟩
    · exact Nat.lt_succ_self _
    · exact Nat.lt_add_right 2 (h.monitor_fresh m q hm)
  case held_fresh => exact fun c id hid => Nat.lt_add_right 2 (h.held_fresh c id hid)
  case asks_key => exact h.asks_key
  case inbox_gone =>
    intro l hl
    obtain ⟨hlt, hnone⟩ := h.inbox_gone l hl
    refine ⟨Nat.lt_add_right 2 hlt, ?_⟩
    cases hget : (Store.grantLease s k e owner).2.2.live.get? l.id with
    | none => rfl
    | some l' =>
      rcases hlive _ l' hget with ⟨hold, -⟩ | ⟨he, -⟩
      · rw [hnone] at hold
        cases hold
      · exact absurd hlt (he ▸ lt_irrefl _)

/-- Taking a lease that is not out from an entry, or marking the entry, changes nothing else. -/
theorem Coherent.editEntry (h : Coherent env s (some st)) {e b : Entry}
    (hentry : st.entries.get? k = some e) (hsim : b.Similar e)
    (hsub : ∀ id m, b.leases.get? id = some m → e.leases.get? id = some m)
    (hkeep : ∀ id l, s.live.get? id = some l → e.leases.get? id = b.leases.get? id) :
    Coherent env s (some { st with entries := st.entries.put k b }) := by
  have ht := h.table st rfl
  refine { h with table := fun st' hst => ?_ }
  cases hst
  refine ht.exchange hentry hsim rfl rfl (le_refl _) ?_ ?_ ?_
  · intro id l hl
    obtain ⟨a, ha, hs, htok, hid⟩ := ht.live_entry id l hl
    by_cases hk : l.lease.key = k
    · rw [hk, hentry] at ha
      cases ha
      refine ⟨b, by rw [hk]; exact Assoc.get?_put _ _ _, hsim.slot.trans hs,
        hsim.token.trans htok, fun hinc => ?_⟩
      obtain ⟨m, hm⟩ := hid hinc
      exact ⟨m, (hkeep id l hl).symm.trans hm⟩
    · exact ⟨a, (Assoc.get?_put_ne _ _ hk).trans ha, hs, htok, hid⟩
  · intro k' a id m l ha hm hl
    rcases Assoc.get?_put_cases ha with ⟨rfl, rfl⟩ | ⟨-, ha⟩
    · exact ht.lease_live _ e id m l hentry (hsub id m hm) hl
    · exact ht.lease_live k' a id m l ha hm hl
  · exact fun id m hm => ht.lease_fresh k e id m hentry (hsub id m hm)

/-! ### Writing and erasing slots -/

variable {terms : Assoc SlotId (Term κ γ)}

/-- The terms change at a slot that is not in use, and nothing pending is confused by it. -/
theorem Coherent.setTerms (h : Coherent env s o) (hfree : Unused s o slot)
    (hother : ∀ i, i ≠ slot → terms.get? i = s.terms.get? i)
    (hkey : ∀ t, terms.get? slot = some t → t.program.pinKey = some t.key ∧ t.token < s.nextRef ∧
    slot < env.capacity)
    (hpend : ∀ st, o = some st → ∀ t k p, terms.get? slot = some t → st.pending.get? k = some p →
    p.token = t.token → k = t.key ∧ env.externalSize t.program = some p.residencyBytes) :
    Coherent env { s with terms := terms } o := by
  refine { h with
    table := fun st hst => ?_
    live_term := ?_
    term_key := ?_ }
  · have ht := h.table st hst
    refine { ht with entry_term := ?_, pending_term := ?_ }
    · intro k e he
      have hne : e.slot ≠ slot := fun hes => by
        have hsome := (ht.slot_entry slot k).2 ⟨e, he, hes⟩
        rw [hfree.1 st hst] at hsome
        cases hsome
      show ∃ p, terms.get? e.slot = _ ∧ _
      rw [hother _ hne]
      exact ht.entry_term k e he
    · intro i t k p hi hk htok
      by_cases his : i = slot
      · subst his
        exact hpend st hst t k p hi hk htok
      · exact ht.pending_term i t k p ((hother i his).symm.trans hi) hk htok
  · intro id l hl
    show ∃ p, _ ∧ terms.get? _ = _
    rw [hother _ (hfree.2 id l hl)]
    exact h.live_term id l hl
  · intro i t hi
    by_cases his : i = slot
    · subst his
      exact hkey t hi
    · exact h.term_key i t ((hother i his).symm.trans hi)

theorem Coherent.eraseSlot (h : Coherent env s o) (hfree : Unused s o slot) :
    Coherent env (eraseSlot s slot) o := by
  refine h.setTerms hfree (fun i hi => Assoc.get?_delete_ne _ hi) ?_ ?_
  · intro t ht
    rw [Assoc.get?_delete] at ht
    cases ht
  · intro _ _ t k p ht
    rw [Assoc.get?_delete] at ht
    cases ht

theorem Coherent.persist (h : Coherent env s o) {c : Pid}
    (hinst : (s.clients c).install? = some i) (hfree : Unused s o i.slot) :
    Coherent env { s with terms := s.terms.put i.slot ⟨i.key, i.token, i.program⟩ } o := by
  obtain ⟨hkey, htok, hbound⟩ := h.install_key c i hinst
  refine h.setTerms hfree (fun j hj => Assoc.get?_put_ne _ _ hj) ?_ ?_
  · intro t ht
    rw [Assoc.get?_put] at ht
    cases ht
    exact ⟨hkey, htok, hbound⟩
  · intro st hst t k p ht hk htok
    rw [Assoc.get?_put] at ht
    cases ht
    obtain ⟨hk', -, hsize⟩ := (h.table st hst).pending_install c i k p hinst hk htok
    exact ⟨hk', hsize⟩

/-! ### Monitors, leases, processes -/

theorem Coherent.setMonitors (h : Coherent env s o) {monitors : Assoc Ref Pid}
    (hsub : ∀ m p, monitors.get? m = some p → s.monitors.get? m = some p) :
    Coherent env { s with monitors := monitors } o := by
  refine { h with
    table := fun st hst => ?_
    monitor_fresh := fun m p hm => h.monitor_fresh m p (hsub m p hm) }
  have ht := h.table st hst
  refine { ht with lease_live := fun k e id m l he hm hl => ?_ }
  obtain ⟨hk, hinc, howner⟩ := ht.lease_live k e id m l he hm hl
  exact ⟨hk, hinc, fun o ho => howner o (hsub m o ho)⟩

theorem Coherent.demonitor (h : Coherent env s o) (m : Ref) : Coherent env (s.demonitor m) o :=
  h.setMonitors fun _ _ hm => Assoc.get?_of_delete hm

theorem Coherent.setLive (h : Coherent env s o) {live : Assoc Ref (LiveLease κ γ)}
    (hsub : ∀ id l, live.get? id = some l → s.live.get? id = some l) :
    Coherent env { s with live := live } o := by
  refine { h with
    table := fun st hst => ?_
    live_term := fun id l hl => h.live_term id l (hsub id l hl)
    live_id := fun id l hl => h.live_id id l (hsub id l hl)
    live_owner := fun id l hl => h.live_owner id l (hsub id l hl)
    live_incarnation := fun id l hl => h.live_incarnation id l (hsub id l hl)
    inbox_gone := fun l hl => ⟨(h.inbox_gone l hl).1, ?_⟩ }
  · have ht := h.table st hst
    exact { ht with
      live_entry := fun id l hl => ht.live_entry id l (hsub id l hl)
      lease_live := fun k e id m l he hm hl => ht.lease_live k e id m l he hm (hsub id l hl) }
  · cases hget : live.get? l.id with
    | none => rfl
    | some l' =>
      have hold := hsub _ l' hget
      rw [(h.inbox_gone l hl).2] at hold
      cases hold

theorem Coherent.setInbox (h : Coherent env s o) {inbox : List (Lease κ)}
    (hgone : ∀ l ∈ inbox, l.id < s.nextRef ∧ s.live.get? l.id = none) :
    Coherent env { s with inbox := inbox } o :=
  { h with table := fun st hst => { h.table st hst with }, inbox_gone := hgone }

theorem Coherent.setStore (h : Coherent env s o) (st : Table κ) : Coherent env (s.setStore st) o :=
  { h with table := fun st hst => { h.table st hst with } }

theorem get?_foldl_delete_fst (es : List (Ref × LiveLease κ γ)) (m : Assoc Ref (LiveLease κ γ))
    (id : Ref) : (es.foldl (fun live e => live.delete e.1) m).get? id =
      if id ∈ es.map Prod.fst then none else m.get? id := by
  rw [← Assoc.get?_foldl_delete, List.foldl_map]

theorem Coherent.killClient (h : Coherent env s o) (p : Pid) : Coherent env (killClient s p) o := by
  -- first the leases of `p` end, then `p` itself
  have hlive : ∀ id l, (liveWithout s p).get? id = some l →
      s.live.get? id = some l ∧ l.owner ≠ p := by
    intro id l hl
    rw [liveWithout, get?_foldl_delete_fst] at hl
    split at hl
    · cases hl
    · rename_i hid
      refine ⟨hl, fun ho => hid ?_⟩
      refine List.mem_map.2 ⟨(id, l), List.mem_filter.2 ⟨Assoc.mem_toList.2 hl, ?_⟩, rfl⟩
      simpa using ho
  have h₁ := h.setLive fun id l hl => (hlive id l hl).1
  have hkilled : (s.clients p).killed.install? = none ∨
      (s.clients p).killed.install? = (s.clients p).install? := by
    cases hc : s.clients p with
    | calling r e => exact .inr (by cases r <;> rfl)
    | _ => exact .inl rfl
  refine h₁.setClient (fun i hi => ?_) (fun id hid => ?_) (fun program key bytes ha => ?_)
    fun _ id l hl => (hlive id l hl).2
  · rcases hkilled with hk | hk
    · rw [hk] at hi
      cases hi
    · exact h₁.entitled (hk ▸ hi)
  · cases hc : s.clients p <;> rw [hc] at hid <;> cases hid
  · refine h.asks_key p program key bytes ?_
    cases hc : s.clients p with
    | calling r e =>
      rw [hc] at ha
      cases r <;> exact ha
    | _ => rw [hc] at ha; cases ha

/-! ### Reservations -/

theorem pendingBytes_put_new (hk : st.pending.get? k = none) (p : Pending) :
    pendingBytes { st with pending := st.pending.put k p } = p.residencyBytes + pendingBytes st :=
  Assoc.sumBy_put_new _ p hk

variable {p : Pending}

theorem pendingBytes_delete (hk : st.pending.get? k = some p) :
    pendingBytes st = pendingBytes { st with pending := st.pending.delete k } + p.residencyBytes :=
  Assoc.sumBy_delete _ hk

theorem Coherent.addWaiter (h : Coherent env s (some st)) (hk : st.pending.get? k = some p)
    (w : Pid) : Coherent env s
      (some { st with pending := st.pending.put k { p with waiters := w :: p.waiters } }) := by
  have ht := h.table st rfl
  -- whatever the new reservations say, the old ones say too
  have hback : ∀ k' q, (st.pending.put k { p with waiters := w :: p.waiters }).get? k' = some q →
      ∃ q', st.pending.get? k' = some q' ∧ q.slot = q'.slot ∧ q.token = q'.token ∧
        q.residencyBytes = q'.residencyBytes := by
    intro k' q hq
    rcases Assoc.get?_put_cases hq with ⟨rfl, rfl⟩ | ⟨-, hq⟩
    · exact ⟨p, hk, rfl, rfl, rfl⟩
    · exact ⟨q, hq, rfl, rfl, rfl⟩
  refine { h with table := fun st' hst => ?_ }
  cases hst
  refine { ht with
    pending_bound := fun k' q hq => ?_, pending_free := fun k' q hq => ?_
    pending_slot := fun k₁ k₂ q₁ q₂ h₁ h₂ he => ?_, budget := ?_
    pending_fresh := fun k' q hq => ?_, pending_install := fun c i k' q hi hq he => ?_
    pending_term := fun i t k' q hi hq he => ?_ }
  · obtain ⟨q', hq', hs, -⟩ := hback k' q hq
    exact hs ▸ ht.pending_bound k' q' hq'
  · obtain ⟨q', hq', hs, -⟩ := hback k' q hq
    exact hs ▸ ht.pending_free k' q' hq'
  · obtain ⟨q₁', h₁', hs₁, -⟩ := hback k₁ q₁ h₁
    obtain ⟨q₂', h₂', hs₂, -⟩ := hback k₂ q₂ h₂
    exact ht.pending_slot k₁ k₂ q₁' q₂' h₁' h₂' (hs₁.symm.trans (he.trans hs₂))
  · have hsame : pendingBytes { st with
        pending := st.pending.put k { p with waiters := w :: p.waiters } } = pendingBytes st :=
      Assoc.sumBy_put_same _ hk rfl
    rw [hsame]
    exact ht.budget
  · obtain ⟨q', hq', -, htok, -⟩ := hback k' q hq
    exact htok ▸ ht.pending_fresh k' q' hq'
  · obtain ⟨q', hq', hs, htok, hsize⟩ := hback k' q hq
    rw [hs, hsize]
    exact ht.pending_install c i k' q' hi hq' (htok.symm.trans he)
  · obtain ⟨q', hq', -, htok, hsize⟩ := hback k' q hq
    rw [hsize]
    exact ht.pending_term i t k' q' hi hq' (htok.symm.trans he)

/-- A new reservation, with the fresh token `s.nextRef`, of a free slot. -/
theorem Coherent.addPending (h : Coherent env s (some st)) {k : κ} {p : Pending}
    (hentry : st.entries.get? k = none) (hk : st.pending.get? k = none)
    (hbound : p.slot < env.capacity) (hslot : st.slots.get? p.slot = none)
    (hfree : ∀ k' q, st.pending.get? k' = some q → q.slot ≠ p.slot) (htok : p.token = s.nextRef)
    (hbudget : st.residencyBytes + pendingBytes st + p.residencyBytes ≤
      maximumTotalResidencyBytes) :
    Coherent env
      { s with
        monitors := s.monitors.put (s.nextRef + 1) p.owner
        nextRef := s.nextRef + 1 + 1 }
      (some { st with pending := st.pending.put k p }) := by
  have ht := h.table st rfl
  refine { h with
    table := fun st' hst => ?_
    live_id := fun id l hl => ⟨(h.live_id id l hl).1, Nat.lt_add_right 2 (h.live_id id l hl).2⟩
    term_key := fun i t hi => ⟨(h.term_key i t hi).1, Nat.lt_add_right 2 (h.term_key i t hi).2.1,
      (h.term_key i t hi).2.2⟩
    install_key := fun c i hi => ⟨(h.install_key c i hi).1,
      Nat.lt_add_right 2 (h.install_key c i hi).2.1, (h.install_key c i hi).2.2⟩
    monitor_fresh := fun m q hm => ?_
    held_fresh := fun c id hid => Nat.lt_add_right 2 (h.held_fresh c id hid)
    inbox_gone := fun l hl => ⟨Nat.lt_add_right 2 (h.inbox_gone l hl).1, (h.inbox_gone l hl).2⟩ }
  · cases hst
    refine { ht with
      pending_bound := fun k' q hq => ?_, pending_free := fun k' q hq => ?_
      pending_slot := fun k₁ k₂ q₁ q₂ h₁ h₂ he => ?_, budget := ?_
      pending_fresh := fun k' q hq => ?_, pending_install := fun c i k' q hi hq he => ?_
      pending_term := fun i t k' q hi hq he => ?_, lease_live := fun k' e id m l he hm hl => ?_
      lease_fresh := fun k' e id m he hm => (ht.lease_fresh k' e id m he hm).imp
        (Nat.lt_add_right 2) (Nat.lt_add_right 2) }
    · rcases Assoc.get?_put_cases hq with ⟨rfl, rfl⟩ | ⟨-, hq⟩
      · exact hbound
      · exact ht.pending_bound k' q hq
    · rcases Assoc.get?_put_cases hq with ⟨rfl, rfl⟩ | ⟨-, hq⟩
      · exact ⟨hentry, hslot⟩
      · exact ht.pending_free k' q hq
    · rcases Assoc.get?_put_cases h₁ with ⟨rfl, rfl⟩ | ⟨-, h₁'⟩ <;>
        rcases Assoc.get?_put_cases h₂ with ⟨rfl, rfl⟩ | ⟨-, h₂'⟩
      · rfl
      · exact absurd he.symm (hfree k₂ q₂ h₂')
      · exact absurd he (hfree k₁ q₁ h₁')
      · exact ht.pending_slot k₁ k₂ q₁ q₂ h₁' h₂' he
    · rw [pendingBytes_put_new hk]
      show st.residencyBytes + _ ≤ _
      omega
    · rcases Assoc.get?_put_cases hq with ⟨rfl, rfl⟩ | ⟨-, hq⟩
      · rw [htok]
        exact Nat.lt_add_right 1 (Nat.lt_succ_self _)
      · exact Nat.lt_add_right 2 (ht.pending_fresh k' q hq)
    · rcases Assoc.get?_put_cases hq with ⟨rfl, rfl⟩ | ⟨-, hq⟩
      · exact absurd (h.install_key c i hi).2.1 (not_lt.2 (le_of_eq (htok.symm.trans he)))
      · exact ht.pending_install c i k' q hi hq he
    · rcases Assoc.get?_put_cases hq with ⟨rfl, rfl⟩ | ⟨-, hq⟩
      · exact absurd (h.term_key i t hi).2.1 (not_lt.2 (le_of_eq (htok.symm.trans he)))
      · exact ht.pending_term i t k' q hi hq he
    · obtain ⟨hkey, hinc, howner⟩ := ht.lease_live k' e id m l he hm hl
      refine ⟨hkey, hinc, fun o ho => ?_⟩
      rcases Assoc.get?_put_cases ho with ⟨rfl, -⟩ | ⟨-, ho⟩
      · exact absurd (ht.lease_fresh k' e id _ he hm).2 (by lia)
      · exact howner o ho
  · rcases Assoc.get?_put_cases hm with ⟨rfl, -⟩ | ⟨-, hm⟩
    · exact Nat.lt_succ_self _
    · exact Nat.lt_add_right 2 (h.monitor_fresh m q hm)

theorem Coherent.dropPending (h : Coherent env s (some st)) (hk : st.pending.get? k = some p) :
    Coherent env s (some { st with pending := st.pending.delete k }) := by
  have ht := h.table st rfl
  refine { h with table := fun st' hst => ?_ }
  cases hst
  refine { ht with
    pending_bound := fun k' q hq => ht.pending_bound k' q (Assoc.get?_of_delete hq)
    pending_free := fun k' q hq => ht.pending_free k' q (Assoc.get?_of_delete hq)
    pending_slot := fun k₁ k₂ q₁ q₂ h₁ h₂ he => ht.pending_slot k₁ k₂ q₁ q₂
      (Assoc.get?_of_delete h₁) (Assoc.get?_of_delete h₂) he
    budget := ?_
    pending_fresh := fun k' q hq => ht.pending_fresh k' q (Assoc.get?_of_delete hq)
    pending_install := fun c i k' q hi hq => ht.pending_install c i k' q hi (Assoc.get?_of_delete hq)
    pending_term := fun i t k' q hi hq => ht.pending_term i t k' q hi (Assoc.get?_of_delete hq) }
  have hsum := pendingBytes_delete hk
  have hb := ht.budget
  show st.residencyBytes + _ ≤ _
  omega

/-! ### Committing and releasing an entry -/

/-- A reservation whose term is in its slot becomes an entry without leases. -/
theorem Coherent.commit (h : Coherent env s (some st)) {q : Program κ γ}
    (hk : st.pending.get? k = some p) (hterm : s.terms.get? p.slot = some ⟨k, p.token, q⟩) :
    Coherent env s (some
      { entries := st.entries.put k ⟨p.slot, p.token, ∅, false, p.residencyBytes⟩
        slots := st.slots.put p.slot k
        pending := st.pending.delete k
        residencyBytes := st.residencyBytes + p.residencyBytes }) := by
  have ht := h.table st rfl
  obtain ⟨hnone, hslot⟩ := ht.pending_free k p hk
  have hfree := h.unused hslot
  have hsize := (ht.pending_term p.slot _ k p hterm hk rfl).2
  -- no lease out has the key, which had no entry
  have hlive : ∀ id l, s.live.get? id = some l → l.lease.key ≠ k := by
    intro id l hl he
    obtain ⟨e, hentry, -⟩ := ht.live_entry id l hl
    rw [he, hnone] at hentry
    cases hentry
  refine { h with table := fun st' hst => ?_ }
  cases hst
  constructor
  case entry_term =>
    intro k' e he
    rcases Assoc.get?_put_cases he with ⟨rfl, rfl⟩ | ⟨-, he⟩
    · exact ⟨q, hterm, hsize⟩
    · exact ht.entry_term k' e he
  case slot_entry =>
    intro i k'
    rw [Assoc.get?_put_eq, Assoc.get?_put_eq]
    have hold := ht.slot_entry i k'
    by_cases hk' : k' = k
    · subst hk'
      rw [hnone] at hold
      by_cases hi : i = p.slot
      · simp [hi]
      · simpa [hi, Ne.symm hi] using hold
    · by_cases hi : i = p.slot
      · subst hi
        rw [hslot] at hold
        simpa [hk', Ne.symm hk'] using hold
      · simpa [hk', hi] using hold
  case entry_bound =>
    intro k' e he
    rcases Assoc.get?_put_cases he with ⟨rfl, rfl⟩ | ⟨-, he⟩
    · exact ht.pending_bound _ p hk
    · exact ht.entry_bound k' e he
  case pending_bound => exact fun k' q hq => ht.pending_bound k' q (Assoc.get?_of_delete hq)
  case pending_free =>
    intro k' q' hq
    have hne : k' ≠ k := fun he => by
      rw [he, Assoc.get?_delete] at hq
      cases hq
    have hq' := Assoc.get?_of_delete hq
    obtain ⟨h₁, h₂⟩ := ht.pending_free k' q' hq'
    exact ⟨(Assoc.get?_put_ne _ _ hne).trans h₁, (Assoc.get?_put_ne _ _ fun he =>
      hne (ht.pending_slot k' k q' p hq' hk he)).trans h₂⟩
  case pending_slot =>
    exact fun k₁ k₂ q₁ q₂ h₁ h₂ he => ht.pending_slot k₁ k₂ q₁ q₂
      (Assoc.get?_of_delete h₁) (Assoc.get?_of_delete h₂) he
  case residency =>
    rw [Assoc.sumBy_put_new _ _ hnone, ht.residency, Nat.add_comm]
  case budget =>
    have hsum := pendingBytes_delete hk
    have hb := ht.budget
    show st.residencyBytes + p.residencyBytes + pendingBytes { st with
      pending := st.pending.delete k } ≤ _
    omega
  case pending_fresh => exact fun k' q hq => ht.pending_fresh k' q (Assoc.get?_of_delete hq)
  case pending_install =>
    exact fun c i k' q hi hq => ht.pending_install c i k' q hi (Assoc.get?_of_delete hq)
  case pending_term =>
    exact fun i t k' q hi hq => ht.pending_term i t k' q hi (Assoc.get?_of_delete hq)
  case live_entry =>
    intro id l hl
    obtain ⟨e, he, hrest⟩ := ht.live_entry id l hl
    exact ⟨e, (Assoc.get?_put_ne _ _ (hlive id l hl)).trans he, hrest⟩
  case lease_live =>
    intro k' e id m l he hm hl
    rcases Assoc.get?_put_cases he with ⟨rfl, rfl⟩ | ⟨-, he⟩
    · cases hm
    · exact ht.lease_live k' e id m l he hm hl
  case lease_fresh =>
    intro k' e id m he hm
    rcases Assoc.get?_put_cases he with ⟨rfl, rfl⟩ | ⟨-, he⟩
    · cases hm
    · exact ht.lease_fresh k' e id m he hm

theorem Coherent.removeEntry (h : Coherent env s (some st)) (hentry : st.entries.get? k = some e)
    (hlive : ∀ id l, s.live.get? id = some l → l.lease.key ≠ k) :
    Coherent env s (some (removeEntry st k e)) := by
  have ht := h.table st rfl
  have hres := Assoc.sumBy_delete (fun _ (e : Entry) => e.residencyBytes) hentry
  refine { h with table := fun st' hst => ?_ }
  cases hst
  refine { ht with
    entry_term := fun k' e' he => ht.entry_term k' e' (Assoc.get?_of_delete he)
    slot_entry := fun i k' => ?_
    entry_bound := fun k' e' he => ht.entry_bound k' e' (Assoc.get?_of_delete he)
    pending_free := fun k' q hq => ?_
    residency := ?_, budget := ?_
    live_entry := fun id l hl => ?_
    lease_live := fun k' e' id m l he => ht.lease_live k' e' id m l (Assoc.get?_of_delete he)
    lease_fresh := fun k' e' id m he => ht.lease_fresh k' e' id m (Assoc.get?_of_delete he) }
  · have hold := ht.slot_entry i k'
    have hown := ht.slot_entry e.slot k'
    have hthis := (ht.slot_entry e.slot k).2 ⟨e, hentry, rfl⟩
    show (st.slots.delete e.slot).get? i = some k' ↔
      ∃ e', (st.entries.delete k).get? k' = some e' ∧ e'.slot = i
    rw [Assoc.get?_delete_eq, Assoc.get?_delete_eq]
    by_cases hk : k' = k
    · subst hk
      by_cases hi : i = e.slot
      · simp [hi]
      · simp only [hi, if_false, if_true]
        rw [hold, hentry]
        simp [Ne.symm hi]
    · by_cases hi : i = e.slot
      · subst hi
        simp only [if_true, if_neg hk]
        rw [← hown, hthis]
        simp [Ne.symm hk]
      · simpa [hk, hi] using hold
  · obtain ⟨h₁, h₂⟩ := ht.pending_free k' q hq
    show (st.entries.delete k).get? k' = none ∧ (st.slots.delete e.slot).get? q.slot = none
    rw [Assoc.get?_delete_eq, Assoc.get?_delete_eq, h₁, h₂, ite_self, ite_self]
    exact ⟨rfl, rfl⟩
  · show st.residencyBytes - e.residencyBytes = Assoc.sumBy _ (st.entries.delete k)
    have hr := ht.residency
    omega
  · have hb := ht.budget
    show st.residencyBytes - e.residencyBytes + pendingBytes st ≤ _
    omega
  · obtain ⟨e', he', hrest⟩ := ht.live_entry id l hl
    exact ⟨e', (Assoc.get?_delete_ne _ (hlive id l hl)).trans he', hrest⟩

/-! ### Restoring -/

def bytesAt (env : Env κ γ) (terms : Assoc SlotId (Term κ γ)) (slot : SlotId) : ℕ :=
  ((terms.get? slot).bind fun t => restorableBytes env t.program).getD 0

/-- The residency of the restorable terms in the slots below `n`. -/
def restorableBelow (env : Env κ γ) (terms : Assoc SlotId (Term κ γ)) : ℕ → ℕ
  | 0 => 0
  | n + 1 => restorableBelow env terms n + bytesAt env terms n

variable {t : Term κ γ}

theorem bytesAt_of_get? {bytes : ℕ} (ht : terms.get? slot = some t)
    (hb : restorableBytes env t.program = some bytes) : bytesAt env terms slot = bytes := by
  rw [bytesAt, ht, Option.bind_some, hb]
  rfl

def KeysDistinct (env : Env κ γ) (terms : Assoc SlotId (Term κ γ)) : Prop :=
  ∀ i j t u, terms.get? i = some t → terms.get? j = some u →
    (restorableBytes env t.program).isSome → (restorableBytes env u.program).isSome →
    t.key = u.key → i = j

/-- What restoring the slots below `n` has done: `st` and `terms` after it, from the terms
`old`. -/
structure Restored (env : Env κ γ) (old : Assoc SlotId (Term κ γ)) (n : ℕ) (st : Table κ)
    (terms : Assoc SlotId (Term κ γ)) : Prop where
  pending : st.pending = ∅
  sub : ∀ i t, terms.get? i = some t → old.get? i = some t
  rest : ∀ i, n ≤ i → terms.get? i = old.get? i
  slot : ∀ i k, st.slots.get? i = some k ↔ i < n ∧ ∃ t, terms.get? i = some t ∧ t.key = k
  entry : ∀ k e, st.entries.get? k = some e → e.slot < n ∧ e.leases = ∅ ∧ ∃ p,
    terms.get? e.slot = some ⟨k, e.token, p⟩ ∧ restorableBytes env p = some e.residencyBytes
  found : ∀ i t, i < n → terms.get? i = some t →
    ∃ e, st.entries.get? t.key = some e ∧ e.slot = i
  residency : st.residencyBytes = st.entries.sumBy fun _ e => e.residencyBytes
  budget : st.residencyBytes ≤ maximumTotalResidencyBytes
  below : st.residencyBytes ≤ restorableBelow env old n
  kept : ∀ i t, old.get? i = some t → (restorableBytes env t.program).isSome →
    restorableBelow env old (i + 1) ≤ maximumTotalResidencyBytes → terms.get? i = some t

def restoreBelow (env : Env κ γ) (terms : Assoc SlotId (Term κ γ)) (n : ℕ) :
    Table κ × Assoc SlotId (Term κ γ) :=
  (List.range n).foldl (restoreSlot env) (⟨∅, ∅, ∅, 0⟩, terms)

theorem restoreBelow_succ (terms : Assoc SlotId (Term κ γ)) (n : ℕ) :
    restoreBelow env terms (n + 1) = restoreSlot env (restoreBelow env terms n) n := by
  rw [restoreBelow, List.range_succ, List.foldl_append]
  rfl

variable {old terms : Assoc SlotId (Term κ γ)} {n : ℕ}

theorem Restored.skip (h : Restored env old n st terms) (hterm : terms.get? n = none) :
    Restored env old (n + 1) st terms := by
  have hlt : ∀ i t, terms.get? i = some t → i < n + 1 → i < n := fun i t ht hi => by
    rcases Nat.lt_succ_iff_lt_or_eq.1 hi with hi | rfl
    · exact hi
    · rw [hterm] at ht
      cases ht
  refine { h with
    rest := fun i hi => h.rest i (Nat.le_of_succ_le hi)
    slot := fun i k => ?_
    entry := fun k e he => ?_
    found := fun i t hi ht => h.found i t (hlt i t ht hi) ht
    below := le_trans h.below (Nat.le_add_right _ _) }
  · rw [h.slot]
    refine ⟨fun ⟨hi, ht⟩ => ⟨Nat.lt_succ_of_lt hi, ht⟩, fun ⟨hi, t, ht, hk⟩ => ?_⟩
    exact ⟨hlt i t ht hi, t, ht, hk⟩
  · obtain ⟨hs, hrest⟩ := h.entry k e he
    exact ⟨Nat.lt_succ_of_lt hs, hrest⟩

theorem Restored.enter (h : Restored env old n st terms) (hdist : KeysDistinct env old)
    {t : Term κ γ} {bytes : ℕ} (hterm : terms.get? n = some t)
    (hbytes : restorableBytes env t.program = some bytes)
    (hfit : st.residencyBytes + bytes ≤ maximumTotalResidencyBytes) :
    Restored env old (n + 1)
      { st with
        entries := st.entries.put t.key ⟨n, t.token, ∅, false, bytes⟩
        slots := st.slots.put n t.key
        residencyBytes := st.residencyBytes + bytes } terms := by
  have hnew : st.entries.get? t.key = none := by
    cases he : st.entries.get? t.key with
    | none => rfl
    | some e =>
      obtain ⟨hs, -, p, hp, hb⟩ := h.entry _ e he
      have heq := hdist e.slot n _ t (h.sub _ _ hp) (h.sub n t hterm)
        (Option.isSome_of_mem hb) (Option.isSome_of_mem hbytes) rfl
      exact absurd hs (heq ▸ lt_irrefl _)
  refine { h with
    rest := fun i hi => h.rest i (Nat.le_of_succ_le hi)
    slot := fun i k => ?_
    entry := fun k e he => ?_
    found := fun i u hi hu => ?_
    residency := ?_, budget := hfit, below := ?_ }
  · rw [Assoc.get?_put_eq]
    by_cases hi : i = n
    · subst hi
      simp [hterm]
    · rw [if_neg hi, h.slot]
      refine and_congr_left fun _ => ?_
      lia
  · rcases Assoc.get?_put_cases he with ⟨rfl, rfl⟩ | ⟨-, he⟩
    · exact ⟨Nat.lt_succ_self n, rfl, t.program, hterm, hbytes⟩
    · obtain ⟨hs, hrest⟩ := h.entry k e he
      exact ⟨Nat.lt_succ_of_lt hs, hrest⟩
  · rcases Nat.lt_succ_iff_lt_or_eq.1 hi with hi' | rfl
    · obtain ⟨e, he, hes⟩ := h.found i u hi' hu
      refine ⟨e, (Assoc.get?_put_ne _ _ fun hk => ?_).trans he, hes⟩
      rw [hk, hnew] at he
      cases he
    · rw [hterm] at hu
      cases hu
      exact ⟨_, Assoc.get?_put _ _ _, rfl⟩
  · rw [Assoc.sumBy_put_new _ _ hnew, h.residency, Nat.add_comm]
  · have hat := bytesAt_of_get? (h.sub n t hterm) hbytes
    have hbelow := h.below
    show st.residencyBytes + bytes ≤ restorableBelow env old n + bytesAt env old n
    omega

theorem Restored.erase (h : Restored env old n st terms) (hterm : terms.get? n = some t)
    (hfits : ∀ bytes, restorableBytes env t.program = some bytes → maximumTotalResidencyBytes <
    st.residencyBytes + bytes) : Restored env old (n + 1) st (terms.delete n) := by
  have hget : ∀ i, (terms.delete n).get? i = if i = n then none else terms.get? i :=
    fun i => Assoc.get?_delete_eq _ _ _
  refine { h with
    sub := fun i u hu => h.sub i u (Assoc.get?_of_delete hu)
    rest := fun i hi => ?_
    slot := fun i k => ?_
    entry := fun k e he => ?_
    found := fun i u hi hu => ?_
    below := le_trans h.below (Nat.le_add_right _ _)
    kept := fun i u hu hb hle => ?_ }
  · rw [hget, if_neg (by lia)]
    exact h.rest i (Nat.le_of_succ_le hi)
  · rw [h.slot, hget]
    by_cases hi : i = n
    · subst hi
      simp
    · rw [if_neg hi]
      refine and_congr_left fun _ => ?_
      lia
  · obtain ⟨hs, hleases, p, hp, hsize⟩ := h.entry k e he
    refine ⟨Nat.lt_succ_of_lt hs, hleases, p, ?_, hsize⟩
    rw [hget, if_neg (Nat.ne_of_lt hs)]
    exact hp
  · rw [hget] at hu
    split at hu
    · cases hu
    · exact h.found i u (by lia) hu
  · rw [hget]
    split
    · rename_i hi
      subst hi
      -- a restorable term in a slot that fits in the budget is not erased
      rw [h.sub i t hterm] at hu
      cases hu
      obtain ⟨bytes, hbytes⟩ := Option.isSome_iff_exists.1 hb
      have hat := bytesAt_of_get? (h.sub i t hterm) hbytes
      have hlt := hfits bytes hbytes
      have hbelow := h.below
      change restorableBelow env old i + bytesAt env old i ≤ _ at hle
      omega
    · exact h.kept i u hu hb hle

theorem restoreBelow_restored (hdist : KeysDistinct env old) : ∀ n,
    Restored env old n (restoreBelow env old n).1 (restoreBelow env old n).2
  | 0 => by
    refine ⟨rfl, fun _ _ h => h, fun _ _ => rfl, fun i k => ?_, fun k e he => ?_,
      fun i t hi => absurd hi (Nat.not_lt_zero _), rfl, Nat.zero_le _, le_refl _,
      fun _ _ h _ _ => h⟩
    · exact iff_of_false (by rintro ⟨⟩) fun h => absurd h.1 (Nat.not_lt_zero _)
    · cases he
  | n + 1 => by
    have ih := restoreBelow_restored hdist n
    rw [restoreBelow_succ]
    generalize restoreBelow env old n = acc at ih ⊢
    obtain ⟨st, terms⟩ := acc
    unfold restoreSlot
    dsimp only at ih ⊢
    cases hterm : terms.get? n with
    | none => exact ih.skip hterm
    | some t =>
      dsimp only
      split
      · rename_i bytes hfits
        obtain ⟨hbytes, hfit⟩ := Option.filter_eq_some_iff.1 hfits
        exact ih.enter hdist hterm hbytes (of_decide_eq_true hfit)
      · rename_i hfits
        refine ih.erase hterm fun bytes hbytes => ?_
        have hno := Option.filter_eq_none_iff.1 hfits bytes hbytes
        rwa [decide_eq_true_eq, not_le] at hno

end QuickBeam.Vm.Program.Store
