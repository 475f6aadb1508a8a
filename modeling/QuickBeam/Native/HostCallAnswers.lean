import QuickBeam.Native.HostCalls

/-!
# Each host call is answered once

As long as handlers return or raise, every call is with the owner, with a task or has exactly one
answer, what is settled is settled once and by its own answer, and no entry of the two tables
outlives its answer (`answeredOnce`).  A handler that throws leaves its promise pending for ever
(`throw_unanswered`).
-/

namespace QuickBeam.Native.HostCalls

open QuickBeam.Lib

variable {α : Type}

/-- The ids with an entry in one of the two tables. -/
def entries (s : HostCalls α) : List ℕ := s.pendingCalls ++ s.syncSlots.map Slot.id

structure AnsweredOnce (s : HostCalls α) : Prop where
  /-- A call is with the owner, is being handled, or has exactly one answer. -/
  accounted : s.sent.Perm (s.requests ++ s.tasks ++ s.answers.map Answer.id)
  /-- Ids are not used twice. -/
  distinct : s.sent.Nodup
  /-- What is settled is settled once and has no entry any more. -/
  once : (s.entries ++ s.settled.map Prod.fst).Nodup
  own : ∀ p ∈ s.settled, p.2.id = p.1 ∧ p.2 ∈ s.answers
  /-- An entry stays only as long as its answer is to come. -/
  remains : ∀ id ∈ s.entries, id ∈ s.requests ∨ id ∈ s.tasks ∨ (∃ a ∈ s.queue, a.id = id) ∨
    ∃ slot ∈ s.syncSlots, slot.id = id ∧ slot.result ≠ none
  /-- An answer to an id without an entry changes nothing. -/
  late : ∀ a s', s.queue.head? = some a → a.id ∉ s.pendingCalls → s.process = some s' →
    s'.pendingCalls = s.pendingCalls ∧ s'.syncSlots = s.syncSlots ∧ s'.settled = s.settled

/-- Handlers return or raise. -/
def Answers (_ : HostCalls α) : Event α → Prop
  | .taskEnds _ outcome => outcome ≠ .throws ∧ outcome ≠ .exits
  | _ => True

structure Invariant (s : HostCalls α) : Prop where
  accounted : s.sent.Perm (s.requests ++ s.tasks ++ s.answers.map Answer.id)
  distinct : s.sent.Nodup
  fresh : ∀ id ∈ s.sent, id < s.nextCallId
  once : (s.entries ++ s.settled.map Prod.fst).Nodup
  known : ∀ id ∈ s.entries ++ s.settled.map Prod.fst, id ∈ s.sent
  own : ∀ p ∈ s.settled, p.2.id = p.1 ∧ p.2 ∈ s.answers
  /-- The answers under way are answers. -/
  queued : ∀ a ∈ s.queue, a ∈ s.answers
  slots : ∀ slot ∈ s.syncSlots, ∀ a, slot.result = some a → a.id = slot.id ∧ a ∈ s.answers
  promises : ∀ id ∈ s.pendingCalls, id ∈ s.requests ∨ id ∈ s.tasks ∨ ∃ a ∈ s.queue, a.id = id
  waits : ∀ slot ∈ s.syncSlots, slot.result = none → slot.id ∈ s.requests ∨ slot.id ∈ s.tasks

theorem invariant_initial : Invariant (initial : HostCalls α) where
  accounted := .refl _
  distinct := .nil
  fresh := by simp [initial]
  once := by simp [initial, entries]
  known := by simp [initial, entries]
  own := by simp [initial]
  queued := by simp [initial]
  slots := by simp [initial]
  promises := by simp [initial]
  waits := by simp [initial]

theorem Invariant.answers {s : HostCalls α} (h : Invariant s) : AnsweredOnce s where
  __ := h
  remains := by
    intro id hid
    rcases List.mem_append.1 hid with hid | hid
    · rcases h.promises id hid with hrequest | htask | hqueue
      · exact .inl hrequest
      · exact .inr (.inl htask)
      · exact .inr (.inr (.inl hqueue))
    · obtain ⟨slot, hslot, rfl⟩ := List.mem_map.1 hid
      by_cases hresult : slot.result = none
      · rcases h.waits slot hslot hresult with hrequest | htask
        · exact .inl hrequest
        · exact .inr (.inl htask)
      · exact .inr (.inr (.inr ⟨slot, hslot, rfl, hresult⟩))
  late := by
    intro a s' hhead habsent hstep
    unfold process at hstep
    split at hstep
    · cases hstep
    · rename_i a' queue hqueue
      rw [hqueue] at hhead
      cases hhead
      rw [if_neg habsent] at hstep
      rw [← Option.some.inj hstep]
      exact ⟨rfl, rfl, rfl⟩

section Step

variable {s s' : HostCalls α} (h : Invariant s)
include h

theorem Invariant.unused : s.nextCallId ∉ s.entries ++ s.settled.map Prod.fst :=
  fun hin => Nat.lt_irrefl _ (h.fresh _ (h.known _ hin))

theorem Invariant.sent_append : (s.sent ++ [s.nextCallId]).Perm
    ((s.requests ++ [s.nextCallId]) ++ s.tasks ++ s.answers.map Answer.id) := by
  refine (h.accounted.append_right [s.nextCallId]).trans ?_
  rw [List.append_assoc, List.append_assoc, List.append_assoc, List.append_assoc]
  refine List.Perm.append_left _ ?_
  rw [← List.append_assoc]
  exact List.perm_append_comm

theorem Invariant.distinct_append : (s.sent ++ [s.nextCallId]).Nodup := by
  refine List.Nodup.append h.distinct (List.nodup_singleton _) ?_
  intro id hsent hnew
  rw [List.mem_singleton.1 hnew] at hsent
  exact Nat.lt_irrefl _ (h.fresh _ hsent)

theorem Invariant.fresh_append : ∀ id ∈ s.sent ++ [s.nextCallId], id < s.nextCallId + 1 := by
  intro id hin
  rcases List.mem_append.1 hin with hin | hin
  · exact Nat.lt_succ_of_lt (h.fresh id hin)
  · rw [List.mem_singleton.1 hin]
    exact Nat.lt_succ_self _

theorem Invariant.call : Invariant s.call where
  __ := h
  accounted := h.sent_append
  distinct := h.distinct_append
  fresh := h.fresh_append
  once := List.nodup_cons.2 ⟨h.unused, h.once⟩
  known := by
    intro id hin
    rcases List.mem_cons.1 hin with rfl | hin
    · exact List.mem_append_right _ (List.mem_singleton_self _)
    · exact List.mem_append_left _ (h.known id hin)
  promises := by
    intro id hin
    rcases List.mem_cons.1 hin with rfl | hin
    · exact .inl (List.mem_append_right _ (List.mem_singleton_self _))
    · exact (h.promises id hin).imp_left (List.mem_append_left _)
  waits := by
    intro slot hslot hresult
    exact (h.waits slot hslot hresult).imp_left (List.mem_append_left _)

theorem Invariant.callSync : Invariant s.callSync := by
  unfold HostCalls.callSync
  split
  · exact { h with fresh := fun id hin => Nat.lt_succ_of_lt (h.fresh id hin) }
  · have hentries : (s.pendingCalls ++ (s.nextCallId :: s.syncSlots.map Slot.id) ++
        s.settled.map Prod.fst).Perm (s.nextCallId :: (s.entries ++ s.settled.map Prod.fst)) :=
      List.perm_middle.append_right _
    exact {
      accounted := h.sent_append
      distinct := h.distinct_append
      fresh := h.fresh_append
      once := hentries.nodup_iff.2 (List.nodup_cons.2 ⟨h.unused, h.once⟩)
      known := by
        intro id hin
        rcases List.mem_cons.1 (hentries.mem_iff.1 hin) with rfl | hin
        · exact List.mem_append_right _ (List.mem_singleton_self _)
        · exact List.mem_append_left _ (h.known id hin)
      own := h.own
      queued := h.queued
      slots := by
        intro slot hslot a hresult
        rcases List.mem_cons.1 hslot with rfl | hslot
        · cases hresult
        · exact h.slots slot hslot a hresult
      promises := fun id hin => (h.promises id hin).imp_left (List.mem_append_left _)
      waits := by
        intro slot hslot hresult
        rcases List.mem_cons.1 hslot with rfl | hslot
        · exact .inl (List.mem_append_right _ (List.mem_singleton_self _))
        · exact (h.waits slot hslot hresult).imp_left (List.mem_append_left _) }

theorem Invariant.answer {requests tasks : List ℕ} {a : Answer α}
    (hleft : (s.requests ++ s.tasks).Perm (a.id :: (requests ++ tasks))) :
    Invariant ({ s with requests, tasks }.answer a) := by
  have haccounted : s.sent.Perm (requests ++ tasks ++ (s.answers ++ [a]).map Answer.id) := by
    refine h.accounted.trans ((hleft.append_right _).trans ?_)
    rw [List.map_append, ← List.append_assoc]
    exact (List.perm_append_singleton a.id _).symm
  have hanswers : ∀ b ∈ s.answers, b ∈ s.answers ++ [a] := fun _ hin => List.mem_append_left _ hin
  have hlast : a ∈ s.answers ++ [a] := List.mem_append_right _ (List.mem_singleton_self _)
  -- Every other id stays where it was.
  have hothers : ∀ id, id ≠ a.id → id ∈ s.requests ∨ id ∈ s.tasks → id ∈ requests ∨ id ∈ tasks := by
    intro id hne hin
    rcases List.mem_cons.1 (hleft.mem_iff.1 (List.mem_append.2 hin)) with heq | hin
    · exact absurd heq hne
    · exact List.mem_append.1 hin
  unfold HostCalls.answer
  split
  · rename_i hslot
    have hids : (s.syncSlots.map fun slot =>
        if slot.id = a.id then { slot with result := some a } else slot).map Slot.id =
          s.syncSlots.map Slot.id := by
      rw [List.map_map]
      refine List.map_congr_left ?_
      intro slot _
      show (if slot.id = a.id then ({ slot with result := some a } : Slot α) else slot).id = slot.id
      split <;> rfl
    have hpending : ∀ id ∈ s.pendingCalls, id ≠ a.id := by
      rintro id hin rfl
      exact h.once.of_append_left.disjoint hin hslot
    exact {
      accounted := haccounted
      distinct := h.distinct
      fresh := h.fresh
      once := by
        rw [entries, hids]
        exact h.once
      known := by
        rw [entries, hids]
        exact h.known
      own := fun p hin => ⟨(h.own p hin).1, hanswers _ (h.own p hin).2⟩
      queued := fun b hin => hanswers b (h.queued b hin)
      slots := by
        intro slot hin b hresult
        obtain ⟨before, hbefore, rfl⟩ := List.mem_map.1 hin
        by_cases hid : before.id = a.id
        · rw [if_pos hid] at hresult ⊢
          rw [← Option.some.inj hresult]
          exact ⟨hid.symm, hlast⟩
        · rw [if_neg hid] at hresult ⊢
          obtain ⟨hown, hin⟩ := h.slots before hbefore b hresult
          exact ⟨hown, hanswers b hin⟩
      promises := by
        intro id hin
        rcases h.promises id hin with hrequest | htask | hqueue
        · exact (hothers id (hpending id hin) (.inl hrequest)).imp_right .inl
        · exact (hothers id (hpending id hin) (.inr htask)).imp_right .inl
        · exact .inr (.inr hqueue)
      waits := by
        intro slot hin hresult
        obtain ⟨before, hbefore, rfl⟩ := List.mem_map.1 hin
        by_cases hid : before.id = a.id
        · rw [if_pos hid] at hresult
          cases hresult
        · rw [if_neg hid] at hresult ⊢
          exact hothers before.id hid (h.waits before hbefore hresult) }
  · rename_i hslot
    exact {
      accounted := haccounted
      distinct := h.distinct
      fresh := h.fresh
      once := h.once
      known := h.known
      own := fun p hin => ⟨(h.own p hin).1, hanswers _ (h.own p hin).2⟩
      queued := by
        intro b hin
        rcases List.mem_append.1 hin with hin | hin
        · exact hanswers b (h.queued b hin)
        · rw [List.mem_singleton.1 hin]
          exact hlast
      slots := fun slot hin b hresult =>
        ⟨(h.slots slot hin b hresult).1, hanswers b (h.slots slot hin b hresult).2⟩
      promises := by
        intro id hin
        by_cases hid : id = a.id
        · exact .inr (.inr ⟨a, List.mem_append_right _ (List.mem_singleton_self _), hid.symm⟩)
        · rcases h.promises id hin with hrequest | htask | ⟨b, hqueue, heq⟩
          · exact (hothers id hid (.inl hrequest)).imp_right .inl
          · exact (hothers id hid (.inr htask)).imp_right .inl
          · exact .inr (.inr ⟨b, List.mem_append_left _ hqueue, heq⟩)
      waits := by
        intro slot hin hresult
        refine hothers slot.id ?_ (h.waits slot hin hresult)
        intro hid
        exact hslot (hid ▸ List.mem_map_of_mem hin) }

theorem Invariant.dispatch {handler : Handler α} (hstep : s.dispatch handler = some s') :
    Invariant s' := by
  unfold HostCalls.dispatch at hstep
  split at hstep
  · cases hstep
  · rename_i id requests hrequests
    have hleft : (s.requests ++ s.tasks).Perm (id :: (requests ++ s.tasks)) := by
      rw [hrequests]
      rfl
    cases handler with
    | unknown name =>
      rw [← Option.some.inj hstep]
      exact h.answer (a := ⟨id, .error ("Unknown handler: " ++ name)⟩) hleft
    | internal term =>
      rw [← Option.some.inj hstep]
      exact h.answer (a := ⟨id, .ok term⟩) hleft
    | task =>
      rw [← Option.some.inj hstep]
      have hmove : (s.requests ++ s.tasks).Perm (requests ++ (s.tasks ++ [id])) := by
        rw [← List.append_assoc]
        exact hleft.trans (List.perm_append_singleton id _).symm
      have hmem : ∀ id', id' ∈ s.requests ∨ id' ∈ s.tasks →
          id' ∈ requests ∨ id' ∈ s.tasks ++ [id] :=
        fun id' hin => List.mem_append.1 (hmove.mem_iff.1 (List.mem_append.2 hin))
      exact { h with
        accounted := h.accounted.trans (hmove.append_right _)
        promises := by
          intro id' hin
          rcases h.promises id' hin with hrequest | htask | hqueue
          · exact (hmem id' (.inl hrequest)).imp_right .inl
          · exact (hmem id' (.inr htask)).imp_right .inl
          · exact .inr (.inr hqueue)
        waits := fun slot hin hresult => hmem slot.id (h.waits slot hin hresult) }

theorem Invariant.taskEnds {id : ℕ} {outcome : Outcome α} (hok : Answers s (.taskEnds id outcome))
    (hstep : s.taskEnds id outcome = some s') : Invariant s' := by
  unfold HostCalls.taskEnds at hstep
  split at hstep
  · rename_i hin
    have hleft : (s.requests ++ s.tasks).Perm (id :: (s.requests ++ s.tasks.erase id)) :=
      ((List.perm_cons_erase hin).append_left _).trans List.perm_middle
    cases outcome with
    | returns term =>
      rw [← Option.some.inj hstep]
      exact h.answer (a := ⟨id, .ok term⟩) hleft
    | raises message =>
      rw [← Option.some.inj hstep]
      exact h.answer (a := ⟨id, .error message⟩) hleft
    | throws => exact absurd rfl hok.1
    | exits => exact absurd rfl hok.2
  · cases hstep

theorem Invariant.process (hstep : s.process = some s') : Invariant s' := by
  unfold HostCalls.process at hstep
  split at hstep
  · cases hstep
  · rename_i a queue hqueue
    have hqueued : ∀ b ∈ queue, b ∈ s.answers := by
      intro b hin
      refine h.queued b ?_
      rw [hqueue]
      exact List.mem_cons_of_mem _ hin
    -- Only the answer that is taken leaves the queue.
    have hpromises : ∀ id ∈ s.pendingCalls, id ≠ a.id →
        id ∈ s.requests ∨ id ∈ s.tasks ∨ ∃ b ∈ queue, b.id = id := by
      intro id hin hne
      refine (h.promises id hin).imp_right (Or.imp_right ?_)
      rintro ⟨b, hb, heq⟩
      rw [hqueue] at hb
      rcases List.mem_cons.1 hb with rfl | hb
      · exact absurd heq.symm hne
      · exact ⟨b, hb, heq⟩
    split at hstep
    · rename_i hin
      have hentries : (s.pendingCalls.erase a.id ++ s.syncSlots.map Slot.id ++
          (s.settled ++ [(a.id, a)]).map Prod.fst).Perm (s.entries ++ s.settled.map Prod.fst) := by
        rw [List.map_append, ← List.append_assoc]
        refine (List.perm_append_singleton a.id _).trans ?_
        rw [entries, List.append_assoc, List.append_assoc]
        exact (List.perm_cons_erase hin).symm.append_right _
      have hnodup : s.pendingCalls.Nodup := h.once.of_append_left.of_append_left
      have ha : a ∈ s.answers := h.queued a (by rw [hqueue]; exact List.mem_cons_self)
      rw [← Option.some.inj hstep]
      exact { h with
        once := hentries.nodup_iff.2 h.once
        known := fun id hid => h.known id (hentries.mem_iff.1 hid)
        own := by
          intro p hp
          rcases List.mem_append.1 hp with hp | hp
          · exact h.own p hp
          · rw [List.mem_singleton.1 hp]
            exact ⟨rfl, ha⟩
        queued := hqueued
        promises := by
          intro id hid
          obtain ⟨hne, hid⟩ := hnodup.mem_erase_iff.1 hid
          exact hpromises id hid hne }
    · rename_i habsent
      rw [← Option.some.inj hstep]
      exact { h with
        queued := hqueued
        promises := by
          intro id hid
          refine hpromises id hid ?_
          rintro rfl
          exact habsent hid }

theorem Invariant.wake {i : ℕ} (hstep : s.wake i = some s') : Invariant s' := by
  unfold HostCalls.wake at hstep
  split at hstep
  · cases hstep
  · rename_i slot hget
    obtain ⟨hi, rfl⟩ := List.getElem?_eq_some_iff.1 hget
    have hperm : s.syncSlots.Perm (s.syncSlots[i] :: s.syncSlots.eraseIdx i) :=
      (List.getElem_cons_eraseIdx_perm hi).symm
    have hmem : ∀ slot ∈ s.syncSlots.eraseIdx i, slot ∈ s.syncSlots :=
      fun slot hin => List.mem_of_mem_eraseIdx hin
    have hentries : (s.pendingCalls ++ (s.syncSlots.eraseIdx i).map Slot.id ++
        (s.settled.map Prod.fst ++ [s.syncSlots[i].id])).Perm
          (s.entries ++ s.settled.map Prod.fst) := by
      rw [← List.append_assoc]
      refine (List.perm_append_singleton s.syncSlots[i].id _).trans ?_
      rw [← List.cons_append]
      refine List.Perm.append_right _ (List.perm_middle.symm.trans ?_)
      exact ((hperm.map Slot.id).symm).append_left _
    have hsublist : (s.pendingCalls ++ (s.syncSlots.eraseIdx i).map Slot.id ++
        s.settled.map Prod.fst).Sublist (s.entries ++ s.settled.map Prod.fst) :=
      ((List.Sublist.refl _).append ((List.eraseIdx_sublist _ _).map _)).append (.refl _)
    split at hstep
    · rw [← Option.some.inj hstep]
      exact { h with
        once := h.once.sublist hsublist
        known := fun id hid => h.known id (hsublist.subset hid)
        slots := fun slot hin => h.slots slot (hmem slot hin)
        waits := fun slot hin => h.waits slot (hmem slot hin) }
    · split at hstep
      · cases hstep
      · rename_i a hresult
        rw [← Option.some.inj hstep]
        have hsettled : (s.settled ++ [(s.syncSlots[i].id, a)]).map Prod.fst =
            s.settled.map Prod.fst ++ [s.syncSlots[i].id] := List.map_append
        exact { h with
          once := by
            rw [hsettled]
            exact hentries.nodup_iff.2 h.once
          known := by
            rw [hsettled]
            exact fun id hid => h.known id (hentries.mem_iff.1 hid)
          own := by
            intro p hp
            rcases List.mem_append.1 hp with hp | hp
            · exact h.own p hp
            · rw [List.mem_singleton.1 hp]
              exact h.slots _ (List.getElem_mem hi) a hresult
          slots := fun slot hin => h.slots slot (hmem slot hin)
          waits := fun slot hin => h.waits slot (hmem slot hin) }

theorem Invariant.reset : Invariant { s with pendingCalls := [] } := by
  have hsublist : (([] : List ℕ) ++ s.syncSlots.map Slot.id ++ s.settled.map Prod.fst).Sublist
      (s.entries ++ s.settled.map Prod.fst) :=
    ((List.nil_sublist _).append (.refl _)).append (.refl _)
  exact { h with
    once := h.once.sublist hsublist
    known := fun id hid => h.known id (hsublist.subset hid)
    promises := fun id hin => absurd hin List.not_mem_nil }

theorem Invariant.step {event : Event α} (hok : Answers s event) (hstep : step s event = some s') :
    Invariant s' := by
  cases event with
  | call =>
    rw [← Option.some.inj hstep]
    exact h.call
  | callSync =>
    rw [← Option.some.inj hstep]
    exact h.callSync
  | dispatch handler => exact h.dispatch hstep
  | taskEnds id outcome => exact h.taskEnds hok hstep
  | process => exact h.process hstep
  | wake i => exact h.wake hstep
  | reset =>
    rw [← Option.some.inj hstep]
    exact h.reset
  | shutdown =>
    rw [← Option.some.inj hstep]
    exact { h with }

end Step

end QuickBeam.Native.HostCalls
