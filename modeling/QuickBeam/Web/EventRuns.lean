import QuickBeam.Web.EventInvariant

/-!
# Event targets: steps and runs

Each step of the machine that is `Allowed` keeps the invariant, so the discipline holds in every
run of such steps; without the condition it does not.
-/

namespace QuickBeam.Web.EventTarget

open QuickBeam.Lib

variable {F : Type} [DecidableEq F]

/-! ### Adding -/

section

variable {s : State F} {target : ℕ} {type : Text} {callback : F} {once : Bool} {signal : Option ℕ}

theorem registers_iff {c : Callback F} : s.registers target type c = true ↔
    ∃ e ∈ s.listed target type, e.callback = c := by
  simp [State.registers]

omit [DecidableEq F] in
theorem listed_of_none (h : s.listeners.get? (target, type) = none) : s.listed target type = [] := by
  rw [State.listed, h]
  rfl

omit [DecidableEq F] in
/-- What `Allowed` asks of a registration, for every closure. -/
theorem own_of_allowed (h : Allowed s (.add target type (some callback) once signal)) (g : ℕ) :
    ∀ closure ∈ s.listed g abort, closure.callback.removes target type callback →
      s.Unfinished g → signal = some g := by
  intro closure hmem hremoves hunfinished
  rw [State.listed] at hmem
  cases hlist : s.listeners.get? (g, abort) with
  | none =>
    rw [hlist] at hmem
    cases hmem
  | some list =>
    rw [hlist] at hmem
    exact h.2 ((g, abort), list) (Assoc.mem_toList.2 hlist) rfl hunfinished ⟨closure, hmem, hremoves⟩

theorem Invariant.addUnsignalled (h : Invariant none s)
    (hok : Allowed s (.add target type (some callback) once none)) :
    Invariant none (s.addUnsignalled target type (.script callback) once) := by
  unfold State.addUnsignalled
  split
  · exact h
  · rename_i hregisters
    have hnew : ∀ e ∈ s.listed target type, e.callback ≠ .script callback :=
      fun e he heq => hregisters (registers_iff.2 ⟨e, he, heq⟩)
    refine h.store listed_of_none hnew ⟨Nat.lt_succ_self _, trivial⟩ ?_
    refine h.hooked.store listed_of_none (by rintro _ ⟨⟩) (by rintro _ _ ⟨⟩) ?_
      (by rintro _ _ _ _ ⟨⟩)
    intro g f closure hmem hscript hremoves hunfinished
    cases hscript
    exact own_of_allowed hok g closure hmem hremoves hunfinished

theorem Invariant.addUnsignalled_closure (h : Invariant none s) (g : ℕ) :
    s.addUnsignalled g abort (.removal s.serial target type callback) false =
      s.store g abort (s.listeners.get? (g, abort)) (.removal s.serial target type callback) false
        none := by
  refine if_neg fun hregisters => ?_
  obtain ⟨e, hmem, hcallback⟩ := registers_iff.1 hregisters
  obtain ⟨-, hproper⟩ := h.recorded.proper _ _ _ (h.recorded.mem_listed.1 hmem).1
  rw [hcallback] at hproper
  exact lt_irrefl _ hproper.1

theorem Invariant.addEventListener (h : Invariant none s)
    (hok : Allowed s (.add target type (some callback) once signal)) :
    Invariant none (s.addEventListener target type callback once signal) := by
  cases signal with
  | none => exact h.addUnsignalled hok
  | some g =>
    unfold State.addEventListener
    dsimp only
    split
    · exact h
    rename_i hregisters
    split
    · exact h
    rename_i haborted
    have hnew : ∀ e ∈ s.listed target type, e.callback ≠ .script callback :=
      fun e he heq => hregisters (registers_iff.2 ⟨e, he, heq⟩)
    have happart : ¬ (g = target ∧ abort = type) :=
      fun hsame => hok.1 hsame.2.symm (congrArg some hsame.1)
    -- the closure goes onto the list of the signal
    rw [h.addUnsignalled_closure]
    have hclosure : ∀ e ∈ s.listed g abort,
        e.callback ≠ .removal s.serial target type callback := by
      intro e he heq
      have hproper := (h.recorded.proper _ _ _ (h.recorded.mem_listed.1 he).1).2
      rw [heq] at hproper
      exact lt_irrefl _ hproper.1
    have h₁ : Invariant none (s.store g abort (s.listeners.get? (g, abort))
        (.removal s.serial target type callback) false none) := by
      refine h.store listed_of_none hclosure
        ⟨Nat.lt_succ_self _, Nat.lt_succ_self _, rfl, rfl⟩ ?_
      refine h.hooked.store listed_of_none (by rintro _ ⟨⟩) (by rintro _ _ ⟨⟩)
        (by rintro _ _ _ _ ⟨⟩) ?_
      rintro target' type' f - ⟨rfl, rfl, rfl⟩
      exact hnew
    have hlisted : (s.store g abort (s.listeners.get? (g, abort))
        (.removal s.serial target type callback) false none).listed target type =
          s.listed target type := by
      rw [listed_store listed_of_none, if_neg happart, List.append_nil]
    -- the entry goes onto its own
    have hlist : s.listeners.get? (target, type) = none → (s.store g abort
        (s.listeners.get? (g, abort)) (.removal s.serial target type callback) false
          none).listed target type = [] := by
      intro hnone
      rw [hlisted, listed_of_none hnone]
    refine h₁.store hlist (by rwa [hlisted]) ⟨Nat.lt_succ_self _, trivial⟩ ?_
    refine h₁.hooked.store hlist (fun htype hsame => ?_) ?_ ?_ (by rintro _ _ _ _ ⟨⟩)
    · exact hok.1 htype hsame
    · rintro _ _ ⟨⟩ ⟨⟩
      refine ⟨s.entry (.removal s.serial target type callback) false none, ⟨rfl, rfl, rfl⟩, .inl ?_⟩
      exact ⟨haborted, (mem_listed_store listed_of_none).2 (.inr ⟨⟨rfl, rfl⟩, rfl⟩)⟩
    · rintro g' _ closure hmem ⟨⟩ hremoves hunfinished
      rcases (mem_listed_store listed_of_none).1 hmem with hmem | ⟨⟨rfl, -⟩, -⟩
      · exact own_of_allowed hok g' closure hmem hremoves hunfinished
      · rfl

end

/-! ### Starting a dispatch -/

section

variable {s s' : State F} {target event : ℕ} {aborts : Bool}

omit [DecidableEq F] in
theorem dispatchEvent_spec (h : s.dispatchEvent target event aborts = some s') :
    ∃ e : Event, s.events[event]? = some e ∧
      (s.listed target e.type = [] ∧ s' = { s with
          dispatches := s.dispatches + 1
          trace := s.trace ++ [.began s.dispatches target e.type [],
            .ended s.dispatches (!e.defaultPrevented)] } ∨
        s' = { s with
          dispatches := s.dispatches + 1
          stack := .dispatch ⟨s.dispatches, target, e.type, event, s.listed target e.type, none,
            aborts⟩ :: s.stack
          trace := s.trace ++ [.began s.dispatches target e.type (s.listed target e.type)] }) := by
  obtain ⟨e, he, h⟩ := Option.bind_eq_some_iff.1 h
  refine ⟨e, he, ?_⟩
  cases hlist : s.listeners.get? (target, e.type) with
  | none =>
    rw [hlist] at h
    cases h
    exact .inl ⟨listed_of_none hlist, rfl⟩
  | some list =>
    have hlisted : s.listed target e.type = list := by
      rw [State.listed, hlist]
      rfl
    rw [hlist] at h
    cases h
    rw [hlisted]
    exact .inr rfl

theorem Stacked.not_began (h : Stacked s) {target : ℕ} {type : Text}
    {snapshot : List (ListenerEntry F)} :
    .began s.dispatches target type snapshot ∉ s.trace :=
  fun hmem => lt_irrefl _ (h.begun _ _ _ _ hmem)

theorem disciplined_began (hr : Recorded s) (hs : Stacked s)
    (hall : History.Each Disciplined s.trace) (target : ℕ) (type : Text) :
    History.Each Disciplined
      (s.trace ++ [.began s.dispatches target type (s.listed target type)]) :=
  History.each_append_singleton.2
    ⟨hall, hr.listed target type, hr.nodup target type, fun _ _ _ => hs.not_began⟩

theorem starts (hr : Recorded s) (hs : Stacked s) (hall : History.Each Disciplined s.trace)
    (hquiet : ∀ e ∈ s.events[event]?, s.Quiet target e.type)
    (h : s.dispatchEvent target event aborts = some s') :
    Recorded s' ∧ Stacked s' ∧ History.Each Disciplined s'.trace := by
  obtain ⟨e, he, ⟨hempty, rfl⟩ | rfl⟩ := dispatchEvent_spec h
  · have hbegan := disciplined_began hr hs hall target e.type
    rw [hempty] at hbegan
    refine ⟨?_, ?_, ?_⟩
    · refine hr.keep rfl rfl rfl rfl (by simp [Happening.silent]) fun signal => ?_
      rw [hr.aborted]
      simp
    · constructor
      · intro d hd
        exact (hs.follows d hd).mono (by simp)
      · intro id target' type' snapshot hmem
        rcases List.mem_append.1 hmem with hmem | hmem
        · exact (hs.begun _ _ _ _ hmem).trans (Nat.lt_succ_self _)
        · simp only [List.mem_cons, Happening.began.injEq, reduceCtorEq, List.not_mem_nil,
            or_false] at hmem
          rw [hmem.1]
          exact Nat.lt_succ_self _
      · exact hs.distinct
      · intro id entry hmem honce
        simp only [List.mem_append, List.mem_cons, reduceCtorEq, List.not_mem_nil, or_false] at hmem
        exact (hs.once id entry hmem honce).imp_left gone_mono
      · exact hs.below
    · rw [List.append_cons]
      refine History.each_append_singleton.2 ⟨hbegan, ?_⟩
      intro target' type' snapshot hmem entry hentry
      rw [began_unique hbegan (List.mem_append_right _ List.mem_cons_self) hmem] at hentry
      cases hentry
  · refine ⟨?_, ?_, disciplined_began hr hs hall target e.type⟩
    · refine hr.keep rfl rfl rfl rfl (by simp [Happening.silent]) fun signal => ?_
      rw [hr.aborted]
      simp
    · have hcalled : ∀ entry : ListenerEntry F, .called s.dispatches entry ∉ s.trace := by
        intro entry hmem
        obtain ⟨target', type', snapshot, hbegan⟩ := began_of_called hall hmem
        exact hs.not_began hbegan
      constructor
      · intro d hd
        rcases List.mem_cons.1 hd with hd | hd
        · cases hd
          refine ⟨[], List.mem_append_right _ List.mem_cons_self, ?_, nofun, nofun⟩
          rw [calls_append, calls_of_not_called hcalled]
          exact List.Sublist.refl []
        · exact (hs.follows d hd).mono (by simp)
      · intro id target' type' snapshot hmem
        rcases List.mem_append.1 hmem with hmem | hmem
        · exact (hs.begun _ _ _ _ hmem).trans (Nat.lt_succ_self _)
        · cases List.mem_singleton.1 hmem
          exact Nat.lt_succ_self _
      · refine List.pairwise_cons.2 ⟨fun f hf d d' hd hd' => ?_, hs.distinct⟩
        cases hd
        obtain ⟨done, hbegan, -⟩ := hs.follows d' (hd' ▸ hf)
        exact (hs.begun _ _ _ _ hbegan).ne'
      · intro id entry hmem honce
        simp only [List.mem_append, List.mem_cons, reduceCtorEq, List.not_mem_nil, or_false] at hmem
        refine (hs.once id entry hmem honce).imp gone_mono ?_
        rintro ⟨f, hf, hentry⟩
        exact ⟨f, List.mem_cons_of_mem _ hf, hentry⟩
      · refine List.pairwise_cons.2 ⟨fun f hf entry hentry => ?_, hs.below⟩
        exact hquiet e he entry hentry f hf

end

section

variable {s s' : State F} {target event signal : ℕ} {below : List (Frame F)}

theorem Invariant.dispatchEvent (h : Invariant none s)
    (hquiet : ∀ e ∈ s.events[event]?, s.Quiet target e.type)
    (hstep : s.dispatchEvent target event false = some s') : Invariant none s' := by
  obtain ⟨hr, hs, hall⟩ := starts h.recorded h.stacked h.disciplined hquiet hstep
  refine ⟨hr, hs, ?_, hall⟩
  obtain ⟨e, he, ⟨-, rfl⟩ | rfl⟩ := dispatchEvent_spec hstep
  · exact h.hooked.keep (fun _ _ => rfl) rfl rfl fun f _ _ e he => ⟨e, he, rfl, rfl⟩
  · refine h.hooked.frames (fun _ _ => rfl) rfl rfl ?_ ?_ nofun ?_
    · intro f' hf' g hg
      rcases List.mem_cons.1 hf' with rfl | hf'
      · cases hg
      · exact ⟨f', hf', hg, rfl⟩
    · intro d hd haborts
      rcases List.mem_cons.1 hd with hd | hd
      · cases hd
        cases haborts
      · exact h.hooked.typed d hd haborts
    · rintro g closure _ _ _ - - ⟨f, hf, hwaits⟩
      exact ⟨f, List.mem_cons_of_mem _ hf, hwaits⟩

/-- `SYM_ABORT` after `onabort`: the signal dispatches. -/
theorem Invariant.dispatchAbort (h : Invariant none s) (htop : s.stack = .onabort signal event :: below)
    (hquiet : ({ s with stack := below } : State F).Quiet signal abort)
    (hstep : ({ s with stack := below } : State F).dispatchEvent signal event true = some s') :
    Invariant none s' := by
  obtain ⟨-, e, he, htype, -⟩ := h.hooked.framed _ (htop ▸ List.mem_cons_self) signal rfl
  have hpopped : Stacked ({ s with stack := below } : State F) := by
    refine h.stacked.pop htop nofun rfl rfl (List.append_nil _).symm nofun
  have hrecorded : Recorded ({ s with stack := below } : State F) := by
    refine h.recorded.keep rfl rfl rfl (List.append_nil _).symm nofun h.recorded.aborted
  have hquiet' : ∀ e' ∈ s.events[event]?, ({ s with stack := below } : State F).Quiet signal e'.type := by
    intro e' he'
    have heq : e' = e := Option.some_inj.1 (he'.symm.trans he)
    rw [heq, htype]
    exact hquiet
  obtain ⟨hr, hs, hall⟩ := starts hrecorded hpopped h.disciplined hquiet' hstep
  refine ⟨hr, hs, ?_, hall⟩
  obtain ⟨e', he', hcases⟩ := dispatchEvent_spec hstep
  have heq : e' = e := Option.some_inj.1 (he'.symm.trans he)
  rw [heq, htype] at hcases
  rcases hcases with ⟨hempty, rfl⟩ | rfl
  · -- no listener: the closures that wait are in other frames
    refine h.hooked.frames (fun _ _ => rfl) rfl rfl ?_ ?_ nofun ?_
    · intro f hf g hg
      exact ⟨f, htop ▸ List.mem_cons_of_mem _ hf, hg, rfl⟩
    · intro d hd
      exact h.hooked.typed d (htop ▸ List.mem_cons_of_mem _ hd)
    · rintro g closure _ _ _ - - ⟨f, hf, hwaits⟩
      rcases List.mem_cons.1 (htop ▸ hf) with rfl | hf
      · obtain ⟨rfl, hmem⟩ := hwaits
        have hnone : s.listed signal abort = [] := hempty
        rw [hnone] at hmem
        cases hmem
      · exact ⟨f, hf, hwaits⟩
  · -- the closures that waited in the frame of `onabort` are in the snapshot
    refine h.hooked.frames (fun _ _ => rfl) rfl rfl ?_ ?_ nofun ?_
    · intro f hf g hg
      rcases List.mem_cons.1 hf with rfl | hf
      · exact ⟨.onabort signal event, htop ▸ List.mem_cons_self, hg, rfl⟩
      · exact ⟨f, htop ▸ List.mem_cons_of_mem _ hf, hg, rfl⟩
    · intro d hd haborts
      rcases List.mem_cons.1 hd with hd | hd
      · cases hd
        rfl
      · exact h.hooked.typed d (htop ▸ List.mem_cons_of_mem _ hd) haborts
    · rintro g closure _ _ _ - - ⟨f, hf, hwaits⟩
      rcases List.mem_cons.1 (htop ▸ hf) with rfl | hf
      · obtain ⟨rfl, hmem⟩ := hwaits
        exact ⟨_, List.mem_cons_self, rfl, rfl, hmem⟩
      · exact ⟨f, List.mem_cons_of_mem _ hf, hwaits⟩

def State.beginAbort (s : State F) (signal : ℕ) : State F :=
  { s with
    aborted := signal :: s.aborted
    events := s.events ++ [⟨abort, false, false⟩]
    stack := .onabort signal s.events.length :: s.stack
    trace := s.trace ++ [.aborted signal] }

theorem Invariant.beginAbort (h : Invariant none s) (hnew : signal ∉ s.aborted) :
    Invariant none (s.beginAbort signal) where
  recorded := by
    refine h.recorded.keep rfl rfl rfl rfl (by simp [Happening.silent]) fun g => ?_
    show g ∈ signal :: s.aborted ↔ _ ∈ s.trace ++ [_]
    rw [List.mem_cons, List.mem_append, List.mem_singleton, h.recorded.aborted, or_comm]
    simp
  stacked := by
    have hpassive : ∀ x ∈ [(Happening.aborted signal : Happening F)], x.passive = true := by
      simp [Happening.passive]
    constructor
    · intro d hd
      rcases List.mem_cons.1 hd with hd | hd
      · cases hd
      · exact (h.stacked.follows d hd).mono (not_called_of_passive hpassive _)
    · intro id target type snapshot hmem
      rcases List.mem_append.1 hmem with hmem | hmem
      · exact h.stacked.begun _ _ _ _ hmem
      · exact absurd hmem (not_began_of_passive hpassive)
    · exact List.pairwise_cons.2 ⟨fun f _ d d' hd => (nomatch hd), h.stacked.distinct⟩
    · intro id entry hmem honce
      rcases List.mem_append.1 hmem with hmem | hmem
      · refine (h.stacked.once id entry hmem honce).imp gone_mono ?_
        rintro ⟨f, hf, hentry⟩
        exact ⟨f, List.mem_cons_of_mem _ hf, hentry⟩
      · exact absurd hmem (not_called_of_passive hpassive _ _)
    · exact List.pairwise_cons.2 ⟨fun f _ => nofun, h.stacked.below⟩
  hooked := by
    constructor
    · intro target type entry g callback hmem hsignal hcallback hother
      obtain ⟨closure, hremoves, hcase⟩ := h.hooked.hooks target type entry g callback hmem hsignal
        hcallback hother
      refine ⟨closure, hremoves, ?_⟩
      rcases hcase with ⟨haborted, hmem⟩ | ⟨f, hf, hwaits⟩
      · by_cases hg : g = signal
        · exact .inr ⟨_, List.mem_cons_self, hg.symm, hmem⟩
        · exact .inl ⟨fun hmem' => (List.mem_cons.1 hmem').elim hg haborted, hmem⟩
      · refine .inr ⟨f, List.mem_cons_of_mem _ hf, ?_⟩
        exact (waits_congr (fun _ _ => rfl) _ _ _).2 hwaits
    · intro g closure target type callback entry hclosure hremoves hunfinished hmem hcallback
      refine h.hooked.own g closure target type callback entry hclosure hremoves ?_ hmem hcallback
      rcases hunfinished with haborted | ⟨f, hf, hg⟩
      · exact .inl fun hmem => haborted (List.mem_cons_of_mem _ hmem)
      · rcases List.mem_cons.1 hf with rfl | hf
        · cases hg
          exact .inl hnew
        · exact .inr ⟨f, hf, hg⟩
    · exact h.hooked.apart
    · intro f hf g hg
      rcases List.mem_cons.1 hf with rfl | hf
      · cases hg
        refine ⟨List.mem_cons_self, ⟨abort, false, false⟩, ?_, rfl, rfl⟩
        exact List.getElem?_concat_length
      · obtain ⟨hmem, e, he, htype⟩ := h.hooked.framed f hf g hg
        refine ⟨List.mem_cons_of_mem _ hmem, e, ?_, htype⟩
        have hlt := (List.getElem?_eq_some_iff.1 he).1
        exact (List.getElem?_append_left hlt).trans he
    · intro d hd
      rcases List.mem_cons.1 hd with hd | hd
      · cases hd
      · exact h.hooked.typed d hd
  disciplined := History.each_append_singleton.2 ⟨h.disciplined, trivial⟩

end

/-! ### The loop of a dispatch -/

section

variable {s s' : State F} {d : Dispatch F} {below : List (Frame F)} {entry : ListenerEntry F}
  {rest : List (ListenerEntry F)} {except : Option (ℕ × Text × F)}

omit [DecidableEq F] in
theorem Hooked.pop {f : Frame F} (h : Hooked none s) (htop : s.stack = f :: below)
    (hwaits : ∀ g closure target type callback,
      closure.callback.removes target type callback → ¬ s.Waits g closure f)
    (hlisted : ∀ target type, s'.listed target type = s.listed target type)
    (haborted : s'.aborted = s.aborted) (hevents : s'.events = s.events) (hstack : s'.stack = below) :
    Hooked none s' := by
  refine h.frames hlisted haborted hevents ?_ ?_ nofun ?_
  · intro f' hf' g hg
    exact ⟨f', htop ▸ List.mem_cons_of_mem _ (hstack ▸ hf'), hg, rfl⟩
  · intro d hd
    exact h.typed d (htop ▸ List.mem_cons_of_mem _ (hstack ▸ hd))
  · rintro g closure target type callback hremoves - ⟨f', hf', hf'waits⟩
    rcases List.mem_cons.1 (htop ▸ hf') with rfl | hf'
    · exact absurd hf'waits (hwaits g closure target type callback hremoves)
    · exact ⟨f', hstack ▸ hf', (waits_congr hlisted _ _ _).2 hf'waits⟩

omit [DecidableEq F] in
/-- The dispatch goes on behind an entry; only the closure that runs may be one. -/
theorem Hooked.proceed (h : Hooked none s) (running : Option (ListenerEntry F))
    (htop : s.stack = .dispatch d :: below) (hrest : d.rest = entry :: rest)
    (hexcept : ∀ target type callback, entry.callback.removes target type callback →
      except = some (target, type, callback))
    (hlisted : ∀ target type, s'.listed target type = s.listed target type)
    (haborted : s'.aborted = s.aborted) (hevents : s'.events = s.events)
    (hstack : s'.stack = .dispatch { d with rest := rest, entry := running } :: below) :
    Hooked except s' := by
  refine h.frames hlisted haborted hevents ?_ ?_ nofun ?_
  · intro f' hf' g hg
    rcases List.mem_cons.1 (hstack ▸ hf') with rfl | hf'
    · exact ⟨.dispatch d, htop ▸ List.mem_cons_self, hg, rfl⟩
    · exact ⟨f', htop ▸ List.mem_cons_of_mem _ hf', hg, rfl⟩
  · intro d' hd' haborts
    rcases List.mem_cons.1 (hstack ▸ hd') with hd' | hd'
    · cases hd'
      exact h.typed d (htop ▸ List.mem_cons_self) haborts
    · exact h.typed d' (htop ▸ List.mem_cons_of_mem _ hd') haborts
  · rintro g closure target type callback hremoves hother ⟨f, hf, hwaits⟩
    rw [hstack]
    rcases List.mem_cons.1 (htop ▸ hf) with rfl | hf
    · obtain ⟨haborts, htarget, hmem⟩ := hwaits
      rcases List.mem_cons.1 (hrest ▸ hmem) with rfl | hmem
      · exact absurd (hexcept _ _ _ hremoves) hother
      · exact ⟨_, List.mem_cons_self, haborts, htarget, hmem⟩
    · exact ⟨f, List.mem_cons_of_mem _ hf, (waits_congr hlisted _ _ _).2 hwaits⟩

theorem Invariant.disciplined_called (h : Invariant none s) (htop : s.stack = .dispatch d :: below)
    (hidle : d.entry = none) (hrest : d.rest = entry :: rest) (hremoved : entry ∉ s.removed) :
    Disciplined s.trace (.called d.id entry) := by
  have hd : .dispatch d ∈ s.stack := htop ▸ List.mem_cons_self
  have hentry : entry ∈ d.rest := hrest ▸ List.mem_cons_self
  have hgone : gone s.trace entry = false := by
    rw [Bool.eq_false_iff]
    exact fun hgone => hremoved ((h.recorded.removed entry).2 hgone)
  have hbelow := h.stacked.below
  rw [htop] at hbelow
  refine ⟨?_, hgone, fun honce id hmem => ?_, fun signal hsignal hmem => ?_⟩
  · obtain ⟨done, hbegan, hcalls, -⟩ := h.stacked.follows d hd
    refine ⟨_, _, _, hbegan, ?_⟩
    rw [hrest, List.append_cons done entry rest]
    exact (hcalls.append_right [entry]).trans (List.sublist_append_left _ _)
  · -- called before and not removed: it is still being called, by a dispatch below
    rcases h.stacked.once id entry hmem honce with hgone' | ⟨f, hf, hrunning⟩
    · rw [hgone'] at hgone
      cases hgone
    · rcases List.mem_cons.1 (htop ▸ hf) with rfl | hf
      · rw [Frame.entry, hidle] at hrunning
        cases hrunning
      · have hno := ((List.pairwise_cons.1 hbelow).1 f hf entry hentry).1 hrunning
        rw [hno] at honce
        cases honce
  · -- its closure waits in an abort below
    have hlisted := (h.listed_of_follows hd hentry).2 hremoved
    obtain ⟨f, hproper⟩ : ∃ f, entry.callback = .script f := by
      have hproper := (h.recorded.proper _ _ _ (h.listed_of_follows hd hentry).1).2
      cases hcallback : entry.callback with
      | script f => exact ⟨f, rfl⟩
      | removal closure target type callback =>
        rw [hcallback] at hproper
        rw [hproper.2.2] at hsignal
        cases hsignal
    obtain ⟨closure, hremoves, hcase⟩ := h.hooked.hooks _ _ entry signal f hlisted hsignal hproper
      nofun
    rcases hcase with ⟨haborted, -⟩ | ⟨frame, hframe, hwaits⟩
    · exact haborted ((h.recorded.aborted signal).2 hmem)
    · rcases List.mem_cons.1 (htop ▸ hframe) with rfl | hframe
      · obtain ⟨haborts, rfl, -⟩ := hwaits
        rw [h.hooked.typed d hd haborts] at hlisted
        exact h.hooked.apart _ _ hlisted hsignal
      · exact ((List.pairwise_cons.1 hbelow).1 frame hframe entry hentry).2 signal hwaits.aborting
          hsignal

theorem Invariant.proceed (h : Invariant none s) (except : Option (ℕ × Text × F))
    (running : Option (ListenerEntry F)) (htop : s.stack = .dispatch d :: below) (hidle : d.entry = none) (hrest : d.rest = entry :: rest)
    (hremoved : entry ∉ s.removed)
    (hexcept : ∀ target type callback, entry.callback.removes target type callback →
      except = some (target, type, callback))
    (hrunning : running = some entry ∨ running = none ∧ entry.once = false) :
    Invariant except { s with
      stack := .dispatch { d with rest := rest, entry := running } :: below
      trace := s.trace ++ [.called d.id entry] } where
  recorded := by
    refine h.recorded.keep rfl rfl rfl rfl (by simp [Happening.silent]) fun signal => ?_
    rw [h.recorded.aborted]
    simp
  stacked := by
    have hsubset : ∀ e ∈ rest, e ∈ d.rest := by
      intro e he
      rw [hrest]
      exact List.mem_cons_of_mem _ he
    have hid : ({ d with rest := rest, entry := running } : Dispatch F).id = d.id := rfl
    refine h.stacked.replace htop hid hsubset rfl rfl rfl (by simp) (by simp) ?_ ?_
    · obtain ⟨done, hbegan, hcalls, hdone, -⟩ := h.stacked.follows d (htop ▸ List.mem_cons_self)
      refine ⟨done ++ [entry], ?_, ?_, ?_, ?_⟩
      · rw [List.append_assoc, List.singleton_append, ← hrest]
        exact List.mem_append_left _ hbegan
      · have hone : calls d.id [Happening.called d.id entry] = [entry] := by simp [calls]
        rw [calls_append, hone]
        exact hcalls.append_right [entry]
      · intro e he
        rcases List.mem_append.1 he with he | he
        · exact (hdone e he).imp (List.mem_append_left _) gone_mono
        · rw [List.mem_singleton.1 he]
          exact .inl (List.mem_append_right _ List.mem_cons_self)
      · intro e he
        rcases hrunning with hrunning | ⟨hrunning, -⟩
        · cases he.symm.trans hrunning
          exact List.mem_append_right _ List.mem_cons_self
        · cases he.symm.trans hrunning
    · intro id e hmem honce
      rcases List.mem_append.1 hmem with hmem | hmem
      · refine (h.stacked.once id e hmem honce).imp gone_mono fun hrun => .inr ?_
        obtain ⟨f, hf, he⟩ := hrun
        rcases List.mem_cons.1 (htop ▸ hf) with rfl | hf
        · rw [Frame.entry, hidle] at he
          cases he
        · exact ⟨f, hf, he⟩
      · cases List.mem_singleton.1 hmem
        rcases hrunning with hrunning | ⟨-, hno⟩
        · exact .inr (.inl hrunning)
        · rw [hno] at honce
          cases honce
  hooked := h.hooked.proceed running htop hrest hexcept (fun _ _ => rfl) rfl rfl rfl
  disciplined := History.each_append_singleton.2
    ⟨h.disciplined, h.disciplined_called htop hidle hrest hremoved⟩

end

section

variable {s s' : State F} {d : Dispatch F} {below : List (Frame F)} {entry : ListenerEntry F}
  {rest : List (ListenerEntry F)}

theorem Invariant.skip (h : Invariant none s) (htop : s.stack = .dispatch d :: below)
    (hidle : d.entry = none) (hrest : d.rest = entry :: rest) (hremoved : entry ∈ s.removed) :
    Invariant none { s with stack := .dispatch { d with rest := rest } :: below } where
  __ := h
  recorded := h.recorded.keep rfl rfl rfl (List.append_nil _).symm nofun
    h.recorded.aborted
  stacked := by
    have hid : ({ d with rest := rest } : Dispatch F).id = d.id := rfl
    have hsubset : ∀ e ∈ rest, e ∈ d.rest := by
      intro e he
      rw [hrest]
      exact List.mem_cons_of_mem _ he
    refine h.stacked.replace htop hid hsubset rfl rfl (List.append_nil _).symm nofun
      nofun ?_ ?_
    · obtain ⟨done, hbegan, hcalls, hdone, -⟩ := h.stacked.follows d (htop ▸ List.mem_cons_self)
      refine ⟨done ++ [entry], ?_, hcalls.trans (List.sublist_append_left _ _), ?_, ?_⟩
      · rw [List.append_assoc, List.singleton_append, ← hrest]
        exact hbegan
      · intro e he
        rcases List.mem_append.1 he with he | he
        · exact hdone e he
        · rw [List.mem_singleton.1 he]
          exact .inr ((h.recorded.removed entry).1 hremoved)
      · intro e he
        cases hidle.symm.trans he
    · intro id e hmem honce
      refine (h.stacked.once id e hmem honce).imp_right fun hrun => .inr ?_
      obtain ⟨f, hf, he⟩ := hrun
      rcases List.mem_cons.1 (htop ▸ hf) with rfl | hf
      · rw [Frame.entry, hidle] at he
        cases he
      · exact ⟨f, hf, he⟩
  hooked := by
    obtain ⟨f, hscript⟩ := h.recorded.scripts entry hremoved
    refine h.hooked.proceed none htop hrest ?_ (fun _ _ => rfl) rfl rfl ?_
    · intro target type callback hremoves
      rw [hscript] at hremoves
      exact hremoves.elim
    · rw [← hidle]

/-- The dispatch leaves its frame: what is left has been removed, or it was stopped. -/
theorem Invariant.leave {x : Happening F} (h : Invariant none s)
    (htop : s.stack = .dispatch d :: below) (honce : ∀ entry ∈ d.entry, entry.once = false)
    (hsilent : x.silent = true) (hpassive : x.passive = true) (haborted : ∀ g, x ≠ .aborted g)
    (hwaits : ∀ g closure target type callback,
      closure.callback.removes target type callback → ¬ s.Waits g closure (.dispatch d))
    (hx : Disciplined s.trace x) :
    Invariant none { s with stack := below, trace := s.trace ++ [x] } where
  recorded := by
    refine h.recorded.keep rfl rfl rfl rfl (by simpa using hsilent) fun g => ?_
    rw [h.recorded.aborted, List.mem_append, List.mem_singleton,
      or_iff_left fun he => haborted g he.symm]
  stacked := h.stacked.pop htop honce rfl rfl rfl (by simpa using hpassive)
  hooked := h.hooked.pop htop hwaits (fun _ _ => rfl) rfl rfl rfl
  disciplined := History.each_append_singleton.2 ⟨h.disciplined, hx⟩

theorem Invariant.all_called (h : Invariant none s) (hd : .dispatch d ∈ s.stack)
    (hrest : ∀ e ∈ d.rest, e ∈ s.removed) :
    ∀ target type snapshot, .began d.id target type snapshot ∈ s.trace →
      ∀ entry ∈ snapshot, .called d.id entry ∈ s.trace ∨ gone s.trace entry = true := by
  intro target type snapshot hmem entry hentry
  obtain ⟨done, hbegan, -, hdone, -⟩ := h.stacked.follows d hd
  rw [began_unique h.disciplined hbegan hmem] at hentry
  rcases List.mem_append.1 hentry with hentry | hentry
  · exact hdone entry hentry
  · exact .inr ((h.recorded.removed entry).1 (hrest entry hentry))

theorem Invariant.not_waits (h : Invariant none s) (hrest : ∀ e ∈ d.rest, e ∈ s.removed) (g : ℕ)
    (closure : ListenerEntry F) (target : ℕ) (type : Text) (callback : F)
    (hremoves : closure.callback.removes target type callback) :
    ¬ s.Waits g closure (.dispatch d) := by
  rintro ⟨-, -, hmem⟩
  obtain ⟨f, hscript⟩ := h.recorded.scripts closure (hrest closure hmem)
  exact ne_of_removes hscript hremoves rfl

theorem Invariant.finish {except : Option (ℕ × Text × F)} (h : Invariant except s)
    (hproper : entry.Proper s.serial) : Invariant except (s.finish d entry) := by
  unfold State.finish
  split
  · rename_i honce
    cases hcallback : entry.callback with
    | script f => exact h.remove (by rintro _ ⟨⟩)
    | removal closure target type callback =>
      have hp := hproper.2
      rw [hcallback] at hp
      rw [hp.2.1] at honce
      cases honce
  · exact h

theorem Invariant.call (h : Invariant none s) (htop : s.stack = .dispatch d :: below)
    (hidle : d.entry = none) (hrest : d.rest = entry :: rest) (hremoved : entry ∉ s.removed) :
    Invariant none (s.call d below entry rest) := by
  have hd : .dispatch d ∈ s.stack := htop ▸ List.mem_cons_self
  obtain ⟨hregistered, hlisted⟩ := h.listed_of_follows hd (hrest ▸ List.mem_cons_self)
  have hproper := h.recorded.proper _ _ _ hregistered
  cases hcallback : entry.callback with
  | script f =>
    have hcall := h.proceed none (some entry) htop hidle hrest hremoved
      (fun _ _ _ hremoves => by rw [hcallback] at hremoves; exact hremoves.elim) (.inl rfl)
    simpa only [State.call, hcallback] using hcall
  | removal closure target type callback =>
    have hp := hproper.2
    rw [hcallback] at hp
    have hcalled := h.proceed (some (target, type, callback)) d.entry htop
      hidle hrest hremoved
      (fun _ _ _ hremoves => by rw [hcallback] at hremoves; obtain ⟨rfl, rfl, rfl⟩ := hremoves; rfl)
      (.inr ⟨hidle, hp.2.1⟩)
    -- an abort finds nothing but what was registered with its signal
    have hown : ∀ g, (if d.aborts then some d.target else none) = some g →
        ∀ e ∈ s.listed target type, e.callback = .script callback → e.signal = some g := by
      intro g hg e hmem hscript
      obtain ⟨haborts, hg⟩ := Option.ite_none_right_eq_some.1 hg
      cases hg
      have hlisted := hlisted hremoved
      rw [h.hooked.typed d hd haborts] at hlisted
      refine h.hooked.own d.target entry target type callback e hlisted ?_
        (.inr ⟨_, hd, if_pos haborts⟩) hmem hscript
      rw [hcallback]
      exact ⟨rfl, rfl, rfl⟩
    have hremove := hcalled.remove hown
    have hdrop : Invariant none (({ s with
          stack := .dispatch { d with rest := rest } :: below
          trace := s.trace ++ [.called d.id entry] } : State F).removeEventListener target type
            (.script callback) (if d.aborts then some d.target else none)) :=
      ⟨hremove.recorded, hremove.stacked,
        hremove.hooked.drop (Recorded.not_listed_remove hcalled.recorded), hremove.disciplined⟩
    have hfinish : ∀ s : State F, s.finish d entry = s := fun s => by
      rw [State.finish, hp.2.1]
      rfl
    have hcall : s.call d below entry rest = (({ s with
          stack := .dispatch { d with rest := rest } :: below
          trace := s.trace ++ [.called d.id entry] } : State F).removeEventListener target type
            (.script callback) (if d.aborts then some d.target else none)) := by
      rw [State.call, hcallback]
      exact hfinish _
    rw [hcall]
    exact hdrop

theorem Invariant.advance (h : Invariant none s) (htop : s.stack = .dispatch d :: below)
    (hidle : d.entry = none) (hstep : s.advance d below = some s') : Invariant none s' := by
  have hd : .dispatch d ∈ s.stack := htop ▸ List.mem_cons_self
  have honce : ∀ e ∈ d.entry, e.once = false := by
    rw [hidle]
    nofun
  obtain ⟨e, he, hstep⟩ := Option.bind_eq_some_iff.1 hstep
  cases hrest : d.rest with
  | nil =>
    have hremoved : ∀ e ∈ d.rest, e ∈ s.removed := by
      rw [hrest]
      nofun
    rw [hrest] at hstep
    cases hstep
    exact h.leave htop honce rfl rfl nofun (h.not_waits hremoved) (h.all_called hd hremoved)
  | cons entry rest =>
    rw [hrest] at hstep
    dsimp only at hstep
    split at hstep
    · rename_i hremoved
      cases hstep
      exact h.skip htop hidle hrest hremoved
    rename_i hremoved
    split at hstep
    · -- the event of an abort is not stopped
      rename_i hstop
      cases hstep
      refine h.leave htop honce rfl rfl nofun ?_ trivial
      intro g closure target type callback _ hwaits
      obtain ⟨-, e', he', -, hgo⟩ := h.hooked.framed _ hd g hwaits.aborting
      cases he.symm.trans he'
      rw [hgo] at hstop
      cases hstop
    · cases hstep
      exact h.call htop hidle hrest hremoved

end

/-! ### Steps and runs -/

section

variable {s s' : State F} {d : Dispatch F} {below : List (Frame F)} {entry : ListenerEntry F}

theorem Invariant.ret (h : Invariant none s) (htop : s.stack = .dispatch d :: below)
    (hentry : d.entry = some entry) :
    Invariant none { s.finish d entry with stack := .dispatch { d with entry := none } :: below } := by
  have hd : .dispatch d ∈ s.stack := htop ▸ List.mem_cons_self
  obtain ⟨done, hbegan, hcalls, hdone, hrunning⟩ := h.stacked.follows d hd
  have hregistered := (snapshot_registered h.disciplined hbegan).2 entry
    (List.mem_append_left _ (hrunning entry hentry))
  have hfinish := h.finish (d := d) (h.recorded.proper _ _ _ hregistered)
  -- the frames are as before
  have hstack : (s.finish d entry).stack = s.stack ∧ ∃ more, (s.finish d entry).trace = s.trace ++ more := by
    unfold State.finish
    split
    · rcases h.recorded.removeEventListener_spec with ⟨heq, -⟩ | ⟨e, -, -, hr⟩
      · rw [heq]
        exact ⟨rfl, [], (List.append_nil _).symm⟩
      · exact ⟨hr.stack, _, hr.trace⟩
    · exact ⟨rfl, [], (List.append_nil _).symm⟩
  obtain ⟨hstack, more, htrace⟩ := hstack
  -- a `once` listener is gone now
  have hgone : entry.once = true → gone (s.finish d entry).trace entry = true := by
    intro honce
    by_contra hgone
    have hlisted : entry ∈ (s.finish d entry).listed d.target d.type := by
      refine hfinish.recorded.mem_listed.2 ⟨?_, Bool.eq_false_iff.2 hgone⟩
      rw [htrace]
      exact List.mem_append_left _ hregistered
    rw [State.finish, if_pos honce] at hlisted
    exact h.recorded.not_listed_remove _ hlisted rfl
  refine ⟨?_, ?_, ?_, hfinish.disciplined⟩
  · exact hfinish.recorded.keep rfl rfl rfl (List.append_nil _).symm nofun hfinish.recorded.aborted
  · have htop' : (s.finish d entry).stack = .dispatch d :: below := hstack.trans htop
    have hid : ({ d with entry := none } : Dispatch F).id = d.id := rfl
    refine hfinish.stacked.replace htop' hid (fun _ he => he) rfl rfl (List.append_nil _).symm nofun
      nofun ?_ ?_
    · obtain ⟨done, hbegan, hcalls, hdone, -⟩ := hfinish.stacked.follows d (htop' ▸ List.mem_cons_self)
      exact ⟨done, hbegan, hcalls, hdone, nofun⟩
    · intro id e hmem honce
      rcases hfinish.stacked.once id e hmem honce with hgone' | ⟨f, hf, hrun⟩
      · exact .inl hgone'
      · rcases List.mem_cons.1 (htop' ▸ hf) with rfl | hf
        · cases hentry.symm.trans hrun
          exact .inl (hgone honce)
        · exact .inr (.inr ⟨f, hf, hrun⟩)
  · refine hfinish.hooked.frames (fun _ _ => rfl) rfl rfl ?_ ?_ nofun ?_
    · intro f hf g hg
      rw [hstack, htop]
      rcases List.mem_cons.1 hf with rfl | hf
      · exact ⟨.dispatch d, List.mem_cons_self, hg, rfl⟩
      · exact ⟨f, List.mem_cons_of_mem _ hf, hg, rfl⟩
    · intro d' hd' haborts
      rcases List.mem_cons.1 hd' with hd' | hd'
      · cases hd'
        exact h.hooked.typed d hd haborts
      · exact h.hooked.typed d' (htop ▸ List.mem_cons_of_mem _ hd') haborts
    · rintro g closure _ _ _ - - ⟨f, hf, hwaits⟩
      rw [hstack, htop] at hf
      rcases List.mem_cons.1 hf with rfl | hf
      · exact ⟨_, List.mem_cons_self, hwaits⟩
      · exact ⟨f, List.mem_cons_of_mem _ hf, hwaits⟩

/-- `onabort` throws, and the signal has no listeners. -/
theorem Invariant.leaveOnabort {signal event : ℕ} (h : Invariant none s)
    (htop : s.stack = .onabort signal event :: below) (hnone : s.listed signal abort = []) :
    Invariant none { s with stack := below } where
  __ := h
  recorded := h.recorded.keep rfl rfl rfl (List.append_nil _).symm nofun h.recorded.aborted
  stacked := h.stacked.pop htop nofun rfl rfl (List.append_nil _).symm nofun
  hooked := by
    refine h.hooked.pop htop ?_ (fun _ _ => rfl) rfl rfl rfl
    rintro g closure target type callback - ⟨rfl, hmem⟩
    rw [hnone] at hmem
    cases hmem

theorem Invariant.setEvents (h : Invariant none s) (events : List Event)
    (hevents : ∀ f ∈ s.stack, f.aborting.isSome = true → ∀ e, s.events[f.event]? = some e →
      ∃ e', events[f.event]? = some e' ∧ e'.type = e.type ∧ e'.stopImmediate = e.stopImmediate) :
    Invariant none { s with events := events } where
  __ := h
  recorded := h.recorded.keep rfl rfl rfl (List.append_nil _).symm nofun h.recorded.aborted
  stacked := h.stacked.keep rfl rfl (List.append_nil _).symm nofun
  hooked := h.hooked.keep (fun _ _ => rfl) rfl rfl hevents

theorem Invariant.setOnabort (h : Invariant none s) (onabort : Assoc ℕ F) :
    Invariant none { s with onabort := onabort } where
  __ := h
  recorded := h.recorded.keep rfl rfl rfl (List.append_nil _).symm nofun h.recorded.aborted
  stacked := h.stacked.keep rfl rfl (List.append_nil _).symm nofun
  hooked := h.hooked.keep (fun _ _ => rfl) rfl rfl fun _ _ _ e he => ⟨e, he, rfl, rfl⟩

theorem Invariant.abortSignal {signal : ℕ} (h : Invariant none s) (hok : Allowed s (.abort signal))
    (hstep : s.abortSignal signal = some s') : Invariant none s' := by
  unfold State.abortSignal at hstep
  split at hstep
  · cases hstep
    exact h
  rename_i hnew
  have hbegin := h.beginAbort hnew
  dsimp only at hstep
  cases honabort : s.onabort.get? signal with
  | some f =>
    rw [honabort] at hstep
    cases hstep
    exact hbegin
  | none =>
    rw [honabort] at hstep
    refine hbegin.dispatchAbort rfl ?_ hstep
    rcases hok with hmem | hsome | hquiet
    · exact absurd hmem hnew
    · rw [honabort] at hsome
      cases hsome
    · exact hquiet

/-- **The step lemma.** -/
theorem Invariant.step {e : Step F} (h : Invariant none s) (hok : Allowed s e)
    (hstep : step s e = some s') : Invariant none s' := by
  unfold EventTarget.step at hstep
  split at hstep
  · cases e with
    | create type =>
      cases hstep
      refine h.setEvents _ fun _ _ _ e he => ⟨e, ?_, rfl, rfl⟩
      exact (List.getElem?_append_left (List.getElem?_eq_some_iff.1 he).1).trans he
    | add target type callback once signal =>
      cases callback with
      | none =>
        cases hstep
        exact h
      | some callback =>
        cases hstep
        exact h.addEventListener hok
    | remove target type callback =>
      cases callback with
      | none =>
        cases hstep
        exact h
      | some callback =>
        cases hstep
        exact h.remove (by rintro _ ⟨⟩)
    | dispatch target event => exact h.dispatchEvent hok hstep
    | stopImmediate event =>
      cases hstep
      refine h.setEvents _ fun f hf haborting e he => ⟨e, ?_, rfl, rfl⟩
      exact (List.getElem?_modify_ne _ _ (hok f hf haborting).symm).trans he
    | preventDefault event =>
      cases hstep
      refine h.setEvents _ fun f _ _ e he => ?_
      rw [List.getElem?_modify, he]
      split
      · exact ⟨_, rfl, rfl, rfl⟩
      · exact ⟨_, rfl, rfl, rfl⟩
    | setOnabort signal callback =>
      cases callback with
      | none =>
        cases hstep
        exact h.setOnabort _
      | some callback =>
        cases hstep
        exact h.setOnabort _
    | abort signal => exact h.abortSignal hok hstep
    | ret =>
      cases htop : s.stack with
      | nil =>
        simp only [scriptStep, htop] at hstep
        cases hstep
      | cons f below =>
        simp only [Allowed, htop] at hok
        simp only [scriptStep, htop] at hstep
        cases f with
        | dispatch d =>
          obtain ⟨entry, hentry, hstep⟩ := Option.bind_eq_some_iff.1 hstep
          cases hstep
          exact h.ret htop hentry
        | onabort signal event =>
          refine h.dispatchAbort htop ?_ hstep
          intro entry hmem f hf
          exact hok entry hmem f (htop ▸ List.mem_cons_of_mem _ hf)
    | throw =>
      cases htop : s.stack with
      | nil =>
        simp only [scriptStep, htop] at hstep
        cases hstep
      | cons f below =>
        simp only [Allowed, htop] at hok
        simp only [scriptStep, htop] at hstep
        cases f with
        | dispatch d =>
          cases hstep
          exact h.leave htop hok.1 rfl rfl (by rintro _ ⟨⟩) (h.not_waits hok.2)
            (h.all_called (htop ▸ List.mem_cons_self) hok.2)
        | onabort signal event =>
          cases hstep
          exact h.leaveOnabort htop hok
    | advance => cases hstep
  · rename_i hscript
    cases e with
    | advance =>
      cases htop : s.stack with
      | nil =>
        simp only [htop] at hstep
        cases hstep
      | cons f below =>
        simp only [htop] at hstep
        cases f with
        | dispatch d =>
          refine h.advance htop ?_ hstep
          simpa [State.scriptRuns, htop] using hscript
        | onabort signal event => cases hstep
    | _ => cases hstep

end

theorem invariant_initial : Invariant none (initial : State F) where
  recorded :=
    { listed := fun _ _ => rfl
      apart := .nil
      proper := nofun
      callbacks := fun _ _ => .nil
      removed := fun _ => by simp [initial, gone]
      scripts := nofun
      known := nofun
      aborted := fun _ => by simp [initial] }
  stacked := ⟨nofun, nofun, .nil, nofun, .nil⟩
  hooked := ⟨nofun, nofun, nofun, nofun, nofun⟩
  disciplined := History.each_nil

/-- In a run of allowed steps all that happens is as it should. -/
theorem listeners_disciplined {s : State F} (h : machine.ReachableIf Allowed s) :
    History.Each Disciplined s.trace := by
  have hinv : Invariant none s := by
    refine Machine.ReachableIf.invariant ?_ (fun s e s' h hok hstep => h.step hok hstep) h
    rintro s rfl
    exact invariant_initial
  exact hinv.disciplined
/-! ### Runs -/

def ping : Text := [0x70]

/-- A `once` listener and a listener with a signal; the first is called and aborts the signal, the
next dispatch finds no listener. -/
def plainRun : List (Step ℕ) :=
  [.create ping, .add 0 ping (some 1) true none, .add 0 ping (some 2) false (some 7), .dispatch 0 0,
    .advance, .abort 7, .advance, .advance, .ret, .advance, .advance, .dispatch 0 0]

def throwRun : List (Step ℕ) :=
  [.create ping, .add 0 ping (some 1) false none, .add 0 ping (some 2) false none, .dispatch 0 0,
    .advance, .throw]

/-- A `once` listener dispatches again. -/
def nestedRun : List (Step ℕ) :=
  [.create ping, .add 0 ping (some 1) true none, .dispatch 0 0, .advance, .dispatch 0 0, .advance]

/-- A callback is registered with a signal, removed, and registered without it. -/
def reusedRun : List (Step ℕ) :=
  [.add 0 ping (some 1) false (some 7), .remove 0 ping (some 1), .add 0 ping (some 1) false none,
    .abort 7, .advance]

def lateRun : List (Step ℕ) :=
  [.create ping, .add 7 abort (some 9) false none, .add 0 ping (some 1) false (some 7), .abort 7,
    .advance, .dispatch 0 0, .advance]

theorem runs_eval :
    ((machine (F := ℕ)).execIf (fun s e => decide (Allowed s e)) initial plainRun).map
        (fun s => s.trace.length) = some 14 ∧
      ((machine (F := ℕ)).exec initial throwRun).map State.trace =
        some ([.registered 0 ping ⟨0, .script 1, false, none⟩,
          .registered 0 ping ⟨1, .script 2, false, none⟩,
          .began 0 0 ping [⟨0, .script 1, false, none⟩, ⟨1, .script 2, false, none⟩],
          .called 0 ⟨0, .script 1, false, none⟩] ++ [.threw 0]) ∧
      ((machine (F := ℕ)).exec initial nestedRun).map State.trace =
        some ([.registered 0 ping ⟨0, .script 1, true, none⟩,
          .began 0 0 ping [⟨0, .script 1, true, none⟩], .called 0 ⟨0, .script 1, true, none⟩,
          .began 1 0 ping [⟨0, .script 1, true, none⟩]] ++
            [.called 1 ⟨0, .script 1, true, none⟩]) ∧
      ((machine (F := ℕ)).exec initial reusedRun).map State.trace =
        some ([.registered 7 abort ⟨0, .removal 0 0 ping 1, false, none⟩,
          .registered 0 ping ⟨1, .script 1, false, some 7⟩,
          .removed ⟨1, .script 1, false, some 7⟩ none,
          .registered 0 ping ⟨2, .script 1, false, none⟩, .aborted 7,
          .began 0 7 abort [⟨0, .removal 0 0 ping 1, false, none⟩],
          .called 0 ⟨0, .removal 0 0 ping 1, false, none⟩] ++
            [.removed ⟨2, .script 1, false, none⟩ (some 7)]) ∧
      ((machine (F := ℕ)).exec initial lateRun).map State.trace =
        some ([.registered 7 abort ⟨0, .script 9, false, none⟩,
          .registered 7 abort ⟨1, .removal 1 0 ping 1, false, none⟩,
          .registered 0 ping ⟨2, .script 1, false, some 7⟩, .aborted 7,
          .began 0 7 abort [⟨0, .script 9, false, none⟩, ⟨1, .removal 1 0 ping 1, false, none⟩],
          .called 0 ⟨0, .script 9, false, none⟩,
          .began 1 0 ping [⟨2, .script 1, false, some 7⟩]] ++
            [.called 1 ⟨2, .script 1, false, some 7⟩]) := by
  decide +kernel

theorem listeners_disciplined_plain : ∃ s : State ℕ, machine.ReachableIf Allowed s ∧
    s.trace.length = 14 ∧ History.Each Disciplined s.trace := by
  obtain ⟨s, hexec, hlength⟩ := Option.map_eq_some_iff.1 runs_eval.1
  have hrun := Machine.guardedRun_of_execIf hexec
  simp only [decide_eq_true_eq] at hrun
  have hreach : machine.ReachableIf Allowed s := ⟨initial, plainRun, rfl, hrun⟩
  exact ⟨s, hreach, hlength, listeners_disciplined hreach⟩

def Undisciplined (run : List (Step ℕ)) : Prop :=
  ∃ s : State ℕ, machine.exec initial run = some s ∧ ¬ History.Each Disciplined s.trace

theorem undisciplined_of_last {run : List (Step ℕ)} {past : List (Happening ℕ)} {x : Happening ℕ}
    (h : (machine.exec initial run).map State.trace = some (past ++ [x]))
    (hx : ¬ Disciplined past x) : Undisciplined run := by
  obtain ⟨s, hexec, htrace⟩ := Option.map_eq_some_iff.1 h
  refine ⟨s, hexec, fun hall => hx ?_⟩
  rw [htrace] at hall
  exact (History.each_append_singleton.1 hall).2

/-- A throw leaves listeners uncalled, a `once` listener is called twice, an abort removes the
registration without its signal, and a listener is called after its signal aborted. -/
theorem not_listeners_disciplined : Undisciplined throwRun ∧ Undisciplined nestedRun ∧
    Undisciplined reusedRun ∧ Undisciplined lateRun := by
  obtain ⟨-, hthrow, hnested, hreused, hlate⟩ := runs_eval
  refine ⟨undisciplined_of_last hthrow fun h => ?_, undisciplined_of_last hnested fun h => ?_,
    undisciplined_of_last hreused fun h => ?_, undisciplined_of_last hlate fun h => ?_⟩
  · have huncalled := h 0 ping _ (.tail _ (.tail _ (.head _))) ⟨1, .script 2, false, none⟩
      (.tail _ (.head _))
    simp [gone] at huncalled
  · exact h.2.2.1 rfl 0 (.tail _ (.tail _ (.head _)))
  · cases h 7 rfl
  · exact h.2.2.2 7 rfl (.tail _ (.tail _ (.tail _ (.head _))))

end QuickBeam.Web.EventTarget
