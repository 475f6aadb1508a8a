import QuickBeam.Web.EventDiscipline

/-!
# Listener lists, dispatches and signals: the invariant

Three parts, for the lists and flags (`Recorded`), the dispatches under way (`Stacked`) and the
closures that signals hold (`Hooked`), each with what the operations do to it.
-/

namespace QuickBeam.Web.EventTarget

open QuickBeam.Lib

variable {F : Type} [DecidableEq F]

/-! ### Lists and flags against the history -/

def Apart (h h' : Happening F) : Prop :=
  ∀ target type target' type' entry, h = .registered target type entry →
    h' ≠ .registered target' type' entry

/-- An entry made when fewer than `n` numbers were given out. -/
def ListenerEntry.Proper (n : ℕ) (entry : ListenerEntry F) : Prop :=
  entry.serial < n ∧
    match entry.callback with
    | .script _ => True
    | .removal closure _ _ _ => closure < n ∧ entry.once = false ∧ entry.signal = none

/-- The lists hold the listeners present, and the flags tell what has happened. -/
structure Recorded (s : State F) : Prop where
  listed : ∀ target type, s.listed target type = present target type s.trace
  apart : s.trace.Pairwise Apart
  proper : ∀ target type entry, .registered target type entry ∈ s.trace → entry.Proper s.serial
  callbacks : ∀ target type, (s.listed target type).Pairwise fun e e' => e.callback ≠ e'.callback
  removed : ∀ entry, entry ∈ s.removed ↔ gone s.trace entry = true
  scripts : ∀ entry ∈ s.removed, ∃ f, entry.callback = .script f
  known : ∀ entry ∈ s.removed, ∃ target type, .registered target type entry ∈ s.trace
  aborted : ∀ signal, signal ∈ s.aborted ↔ .aborted signal ∈ s.trace

section

omit [DecidableEq F]

theorem ListenerEntry.Proper.mono {n m : ℕ} {entry : ListenerEntry F} (h : entry.Proper n)
    (hnm : n ≤ m) : entry.Proper m := by
  obtain ⟨hserial, h⟩ := h
  refine ⟨hserial.trans_le hnm, ?_⟩
  cases hc : entry.callback with
  | script f => trivial
  | removal closure target type callback =>
    rw [hc] at h
    exact ⟨h.1.trans_le hnm, h.2⟩

instance : Std.Symm (Apart (F := F)) where
  symm _ _ hap target type target' type' entry he he' := hap target' type' target type entry he' he

theorem apart_silent {h h' : Happening F} (hsilent : h'.silent = true) : Apart h h' := by
  rintro target type target' type' entry - rfl
  cases hsilent

theorem listed_congr {s s' : State F} (h : s'.listeners = s.listeners) (target : ℕ) (type : Text) :
    s'.listed target type = s.listed target type := by
  unfold State.listed
  rw [h]

end

namespace Recorded

variable {s s' : State F} {target target' : ℕ} {type type' : Text} {entry : ListenerEntry F}

theorem mem_listed (h : Recorded s) : entry ∈ s.listed target type ↔
    .registered target type entry ∈ s.trace ∧ gone s.trace entry = false := by
  rw [h.listed, mem_present]

theorem located (h : Recorded s) (he : .registered target type entry ∈ s.trace)
    (he' : .registered target' type' entry ∈ s.trace) : target' = target ∧ type' = type := by
  by_contra hne
  have hdiff : (Happening.registered target type entry) ≠ .registered target' type' entry := by
    intro heq
    cases heq
    exact hne ⟨rfl, rfl⟩
  exact h.apart.forall he he' hdiff target type target' type' entry rfl rfl

theorem nodup (h : Recorded s) (target : ℕ) (type : Text) : (s.listed target type).Nodup :=
  (h.callbacks target type).imp fun hne heq => hne (congrArg _ heq)

theorem keep {more : List (Happening F)} (h : Recorded s) (hlisteners : s'.listeners = s.listeners)
    (hremoved : s'.removed = s.removed) (hserial : s'.serial = s.serial)
    (htrace : s'.trace = s.trace ++ more) (hsilent : ∀ x ∈ more, x.silent = true)
    (haborted : ∀ signal, signal ∈ s'.aborted ↔ .aborted signal ∈ s'.trace) : Recorded s' where
  listed target type := by
    rw [listed_congr hlisteners, htrace, present_append_silent hsilent, h.listed]
  apart := by
    rw [htrace, List.pairwise_append]
    exact ⟨h.apart, List.pairwise_of_forall_mem_list fun _ _ y hy => apart_silent (hsilent y hy),
      fun _ _ y hy => apart_silent (hsilent y hy)⟩
  proper target type entry he := by
    rw [htrace, List.mem_append] at he
    rw [hserial]
    rcases he with he | he
    · exact h.proper _ _ _ he
    · cases hsilent _ he
  callbacks target type := by
    rw [listed_congr hlisteners]
    exact h.callbacks target type
  removed entry := by
    rw [hremoved, htrace, gone_append_silent hsilent]
    exact h.removed entry
  scripts := by
    rw [hremoved]
    exact h.scripts
  known entry he := by
    rw [hremoved] at he
    obtain ⟨target, type, hmem⟩ := h.known entry he
    exact ⟨target, type, htrace ▸ List.mem_append_left _ hmem⟩
  aborted := haborted

end Recorded

/-! ### Registering -/

/-- The entry that `store` makes. -/
def State.entry (s : State F) (callback : Callback F) (once : Bool) (signal : Option ℕ) :
    ListenerEntry F := ⟨s.serial, callback, once, signal⟩

section

variable {s : State F} {target : ℕ} {type : Text} {list : Option (List (ListenerEntry F))}
  {callback : Callback F} {once : Bool} {signal : Option ℕ}

omit [DecidableEq F] in
theorem listed_store (hlist : list = none → s.listed target type = []) (target' : ℕ) (type' : Text) :
    (s.store target type list callback once signal).listed target' type' =
      s.listed target' type' ++
        if target = target' ∧ type = type' then [s.entry callback once signal] else [] := by
  have hput : (if list.isSome then s.listed target type ++ [s.entry callback once signal]
      else [s.entry callback once signal]) =
      s.listed target type ++ [s.entry callback once signal] := by
    cases list with
    | none => rw [hlist rfl]; rfl
    | some l => rfl
  have hlisted : (s.store target type list callback once signal).listed target' type' =
      ((s.listeners.put (target, type)
        (s.listed target type ++ [s.entry callback once signal])).get? (target', type')).getD [] := by
    rw [← hput]
    rfl
  rw [hlisted, Assoc.get?_put_eq]
  split
  · rename_i heq
    cases heq
    rw [if_pos ⟨rfl, rfl⟩]
    rfl
  · rename_i hne
    rw [if_neg (fun h => hne (by rw [h.1, h.2])), List.append_nil]
    rfl

theorem Recorded.not_registered (h : Recorded s) {target' : ℕ} {type' : Text} :
    .registered target' type' (s.entry callback once signal) ∉ s.trace :=
  fun hmem => absurd (h.proper _ _ _ hmem).1 (lt_irrefl s.serial)

theorem Recorded.not_gone (h : Recorded s) : gone s.trace (s.entry callback once signal) = false := by
  rw [Bool.eq_false_iff]
  intro hgone
  obtain ⟨target, type, hmem⟩ := h.known _ ((h.removed _).2 hgone)
  exact h.not_registered hmem

omit [DecidableEq F] in
theorem mem_trace_store {x : Happening F} :
    x ∈ (s.store target type list callback once signal).trace ↔
      x ∈ s.trace ∨ x = .registered target type (s.entry callback once signal) := by
  show x ∈ s.trace ++ [_] ↔ _
  rw [List.mem_append, List.mem_singleton]
  rfl

theorem Recorded.store (h : Recorded s) (hlist : list = none → s.listed target type = [])
    (hnew : ∀ entry ∈ s.listed target type, entry.callback ≠ callback)
    (hproper : (s.entry callback once signal).Proper (s.serial + 1)) :
    Recorded (s.store target type list callback once signal) where
  __ := h
  listed target' type' := by
    have htrace : (s.store target type list callback once signal).trace =
        s.trace ++ [.registered target type (s.entry callback once signal)] := rfl
    rw [listed_store hlist, htrace, present_append_registered h.not_gone, h.listed]
  apart := by
    refine List.pairwise_append.2 ⟨h.apart, List.pairwise_singleton _ _, ?_⟩
    intro x hx y hy target₁ type₁ target₂ type₂ entry hx' hy'
    rw [List.mem_singleton, hy'] at hy
    cases hy
    exact h.not_registered (hx' ▸ hx)
  proper target' type' entry he := by
    rcases mem_trace_store.1 he with he | he
    · exact (h.proper _ _ _ he).mono (Nat.le_succ _)
    · cases he
      exact hproper
  callbacks target' type' := by
    rw [listed_store hlist]
    split
    · rename_i hsame
      obtain ⟨rfl, rfl⟩ := hsame
      refine List.pairwise_append.2 ⟨h.callbacks target type, List.pairwise_singleton _ _, ?_⟩
      intro e he e' he'
      rw [List.mem_singleton.1 he']
      exact hnew e he
    · rw [List.append_nil]
      exact h.callbacks target' type'
  removed entry := by
    have hgone : gone (s.store target type list callback once signal).trace entry =
        gone s.trace entry := by
      show gone (s.trace ++ [_]) entry = _
      rw [gone_append]
      exact Bool.or_false _
    rw [hgone]
    exact h.removed entry
  known entry he := by
    obtain ⟨target, type, hmem⟩ := h.known entry he
    exact ⟨target, type, mem_trace_store.2 (.inl hmem)⟩
  aborted g := by
    rw [mem_trace_store]
    have hother : Happening.aborted g ≠ .registered target type (s.entry callback once signal) := by
      simp
    rw [or_iff_left hother]
    exact h.aborted g

end

/-! ### Removing -/

structure Removes (s : State F) (entry : ListenerEntry F) (signal : Option ℕ) (s' : State F) :
    Prop where
  listed : ∀ target type, s'.listed target type =
    (s.listed target type).filter fun e => decide (e ≠ entry)
  removed : s'.removed = entry :: s.removed
  trace : s'.trace = s.trace ++ [.removed entry signal]
  aborted : s'.aborted = s.aborted
  onabort : s'.onabort = s.onabort
  events : s'.events = s.events
  stack : s'.stack = s.stack
  serial : s'.serial = s.serial
  dispatches : s'.dispatches = s.dispatches

section

variable {s s' : State F} {target : ℕ} {type : Text} {entry : ListenerEntry F} {callback : Callback F}
  {signal : Option ℕ}

omit [DecidableEq F] in
theorem getD_replaceList (m : Assoc (ℕ × Text) (List (ListenerEntry F))) (k j : ℕ × Text)
    (list : List (ListenerEntry F)) :
    ((if list.isEmpty then m.delete k else m.put k list).get? j).getD [] =
      if j = k then list else (m.get? j).getD [] := by
  cases list with
  | nil =>
    rw [List.isEmpty_nil, if_pos rfl, Assoc.get?_delete_eq]
    split <;> rfl
  | cons e list =>
    rw [if_neg (by simp), Assoc.get?_put_eq]
    split <;> rfl

theorem Recorded.removeEventListener_spec (h : Recorded s) :
    s.removeEventListener target type callback signal = s ∧
        (∀ e ∈ s.listed target type, e.callback ≠ callback) ∨
      ∃ entry ∈ s.listed target type, entry.callback = callback ∧
        Removes s entry signal (s.removeEventListener target type callback signal) := by
  unfold State.removeEventListener
  cases hfind : (s.listed target type).find? fun entry => decide (entry.callback = callback) with
  | none =>
    refine .inl ⟨rfl, fun e he => ?_⟩
    simpa using List.find?_eq_none.1 hfind e he
  | some entry =>
    obtain ⟨hcallback, before, after, hlist, hbefore⟩ := List.find?_eq_some_iff_append.1 hfind
    have hcallback := of_decide_eq_true hcallback
    have hmem : entry ∈ s.listed target type := hlist ▸ List.mem_append_cons_self
    refine .inr ⟨entry, hmem, hcallback, ?_, rfl, rfl, rfl, rfl, rfl, rfl, rfl, rfl⟩
    have herase : (s.listed target type).eraseP (fun e => decide (e.callback = callback)) =
        (s.listed target type).filter fun e => decide (e ≠ entry) := by
      have hnodup := h.nodup target type
      rw [hlist] at hnodup ⊢
      obtain ⟨-, hafter, hdisjoint⟩ := List.nodup_append.1 hnodup
      have hkeep : ∀ l : List (ListenerEntry F), entry ∉ l →
          l.filter (fun e => decide (e ≠ entry)) = l := fun l hl =>
        List.filter_eq_self.2 fun e he => decide_eq_true (ne_of_mem_of_not_mem he hl)
      rw [List.eraseP_append_right _ (fun e he => by simpa using hbefore e he),
        List.eraseP_cons_of_pos (p := fun e : ListenerEntry F => decide (e.callback = callback))
          (decide_eq_true hcallback), List.filter_append,
        List.filter_cons_of_neg (by simp), hkeep after (List.nodup_cons.1 hafter).1,
        hkeep before fun he => hdisjoint _ he _ List.mem_cons_self rfl]
    intro target' type'
    refine (getD_replaceList _ _ _ _).trans ?_
    by_cases hsame : (target', type') = (target, type)
    · cases hsame
      rw [if_pos rfl, herase]
    · rw [if_neg hsame]
      refine (List.filter_eq_self.2 fun e he => decide_eq_true ?_).symm
      rintro rfl
      obtain ⟨rfl, rfl⟩ := h.located (h.mem_listed.1 hmem).1 (h.mem_listed.1 he).1
      exact hsame rfl

variable {e : ListenerEntry F}

theorem Removes.mem_listed (hr : Removes s entry signal s') :
    e ∈ s'.listed target type ↔ e ∈ s.listed target type ∧ e ≠ entry := by
  rw [hr.listed, List.mem_filter, decide_eq_true_eq]

theorem Removes.mem_trace (hr : Removes s entry signal s') {x : Happening F} :
    x ∈ s'.trace ↔ x ∈ s.trace ∨ x = .removed entry signal := by
  rw [hr.trace, List.mem_append, List.mem_singleton]

theorem Removes.gone_iff (hr : Removes s entry signal s') :
    gone s'.trace e = true ↔ gone s.trace e = true ∨ e = entry := by
  rw [hr.trace, gone_append_removed]

theorem Recorded.of_removes (h : Recorded s) (hr : Removes s entry signal s')
    (hmem : entry ∈ s.listed target type) {f : F} (hscript : entry.callback = .script f) :
    Recorded s' where
  listed target type := by
    rw [hr.listed, hr.trace, present_append_removed, h.listed]
  apart := by
    rw [hr.trace]
    refine List.pairwise_append.2 ⟨h.apart, List.pairwise_singleton _ _, ?_⟩
    intro x _ y hy
    rw [List.mem_singleton.1 hy]
    intro target type target' type' e _ he
    cases he
  proper target type e he := by
    rw [hr.serial]
    rcases hr.mem_trace.1 he with he | he
    · exact h.proper _ _ _ he
    · cases he
  callbacks target type := by
    rw [hr.listed]
    exact (h.callbacks target type).filter _
  removed e := by
    rw [hr.removed, List.mem_cons, hr.gone_iff, h.removed, or_comm]
  scripts := by
    rw [hr.removed]
    exact List.forall_mem_cons.2 ⟨⟨f, hscript⟩, h.scripts⟩
  known := by
    rw [hr.removed]
    refine List.forall_mem_cons.2 ⟨⟨target, type, hr.mem_trace.2 (.inl (h.mem_listed.1 hmem).1)⟩, ?_⟩
    intro e he
    obtain ⟨target, type, hknown⟩ := h.known e he
    exact ⟨target, type, hr.mem_trace.2 (.inl hknown)⟩
  aborted g := by
    have hother : Happening.aborted g ≠ .removed entry signal := by simp
    rw [hr.aborted, hr.mem_trace, or_iff_left hother]
    exact h.aborted g

end

/-! ### Dispatches under way -/

/-- Neither the beginning of a dispatch nor a call. -/
def Happening.passive : Happening F → Bool
  | .began _ _ _ _ | .called _ _ => false
  | _ => true

/-- The snapshot is what is done and what is left; what is done has been called, in order, or
removed. -/
def Follows (past : List (Happening F)) (d : Dispatch F) : Prop :=
  ∃ done, .began d.id d.target d.type (done ++ d.rest) ∈ past ∧ (calls d.id past).Sublist done ∧
    (∀ e ∈ done, .called d.id e ∈ past ∨ gone past e = true) ∧ ∀ e ∈ d.entry, e ∈ done

structure Stacked (s : State F) : Prop where
  follows : ∀ d, .dispatch d ∈ s.stack → Follows s.trace d
  begun : ∀ id target type snapshot, .began id target type snapshot ∈ s.trace → id < s.dispatches
  distinct : s.stack.Pairwise fun f f' =>
    ∀ d d', f = .dispatch d → f' = .dispatch d' → d.id ≠ d'.id
  /-- A `once` listener that was called is removed or still being called. -/
  once : ∀ id entry, .called id entry ∈ s.trace → entry.once = true →
    gone s.trace entry = true ∨ ∃ f ∈ s.stack, f.entry = some entry
  /-- What the frames below exclude. -/
  below : s.stack.Pairwise fun f f' => ∀ entry ∈ f.rest,
    (f'.entry = some entry → entry.once = false) ∧
      ∀ signal ∈ f'.aborting, entry.signal ≠ some signal

section

variable {past more : List (Happening F)} {d : Dispatch F} {s s' : State F}

omit [DecidableEq F] in
theorem calls_of_not_called {id : ℕ} (h : ∀ e, .called id e ∉ more) : calls id more = [] := by
  refine List.eq_nil_iff_forall_not_mem.2 fun e he => ?_
  exact h e (mem_calls.1 he)

theorem gone_mono {entry : ListenerEntry F} (h : gone past entry = true) :
    gone (past ++ more) entry = true := by
  rw [gone_append, h, Bool.true_or]

theorem Follows.mono (h : Follows past d) (hmore : ∀ e, .called d.id e ∉ more) :
    Follows (past ++ more) d := by
  obtain ⟨done, hbegan, hcalls, hdone, hentry⟩ := h
  refine ⟨done, List.mem_append_left _ hbegan, ?_, fun e he => ?_, hentry⟩
  · rw [calls_append, calls_of_not_called hmore, List.append_nil]
    exact hcalls
  · exact (hdone e he).imp (List.mem_append_left _) gone_mono

omit [DecidableEq F] in
theorem not_called_of_passive (h : ∀ x ∈ more, x.passive = true) (id : ℕ) (e : ListenerEntry F) :
    .called id e ∉ more := by
  intro hmem
  cases h _ hmem

omit [DecidableEq F] in
theorem not_began_of_passive (h : ∀ x ∈ more, x.passive = true) {id target : ℕ} {type : Text}
    {snapshot : List (ListenerEntry F)} : .began id target type snapshot ∉ more := by
  intro hmem
  cases h _ hmem

namespace Stacked

theorem keep (h : Stacked s) (hstack : s'.stack = s.stack) (hdispatches : s'.dispatches = s.dispatches)
    (htrace : s'.trace = s.trace ++ more) (hmore : ∀ x ∈ more, x.passive = true) : Stacked s' where
  follows d hd := by
    rw [hstack] at hd
    rw [htrace]
    exact (h.follows d hd).mono (not_called_of_passive hmore d.id)
  begun id target type snapshot hmem := by
    rw [hdispatches]
    rw [htrace, List.mem_append, or_iff_left (not_began_of_passive hmore)] at hmem
    exact h.begun _ _ _ _ hmem
  distinct := hstack ▸ h.distinct
  once id entry hmem honce := by
    rw [htrace, List.mem_append, or_iff_left (not_called_of_passive hmore _ _)] at hmem
    rw [htrace, hstack]
    exact (h.once id entry hmem honce).imp_left gone_mono
  below := hstack ▸ h.below

/-- The frame on the top goes, when no `once` listener runs in it. -/
theorem pop {f : Frame F} {below : List (Frame F)} (h : Stacked s) (htop : s.stack = f :: below)
    (hentry : ∀ entry ∈ f.entry, entry.once = false) (hstack : s'.stack = below)
    (hdispatches : s'.dispatches = s.dispatches) (htrace : s'.trace = s.trace ++ more)
    (hmore : ∀ x ∈ more, x.passive = true) : Stacked s' where
  follows d hd := by
    rw [hstack] at hd
    rw [htrace]
    exact (h.follows d (htop ▸ List.mem_cons_of_mem _ hd)).mono (not_called_of_passive hmore d.id)
  begun id target type snapshot hmem := by
    rw [hdispatches]
    rw [htrace, List.mem_append, or_iff_left (not_began_of_passive hmore)] at hmem
    exact h.begun _ _ _ _ hmem
  distinct := hstack ▸ (List.pairwise_cons.1 (htop ▸ h.distinct)).2
  once id entry hmem honce := by
    rw [htrace, List.mem_append, or_iff_left (not_called_of_passive hmore _ _)] at hmem
    rw [htrace, hstack]
    refine (h.once id entry hmem honce).imp gone_mono ?_
    rintro ⟨f', hf', he⟩
    rcases List.mem_cons.1 (htop ▸ hf') with rfl | hf'
    · rw [hentry entry he] at honce
      cases honce
    · exact ⟨f', hf', he⟩
  below := hstack ▸ (List.pairwise_cons.1 (htop ▸ h.below)).2

theorem replace {d d' : Dispatch F} {below : List (Frame F)} (h : Stacked s)
    (htop : s.stack = .dispatch d :: below) (hid : d'.id = d.id)
    (hrest : ∀ e ∈ d'.rest, e ∈ d.rest) (hstack : s'.stack = .dispatch d' :: below)
    (hdispatches : s'.dispatches = s.dispatches) (htrace : s'.trace = s.trace ++ more)
    (hbegan : ∀ id target type snapshot, .began id target type snapshot ∉ more)
    (hcalled : ∀ id e, .called id e ∈ more → id = d.id) (hfollows : Follows s'.trace d')
    (honce : ∀ id entry, .called id entry ∈ s'.trace → entry.once = true →
      gone s'.trace entry = true ∨ d'.entry = some entry ∨ ∃ f ∈ below, f.entry = some entry) :
    Stacked s' where
  follows d₁ hd₁ := by
    rw [hstack, List.mem_cons] at hd₁
    rcases hd₁ with hd₁ | hd₁
    · cases hd₁
      exact hfollows
    · rw [htrace]
      have hdistinct := h.distinct
      rw [htop] at hdistinct
      refine (h.follows d₁ (htop ▸ List.mem_cons_of_mem _ hd₁)).mono fun e he => ?_
      exact (List.pairwise_cons.1 hdistinct).1 _ hd₁ d d₁ rfl rfl (hcalled _ _ he).symm
  begun id target type snapshot hmem := by
    rw [hdispatches]
    rw [htrace, List.mem_append, or_iff_left (hbegan _ _ _ _)] at hmem
    exact h.begun _ _ _ _ hmem
  distinct := by
    have hdistinct := List.pairwise_cons.1 (htop ▸ h.distinct)
    rw [hstack]
    refine List.pairwise_cons.2 ⟨fun f hf d₁ d₂ hd₁ hd₂ => ?_, hdistinct.2⟩
    cases hd₁
    rw [hid]
    exact hdistinct.1 f hf d d₂ rfl hd₂
  once id entry hmem hentry := by
    rw [hstack]
    refine (honce id entry hmem hentry).imp_right ?_
    rintro (he | ⟨f, hf, he⟩)
    · exact ⟨_, List.mem_cons_self, he⟩
    · exact ⟨f, List.mem_cons_of_mem _ hf, he⟩
  below := by
    have hbelow := List.pairwise_cons.1 (htop ▸ h.below)
    rw [hstack]
    exact List.pairwise_cons.2 ⟨fun f hf e he => hbelow.1 f hf e (hrest e he), hbelow.2⟩

end Stacked

end

/-! ### Signals and their closures -/

namespace State

def Waits (s : State F) (signal : ℕ) (closure : ListenerEntry F) : Frame F → Prop
  | .dispatch d => d.aborts = true ∧ d.target = signal ∧ closure ∈ d.rest
  | .onabort signal' _ => signal' = signal ∧ closure ∈ s.listed signal abort

/-- The signal holds a closure for the registration, or an abort is yet to come to it. -/
def Holds (s : State F) (signal target : ℕ) (type : Text) (callback : F) : Prop :=
  ∃ closure : ListenerEntry F, closure.callback.removes target type callback ∧
    (signal ∉ s.aborted ∧ closure ∈ s.listed signal abort ∨
      ∃ f ∈ s.stack, s.Waits signal closure f)

end State

/-- Registrations with a signal have their closures, and closures find no registration of another
signal.  `except` is the registration whose closure is running. -/
structure Hooked (except : Option (ℕ × Text × F)) (s : State F) : Prop where
  hooks : ∀ target type entry signal callback, entry ∈ s.listed target type →
    entry.signal = some signal → entry.callback = .script callback →
    except ≠ some (target, type, callback) → s.Holds signal target type callback
  own : ∀ signal closure target type callback entry, closure ∈ s.listed signal abort →
    closure.callback.removes target type callback → s.Unfinished signal →
    entry ∈ s.listed target type → entry.callback = .script callback → entry.signal = some signal
  apart : ∀ signal, ∀ entry ∈ s.listed signal abort, entry.signal ≠ some signal
  framed : ∀ f ∈ s.stack, ∀ signal ∈ f.aborting, signal ∈ s.aborted ∧
    ∃ e, s.events[f.event]? = some e ∧ e.type = abort ∧ e.stopImmediate = false
  typed : ∀ d, .dispatch d ∈ s.stack → d.aborts = true → d.type = abort

section

variable {s s' : State F} {except except' : Option (ℕ × Text × F)}

omit [DecidableEq F]

theorem waits_congr (hlisted : ∀ target type, s'.listed target type = s.listed target type)
    (signal : ℕ) (closure : ListenerEntry F) (f : Frame F) :
    s'.Waits signal closure f ↔ s.Waits signal closure f := by
  cases f with
  | dispatch d => exact Iff.rfl
  | onabort signal' event =>
    unfold State.Waits
    rw [hlisted]

theorem State.Waits.aborting {signal : ℕ} {closure : ListenerEntry F} {f : Frame F}
    (h : s.Waits signal closure f) : f.aborting = some signal := by
  cases f with
  | dispatch d =>
    obtain ⟨haborts, rfl, -⟩ := h
    exact if_pos haborts
  | onabort signal' event =>
    obtain ⟨rfl, -⟩ := h
    rfl

namespace Hooked

theorem frames (h : Hooked except s) (hlisted : ∀ target type, s'.listed target type = s.listed target type)
    (haborted : s'.aborted = s.aborted) (hevents : s'.events = s.events)
    (hframes : ∀ f' ∈ s'.stack, ∀ signal ∈ f'.aborting, ∃ f ∈ s.stack, signal ∈ f.aborting ∧ f.event = f'.event)
    (htyped : ∀ d, .dispatch d ∈ s'.stack → d.aborts = true → d.type = abort)
    (hexcept : ∀ registration, except = some registration → except' = some registration)
    (hwaits : ∀ signal closure target type callback, closure.callback.removes target type callback →
      except' ≠ some (target, type, callback) → (∃ f ∈ s.stack, s.Waits signal closure f) →
        ∃ f ∈ s'.stack, s'.Waits signal closure f) : Hooked except' s' where
  hooks target type entry signal callback hmem hsignal hcallback hother := by
    rw [hlisted] at hmem
    obtain ⟨closure, hremoves, hcase⟩ := h.hooks target type entry signal callback hmem hsignal
      hcallback fun he => hother (hexcept _ he)
    refine ⟨closure, hremoves, ?_⟩
    rw [haborted, hlisted]
    exact hcase.imp_right (hwaits _ _ _ _ _ hremoves hother)
  own signal closure target type callback entry hclosure hremoves hunfinished hmem := by
    rw [hlisted] at hclosure hmem
    refine h.own signal closure target type callback entry hclosure hremoves ?_ hmem
    rw [State.Unfinished, haborted] at hunfinished
    refine hunfinished.imp_right ?_
    rintro ⟨f', hf', hsignal⟩
    obtain ⟨f, hf, hsame, -⟩ := hframes f' hf' signal hsignal
    exact ⟨f, hf, hsame⟩
  apart signal := by
    rw [hlisted]
    exact h.apart signal
  framed f' hf' signal hsignal := by
    obtain ⟨f, hf, hsame, hevent⟩ := hframes f' hf' signal hsignal
    rw [haborted, hevents, ← hevent]
    exact h.framed f hf signal hsame
  typed := htyped

end Hooked

end

section

variable {s s' : State F} {target : ℕ} {type : Text} {except : Option (ℕ × Text × F)}

omit [DecidableEq F]

theorem ne_of_removes {entry closure : ListenerEntry F} {f callback : F}
    (hscript : entry.callback = .script f) (hremoves : closure.callback.removes target type callback) :
    closure ≠ entry := by
  rintro rfl
  rw [hscript] at hremoves
  exact hremoves

theorem mem_listed_store {list : Option (List (ListenerEntry F))} {callback : Callback F} {once : Bool}
    {signal : Option ℕ} {target' : ℕ} {type' : Text} {entry : ListenerEntry F}
    (hlist : list = none → s.listed target type = []) :
    entry ∈ (s.store target type list callback once signal).listed target' type' ↔
      entry ∈ s.listed target' type' ∨
        (target = target' ∧ type = type') ∧ entry = s.entry callback once signal := by
  rw [listed_store hlist, List.mem_append]
  split
  · rename_i hsame
    simp only [List.mem_singleton, hsame, and_self, true_and]
  · rename_i hsame
    simp only [List.not_mem_nil, hsame, false_and]

namespace Hooked

theorem drop {callback : F} (h : Hooked (some (target, type, callback)) s)
    (hgone : ∀ entry ∈ s.listed target type, entry.callback ≠ .script callback) : Hooked none s where
  __ := h
  hooks target' type' entry signal callback' hmem hsignal hcallback _ := by
    refine h.hooks target' type' entry signal callback' hmem hsignal hcallback ?_
    intro he
    cases he
    exact hgone entry hmem hcallback

theorem keep (h : Hooked except s) (hlisted : ∀ target type, s'.listed target type = s.listed target type)
    (haborted : s'.aborted = s.aborted) (hstack : s'.stack = s.stack)
    (hevents : ∀ f ∈ s.stack, f.aborting.isSome = true → ∀ e, s.events[f.event]? = some e →
      ∃ e', s'.events[f.event]? = some e' ∧ e'.type = e.type ∧ e'.stopImmediate = e.stopImmediate) :
    Hooked except s' where
  hooks target type entry signal callback hmem hsignal hcallback hother := by
    rw [hlisted] at hmem
    obtain ⟨closure, hremoves, hcase⟩ := h.hooks target type entry signal callback hmem hsignal
      hcallback hother
    refine ⟨closure, hremoves, ?_⟩
    rw [haborted, hlisted, hstack]
    simpa only [waits_congr hlisted] using hcase
  own signal closure target type callback entry hclosure hremoves hunfinished hmem := by
    rw [hlisted] at hclosure hmem
    rw [State.Unfinished, haborted, hstack] at hunfinished
    exact h.own signal closure target type callback entry hclosure hremoves hunfinished hmem
  apart signal := by
    rw [hlisted]
    exact h.apart signal
  framed f hf signal hsignal := by
    rw [hstack] at hf
    obtain ⟨hmem, e, he, htype, hstop⟩ := h.framed f hf signal hsignal
    obtain ⟨e', he', htype', hstop'⟩ := hevents f hf (Option.isSome_iff_exists.2 ⟨signal, hsignal⟩) e he
    rw [haborted]
    exact ⟨hmem, e', he', htype'.trans htype, hstop'.trans hstop⟩
  typed := hstack ▸ h.typed

theorem of_removes {entry : ListenerEntry F} {signal : Option ℕ} {f : F} [DecidableEq F]
    (h : Hooked except s) (hr : Removes s entry signal s') (hscript : entry.callback = .script f) :
    Hooked except s' where
  hooks target type e g callback hmem hsignal hcallback hother := by
    obtain ⟨closure, hremoves, hcase⟩ := h.hooks target type e g callback (hr.mem_listed.1 hmem).1
      hsignal hcallback hother
    have hne := ne_of_removes hscript hremoves
    refine ⟨closure, hremoves, ?_⟩
    rw [hr.aborted, hr.mem_listed, hr.stack]
    refine hcase.imp (fun hc => ⟨hc.1, hc.2, hne⟩) ?_
    rintro ⟨frame, hframe, hwaits⟩
    refine ⟨frame, hframe, ?_⟩
    cases frame with
    | dispatch d => exact hwaits
    | onabort signal' event => exact ⟨hwaits.1, hr.mem_listed.2 ⟨hwaits.2, hne⟩⟩
  own g closure target type callback e hclosure hremoves hunfinished hmem := by
    rw [State.Unfinished, hr.aborted, hr.stack] at hunfinished
    exact h.own g closure target type callback e (hr.mem_listed.1 hclosure).1 hremoves hunfinished
      (hr.mem_listed.1 hmem).1
  apart g e hmem := h.apart g e (hr.mem_listed.1 hmem).1
  framed frame hframe g hg := by
    rw [hr.stack] at hframe
    rw [hr.aborted, hr.events]
    exact h.framed frame hframe g hg
  typed := hr.stack ▸ h.typed

theorem store {list : Option (List (ListenerEntry F))} {callback : Callback F} {once : Bool}
    {signal : Option ℕ} (h : Hooked none s) (hlist : list = none → s.listed target type = [])
    (hapart : type = abort → signal ≠ some target)
    (hholds : ∀ g f, signal = some g → callback = .script f → s.Holds g target type f)
    (hown : ∀ g f, ∀ closure ∈ s.listed g abort, callback = .script f →
      closure.callback.removes target type f → s.Unfinished g → signal = some g)
    (hclosure : ∀ target' type' f, type = abort → callback.removes target' type' f →
      ∀ e ∈ s.listed target' type', e.callback ≠ .script f) :
    Hooked none (s.store target type list callback once signal) where
  __ := h
  hooks target' type' e g f hmem hsignal hcallback _ := by
    have hheld : s.Holds g target' type' f := by
      rcases (mem_listed_store hlist).1 hmem with hmem | ⟨⟨rfl, rfl⟩, rfl⟩
      · exact h.hooks target' type' e g f hmem hsignal hcallback nofun
      · exact hholds g f hsignal hcallback
    obtain ⟨closure, hremoves, hcase⟩ := hheld
    refine ⟨closure, hremoves, hcase.imp (fun hc => ⟨hc.1, (mem_listed_store hlist).2 (.inl hc.2)⟩) ?_⟩
    rintro ⟨frame, hframe, hwaits⟩
    refine ⟨frame, hframe, ?_⟩
    cases frame with
    | dispatch d => exact hwaits
    | onabort signal' event => exact ⟨hwaits.1, (mem_listed_store hlist).2 (.inl hwaits.2)⟩
  own g closure target' type' f e hmem hremoves hunfinished hmem' hscript := by
    rcases (mem_listed_store hlist).1 hmem with hmem | ⟨⟨rfl, htype⟩, rfl⟩
    · rcases (mem_listed_store hlist).1 hmem' with hmem' | ⟨⟨rfl, rfl⟩, rfl⟩
      · exact h.own g closure target' type' f e hmem hremoves hunfinished hmem' hscript
      · exact hown g f closure hmem hscript hremoves hunfinished
    · rcases (mem_listed_store hlist).1 hmem' with hmem' | ⟨-, rfl⟩
      · exact absurd hscript (hclosure target' type' f htype hremoves e hmem')
      · exact absurd rfl (ne_of_removes hscript hremoves)
  apart g e hmem := by
    rcases (mem_listed_store hlist).1 hmem with hmem | ⟨⟨rfl, htype⟩, rfl⟩
    · exact h.apart g e hmem
    · exact hapart htype

end Hooked

end

/-! ### The invariant -/

structure Invariant (except : Option (ℕ × Text × F)) (s : State F) : Prop where
  recorded : Recorded s
  stacked : Stacked s
  hooked : Hooked except s
  disciplined : History.Each Disciplined s.trace

section

variable {trace : List (Happening F)} {id target target' : ℕ} {type type' : Text}
  {snapshot snapshot' : List (ListenerEntry F)} {entry : ListenerEntry F}

theorem began_unique (hall : History.Each Disciplined trace)
    (h : .began id target type snapshot ∈ trace) (h' : .began id target' type' snapshot' ∈ trace) :
    snapshot' = snapshot := by
  obtain ⟨past, future, rfl, -, -, hnew⟩ := hall.of_mem h
  rcases List.mem_append.1 h' with h' | h'
  · exact absurd h' (hnew _ _ _)
  · rcases List.mem_cons.1 h' with h' | h'
    · cases h'
      rfl
    · obtain ⟨between, future, rfl⟩ := List.append_of_mem h'
      obtain ⟨-, -, hnew'⟩ := hall (past ++ .began id target type snapshot :: between) _ future
        (by rw [List.append_assoc, List.cons_append])
      exact absurd List.mem_append_cons_self (hnew' _ _ _)

theorem snapshot_registered (hall : History.Each Disciplined trace)
    (h : .began id target type snapshot ∈ trace) :
    snapshot.Nodup ∧ ∀ e ∈ snapshot, .registered target type e ∈ trace := by
  obtain ⟨past, future, rfl, rfl, hnodup, -⟩ := hall.of_mem h
  exact ⟨hnodup, fun e he => List.mem_append_left _ (mem_present.1 he).1⟩

theorem began_of_called (hall : History.Each Disciplined trace) (h : .called id entry ∈ trace) :
    ∃ target type snapshot, .began id target type snapshot ∈ trace := by
  obtain ⟨past, future, rfl, ⟨target, type, snapshot, hbegan, -⟩, -⟩ := hall.of_mem h
  exact ⟨target, type, snapshot, List.mem_append_left _ hbegan⟩

end

section

variable {s : State F} {target : ℕ} {type : Text} {except : Option (ℕ × Text × F)}

theorem Invariant.listed_of_follows (h : Invariant except s) {d : Dispatch F} (hd : .dispatch d ∈ s.stack)
    {entry : ListenerEntry F} (hrest : entry ∈ d.rest) :
    .registered d.target d.type entry ∈ s.trace ∧
      (entry ∉ s.removed → entry ∈ s.listed d.target d.type) := by
  obtain ⟨done, hbegan, -⟩ := h.stacked.follows d hd
  have hregistered := (snapshot_registered h.disciplined hbegan).2 entry (List.mem_append_right _ hrest)
  refine ⟨hregistered, fun hremoved => h.recorded.mem_listed.2 ⟨hregistered, ?_⟩⟩
  rw [Bool.eq_false_iff]
  exact fun hgone => hremoved ((h.recorded.removed entry).2 hgone)

variable {signal : Option ℕ}

theorem Invariant.remove {f : F} (h : Invariant except s)
    (hown : ∀ g, signal = some g → ∀ e ∈ s.listed target type, e.callback = .script f → e.signal
    = some g) : Invariant except (s.removeEventListener target type (.script f) signal) := by
  rcases h.recorded.removeEventListener_spec with ⟨heq, -⟩ | ⟨entry, hmem, hcallback, hr⟩
  · rw [heq]
    exact h
  · refine ⟨h.recorded.of_removes hr hmem hcallback, ?_, h.hooked.of_removes hr hcallback, ?_⟩
    · refine h.stacked.keep hr.stack hr.dispatches hr.trace fun x hx => ?_
      rw [List.mem_singleton.1 hx]
      rfl
    · rw [hr.trace]
      refine History.each_append_singleton.2 ⟨h.disciplined, fun g hg => ?_⟩
      exact hown g hg entry hmem hcallback

theorem Recorded.not_listed_remove {callback : Callback F} (h : Recorded s) :
    ∀ e ∈ (s.removeEventListener target type callback signal).listed target type,
      e.callback ≠ callback := by
  intro e he heq
  rcases h.removeEventListener_spec with ⟨hsame, hnone⟩ | ⟨entry, hmem, hcallback, hr⟩
  · rw [hsame] at he
    exact hnone e he heq
  · obtain ⟨he, hne⟩ := hr.mem_listed.1 he
    have hsymm : Std.Symm fun e e' : ListenerEntry F => e.callback ≠ e'.callback :=
      ⟨fun _ _ hcallbacks => hcallbacks.symm⟩
    exact (h.callbacks target type).forall he hmem hne (heq.trans hcallback.symm)

theorem Invariant.store {list : Option (List (ListenerEntry F))} {callback : Callback F} {once : Bool}
    {signal : Option ℕ} (h : Invariant none s) (hlist : list = none → s.listed target type = [])
    (hnew : ∀ entry ∈ s.listed target type, entry.callback ≠ callback)
    (hproper : (s.entry callback once signal).Proper (s.serial + 1))
    (hhooked : Hooked none (s.store target type list callback once signal)) :
    Invariant none (s.store target type list callback once signal) where
  recorded := h.recorded.store hlist hnew hproper
  stacked := by
    refine h.stacked.keep rfl rfl rfl fun x hx => ?_
    rw [List.mem_singleton.1 hx]
    rfl
  hooked := hhooked
  disciplined := History.each_append_singleton.2 ⟨h.disciplined, trivial⟩

end

end QuickBeam.Web.EventTarget
