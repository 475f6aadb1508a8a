import QuickBeam.Lib.Transition

/-!
# `ReadableStream` (`streams.ts`)

The source acts on a stream through the controller at any moment: while the constructor or a `pull`
runs, or later.  A read first shifts a chunk or finds none, then calls `pull`, and only then gives
its promise; while `pull` runs the read is under way.  At most one `pull` is outstanding, which
`#pulling` says.

Reads are numbered in the order of their calls and `reads` has what became of each; a waiting reader
is the number of its read.  `enqueued` lists the chunks enqueued while the stream was readable,
`cancelled` says that a cancel has succeeded, and `ended` is the state in which the stream ended.
-/

namespace QuickBeam.Streams

open QuickBeam.Lib

variable {α ε : Type}

/-! ### Streams -/

inductive ReadableState (ε : Type) where
  | readable
  | closed
  | errored (storedError : ε)

inductive ReadResult (α ε : Type) where
  /-- `SYM_READ` has called `pull`, and has not yet made its promise. -/
  | calling
  | waiting
  | fulfilled (chunk : α)
  | done
  | rejected (error : ε)

structure ReadableStream (α ε : Type) where
  queue : List α
  state : ReadableState ε
  /-- The source has a `pull`. -/
  hasPull : Bool
  pulling : Bool
  waitingReaders : List ℕ
  locked : Bool
  /-- A reader has been handed out. -/
  hasReader : Bool
  /-- The read whose call of `pull` runs. -/
  inPull : Option ℕ
  /-- The calls of `cancel` of the stream, and of its readers, that wait for the source. -/
  cancels : ℕ
  readerCancels : ℕ
  reads : List (ReadResult α ε)
  enqueued : List α
  cancelled : Bool
  ended : Option (ReadableState ε)

/-- How a call of `pull` ends. -/
inductive PullResult (ε : Type) where
  | returns
  | promise
  | throws (error : ε)

namespace ReadableStream

def initial (hasPull : Bool) : ReadableStream α ε :=
  ⟨[], .readable, hasPull, false, [], false, false, none, 0, 0, [], [], false, none⟩

/-! ### The controller -/

def enqueue (s : ReadableStream α ε) (chunk : α) : ReadableStream α ε :=
  match s.state, s.waitingReaders with
  | .readable, reader :: waitingReaders =>
    { s with
      waitingReaders
      reads := s.reads.set reader (.fulfilled chunk)
      enqueued := s.enqueued ++ [chunk] }
  | .readable, [] => { s with queue := s.queue ++ [chunk], enqueued := s.enqueued ++ [chunk] }
  | _, _ => s

def settle (s : ReadableStream α ε) (result : ReadResult α ε) : ReadableStream α ε :=
  { s with
    reads := s.waitingReaders.foldl (fun reads reader => reads.set reader result) s.reads
    waitingReaders := [] }

def close (s : ReadableStream α ε) : ReadableStream α ε :=
  match s.state with
  | .readable => { s.settle .done with state := .closed, ended := some .closed }
  | _ => s

def error (s : ReadableStream α ε) (e : ε) : ReadableStream α ε :=
  match s.state with
  | .readable =>
    { s.settle (.rejected e) with state := .errored e, ended := some (.errored e), queue := [] }
  | _ => s

/-! ### Reads -/

def canPull (s : ReadableStream α ε) : Bool :=
  match s.state with
  | .readable => s.hasPull && !s.pulling
  | _ => false

def callPull (s : ReadableStream α ε) (read : ℕ) : ReadableStream α ε :=
  if s.canPull then { s with pulling := true, inPull := some read } else s

/-- `SYM_READ` of an empty queue, after `#callPull`. -/
def await (s : ReadableStream α ε) (read : ℕ) : ReadableStream α ε :=
  { s with reads := s.reads.set read .waiting, waitingReaders := s.waitingReaders ++ [read] }

def record (s : ReadableStream α ε) (result : ReadResult α ε) : ReadableStream α ε :=
  { s with reads := s.reads ++ [result] }

def read (s : ReadableStream α ε) : ReadableStream α ε :=
  match s.state, s.queue with
  | .errored e, _ => s.record (.rejected e)
  | _, value :: queue => ({ s with queue }.record (.fulfilled value)).callPull s.reads.length
  | .closed, [] => s.record .done
  | .readable, [] =>
    if s.canPull then (s.record .calling).callPull s.reads.length
    else (s.record .calling).await s.reads.length

/-- The rest of `#callPull`. -/
def leavePull (s : ReadableStream α ε) : PullResult ε → ReadableStream α ε
  | .returns => { s with inPull := none, pulling := false }
  | .promise => { s with inPull := none, pulling := true }
  | .throws e => error { s with inPull := none, pulling := false } e

/-- `pull` is back: the rest of `#callPull` and of the read. -/
def pullReturn (s : ReadableStream α ε) (result : PullResult ε) : Option (ReadableStream α ε) :=
  match s.inPull with
  | some read =>
    match s.reads[read]? with
    | some .calling => some ((s.leavePull result).await read)
    | _ => some (s.leavePull result)
  | none => none

def pullSettled (s : ReadableStream α ε) (rejected : Option ε) : Option (ReadableStream α ε) :=
  if s.pulling = true ∧ s.inPull = none then
    match rejected with
    | some e => some ({ s with pulling := false }.error e)
    | none => some { s with pulling := false }
  else none

/-! ### Locks and cancels -/

def getReader (s : ReadableStream α ε) : Option (ReadableStream α ε) :=
  if s.locked then none else some { s with locked := true, hasReader := true }

def cancel (s : ReadableStream α ε) : Option (ReadableStream α ε) :=
  if s.locked then none else some { s with cancels := s.cancels + 1 }

/-- The rest of `cancel`, when the source has not failed. -/
def cancelEnd (s : ReadableStream α ε) : Option (ReadableStream α ε) :=
  if 0 < s.cancels then
    some { s with
      cancels := s.cancels - 1
      state := .closed
      queue := []
      cancelled := true
      ended := s.ended.or (some .closed) }
  else none

/-- The rest of `cancel` of a reader, when the source has not failed. -/
def readerCancelEnd (s : ReadableStream α ε) : Option (ReadableStream α ε) :=
  if 0 < s.readerCancels then
    some { s with readerCancels := s.readerCancels - 1, locked := false, cancelled := true }
  else none

/-! ### Steps -/

inductive Event (α ε : Type) where
  | enqueue (chunk : α)
  | close
  | error (e : ε)
  | getReader
  | releaseLock
  | read
  | pullReturn (result : PullResult ε)
  | pullSettled (rejected : Option ε)
  | cancel
  | cancelEnd
  | cancelFails
  | readerCancel
  | readerCancelEnd
  | readerCancelFails

def ofReader (s next : ReadableStream α ε) : Option (ReadableStream α ε) :=
  if s.hasReader then some next else none

def step (s : ReadableStream α ε) : Event α ε → Option (ReadableStream α ε)
  | .enqueue chunk => some (s.enqueue chunk)
  | .close => some s.close
  | .error e => some (s.error e)
  | .getReader => s.getReader
  | .releaseLock => s.ofReader { s with locked := false }
  | .read => s.ofReader s.read
  | .pullReturn result => s.pullReturn result
  | .pullSettled rejected => s.pullSettled rejected
  | .cancel => s.cancel
  | .cancelEnd => s.cancelEnd
  | .cancelFails => if 0 < s.cancels then some { s with cancels := s.cancels - 1 } else none
  | .readerCancel => s.ofReader { s with readerCancels := s.readerCancels + 1 }
  | .readerCancelEnd => s.readerCancelEnd
  | .readerCancelFails =>
    if 0 < s.readerCancels then some { s with readerCancels := s.readerCancels - 1 } else none

def machine : Machine (ReadableStream α ε) (Event α ε) where
  init s := ∃ hasPull, s = initial hasPull
  step := step

/-! ### The stream is a queue -/

def delivered (s : ReadableStream α ε) : List α :=
  s.reads.filterMap fun
    | .fulfilled chunk => some chunk
    | _ => none

structure DeliversFifo (s : ReadableStream α ε) : Prop where
  fifo : s.delivered <+: s.enqueued
  /-- Nothing is lost but by an error or a cancel. -/
  kept : (∀ e, s.state ≠ .errored e) → s.cancelled = false → s.delivered ++ s.queue = s.enqueued
  pending : .waiting ∈ s.reads → s.queue = [] ∧ s.state = .readable
  done : .done ∈ s.reads → s.queue = [] ∧ s.state = .closed
  rejected : ∀ e, .rejected e ∈ s.reads → s.state = .errored e
  cancelled : s.cancelled = true → .waiting ∉ s.reads
  ended : ∀ state, s.ended = some state → s.state = state

/-- A read that finds no chunk ends its call of `pull` with the stream readable, empty and not
cancelled, and before the next read is called; no read of an empty readable stream comes after a
reader's cancel, and cancels end when no reader waits and the stream is not errored. -/
def Orderly (s : ReadableStream α ε) : Event α ε → Prop
  | .read => .calling ∉ s.reads ∧ (s.cancelled = true → s.state = .readable → s.queue ≠ [])
  | .pullReturn result => .calling ∈ s.reads →
      (∀ e, result ≠ .throws e) ∧ s.state = .readable ∧ s.queue = [] ∧ s.cancelled = false
  | .cancelEnd => (∀ e, s.state ≠ .errored e) ∧ s.waitingReaders = []
  | .readerCancelEnd => s.waitingReaders = []
  | _ => True

/-- What a read gets when no chunk is left for it. -/
def ReadableState.rest : ReadableState ε → ReadResult α ε
  | .readable => .waiting
  | .closed => .done
  | .errored e => .rejected e

/-- The reads are those that got the `values`, `n` that got nothing and perhaps one under way. -/
structure Served (s : ReadableStream α ε) (values : List α) (n : ℕ) (calling : Bool) : Prop where
  reads : s.reads = values.map .fulfilled ++ List.replicate n (ReadableState.rest s.state) ++
    if calling then [.calling] else []
  waiting : s.state = .readable → s.waitingReaders = List.range' values.length n
  empty : 0 < n → s.queue = []
  accounted : values ++ s.queue <+: s.enqueued
  live : s.state = .readable → values ++ s.queue = s.enqueued
  kept : (∀ e, s.state ≠ .errored e) → s.cancelled = false → values ++ s.queue = s.enqueued
  errored : ∀ e, s.state = .errored e → s.queue = []
  calling : calling = true → s.inPull = some (values.length + n)
  inPull : ∀ read, s.inPull = some read → s.pulling = true
  cancelled : s.cancelled = true → s.state = .readable → n = 0
  ended : s.ended = none ∧ s.state = .readable ∨ s.ended = some s.state ∧ s.state ≠ .readable

def Invariant (s : ReadableStream α ε) : Prop := ∃ values n calling, Served s values n calling

/-! ### Lists of reads -/

variable {β : Type}

theorem set_middle (xs : List β) (x y : β) (ys : List β) :
    (xs ++ x :: ys).set xs.length y = xs ++ y :: ys := by
  rw [List.set_append_right _ _ le_rfl, Nat.sub_self, List.set_cons_zero]

theorem foldl_set_range (x y : β) (ys : List β) (n : ℕ) :
    ∀ xs : List β, (List.range' xs.length n).foldl (fun rs i => rs.set i y)
      (xs ++ List.replicate n x ++ ys) = xs ++ List.replicate n y ++ ys := by
  induction n with
  | zero => intro xs; rfl
  | succ n ih =>
    intro xs
    have hfirst : (xs ++ List.replicate (n + 1) x ++ ys).set xs.length y =
        (xs ++ [y]) ++ List.replicate n x ++ ys := by
      rw [List.replicate_succ, List.append_assoc, List.cons_append, set_middle]
      simp only [List.append_assoc, List.cons_append, List.nil_append]
    have hlength : (xs ++ [y]).length = xs.length + 1 := List.length_append
    rw [List.range'_succ, List.foldl_cons, hfirst, ← hlength, ih (xs ++ [y]), List.replicate_succ]
    simp only [List.append_assoc, List.cons_append, List.nil_append]

section Served

variable {s : ReadableStream α ε} {values : List α} {n : ℕ} {calling : Bool}
  (h : Served s values n calling)
include h

theorem Served.delivered : s.delivered = values := by
  have hvalues : (values.map (ReadResult.fulfilled (ε := ε))).filterMap (fun
      | .fulfilled chunk => some chunk
      | _ => none) = values := by
    rw [List.filterMap_map]
    exact List.filterMap_some
  have hrest : ∀ m, (List.replicate m (ReadableState.rest (α := α) s.state)).filterMap (fun
      | .fulfilled chunk => some chunk
      | _ => none) = [] := by
    intro m
    refine List.filterMap_eq_nil_iff.2 fun o ho => ?_
    rw [List.eq_of_mem_replicate ho]
    cases s.state <;> rfl
  unfold ReadableStream.delivered
  rw [h.reads, List.filterMap_append, List.filterMap_append, hvalues, hrest]
  cases calling <;> exact (List.append_nil _).trans (List.append_nil _)

theorem Served.mem_reads {o : ReadResult α ε} (ho : o ∈ s.reads) (hchunk : ∀ c, o ≠ .fulfilled c)
    (hcalling : o ≠ .calling) : 0 < n ∧ o = ReadableState.rest s.state := by
  rw [h.reads, List.mem_append, List.mem_append] at ho
  rcases ho with (ho | ho) | ho
  · obtain ⟨c, -, rfl⟩ := List.mem_map.1 ho
    exact absurd rfl (hchunk c)
  · obtain ⟨hn, rfl⟩ := List.mem_replicate.1 ho
    exact ⟨Nat.pos_of_ne_zero hn, rfl⟩
  · cases calling with
    | false => cases ho
    | true => exact absurd (List.mem_singleton.1 ho) hcalling

theorem Served.calling_mem : .calling ∈ s.reads ↔ calling = true := by
  constructor
  · intro ho
    by_contra hfalse
    rw [Bool.not_eq_true] at hfalse
    rw [h.reads, hfalse, List.mem_append, List.mem_append] at ho
    rcases ho with (ho | ho) | ho
    · obtain ⟨c, -, hc⟩ := List.mem_map.1 ho
      cases hc
    · have hrest := (List.mem_replicate.1 ho).2
      cases hstate : s.state <;> rw [hstate] at hrest <;> cases hrest
    · cases ho
  · rintro rfl
    rw [h.reads]
    exact List.mem_append_right _ (List.mem_singleton_self _)

theorem Served.fifo : DeliversFifo s where
  fifo := by
    rw [h.delivered]
    exact (List.prefix_append values s.queue).trans h.accounted
  kept := by
    rw [h.delivered]
    exact h.kept
  pending := by
    intro ho
    obtain ⟨hn, hrest⟩ := h.mem_reads ho nofun nofun
    refine ⟨h.empty hn, ?_⟩
    cases hstate : s.state with
    | readable => rfl
    | closed => rw [hstate] at hrest; cases hrest
    | errored e => rw [hstate] at hrest; cases hrest
  done := by
    intro ho
    obtain ⟨hn, hrest⟩ := h.mem_reads ho nofun nofun
    refine ⟨h.empty hn, ?_⟩
    cases hstate : s.state with
    | readable => rw [hstate] at hrest; cases hrest
    | closed => rfl
    | errored e => rw [hstate] at hrest; cases hrest
  rejected := by
    intro e ho
    obtain ⟨-, hrest⟩ := h.mem_reads ho nofun nofun
    cases hstate : s.state with
    | readable => rw [hstate] at hrest; cases hrest
    | closed => rw [hstate] at hrest; cases hrest
    | errored e' =>
      rw [hstate] at hrest
      cases hrest
      rfl
  cancelled := by
    intro hcancelled ho
    obtain ⟨hn, hrest⟩ := h.mem_reads ho nofun nofun
    cases hstate : s.state with
    | readable => exact absurd (h.cancelled hcancelled hstate) (by omega)
    | closed => rw [hstate] at hrest; cases hrest
    | errored e => rw [hstate] at hrest; cases hrest
  ended := by
    intro state hended
    rcases h.ended with ⟨hnone, -⟩ | ⟨hsome, -⟩
    · rw [hnone] at hended
      cases hended
    · exact Option.some.inj (hsome.symm.trans hended)

theorem Served.enqueue (chunk : α) : Invariant (s.enqueue chunk) := by
  unfold ReadableStream.enqueue
  split
  · rename_i reader waitingReaders hstate hwaiting
    have hrange := (h.waiting hstate).symm.trans hwaiting
    cases n with
    | zero => cases hrange
    | succ m =>
      rw [List.range'_succ] at hrange
      obtain ⟨rfl, rfl⟩ := List.cons.inj hrange
      have hqueue := h.empty (Nat.succ_pos m)
      have hlive : values = s.enqueued := by
        rw [← h.live hstate, hqueue]
        exact (List.append_nil values).symm
      have hlength : (values.map (ReadResult.fulfilled (ε := ε))).length = values.length :=
        List.length_map _
      refine ⟨values ++ [chunk], m, calling, { h with
        reads := ?_
        waiting := ?_
        empty := fun _ => hqueue
        accounted := ?_
        live := ?_
        kept := ?_
        calling := ?_
        cancelled := ?_ }⟩
      · show s.reads.set values.length (.fulfilled chunk) = _
        rw [h.reads, ← hlength, List.replicate_succ, List.append_assoc, List.cons_append, set_middle,
          List.map_append]
        simp only [List.append_assoc, List.map_cons, List.map_nil, List.cons_append, List.nil_append]
      · intro _
        rw [List.length_append]
        rfl
      · rw [hqueue, hlive, List.append_nil]
      · intro _
        rw [hqueue, hlive, List.append_nil]
      · intro _ _
        rw [hqueue, hlive, List.append_nil]
      · intro hcalling
        refine (h.calling hcalling).trans ?_
        rw [List.length_append, List.length_singleton]
        exact congrArg some (by omega)
      · intro hcancelled hreadable
        exact absurd (h.cancelled hcancelled hreadable) (Nat.succ_ne_zero m)
  · rename_i hstate hwaiting
    have hnone : n = 0 := by
      have hlength := congrArg List.length ((h.waiting hstate).symm.trans hwaiting)
      rw [List.length_range'] at hlength
      exact hlength
    have hlive : values ++ (s.queue ++ [chunk]) = s.enqueued ++ [chunk] := by
      rw [← List.append_assoc, h.live hstate]
    refine ⟨values, n, calling, { h with
      empty := fun hpos => absurd hnone (by omega)
      accounted := hlive ▸ List.prefix_refl _
      live := fun _ => hlive
      kept := fun _ _ => hlive
      errored := ?_ }⟩
    intro e he
    rw [show s.state = .readable from hstate] at he
    cases he
  · exact ⟨values, n, calling, h⟩

theorem Served.settle_reads (hstate : s.state = .readable) (result : ReadResult α ε) :
    (s.settle result).reads = values.map .fulfilled ++ List.replicate n result ++
      if calling then [.calling] else [] := by
  have hlength : (values.map (ReadResult.fulfilled (ε := ε))).length = values.length :=
    List.length_map _
  show s.waitingReaders.foldl (fun reads reader => reads.set reader result) s.reads = _
  rw [h.waiting hstate, h.reads, ← hlength]
  exact foldl_set_range ..

theorem Served.close : Invariant s.close := by
  unfold ReadableStream.close
  split
  · rename_i hstate
    exact ⟨values, n, calling, { h with
      reads := h.settle_reads hstate .done
      waiting := nofun
      live := nofun
      kept := fun _ _ => h.live hstate
      errored := nofun
      cancelled := nofun
      ended := .inr ⟨rfl, nofun⟩ }⟩
  · exact ⟨values, n, calling, h⟩

theorem Served.error (e : ε) : Invariant (s.error e) := by
  unfold ReadableStream.error
  split
  · rename_i hstate
    exact ⟨values, n, calling, { h with
      reads := h.settle_reads hstate (.rejected e)
      waiting := nofun
      empty := fun _ => rfl
      accounted := by
        show values ++ [] <+: s.enqueued
        rw [← h.live hstate, List.append_nil]
        exact List.prefix_append values s.queue
      live := nofun
      kept := fun hne => absurd rfl (hne e)
      errored := fun _ _ => rfl
      cancelled := nofun
      ended := .inr ⟨rfl, nofun⟩ }⟩
  · exact ⟨values, n, calling, h⟩

theorem Served.length_reads : s.reads.length = values.length + n + if calling then 1 else 0 := by
  rw [h.reads, List.length_append, List.length_append, List.length_map, List.length_replicate]
  cases calling <;> rfl

theorem Served.callPull {read : ℕ} (hread : calling = true → read = values.length + n) :
    Served (s.callPull read) values n calling := by
  unfold ReadableStream.callPull
  split
  · exact { h with
      calling := fun hcalling => congrArg some (hread hcalling)
      inPull := fun _ _ => rfl }
  · exact h

theorem Served.record_rest (hcalling : calling = false) (hqueue : s.queue = [])
    (hstate : s.state ≠ .readable) :
    Served (s.record (ReadableState.rest s.state)) values (n + 1) false where
  __ := h
  reads := by
    show s.reads ++ [ReadableState.rest s.state] = _
    rw [h.reads, hcalling, List.replicate_succ']
    simp only [List.append_assoc, Bool.false_eq_true, if_false, List.append_nil]
    rfl
  waiting := fun hreadable => absurd hreadable hstate
  empty := fun _ => hqueue
  calling := nofun
  cancelled := fun _ hreadable => absurd hreadable hstate

theorem Served.record_chunk {value : α} {queue : List α} (hcalling : calling = false)
    (hqueue : s.queue = value :: queue) :
    Served ({ s with queue }.record (.fulfilled value)) (values ++ [value]) 0 false := by
  have hnone : n = 0 := by
    by_contra hpos
    rw [h.empty (Nat.pos_of_ne_zero hpos)] at hqueue
    cases hqueue
  have happend : values ++ [value] ++ queue = values ++ s.queue := by
    rw [hqueue, List.append_assoc]
    rfl
  exact {
    reads := by
      show s.reads ++ [.fulfilled value] = _
      rw [h.reads, hcalling, hnone, List.map_append]
      simp only [List.replicate_zero, List.append_nil, Bool.false_eq_true, if_false, List.map_cons,
        List.map_nil]
    waiting := by
      intro hstate
      refine (h.waiting hstate).trans ?_
      rw [hnone]
      rfl
    empty := nofun
    accounted := happend ▸ h.accounted
    live := fun hstate => happend.trans (h.live hstate)
    kept := fun herrored hcancelled => happend.trans (h.kept herrored hcancelled)
    errored := by
      intro e he
      rw [h.errored e he] at hqueue
      cases hqueue
    calling := nofun
    inPull := h.inPull
    cancelled := fun _ _ => rfl
    ended := h.ended }

theorem Served.record_calling (hcalling : calling = false) (hpull : s.canPull = true) :
    Served ((s.record .calling).callPull s.reads.length) values n true := by
  have hlength := h.length_reads
  rw [hcalling] at hlength
  unfold ReadableStream.callPull
  rw [if_pos (show (s.record .calling).canPull = true from hpull)]
  exact { h with
    reads := by
      show s.reads ++ [.calling] = _ ++ [.calling]
      rw [h.reads, hcalling, if_neg Bool.false_ne_true, List.append_nil]
      rfl
    calling := fun _ => congrArg some hlength
    inPull := fun _ _ => rfl }

theorem Served.await {reads : List (ReadResult α ε)}
    (hreads : reads = values.map .fulfilled ++ List.replicate n .waiting ++ [.calling])
    (hstate : s.state = .readable) (hqueue : s.queue = []) (hcancelled : s.cancelled = false) :
    Served (ReadableStream.await { s with reads } (values.length + n)) values (n + 1) false where
  __ := h
  reads := by
    have hlength : (values.map (ReadResult.fulfilled (ε := ε)) ++
        List.replicate n ReadResult.waiting).length = values.length + n := by
      rw [List.length_append, List.length_map, List.length_replicate]
    show reads.set (values.length + n) .waiting =
      _ ++ List.replicate (n + 1) (ReadableState.rest s.state) ++ []
    rw [hreads, ← hlength, set_middle, hstate, List.append_nil, List.append_assoc,
      List.replicate_succ']
    rfl
  waiting := by
    intro _
    show s.waitingReaders ++ [values.length + n] = _
    rw [h.waiting hstate, List.range'_concat, Nat.one_mul]
  empty := fun _ => hqueue
  calling := nofun
  cancelled := by
    intro hin
    rw [show s.cancelled = true from hin] at hcancelled
    cases hcancelled

theorem Served.read (hok : Orderly s .read) : Invariant s.read := by
  have hcalling : calling = false := by
    by_contra htrue
    rw [Bool.not_eq_false] at htrue
    exact hok.1 (h.calling_mem.2 htrue)
  unfold ReadableStream.read
  split
  · rename_i e hstate
    have hrest := h.record_rest hcalling (h.errored e hstate) (by rw [hstate]; nofun)
    rw [hstate] at hrest
    exact ⟨values, n + 1, false, hrest⟩
  · rename_i value queue hqueue _
    exact ⟨values ++ [value], 0, false, (h.record_chunk hcalling hqueue).callPull nofun⟩
  · rename_i hstate hqueue
    have hrest := h.record_rest hcalling hqueue (by rw [hstate]; nofun)
    rw [hstate] at hrest
    exact ⟨values, n + 1, false, hrest⟩
  · rename_i hstate hqueue
    have hcancelled : s.cancelled = false := by
      by_contra htrue
      rw [Bool.not_eq_false] at htrue
      exact hok.2 htrue hstate hqueue
    split
    · rename_i hpull
      exact ⟨values, n, true, h.record_calling hcalling hpull⟩
    · have hreads : s.reads ++ [.calling] =
          values.map .fulfilled ++ List.replicate n .waiting ++ [.calling] := by
        rw [h.reads, hcalling, hstate, if_neg Bool.false_ne_true, List.append_nil]
        rfl
      have hlength := h.length_reads
      rw [hcalling] at hlength
      refine ⟨values, n + 1, false, ?_⟩
      rw [hlength]
      exact h.await hreads hstate hqueue hcancelled

theorem Served.leavePull (hcalling : calling = false) (result : PullResult ε) :
    Invariant (s.leavePull result) := by
  have hout : ∀ pulling, Served { s with inPull := none, pulling } values n calling := fun _ =>
    { h with
      calling := fun htrue => absurd (hcalling.symm.trans htrue) Bool.false_ne_true
      inPull := nofun }
  cases result with
  | returns => exact ⟨values, n, calling, hout false⟩
  | promise => exact ⟨values, n, calling, hout true⟩
  | throws e => exact (hout false).error e

variable {result : PullResult ε}

theorem Served.leavePull_await (hcalling : calling = true) (hthrows : ∀ e, result ≠ .throws e)
    (hstate : s.state = .readable) (hqueue : s.queue = []) (hcancelled : s.cancelled = false) :
    Invariant ((s.leavePull result).await (values.length + n)) := by
  have hreads : s.reads = values.map .fulfilled ++ List.replicate n .waiting ++ [.calling] := by
    rw [h.reads, hcalling, hstate, if_pos rfl]
    rfl
  have hwait := h.await hreads hstate hqueue hcancelled
  refine ⟨values, n + 1, false, ?_⟩
  cases result with
  | returns => exact { hwait with calling := nofun, inPull := nofun }
  | promise => exact { hwait with calling := nofun, inPull := nofun }
  | throws e => exact absurd rfl (hthrows e)

variable {s' : ReadableStream α ε}

theorem Served.pullReturn (hok : Orderly s (.pullReturn result))
    (hstep : s.pullReturn result = some s') : Invariant s' := by
  unfold ReadableStream.pullReturn at hstep
  split at hstep
  swap
  · cases hstep
  rename_i read hinPull
  cases hcalling : calling with
  | true =>
    obtain ⟨hthrows, hstate, hqueue, hcancelled⟩ := hok (h.calling_mem.2 hcalling)
    have hread : read = values.length + n :=
      Option.some.inj (hinPull.symm.trans (h.calling hcalling))
    have hget : s.reads[read]? = some .calling := by
      have hlength : (values.map (ReadResult.fulfilled (ε := ε)) ++
          List.replicate n (ReadableState.rest s.state)).length = values.length + n := by
        rw [List.length_append, List.length_map, List.length_replicate]
      rw [h.reads, hcalling, hread, if_pos rfl, ← hlength]
      exact List.getElem?_concat_length
    rw [hget] at hstep
    rw [← Option.some.inj hstep, hread]
    exact h.leavePull_await hcalling hthrows hstate hqueue hcancelled
  | false =>
    split at hstep
    · rename_i hget
      rw [hcalling] at h
      exact absurd (h.calling_mem.1 (List.mem_of_getElem? hget)) Bool.false_ne_true
    · rw [← Option.some.inj hstep]
      exact h.leavePull hcalling result

theorem Served.pullSettled {rejected : Option ε} (hstep : s.pullSettled rejected = some s') :
    Invariant s' := by
  unfold ReadableStream.pullSettled at hstep
  split at hstep
  swap
  · cases hstep
  rename_i hpulling
  have hout : Served { s with pulling := false } values n calling :=
    { h with inPull := fun read hread => absurd (hpulling.2.symm.trans hread) nofun }
  split at hstep
  · rename_i e
    rw [← Option.some.inj hstep]
    exact hout.error e
  · rw [← Option.some.inj hstep]
    exact ⟨values, n, calling, hout⟩

theorem Served.cancelEnd (hok : Orderly s .cancelEnd) (hstep : s.cancelEnd = some s') :
    Invariant s' := by
  unfold ReadableStream.cancelEnd at hstep
  split at hstep
  swap
  · cases hstep
  rw [← Option.some.inj hstep]
  have hfront : values ++ [] <+: s.enqueued := by
    rw [List.append_nil]
    exact (List.prefix_append values s.queue).trans h.accounted
  have hended : s.ended.or (some .closed) = some .closed := by
    rcases h.ended with ⟨hnone, -⟩ | ⟨hsome, hne⟩
    · rw [hnone]
      rfl
    · rw [hsome]
      cases hstate : s.state with
      | readable => exact absurd hstate hne
      | closed => rfl
      | errored e => exact absurd hstate (hok.1 e)
  have hreads : List.replicate n (ReadableState.rest (α := α) s.state) = List.replicate n .done := by
    cases hstate : s.state with
    | readable =>
      have hnone : n = 0 := by
        have hlength := congrArg List.length ((h.waiting hstate).symm.trans hok.2)
        rw [List.length_range'] at hlength
        exact hlength
      rw [hnone]
      rfl
    | closed => rfl
    | errored e => exact absurd hstate (hok.1 e)
  exact ⟨values, n, calling, {
    reads := by
      show s.reads = _
      rw [h.reads, hreads]
      rfl
    waiting := nofun
    empty := fun _ => rfl
    accounted := hfront
    live := nofun
    kept := nofun
    errored := nofun
    calling := h.calling
    inPull := h.inPull
    cancelled := nofun
    ended := .inr ⟨hended, nofun⟩ }⟩

theorem Served.readerCancelEnd (hok : Orderly s .readerCancelEnd)
    (hstep : s.readerCancelEnd = some s') : Invariant s' := by
  unfold ReadableStream.readerCancelEnd at hstep
  split at hstep
  swap
  · cases hstep
  rw [← Option.some.inj hstep]
  exact ⟨values, n, calling, { h with
    kept := nofun
    cancelled := by
      intro _ hstate
      have hlength := congrArg List.length ((h.waiting hstate).symm.trans hok)
      rw [List.length_range'] at hlength
      exact hlength }⟩

end Served

/-! ### Runs -/

theorem served_initial (hpull : Bool) : Served (initial hpull : ReadableStream α ε) [] 0 false where
  reads := rfl
  waiting _ := rfl
  empty _ := rfl
  accounted := List.prefix_refl []
  live _ := rfl
  kept _ _ := rfl
  errored _ _ := rfl
  calling := nofun
  inPull := nofun
  cancelled _ _ := rfl
  ended := .inl ⟨rfl, rfl⟩

section Step

variable {s s' : ReadableStream α ε} {values : List α} {n : ℕ} {calling : Bool}
  (h : Served s values n calling)
include h

theorem Served.frame (locked hasReader : Bool) (cancels readerCancels : ℕ) :
    Invariant { s with locked, hasReader, cancels, readerCancels } :=
  ⟨values, n, calling, { h with }⟩

theorem Served.step {event : Event α ε} (hok : Orderly s event)
    (hstep : ReadableStream.step s event = some s') : Invariant s' := by
  cases event with
  | enqueue chunk =>
    rw [← Option.some.inj hstep]
    exact h.enqueue chunk
  | close =>
    rw [← Option.some.inj hstep]
    exact h.close
  | error e =>
    rw [← Option.some.inj hstep]
    exact h.error e
  | getReader =>
    rw [ReadableStream.step, ReadableStream.getReader] at hstep
    split at hstep
    · cases hstep
    · rw [← Option.some.inj hstep]
      exact h.frame ..
  | releaseLock =>
    rw [ReadableStream.step, ofReader] at hstep
    split at hstep
    · rw [← Option.some.inj hstep]
      exact h.frame ..
    · cases hstep
  | read =>
    rw [ReadableStream.step, ofReader] at hstep
    split at hstep
    · rw [← Option.some.inj hstep]
      exact h.read hok
    · cases hstep
  | pullReturn result => exact h.pullReturn hok hstep
  | pullSettled rejected => exact h.pullSettled hstep
  | cancel =>
    rw [ReadableStream.step, ReadableStream.cancel] at hstep
    split at hstep
    · cases hstep
    · rw [← Option.some.inj hstep]
      exact h.frame ..
  | cancelEnd => exact h.cancelEnd hok hstep
  | cancelFails =>
    rw [ReadableStream.step] at hstep
    split at hstep
    · rw [← Option.some.inj hstep]
      exact h.frame ..
    · cases hstep
  | readerCancel =>
    rw [ReadableStream.step, ofReader] at hstep
    split at hstep
    · rw [← Option.some.inj hstep]
      exact h.frame ..
    · cases hstep
  | readerCancelEnd => exact h.readerCancelEnd hok hstep
  | readerCancelFails =>
    rw [ReadableStream.step] at hstep
    split at hstep
    · rw [← Option.some.inj hstep]
      exact h.frame ..
    · cases hstep

end Step

/-- In every orderly run, a stream delivers its chunks first in, first out. -/
theorem deliversFifo {s : ReadableStream α ε} (h : machine.ReachableIf Orderly s) :
    DeliversFifo s := by
  have hserved : Invariant s := by
    refine Machine.ReachableIf.invariant ?_ ?_ h
    · rintro s ⟨hasPull, rfl⟩
      exact ⟨[], 0, false, served_initial hasPull⟩
    · rintro s event s' ⟨values, n, calling, hs⟩ hok hstep
      exact hs.step hok hstep
  obtain ⟨values, n, calling, hs⟩ := hserved
  exact hs.fifo

/-- An asynchronous `pull` serves two reads, and a third one gets the end. -/
theorem deliversFifo_pull :
    ∃ s : ReadableStream ℕ ℕ, machine.exec (initial true) [.enqueue 1, .getReader, .read,
        .pullReturn .promise, .read, .pullSettled none, .enqueue 2, .read, .pullReturn .returns,
        .close] = some s ∧
      s.reads = [.fulfilled 1, .fulfilled 2, .done] ∧ DeliversFifo s := by
  have hrun : ∃ s : ReadableStream ℕ ℕ, machine.exec (initial true) [.enqueue 1, .getReader, .read,
      .pullReturn .promise, .read, .pullSettled none, .enqueue 2, .read, .pullReturn .returns,
      .close] = some s ∧
      s.reads = [.fulfilled 1, .fulfilled 2, .done] ∧
      machine.GuardedRun Orderly (initial true) [.enqueue 1, .getReader, .read,
        .pullReturn .promise, .read, .pullSettled none, .enqueue 2, .read, .pullReturn .returns,
        .close] s :=
    ⟨_, rfl, rfl, .cons trivial rfl <| .cons trivial rfl <| .cons ⟨nofun, nofun⟩ rfl <|
      .cons nofun rfl <| .cons ⟨nofun, nofun⟩ rfl <| .cons trivial rfl <| .cons trivial rfl <|
      .cons ⟨nofun, nofun⟩ rfl <| .cons (fun _ => ⟨nofun, rfl, rfl, rfl⟩) rfl <|
      .cons trivial rfl <| .nil _⟩
  obtain ⟨s, hexec, hreads, hrun⟩ := hrun
  exact ⟨s, hexec, hreads, deliversFifo ⟨_, _, ⟨true, rfl⟩, hrun⟩⟩

/-- A read whose `pull` enqueues at once waits although its chunk is in the queue. -/
theorem pulled_chunk_missed :
    ¬ ∀ s : ReadableStream ℕ ℕ, machine.Reachable s → DeliversFifo s := by
  intro h
  have hrun : ∃ s : ReadableStream ℕ ℕ, machine.exec (initial true) [.getReader, .read, .enqueue 7,
      .pullReturn .returns] = some s ∧ s.reads = [.waiting] ∧ s.queue = [7] := ⟨_, rfl, rfl, rfl⟩
  obtain ⟨s, hexec, hreads, hqueue⟩ := hrun
  have hpending := (h s (Machine.reachable_of_exec ⟨true, rfl⟩ hexec)).pending
    (by rw [hreads]; exact List.mem_singleton_self _)
  rw [hqueue] at hpending
  cases hpending.1

end ReadableStream

end QuickBeam.Streams
