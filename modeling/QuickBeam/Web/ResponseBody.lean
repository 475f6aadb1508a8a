import QuickBeam.Lib.History
import QuickBeam.Web.Blob

/-!
# Response bodies (`fetch.ts`)

A response has its body as a view, which scripts may share when they made the response, and a flag
that the consuming methods test and set.  The getter `body` makes a stream of the same view each
time, without looking at the flag.

Which bytes a response has is recorded when it is made (`original`); what happens is recorded in a
history.  The code reads neither.
-/

namespace QuickBeam.Web.ResponseBody

open QuickBeam.Lib QuickBeam.Vm.Program QuickBeam.Text
open QuickBeam.Web.Blob (fresh decode Gives gives_fresh)
open QuickBeam.Web.Multipart (normalizeType)

/-! ### Responses -/

/-- What a response tells besides its body; of the headers, the content type. -/
structure Init where
  status : ℕ
  statusText : Binary
  url : Binary
  redirected : Bool
  contentType : Option Binary

structure Response where
  body : Option View
  bodyUsed : Bool
  init : Init

def Response.bytes (m : Buffers UInt8) (response : Response) : Buffers UInt8 × View :=
  match response.body with
  | some v => (m, v)
  | none => fresh m []

/-- `this.#body ? this.#body.slice() : null`. -/
def Response.copy (m : Buffers UInt8) (response : Response) : Buffers UInt8 × Option View :=
  match response.body with
  | some v =>
    let copy := fresh m (v.elems m)
    (copy.1, some copy.2)
  | none => (m, none)

/-- The methods that consume the body. -/
inductive Route
  | arrayBuffer
  | bytes
  | text
  | json
  | blob

/-- What they resolve to.  A `json` that cannot be parsed is an error of the parser. -/
inductive Yield (J : Type)
  | bytes (bytes : Binary)
  | text (text : Except String JSString)
  | json (value : Except String J)
  | blob (type bytes : Binary)
  deriving DecidableEq

inductive Happening (J : Type)
  | yielded (r : ℕ) (what : Yield J)
  | rejected (r : ℕ)
  | bodyUsed (r : ℕ) (flag : Bool)
  | cloned (r copy : ℕ)
  | cloneRejected (r : ℕ)
  deriving DecidableEq

structure State (J : Type) where
  memory : Buffers UInt8
  /-- The buffers that scripts hold. -/
  exposed : List ℕ
  responses : List Response
  /-- The streams that `body` made, with the chunks they hold until they are read. -/
  streams : List (ℕ × Option (List View))
  original : List Binary
  trace : List (Happening J)

variable {J : Type}

def initial : State J := ⟨[], [], [], [], [], []⟩

abbrev Parse (J : Type) := JSString → Except String J

section

variable (parse : Parse J)

/-- What a method makes of the consumed body, and the buffers that scripts get. -/
def Route.read (type : Binary) (m : Buffers UInt8) (v : View) :
    Route → Buffers UInt8 × List ℕ × Yield J
  | .arrayBuffer => (m, [v.buffer], .bytes (m.contents v.buffer))
  | .bytes => (m, [v.buffer], .bytes (v.elems m))
  | .text => (m, [], .text (decode (v.elems m)))
  | .json => (m, [], .json (decode (v.elems m) >>= parse))
  | .blob =>
    let copy := fresh m (v.elems m)
    (copy.1, [], .blob (normalizeType type) (copy.2.elems copy.1))

namespace State

variable (s : State J) (r : ℕ)

/-- `#consumeBody`, and then the rest of the method. -/
def consume (route : Route) : Option (State J) := do
  let response ← s.responses[r]?
  if response.bodyUsed then some { s with trace := s.trace ++ [.rejected r] }
  else
    let (m, v) := response.bytes s.memory
    let (m, held, what) := route.read parse (response.init.contentType.getD []) m v
    some { s with
      memory := m
      exposed := held ++ s.exposed
      responses := s.responses.set r { response with bodyUsed := true }
      trace := s.trace ++ [.yielded r what] }

def chunks (v : View) : List View := if v.length > 0 then [v] else []

def body : Option (State J) := do
  let response ← s.responses[r]?
  match response.body with
  | none => some s
  | some v => some { s with streams := s.streams ++ [(r, some (chunks v))] }

def read (stream : ℕ) : Option (State J) := do
  let (r, held) ← s.streams[stream]?
  let chunks ← held
  some { s with
    exposed := chunks.map View.buffer ++ s.exposed
    streams := s.streams.set stream (r, none)
    trace := s.trace ++ [.yielded r (.bytes (chunks.flatMap fun v => v.elems s.memory))] }

def clone : Option (State J) := do
  let response ← s.responses[r]?
  if response.bodyUsed then some { s with trace := s.trace ++ [.cloneRejected r] }
  else
    let (m, body) := response.copy s.memory
    some { s with
      memory := m
      responses := s.responses ++ [⟨body, false, response.init⟩]
      original := s.original ++ [s.original[r]?.getD []]
      trace := s.trace ++ [.cloned r s.responses.length] }

end State

/-! ### The machine -/

/-- What scripts do.  Responses are made by scripts from views they hold, or by the code (`fetch`,
`Response.json`, `Response.error`, `Response.redirect`) from bytes of its own. -/
inductive Step
  | alloc (bytes : Binary)
  | write (buffer k : ℕ) (x : UInt8)
  | construct (body : Option View) (init : Init)
  | receive (body : Option Binary) (init : Init)
  | bodyUsed (r : ℕ)
  | consume (r : ℕ) (route : Route)
  | body (r : ℕ)
  | read (stream : ℕ)
  | clone (r : ℕ)

def step (s : State J) : Step → Option (State J)
  | .alloc bytes =>
    some { s with memory := s.memory.alloc bytes, exposed := s.memory.length :: s.exposed }
  | .write buffer k x =>
    if buffer ∈ s.exposed then some { s with memory := s.memory.write buffer k x } else none
  | .construct body init =>
    if ∀ v ∈ body, v.buffer ∈ s.exposed ∧ v.Fits s.memory then
      some { s with
        responses := s.responses ++ [⟨body, false, init⟩]
        original := s.original ++ [(body.map fun v => v.elems s.memory).getD []] }
    else none
  | .receive none init =>
    some { s with responses := s.responses ++ [⟨none, false, init⟩], original := s.original ++ [[]] }
  | .receive (some bytes) init =>
    let (m, v) := fresh s.memory bytes
    some { s with
      memory := m
      responses := s.responses ++ [⟨some v, false, init⟩]
      original := s.original ++ [bytes] }
  | .bodyUsed r => do
    let response ← s.responses[r]?
    some { s with trace := s.trace ++ [.bodyUsed r response.bodyUsed] }
  | .consume r route => s.consume parse r route
  | .body r => s.body r
  | .read stream => s.read stream
  | .clone r => s.clone r

def machine : Machine (State J) Step where
  init s := s = initial
  step := step parse

/-! ### The law and its condition -/

def Consumed (past : List (Happening J)) (r : ℕ) : Prop := ∃ what, .yielded r what ∈ past

def Yield.Tells (bytes : Binary) : Yield J → Prop
  | .bytes said => said = bytes
  | .text t => t = decode bytes
  | .json value => value = (decode bytes >>= parse)
  | .blob _ said => said = bytes

/-- What may happen, given the past: the first consumption yields the bytes of the response and the
others are rejected, `bodyUsed` tells whether there was one, and a response is cloned, with its
bytes, exactly when there was none. -/
def Lawful (original : List Binary) (past : List (Happening J)) : Happening J → Prop
  | .yielded r what => ¬ Consumed past r ∧ ∃ bytes, original[r]? = some bytes ∧ what.Tells parse bytes
  | .rejected r => Consumed past r
  | .bodyUsed r flag => flag = true ↔ Consumed past r
  | .cloned r copy => ¬ Consumed past r ∧ ∃ bytes, original[r]? = some bytes ∧ original[copy]? = some bytes
  | .cloneRejected r => Consumed past r

def State.StreamRead (s : State J) (r : ℕ) : Prop := (r, none) ∈ s.streams

end

/-- The steps that keep the law.

* A write leaves the bodies alone that have not been consumed.
* `arrayBuffer` is used on a body that is a whole buffer.
* A body stream is read only as the first consumption, and the response is not used afterwards. -/
def Allowed (s : State J) : Step → Prop
  | .write buffer k _ => ∀ r < s.responses.length, ¬ s.StreamRead r →
      ∀ response : Response, response ∈ s.responses[r]? → response.bodyUsed = false →
        ∀ v ∈ response.body, ¬ v.Covers buffer k
  | .consume r .arrayBuffer => ¬ s.StreamRead r ∧
      ∀ response : Response, response ∈ s.responses[r]? → response.bodyUsed = false →
        ∀ v ∈ response.body, v.IsWhole s.memory
  | .consume r _ | .bodyUsed r | .clone r => ¬ s.StreamRead r
  | .read stream => ∀ entry ∈ s.streams[stream]?, ¬ s.StreamRead entry.1 ∧
      ∀ response : Response, response ∈ s.responses[entry.1]? → response.bodyUsed = false
  | _ => True

/-! ### The invariant -/

def Response.content (m : Buffers UInt8) (response : Response) : Binary :=
  (response.body.map fun v => v.elems m).getD []

structure Invariant (parse : Parse J) (s : State J) : Prop where
  lengths : s.original.length = s.responses.length
  fits : ∀ (r : ℕ) (response : Response), s.responses[r]? = some response →
    ∀ v ∈ response.body, v.Fits s.memory
  kept : ∀ (r : ℕ) (response : Response), s.responses[r]? = some response →
    response.bodyUsed = false → ¬ s.StreamRead r → s.original[r]? = some (response.content s.memory)
  consumed : ∀ (r : ℕ) (response : Response), s.responses[r]? = some response →
    (Consumed s.trace r ↔ response.bodyUsed = true ∨ s.StreamRead r)
  made : ∀ r, Consumed s.trace r ∨ s.StreamRead r → r < s.responses.length
  pending : ∀ (stream r : ℕ) (chunks : List View), s.streams[stream]? = some (r, some chunks) →
    ∃ response v, s.responses[r]? = some response ∧ response.body = some v ∧ chunks = State.chunks v
  lawful : History.Each (Lawful parse s.original) s.trace

section

variable {parse : Parse J} {s s' : State J} {past : List (Happening J)} {x : Happening J} {r : ℕ}
  {response : Response}

def Happening.harmless : Happening J → Prop
  | .yielded _ _ => False
  | _ => True

theorem consumed_append (hx : x.harmless) : Consumed (past ++ [x]) r ↔ Consumed past r := by
  constructor
  · rintro ⟨what, hmem⟩
    rcases List.mem_append.1 hmem with hmem | hmem
    · exact ⟨what, hmem⟩
    · rw [← List.mem_singleton.1 hmem] at hx
      exact hx.elim
  · rintro ⟨what, hmem⟩
    exact ⟨what, List.mem_append_left _ hmem⟩

theorem consumed_append_yielded {q : ℕ} {what : Yield J} :
    Consumed (past ++ [.yielded q what]) r ↔ Consumed past r ∨ r = q := by
  constructor
  · rintro ⟨what', hmem⟩
    rcases List.mem_append.1 hmem with hmem | hmem
    · exact .inl ⟨what', hmem⟩
    · cases List.mem_singleton.1 hmem
      exact .inr rfl
  · rintro (⟨what', hmem⟩ | rfl)
    · exact ⟨what', List.mem_append_left _ hmem⟩
    · exact ⟨what, List.mem_append_right _ List.mem_cons_self⟩

theorem content_extend {m m' : Buffers UInt8} (hm : m <+: m') (h : ∀ v ∈ response.body, v.Fits m) :
    response.content m' = response.content m := by
  unfold Response.content
  cases hbody : response.body with
  | none => rfl
  | some v => exact View.elems_extend (h v hbody) hm

theorem lawful_extend {original more : List Binary} (h : Lawful parse original past x) :
    Lawful parse (original ++ more) past x := by
  have hgrow : ∀ {i : ℕ} {b : Binary}, original[i]? = some b → (original ++ more)[i]? = some b :=
    fun hb => (List.getElem?_append_left (List.getElem?_eq_some_iff.1 hb).1).trans hb
  cases x with
  | yielded r what =>
    obtain ⟨hfirst, bytes, hbytes, htells⟩ := h
    exact ⟨hfirst, bytes, hgrow hbytes, htells⟩
  | cloned r copy =>
    obtain ⟨hfirst, bytes, hbytes, hcopy⟩ := h
    exact ⟨hfirst, bytes, hgrow hbytes, hgrow hcopy⟩
  | rejected r => exact h
  | bodyUsed r flag => exact h
  | cloneRejected r => exact h

theorem Invariant.grow (h : Invariant parse s) (hmemory : s.memory <+: s'.memory)
    (hresponses : s'.responses = s.responses) (hstreams : s'.streams = s.streams)
    (horiginal : s'.original = s.original) (htrace : s'.trace = s.trace) : Invariant parse s' where
  lengths := by rw [horiginal, hresponses, h.lengths]
  fits r response hr v hv := by
    rw [hresponses] at hr
    exact (h.fits r response hr v hv).extend hmemory
  kept r response hr hunused hstream := by
    rw [hresponses] at hr
    rw [State.StreamRead, hstreams] at hstream
    rw [horiginal, content_extend hmemory (h.fits r response hr)]
    exact h.kept r response hr hunused hstream
  consumed r response hr := by
    rw [hresponses] at hr
    rw [htrace, State.StreamRead, hstreams]
    exact h.consumed r response hr
  made r hr := by
    rw [htrace, State.StreamRead, hstreams] at hr
    rw [hresponses]
    exact h.made r hr
  pending := by
    rw [hstreams, hresponses]
    exact h.pending
  lawful := by
    rw [horiginal, htrace]
    exact h.lawful

theorem Invariant.record (h : Invariant parse s) (hx : x.harmless)
    (hlawful : Lawful parse s.original s.trace x) :
    Invariant parse { s with trace := s.trace ++ [x] } where
  __ := h
  consumed r response hr := (consumed_append hx).trans (h.consumed r response hr)
  made r hr := h.made r (hr.imp_left (consumed_append hx).1)
  lawful := History.each_append_singleton.2 ⟨h.lawful, hlawful⟩

theorem Invariant.addResponse (h : Invariant parse s) {body : Option View} (init : Init)
    {bytes : Binary} {memory : Buffers UInt8} (hmemory : s.memory <+: memory)
    (hfits : ∀ v ∈ body, v.Fits memory) (hbytes : (body.map fun v => v.elems memory).getD [] = bytes) :
    Invariant parse { s with
      memory := memory
      responses := s.responses ++ [⟨body, false, init⟩]
      original := s.original ++ [bytes] } := by
  have hcases : ∀ {r : ℕ} {response : Response},
      (s.responses ++ [(⟨body, false, init⟩ : Response)])[r]? = some response →
        s.responses[r]? = some response ∨
          r = s.responses.length ∧ response = ⟨body, false, init⟩ := by
    intro r response hr
    rcases Nat.lt_trichotomy r s.responses.length with hlt | rfl | hgt
    · exact .inl ((List.getElem?_append_left hlt).symm.trans hr)
    · have hlast : (s.responses ++ [(⟨body, false, init⟩ : Response)])[s.responses.length]? =
          some ⟨body, false, init⟩ := List.getElem?_concat_length
      exact .inr ⟨rfl, (Option.some_inj.1 (hlast.symm.trans hr)).symm⟩
    · have hnone : (s.responses ++ [(⟨body, false, init⟩ : Response)])[r]? = none :=
        List.getElem?_eq_none (by simp; omega)
      cases hnone.symm.trans hr
  have hnew : ¬ (Consumed s.trace s.responses.length ∨ s.StreamRead s.responses.length) :=
    fun hr => lt_irrefl _ (h.made _ hr)
  have hlast : (s.original ++ [bytes])[s.responses.length]? = some bytes := by
    rw [← h.lengths]
    exact List.getElem?_concat_length
  refine ⟨?_, ?_, ?_, ?_, ?_, ?_, h.lawful.imp fun _ _ => lawful_extend⟩
  · show (s.original ++ [bytes]).length = (s.responses ++ [_]).length
    rw [List.length_append, List.length_append, h.lengths]
    rfl
  · intro r response hr v hv
    rcases hcases hr with hr | ⟨-, rfl⟩
    · exact (h.fits r response hr v hv).extend hmemory
    · exact hfits v hv
  · intro r response hr hunused hstream
    rcases hcases hr with hr | ⟨rfl, rfl⟩
    · have hold := h.kept r response hr hunused hstream
      rw [content_extend hmemory (h.fits r response hr)]
      exact (List.getElem?_append_left (List.getElem?_eq_some_iff.1 hold).1).trans hold
    · exact hlast.trans (congrArg some hbytes.symm)
  · intro r response hr
    rcases hcases hr with hr | ⟨rfl, rfl⟩
    · exact h.consumed r response hr
    · rw [not_or] at hnew
      exact iff_of_false hnew.1 fun hor => hor.elim nofun hnew.2
  · intro r hr
    have hlt := h.made r hr
    show r < (s.responses ++ [_]).length
    rw [List.length_append]
    exact Nat.lt_add_right _ hlt
  · intro stream r chunks hstream
    obtain ⟨response, v, hr, hbody⟩ := h.pending stream r chunks hstream
    have hlt := (List.getElem?_eq_some_iff.1 hr).1
    exact ⟨response, v, (List.getElem?_append_left hlt).trans hr, hbody⟩

end

/-! ### The operations -/

section

variable {parse : Parse J} {s s' : State J} {r : ℕ} {response : Response}

theorem Invariant.write (h : Invariant parse s) {buffer k : ℕ} {x : UInt8}
    (hok : Allowed s (.write buffer k x)) :
    Invariant parse { s with memory := s.memory.write buffer k x } where
  __ := h
  fits r response hr v hv := (h.fits r response hr v hv).write
  kept r response hr hunused hstream := by
    have hlt := (List.getElem?_eq_some_iff.1 hr).1
    rw [h.kept r response hr hunused hstream]
    unfold Response.content
    cases hbody : response.body with
    | none => rfl
    | some v =>
      exact congrArg some (View.elems_write (hok r hlt hstream response hr hunused v hbody)).symm

theorem Invariant.yield (h : Invariant parse s) (hr : s.responses[r]? = some response)
    (hunused : response.bodyUsed = false) (hstream : ¬ s.StreamRead r) {what : Yield J}
    (htells : what.Tells parse (response.content s.memory)) :
    Invariant parse { s with
      responses := s.responses.set r { response with bodyUsed := true }
      trace := s.trace ++ [.yielded r what] } := by
  have hlt := (List.getElem?_eq_some_iff.1 hr).1
  have hfirst : ¬ Consumed s.trace r := by
    rw [h.consumed r response hr, hunused]
    exact fun hor => hor.elim nofun hstream
  have hcases : ∀ {q : ℕ} {other : Response},
      (s.responses.set r { response with bodyUsed := true })[q]? = some other →
        q = r ∧ other = { response with bodyUsed := true } ∨ q ≠ r ∧ s.responses[q]? = some other := by
    intro q other hq
    by_cases heq : r = q
    · subst heq
      rw [List.getElem?_set_self hlt] at hq
      exact .inl ⟨rfl, (Option.some_inj.1 hq).symm⟩
    · rw [List.getElem?_set_ne heq] at hq
      exact .inr ⟨Ne.symm heq, hq⟩
  refine ⟨?_, ?_, ?_, ?_, ?_, ?_, ?_⟩
  · exact h.lengths.trans List.length_set.symm
  · intro q other hq v hv
    rcases hcases hq with ⟨rfl, rfl⟩ | ⟨-, hq⟩
    · exact h.fits q response hr v hv
    · exact h.fits q other hq v hv
  · intro q other hq hother
    rcases hcases hq with ⟨rfl, rfl⟩ | ⟨-, hq⟩
    · cases hother
    · exact h.kept q other hq hother
  · intro q other hq
    show Consumed (s.trace ++ [_]) q ↔ _
    rw [consumed_append_yielded]
    rcases hcases hq with ⟨rfl, rfl⟩ | ⟨hne, hq⟩
    · exact iff_of_true (.inr rfl) (.inl rfl)
    · rw [or_iff_left hne]
      exact h.consumed q other hq
  · intro q hq
    show q < (s.responses.set r _).length
    rw [List.length_set]
    rcases hq with hq | hq
    · rcases consumed_append_yielded.1 hq with hq | rfl
      · exact h.made q (.inl hq)
      · exact hlt
    · exact h.made q (.inr hq)
  · intro stream q chunks hq
    obtain ⟨other, v, hother, hbody, hchunks⟩ := h.pending stream q chunks hq
    by_cases heq : r = q
    · subst heq
      cases hr.symm.trans hother
      exact ⟨_, v, List.getElem?_set_self hlt, hbody, hchunks⟩
    · exact ⟨other, v, (List.getElem?_set_ne heq).trans hother, hbody, hchunks⟩
  · refine History.each_append_singleton.2 ⟨h.lawful, hfirst, response.content s.memory, ?_, htells⟩
    exact h.kept r response hr hunused hstream

theorem Route.read_spec (parse : Parse J) (type : Binary) (route : Route) {m : Buffers UInt8} {v : View}
    (hwhole : route = .arrayBuffer → v.IsWhole m) :
    m <+: (route.read parse type m v).1 ∧ (route.read parse type m v).2.2.Tells parse (v.elems m) := by
  cases route with
  | arrayBuffer => exact ⟨List.prefix_rfl, (hwhole rfl).elems.symm⟩
  | bytes => exact ⟨List.prefix_rfl, rfl⟩
  | text => exact ⟨List.prefix_rfl, rfl⟩
  | json => exact ⟨List.prefix_rfl, rfl⟩
  | blob =>
    have hcopy := gives_fresh m (v.elems m)
    exact ⟨hcopy.grows, hcopy.elems⟩

variable {m : Buffers UInt8}

theorem Response.bytes_spec (P : Prop) (hwhole : P → ∀ v ∈ response.body, v.IsWhole m) :
    m <+: (response.bytes m).1 ∧
      (response.bytes m).2.elems (response.bytes m).1 = response.content m ∧
      (P → (response.bytes m).2.IsWhole (response.bytes m).1) := by
  unfold Response.bytes Response.content
  cases hbody : response.body with
  | some v => exact ⟨List.prefix_rfl, rfl, fun hP => hwhole hP v hbody⟩
  | none =>
    have hfresh := gives_fresh m []
    refine ⟨hfresh.grows, hfresh.elems, fun _ => ?_⟩
    show (⟨m.length, 0, 0⟩ : View) = View.whole (m.alloc []) m.length
    rw [View.whole, Buffers.contents_alloc_length]
    rfl

theorem Response.copy_spec (m : Buffers UInt8) (response : Response) :
    m <+: (response.copy m).1 ∧ (∀ v ∈ (response.copy m).2, v.Fits (response.copy m).1) ∧
      ((response.copy m).2.map fun v => v.elems (response.copy m).1).getD [] = response.content m := by
  unfold Response.copy Response.content
  cases hbody : response.body with
  | some v =>
    have hcopy := gives_fresh m (v.elems m)
    refine ⟨hcopy.grows, fun w hw => ?_, hcopy.elems⟩
    cases hw
    exact hcopy.fits
  | none => exact ⟨List.prefix_rfl, nofun, rfl⟩

variable {route : Route}

theorem not_streamRead_of_allowed (hok : Allowed s (.consume r route)) : ¬ s.StreamRead r := by
  cases route with
  | arrayBuffer => exact hok.1
  | _ => exact hok

theorem Invariant.consume (h : Invariant parse s) (hok : Allowed s (.consume r route))
    (hstep : s.consume parse r route = some s') : Invariant parse s' := by
  obtain ⟨response, hr, hstep⟩ := Option.bind_eq_some_iff.1 hstep
  have hstream := not_streamRead_of_allowed hok
  split at hstep
  · rename_i hused
    cases hstep
    exact h.record trivial ((h.consumed r response hr).2 (.inl hused))
  · rename_i hused
    have hunused := Bool.eq_false_iff.2 hused
    have hwhole : route = .arrayBuffer → ∀ v ∈ response.body, v.IsWhole s.memory := by
      rintro rfl
      exact hok.2 response hr hunused
    obtain ⟨hgrows, hcontent, hview⟩ := Response.bytes_spec (route = .arrayBuffer) hwhole
    obtain ⟨hroute, htells⟩ := Route.read_spec parse (response.init.contentType.getD []) route hview
    rw [hcontent] at htells
    cases hstep
    exact (h.yield hr hunused hstream htells).grow (hgrows.trans hroute) rfl rfl rfl rfl

theorem Invariant.body (h : Invariant parse s) (hstep : s.body r = some s') : Invariant parse s' := by
  obtain ⟨response, hr, hstep⟩ := Option.bind_eq_some_iff.1 hstep
  cases hbody : response.body with
  | none =>
    rw [hbody] at hstep
    cases hstep
    exact h
  | some v =>
    rw [hbody] at hstep
    cases hstep
    have hread : ∀ q, State.StreamRead { s with
        streams := s.streams ++ [(r, some (State.chunks v))] } q ↔ s.StreamRead q := by
      intro q
      show _ ∈ s.streams ++ [_] ↔ _ ∈ s.streams
      simp
    refine ⟨h.lengths, h.fits, ?_, ?_, ?_, ?_, h.lawful⟩
    · intro q other hq hunused hstream
      rw [hread] at hstream
      exact h.kept q other hq hunused hstream
    · intro q other hq
      rw [hread]
      exact h.consumed q other hq
    · intro q hq
      rw [hread] at hq
      exact h.made q hq
    · intro stream q chunks hstream
      rcases Nat.lt_trichotomy stream s.streams.length with hlt | rfl | hgt
      · exact h.pending stream q chunks ((List.getElem?_append_left hlt).symm.trans hstream)
      · have hlast : (s.streams ++ [(r, some (State.chunks v))])[s.streams.length]? =
            some (r, some (State.chunks v)) := List.getElem?_concat_length
        cases hlast.symm.trans hstream
        exact ⟨response, v, hr, hbody, rfl⟩
      · have hnone : (s.streams ++ [(r, some (State.chunks v))])[stream]? = none :=
          List.getElem?_eq_none (by simp; omega)
        cases hnone.symm.trans hstream

variable {v : View}

theorem elems_chunks (hfits : v.Fits m) :
    ((State.chunks v).flatMap fun v => v.elems m) = v.elems m := by
  unfold State.chunks
  split
  · exact List.flatMap_singleton ..
  · rename_i hempty
    have hnil : v.elems m = [] := by
      rw [← List.length_eq_zero_iff, View.length_elems hfits]
      omega
    rw [hnil]
    rfl

theorem Invariant.read (h : Invariant parse s) {stream : ℕ} (hok : Allowed s (.read stream))
    (hstep : s.read stream = some s') : Invariant parse s' := by
  obtain ⟨⟨r, held⟩, hstream, hstep⟩ := Option.bind_eq_some_iff.1 hstep
  obtain ⟨chunks, hheld, hstep⟩ := Option.bind_eq_some_iff.1 hstep
  cases hheld
  cases hstep
  obtain ⟨hnotRead, hunused⟩ := hok _ hstream
  obtain ⟨response, v, hr, hbody, rfl⟩ := h.pending stream r chunks hstream
  have hfalse := hunused response hr
  have hlt := (List.getElem?_eq_some_iff.1 hr).1
  have hslt := (List.getElem?_eq_some_iff.1 hstream).1
  have hfirst : ¬ Consumed s.trace r := by
    rw [h.consumed r response hr, hfalse]
    exact fun hor => hor.elim nofun hnotRead
  have hread : ∀ q, (q, none) ∈ s.streams.set stream (r, none) ↔ (q, none) ∈ s.streams ∨ q = r := by
    intro q
    constructor
    · intro hmem
      rcases List.mem_or_eq_of_mem_set hmem with hmem | heq
      · exact .inl hmem
      · cases heq
        exact .inr rfl
    · rintro (hmem | rfl)
      · obtain ⟨i, hi⟩ := List.mem_iff_getElem?.1 hmem
        have hne : stream ≠ i := by
          rintro rfl
          cases hi.symm.trans hstream
        exact List.mem_iff_getElem?.2 ⟨i, (List.getElem?_set_ne hne).trans hi⟩
      · exact List.mem_iff_getElem?.2 ⟨stream, List.getElem?_set_self hslt⟩
  refine ⟨h.lengths, h.fits, ?_, ?_, ?_, ?_, ?_⟩
  · intro q other hq hother hstream'
    rw [State.StreamRead, hread, not_or] at hstream'
    exact h.kept q other hq hother hstream'.1
  · intro q other hq
    show Consumed (s.trace ++ [_]) q ↔ _
    rw [consumed_append_yielded, State.StreamRead, hread, h.consumed q other hq, or_assoc]
    rfl
  · intro q hq
    rcases hq with hq | hq
    · rcases consumed_append_yielded.1 hq with hq | rfl
      · exact h.made q (.inl hq)
      · exact hlt
    · rcases (hread q).1 hq with hq | rfl
      · exact h.made q (.inr hq)
      · exact hlt
  · intro i q chunks hi
    by_cases heq : stream = i
    · subst heq
      have hset : (s.streams.set stream (r, none))[stream]? = some (r, none) :=
        List.getElem?_set_self hslt
      cases hset.symm.trans hi
    · exact h.pending i q chunks ((List.getElem?_set_ne heq).symm.trans hi)
  · refine History.each_append_singleton.2 ⟨h.lawful, hfirst, v.elems s.memory, ?_, ?_⟩
    · rw [h.kept r response hr hfalse hnotRead, Response.content, hbody]
      rfl
    · exact elems_chunks (h.fits r response hr v hbody)

theorem Invariant.clone (h : Invariant parse s) (hok : Allowed s (.clone r))
    (hstep : s.clone r = some s') : Invariant parse s' := by
  obtain ⟨response, hr, hstep⟩ := Option.bind_eq_some_iff.1 hstep
  split at hstep
  · rename_i hused
    cases hstep
    exact h.record trivial ((h.consumed r response hr).2 (.inl hused))
  · rename_i hused
    have hunused := Bool.eq_false_iff.2 hused
    have hkept := h.kept r response hr hunused hok
    obtain ⟨hgrows, hfits, hcontent⟩ := Response.copy_spec s.memory response
    cases hstep
    rw [hkept]
    refine (h.addResponse response.init hgrows hfits hcontent).record trivial ?_
    refine ⟨?_, response.content s.memory, ?_, ?_⟩
    · show ¬ Consumed s.trace r
      rw [h.consumed r response hr, hunused]
      exact fun hor => hor.elim nofun hok
    · exact (List.getElem?_append_left (List.getElem?_eq_some_iff.1 hkept).1).trans hkept
    · show (s.original ++ [_])[s.responses.length]? = _
      rw [← h.lengths]
      exact List.getElem?_concat_length

end

/-! ### Steps and runs -/

/-- **The step lemma.** -/
theorem Invariant.step {parse : Parse J} {s s' : State J} {e : Step} (h : Invariant parse s)
    (hok : Allowed s e) (hstep : step parse s e = some s') : Invariant parse s' := by
  cases e with
  | alloc bytes =>
    cases hstep
    exact h.grow Buffers.prefix_alloc rfl rfl rfl rfl
  | write buffer k x =>
    obtain ⟨-, hstep⟩ := Option.ite_none_right_eq_some.1 hstep
    cases hstep
    exact h.write hok
  | construct body init =>
    obtain ⟨hheld, hstep⟩ := Option.ite_none_right_eq_some.1 hstep
    cases hstep
    exact h.addResponse init List.prefix_rfl (fun v hv => (hheld v hv).2) rfl
  | receive body init =>
    cases body with
    | none =>
      cases hstep
      exact h.addResponse init List.prefix_rfl nofun rfl
    | some bytes =>
      cases hstep
      have hfresh := gives_fresh s.memory bytes
      refine h.addResponse init hfresh.grows (fun v hv => ?_) hfresh.elems
      cases hv
      exact hfresh.fits
  | bodyUsed r =>
    obtain ⟨response, hr, hstep⟩ := Option.bind_eq_some_iff.1 hstep
    cases hstep
    refine h.record trivial ?_
    show response.bodyUsed = true ↔ Consumed s.trace r
    rw [h.consumed r response hr, or_iff_left hok]
  | consume r route => exact h.consume hok hstep
  | body r => exact h.body hstep
  | read stream => exact h.read hok hstep
  | clone r => exact h.clone hok hstep

theorem invariant_initial (parse : Parse J) : Invariant parse initial := by
  refine ⟨rfl, nofun, nofun, nofun, fun r hr => ?_, nofun, History.each_nil⟩
  rcases hr with ⟨what, hmem⟩ | hmem
  · cases hmem
  · cases hmem

/-- In a run of allowed steps each response is consumed once, and yields its bytes. -/
theorem bodies_consumed_once {parse : Parse J} {s : State J}
    (h : (machine parse).ReachableIf Allowed s) :
    History.Each (Lawful parse s.original) s.trace := by
  have hinv : Invariant parse s := by
    refine Machine.ReachableIf.invariant ?_ (fun s e s' h hok hstep => h.step hok hstep) h
    rintro s rfl
    exact invariant_initial parse
  exact hinv.lawful

/-! ### Runs -/

instance (s : State J) (r : ℕ) : Decidable (s.StreamRead r) :=
  inferInstanceAs (Decidable (_ ∈ s.streams))

instance (s : State J) (e : Step) : Decidable (Allowed s e) :=
  match e with
  | .write _ _ _ => inferInstanceAs (Decidable (∀ r < s.responses.length, _))
  | .consume _ .arrayBuffer => inferInstanceAs (Decidable (_ ∧ _))
  | .consume r .bytes | .consume r .text | .consume r .json | .consume r .blob | .bodyUsed r
  | .clone r => inferInstanceAs (Decidable (¬ s.StreamRead r))
  | .read stream => inferInstanceAs (Decidable (∀ entry ∈ s.streams[stream]?, _))
  | .alloc _ | .construct _ _ | .receive _ _ | .body _ => inferInstanceAs (Decidable True)

def lengthOf : Parse ℕ := fun t => .ok t.length

def ok : Init := ⟨200, [], [], false, none⟩

/-- A fetched response, cloned; the first is read as bytes, which the script overwrites, then as
text; the clone is read as text. -/
def plainRun : List Step :=
  [.receive (some [65, 66]) ok, .bodyUsed 0, .clone 0, .consume 0 .bytes, .write 0 0 67, .bodyUsed 0,
    .consume 0 .text, .clone 0, .consume 1 .text]

def streamRun : List Step :=
  [.receive (some [65, 66]) ok, .body 0, .read 0, .consume 0 .bytes]

/-- `arrayBuffer` of a response made from a part of a buffer. -/
def subarrayRun : List Step :=
  [.alloc [1, 2, 3, 4], .construct (some ⟨0, 1, 2⟩) ok, .consume 0 .arrayBuffer]

/-- The buffer that a response was made from is overwritten. -/
def writeRun : List Step :=
  [.alloc [65], .construct (some ⟨0, 0, 1⟩) ok, .write 0 0 66, .consume 0 .text]

def Unlawful (run : List Step) : Prop :=
  ∃ s, (machine lengthOf).exec initial run = some s ∧
    ¬ History.Each (Lawful lengthOf s.original) s.trace

theorem runs_eval :
    ((machine lengthOf).execIf (fun s e => decide (Allowed s e)) initial plainRun).map State.trace =
        some [.bodyUsed 0 false, .cloned 0 1, .yielded 0 (.bytes [65, 66]), .bodyUsed 0 true,
          .rejected 0, .cloneRejected 0, .yielded 1 (.text (.ok [65, 66]))] ∧
      ((machine lengthOf).exec initial streamRun).map (fun s => (s.original, s.trace)) =
        some ([[65, 66]], [.yielded 0 (.bytes [65, 66])] ++ [.yielded 0 (.bytes [65, 66])]) ∧
      ((machine lengthOf).exec initial subarrayRun).map (fun s => (s.original, s.trace)) =
        some ([[2, 3]], [] ++ [.yielded 0 (.bytes [1, 2, 3, 4])]) ∧
      ((machine lengthOf).exec initial writeRun).map (fun s => (s.original, s.trace)) =
        some ([[65]], [] ++ [.yielded 0 (.text (.ok [66]))]) ∧
      decode [65] = .ok [65] := by
  decide +kernel

theorem bodies_consumed_once_plain : ∃ s, (machine lengthOf).ReachableIf Allowed s ∧
    s.trace.length = 7 ∧ History.Each (Lawful lengthOf s.original) s.trace := by
  obtain ⟨s, hexec, htrace⟩ := Option.map_eq_some_iff.1 runs_eval.1
  have hrun := Machine.guardedRun_of_execIf hexec
  simp only [decide_eq_true_eq] at hrun
  have hreach : (machine lengthOf).ReachableIf Allowed s := ⟨initial, plainRun, rfl, hrun⟩
  exact ⟨s, hreach, by rw [htrace]; rfl, bodies_consumed_once hreach⟩

theorem unlawful_of_last {run : List Step} {original : List Binary} {past : List (Happening ℕ)}
    {x : Happening ℕ}
    (h : ((machine lengthOf).exec initial run).map (fun s => (s.original, s.trace)) =
      some (original, past ++ [x])) (hx : ¬ Lawful lengthOf original past x) : Unlawful run := by
  obtain ⟨s, hexec, hend⟩ := Option.map_eq_some_iff.1 h
  obtain ⟨rfl, htrace⟩ := Prod.mk.inj hend
  refine ⟨s, hexec, fun hall => hx ?_⟩
  rw [htrace] at hall
  exact (History.each_append_singleton.1 hall).2

/-- A body stream does not consume, `arrayBuffer` yields bytes that are not in the body, and the
body follows the buffer it was made from. -/
theorem not_bodies_consumed_once : Unlawful streamRun ∧ Unlawful subarrayRun ∧ Unlawful writeRun := by
  obtain ⟨-, hstream, hsubarray, hwrite, hdecode⟩ := runs_eval
  refine ⟨unlawful_of_last hstream fun h => ?_, unlawful_of_last hsubarray fun h => ?_,
    unlawful_of_last hwrite fun h => ?_⟩
  · exact h.1 ⟨_, List.mem_cons_self⟩
  · obtain ⟨-, bytes, hbytes, htells⟩ := h
    cases hbytes
    cases htells
  · obtain ⟨-, bytes, hbytes, htells⟩ := h
    cases hbytes
    have htext : (.ok [66] : Except String JSString) = .ok [65] := htells.trans hdecode
    cases htext

end QuickBeam.Web.ResponseBody
