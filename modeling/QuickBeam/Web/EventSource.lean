import QuickBeam.Lib.EventStream
import QuickBeam.Lib.Splitting
import QuickBeam.Vm.Program.Function

/-!
# Server-sent events (`event_source.ex`, `event-source.ts`)

The task of an `EventSource` gathers the chunks of a response, cuts what it has at the blank lines
and sends an event for every block with data; the runtime passes the event on, and the object adds
the last id.  `emits` compares this with the event-stream interpretation of the HTML standard.
-/

namespace QuickBeam.Web.EventSource

open QuickBeam.Lib QuickBeam.Lib.EventStream QuickBeam.Lib.Splitting
open QuickBeam.Lib.FirstMark
open QuickBeam.Vm.Program.Binary (ofString)

/-! ### The task -/

inductive Message where
  | streamStart
  | stream (chunk : Text)
  | streamEnd
  | error (reason : Text)
  | timeout

structure SseEvent where
  type : Text
  data : Text
  id : Option Text
deriving DecidableEq

/-- What the task sends to the runtime. -/
inductive Sent where
  | event (event : SseEvent)
  | error (reason : Text)

/-- The accumulator of `parse_sse_block`. -/
structure Fields where
  type : Text
  data : List Text
  id : Option Text

/-- `String.trim_leading/2` takes the literal off as long as the text starts with it. -/
def trimLeadingWithin (literal : Text) : ℕ → Text → Text
  | 0, text => text
  | fuel + 1, text =>
    if literal.isPrefixOf text then trimLeadingWithin literal fuel (text.drop literal.length) else text

def trimLeading (text literal : Text) : Text := trimLeadingWithin literal text.length text

def startsWith (line literal : Text) : Bool := literal.isPrefixOf line

def parseLine (acc : Fields) (line : Text) : Fields :=
  if startsWith line (ofString "data: ") then
    { acc with data := acc.data ++ [trimLeading line (ofString "data: ")] }
  else if startsWith line (ofString "data:") then
    { acc with data := acc.data ++ [trimLeading line (ofString "data:")] }
  else if startsWith line (ofString "event: ") then
    { acc with type := trimLeading line (ofString "event: ") }
  else if startsWith line (ofString "event:") then
    { acc with type := trimLeading line (ofString "event:") }
  else if startsWith line (ofString "id: ") then
    { acc with id := some (trimLeading line (ofString "id: ")) }
  else if startsWith line (ofString "id:") then
    { acc with id := some (trimLeading line (ofString "id:")) }
  else acc

/-- `Enum.join(data, "\n")`, where there is data. -/
def toEvent (acc : Fields) : Option SseEvent :=
  if acc.data = [] then none else some ⟨acc.type, [lf].intercalate acc.data, acc.id⟩

def parseSseBlock (block : Text) : Option SseEvent :=
  toEvent ((block.splitOn lf).foldl parseLine ⟨ofString "message", [], none⟩)

def blank : Text := [lf, lf]

def parseSseEvents (buffer : Text) : List SseEvent × Text :=
  match split blank buffer with
  | [single] => ([], single)
  | chunks => ((chunks.dropLast.filter (· ≠ [])).filterMap parseSseBlock, chunks.getLastD [])

def streamLoop : List Message → Text → List Sent
  | [], _ => []
  | .streamStart :: messages, buffer => streamLoop messages buffer
  | .stream chunk :: messages, buffer =>
    let (events, remaining) := parseSseEvents (buffer ++ chunk)
    events.map .event ++ streamLoop messages remaining
  | .streamEnd :: _, _ => [.error (ofString "connection closed")]
  | .error reason :: _, _ => [.error reason]
  | .timeout :: _, _ => [.error (ofString "timeout")]

/-! ### The object -/

def onEvents (lastEventId : Text) : List Sent → List Event
  | [] => []
  | .event event :: sent =>
    let id := event.id.getD lastEventId
    ⟨event.type, event.data, id⟩ :: onEvents id sent
  | .error _ :: sent => onEvents lastEventId sent

/-- The events of an `EventSource` whose task receives the messages. -/
def emitted (messages : List Message) : List Event := onEvents [] (streamLoop messages [])

def received : List Message → Text
  | .streamStart :: messages => received messages
  | .stream chunk :: messages => chunk ++ received messages
  | _ => []

/-! ### Streams that are read as the standard reads them -/

def fieldNames : List Text := [eventName, dataName, idName]

/-- How the code finds a field. -/
def literalOf (name value : Text) : Text :=
  if value.head? = some space then name ++ [colon, space] else name ++ [colon]

/-- A line on which a field has its colon and a value that does not start with the field again; a
type is not empty, and an id has no zero. -/
def plainLine (line : Text) : Bool :=
  match splitFirst colon line with
  | (name, none) => name ∉ fieldNames
  | (name, some text) =>
    name ∈ fieldNames → (literalOf name text).isPrefixOf (dropSpace text) = false ∧
      (name = eventName → dropSpace text ≠ []) ∧ (name = idName → 0 ∉ dropSpace text)

def plainBlock (block : List Text) : Bool :=
  block.all plainLine && (block.all (fun line => (field line).1 ≠ idName) ||
    block.any fun line => (field line).1 = dataName)

def Plain (stream : Text) : Prop :=
  ∀ block ∈ ((lfLines stream).splitOn []).dropLast, plainBlock block

instance (stream : Text) : Decidable (Plain stream) :=
  inferInstanceAs (Decidable (∀ block ∈ ((lfLines stream).splitOn []).dropLast, plainBlock block))

/-! ### Lines -/

theorem literals :
    ofString "data: " = dataName ++ [colon, space] ∧
      ofString "data:" = dataName ++ [colon] ∧
      ofString "event: " = eventName ++ [colon, space] ∧
      ofString "event:" = eventName ++ [colon] ∧
      ofString "id: " = idName ++ [colon, space] ∧
      ofString "id:" = idName ++ [colon] ∧ ofString "message" = messageType ∧
      eventName ≠ dataName ∧ idName ≠ dataName ∧ idName ≠ eventName ∧
      ∀ name ∈ fieldNames, colon ∉ name := by
  decide

theorem trimLeading_once {literal value : Text} (hne : literal ≠ [])
    (h : literal.isPrefixOf value = false) : trimLeading (literal ++ value) literal = value := by
  obtain ⟨n, hn⟩ : ∃ n, (literal ++ value).length = n + 1 := by
    have hpos := List.length_pos_of_ne_nil hne
    exact ⟨(literal ++ value).length - 1, by rw [List.length_append]; omega⟩
  have hstop : trimLeadingWithin literal n value = value := by
    cases n with
    | zero => rfl
    | succ n =>
      unfold trimLeadingWithin
      rw [h, if_neg Bool.false_ne_true]
  unfold trimLeading
  rw [hn, trimLeadingWithin, List.drop_left, hstop,
    if_pos (List.isPrefixOf_iff_prefix.2 (List.prefix_append _ _))]

/-- A text with a colon starts with another if the names agree, and what is behind the colons. -/
theorem startsWith_iff {name other : Text} (hname : colon ∉ name) (hother : colon ∉ other)
    (text tail : Text) :
    startsWith (name ++ colon :: text) (other ++ colon :: tail) = true ↔
      name = other ∧ tail.isPrefixOf text = true := by
  unfold startsWith
  rw [List.isPrefixOf_iff_prefix, List.isPrefixOf_iff_prefix]
  constructor
  · rintro ⟨more, h⟩
    rw [List.append_assoc] at h
    have hcut := congrArg (splitFirst colon) h
    rw [show other ++ (colon :: tail ++ more) = other ++ marked colon (some (tail ++ more)) from rfl,
      show name ++ colon :: text = name ++ marked colon (some text) from rfl,
      splitFirst_append hother, splitFirst_append hname] at hcut
    obtain ⟨hsame, htext⟩ := Prod.mk.inj hcut
    exact ⟨hsame.symm, more, Option.some.inj htext⟩
  · rintro ⟨rfl, more, rfl⟩
    exact ⟨more, by rw [List.append_assoc]; rfl⟩

theorem pick {β : Type} {line : Text} (h : plainLine line = true) {name : Text}
    (hname : name ∈ fieldNames) (f : Text → β) (other : β) :
    (if startsWith line (name ++ [colon, space]) then f (trimLeading line (name ++ [colon, space]))
      else if startsWith line (name ++ [colon]) then f (trimLeading line (name ++ [colon]))
      else other) = if (field line).1 = name then f (field line).2 else other := by
  have hcolon := literals.2.2.2.2.2.2.2.2.2.2 name hname
  have hjoin := splitFirst_join colon line
  have hfree := not_mem_splitFirst colon line
  unfold plainLine at h
  unfold field
  cases hcut : splitFirst colon line with
  | mk first text? =>
  rw [hcut] at h hjoin hfree
  dsimp only at h hjoin hfree ⊢
  cases text? with
  | none =>
    have hline : line = first := hjoin.symm.trans (List.append_nil _)
    have hnot : ∀ tail, startsWith line (name ++ colon :: tail) = false := fun tail => by
      refine Bool.eq_false_iff.2 fun hprefix => hfree (hline ▸ ?_)
      exact (List.isPrefixOf_iff_prefix.1 hprefix).subset
        (List.mem_append_right _ List.mem_cons_self)
    have hne : first ≠ name := fun heq => of_decide_eq_true h (heq ▸ hname)
    rw [hnot, hnot, if_neg Bool.false_ne_true, if_neg Bool.false_ne_true, if_neg hne]
  | some text =>
    have hline : line = first ++ colon :: text := hjoin.symm
    subst hline
    have hplain := of_decide_eq_true h
    by_cases hsame : first = name
    · subst hsame
      obtain ⟨honce, -⟩ := hplain hname
      have hlong := startsWith_iff hfree hfree text [space]
      have hshort := startsWith_iff hfree hfree text []
      unfold literalOf at honce
      by_cases hhead : text.head? = some space
      · obtain ⟨t, rfl⟩ := List.head?_eq_some_iff.1 hhead
        rw [if_pos hhead] at honce
        rw [if_pos (hlong.2 ⟨rfl, rfl⟩), if_pos rfl]
        have hsplit : first ++ colon :: space :: t = (first ++ [colon, space]) ++ t := by
          rw [List.append_assoc]
          rfl
        rw [hsplit]
        exact congrArg f (trimLeading_once (by simp) honce)
      · have hvalue : dropSpace text = text := by
          unfold dropSpace
          split
          · exact absurd rfl hhead
          · rfl
        have hnot : ¬ startsWith (first ++ colon :: text) (first ++ [colon, space]) = true := by
          intro hprefix
          obtain ⟨more, rfl⟩ := List.isPrefixOf_iff_prefix.1 (hlong.1 hprefix).2
          exact hhead rfl
        rw [if_neg hhead, hvalue] at honce
        have hsplit : first ++ colon :: text = (first ++ [colon]) ++ text := by
          rw [List.append_assoc]
          rfl
        rw [if_neg hnot, if_pos (hshort.2 ⟨rfl, rfl⟩), if_pos rfl, Option.getD_some, hvalue]
        rw [hsplit, trimLeading_once (by simp) honce]
    · have hnot : ∀ tail, startsWith (first ++ colon :: text) (name ++ colon :: tail) = false :=
        fun tail => Bool.eq_false_iff.2 fun hprefix =>
          hsame ((startsWith_iff hfree hcolon text tail).1 hprefix).1
      rw [hnot, hnot, if_neg Bool.false_ne_true, if_neg Bool.false_ne_true, if_neg hsame]

theorem plain_value {line : Text} (h : plainLine line = true) :
    ((field line).1 = eventName → (field line).2 ≠ []) ∧
      ((field line).1 = idName → 0 ∉ (field line).2) := by
  unfold plainLine at h
  unfold field
  cases hcut : splitFirst colon line with
  | mk name text? =>
  rw [hcut] at h
  cases text? with
  | none =>
    have hnot : name ∉ fieldNames := of_decide_eq_true h
    exact ⟨fun (heq : name = eventName) => absurd (heq ▸ by decide) hnot,
      fun (heq : name = idName) => absurd (heq ▸ by decide) hnot⟩
  | some text =>
    have hall := of_decide_eq_true h
    exact ⟨fun (heq : name = eventName) => (hall (heq ▸ by decide)).2.1 heq,
      fun (heq : name = idName) => (hall (heq ▸ by decide)).2.2 heq⟩

theorem parseLine_plain {line : Text} (h : plainLine line = true) (acc : Fields) :
    parseLine acc line =
      if (field line).1 = dataName then { acc with data := acc.data ++ [(field line).2] }
      else if (field line).1 = eventName then { acc with type := (field line).2 }
      else if (field line).1 = idName then { acc with id := some (field line).2 }
      else acc := by
  obtain ⟨hdata, hdata', hevent, hevent', hid, hid', -⟩ := literals
  unfold parseLine
  rw [hdata, hdata', hevent, hevent', hid, hid']
  have hpick := fun name hname => @pick Fields line h name hname
  rw [hpick idName (by decide) (fun value => { acc with id := some value }) acc,
    hpick eventName (by decide) (fun value => { acc with type := value }),
    hpick dataName (by decide) (fun value => { acc with data := acc.data ++ [value] })]

/-! ### Blocks -/

/-- The accumulator and the buffers of the standard, from the last id `id` on. -/
structure Agree (id : Text) (acc : Fields) (b : Buffers) : Prop where
  data : b.data = acc.data.flatMap (· ++ [lf])
  type : acc.type = if b.eventType = [] then messageType else b.eventType
  id : b.lastEventId = acc.id.getD id

theorem Agree.parseLine {id : Text} {acc : Fields} {b : Buffers} (h : Agree id acc b)
    {line : Text} (hplain : plainLine line = true) :
    Agree id (parseLine acc line) (process b line) := by
  obtain ⟨-, -, -, -, -, -, -, hed, hid, hie, -⟩ := literals
  rw [parseLine_plain hplain]
  have hvalue := plain_value hplain
  unfold process
  dsimp only
  by_cases hdata : (field line).1 = dataName
  · rw [if_pos hdata, hdata, if_neg (Ne.symm hed), if_pos rfl]
    refine ⟨?_, h.type, h.id⟩
    show b.data ++ (field line).2 ++ [lf] = _
    rw [List.flatMap_append, List.flatMap_singleton, h.data, List.append_assoc]
  · rw [if_neg hdata]
    by_cases hevent : (field line).1 = eventName
    · rw [if_pos hevent, if_pos hevent]
      exact ⟨h.data, (if_neg (hvalue.1 hevent)).symm, h.id⟩
    · rw [if_neg hevent, if_neg hevent, if_neg hdata]
      by_cases hidName : (field line).1 = idName
      · rw [if_pos hidName, if_pos ⟨hidName, hvalue.2 hidName⟩]
        exact ⟨h.data, h.type, rfl⟩
      · rw [if_neg hidName, if_neg fun hboth => hidName hboth.1]
        exact h

theorem Agree.foldl {id : Text} {lines : List Text} (hplain : ∀ line ∈ lines, plainLine line = true) :
    ∀ {acc : Fields} {b : Buffers}, Agree id acc b →
      Agree id (lines.foldl EventSource.parseLine acc) (lines.foldl process b) := by
  induction lines with
  | nil => exact fun h => h
  | cons line lines ih =>
    obtain ⟨hline, hlines⟩ := List.forall_mem_cons.1 hplain
    exact fun h => ih hlines (h.parseLine hline)

end QuickBeam.Web.EventSource
