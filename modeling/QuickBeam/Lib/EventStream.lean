import QuickBeam.Lib.FirstMark

/-!
# Event streams

The interpretation of an event stream in the HTML standard: its lines, the fields on them, and the
events that blank lines dispatch.  A text is its bytes; an unfinished line at the end of the stream
is left out, as is what it and the lines before it would have been dispatched with.
-/

namespace QuickBeam.Lib.EventStream

open FirstMark

abbrev Text := List UInt8

def lf : UInt8 := 0x0A

def cr : UInt8 := 0x0D

def colon : UInt8 := 0x3A

def space : UInt8 := 0x20

def eventName : Text := [0x65, 0x76, 0x65, 0x6E, 0x74]

def dataName : Text := [0x64, 0x61, 0x74, 0x61]

def idName : Text := [0x69, 0x64]

def messageType : Text := [0x6D, 0x65, 0x73, 0x73, 0x61, 0x67, 0x65]

def lines : Text → List Text
  | [] => []
  | 0x0D :: 0x0A :: t => [] :: lines t
  | c :: t => if c = lf ∨ c = cr then [] :: lines t else (lines t).modifyHead (c :: ·)

def lfLines (stream : Text) : List Text := (stream.splitOn lf).dropLast

structure Event where
  type : Text
  data : Text
  lastEventId : Text
deriving DecidableEq

structure Buffers where
  data : Text
  eventType : Text
  lastEventId : Text

def start : Buffers := ⟨[], [], []⟩

def dropSpace : Text → Text
  | 0x20 :: t => t
  | t => t

/-- The name of the field that a line is, and its value without one leading space. -/
def field (line : Text) : Text × Text :=
  ((splitFirst colon line).1, dropSpace ((splitFirst colon line).2.getD []))

def process (b : Buffers) (line : Text) : Buffers :=
  let (name, value) := field line
  if name = eventName then { b with eventType := value }
  else if name = dataName then { b with data := b.data ++ value ++ [lf] }
  else if name = idName ∧ 0 ∉ value then { b with lastEventId := value }
  else b

/-- The event that a blank line dispatches; without data there is none. -/
def dispatched (b : Buffers) : List Event :=
  if b.data = [] then []
  else [⟨if b.eventType = [] then messageType else b.eventType, b.data.dropLast, b.lastEventId⟩]

theorem process_nil (b : Buffers) : process b [] = b := rfl

end QuickBeam.Lib.EventStream
