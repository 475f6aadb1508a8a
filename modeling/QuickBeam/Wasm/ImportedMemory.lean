import QuickBeam.Lib.WasmBinary

/-!
# Instantiation with an imported memory (`wasm_js.zig`, `wasm_api.ex`)

The rewriter turns the memory import into a memory of the module with as many pages as the
imported bytes have.  WAMR fills it with zeros, applies the active data segments and runs the
start function when it creates the instance; after that the imported bytes are written over the
front of the memory.  WebAssembly begins with the imported bytes instead.

The application heap that WAMR may keep behind the declared pages is no part of the memory here.
-/

namespace QuickBeam.Wasm

open QuickBeam.Lib.Wasm

/-! ### Memories -/

/-- `wamr_bridge_write_memory`, with WAMR's address check. -/
def writeMemory (memory : Bytes) (offset : ℕ) (bytes : Bytes) : Option Bytes :=
  if offset + bytes.length ≤ memory.length ∧ offset < memory.length then
    some (memory.take offset ++ bytes ++ memory.drop (offset + bytes.length))
  else none

structure DataSegment where
  offset : ℕ
  bytes : Bytes

/-- A segment that reaches over the end of the memory traps. -/
def DataSegment.apply (memory : Bytes) (segment : DataSegment) : Option Bytes :=
  if segment.offset + segment.bytes.length ≤ memory.length then
    some (memory.take segment.offset ++ segment.bytes ++
      memory.drop (segment.offset + segment.bytes.length))
  else none

def applySegments (memory : Bytes) (segments : List DataSegment) : Option Bytes :=
  segments.foldlM DataSegment.apply memory

/-- A start function, which may trap; memories do not shrink. -/
structure StartFunction where
  run : Bytes → Option Bytes
  grows : ∀ memory memory', run memory = some memory' → memory.length ≤ memory'.length

structure WasmModule where
  segments : List DataSegment
  start : Option StartFunction

def WasmModule.runStart (module : WasmModule) (memory : Bytes) : Option Bytes :=
  match module.start with
  | none => some memory
  | some start => start.run memory

/-! ### Instantiation -/

/-- What WAMR leaves in a memory that had these bytes. -/
def createInstance (module : WasmModule) (memory : Bytes) : Option Bytes := do
  let memory ← applySegments memory module.segments
  module.runStart memory

/-- `__qb_wasm_start` and `handle_call({:start, …})`, with one initializer for each imported memory;
the first has the size `bytes.length` that the rewriter declares. -/
def instantiate (module : WasmModule) (bytes : Bytes) (others : List Bytes) :
    Except String Bytes :=
  match createInstance module (List.replicate bytes.length 0) with
  | none => .error "instantiation failed"
  | some memory =>
    if others ≠ [] then .error "multiple memory imports are not supported yet"
    else
      match writeMemory memory 0 bytes with
      | none => .error "failed to initialize imported memory"
      | some memory => .ok memory

def DataSegment.byteAt? (segment : DataSegment) (i : ℕ) : Option UInt8 :=
  if segment.offset ≤ i then segment.bytes[i - segment.offset]? else none

def written : List DataSegment → ℕ → Option UInt8
  | [], _ => none
  | segment :: segments, i => (written segments i).or (segment.byteAt? i)

variable {segment : DataSegment}

end QuickBeam.Wasm
