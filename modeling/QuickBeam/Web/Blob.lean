import QuickBeam.Lib.SharedBuffers
import QuickBeam.Lib.Transition
import QuickBeam.Web.Multipart
import Mathlib.Data.Rat.Floor

/-!
# Blobs (`blob.ts`)

A blob keeps its parts as views, which may share buffers with the program and with each other.  The
program can write to the buffers it holds: those it made and those it was given.

What a blob should contain is recorded when it is made (`original`), and what its readers say when
they say it (`answers`); the code reads neither.

Indices of `slice` are JavaScript numbers; the sums and comparisons made with them are exact.
-/

set_option linter.dupNamespace false

namespace QuickBeam.Web.Blob

open QuickBeam.Lib QuickBeam.Vm.Program QuickBeam.Text
open QuickBeam.Web.Multipart (concatChunks normalizeType concatChunks_eq)

/-! ### Indices -/

/-- A JavaScript number, where the two zeros are one. -/
inductive Number
  | nan
  | infinity
  | negInfinity
  | finite (q : ℚ)
  deriving DecidableEq

def trunc (q : ℚ) : ℤ := if q < 0 then ⌈q⌉ else ⌊q⌋

/-- `Math.trunc(idx) || 0`, counted from the end when negative, within the size. -/
def clampIndex (idx : Number) (size : ℕ) : ℕ :=
  match idx with
  | .nan => 0
  | .infinity => size
  | .negInfinity => 0
  | .finite q =>
    let i := trunc q
    if i < 0 then (max (size + i) 0).toNat else (min i size).toNat

/-- The nearest integer, the even one of two. -/
def roundEven (q : ℚ) : ℤ :=
  let r := q - ⌊q⌋
  if r < 1 / 2 then ⌊q⌋
  else if 1 / 2 < r then ⌊q⌋ + 1
  else if ⌊q⌋ % 2 = 0 then ⌊q⌋ else ⌊q⌋ + 1

/-- The position that the File API gives to an index: clamped to a `long long`, which rounds, and
counted from the end when negative.  No blob is longer than a `long long` tells. -/
def position (idx : Number) (size : ℕ) : ℕ :=
  match idx with
  | .nan => 0
  | .infinity => size
  | .negInfinity => 0
  | .finite q =>
    if roundEven q < 0 then size - (-roundEven q).toNat else min (roundEven q).toNat size

/-- The bytes between two positions, where a missing index means the end in question. -/
def sliceOf (bytes : Binary) (start stop : Option Number) : Binary :=
  let first := (start.map (position · bytes.length)).getD 0
  let last := (stop.map (position · bytes.length)).getD bytes.length
  (bytes.drop first).take (last - first)

/-! ### Blobs and what reads them -/

inductive BlobPart
  | text (s : List UInt16)
  | buffer (address : ℕ)
  | view (v : View)
  | blob (b : ℕ)

structure Blob where
  parts : List View
  type : Binary

/-- What a reader says about a blob. -/
inductive Answer
  | bytes (blob : ℕ) (bytes : Binary)
  | text (blob : ℕ) (text : Except String JSString)
  | size (blob size : ℕ)
  deriving DecidableEq

structure State where
  memory : Buffers UInt8
  /-- The buffers that the program holds. -/
  exposed : List ℕ
  blobs : List Blob
  /-- The streams, with the chunks they hold until they are read. -/
  streams : List (ℕ × Option (List View))
  original : List Binary
  answers : List Answer

def initial : State := ⟨[], [], [], [], [], []⟩

def fresh (m : Buffers UInt8) (bytes : Binary) : Buffers UInt8 × View :=
  (m.alloc bytes, ⟨m.length, 0, bytes.length⟩)

def concatBytes (m : Buffers UInt8) : List View → Buffers UInt8 × View
  | [] => fresh m []
  | [p] => (m, p)
  | parts => fresh m (concatChunks (parts.map fun p => p.elems m))

def normalizePart (blobs : List Blob) (m : Buffers UInt8) : BlobPart → Option (Buffers UInt8 × View)
  | .blob b => do
    let blob ← blobs[b]?
    some (concatBytes m blob.parts)
  | .buffer address => some (m, View.whole m address)
  | .view v => some (m, v)
  | .text s => some (fresh m (Encoder.encode s))

def normalizeParts (blobs : List Blob) (m : Buffers UInt8) :
    List BlobPart → Option (Buffers UInt8 × List View)
  | [] => some (m, [])
  | part :: parts => do
    let (m, v) ← normalizePart blobs m part
    let (m, vs) ← normalizeParts blobs m parts
    some (m, v :: vs)

def decode (bytes : Binary) : Except String JSString :=
  Text.decode ⟨false, false⟩ (some bytes)

/-! ### The machine -/

/-- What the program does: it makes a buffer, writes a byte, makes a blob, and uses the methods. -/
inductive Step
  | alloc (bytes : Binary)
  | write (buffer k : ℕ) (x : UInt8)
  | construct (parts : List BlobPart) (type : Binary)
  | size (b : ℕ)
  | arrayBuffer (b : ℕ)
  | text (b : ℕ)
  | bytes (b : ℕ)
  | slice (b : ℕ) (start stop : Option Number) (contentType : Binary)
  | stream (b : ℕ)
  | read (stream : ℕ)

namespace State

variable (s : State)

def Holds : BlobPart → Prop
  | .buffer address => address ∈ s.exposed
  | .view v => v.buffer ∈ s.exposed ∧ v.Fits s.memory
  | _ => True

instance (part : BlobPart) : Decidable (s.Holds part) :=
  match part with
  | .buffer _ => inferInstanceAs (Decidable (_ ∈ _))
  | .view _ => inferInstanceAs (Decidable (_ ∧ _))
  | .blob _ => inferInstanceAs (Decidable True)
  | .text _ => inferInstanceAs (Decidable True)

def bytesOf : BlobPart → Binary
  | .text t => Encoder.encode t
  | .buffer address => s.memory.contents address
  | .view v => v.elems s.memory
  | .blob b => s.original[b]?.getD []

end State

def step (s : State) : Step → Option State
  | .alloc bytes =>
    some { s with memory := s.memory.alloc bytes, exposed := s.memory.length :: s.exposed }
  | .write buffer k x =>
    if buffer ∈ s.exposed then some { s with memory := s.memory.write buffer k x } else none
  | .construct parts type =>
    if ∀ part ∈ parts, s.Holds part then do
      let (memory, views) ← normalizeParts s.blobs s.memory parts
      some { s with
        memory := memory
        blobs := s.blobs ++ [⟨views, normalizeType type⟩]
        original := s.original ++ [parts.flatMap s.bytesOf] }
    else none
  | .size b => do
    let blob ← s.blobs[b]?
    let total := blob.parts.foldl (fun total p => total + p.length) 0
    some { s with answers := s.answers ++ [.size b total] }
  | .arrayBuffer b => do
    let blob ← s.blobs[b]?
    let (memory, v) := concatBytes s.memory blob.parts
    some { s with
      memory := memory
      exposed := v.buffer :: s.exposed
      answers := s.answers ++ [.bytes b (memory.contents v.buffer)] }
  | .text b => do
    let blob ← s.blobs[b]?
    let (memory, v) := concatBytes s.memory blob.parts
    some { s with
      memory := memory
      answers := s.answers ++ [.text b (decode (v.elems memory))] }
  | .bytes b => do
    let blob ← s.blobs[b]?
    let (memory, v) := concatBytes s.memory blob.parts
    let (memory, copy) := fresh memory (v.elems memory)
    some { s with
      memory := memory
      exposed := copy.buffer :: s.exposed
      answers := s.answers ++ [.bytes b (copy.elems memory)] }
  | .slice b start stop contentType => do
    let blob ← s.blobs[b]?
    let (memory, v) := concatBytes s.memory blob.parts
    let first := clampIndex (start.getD (.finite 0)) v.length
    let last := clampIndex (stop.getD (.finite v.length)) v.length
    let (memory, piece) :=
      fresh memory (((v.elems memory).drop first).take (max first last - first))
    some { s with
      memory := memory
      blobs := s.blobs ++ [⟨[piece], normalizeType (normalizeType contentType)⟩]
      original := s.original ++ [sliceOf (s.original[b]?.getD []) start stop] }
  | .stream b => do
    let blob ← s.blobs[b]?
    let (memory, v) := concatBytes s.memory blob.parts
    some { s with
      memory := memory
      streams := s.streams ++ [(b, some (if v.length > 0 then [v] else []))] }
  | .read k => do
    let (b, held) ← s.streams[k]?
    let chunks ← held
    some { s with
      exposed := chunks.map View.buffer ++ s.exposed
      streams := s.streams.set k (b, none)
      answers := s.answers ++ [.bytes b (chunks.flatMap fun v => v.elems s.memory)] }

def machine : Machine State Step where
  init s := s = initial
  step := step

/-! ### The law and its condition -/

/-- The answer tells what the blob should contain. -/
def Answer.Tells (original : List Binary) : Answer → Prop
  | .bytes b said => original[b]? = some said
  | .text b t => original[b]?.map decode = some t
  | .size b n => original[b]?.map List.length = some n

def Blob.content (m : Buffers UInt8) (blob : Blob) : Binary :=
  blob.parts.flatMap fun p => p.elems m

/-- Every blob has the bytes it was made of, and its readers say so. -/
structure Fixed (s : State) : Prop where
  contents : ∀ b : ℕ, s.blobs[b]?.map (Blob.content s.memory) = s.original[b]?
  answers : ∀ a ∈ s.answers, a.Tells s.original

def Number.Truncates : Number → Prop
  | .finite q => trunc q = roundEven q
  | _ => True

/-- The steps that keep the law: no write to a byte that a blob shares, `arrayBuffer` only of blobs
whose single part, if they have a single part, is a whole buffer, and `slice` with indices that
truncation rounds. -/
def Allowed (s : State) : Step → Prop
  | .write buffer k _ => ∀ blob ∈ s.blobs, ∀ p ∈ blob.parts, ¬ p.Covers buffer k
  | .arrayBuffer b => ∀ blob : Blob, blob ∈ s.blobs[b]? → blob.parts.length = 1 → ∀ p ∈ blob.parts, p.IsWhole s.memory
  | .slice _ start stop _ => (∀ i ∈ start, i.Truncates) ∧ ∀ i ∈ stop, i.Truncates
  | _ => True

/-! ### The functions -/

theorem clampIndex_eq {idx : Number} (h : idx.Truncates) (size : ℕ) :
    clampIndex idx size = position idx size := by
  cases idx with
  | finite q =>
    have hround : trunc q = roundEven q := h
    simp only [clampIndex, position, hround]
    split <;> omega
  | _ => rfl

/-- What a function that returns a view does to the memory. -/
structure Gives (m : Buffers UInt8) (bytes : Binary) (r : Buffers UInt8 × View) : Prop where
  grows : m <+: r.1
  fits : r.2.Fits r.1
  elems : r.2.elems r.1 = bytes

theorem gives_fresh (m : Buffers UInt8) (bytes : Binary) : Gives m bytes (fresh m bytes) :=
  ⟨Buffers.prefix_alloc, View.fits_alloc_fresh, View.elems_alloc_fresh⟩

section

variable {m : Buffers UInt8} {parts : List View}

theorem flatten_map_elems : (parts.map fun p => p.elems m).flatten = parts.flatMap fun p => p.elems m :=
  (List.flatMap_def ..).symm

theorem concatBytes_spec (h : ∀ p ∈ parts, p.Fits m) :
    Gives m (parts.flatMap fun p => p.elems m) (concatBytes m parts) ∧
      ((concatBytes m parts).2 ∈ parts ∨ m.length ≤ (concatBytes m parts).2.buffer) := by
  cases parts with
  | nil => exact ⟨gives_fresh m [], .inr (le_refl _)⟩
  | cons p rest =>
    cases rest with
    | nil =>
      refine ⟨⟨List.prefix_rfl, h p List.mem_cons_self, ?_⟩, .inl List.mem_cons_self⟩
      exact (List.flatMap_singleton ..).symm
    | cons q rest =>
      refine ⟨?_, .inr (le_refl _)⟩
      have hbytes : concatChunks ((p :: q :: rest).map fun p => p.elems m) =
          (p :: q :: rest).flatMap fun p => p.elems m := by
        rw [concatChunks_eq, flatten_map_elems]
      exact hbytes ▸ gives_fresh m _

theorem isWhole_concatBytes (h : parts.length = 1 → ∀ p ∈ parts, p.IsWhole m) :
    (concatBytes m parts).2.IsWhole (concatBytes m parts).1 := by
  have hfresh : ∀ bytes : Binary, (fresh m bytes).2.IsWhole (fresh m bytes).1 := by
    intro bytes
    show (⟨m.length, 0, bytes.length⟩ : View) = View.whole (m.alloc bytes) m.length
    rw [View.whole, Buffers.contents_alloc_length]
  cases parts with
  | nil => exact hfresh []
  | cons p rest =>
    cases rest with
    | nil => exact h rfl p List.mem_cons_self
    | cons q rest => exact hfresh _

end

/-! ### The invariant -/

def State.Shared (s : State) (v : View) : Prop := ∃ blob ∈ s.blobs, v ∈ blob.parts

structure State.Private (s : State) (stream : ℕ) (v : View) : Prop where
  hidden : v.buffer ∉ s.exposed
  blobs : ∀ blob ∈ s.blobs, ∀ p ∈ blob.parts, p.buffer ≠ v.buffer
  streams : ∀ (j b : ℕ) (chunks : List View), j ≠ stream → s.streams[j]? = some (b, some chunks) →
    ∀ w ∈ chunks, w.buffer ≠ v.buffer

structure State.Pending (s : State) (stream b : ℕ) (chunks : List View) : Prop where
  fits : ∀ v ∈ chunks, v.Fits s.memory
  tells : s.original[b]? = some (chunks.flatMap fun v => v.elems s.memory)
  kept : ∀ v ∈ chunks, s.Shared v ∨ s.Private stream v

structure Invariant (s : State) : Prop where
  fits : ∀ blob ∈ s.blobs, ∀ p ∈ blob.parts, p.Fits s.memory
  fixed : Fixed s
  exposed : ∀ i ∈ s.exposed, i < s.memory.length
  pending : ∀ (stream b : ℕ) (chunks : List View), s.streams[stream]? = some (b, some chunks) →
    s.Pending stream b chunks

section

variable {s s' : State} {b : ℕ} {blob : Blob}

theorem content_extend {m m' : Buffers UInt8} (hm : m <+: m') (h : ∀ p ∈ blob.parts, p.Fits m) :
    blob.content m' = blob.content m :=
  List.flatMap_congr fun p hp => View.elems_extend (h p hp) hm

theorem Invariant.original_of_blob (h : Invariant s) (hb : s.blobs[b]? = some blob) :
    s.original[b]? = some (blob.content s.memory) := by
  rw [← h.fixed.contents b, hb]
  rfl

theorem Invariant.fits_of_blob (h : Invariant s) (hb : s.blobs[b]? = some blob) :
    ∀ p ∈ blob.parts, p.Fits s.memory := h.fits blob (List.mem_of_getElem? hb)

theorem Invariant.buffer_lt (h : Invariant s) {p : View} (hblob : blob ∈ s.blobs) (hp : p ∈ blob.parts) :
    p.buffer < s.memory.length := (h.fits blob hblob p hp).1

theorem Invariant.gives (h : Invariant s) (hb : s.blobs[b]? = some blob) :
    Gives s.memory (blob.content s.memory) (concatBytes s.memory blob.parts) ∧
      ((concatBytes s.memory blob.parts).2 ∈ blob.parts ∨
        s.memory.length ≤ (concatBytes s.memory blob.parts).2.buffer) :=
  concatBytes_spec (h.fits_of_blob hb)

theorem Invariant.grow (h : Invariant s) (hmemory : s.memory <+: s'.memory)
    (hblobs : s'.blobs = s.blobs) (hstreams : s'.streams = s.streams)
    (horiginal : s'.original = s.original)
    (hexposed : ∀ i ∈ s'.exposed, i ∈ s.exposed ∨ i < s'.memory.length ∧
      (s.memory.length ≤ i ∨ ∃ blob ∈ s.blobs, ∃ p ∈ blob.parts, p.buffer = i))
    (hanswers : ∀ a ∈ s'.answers, a ∈ s.answers ∨ a.Tells s.original) : Invariant s' where
  fits blob hblob p hp := by
    rw [hblobs] at hblob
    exact (h.fits blob hblob p hp).extend hmemory
  fixed := by
    refine ⟨fun b => ?_, fun a ha => ?_⟩
    · rw [hblobs, horiginal, ← h.fixed.contents b]
      cases hb : s.blobs[b]? with
      | none => rfl
      | some blob => exact congrArg some (content_extend hmemory (h.fits_of_blob hb))
    · rw [horiginal]
      exact (hanswers a ha).elim (h.fixed.answers a) id
  exposed i hi := by
    rcases hexposed i hi with hold | ⟨hlt, -⟩
    · exact (h.exposed i hold).trans_le hmemory.length_le
    · exact hlt
  pending stream b chunks hstream := by
    rw [hstreams] at hstream
    have hp := h.pending stream b chunks hstream
    refine ⟨fun v hv => (hp.fits v hv).extend hmemory, ?_, fun v hv => ?_⟩
    · rw [horiginal, hp.tells]
      exact congrArg some (List.flatMap_congr fun v hv => (View.elems_extend (hp.fits v hv) hmemory).symm)
    · rcases hp.kept v hv with hshared | hprivate
      · exact .inl (by rwa [State.Shared, hblobs])
      · refine .inr ⟨fun hmem => ?_, hblobs ▸ hprivate.blobs, hstreams ▸ hprivate.streams⟩
        rcases hexposed _ hmem with hold | ⟨-, hnew | ⟨blob, hblob, p, hpart, heq⟩⟩
        · exact hprivate.hidden hold
        · exact absurd (hp.fits v hv).1 (not_lt.2 hnew)
        · exact hprivate.blobs blob hblob p hpart heq

theorem Invariant.addBlob (h : Invariant s) {parts : List View} {type bytes : Binary}
    {memory : Buffers UInt8} (hmemory : s.memory <+: memory) (hfits : ∀ p ∈ parts, p.Fits memory)
    (hbytes : (parts.flatMap fun p => p.elems memory) = bytes)
    (horigin : ∀ p ∈ parts, s.memory.length ≤ p.buffer ∨ p.buffer ∈ s.exposed ∨ s.Shared p) :
    Invariant { s with
      memory := memory
      blobs := s.blobs ++ [⟨parts, type⟩]
      original := s.original ++ [bytes] } where
  fits blob hblob p hp := by
    rcases List.mem_append.1 hblob with hblob | hblob
    · exact (h.fits blob hblob p hp).extend hmemory
    · rw [List.mem_singleton] at hblob
      subst hblob
      exact hfits p hp
  fixed := by
    have hmap : ∀ l : List Blob, (∀ blob ∈ l, ∀ p ∈ blob.parts, p.Fits s.memory) → ∀ b : ℕ,
        l[b]?.map (Blob.content memory) = l[b]?.map (Blob.content s.memory) := by
      intro l hl b
      cases hb : l[b]? with
      | none => rfl
      | some blob => exact congrArg some (content_extend hmemory (hl blob (List.mem_of_getElem? hb)))
    have hlength : s.original.length = s.blobs.length := by
      have hall : s.original = s.blobs.map (Blob.content s.memory) := by
        apply List.ext_getElem?
        intro b
        rw [List.getElem?_map, h.fixed.contents b]
      rw [hall, List.length_map]
    refine ⟨fun b => ?_, fun a ha => ?_⟩
    · show (s.blobs ++ [_])[b]?.map _ = (s.original ++ [bytes])[b]?
      rcases Nat.lt_trichotomy b s.blobs.length with hlt | rfl | hgt
      · rw [List.getElem?_append_left hlt, List.getElem?_append_left (hlength ▸ hlt),
          hmap s.blobs h.fits, h.fixed.contents b]
      · rw [List.getElem?_concat_length, ← hlength, List.getElem?_concat_length]
        exact congrArg some hbytes
      · rw [List.getElem?_eq_none (by simp; omega), List.getElem?_eq_none (by simp; omega)]
        rfl
    · have hgrow : ∀ {b : ℕ} {x : Binary}, s.original[b]? = some x →
          (s.original ++ [bytes])[b]? = some x := fun hx =>
        (List.getElem?_append_left (List.getElem?_eq_some_iff.1 hx).1).trans hx
      have htells := h.fixed.answers a ha
      cases a with
      | bytes b said => exact hgrow htells
      | text b t =>
        obtain ⟨x, hx, ht⟩ := Option.map_eq_some_iff.1 htells
        exact Option.map_eq_some_iff.2 ⟨x, hgrow hx, ht⟩
      | size b n =>
        obtain ⟨x, hx, ht⟩ := Option.map_eq_some_iff.1 htells
        exact Option.map_eq_some_iff.2 ⟨x, hgrow hx, ht⟩
  exposed i hi := (h.exposed i hi).trans_le hmemory.length_le
  pending stream b chunks hstream := by
    have hp := h.pending stream b chunks hstream
    refine ⟨fun v hv => (hp.fits v hv).extend hmemory, ?_, fun v hv => ?_⟩
    · have hlt := (List.getElem?_eq_some_iff.1 hp.tells).1
      rw [List.getElem?_append_left hlt, hp.tells]
      exact congrArg some (List.flatMap_congr fun v hv => (View.elems_extend (hp.fits v hv) hmemory).symm)
    · rcases hp.kept v hv with ⟨blob, hblob, hpart⟩ | hprivate
      · exact .inl ⟨blob, List.mem_append_left _ hblob, hpart⟩
      · refine .inr ⟨hprivate.hidden, fun blob hblob p hpart heq => ?_, hprivate.streams⟩
        rcases List.mem_append.1 hblob with hblob | hblob
        · exact hprivate.blobs blob hblob p hpart heq
        · rw [List.mem_singleton] at hblob
          subst hblob
          rcases horigin p hpart with hnew | hheld | ⟨blob, hblob, hshared⟩
          · exact absurd (heq ▸ (hp.fits v hv).1) (not_lt.2 hnew)
          · exact hprivate.hidden (heq ▸ hheld)
          · exact hprivate.blobs blob hblob p hshared heq

end

section

variable {s : State} {b : ℕ} {blob : Blob}

theorem Invariant.addStream (h : Invariant s) {chunks : List View} {memory : Buffers UInt8}
    (hmemory : s.memory <+: memory) (hfits : ∀ v ∈ chunks, v.Fits memory)
    (htells : s.original[b]? = some (chunks.flatMap fun v => v.elems memory))
    (horigin : ∀ v ∈ chunks, s.Shared v ∨ s.memory.length ≤ v.buffer) :
    Invariant { s with memory := memory, streams := s.streams ++ [(b, some chunks)] } := by
  have hgrown : Invariant { s with memory := memory } :=
    h.grow hmemory rfl rfl rfl (fun i hi => .inl hi) fun a ha => .inl ha
  refine ⟨hgrown.fits, ⟨hgrown.fixed.contents, hgrown.fixed.answers⟩, hgrown.exposed, ?_⟩
  intro stream b' chunks' hstream
  have hcases : stream < s.streams.length ∧ s.streams[stream]? = some (b', some chunks') ∨
      stream = s.streams.length ∧ b' = b ∧ chunks' = chunks := by
    rcases Nat.lt_trichotomy stream s.streams.length with hlt | rfl | hgt
    · exact .inl ⟨hlt, (List.getElem?_append_left hlt).symm.trans hstream⟩
    · have hlast : (s.streams ++ [(b, some chunks)])[s.streams.length]? = some (b, some chunks) :=
        List.getElem?_concat_length
      cases hlast.symm.trans hstream
      exact .inr ⟨rfl, rfl, rfl⟩
    · have hnone : (s.streams ++ [(b, some chunks)])[stream]? = none :=
        List.getElem?_eq_none (by simp; omega)
      cases hnone.symm.trans hstream
  rcases hcases with ⟨hlt, hold⟩ | ⟨rfl, rfl, rfl⟩
  · have hp := hgrown.pending stream b' chunks' hold
    refine ⟨hp.fits, hp.tells, fun v hv => (hp.kept v hv).imp id fun hprivate => ?_⟩
    refine ⟨hprivate.hidden, hprivate.blobs, fun j b'' chunks'' hj hstream' w hw heq => ?_⟩
    rcases Nat.lt_trichotomy j s.streams.length with hlt' | rfl | hgt
    · refine hprivate.streams j b'' chunks'' hj ?_ w hw heq
      exact (List.getElem?_append_left hlt').symm.trans hstream'
    · -- the new chunks are parts of blobs or new
      have hlast : (s.streams ++ [(b, some chunks)])[s.streams.length]? = some (b, some chunks) :=
        List.getElem?_concat_length
      cases hlast.symm.trans hstream'
      rcases horigin w hw with ⟨blob, hblob, hpart⟩ | hnew
      · exact hprivate.blobs blob hblob w hpart heq
      · have hold' := (h.pending stream b' chunks' hold).fits v hv
        exact absurd (heq ▸ hold'.1) (not_lt.2 hnew)
    · have hnone : (s.streams ++ [(b, some chunks)])[j]? = none :=
        List.getElem?_eq_none (by simp; omega)
      cases hnone.symm.trans hstream'
  · refine ⟨hfits, htells, fun v hv => (horigin v hv).imp id fun hnew => ⟨?_, ?_, ?_⟩⟩
    · exact fun hmem => absurd (h.exposed _ hmem) (not_lt.2 hnew)
    · intro blob hblob p hpart heq
      exact absurd (heq ▸ h.buffer_lt hblob hpart) (not_lt.2 hnew)
    · intro j b'' chunks'' hj hstream' w hw heq
      rcases Nat.lt_or_gt_of_ne hj with hlt | hgt
      · have hold := (List.getElem?_append_left hlt).symm.trans hstream'
        exact absurd (heq ▸ ((h.pending j b'' chunks'' hold).fits w hw).1) (not_lt.2 hnew)
      · have hnone : (s.streams ++ [(b', some chunks')])[j]? = none :=
          List.getElem?_eq_none (by simp; omega)
        cases hnone.symm.trans hstream'

theorem Invariant.write (h : Invariant s) {buffer k : ℕ} {x : UInt8} (hheld : buffer ∈ s.exposed)
    (hok : ∀ blob ∈ s.blobs, ∀ p ∈ blob.parts, ¬ p.Covers buffer k) :
    Invariant { s with memory := s.memory.write buffer k x } where
  fits blob hblob p hp := (h.fits blob hblob p hp).write
  fixed := by
    refine ⟨fun b => ?_, h.fixed.answers⟩
    rw [← h.fixed.contents b]
    cases hb : s.blobs[b]? with
    | none => rfl
    | some blob =>
      refine congrArg some (List.flatMap_congr fun p hp => View.elems_write ?_)
      exact hok blob (List.mem_of_getElem? hb) p hp
  exposed i hi := by
    show i < (s.memory.write buffer k x).length
    rw [Buffers.length_write]
    exact h.exposed i hi
  pending stream b chunks hstream := by
    have hp := h.pending stream b chunks hstream
    have hkept := fun v hv => (hp.kept v hv).imp id fun hprivate =>
      (⟨hprivate.hidden, hprivate.blobs, hprivate.streams⟩ :
        State.Private { s with memory := s.memory.write buffer k x } stream v)
    refine ⟨fun v hv => (hp.fits v hv).write, ?_, hkept⟩
    rw [hp.tells]
    refine congrArg some (List.flatMap_congr fun v hv => (View.elems_write ?_).symm)
    rcases hp.kept v hv with ⟨blob, hblob, hpart⟩ | hprivate
    · exact hok blob hblob v hpart
    · exact fun hcovers => hprivate.hidden (hcovers.1 ▸ hheld)

theorem Invariant.read (h : Invariant s) {stream : ℕ} {chunks : List View}
    (hstream : s.streams[stream]? = some (b, some chunks)) :
    Invariant { s with
      exposed := chunks.map View.buffer ++ s.exposed
      streams := s.streams.set stream (b, none)
      answers := s.answers ++ [.bytes b (chunks.flatMap fun v => v.elems s.memory)] } where
  __ := h
  fixed := by
    refine ⟨h.fixed.contents, fun a ha => ?_⟩
    rcases List.mem_append.1 ha with ha | ha
    · exact h.fixed.answers a ha
    · rw [List.mem_singleton] at ha
      subst ha
      exact (h.pending stream b chunks hstream).tells
  exposed i hi := by
    rcases List.mem_append.1 hi with hi | hi
    · obtain ⟨v, hv, rfl⟩ := List.mem_map.1 hi
      exact ((h.pending stream b chunks hstream).fits v hv).1
    · exact h.exposed i hi
  pending j b' chunks' hj := by
    have hread := h.pending stream b chunks hstream
    have hlt := (List.getElem?_eq_some_iff.1 hstream).1
    have hset : ∀ {i : ℕ} {c : ℕ} {vs : List View},
        (s.streams.set stream (b, none))[i]? = some (c, some vs) →
          i ≠ stream ∧ s.streams[i]? = some (c, some vs) := by
      intro i c vs hi
      by_cases heq : stream = i
      · subst heq
        rw [List.getElem?_set_self hlt] at hi
        cases hi
      · rw [List.getElem?_set_ne heq] at hi
        exact ⟨Ne.symm heq, hi⟩
    obtain ⟨hne, hj⟩ := hset hj
    have hp := h.pending j b' chunks' hj
    refine ⟨hp.fits, hp.tells, fun v hv => (hp.kept v hv).imp id fun hprivate => ⟨?_, hprivate.blobs, ?_⟩⟩
    · intro hmem
      rcases List.mem_append.1 hmem with hmem | hmem
      · obtain ⟨w, hw, heq⟩ := List.mem_map.1 hmem
        exact hprivate.streams stream b chunks (Ne.symm hne) hstream w hw heq
      · exact hprivate.hidden hmem
    · intro i c vs hi hstream' w hw
      exact hprivate.streams i c vs hi (hset hstream').2 w hw

end

/-! ### Making a blob -/

section

variable {s : State} {part : BlobPart} {parts : List BlobPart} {m : Buffers UInt8}

theorem normalizePart_spec (h : Invariant s) (hm : s.memory <+: m) (hheld : s.Holds part)
    {r : Buffers UInt8 × View} (hr : normalizePart s.blobs m part = some r) :
    Gives m (s.bytesOf part) r ∧
      (s.memory.length ≤ r.2.buffer ∨ r.2.buffer ∈ s.exposed ∨ s.Shared r.2) := by
  cases part with
  | text t =>
    cases hr
    exact ⟨gives_fresh m _, .inl hm.length_le⟩
  | buffer address =>
    cases hr
    have hlt := h.exposed address hheld
    refine ⟨⟨List.prefix_rfl, View.fits_whole (hlt.trans_le hm.length_le), ?_⟩, .inr (.inl hheld)⟩
    exact View.elems_whole.trans (Buffers.contents_extend hm hlt)
  | view v =>
    cases hr
    exact ⟨⟨List.prefix_rfl, hheld.2.extend hm, View.elems_extend hheld.2 hm⟩, .inr (.inl hheld.1)⟩
  | blob b =>
    obtain ⟨blob, hb, hr⟩ := Option.bind_eq_some_iff.1 hr
    cases hr
    have hfits : ∀ p ∈ blob.parts, p.Fits m := fun p hp => (h.fits_of_blob hb p hp).extend hm
    obtain ⟨hgives, horigin⟩ := concatBytes_spec hfits
    have hbytes : s.bytesOf (.blob b) = blob.parts.flatMap fun p => p.elems m := by
      rw [State.bytesOf, h.original_of_blob hb]
      exact (content_extend hm (h.fits_of_blob hb)).symm
    rw [hbytes]
    refine ⟨hgives, ?_⟩
    rcases horigin with hpart | hnew
    · exact .inr (.inr ⟨blob, List.mem_of_getElem? hb, hpart⟩)
    · exact .inl (hm.length_le.trans hnew)

theorem normalizeParts_spec (h : Invariant s) (hm : s.memory <+: m)
    (hheld : ∀ part ∈ parts, s.Holds part) {r : Buffers UInt8 × List View}
    (hr : normalizeParts s.blobs m parts = some r) :
    m <+: r.1 ∧ (∀ p ∈ r.2, p.Fits r.1) ∧
      (r.2.flatMap fun p => p.elems r.1) = parts.flatMap s.bytesOf ∧
      ∀ p ∈ r.2, s.memory.length ≤ p.buffer ∨ p.buffer ∈ s.exposed ∨ s.Shared p := by
  induction parts generalizing m r with
  | nil =>
    cases hr
    exact ⟨List.prefix_rfl, nofun, rfl, nofun⟩
  | cons part parts ih =>
    obtain ⟨⟨m₁, v⟩, hv, hr⟩ := Option.bind_eq_some_iff.1 hr
    obtain ⟨⟨m₂, vs⟩, hvs, hr⟩ := Option.bind_eq_some_iff.1 hr
    cases hr
    obtain ⟨hgives, horigin⟩ := normalizePart_spec h hm (hheld part List.mem_cons_self) hv
    obtain ⟨hgrows, hfits, hbytes, horigins⟩ := ih (hm.trans hgives.grows)
      (fun part hpart => hheld part (List.mem_cons_of_mem _ hpart)) hvs
    refine ⟨hgives.grows.trans hgrows, ?_, ?_, ?_⟩
    · exact List.forall_mem_cons.2 ⟨hgives.fits.extend hgrows, hfits⟩
    · rw [List.flatMap_cons, List.flatMap_cons, hbytes, View.elems_extend hgives.fits hgrows,
        hgives.elems]
    · exact List.forall_mem_cons.2 ⟨horigin, horigins⟩

end

/-! ### Steps and runs -/

theorem clampIndex_start {start : Option Number} (h : ∀ i ∈ start, i.Truncates) (size : ℕ) :
    clampIndex (start.getD (.finite 0)) size = (start.map (position · size)).getD 0 := by
  cases start with
  | none => simp [clampIndex, trunc]
  | some i => exact clampIndex_eq (h i rfl) size

theorem clampIndex_stop {stop : Option Number} (h : ∀ i ∈ stop, i.Truncates) (size : ℕ) :
    clampIndex (stop.getD (.finite size)) size = (stop.map (position · size)).getD size := by
  cases stop with
  | none =>
    have htrunc : trunc (size : ℚ) = size := by simp [trunc]
    simp [clampIndex, htrunc]
  | some i => exact clampIndex_eq (h i rfl) size

/-- **The step lemma.** -/
theorem Invariant.step {s s' : State} {e : Step} (h : Invariant s) (hok : Allowed s e)
    (hstep : step s e = some s') : Invariant s' := by
  cases e with
  | alloc bytes =>
    cases hstep
    refine h.grow Buffers.prefix_alloc rfl rfl rfl (fun i hi => ?_) fun a ha => .inl ha
    rcases List.mem_cons.1 hi with rfl | hi
    · exact .inr ⟨by simp, .inl (le_refl _)⟩
    · exact .inl hi
  | write buffer k x =>
    obtain ⟨hheld, hstep⟩ := Option.ite_none_right_eq_some.1 hstep
    cases hstep
    exact h.write hheld hok
  | construct parts type =>
    obtain ⟨hheld, hstep⟩ := Option.ite_none_right_eq_some.1 hstep
    obtain ⟨⟨memory, views⟩, hviews, hstep⟩ := Option.bind_eq_some_iff.1 hstep
    cases hstep
    obtain ⟨hgrows, hfits, hbytes, horigin⟩ :=
      normalizeParts_spec h List.prefix_rfl hheld hviews
    exact h.addBlob hgrows hfits hbytes horigin
  | size b =>
    obtain ⟨blob, hb, hstep⟩ := Option.bind_eq_some_iff.1 hstep
    cases hstep
    refine h.grow List.prefix_rfl rfl rfl rfl (fun i hi => .inl hi) fun a ha => ?_
    refine (List.mem_append.1 ha).imp id fun ha => ?_
    rw [List.mem_singleton] at ha
    subst ha
    have htotal : ∀ (parts : List View) (n : ℕ), (∀ p ∈ parts, p.Fits s.memory) →
        parts.foldl (fun total p => total + p.length) n =
          n + (parts.flatMap fun p => p.elems s.memory).length := by
      intro parts
      induction parts with
      | nil => exact fun n _ => rfl
      | cons p parts ih =>
        intro n hfits
        rw [List.foldl_cons, ih _ fun q hq => hfits q (List.mem_cons_of_mem _ hq), List.flatMap_cons,
          List.length_append, View.length_elems (hfits p List.mem_cons_self), Nat.add_assoc]
    show s.original[b]?.map List.length = _
    rw [h.original_of_blob hb, htotal _ _ (h.fits_of_blob hb), Nat.zero_add]
    rfl
  | arrayBuffer b =>
    obtain ⟨blob, hb, hstep⟩ := Option.bind_eq_some_iff.1 hstep
    obtain ⟨hgives, horigin⟩ := h.gives hb
    have hwhole := isWhole_concatBytes (hok blob hb)
    generalize concatBytes s.memory blob.parts = r at hstep hgives horigin hwhole
    cases hstep
    refine h.grow hgives.grows rfl rfl rfl (fun i hi => ?_) fun a ha => ?_
    · rcases List.mem_cons.1 hi with rfl | hi
      · refine .inr ⟨hgives.fits.1, ?_⟩
        exact horigin.symm.imp id fun hpart => ⟨blob, List.mem_of_getElem? hb, _, hpart, rfl⟩
      · exact .inl hi
    · refine (List.mem_append.1 ha).imp id fun ha => ?_
      rw [List.mem_singleton] at ha
      subst ha
      show s.original[b]? = some _
      rw [h.original_of_blob hb, ← hgives.elems, hwhole.elems]
  | text b =>
    obtain ⟨blob, hb, hstep⟩ := Option.bind_eq_some_iff.1 hstep
    obtain ⟨hgives, -⟩ := h.gives hb
    generalize concatBytes s.memory blob.parts = r at hstep hgives
    cases hstep
    refine h.grow hgives.grows rfl rfl rfl (fun i hi => .inl hi) fun a ha => ?_
    refine (List.mem_append.1 ha).imp id fun ha => ?_
    rw [List.mem_singleton] at ha
    subst ha
    show s.original[b]?.map decode = some _
    rw [h.original_of_blob hb, hgives.elems]
    rfl
  | bytes b =>
    obtain ⟨blob, hb, hstep⟩ := Option.bind_eq_some_iff.1 hstep
    obtain ⟨hgives, -⟩ := h.gives hb
    generalize concatBytes s.memory blob.parts = r at hstep hgives
    have hcopy := gives_fresh r.1 (r.2.elems r.1)
    generalize hc : fresh r.1 (r.2.elems r.1) = copy at hcopy
    have hbuffer : s.memory.length ≤ copy.2.buffer := hc ▸ hgives.grows.length_le
    have hstep : some ({ s with
        memory := copy.1
        exposed := copy.2.buffer :: s.exposed
        answers := s.answers ++ [.bytes b (copy.2.elems copy.1)] } : State) = some s' := hc ▸ hstep
    cases hstep
    refine h.grow (hgives.grows.trans hcopy.grows) rfl rfl rfl (fun i hi => ?_) fun a ha => ?_
    · rcases List.mem_cons.1 hi with rfl | hi
      · exact .inr ⟨hcopy.fits.1, .inl hbuffer⟩
      · exact .inl hi
    · refine (List.mem_append.1 ha).imp id fun ha => ?_
      rw [List.mem_singleton] at ha
      subst ha
      show s.original[b]? = some _
      rw [h.original_of_blob hb, hcopy.elems, hgives.elems]
  | slice b start stop contentType =>
    obtain ⟨blob, hb, hstep⟩ := Option.bind_eq_some_iff.1 hstep
    obtain ⟨hgives, -⟩ := h.gives hb
    generalize concatBytes s.memory blob.parts = r at hstep hgives
    have hlength : r.2.length = (blob.content s.memory).length := by
      rw [← hgives.elems, View.length_elems hgives.fits]
    have hbytes : ((r.2.elems r.1).drop (clampIndex (start.getD (.finite 0)) r.2.length)).take
        (max (clampIndex (start.getD (.finite 0)) r.2.length)
            (clampIndex (stop.getD (.finite r.2.length)) r.2.length) -
          clampIndex (start.getD (.finite 0)) r.2.length) =
        sliceOf (s.original[b]?.getD []) start stop := by
      rw [h.original_of_blob hb, hgives.elems, clampIndex_start hok.1, clampIndex_stop hok.2, hlength]
      show _ = sliceOf (blob.content s.memory) start stop
      rw [sliceOf]
      congr 1
      omega
    have hpiece := gives_fresh r.1 (((r.2.elems r.1).drop
      (clampIndex (start.getD (.finite 0)) r.2.length)).take
        (max (clampIndex (start.getD (.finite 0)) r.2.length)
            (clampIndex (stop.getD (.finite r.2.length)) r.2.length) -
          clampIndex (start.getD (.finite 0)) r.2.length))
    cases hstep
    refine h.addBlob (hgives.grows.trans hpiece.grows) ?_ ?_ ?_
    · exact List.forall_mem_singleton.2 hpiece.fits
    · exact (List.flatMap_singleton ..).trans (hpiece.elems.trans hbytes)
    · exact List.forall_mem_singleton.2 (.inl hgives.grows.length_le)
  | stream b =>
    obtain ⟨blob, hb, hstep⟩ := Option.bind_eq_some_iff.1 hstep
    obtain ⟨hgives, horigin⟩ := h.gives hb
    generalize concatBytes s.memory blob.parts = r at hstep hgives horigin
    cases hstep
    refine h.addStream hgives.grows (fun v hv => ?_) ?_ fun v hv => ?_
    · split at hv
      · rw [List.mem_singleton.1 hv]
        exact hgives.fits
      · cases hv
    · rw [h.original_of_blob hb]
      split
      · exact congrArg some ((List.flatMap_singleton ..).trans hgives.elems).symm
      · rename_i hempty
        have hnil : blob.content s.memory = [] := by
          rw [← List.length_eq_zero_iff, ← hgives.elems, View.length_elems hgives.fits]
          omega
        rw [hnil]
        rfl
    · split at hv
      · rw [List.mem_singleton.1 hv]
        exact horigin.imp_left fun hpart => ⟨blob, List.mem_of_getElem? hb, hpart⟩
      · cases hv
  | read k =>
    obtain ⟨⟨b, held⟩, hstream, hstep⟩ := Option.bind_eq_some_iff.1 hstep
    obtain ⟨chunks, hheld, hstep⟩ := Option.bind_eq_some_iff.1 hstep
    cases hheld
    cases hstep
    exact h.read hstream

theorem invariant_initial : Invariant initial :=
  ⟨nofun, ⟨fun _ => rfl, nofun⟩, nofun, nofun⟩

/-- In a run of allowed steps every blob keeps its bytes, and its readers tell them. -/
theorem blobs_fixed {s : State} (h : machine.ReachableIf Allowed s) : Fixed s := by
  have hinv : Invariant s := by
    refine Machine.ReachableIf.invariant ?_ (fun s e s' h hok hstep => h.step hok hstep) h
    rintro s rfl
    exact invariant_initial
  exact hinv.fixed

/-! ### Runs -/

instance (n : Number) : Decidable n.Truncates :=
  match n with
  | .finite q => inferInstanceAs (Decidable (trunc q = roundEven q))
  | .nan | .infinity | .negInfinity => inferInstanceAs (Decidable True)

instance (s : State) (e : Step) : Decidable (Allowed s e) :=
  match e with
  | .write _ _ _ => inferInstanceAs (Decidable (∀ blob ∈ s.blobs, _))
  | .arrayBuffer b => inferInstanceAs (Decidable (∀ blob : Blob, blob ∈ s.blobs[b]? → _))
  | .slice _ _ _ _ => inferInstanceAs (Decidable (_ ∧ _))
  | .alloc _ | .construct _ _ | .size _ | .text _ | .bytes _ | .stream _ | .read _ =>
    inferInstanceAs (Decidable True)

/-- A blob of a view and a text; its slice, its stream and its buffer; writes beside the view and to
the buffers handed out. -/
def plainRun : List Step :=
  [.alloc [1, 2, 3, 4], .construct [.view ⟨0, 1, 2⟩, .text [65]] [], .write 0 0 9, .arrayBuffer 0,
    .slice 0 (some (.finite (-2))) none [], .bytes 1, .stream 0, .read 0, .size 0]

/-- The program writes to a buffer that a blob was made of. -/
def writeRun : List Step := [.alloc [1, 2], .construct [.buffer 0] [], .write 0 0 9]

/-- `arrayBuffer` of a blob made of a part of a buffer. -/
def subarrayRun : List Step := [.alloc [1, 2, 3, 4], .construct [.view ⟨0, 1, 2⟩] [], .arrayBuffer 0]

def fractionRun : List Step :=
  [.alloc [1, 2, 3], .construct [.buffer 0] [], .slice 0 (some (.finite (3 / 2))) none []]

/-- The run ends in a state where the law fails. -/
def Unfixed (run : List Step) : Prop := ∃ s, machine.exec initial run = some s ∧ ¬ Fixed s

theorem runs_eval :
    (machine.execIf (fun s e => decide (Allowed s e)) initial plainRun).map
        (fun s => s.original) = some [[2, 3, 65], [3, 65]] ∧
      (machine.exec initial writeRun).map
        (fun s => (s.blobs[0]?.map (Blob.content s.memory), s.original[0]?)) =
          some (some [9, 2], some [1, 2]) ∧
      (machine.exec initial subarrayRun).map (fun s => (s.answers, s.original[0]?)) =
        some ([.bytes 0 [1, 2, 3, 4]], some [2, 3]) ∧
      (machine.exec initial fractionRun).map
        (fun s => (s.blobs[1]?.map (Blob.content s.memory), s.original[1]?)) =
          some (some [2, 3], some [3]) := by
  decide +kernel

theorem blobs_fixed_plain : ∃ s, machine.ReachableIf Allowed s ∧
    s.original = [[2, 3, 65], [3, 65]] ∧ Fixed s := by
  obtain ⟨s, hexec, horiginal⟩ := Option.map_eq_some_iff.1 runs_eval.1
  have hrun := Machine.guardedRun_of_execIf hexec
  simp only [decide_eq_true_eq] at hrun
  have hreach : machine.ReachableIf Allowed s := ⟨initial, plainRun, rfl, hrun⟩
  exact ⟨s, hreach, horiginal, blobs_fixed hreach⟩

/-- A write changes a blob, `arrayBuffer` tells bytes that are not in the blob, and a fraction is
truncated where it should be rounded. -/
theorem not_blobs_fixed : Unfixed writeRun ∧ Unfixed subarrayRun ∧ Unfixed fractionRun := by
  obtain ⟨-, hwrite, hsubarray, hfraction⟩ := runs_eval
  refine ⟨?_, ?_, ?_⟩
  · obtain ⟨s, hexec, hend⟩ := Option.map_eq_some_iff.1 hwrite
    obtain ⟨hcontent, horiginal⟩ := Prod.mk.inj hend
    refine ⟨s, hexec, fun h => ?_⟩
    cases hcontent.symm.trans ((h.contents 0).trans horiginal)
  · obtain ⟨s, hexec, hend⟩ := Option.map_eq_some_iff.1 hsubarray
    obtain ⟨hanswers, horiginal⟩ := Prod.mk.inj hend
    refine ⟨s, hexec, fun h => ?_⟩
    have htells : s.original[0]? = some [1, 2, 3, 4] :=
      h.answers (.bytes 0 [1, 2, 3, 4]) (by rw [hanswers]; exact List.mem_cons_self)
    cases horiginal.symm.trans htells
  · obtain ⟨s, hexec, hend⟩ := Option.map_eq_some_iff.1 hfraction
    obtain ⟨hcontent, horiginal⟩ := Prod.mk.inj hend
    refine ⟨s, hexec, fun h => ?_⟩
    cases hcontent.symm.trans ((h.contents 1).trans horiginal)

end QuickBeam.Web.Blob
