import QuickBeam.Wasm.ImportSections

/-!
# A rewritten module is the same module

An import and what is provided for it determine what stands at its index afterwards: a function
imported under its symbol, a memory of the provided size, or a global with the provided value.  The
index spaces have the same types, the other sections the same bytes, and a valid module stays valid
(`rewrite_preserves`).

The rewriter refuses functions with several results or with types that are not numbers
(`multiValue_raises`), and the provided memories and values must be ones that a module can have.
-/

namespace QuickBeam.Wasm.ImportRewriter

open QuickBeam.Lib QuickBeam.Lib.Leb128 QuickBeam.Lib.Wasm

/-! ### What an import becomes -/

/-- The entry of `module_metadata` for an import. -/
def Describes (i : Import) (e : Expected) : Prop :=
  e.module = i.module ∧ e.name = i.name ∧
    match i.desc, e.desc with
    | .func typeIdx, .function _ _ typeIdx' => typeIdx' = typeIdx
    | .memory limits, .memory min max => min = limits.min ∧ max = limits.max
    | .global type isMutable, .global type' isMutable' =>
      type' = type.name ∧ isMutable' = isMutable
    | _, _ => False

namespace Validated

def function (v : Validated) : Option (Bytes × ℕ × Option Term) :=
  match v.expected.desc with
  | .function _ _ typeIdx => some (v.expected.module, typeIdx, v.provided.callbackName)
  | _ => none

def memory (v : Validated) : Option Limits :=
  match v.expected.desc, v.provided.bytes, v.max with
  | .memory _ _, some (.bin bytes), .nil => some ⟨bytes.length / 65536, none⟩
  | .memory _ _, some (.bin bytes), .int (.ofNat max) => some ⟨bytes.length / 65536, some max⟩
  | _, _, _ => none

def contents (v : Validated) : Option Bytes :=
  match v.expected.desc, v.provided.bytes with
  | .memory _ _, some (.bin bytes) => some bytes
  | _, _ => none

end Validated

def valType : String → Option ValType
  | "i32" => some .i32
  | "i64" => some .i64
  | "f32" => some .f32
  | "f64" => some .f64
  | _ => none

def constant (type : ValType) (value : Term) : Option ConstExpr :=
  match type, value with
  | .i32, .int z =>
    if -2 ^ 31 ≤ z ∧ z < 2 ^ 31 then some ⟨.i32Const z, encodeSleb128 z⟩ else none
  | .i32, _ => none
  | .i64, value =>
    match parseI64 value with
    | .ok z => if -2 ^ 63 ≤ z ∧ z < 2 ^ 63 then some ⟨.i64Const z, encodeSleb128 z⟩ else none
    | .error _ => none
  | .f32, value => (float32 value).toOption.map fun bits => ⟨.f32Const bits, bits⟩
  | .f64, value => (float64 value).toOption.map fun bits => ⟨.f64Const bits, bits⟩

def Validated.global (v : Validated) : Option Global :=
  match v.expected.desc, v.provided.value with
  | .global type isMutable, some value =>
    (valType type).bind fun type => (constant type value).map fun init => ⟨type, isMutable, init⟩
  | _, _ => none

/-- What can take the place of an import: for a function, number types with at most one result. -/
def Validated.Supported (v : Validated) : Prop :=
  match v.expected.desc with
  | .function params results _ =>
    (∀ type ∈ params ++ results, (valType type).isSome = true) ∧ results.length ≤ 1
  | .memory _ _ => ∃ limits, v.memory = some limits ∧ limits.Valid
  | .global _ _ => v.global.isSome = true
  | _ => True

def FunctionImport.toImport (f : FunctionImport) : Import := ⟨f.moduleName, f.symbol, .func f.typeIdx⟩

/-- A global section that the rewriter reads and puts back as it was, in its place. -/
structure PlainGlobals (reads : Reads) (m : Module) : Prop where
  tags : ∀ s ∈ m.sections, s.id ≠ 13
  ends : ∀ g ∈ m.globals, 0x0B ∉ g.init.immediate
  /-- What was imported cannot be read when only imports can be. -/
  reads : reads = .imported → ∀ g ∈ m.globals, ∀ index, g.init.instr ≠ .globalGet index

/-- A section that the rewriter has no reason to touch. -/
def untouched (validated : List Validated) (s : Section) : Bool :=
  s.id != 2 && (s.id != 5 || (memoryImports validated).isEmpty) &&
    (s.id != 6 || (globalImports validated).isEmpty)

/-- The rewritten module against the original one. -/
structure Preserves (m m' : Module) (validated : List Validated) (initializers : List Bytes)
    (functionImports : List FunctionImport) : Prop where
  imports : m'.imports = functionImports.map FunctionImport.toImport
  functions : functionImports.map (fun f => (f.moduleName, f.typeIdx, f.callbackName)) =
    validated.filterMap Validated.function
  memories : m'.memories = validated.filterMap Validated.memory ++ m.memories
  initializers : initializers = validated.filterMap Validated.contents
  globals : m'.globals = validated.filterMap Validated.global ++ m.globals
  defined : m'.functions = m.functions
  /-- Every index has the type that it had. -/
  context : m'.context = m.context
  others : m'.sections.filter (untouched validated) = m.sections.filter (untouched validated)

/-! ### Validation -/

variable {expected : List Expected} {provided : List Provided} {validated : List Validated}

theorem validateImports_eq (h : validateImports expected provided = .ok validated) :
    validated.map Validated.expected = expected := by
  induction expected generalizing provided validated with
  | nil =>
    cases provided with
    | nil => rw [← Except.ok.inj h]; rfl
    | cons p rest => cases h
  | cons e expected ih =>
    obtain ⟨⟨merged, remaining⟩, hmerged, h⟩ := bind_eq_ok h
    obtain ⟨validated', hvalidated, h⟩ := bind_eq_ok h
    rw [← Except.ok.inj h, List.map_cons, ih hvalidated]
    congr 1
    cases provided with
    | nil => cases hmerged
    | cons p rest =>
      rw [validateImport] at hmerged
      split at hmerged
      · cases hmerged
      · split at hmerged
        · cases hmerged
        · obtain ⟨_, _, hmerged⟩ := bind_eq_ok hmerged
          cases hmerged
          rfl

variable {imports : List Import}

theorem describes_validated (hexpected : List.Forall₂ Describes imports expected)
    (h : validateImports expected provided = .ok validated) :
    List.Forall₂ (fun i v => Describes i (Validated.expected v)) imports validated := by
  rw [← validateImports_eq h, List.forall₂_map_right_iff] at hexpected
  exact hexpected

/-! ### New entries -/

theorem mapM_filter {β γ : Type} (item : β → γ → Prop) (p : Validated → Bool)
    (encode : Validated → Except Failure β) (value : Validated → Option γ) {l : List Validated}
    (hpos : ∀ v ∈ l, p v = true → ∃ raw x, encode v = .ok raw ∧ value v = some x ∧ item raw x)
    (hneg : ∀ v ∈ l, p v = false → value v = none) :
    ∃ new, (l.filter p).mapM encode = .ok new ∧ List.Forall₂ item new (l.filterMap value) := by
  induction l with
  | nil => exact ⟨[], rfl, .nil⟩
  | cons v l ih =>
    obtain ⟨new, hnew, hitems⟩ := ih (fun v hin => hpos v (List.mem_cons_of_mem _ hin))
      fun v hin => hneg v (List.mem_cons_of_mem _ hin)
    by_cases hv : p v = true
    · obtain ⟨raw, x, hraw, hx, hitem⟩ := hpos v List.mem_cons_self hv
      refine ⟨raw :: new, ?_, ?_⟩
      · rw [List.filter_cons_of_pos hv, List.mapM_cons, hraw, hnew]
        rfl
      · rw [List.filterMap_cons_some hx]
        exact .cons hitem hitems
    · refine ⟨new, ?_, ?_⟩
      · rw [List.filter_cons_of_neg hv]
        exact hnew
      · rw [List.filterMap_cons_none (hneg v List.mem_cons_self (Bool.eq_false_iff.2 hv))]
        exact hitems

variable {name : String} {type : ValType}

theorem valType_name (h : valType name = some type) : name = type.name := by
  unfold valType at h
  split at h
  · cases h; rfl
  · cases h; rfl
  · cases h; rfl
  · cases h; rfl
  · cases h

@[simp] theorem valType_of_name (type : ValType) : valType type.name = some type := by
  cases type <;> rfl

variable {limits : Limits} {v : Validated}

theorem encodeMemoryImport_eq (h : v.memory = some limits) (hvalid : limits.Valid) :
    ∃ raw, encodeMemoryImport v = .ok raw ∧ IsLimits raw limits := by
  have hmin : limits.min < 2 ^ 32 := Nat.lt_of_le_of_lt hvalid.min (by decide)
  unfold Validated.memory at h
  split at h
  · rename_i bytes hdesc hbytes hmax
    cases h
    refine ⟨0x00 :: encodeU32 (bytes.length / 65536), ?_, .unbounded (encodeU32_u32 hmin)⟩
    rw [encodeMemoryImport, fetchBytes, hbytes, hmax]
    rfl
  · rename_i bytes max hdesc hbytes hmax
    cases h
    have hmax' : max < 2 ^ 32 := Nat.lt_of_le_of_lt (hvalid.max max rfl).2 (by decide)
    refine ⟨0x01 :: encodeU32 (bytes.length / 65536) ++ encodeU32 max, ?_,
      .bounded (encodeU32_u32 hmin) (encodeU32_u32 hmax')⟩
    rw [encodeMemoryImport, fetchBytes, hbytes, hmax]
    rfl
  · cases h

variable {bits : Bytes} {value : Term}

theorem length_float32 (h : float32 value = .ok bits) : bits.length = 4 := by
  obtain ⟨x, _, h⟩ := bind_eq_ok h
  dsimp only at h
  split at h
  · rw [← Except.ok.inj h]
    exact Bytes.length_writeLE _ _
  · cases h

theorem length_float64 (h : float64 value = .ok bits) : bits.length = 8 := by
  obtain ⟨x, _, h⟩ := bind_eq_ok h
  rw [← Except.ok.inj h]
  exact Bytes.length_writeLE _ _

theorem constant_eq {init : ConstExpr} (h : constant type value = some init) :
    encodeGlobalInit type.name value = .ok (init.instr.opcode :: init.immediate) ∧
      init.WellFormed ∧ ∀ readable, init.instr.HasType readable type := by
  unfold constant at h
  split at h
  · split at h
    · rename_i z hrange
      cases h
      exact ⟨rfl, encodeSleb128_s32 hrange.1 hrange.2, fun _ => .i32Const z⟩
    · cases h
  · cases h
  · split at h
    · rename_i z hz
      split at h
      · rename_i hrange
        cases h
        refine ⟨?_, encodeSleb128_s64 hrange.1 hrange.2, fun _ => .i64Const z⟩
        show (do return 0x42 :: encodeSleb128 (← parseI64 value)) = _
        rw [hz]
        rfl
      · cases h
    · cases h
  · cases hbits : float32 value with
    | error failure =>
      rw [hbits] at h
      cases h
    | ok bits =>
      rw [hbits] at h
      cases h
      refine ⟨?_, ⟨rfl, length_float32 hbits⟩, fun _ => .f32Const bits⟩
      show (do return 0x43 :: (← float32 value)) = _
      rw [hbits]
      rfl
  · cases hbits : float64 value with
    | error failure =>
      rw [hbits] at h
      cases h
    | ok bits =>
      rw [hbits] at h
      cases h
      refine ⟨?_, ⟨rfl, length_float64 hbits⟩, fun _ => .f64Const bits⟩
      show (do return 0x44 :: (← float64 value)) = _
      rw [hbits]
      rfl

theorem encodeGlobalImport_eq {g : Global} (h : v.global = some g) :
    encodeGlobalImport v = .ok g.bytes ∧ g.init.WellFormed ∧
      ∀ readable, g.init.instr.HasType readable g.type := by
  unfold Validated.global at h
  split at h
  · rename_i name isMutable value hdesc hvalue
    obtain ⟨type, htype, h⟩ := Option.bind_eq_some_iff.1 h
    obtain ⟨init, hinit, rfl⟩ := Option.map_eq_some_iff.1 h
    obtain ⟨hencode, hwell, htyped⟩ := constant_eq hinit
    refine ⟨?_, hwell, htyped⟩
    rw [encodeGlobalImport, hdesc, hvalue, valType_name htype]
    have hbyte : encodeValtype type.name = .ok type.byte := by
      cases type <;> rfl
    show (do
      return [← encodeValtype type.name, if isMutable then 1 else 0] ++
        (← encodeGlobalInit type.name value) ++ [0x0B]) = _
    rw [hbyte, hencode]
    rfl
  · cases h

/-! ### Function imports -/

theorem encodeSignatureType_eq (h : (valType name).isSome = true) :
    ∃ byte, encodeSignatureType name = .ok byte := by
  obtain ⟨type, htype⟩ := Option.isSome_iff_exists.1 h
  rw [valType_name htype]
  cases type with
  | i32 => exact ⟨_, rfl⟩
  | i64 => exact ⟨_, rfl⟩
  | f32 => exact ⟨_, rfl⟩
  | f64 => exact ⟨_, rfl⟩

theorem mapM_encodeSignatureType {names : List String}
    (h : ∀ name ∈ names, (valType name).isSome = true) :
    ∃ bytes, names.mapM encodeSignatureType = .ok bytes := by
  induction names with
  | nil => exact ⟨[], rfl⟩
  | cons name names ih =>
    obtain ⟨byte, hbyte⟩ := encodeSignatureType_eq (h name List.mem_cons_self)
    obtain ⟨bytes, hbytes⟩ := ih fun name hin => h name (List.mem_cons_of_mem _ hin)
    refine ⟨byte :: bytes, ?_⟩
    rw [List.mapM_cons, hbyte, hbytes]
    rfl

theorem encodeFunctionSignature_eq {params results : List String}
    (h : ∀ type ∈ params ++ results, (valType type).isSome = true) (hone : results.length ≤ 1) :
    ∃ signature, encodeFunctionSignature params results = .ok signature := by
  obtain ⟨bytes, hbytes⟩ := mapM_encodeSignatureType fun name hin =>
    h name (List.mem_append_left _ hin)
  cases results with
  | nil =>
    refine ⟨[0x28] ++ bytes ++ [0x29], ?_⟩
    rw [encodeFunctionSignature, hbytes]
    rfl
  | cons result rest =>
    cases rest with
    | nil =>
      obtain ⟨byte, hbyte⟩ := encodeSignatureType_eq
        (h result (List.mem_append_right _ List.mem_cons_self))
      refine ⟨[0x28] ++ bytes ++ [0x29, byte], ?_⟩
      rw [encodeFunctionSignature, hbytes, hbyte]
      rfl
    | cons second rest =>
      simp only [List.length_cons] at hone
      omega

theorem buildFunctionImports_eq (uniqueInteger : ℕ → ℕ) (h : ∀ v ∈ validated, v.Supported) (i : ℕ) :
    ∃ functionImports, buildFunctionImports uniqueInteger i validated = .ok functionImports ∧
      functionImports.map (fun f => (f.moduleName, f.typeIdx, f.callbackName)) =
        validated.filterMap Validated.function := by
  induction validated generalizing i with
  | nil => exact ⟨[], rfl, rfl⟩
  | cons v rest ih =>
    have hrest := fun v hin => h v (List.mem_cons_of_mem _ hin)
    rw [buildFunctionImports]
    split
    · rename_i params results typeIdx hdesc
      have hsupported := h v List.mem_cons_self
      rw [Validated.Supported, hdesc] at hsupported
      obtain ⟨signature, hsignature⟩ := encodeFunctionSignature_eq hsupported.1 hsupported.2
      obtain ⟨functionImports, hbuild, hmap⟩ := ih hrest (i + 1)
      have hfunction : v.function = some (v.expected.module, typeIdx, v.provided.callbackName) := by
        rw [Validated.function, hdesc]
      rw [hsignature, hbuild]
      refine ⟨_, rfl, ?_⟩
      rw [List.map_cons, hmap, List.filterMap_cons_some hfunction]
    · rename_i hdesc
      have hfunction : v.function = none := by
        unfold Validated.function
        split
        · rename_i params results typeIdx heq
          exact absurd heq (hdesc params results typeIdx)
        · rfl
      rw [List.filterMap_cons_none hfunction]
      exact ih hrest i

theorem encodeFunctionImport_isImport {f : FunctionImport} (hmodule : f.moduleName.length < 2 ^ 32)
    (hsymbol : f.symbol.length < 2 ^ 32) (htypeIdx : f.typeIdx < 2 ^ 32) :
    IsImport (encodeFunctionImport f) f.toImport := by
  refine ⟨encodeName f.moduleName, encodeName f.symbol, 0x00 :: encodeU32 f.typeIdx, ?_,
    ⟨_, rfl, encodeU32_u32 hmodule⟩, ⟨_, rfl, encodeU32_u32 hsymbol⟩, .func (encodeU32_u32 htypeIdx)⟩
  rw [encodeFunctionImport, List.append_assoc, List.append_assoc]
  rfl

variable {functionImports : List FunctionImport} {sections : List Section}

theorem prependFunctionImports_spec (hplace : InPlace sections)
    (htypeIdx : ∀ f ∈ functionImports, f.typeIdx < 2 ^ 32) :
    Replaces 2 sections (prependFunctionImports (removeImportSection sections) functionImports) ∧
      (Fits 2 (prependFunctionImports (removeImportSection sections) functionImports) →
        Entries IsImport 2 (prependFunctionImports (removeImportSection sections) functionImports)
          (functionImports.map FunctionImport.toImport)) := by
  unfold prependFunctionImports
  split
  · rename_i hempty
    refine ⟨replaces_without hplace, fun _ => ?_⟩
    rw [List.isEmpty_iff.1 hempty]
    exact .absent fun s hin => of_decide_eq_true (List.mem_filter.1 hin).2
  · refine ⟨replaces_insert hplace (.inl rfl) _, fun hfits => ?_⟩
    have hsize : (encodeVecRaw (functionImports.map encodeFunctionImport)).length < 2 ^ 32 :=
      hfits _ (mem_insertSection.2 (.inl rfl)) rfl
    have hitem : ∀ f ∈ functionImports, (encodeFunctionImport f).length < 2 ^ 32 := by
      intro f hin
      have hmem : encodeFunctionImport f ∈ functionImports.map encodeFunctionImport :=
        List.mem_map_of_mem hin
      have hle := (List.sublist_flatten_of_mem hmem).length_le
      rw [encodeVecRaw, List.length_append] at hsize
      omega
    refine entries_insert ?_ ?_ hfits
    · rw [List.forall₂_map_left_iff, List.forall₂_map_right_iff, List.forall₂_same]
      intro f hin
      have hlength := hitem f hin
      simp only [encodeFunctionImport, encodeName, List.length_append] at hlength
      exact encodeFunctionImport_isImport (by omega) (by omega) (htypeIdx f hin)
    · intro raw hraw
      obtain ⟨f, -, rfl⟩ := List.mem_map.1 hraw
      simp [encodeFunctionImport]

/-! ### Index spaces -/

theorem filterMap_forall₂ {β γ δ : Type} {R : β → γ → Prop} {l : List β} {l' : List γ}
    {f : β → Option δ} {g : γ → Option δ} (h : List.Forall₂ R l l')
    (heq : ∀ a b, b ∈ l' → R a b → f a = g b) : l.filterMap f = l'.filterMap g := by
  induction h with
  | nil => rfl
  | @cons a b l l' hab hrest ih =>
    have htail := ih fun a b hin => heq a b (List.mem_cons_of_mem _ hin)
    rw [List.filterMap_cons, List.filterMap_cons, heq a b List.mem_cons_self hab, htail]

section Spaces

variable {imports : List Import} {validated : List Validated}
  (h : List.Forall₂ (fun i v => Describes i (Validated.expected v)) imports validated)
include h

theorem function_typeIdx : (validated.filterMap Validated.function).map (fun f => f.2.1) =
    imports.filterMap fun i => i.desc.typeIdx := by
  rw [List.map_filterMap]
  refine (filterMap_forall₂ h ?_).symm
  intro i v _ ⟨_, _, hdesc⟩
  unfold Validated.function
  split at hdesc
  · rename_i hi hv
    rw [hi, hv, ← hdesc]
    rfl
  · rename_i hi hv
    rw [hi, hv]
    rfl
  · rename_i hi hv
    rw [hi, hv]
    rfl
  · exact hdesc.elim

theorem memory_length (hsupported : ∀ v ∈ validated, v.Supported) :
    (validated.filterMap Validated.memory).length =
      (imports.filterMap fun i => i.desc.limits).length := by
  have hunits : (validated.filterMap Validated.memory).map (fun _ => ()) =
      (imports.filterMap fun i => i.desc.limits).map fun _ => () := by
    rw [List.map_filterMap, List.map_filterMap]
    refine (filterMap_forall₂ h ?_).symm
    intro i v hin ⟨_, _, hdesc⟩
    have hsup := hsupported v hin
    rw [Validated.Supported] at hsup
    split at hdesc
    · rename_i hi hv
      rw [hi, Validated.memory, hv]
      rfl
    · rename_i hi hv
      rw [hv] at hsup
      obtain ⟨limits, hlimits, -⟩ := hsup
      rw [hi, hlimits]
      rfl
    · rename_i hi hv
      rw [hi, Validated.memory, hv]
      rfl
    · exact hdesc.elim
  simpa using congrArg List.length hunits

theorem global_types (hsupported : ∀ v ∈ validated, v.Supported) :
    (validated.filterMap Validated.global).map Global.globalType =
      imports.filterMap fun i => i.desc.globalType := by
  rw [List.map_filterMap]
  refine (filterMap_forall₂ h ?_).symm
  intro i v hin ⟨_, _, hdesc⟩
  have hsup := hsupported v hin
  rw [Validated.Supported] at hsup
  split at hdesc
  · rename_i hi hv
    rw [hi, Validated.global, hv]
    rfl
  · rename_i hi hv
    rw [hi, Validated.global, hv]
    rfl
  · rename_i type isMutable type' isMutable' hi hv
    rw [hv] at hsup
    obtain ⟨g, hg⟩ := Option.isSome_iff_exists.1 hsup
    rw [hi, hg]
    rw [Validated.global, hv] at hg
    split at hg
    · rename_i heq _
      cases heq
      rw [hdesc.1, valType_of_name, Option.bind_some] at hg
      obtain ⟨init, -, rfl⟩ := Option.map_eq_some_iff.1 hg
      rw [hdesc.2]
      rfl
    · cases hg
  · exact hdesc.elim

end Spaces

/-! ### The kinds of imports -/

variable {desc : ExpectedDesc}

theorem exists_memory (h : desc.kind = "memory") : ∃ min max, desc = .memory min max := by
  cases desc with
  | memory min max => exact ⟨min, max, rfl⟩
  | function params results typeIdx => simp [ExpectedDesc.kind] at h
  | table => simp [ExpectedDesc.kind] at h
  | global type isMutable => simp [ExpectedDesc.kind] at h
  | tag => simp [ExpectedDesc.kind] at h

theorem exists_global (h : desc.kind = "global") :
    ∃ type isMutable, desc = .global type isMutable := by
  cases desc with
  | global type isMutable => exact ⟨type, isMutable, rfl⟩
  | function params results typeIdx => simp [ExpectedDesc.kind] at h
  | table => simp [ExpectedDesc.kind] at h
  | memory min max => simp [ExpectedDesc.kind] at h
  | tag => simp [ExpectedDesc.kind] at h

namespace Validated

variable {v : Validated}

theorem kind_of_memory {limits : Limits} (h : v.memory = some limits) :
    v.expected.desc.kind = "memory" := by
  unfold Validated.memory at h
  split at h
  · rw [‹v.expected.desc = _›]
    rfl
  · rw [‹v.expected.desc = _›]
    rfl
  · cases h

theorem kind_of_contents {bytes : Bytes} (h : v.contents = some bytes) :
    v.expected.desc.kind = "memory" := by
  unfold Validated.contents at h
  split at h
  · rw [‹v.expected.desc = _›]
    rfl
  · cases h

theorem kind_of_global {g : Global} (h : v.global = some g) :
    v.expected.desc.kind = "global" := by
  unfold Validated.global at h
  split at h
  · rw [‹v.expected.desc = _›]
    rfl
  · cases h

theorem Supported.memory (h : v.Supported) (hkind : v.expected.desc.kind = "memory") :
    ∃ limits, v.memory = some limits ∧ limits.Valid := by
  obtain ⟨min, max, hdesc⟩ := exists_memory hkind
  rw [Validated.Supported, hdesc] at h
  exact h

theorem Supported.global (h : v.Supported) (hkind : v.expected.desc.kind = "global") :
    ∃ g, v.global = some g := by
  obtain ⟨type, isMutable, hdesc⟩ := exists_global hkind
  rw [Validated.Supported, hdesc] at h
  exact Option.isSome_iff_exists.1 h

theorem Supported.contents (h : v.Supported) (hkind : v.expected.desc.kind = "memory") :
    ∃ bytes, fetchBytes v = .ok bytes ∧ v.contents = some bytes := by
  obtain ⟨limits, hlimits, -⟩ := h.memory hkind
  unfold Validated.memory at hlimits
  split at hlimits
  · rename_i bytes hdesc hbytes _
    exact ⟨bytes, by rw [fetchBytes, hbytes], by rw [Validated.contents, hdesc, hbytes]⟩
  · rename_i bytes _ hdesc hbytes _
    exact ⟨bytes, by rw [fetchBytes, hbytes], by rw [Validated.contents, hdesc, hbytes]⟩
  · cases hlimits

end Validated

/-! ### The rewritten module -/

theorem memoryImports_encode (hsupported : ∀ v ∈ validated, v.Supported) :
    ∃ new, (memoryImports validated).mapM encodeMemoryImport = .ok new ∧
      List.Forall₂ IsLimits new (validated.filterMap Validated.memory) := by
  refine mapM_filter IsLimits _ encodeMemoryImport Validated.memory ?_ ?_
  · intro v hin hkind
    obtain ⟨limits, hlimits, hvalid⟩ := (hsupported v hin).memory (of_decide_eq_true hkind)
    obtain ⟨raw, hraw, hitem⟩ := encodeMemoryImport_eq hlimits hvalid
    exact ⟨raw, limits, hraw, hlimits, hitem⟩
  · intro v _ hkind
    refine Option.eq_none_iff_forall_ne_some.2 fun limits hlimits => ?_
    exact of_decide_eq_false hkind (Validated.kind_of_memory hlimits)

theorem memoryImports_contents (hsupported : ∀ v ∈ validated, v.Supported) :
    (memoryImports validated).mapM fetchBytes = .ok (validated.filterMap Validated.contents) := by
  have hnew : ∃ new, (memoryImports validated).mapM fetchBytes = .ok new ∧
      List.Forall₂ Eq new (validated.filterMap Validated.contents) := by
    refine mapM_filter Eq _ fetchBytes Validated.contents ?_ ?_
    · intro v hin hkind
      obtain ⟨bytes, hfetch, hcontents⟩ := (hsupported v hin).contents (of_decide_eq_true hkind)
      exact ⟨bytes, bytes, hfetch, hcontents, rfl⟩
    · intro v _ hkind
      refine Option.eq_none_iff_forall_ne_some.2 fun bytes hcontents => ?_
      exact of_decide_eq_false hkind (Validated.kind_of_contents hcontents)
  obtain ⟨new, hnew, hitems⟩ := hnew
  rw [List.forall₂_eq_eq_eq] at hitems
  rw [hnew, hitems]

theorem globalImports_encode (hsupported : ∀ v ∈ validated, v.Supported) :
    ∃ new, (globalImports validated).mapM encodeGlobalImport = .ok new ∧
      List.Forall₂ IsGlobal new (validated.filterMap Validated.global) := by
  refine mapM_filter IsGlobal _ encodeGlobalImport Validated.global ?_ ?_
  · intro v hin hkind
    obtain ⟨g, hg⟩ := (hsupported v hin).global (of_decide_eq_true hkind)
    obtain ⟨hencode, hwell, -⟩ := encodeGlobalImport_eq hg
    exact ⟨g.bytes, g, hencode, hg, rfl, hwell⟩
  · intro v _ hkind
    refine Option.eq_none_iff_forall_ne_some.2 fun g hg => ?_
    exact of_decide_eq_false hkind (Validated.kind_of_global hg)

theorem prependMemoryImports_spec {xs : List Limits} (hplace : InPlace sections)
    (hentries : Entries IsLimits 5 sections xs) (hsupported : ∀ v ∈ validated, v.Supported) :
    ∃ sections', prependMemoryImports sections validated = .ok sections' ∧
      Replaces 5 sections sections' ∧
      ((memoryImports validated).isEmpty = true → sections' = sections) ∧
      (Fits 5 sections' →
        Entries IsLimits 5 sections' (validated.filterMap Validated.memory ++ xs)) := by
  obtain ⟨new, hnew, hitems⟩ := memoryImports_encode hsupported
  refine prependSectionEntries_spec hplace (by decide) hentries hnew hitems ?_ ?_ ?_
  · intro raw limits hraw
    cases hraw with
    | unbounded hmin => exact List.cons_ne_nil _ _
    | bounded hmin hmax => exact List.cons_ne_nil _ _
  · exact fun _ => .inr (.inl rfl)
  · intro _ payload hvec
    exact decodeEntries_isVec hvec fun raw limits _ hraw => takeLimitsRaw_takes hraw

theorem prependGlobalImports_spec {xs : List Global} (hplace : InPlace sections)
    (hentries : Entries IsGlobal 6 sections xs) (hsupported : ∀ v ∈ validated, v.Supported)
    (htags : (globalImports validated).isEmpty = false → ∀ s ∈ sections, s.id ≠ 13)
    (hends : (globalImports validated).isEmpty = false → ∀ g ∈ xs, 0x0B ∉ g.init.immediate) :
    ∃ sections', prependGlobalImports sections validated = .ok sections' ∧
      Replaces 6 sections sections' ∧
      ((globalImports validated).isEmpty = true → sections' = sections) ∧
      (Fits 6 sections' →
        Entries IsGlobal 6 sections' (validated.filterMap Validated.global ++ xs)) := by
  obtain ⟨new, hnew, hitems⟩ := globalImports_encode hsupported
  refine prependSectionEntries_spec hplace (by decide) hentries hnew hitems ?_ ?_ ?_
  · rintro raw g ⟨rfl, -⟩
    exact List.cons_ne_nil _ _
  · exact fun himports => .inr (.inr ⟨rfl, htags himports⟩)
  · intro himports payload hvec
    refine decodeEntries_isVec hvec ?_
    rintro raw g hin ⟨rfl, -⟩
    exact takeGlobalRaw_takes (hends himports g hin)

theorem typeIdx_lt (h : Entries IsImport 2 sections imports) {i : Import} (hin : i ∈ imports)
    {typeIdx : ℕ} (htypeIdx : i.desc.typeIdx = some typeIdx) : typeIdx < 2 ^ 32 := by
  cases h with
  | absent => cases hin
  | present _ hvec =>
    obtain ⟨count, items, -, -, hitems⟩ := hvec
    obtain ⟨j, hj, rfl⟩ := List.getElem_of_mem hin
    obtain ⟨module, name, desc, -, -, -, hdesc⟩ := hitems.get (hitems.length_eq ▸ hj) hj
    change IsDesc desc imports[j].desc at hdesc
    cases heq : imports[j].desc with
    | func n =>
      rw [heq] at hdesc htypeIdx
      cases hdesc with
      | func hn =>
        cases htypeIdx
        exact hn.lt
    | memory limits => rw [heq] at htypeIdx; cases htypeIdx
    | global type isMutable => rw [heq] at htypeIdx; cases htypeIdx

theorem sections_spec {bytes : Bytes} {m : Module} (hparses : Parses bytes m)
    (hsupported : ∀ v ∈ validated, v.Supported)
    (hdescribes : List.Forall₂ (fun i v => Describes i (Validated.expected v)) m.imports validated)
    {reads : Reads} (hplain : (globalImports validated).isEmpty = false → PlainGlobals reads m)
    (hfunctions : functionImports.map (fun f => (f.moduleName, f.typeIdx, f.callbackName)) =
    validated.filterMap Validated.function) : ∃ sections₂ sections₃,
      prependMemoryImports
        (prependFunctionImports (removeImportSection m.sections) functionImports) validated =
          .ok sections₂ ∧
      prependGlobalImports sections₂ validated = .ok sections₃ ∧
      sections₃.filter (untouched validated) = m.sections.filter (untouched validated) ∧
      ((rebuild sections₃).length < 2 ^ 32 →
        Parses (rebuild sections₃) ⟨sections₃, functionImports.map FunctionImport.toImport,
          m.functions, validated.filterMap Validated.memory ++ m.memories,
          validated.filterMap Validated.global ++ m.globals⟩) := by
  have htypes : functionImports.map FunctionImport.typeIdx =
      m.imports.filterMap fun i => i.desc.typeIdx := by
    rw [← function_typeIdx hdescribes, ← hfunctions, List.map_map]
    rfl
  have htypeIdx : ∀ f ∈ functionImports, f.typeIdx < 2 ^ 32 := by
    intro f hin
    have hmem : f.typeIdx ∈ functionImports.map FunctionImport.typeIdx := List.mem_map_of_mem hin
    rw [htypes] at hmem
    obtain ⟨i, hi, htype⟩ := List.mem_filterMap.1 hmem
    exact typeIdx_lt hparses.imports hi htype
  obtain ⟨hfirst, himports⟩ := prependFunctionImports_spec hparses.inPlace htypeIdx
  set sections₁ := prependFunctionImports (removeImportSection m.sections) functionImports
  obtain ⟨sections₂, hmemory, hsecond, hnone₂, hmemories⟩ := prependMemoryImports_spec hfirst.inPlace
    (hfirst.entries (by decide) hparses.memories) hsupported
  have hkeep : ∀ id, id ≠ 2 → id ≠ 5 → (∀ s ∈ m.sections, s.id ≠ id) →
      ∀ s ∈ sections₂, s.id ≠ id := by
    intro id himport hmemory habsent s hin heq
    refine habsent s ?_ heq
    exact (hfirst.mem_iff (heq ▸ himport)).1 ((hsecond.mem_iff (heq ▸ hmemory)).1 hin)
  obtain ⟨sections₃, hglobal, hthird, hnone₃, hglobals⟩ := prependGlobalImports_spec hsecond.inPlace
    (hsecond.entries (by decide) (hfirst.entries (by decide) hparses.globals)) hsupported
    (fun hsome => hkeep 13 (by decide) (by decide) (hplain hsome).tags)
    (fun hsome => (hplain hsome).ends)
  refine ⟨sections₂, sections₃, hmemory, hglobal, ?_, fun hsize => ?_⟩
  · have hglobalStep : sections₃.filter (untouched validated) =
        sections₂.filter (untouched validated) := by
      by_cases hnone : (globalImports validated).isEmpty = true
      · rw [hnone₃ hnone]
      · refine hthird.filter fun s hs => ?_
        simp [untouched, hs, hnone]
    have hmemoryStep : sections₂.filter (untouched validated) =
        sections₁.filter (untouched validated) := by
      by_cases hnone : (memoryImports validated).isEmpty = true
      · rw [hnone₂ hnone]
      · refine hsecond.filter fun s hs => ?_
        simp [untouched, hs, hnone]
    rw [hglobalStep, hmemoryStep]
    refine hfirst.filter fun s hs => ?_
    simp [untouched, hs]
  · have hall : ∀ s ∈ sections₃, s.payload.length < 2 ^ 32 :=
      fun s hin => Nat.lt_trans (length_payload_lt hin) hsize
    have hfits₂ : ∀ id, id ≠ 6 → Fits id sections₂ := fun id hid s hin hs =>
      hall s ((hthird.mem_iff (hs ▸ hid)).2 hin)
    have hfits₁ : ∀ id, id ≠ 5 → id ≠ 6 → Fits id sections₁ := fun id hmem hid s hin hs =>
      hfits₂ id hid s ((hsecond.mem_iff (hs ▸ hmem)).2 hin) hs
    exact {
      sections := by
        refine ⟨_, rfl, rebuild_isSections ?_ hall⟩
        intro s hin
        exact Nat.lt_of_le_of_lt (hthird.inPlace.known s hin) (by decide)
      inPlace := hthird.inPlace
      imports := hthird.entries (by decide) (hsecond.entries (by decide)
        (himports (hfits₁ 2 (by decide) (by decide))))
      functions := hthird.entries (by decide) (hsecond.entries (by decide)
        (hfirst.entries (by decide) hparses.functions))
      memories := hthird.entries (by decide) (hmemories (hfits₂ 5 (by decide)))
      globals := hglobals fun s hin _ => hall s hin }

def rewritten (m : Module) (sections : List Section) (functionImports : List FunctionImport)
    (validated : List Validated) : Module where
  __ := m
  sections
  imports := functionImports.map FunctionImport.toImport
  memories := validated.filterMap Validated.memory ++ m.memories
  globals := validated.filterMap Validated.global ++ m.globals

section Rewritten

variable {m : Module} {sections : List Section} {functionImports : List FunctionImport}
  {validated : List Validated}

theorem rewritten_importedGlobals :
    (rewritten m sections functionImports validated).importedGlobals = [] := by
  refine List.filterMap_eq_nil_iff.2 ?_
  intro i hin
  obtain ⟨f, -, rfl⟩ := List.mem_map.1 hin
  rfl

theorem rewritten_context
    (hdescribes : List.Forall₂ (fun i v => Describes i (Validated.expected v)) m.imports validated)
    (hsupported : ∀ v ∈ validated, v.Supported)
    (hfunctions : functionImports.map (fun f => (f.moduleName, f.typeIdx, f.callbackName)) =
      validated.filterMap Validated.function) :
    (rewritten m sections functionImports validated).context = m.context := by
  have htypes : (functionImports.map FunctionImport.toImport).filterMap (fun i => i.desc.typeIdx) =
      m.imports.filterMap fun i => i.desc.typeIdx := by
    rw [← function_typeIdx hdescribes, ← hfunctions, List.map_map, List.filterMap_map]
    show functionImports.filterMap (some ∘ FunctionImport.typeIdx) = _
    rw [List.filterMap_eq_map]
    rfl
  have hlimits : (functionImports.map FunctionImport.toImport).filterMap (fun i => i.desc.limits) =
      [] := by
    refine List.filterMap_eq_nil_iff.2 ?_
    intro i hin
    obtain ⟨f, -, rfl⟩ := List.mem_map.1 hin
    rfl
  have hmemory := memory_length hdescribes hsupported
  have hglobal := global_types hdescribes hsupported
  rw [Module.context, Module.context, rewritten_importedGlobals]
  simp only [rewritten, htypes, hlimits, List.length_append, List.length_nil, Nat.zero_add,
    hmemory, List.map_append, hglobal, List.nil_append]
  rfl

/-- The initialisers keep their types. -/
theorem rewritten_inits {reads : Reads}
    (hdescribes : List.Forall₂ (fun i v => Describes i (Validated.expected v)) m.imports validated)
    (hsupported : ∀ v ∈ validated, v.Supported)
    (hreads : m.importedGlobals ≠ [] → reads = .imported →
      ∀ g ∈ m.globals, ∀ index, g.init.instr ≠ .globalGet index)
    (hinits : ∀ (k : ℕ) (g : Global), m.globals[k]? = some g →
      g.init.instr.HasType (m.readable k reads) g.type)
    {k : ℕ} {g : Global}
    (hg : (rewritten m sections functionImports validated).globals[k]? = some g) :
    g.init.instr.HasType ((rewritten m sections functionImports validated).readable k reads)
      g.type := by
  set new := validated.filterMap Validated.global with hnew
  have hglobals : (rewritten m sections functionImports validated).globals = new ++ m.globals := rfl
  rw [hglobals] at hg
  by_cases hk : k < new.length
  · rw [List.getElem?_append_left hk] at hg
    obtain ⟨v, -, hv⟩ := List.mem_filterMap.1 (List.mem_of_getElem? hg)
    exact (encodeGlobalImport_eq hv).2.2 _
  · rw [List.getElem?_append_right (Nat.not_lt.1 hk)] at hg
    have hinit := hinits (k - new.length) g hg
    have htypes : new.map Global.globalType = m.importedGlobals :=
      global_types hdescribes hsupported
    cases reads with
    | earlier =>
      have hreadable : (rewritten m sections functionImports validated).readable k .earlier =
          m.readable (k - new.length) .earlier := by
        rw [Module.readable, Module.readable, rewritten_importedGlobals, hglobals, List.nil_append,
          List.take_append, List.take_of_length_le (Nat.not_lt.1 hk), List.map_append, htypes]
      rwa [hreadable]
    | imported =>
      have hreadable : ∀ (readable : List (ValType × Bool)),
          m.importedGlobals ≠ [] → g.init.instr.HasType readable g.type := by
        intro readable hsome
        have hconst := hreads hsome rfl g (List.mem_of_getElem? hg)
        generalize g.init.instr = instr at hinit hconst
        generalize g.type = type at hinit
        cases hinit with
        | i32Const value => exact .i32Const value
        | i64Const value => exact .i64Const value
        | f32Const bits => exact .f32Const bits
        | f64Const bits => exact .f64Const bits
        | globalGet hindex => exact absurd rfl (hconst _)
      by_cases hnone : m.importedGlobals = []
      · rw [Module.readable, rewritten_importedGlobals, ← hnone]
        exact hinit
      · exact hreadable _ hnone

end Rewritten

theorem filter_isOther (validated : List Validated) (sections : List Section) :
    (sections.filter (untouched validated)).filter Section.isOther =
      sections.filter Section.isOther := by
  rw [List.filter_filter]
  refine List.filter_congr fun s _ => ?_
  by_cases hother : s.isOther = true
  · simp only [Section.isOther, Bool.and_eq_true] at hother
    simp [Section.isOther, untouched, hother]
  · rw [Bool.eq_false_iff.2 hother, Bool.false_and]

theorem describes_of_mem
    (h : List.Forall₂ (fun i v => Describes i (Validated.expected v)) imports validated)
    (hin : v ∈ validated) : ∃ i ∈ imports, Describes i v.expected := by
  induction h with
  | nil => cases hin
  | @cons i _ _ _ hdescribes _ ih =>
    rcases List.mem_cons.1 hin with rfl | hin
    · exact ⟨i, List.mem_cons_self, hdescribes⟩
    · obtain ⟨i', hi', hdescribes'⟩ := ih hin
      exact ⟨i', List.mem_cons_of_mem _ hi', hdescribes'⟩

theorem globalImports_isEmpty
    (h : List.Forall₂ (fun i v => Describes i (Validated.expected v)) imports validated)
    (hnone : (imports.filterMap fun i => i.desc.globalType) = []) :
    (globalImports validated).isEmpty = true := by
  rw [List.isEmpty_iff, globalImports, List.filter_eq_nil_iff]
  intro v hin hkind
  obtain ⟨i, hi, _, _, hdesc⟩ := describes_of_mem h hin
  obtain ⟨type, isMutable, hglobal⟩ := exists_global (of_decide_eq_true hkind)
  have hlocal := List.filterMap_eq_nil_iff.1 hnone i hi
  rw [hglobal] at hdesc
  cases hkind' : i.desc with
  | func typeIdx => rw [hkind'] at hdesc; exact hdesc
  | memory limits => rw [hkind'] at hdesc; exact hdesc
  | global type isMutable => rw [hkind'] at hlocal; cases hlocal

theorem memory_valid (hsupported : v.Supported) (hmemory : v.memory = some limits) :
    limits.Valid := by
  obtain ⟨limits', hlimits, hvalid⟩ := hsupported.memory (Validated.kind_of_memory hmemory)
  rw [hmemory] at hlimits
  cases hlimits
  exact hvalid

/-- A valid module with supported imports becomes a valid module that is the same. -/
theorem rewrite_preserves {reads : Reads} {rest : Context → List Section → Prop} {bytes : Bytes}
    {m : Module} {expected : List Expected} {provided : List Provided} {validated : List Validated}
    (uniqueInteger : ℕ → ℕ) (hvalid : Valid reads rest bytes m)
    (hexpected : List.Forall₂ Describes m.imports expected)
    (haccepted : validateImports expected provided = .ok validated)
    (hsupported : ∀ v ∈ validated, v.Supported)
    (hplain : m.importedGlobals ≠ [] → PlainGlobals reads m) :
    ∃ bytes' initializers functionImports,
      rewrite uniqueInteger bytes expected provided = .ok (bytes', initializers, functionImports) ∧
      (bytes'.length < 2 ^ 32 → ∃ m', Valid reads rest bytes' m' ∧
        Preserves m m' validated initializers functionImports) := by
  have hdescribes := describes_validated hexpected haccepted
  by_cases hempty : expected.isEmpty ∧ provided.isEmpty
  · refine ⟨bytes, [], [], if_pos hempty, fun _ => ⟨m, hvalid, ?_⟩⟩
    rw [List.isEmpty_iff.1 hempty.1] at hexpected haccepted
    rw [List.isEmpty_iff.1 hempty.2] at haccepted
    rw [← Except.ok.inj haccepted]
    generalize himports : m.imports = imports at hexpected
    cases hexpected
    exact ⟨himports, rfl, rfl, rfl, rfl, rfl, rfl, rfl⟩
  · obtain ⟨functionImports, hbuild, hfunctions⟩ :=
      buildFunctionImports_eq uniqueInteger hsupported 0
    have hplain' : (globalImports validated).isEmpty = false → PlainGlobals reads m := by
      intro hsome
      refine hplain fun hnone => ?_
      rw [globalImports_isEmpty hdescribes hnone] at hsome
      cases hsome
    obtain ⟨sections₂, sections₃, hmemory, hglobal, hothers, hparses⟩ :=
      sections_spec hvalid.toParses hsupported hdescribes hplain' hfunctions
    obtain ⟨body, hbytes, hsections⟩ := hvalid.sections
    refine ⟨rebuild sections₃, validated.filterMap Validated.contents, functionImports, ?_, ?_⟩
    · rw [rewrite, if_neg hempty, hbytes, splitSections_eq hsections, haccepted]
      show (do
        let functionImports ← buildFunctionImports uniqueInteger 0 validated
        let sections ← prependMemoryImports
          (prependFunctionImports (removeImportSection m.sections) functionImports) validated
        let sections ← prependGlobalImports sections validated
        let memoryInitializers ← (memoryImports validated).mapM fetchBytes
        return (rebuild sections, memoryInitializers, functionImports)) = _
      rw [hbuild]
      show (do
        let sections ← prependMemoryImports
          (prependFunctionImports (removeImportSection m.sections) functionImports) validated
        let sections ← prependGlobalImports sections validated
        let memoryInitializers ← (memoryImports validated).mapM fetchBytes
        return (rebuild sections, memoryInitializers, functionImports)) = _
      rw [hmemory]
      show (do
        let sections ← prependGlobalImports sections₂ validated
        let memoryInitializers ← (memoryImports validated).mapM fetchBytes
        return (rebuild sections, memoryInitializers, functionImports)) = _
      rw [hglobal, memoryImports_contents hsupported]
      rfl
    · intro hsize
      have hcontext : (rewritten m sections₃ functionImports validated).context = m.context :=
        rewritten_context hdescribes hsupported hfunctions
      refine ⟨rewritten m sections₃ functionImports validated, ?_, ?_⟩
      · exact {
          toParses := hparses hsize
          importedLimits := by
            intro i hin
            obtain ⟨f, -, rfl⟩ := List.mem_map.1 hin
            exact fun _ hnone => absurd hnone (Option.not_mem_none _)
          limits := by
            intro limits hin
            rcases List.mem_append.1 hin with hin | hin
            · obtain ⟨v, hv, hmem⟩ := List.mem_filterMap.1 hin
              exact memory_valid (hsupported v hv) hmem
            · exact hvalid.limits limits hin
          inits := fun k g hg => rewritten_inits hdescribes hsupported
            (fun hsome hreads => (hplain hsome).reads hreads) hvalid.inits hg
          rest := by
            rw [hcontext]
            show rest m.context (sections₃.filter Section.isOther)
            rw [← filter_isOther validated, hothers, filter_isOther]
            exact hvalid.rest }
      · exact ⟨rfl, hfunctions, rfl, rfl, rfl, rfl, hcontext, hothers⟩

/-! ### A module with an imported global -/

def offsetModule : Module where
  sections := [⟨2, [1, 1, 97, 1, 98, 3, 0x7F, 0]⟩, ⟨6, [1, 0x7F, 0, 0x41, 5, 0x0B]⟩]
  imports := [⟨[97], [98], .global .i32 false⟩]
  functions := []
  memories := []
  globals := [⟨.i32, false, ⟨.i32Const 5, [5]⟩⟩]

def offsetBytes : Bytes :=
  magic ++ [2, 8, 1, 1, 97, 1, 98, 3, 0x7F, 0, 6, 6, 1, 0x7F, 0, 0x41, 5, 0x0B]

def offsetExpected : Expected := ⟨[97], [98], .global "i32" false⟩

def offsetProvided (value : ℤ) : Provided where
  module := [97]
  name := [98]
  kind := "global"
  callbackName := none
  bytes := none
  max := none
  type := some "i32"
  isMutable := some false
  value := some (.int value)

theorem offsetModule_valid :
    Valid .earlier (fun context _ => context.memories ≤ 1) offsetBytes offsetModule where
  sections := by
    have hglobals : IsSections [6, 6, 1, 0x7F, 0, 0x41, 5, 0x0B] [⟨6, [1, 0x7F, 0, 0x41, 5, 0x0B]⟩] :=
      @IsSections.cons 6 [6] [1, 0x7F, 0, 0x41, 5, 0x0B] [] [] (U32.byte 6 (by decide)) .nil
    exact ⟨_, rfl, @IsSections.cons 2 [8] [1, 1, 97, 1, 98, 3, 0x7F, 0] _ _
      (U32.byte 8 (by decide)) hglobals⟩
  inPlace := ⟨by decide, by decide⟩
  imports := by
    refine .present List.mem_cons_self ⟨[1], [[1, 97, 1, 98, 3, 0x7F, 0]], rfl,
      U32.byte 1 (by decide), .cons ?_ .nil⟩
    exact ⟨[1, 97], [1, 98], _, rfl, ⟨[1], rfl, U32.byte 1 (by decide)⟩,
      ⟨[1], rfl, U32.byte 1 (by decide)⟩, .global .i32 false⟩
  functions := .absent (by decide)
  memories := .absent (by decide)
  globals := by
    refine .present (List.mem_cons_of_mem _ List.mem_cons_self) ⟨[1], [[0x7F, 0, 0x41, 5, 0x0B]],
      rfl, U32.byte 1 (by decide), .cons ⟨rfl, ?_⟩ .nil⟩
    exact S32.byte 5 (by decide)
  importedLimits := by
    intro i hin
    rw [List.mem_singleton.1 hin]
    nofun
  limits := nofun
  inits := by
    intro k g hg
    obtain ⟨hk, rfl⟩ := List.getElem?_eq_some_iff.1 hg
    have hzero : k = 0 := Nat.lt_one_iff.1 hk
    subst hzero
    exact .i32Const 5
  rest := by decide

theorem rewrite_offset : rewrite id offsetBytes [offsetExpected] [offsetProvided 7] =
    .ok (magic ++ [6, 11, 2, 0x7F, 0, 0x41, 7, 0x0B, 0x7F, 0, 0x41, 5, 0x0B], [], []) := by
  have hseven : encodeSleb128 7 = [7] := by
    rw [encodeSleb128]
    rfl
  have htwo : encodeUleb128 2 = [2] := by
    rw [encodeUleb128]
    rfl
  have hsize : encodeUleb128 11 = [11] := by
    rw [encodeUleb128]
    rfl
  have hglobal : encodeGlobalImport ⟨offsetExpected, offsetProvided 7⟩ =
      .ok [0x7F, 0, 0x41, 7, 0x0B] := by
    show Except.ok ([0x7F, 0] ++ (0x41 :: encodeSleb128 7) ++ [0x0B]) = _
    rw [hseven]
    rfl
  have hsections : prependGlobalImports [⟨6, [1, 0x7F, 0, 0x41, 5, 0x0B]⟩]
      [⟨offsetExpected, offsetProvided 7⟩] =
        .ok [⟨6, [2, 0x7F, 0, 0x41, 7, 0x0B, 0x7F, 0, 0x41, 5, 0x0B]⟩] := by
    show (do
      let new ← encodeGlobalImport ⟨offsetExpected, offsetProvided 7⟩
      return [(⟨6, encodeUleb128 2 ++ ([new, [0x7F, 0, 0x41, 5, 0x0B]] : List Bytes).flatten⟩ :
        Section)]) = _
    rw [hglobal, htwo]
    rfl
  show (do
    let sections ← prependGlobalImports [⟨6, [1, 0x7F, 0, 0x41, 5, 0x0B]⟩]
      [⟨offsetExpected, offsetProvided 7⟩]
    return (rebuild sections, [], [])) = _
  rw [hsections]
  show Except.ok (magic ++ (6 :: (encodeUleb128 11 ++ _) ++ []), [], []) = _
  rw [hsize]
  rfl

theorem rewrite_preserves_offset :
    ∃ bytes' m', rewrite id offsetBytes [offsetExpected] [offsetProvided 7] =
        .ok (bytes', [], []) ∧
      Valid .earlier (fun context _ => context.memories ≤ 1) bytes' m' ∧
      Preserves offsetModule m' [⟨offsetExpected, offsetProvided 7⟩] [] [] := by
  have hplain : PlainGlobals .earlier offsetModule := {
    tags := by decide
    ends := by decide
    reads := nofun }
  have hexpected : List.Forall₂ Describes offsetModule.imports [offsetExpected] :=
    .cons ⟨rfl, rfl, rfl, rfl⟩ .nil
  have haccepted : validateImports [offsetExpected] [offsetProvided 7] =
      .ok [⟨offsetExpected, offsetProvided 7⟩] := rfl
  have hsupported : ∀ v ∈ ([⟨offsetExpected, offsetProvided 7⟩] : List Validated),
      v.Supported := by
    intro v hin
    rw [List.mem_singleton.1 hin]
    rfl
  obtain ⟨bytes', initializers, functionImports, hrewrite, hpreserves⟩ :=
    rewrite_preserves id offsetModule_valid hexpected haccepted hsupported fun _ => hplain
  rw [rewrite_offset] at hrewrite
  cases hrewrite
  obtain ⟨m', hvalid, hsame⟩ := hpreserves (by decide)
  exact ⟨_, m', rewrite_offset, hvalid, hsame⟩

/-! ### A function with two results -/

/-- `(type (func (result i32 i32)))` and `(import "a" "b" (func (type 0)))`. -/
def pairModule : Module where
  sections := [⟨1, [1, 0x60, 0, 2, 0x7F, 0x7F]⟩, ⟨2, [1, 1, 97, 1, 98, 0, 0]⟩]
  imports := [⟨[97], [98], .func 0⟩]
  functions := []
  memories := []
  globals := []

def pairBytes : Bytes :=
  magic ++ [1, 6, 1, 0x60, 0, 2, 0x7F, 0x7F, 2, 7, 1, 1, 97, 1, 98, 0, 0]

def pairExpected : Expected := ⟨[97], [98], .function [] ["i32", "i32"] 0⟩

def pairProvided : Provided where
  module := [97]
  name := [98]
  kind := "function"
  callbackName := some (.bin [99])
  bytes := none
  max := none
  type := none
  isMutable := none
  value := none

theorem pairModule_valid :
    Valid .earlier (fun context _ => context.memories ≤ 1) pairBytes pairModule where
  sections := by
    have himports : IsSections [2, 7, 1, 1, 97, 1, 98, 0, 0] [⟨2, [1, 1, 97, 1, 98, 0, 0]⟩] :=
      @IsSections.cons 2 [7] [1, 1, 97, 1, 98, 0, 0] [] [] (U32.byte 7 (by decide)) .nil
    exact ⟨_, rfl, @IsSections.cons 1 [6] [1, 0x60, 0, 2, 0x7F, 0x7F] _ _
      (U32.byte 6 (by decide)) himports⟩
  inPlace := ⟨by decide, by decide⟩
  imports := by
    refine .present (List.mem_cons_of_mem _ List.mem_cons_self) ⟨[1], [[1, 97, 1, 98, 0, 0]], rfl,
      U32.byte 1 (by decide), .cons ?_ .nil⟩
    exact ⟨[1, 97], [1, 98], _, rfl, ⟨[1], rfl, U32.byte 1 (by decide)⟩,
      ⟨[1], rfl, U32.byte 1 (by decide)⟩, .func (U32.byte 0 (by decide))⟩
  functions := .absent (by decide)
  memories := .absent (by decide)
  globals := .absent (by decide)
  importedLimits := by
    intro i hin
    rw [List.mem_singleton.1 hin]
    nofun
  limits := nofun
  inits := nofun
  rest := by decide

/-- An accepted import of a function with two results raises. -/
theorem multiValue_raises :
    ¬ ∀ (m : Module) (bytes : Bytes) (expected : List Expected) (provided : List Provided)
      (validated : List Validated),
      Valid .earlier (fun context _ => context.memories ≤ 1) bytes m →
      List.Forall₂ Describes m.imports expected →
      validateImports expected provided = .ok validated →
      ∃ bytes' initializers functionImports,
        rewrite id bytes expected provided = .ok (bytes', initializers, functionImports) := by
  intro h
  obtain ⟨bytes', initializers, functionImports, hrewrite⟩ :=
    h pairModule pairBytes [pairExpected] [pairProvided] [⟨pairExpected, pairProvided⟩]
      pairModule_valid (.cons ⟨rfl, rfl, rfl⟩ .nil) rfl
  have hraises : rewrite id pairBytes [pairExpected] [pairProvided] = .error .raised := rfl
  rw [hraises] at hrewrite
  cases hrewrite

end QuickBeam.Wasm.ImportRewriter
