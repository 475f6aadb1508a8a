import QuickBeam.Lib.Except
import QuickBeam.Lib.Grouping

/-!
# The table of host imports (`wasm_host_imports.zig`)

`prepare` groups the imports by their modules in three passes: the first gives each import the
index of its module and counts the imports of a module, the second lays the groups out one behind
the other, and the third puts each import into the next cell of its module.

Memory is there when it is asked for.  An index that is out of bounds and a count that does not fit
in 32 bits are errors here; fresh memory is `none`.  `prepare_grouped` is what the table holds.
-/

namespace QuickBeam.Wasm.HostImports

open QuickBeam.Lib QuickBeam.Lib.Grouping

/-! ### Data -/

abbrev Text := List UInt8

structure ImportSpec where
  moduleName : Text
  symbol : Text
  signature : Text
  callbackName : Text

inductive CallbackMode where
  | beam
  | js
deriving DecidableEq

structure Attachment where
  runtimeData : ℕ
  callbackName : Text
  signature : Text
deriving DecidableEq

/-- The function that `host_import_callback` gives is named by its mode. -/
structure NativeSymbol where
  symbol : Text
  funcPtr : CallbackMode
  signature : Text
  attachment : Attachment
deriving DecidableEq

/-- `WamrNativeModule`: `symbols` points into the table of symbols. -/
structure NativeModule where
  moduleName : Text
  symbols : Option ℕ
  symbolCount : ℕ
deriving DecidableEq

/-- `PreparedImports`; `writes` are the cells that have been written, in their order. -/
structure PreparedImports where
  registrations : List NativeModule
  symbols : List (Option NativeSymbol)
  attachments : List (Option Attachment)
  moduleNames : List Text
  symbolNames : List (Option Text)
  signatures : List (Option Text)
  callbackNames : List (Option Text)
  writes : List ℕ
deriving DecidableEq

inductive Panic where
  | indexOutOfBounds
  | integerCast
deriving DecidableEq

/-! ### The passes -/

def elem {α : Type} (items : List α) (index : ℕ) : Except Panic α :=
  match items[index]? with
  | some item => .ok item
  | none => .error .indexOutOfBounds

def store {α : Type} (items : List α) (index : ℕ) (item : α) : Except Panic (List α) :=
  if index < items.length then .ok (items.set index item) else .error .indexOutOfBounds

def findModuleIndex (moduleNames : List Text) (moduleName : Text) : Option ℕ :=
  moduleNames.findIdx? (· == moduleName)

/-- The module of an import: a new one is appended with the count zero. -/
def moduleIndexOf (moduleNames : List Text) (counts : List ℕ) (moduleName : Text) :
    ℕ × List Text × List ℕ :=
  match findModuleIndex moduleNames moduleName with
  | some index => (index, moduleNames, counts)
  | none => (moduleNames.length, moduleNames ++ [moduleName], counts ++ [0])

/-- The first pass: `import_module_indices`, `module_names_list` and `module_counts`. -/
def collect : List ImportSpec → List Text → List ℕ → Except Panic (List ℕ × List Text × List ℕ)
  | [], moduleNames, counts => .ok ([], moduleNames, counts)
  | spec :: rest, moduleNames, counts => do
    let (moduleIndex, moduleNames, counts) := moduleIndexOf moduleNames counts spec.moduleName
    let count ← elem counts moduleIndex
    let (indices, moduleNames, counts) ← collect rest moduleNames (counts.set moduleIndex (count + 1))
    .ok (moduleIndex :: indices, moduleNames, counts)

def symbolsAt (symbolCount nextSymbolIndex count : ℕ) : Except Panic (Option ℕ) :=
  if 0 < count then
    if nextSymbolIndex < symbolCount then .ok (some nextSymbolIndex) else .error .indexOutOfBounds
  else .ok none

def intCast (count : ℕ) : Except Panic ℕ :=
  if count < 2 ^ 32 then .ok count else .error .integerCast

/-- The second pass: the registrations and `module_starts`, from the module at `index` on. -/
def register (moduleNames : List Text) (symbolCount : ℕ) :
    ℕ → ℕ → List ℕ → Except Panic (List NativeModule × List ℕ)
  | _, _, [] => .ok ([], [])
  | index, nextSymbolIndex, count :: counts => do
    let moduleName ← elem moduleNames index
    let symbols ← symbolsAt symbolCount nextSymbolIndex count
    let count32 ← intCast count
    let (registrations, starts) ← register moduleNames symbolCount (index + 1)
      (nextSymbolIndex + count) counts
    .ok (⟨moduleName, symbols, count32⟩ :: registrations, nextSymbolIndex :: starts)

def attachmentOf (runtimeData : ℕ) (spec : ImportSpec) : Attachment :=
  ⟨runtimeData, spec.callbackName, spec.signature⟩

def symbolOf (runtimeData : ℕ) (mode : CallbackMode) (spec : ImportSpec) : NativeSymbol :=
  ⟨spec.symbol, mode, spec.signature, attachmentOf runtimeData spec⟩

/-- An import is put into a cell of the tables. -/
def place (runtimeData : ℕ) (mode : CallbackMode) (spec : ImportSpec) (symbolIndex : ℕ)
    (prepared : PreparedImports) : Except Panic PreparedImports := do
  let symbolNames ← store prepared.symbolNames symbolIndex (some spec.symbol)
  let signatures ← store prepared.signatures symbolIndex (some spec.signature)
  let callbackNames ← store prepared.callbackNames symbolIndex (some spec.callbackName)
  let attachments ← store prepared.attachments symbolIndex (some (attachmentOf runtimeData spec))
  let symbols ← store prepared.symbols symbolIndex (some (symbolOf runtimeData mode spec))
  .ok { prepared with
    symbols := symbols
    attachments := attachments
    symbolNames := symbolNames
    signatures := signatures
    callbackNames := callbackNames
    writes := prepared.writes ++ [symbolIndex] }

def fill (runtimeData : ℕ) (mode : CallbackMode) :
    List (ImportSpec × ℕ) → List ℕ → PreparedImports → Except Panic PreparedImports
  | [], _, prepared => .ok prepared
  | (spec, moduleIndex) :: rest, offsets, prepared => do
    let symbolIndex ← elem offsets moduleIndex
    let prepared ← place runtimeData mode spec symbolIndex prepared
    fill runtimeData mode rest (offsets.set moduleIndex (symbolIndex + 1)) prepared

def empty : PreparedImports := ⟨[], [], [], [], [], [], [], []⟩

def prepare (imports : List ImportSpec) (runtimeData : ℕ) (mode : CallbackMode) :
    Except Panic PreparedImports :=
  if imports = [] then .ok empty
  else do
    let (indices, moduleNames, counts) ← collect imports [] []
    let (registrations, starts) ← register moduleNames imports.length 0 0 counts
    fill runtimeData mode (imports.zip indices) starts
      { registrations := registrations
        symbols := List.replicate imports.length none
        attachments := List.replicate imports.length none
        moduleNames := moduleNames
        symbolNames := List.replicate imports.length none
        signatures := List.replicate imports.length none
        callbackNames := List.replicate imports.length none
        writes := [] }

/-! ### The modules -/

abbrev importsOf (moduleName : Text) (imports : List ImportSpec) : List ImportSpec :=
  members ImportSpec.moduleName moduleName imports

theorem length_importsOf_self (spec : ImportSpec) (seen : List ImportSpec) :
    (importsOf spec.moduleName (seen ++ [spec])).length =
      (importsOf spec.moduleName seen).length + 1 :=
  (congrArg List.length members_append_self).trans List.length_append

variable {spec : ImportSpec}

theorem length_importsOf_of_ne {name : Text} (h : name ≠ spec.moduleName) (seen : List ImportSpec) :
    (importsOf name (seen ++ [spec])).length = (importsOf name seen).length :=
  congrArg List.length (members_append_of_ne h)

theorem length_importsOf_le (name : Text) (seen rest : List ImportSpec) :
    (importsOf name seen).length ≤ (importsOf name (seen ++ rest)).length := by
  have happend : importsOf name (seen ++ rest) = importsOf name seen ++ importsOf name rest :=
    members_append ..
  rw [happend, List.length_append]
  exact Nat.le_add_right _ _

structure Collected (seen : List ImportSpec) (moduleNames : List Text) (counts : List ℕ) : Prop where
  nodup : moduleNames.Nodup
  mem : ∀ name, name ∈ moduleNames ↔ ∃ spec ∈ seen, spec.moduleName = name
  counts : counts = moduleNames.map fun name => (importsOf name seen).length

theorem collected_nil : Collected [] [] [] := ⟨List.nodup_nil, by simp, rfl⟩

variable {counts : List ℕ} {moduleNames : List Text} {seen : List ImportSpec}

theorem moduleIndexOf_spec (h : Collected seen moduleNames counts) (moduleName : Text) :
    ∃ index moduleNames' counts', moduleIndexOf moduleNames counts moduleName =
        (index, moduleNames', counts') ∧
      moduleNames'[index]? = some moduleName ∧ moduleNames <+: moduleNames' ∧ moduleNames'.Nodup ∧
      (∀ name, name ∈ moduleNames' ↔ name ∈ moduleNames ∨ name = moduleName) ∧
      counts' = moduleNames'.map fun name => (importsOf name seen).length := by
  unfold moduleIndexOf findModuleIndex
  cases hfind : moduleNames.findIdx? (· == moduleName) with
  | some index =>
    obtain ⟨hlt, heq, -⟩ := List.findIdx?_eq_some_iff_getElem.1 hfind
    have hname : moduleNames[index] = moduleName := eq_of_beq heq
    have hget : moduleNames[index]? = some moduleName := by
      rw [List.getElem?_eq_getElem hlt, hname]
    refine ⟨index, moduleNames, counts, rfl, hget, List.prefix_refl _, h.nodup, fun name => ?_,
      h.counts⟩
    exact (or_iff_left_of_imp fun heq => heq ▸ List.mem_of_getElem? hget).symm
  | none =>
    have hnot : moduleName ∉ moduleNames := fun hmem => by
      have := List.findIdx?_eq_none_iff.1 hfind moduleName hmem
      rw [beq_self_eq_true] at this
      cases this
    have hnone : (importsOf moduleName seen).length = 0 := by
      rw [List.length_eq_zero_iff]
      refine List.filter_eq_nil_iff.2 fun spec hspec hname => hnot ((h.mem moduleName).2 ?_)
      exact ⟨spec, hspec, of_decide_eq_true hname⟩
    refine ⟨moduleNames.length, moduleNames ++ [moduleName], counts ++ [0], rfl, ?_,
      List.prefix_append _ _, ?_, fun name => ?_, ?_⟩
    · rw [List.getElem?_append_right (Nat.le_refl _), Nat.sub_self]
      rfl
    · exact List.nodup_append.2 ⟨h.nodup, List.nodup_singleton _, fun a ha b hb heq =>
        hnot (List.mem_singleton.1 hb ▸ heq ▸ ha)⟩
    · rw [List.mem_append, List.mem_singleton]
    · rw [List.map_append, ← h.counts, List.map_singleton, hnone]

variable {index : ℕ}

theorem counts_set (hnodup : moduleNames.Nodup)
    (hget : moduleNames[index]? = some spec.moduleName) :
    (moduleNames.map fun name => (importsOf name seen).length).set index
        ((importsOf spec.moduleName seen).length + 1) =
      moduleNames.map fun name => (importsOf name (seen ++ [spec])).length := by
  refine List.ext_getElem? fun j => ?_
  rw [List.getElem?_set, List.getElem?_map]
  have hlt := (List.getElem?_eq_some_iff.1 hget).1
  by_cases hj : index = j
  · subst hj
    rw [if_pos rfl, List.length_map, if_pos hlt, List.getElem?_map, hget]
    rw [Option.map_some, length_importsOf_self]
  · rw [if_neg hj, List.getElem?_map]
    cases hname : moduleNames[j]? with
    | none => rfl
    | some name =>
      have hne : name ≠ spec.moduleName := fun hsame =>
        hj ((List.getElem?_inj hlt hnodup).1 (hget.trans (hsame ▸ hname.symm)))
      rw [Option.map_some, Option.map_some, length_importsOf_of_ne hne]

/-- **The first pass**: every module once, the number of its imports, and the module of each. -/
theorem collect_spec {rest : List ImportSpec} :
    ∀ {seen : List ImportSpec} {moduleNames : List Text} {counts : List ℕ},
      Collected seen moduleNames counts →
      ∃ indices moduleNames' counts', collect rest moduleNames counts =
          .ok (indices, moduleNames', counts') ∧
        moduleNames <+: moduleNames' ∧ Collected (seen ++ rest) moduleNames' counts' ∧
        List.Forall₂ (fun spec index => moduleNames'[index]? = some spec.moduleName) rest indices := by
  induction rest with
  | nil =>
    intro seen moduleNames counts h
    exact ⟨[], moduleNames, counts, rfl, List.prefix_refl _, by rwa [List.append_nil], .nil⟩
  | cons spec rest ih =>
    intro seen moduleNames counts h
    obtain ⟨index, names, counts₁, hindex, hget, hprefix, hnodup, hmem, hcounts⟩ :=
      moduleIndexOf_spec h spec.moduleName
    have hcount : counts₁[index]? = some (importsOf spec.moduleName seen).length := by
      rw [hcounts, List.getElem?_map, hget]
      rfl
    have hstep : Collected (seen ++ [spec]) names
        (counts₁.set index ((importsOf spec.moduleName seen).length + 1)) := by
      refine ⟨hnodup, fun name => ?_, ?_⟩
      · rw [hmem, h.mem]
        simp [or_and_right, exists_or, eq_comm]
      · rw [hcounts]
        exact counts_set hnodup hget
    obtain ⟨indices, names', counts', hcollect, hprefix', hcollected, hall⟩ := ih hstep
    refine ⟨index :: indices, names', counts', ?_, hprefix.trans hprefix', ?_, .cons ?_ hall⟩
    · unfold collect
      rw [hindex]
      unfold elem
      dsimp only
      rw [hcount]
      show (collect rest _ _ >>= fun _ => _) = _
      rw [hcollect]
      rfl
    · rwa [List.append_assoc] at hcollected
    · obtain ⟨tail, rfl⟩ := hprefix'
      rw [List.getElem?_append_left (List.getElem?_eq_some_iff.1 hget).1]
      exact hget

/-! ### The layout -/

/-- The registrations of modules whose symbols begin at `next`. -/
def layout (size : Text → ℕ) : ℕ → List Text → List NativeModule
  | _, [] => []
  | next, name :: names => ⟨name, some next, size name⟩ :: layout size (next + size name) names

/-- **The second pass**, when the counts are those of modules with imports. -/
theorem register_spec {size : Text → ℕ} {symbolCount : ℕ} {names : List Text} :
    ∀ {before : List Text} {next : ℕ}, (∀ name ∈ names, 0 < size name) →
      next + (names.map size).sum ≤ symbolCount →
      ((∀ name ∈ names, size name < 2 ^ 32) ∧
        register (before ++ names) symbolCount before.length next (names.map size) =
          .ok (layout size next names, starts size next names)) ∨
      (∃ name ∈ names, 2 ^ 32 ≤ size name) ∧
        register (before ++ names) symbolCount before.length next (names.map size) =
          .error .integerCast := by
  induction names with
  | nil => exact fun _ _ => .inl ⟨nofun, rfl⟩
  | cons name names ih =>
    intro before next hpos hsum
    obtain ⟨hname, hnames⟩ := List.forall_mem_cons.1 hpos
    rw [List.map_cons, List.sum_cons] at hsum
    have hget : (before ++ name :: names)[before.length]? = some name := by
      rw [List.getElem?_append_right (Nat.le_refl _), Nat.sub_self]
      rfl
    have hlength : (before ++ [name]).length = before.length + 1 := List.length_append
    have happend : before ++ name :: names = before ++ [name] ++ names := by
      rw [List.append_assoc]
      rfl
    have hsymbols : symbolsAt symbolCount next (size name) = .ok (some next) := by
      unfold symbolsAt
      rw [if_pos hname, if_pos (by omega)]
    have hstep : register (before ++ name :: names) symbolCount before.length next
        ((name :: names).map size) =
        intCast (size name) >>= fun count32 =>
          register (before ++ [name] ++ names) symbolCount (before ++ [name]).length
            (next + size name) (names.map size) >>= fun result =>
              .ok (⟨name, some next, count32⟩ :: result.1, next :: result.2) := by
      rw [List.map_cons, register]
      unfold elem
      rw [hget, hsymbols, ← happend, hlength]
      rfl
    rw [hstep]
    unfold intCast
    by_cases hcast : size name < 2 ^ 32
    · rw [if_pos hcast]
      rcases @ih (before ++ [name]) (next + size name) hnames (by omega) with
        ⟨hall, hok⟩ | ⟨⟨large, hmem, hlarge⟩, herror⟩
      · refine .inl ⟨List.forall_mem_cons.2 ⟨hcast, hall⟩, ?_⟩
        show (register _ _ _ _ _ >>= fun _ => _) = _
        rw [hok]
        rfl
      · refine .inr ⟨⟨large, List.mem_cons_of_mem _ hmem, hlarge⟩, ?_⟩
        show (register _ _ _ _ _ >>= fun _ => _) = _
        rw [herror]
        rfl
    · rw [if_neg hcast]
      exact .inr ⟨⟨name, List.mem_cons_self, Nat.le_of_not_lt hcast⟩, rfl⟩

/-! ### The tables -/

def tables (runtimeData : ℕ) (mode : CallbackMode) (registrations : List NativeModule)
    (names : List Text) (cells : List (Option ImportSpec)) (writes : List ℕ) : PreparedImports where
  registrations := registrations
  symbols := cells.map (Option.map (symbolOf runtimeData mode))
  attachments := cells.map (Option.map (attachmentOf runtimeData))
  moduleNames := names
  symbolNames := cells.map (Option.map ImportSpec.symbol)
  signatures := cells.map (Option.map ImportSpec.signature)
  callbackNames := cells.map (Option.map ImportSpec.callbackName)
  writes := writes

theorem store_map {α : Type} (f : ImportSpec → α) {cells : List (Option ImportSpec)}
    (h : index < cells.length) (spec : ImportSpec) :
    store (cells.map (Option.map f)) index (some (f spec)) =
      .ok ((cells.set index (some spec)).map (Option.map f)) := by
  unfold store
  rw [if_pos (by rwa [List.length_map]), List.map_set]
  rfl

theorem place_tables {runtimeData : ℕ} {mode : CallbackMode} {registrations : List NativeModule}
    {names : List Text} {cells : List (Option ImportSpec)} {writes : List ℕ} {index : ℕ}
    (h : index < cells.length) (spec : ImportSpec) :
    place runtimeData mode spec index (tables runtimeData mode registrations names cells writes) =
      .ok (tables runtimeData mode registrations names (cells.set index (some spec))
        (writes ++ [index])) := by
  unfold place tables
  dsimp only
  rw [store_map ImportSpec.symbol h spec, store_map ImportSpec.signature h spec,
    store_map ImportSpec.callbackName h spec, store_map (attachmentOf runtimeData) h spec,
    store_map (symbolOf runtimeData mode) h spec]
  rfl

/-- The cells that have been written are the filled ones, each written once. -/
structure Written (cells : List (Option ImportSpec)) (writes : List ℕ) : Prop where
  nodup : writes.Nodup
  mem : ∀ index, index ∈ writes ↔ ∃ spec, cells[index]? = some (some spec)

variable {writes : List ℕ}

theorem Written.set {cells : List (Option ImportSpec)} (h : Written cells writes)
    (hfree : cells[index]? = some none) (spec : ImportSpec) : Written (cells.set index (some spec)) (writes ++ [index]) := by
  have hlt : index < cells.length := (List.getElem?_eq_some_iff.1 hfree).1
  have hnot : index ∉ writes := fun hmem => by
    obtain ⟨spec, hspec⟩ := (h.mem index).1 hmem
    rw [hfree] at hspec
    cases hspec
  refine ⟨?_, fun j => ?_⟩
  · exact List.nodup_append.2 ⟨h.nodup, List.nodup_singleton _, fun a ha b hb heq =>
      hnot (List.mem_singleton.1 hb ▸ heq ▸ ha)⟩
  · rw [List.mem_append, List.mem_singleton, List.getElem?_set]
    by_cases hj : index = j
    · subst hj
      rw [if_pos rfl, if_pos hlt]
      exact ⟨fun _ => ⟨spec, rfl⟩, fun _ => .inr rfl⟩
    · rw [if_neg hj, h.mem]
      exact or_iff_left (Ne.symm hj)

def Offsets (size : Text → ℕ) (names : List Text) (placed : List ImportSpec) (offsets : List ℕ) : Prop :=
  ∀ (index : ℕ) (name : Text) (start : ℕ), names[index]? = some name → (starts size 0 names)[index]? = some start →
    offsets[index]? = some (start + (importsOf name placed).length)

variable {names : List Text} {size : Text → ℕ}

theorem Offsets.set {placed : List ImportSpec} {offsets : List ℕ}
    (h : Offsets size names placed offsets) (hnodup : names.Nodup) {index start : ℕ}
    (hname : names[index]? = some spec.moduleName)
    (hstart : (starts size 0 names)[index]? = some start) : Offsets size names (placed ++ [spec])
      (offsets.set index (start + (importsOf spec.moduleName placed).length + 1)) := by
  intro j name start' hname' hstart'
  have hoffset := h j name start' hname' hstart'
  rw [List.getElem?_set]
  by_cases hj : index = j
  · subst hj
    obtain rfl := Option.some.inj (hname.symm.trans hname')
    obtain rfl := Option.some.inj (hstart.symm.trans hstart')
    rw [if_pos rfl, if_pos (List.getElem?_eq_some_iff.1 hoffset).1, length_importsOf_self]
    rfl
  · have hlt := (List.getElem?_eq_some_iff.1 hname).1
    have hne : name ≠ spec.moduleName := fun hsame =>
      hj ((List.getElem?_inj hlt hnodup).1 (hname.trans (hsame ▸ hname'.symm)))
    rw [if_neg hj, length_importsOf_of_ne hne]
    exact hoffset

/-- **The third pass** puts every import behind those of its module. -/
theorem fill_spec {runtimeData : ℕ} {mode : CallbackMode} {registrations : List NativeModule}
    {names : List Text} {size : Text → ℕ} (hnodup : names.Nodup) {rest : List ImportSpec} :
    ∀ {placed : List ImportSpec} {indices offsets writes : List ℕ},
      (∀ name ∈ names, (importsOf name (placed ++ rest)).length ≤ size name) →
      List.Forall₂ (fun spec index => names[index]? = some spec.moduleName) rest indices →
      Offsets size names placed offsets →
      Written (cells ImportSpec.moduleName size names placed) writes →
      ∃ writes', fill runtimeData mode (rest.zip indices) offsets
          (tables runtimeData mode registrations names
            (cells ImportSpec.moduleName size names placed) writes) =
        .ok (tables runtimeData mode registrations names
          (cells ImportSpec.moduleName size names (placed ++ rest)) writes') ∧
        Written (cells ImportSpec.moduleName size names (placed ++ rest)) writes' := by
  induction rest with
  | nil =>
    intro placed indices offsets writes _ _ _ hwritten
    rw [List.append_nil]
    exact ⟨writes, rfl, hwritten⟩
  | cons spec rest ih =>
    intro placed indices offsets writes hroom hall hoffsets hwritten
    cases hall with
    | @cons _ index _ indices hname hall =>
      have hassoc : placed ++ spec :: rest = placed ++ [spec] ++ rest := by
        rw [List.append_assoc]
        rfl
      obtain ⟨start, hstart⟩ : ∃ start, (starts size 0 names)[index]? = some start := by
        refine ⟨_, List.getElem?_eq_getElem ?_⟩
        rw [length_starts]
        exact (List.getElem?_eq_some_iff.1 hname).1
      have hoffset := hoffsets index _ start hname hstart
      have hplaced : ∀ name ∈ names, (importsOf name placed).length ≤ size name := fun name hmem =>
        Nat.le_trans (length_importsOf_le name placed _) (hroom name hmem)
      have hfew : (importsOf spec.moduleName placed).length < size spec.moduleName := by
        have hle := hroom _ (List.mem_of_getElem? hname)
        rw [hassoc] at hle
        have hone := length_importsOf_le spec.moduleName (placed ++ [spec]) rest
        rw [length_importsOf_self] at hone
        omega
      obtain ⟨-, hfree, hset⟩ := @cells_place _ _ _ ImportSpec.moduleName size names placed spec hnodup
        hplaced hfew index start hname 0 hstart
      rw [Nat.sub_zero] at hfree hset
      have hlt := (List.getElem?_eq_some_iff.1 hfree).1
      have hplace := @place_tables runtimeData mode registrations names _ writes _ hlt spec
      rw [hset] at hplace
      rw [hassoc] at hroom ⊢
      have hwritten' := hwritten.set hfree spec
      rw [hset] at hwritten'
      obtain ⟨writes', hfill, hdone⟩ := ih hroom hall (hoffsets.set hnodup hname hstart) hwritten'
      refine ⟨writes', ?_, hdone⟩
      show fill runtimeData mode ((spec, index) :: rest.zip indices) offsets _ = _
      unfold fill elem
      rw [hoffset]
      show (place _ _ _ _ _ >>= fun _ => _) = _
      rw [hplace]
      exact hfill

/-! ### The table of imports -/

/-- The registrations are laid out one behind the other: each begins where those before it end. -/
structure Grouped (imports : List ImportSpec) (runtimeData : ℕ) (mode : CallbackMode)
    (prepared : PreparedImports) : Prop where
  /-- One registration for each module. -/
  nodup : (prepared.registrations.map NativeModule.moduleName).Nodup
  modules : ∀ name, name ∈ prepared.registrations.map NativeModule.moduleName ↔
    ∃ spec ∈ imports, spec.moduleName = name
  moduleNames : prepared.moduleNames = prepared.registrations.map NativeModule.moduleName
  /-- The slices follow each other and cover the table. -/
  contiguous : ∀ (before after : List NativeModule) (registration : NativeModule),
    prepared.registrations = before ++ registration :: after →
    registration.symbols = some (before.map NativeModule.symbolCount).sum
  cover : (prepared.registrations.map NativeModule.symbolCount).sum = prepared.symbols.length
  length : prepared.symbols.length = imports.length
  /-- A slice has the symbols of the imports of its module in their order, and is not empty. -/
  slice : ∀ registration ∈ prepared.registrations, ∃ start, registration.symbols = some start ∧
    0 < registration.symbolCount ∧
    (prepared.symbols.drop start).take registration.symbolCount =
      (imports.filter (·.moduleName = registration.moduleName)).map
        fun spec => some (symbolOf runtimeData mode spec)
  /-- The tables behind the symbols agree with them. -/
  attachments : prepared.attachments = prepared.symbols.map (Option.map NativeSymbol.attachment)
  symbolNames : prepared.symbolNames = prepared.symbols.map (Option.map NativeSymbol.symbol)
  signatures : prepared.signatures = prepared.symbols.map (Option.map NativeSymbol.signature)
  callbackNames : prepared.callbackNames =
    prepared.symbols.map (Option.map fun symbol => symbol.attachment.callbackName)
  /-- Every cell has been written once. -/
  once : prepared.writes.Perm (List.range imports.length)

theorem grouped_empty (runtimeData : ℕ) (mode : CallbackMode) :
    Grouped [] runtimeData mode empty where
  nodup := List.nodup_nil
  modules := fun name => ⟨nofun, nofun⟩
  moduleNames := rfl
  contiguous := fun before after registration h => by
    have hlength := congrArg List.length h
    rw [List.length_append] at hlength
    cases hlength
  cover := rfl
  length := rfl
  slice := nofun
  attachments := rfl
  symbolNames := rfl
  signatures := rfl
  callbackNames := rfl
  once := List.Perm.refl _

theorem layout_moduleName (size : Text → ℕ) :
    ∀ next, (layout size next names).map NativeModule.moduleName = names := by
  induction names with
  | nil => exact fun _ => rfl
  | cons name names ih => exact fun next => congrArg (name :: ·) (ih _)

theorem layout_symbolCount (size : Text → ℕ) :
    ∀ next, (layout size next names).map NativeModule.symbolCount = names.map size := by
  induction names with
  | nil => exact fun _ => rfl
  | cons name names ih => exact fun next => congrArg (size name :: ·) (ih _)

theorem layout_contiguous (size : Text → ℕ) :
    ∀ {next : ℕ} {before after : List NativeModule} {registration : NativeModule},
      layout size next names = before ++ registration :: after →
      registration.symbols = some (next + (before.map NativeModule.symbolCount).sum) := by
  induction names with
  | nil =>
    intro next before after registration h
    have hlength := congrArg List.length h
    rw [List.length_append] at hlength
    cases hlength
  | cons name names ih =>
    intro next before after registration h
    cases before with
    | nil =>
      obtain ⟨rfl, -⟩ := List.cons.inj h
      rfl
    | cons first before =>
      obtain ⟨rfl, hrest⟩ := List.cons.inj h
      rw [ih hrest, List.map_cons, List.sum_cons, Nat.add_assoc]

theorem layout_mem {registration : NativeModule} :
    ∀ {next : ℕ}, registration ∈ layout size next names →
      ∃ (index start : ℕ), names[index]? = some registration.moduleName ∧
        (starts size next names)[index]? = some start ∧ registration.symbols = some start ∧
        registration.symbolCount = size registration.moduleName := by
  induction names with
  | nil => exact nofun
  | cons name names ih =>
    intro next hmem
    rcases List.mem_cons.1 hmem with rfl | hmem
    · exact ⟨0, next, rfl, rfl, rfl, rfl⟩
    · obtain ⟨index, start, hname, hstart, hrest⟩ := ih hmem
      exact ⟨index + 1, start, hname, hstart, hrest⟩

theorem Written.perm {items : List ImportSpec} (h : Written (items.map some) writes) :
    writes.Perm (List.range items.length) := by
  refine (List.perm_ext_iff_of_nodup h.nodup List.nodup_range).2 fun index => ?_
  rw [h.mem, List.mem_range]
  constructor
  · rintro ⟨spec, hspec⟩
    have hlt := (List.getElem?_eq_some_iff.1 hspec).1
    rwa [List.length_map] at hlt
  · intro hlt
    exact ⟨items[index], by rw [List.getElem?_map, List.getElem?_eq_getElem hlt]; rfl⟩

theorem written_replicate (n : ℕ) : Written (List.replicate n none) [] := by
  refine ⟨List.nodup_nil, fun index => ⟨nofun, ?_⟩⟩
  rintro ⟨spec, hspec⟩
  cases List.eq_of_mem_replicate (List.mem_of_getElem? hspec)

theorem offsets_starts (size : Text → ℕ) (names : List Text) :
    Offsets size names [] (starts size 0 names) := fun _ _ _ _ hstart => hstart

theorem grouped_tables {imports : List ImportSpec} (hcollected : Collected imports names counts)
    (runtimeData : ℕ) (mode : CallbackMode)
    (hwritten : Written (cells ImportSpec.moduleName (fun name => (importsOf name
    imports).length) names imports) writes) : Grouped imports runtimeData mode
      (tables runtimeData mode (layout (fun name => (importsOf name imports).length) 0 names) names
        (cells ImportSpec.moduleName (fun name => (importsOf name imports).length) names imports)
        writes) := by
  have hfull := @cells_full _ _ _ ImportSpec.moduleName
    (fun name => (importsOf name imports).length) names imports fun _ _ => rfl
  have hmem : ∀ spec ∈ imports, spec.moduleName ∈ names :=
    fun spec hspec => (hcollected.mem _).2 ⟨spec, hspec, rfl⟩
  have hsum := sum_length_members hcollected.nodup hmem
  have hlength : (names.flatMap fun name => importsOf name imports).length = imports.length := by
    rw [List.length_flatMap]
    exact hsum
  rw [hfull] at hwritten ⊢
  have hsymbols : (tables runtimeData mode
      (layout (fun name => (importsOf name imports).length) 0 names) names
      ((names.flatMap fun name => importsOf name imports).map some) writes).symbols =
      (names.flatMap fun name => importsOf name imports).map
        fun spec => some (symbolOf runtimeData mode spec) := by
    show List.map _ (List.map some _) = _
    rw [List.map_map]
    rfl
  refine
    { nodup := ?_
      modules := fun name => ?_
      moduleNames := (layout_moduleName _ 0).symm
      contiguous := fun before after registration h => ?_
      cover := ?_
      length := ?_
      slice := fun registration hreg => ?_
      attachments := ?_
      symbolNames := ?_
      signatures := ?_
      callbackNames := ?_
      once := hlength ▸ hwritten.perm }
  · show ((layout _ 0 names).map _).Nodup
    rw [layout_moduleName]
    exact hcollected.nodup
  · show name ∈ (layout _ 0 names).map _ ↔ _
    rw [layout_moduleName]
    exact hcollected.mem name
  · have := layout_contiguous _ h
    rwa [Nat.zero_add] at this
  · rw [hsymbols, List.length_map, hlength]
    show ((layout _ 0 names).map _).sum = _
    rw [layout_symbolCount]
    exact hsum
  · rw [hsymbols, List.length_map, hlength]
  · obtain ⟨index, start, hname, hstart, hsym, hcount⟩ := layout_mem hreg
    refine ⟨start, hsym, ?_, ?_⟩
    · rw [hcount]
      obtain ⟨spec, hspec, heq⟩ := (hcollected.mem _).1 (List.mem_of_getElem? hname)
      refine List.length_pos_of_mem (List.mem_filter.2 ⟨hspec, ?_⟩)
      exact decide_eq_true heq
    · obtain ⟨-, hslice⟩ := slice_flatMap (fun name => importsOf name imports) hname hstart
      rw [hsymbols, hcount, ← List.map_drop, ← List.map_take]
      exact congrArg _ hslice
  all_goals
    show List.map _ (List.map some _) = List.map _ (List.map _ (List.map some _))
    rw [List.map_map, List.map_map, List.map_map]
    rfl

/-- **The table of host imports.**  A registration for each module, whose slices follow each other,
cover the table and have the imports of the module in their order; every cell is written once.  It
fails when the imports of a module do not fit in 32 bits, and no index is out of bounds. -/
theorem prepare_grouped (imports : List ImportSpec) (runtimeData : ℕ) (mode : CallbackMode) :
    (∃ prepared, prepare imports runtimeData mode = .ok prepared ∧
      Grouped imports runtimeData mode prepared) ∨
    prepare imports runtimeData mode = .error .integerCast ∧
      ∃ name, 2 ^ 32 ≤ (imports.filter (·.moduleName = name)).length := by
  unfold prepare
  by_cases hempty : imports = []
  · subst hempty
    exact .inl ⟨empty, rfl, grouped_empty runtimeData mode⟩
  rw [if_neg hempty]
  obtain ⟨indices, names, counts, hcollect, -, hcollected, hall⟩ :=
    @collect_spec imports [] [] [] collected_nil
  rw [List.nil_append] at hcollected
  rw [hcollect]
  have hmem : ∀ spec ∈ imports, spec.moduleName ∈ names :=
    fun spec hspec => (hcollected.mem _).2 ⟨spec, hspec, rfl⟩
  have hsum := sum_length_members hcollected.nodup hmem
  have hpos : ∀ name ∈ names, 0 < (importsOf name imports).length := fun name hname => by
    obtain ⟨spec, hspec, heq⟩ := (hcollected.mem name).1 hname
    exact List.length_pos_of_mem (List.mem_filter.2 ⟨hspec, decide_eq_true heq⟩)
  have hregister := @register_spec (fun name => (importsOf name imports).length) imports.length names
    [] 0 hpos (by rw [Nat.zero_add]; exact Nat.le_of_eq hsum)
  rw [← hcollected.counts, List.nil_append] at hregister
  rcases hregister with ⟨-, hok⟩ | ⟨⟨name, -, hlarge⟩, herror⟩
  · refine .inl ?_
    have hcells : List.replicate imports.length none =
        cells ImportSpec.moduleName (fun name => (importsOf name imports).length) names [] := by
      rw [cells_nil, hsum]
    obtain ⟨writes, hfill, hwritten⟩ := @fill_spec runtimeData mode
      (layout (fun name => (importsOf name imports).length) 0 names) names
      (fun name => (importsOf name imports).length) hcollected.nodup imports [] indices
      (starts (fun name => (importsOf name imports).length) 0 names) []
      (fun name _ => Nat.le_refl _) hall (offsets_starts _ _) (hcells ▸ written_replicate _)
    rw [List.nil_append] at hfill hwritten
    refine ⟨_, ?_, grouped_tables hcollected runtimeData mode hwritten⟩
    show (register names imports.length 0 0 counts >>= fun _ => _) = _
    have hok' : register names imports.length 0 0 counts = _ := hok
    rw [hok']
    rw [← hcells] at hfill
    unfold tables at hfill
    simp only [List.map_replicate, Option.map_none] at hfill
    exact hfill
  · refine .inr ⟨?_, name, hlarge⟩
    show (register names imports.length 0 0 counts >>= fun _ => _) = _
    have herror' : register names imports.length 0 0 counts = _ := herror
    rw [herror']
    rfl

end QuickBeam.Wasm.HostImports
