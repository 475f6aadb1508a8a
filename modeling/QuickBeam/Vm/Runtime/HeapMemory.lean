import QuickBeam.Vm.Runtime.HeapIntegrity

/-!
# The memory of heap writes, and the paths of array indices

`runtime/memory.ex` charges every new object and every new property.  `runtime/heap.ex` writes an
array index that has the default flags on a path of its own; `allocate_array/2` builds a dense
array at once.  Both agree with the generic path, the charge included:

* `put/4` for every heap;
* `define/5` but for a default element at or beyond a length that cannot be written, which no
  heap has that operations build: the path replaces an element without a look at the length;
* `allocate_array/2` for the lists whose indices are array indices.
-/

namespace QuickBeam.Vm.Runtime

open QuickBeam.Lib QuickBeam.Vm.Program

/-! ### Accounting (`runtime/memory.ex`) -/

/-- The accounting of an evaluation; no limit is `:infinity`. -/
structure Memory where
  used : ℕ
  limit : Option ℕ
  exceeded : Bool
deriving DecidableEq

namespace Memory

def charge (m : Memory) (bytes : ℕ) : Memory :=
  { m with
    used := m.used + bytes
    exceeded := m.exceeded || m.limit.any fun limit => limit < m.used + bytes }

-- `estimate/1` of the values; nothing below depends on what it answers.
variable (estimate : Value → ℕ)

def estimateOption : Option Value → ℕ
  | none => 8
  | some v => estimate v

def estimateKey : Key → ℕ
  | .index _ => 16
  | .name v => estimate v

/-- `estimate/1` of a property: a tuple, or a struct of seven fields. -/
def estimateStored : Stored → ℕ
  | .default v => 16 + estimate v
  | .full d =>
      64 + 7 * (32 + 8) + 4 * 8 + estimate d.value + estimateOption estimate d.getter +
        estimateOption estimate d.setter

def estimateObject (object : Object) : ℕ :=
  464 + (if object.prototype = none then 8 else 16) +
    (32 + object.properties.sumBy fun key stored =>
      32 + estimateKey estimate key + estimateStored estimate stored) +
    (object.propertyOrder.map fun key => 16 + estimateKey estimate key).sum +
    estimateOption estimate object.callable + estimateOption estimate object.internal

def chargeObject (m : Memory) (object : Object) : Memory :=
  m.charge (128 + estimateObject estimate object)

def chargeProperty (m : Memory) (key : Key) (value : Value) : Memory :=
  m.charge (64 + estimateKey estimate key + estimate value)

/-- The charges of `allocate_array/2`, from index `first` on. -/
def chargeElements (m : Memory) (first : ℕ) : List Value → Memory
  | [] => m
  | v :: vs => chargeElements (m.chargeProperty estimate (.index first) v) (first + 1) vs

end Memory

/-! ### Writes that charge -/

/-- The parts of an evaluation that a heap write reads and changes. -/
structure Execution where
  heap : Heap
  memory : Memory

namespace Heap

def newObject (h : Heap) (kind : Kind) (opts : AllocateOptions) : Object where
  __ := opts
  kind := kind
  prototype := opts.prototype.getD (h.defaultPrototypes.get? kind)
  properties := ∅
  propertyOrder := []
  extensible := true
  lengthWritable := true

/-- No options: a length of zero, the prototype of the kind. -/
def noAllocateOptions : AllocateOptions := ⟨none, 0, none, none⟩

end Heap

namespace Execution

variable (estimate : Value → ℕ)

def allocate (e : Execution) (kind : Kind) (opts : Heap.AllocateOptions) : ℕ × Execution :=
  ((e.heap.allocate kind opts).1,
    ⟨(e.heap.allocate kind opts).2,
      e.memory.chargeObject estimate (e.heap.newObject kind opts)⟩)

/-- `allocate_array/2`: the charge of an empty array, then of each element. -/
def allocateArray (e : Execution) (values : List Value) : ℕ × Execution :=
  ((e.heap.allocateArray values).1,
    ⟨(e.heap.allocateArray values).2,
      (e.memory.chargeObject estimate (e.heap.newObject .array Heap.noAllocateOptions)).chargeElements
        estimate 0 values⟩)

def maybeChargeProperty (m : Memory) (object : Object) (key : Key) (value : Value) : Memory :=
  if object.properties.hasKey key then m else m.chargeProperty estimate key value

/-- The charge of the generic paths: a change of the length of an array has none. -/
def chargeWrite (m : Memory) (object : Object) (key : Key) (value : Value) : Memory :=
  if object.kind = .array ∧ key = lengthKey then m
  else maybeChargeProperty estimate m object key value

def putObject (e : Execution) (id : ℕ) (object : Object) (key : Key) (value : Value) :
    Except HeapError Execution := do
  let heap ← e.heap.putObject id object key value
  pure ⟨heap, chargeWrite estimate e.memory object key value⟩

def defineObject (e : Execution) (id : ℕ) (object : Object) (key : Key) (value : Value)
    (opts : Heap.PropertyOptions) : Except HeapError Execution := do
  let heap ← e.heap.defineObject id object key value opts
  pure ⟨heap, chargeWrite estimate e.memory object key value⟩

def storeDefaultArrayIndex (e : Execution) (id : ℕ) (object : Object) (i : ℕ) (value : Value)
    (present : Bool) : Execution :=
  ⟨e.heap.storeDefaultArrayIndex id object i value,
    if present then e.memory else e.memory.chargeProperty estimate (.index i) value⟩

def putNewDefaultArrayIndex (e : Execution) (id : ℕ) (object : Object) (i : ℕ) (value : Value) :
    Except HeapError Execution := do
  Heap.writableDescriptor
    (e.heap.inheritedProperty (.index i) (Heap.maxPrototypeDepth + 1) object.prototype) (.index i)
  check (decide (i < object.length) || object.lengthWritable) (.propertyNotWritable lengthKey)
  check object.extensible (.objectNotExtensible (.index i))
  pure (e.storeDefaultArrayIndex estimate id object i value false)

def defineNewDefaultArrayIndex (e : Execution) (id : ℕ) (object : Object) (i : ℕ)
    (value : Value) : Except HeapError Execution := do
  check object.extensible (.objectNotExtensible (.index i))
  check (decide (i < object.length) || object.lengthWritable) (.propertyNotWritable lengthKey)
  pure (e.storeDefaultArrayIndex estimate id object i value false)

def put (e : Execution) (id : ℕ) (key value : Value) : Except HeapError Execution := do
  let object ← e.heap.fetchObject id
  match object.kind, normalizeKey key with
  | .array, .index i =>
      match object.properties.get? (.index i) with
      | some (.default _) => pure (e.storeDefaultArrayIndex estimate id object i value true)
      | none => e.putNewDefaultArrayIndex estimate id object i value
      | some (.full _) => e.putObject estimate id object (.index i) value
  | _, key => e.putObject estimate id object key value

def define (e : Execution) (id : ℕ) (key value : Value) (opts : Heap.PropertyOptions) :
    Except HeapError Execution := do
  let object ← e.heap.fetchObject id
  match object.kind, normalizeKey key with
  | .array, .index i =>
      match object.properties.get? (.index i), opts.isDefault with
      | some (.default _), true => pure (e.storeDefaultArrayIndex estimate id object i value true)
      | none, true => e.defineNewDefaultArrayIndex estimate id object i value
      | _, _ => e.defineObject estimate id object (.index i) value opts
  | _, key => e.defineObject estimate id object key value opts

/-! ### The generic path -/

/-- A write of any key: `put_object/5`, which raises the length of an array where it must. -/
def putGeneric (e : Execution) (id : ℕ) (key value : Value) : Except HeapError Execution := do
  let object ← e.heap.fetchObject id
  e.putObject estimate id object (normalizeKey key) value

def defineGeneric (e : Execution) (id : ℕ) (key value : Value) (opts : Heap.PropertyOptions) :
    Except HeapError Execution := do
  let object ← e.heap.fetchObject id
  e.defineObject estimate id object (normalizeKey key) value opts

/-- The definitions of the elements of a list one by one, from index `first` on. -/
def defineEach (e : Execution) (id first : ℕ) : List Value → Except HeapError Execution
  | [] => .ok e
  | v :: vs => do
      let e ← e.define estimate id (.int first) v Heap.noOptions
      defineEach e id (first + 1) vs

end Execution

/-! ### The two paths store the same -/

namespace Heap

/-- A default element of an array lies at or beyond a length that cannot be written. -/
def Stray (h : Heap) (id : ℕ) (key : Key) : Prop :=
  ∃ o i v, h.objects.get? id = some o ∧ o.kind = .array ∧ key = .index i ∧
    o.properties.get? (.index i) = some (.default v) ∧ o.length ≤ i ∧ o.lengthWritable = false

theorem StoredOk.not_stray {h : Heap} (hok : StoredOk h) (id : ℕ) (key : Key) :
    ¬ h.Stray id key := by
  rintro ⟨o, i, v, hget, ho, -, helement, hle, -⟩
  have hlt := (hok.compact id o hget).index_lt ho i v helement
  omega

theorem index_ne_lengthKey (i : ℕ) : Key.index i ≠ lengthKey := fun h => by cases h

theorem putPropertyStruct_of_default {property : Descriptor} (hd : property.isDefault = true)
    (o : Object) (key : Key) :
    o.putPropertyStruct key property = o.putDefaultProperty key property.value := by
  unfold Object.putPropertyStruct
  rw [if_pos hd]

theorem hasKey_of_none {o : Object} {key : Key} (hget : o.properties.get? key = none) :
    o.properties.hasKey key = false := by
  unfold Assoc.hasKey
  rw [hget]
  rfl

section Paths

variable {h : Heap} {id i : ℕ} {o : Object} (ho : o.kind = .array)
include ho

theorem validateArrayGrowth_index :
    validateArrayGrowth o (.index i) =
      check (decide (i < o.length) || o.lengthWritable) (.propertyNotWritable lengthKey) := by
  unfold validateArrayGrowth
  rw [decide_eq_true ho]
  show check (!(true && !o.lengthWritable && decide (o.length ≤ i))) _ = _
  congr 1
  by_cases hlt : i < o.length
  · rw [decide_eq_true hlt, decide_eq_false (Nat.not_le.2 hlt), Bool.and_false]
    rfl
  · rw [decide_eq_false hlt, decide_eq_true (Nat.not_lt.1 hlt)]
    cases o.lengthWritable <;> rfl

theorem putNewOrExisting_new (hget : o.properties.get? (.index i) = none) :
    putNewOrExisting o (.index i) = (do
      validateArrayGrowth o (.index i)
      check o.extensible (.objectNotExtensible (.index i))) := by
  unfold putNewOrExisting validateArrayGrowth
  rw [hasKey_of_none hget, if_neg Bool.false_ne_true, decide_eq_true ho]
  cases hw : o.lengthWritable with
  | true =>
    rw [if_neg (fun hk => Bool.noConfusion hk.2.1)]
    rfl
  | false =>
    cases hbeyond : Object.beyond o.length (.index i) with
    | true =>
      rw [if_pos ⟨ho, rfl, rfl⟩]
      rfl
    | false =>
      rw [if_neg (fun hk => Bool.noConfusion hk.2.2)]
      rfl

variable {w : Value}

theorem putObject_default (hget : o.properties.get? (.index i) = some (.default w))
    (value : Value) :
    h.putObject id o (.index i) value = .ok (h.storeDefaultArrayIndex id o i value) := by
  have hhas : o.properties.hasKey (.index i) = true := Assoc.hasKey_iff.2 ⟨_, hget⟩
  have hput : o.putProperty (.index i) value = o.putDefaultProperty (.index i) value := by
    unfold Object.putProperty
    rw [hget]
  unfold putObject putNewOrExisting
  rw [if_neg (fun hk => index_ne_lengthKey i hk.2), if_pos hhas, hget, hput,
    storeDefaultArrayIndex_eq ho]
  rfl

theorem putObject_new (hget : o.properties.get? (.index i) = none) (value : Value) :
    h.putObject id o (.index i) value = h.putNewDefaultArrayIndex id o i value := by
  have hput : o.putProperty (.index i) value = o.putDefaultProperty (.index i) value := by
    unfold Object.putProperty
    rw [hget]
  unfold putObject putNewDefaultArrayIndex
  rw [if_neg (fun hk => index_ne_lengthKey i hk.2), hget, hput, putNewOrExisting_new ho hget,
    validateArrayGrowth_index ho, storeDefaultArrayIndex_eq ho]
  simp only [bind_assoc]
  rfl

variable {opts : PropertyOptions} (hopts : opts.isDefault = true)
include hopts

theorem storeDescriptor_default (value : Value) :
    h.storeDescriptor id o (.index i) (opts.property value) = (do
      validateDefinition o (.index i) (opts.property value)
      pure (h.storeDefaultArrayIndex id o i value)) := by
  unfold storeDescriptor
  rw [putPropertyStruct_of_default (by rwa [opts.isDefault_property value]),
    storeDefaultArrayIndex_eq ho]
  rfl

theorem defineObject_default (hget : o.properties.get? (.index i) = some (.default w))
    (value : Value) : h.defineObject id o (.index i) value opts = (do
      check (decide (i < o.length) || o.lengthWritable) (.propertyNotWritable lengthKey)
      pure (h.storeDefaultArrayIndex id o i value)) := by
  unfold defineObject
  rw [if_neg (fun hk => index_ne_lengthKey i hk.2), storeDescriptor_default ho hopts]
  unfold validateDefinition
  rw [hget]
  dsimp only
  rw [validateArrayGrowth_index ho]

theorem defineObject_new (hget : o.properties.get? (.index i) = none) (value : Value) :
    h.defineObject id o (.index i) value opts = h.defineNewDefaultArrayIndex id o i value := by
  unfold defineObject defineNewDefaultArrayIndex
  rw [if_neg (fun hk => index_ne_lengthKey i hk.2), storeDescriptor_default ho hopts]
  unfold validateDefinition
  rw [hget]
  dsimp only
  rw [validateArrayGrowth_index ho]
  cases o.extensible with
  | true => rfl
  | false => rfl

end Paths

end Heap

/-! ### The two paths charge the same -/

namespace Execution

variable (estimate : Value → ℕ)

theorem chargeWrite_index (m : Memory) (o : Object) (i : ℕ) (value : Value) :
    chargeWrite estimate m o (.index i) value =
      maybeChargeProperty estimate m o (.index i) value :=
  if_neg fun hk => Heap.index_ne_lengthKey i hk.2

variable {i : ℕ} {o : Object}

theorem chargeWrite_present (m : Memory) {stored : Stored}
    (hget : o.properties.get? (.index i) = some stored) (value : Value) :
    chargeWrite estimate m o (.index i) value = m := by
  rw [chargeWrite_index]
  exact if_pos (Assoc.hasKey_iff.2 ⟨stored, hget⟩)

theorem chargeWrite_new (m : Memory) (hget : o.properties.get? (.index i) = none) (value : Value) :
    chargeWrite estimate m o (.index i) value = m.chargeProperty estimate (.index i) value := by
  rw [chargeWrite_index, maybeChargeProperty, Heap.hasKey_of_none hget]
  exact if_neg Bool.false_ne_true

theorem putNewDefaultArrayIndex_eq (e : Execution) (id : ℕ) (o : Object) (i : ℕ)
    (value : Value) :
    e.putNewDefaultArrayIndex estimate id o i value = (do
      let heap ← e.heap.putNewDefaultArrayIndex id o i value
      pure ⟨heap, e.memory.chargeProperty estimate (.index i) value⟩) := by
  unfold putNewDefaultArrayIndex Heap.putNewDefaultArrayIndex
  simp only [bind_assoc, pure_bind]
  rfl

theorem defineNewDefaultArrayIndex_eq (e : Execution) (id : ℕ) (o : Object) (i : ℕ)
    (value : Value) :
    e.defineNewDefaultArrayIndex estimate id o i value = (do
      let heap ← e.heap.defineNewDefaultArrayIndex id o i value
      pure ⟨heap, e.memory.chargeProperty estimate (.index i) value⟩) := by
  unfold defineNewDefaultArrayIndex Heap.defineNewDefaultArrayIndex
  simp only [bind_assoc, pure_bind]
  rfl

/-- **The paths of `put/4` are the generic one**, in every heap. -/
theorem put_eq_generic (e : Execution) (id : ℕ) (key value : Value) :
    e.put estimate id key value = e.putGeneric estimate id key value := by
  unfold put putGeneric
  cases e.heap.fetchObject id with
  | error reason => rfl
  | ok o =>
    show (match o.kind, normalizeKey key with
      | .array, .index i => _
      | _, key => _) = _
    split
    · rename_i i ho hkey
      show _ = e.putObject estimate id o (normalizeKey key) value
      rw [hkey]
      split
      · rename_i w hget
        unfold putObject
        rw [Heap.putObject_default ho hget, chargeWrite_present estimate _ hget]
        rfl
      · rename_i hget
        unfold putObject
        rw [Heap.putObject_new ho hget, chargeWrite_new estimate _ hget,
          putNewDefaultArrayIndex_eq]
      · rfl
    · rfl

/-- **The paths of `define/5` are the generic one**, but for a stray element. -/
theorem define_eq_generic_iff (e : Execution) (id : ℕ) (key value : Value)
    (opts : Heap.PropertyOptions) :
    e.define estimate id key value opts = e.defineGeneric estimate id key value opts ↔
      ¬ (opts.isDefault = true ∧ e.heap.Stray id (normalizeKey key)) := by
  unfold define defineGeneric Heap.Stray
  cases hfetch : e.heap.fetchObject id with
  | error reason =>
    refine iff_of_true rfl ?_
    rintro ⟨-, o, i, v, hget, -⟩
    unfold Heap.fetchObject at hfetch
    rw [hget] at hfetch
    cases hfetch
  | ok o =>
    have hat := Heap.fetchObject_ok hfetch
    show (match o.kind, normalizeKey key with
      | .array, .index i => _
      | _, key => _) = _ ↔ _
    split
    · rename_i i ho hkey
      show _ = e.defineObject estimate id o (normalizeKey key) value opts ↔ _
      rw [hkey]
      split
      · rename_i w hget hopts
        unfold defineObject
        rw [Heap.defineObject_default ho hopts hget, chargeWrite_present estimate _ hget]
        cases hgrowth : decide (i < o.length) || o.lengthWritable with
        | true =>
          refine iff_of_true rfl ?_
          rintro ⟨-, o', j, v, hget', -, hj, -, hle, hfixed⟩
          cases hat.symm.trans hget'
          cases hj
          rw [hfixed, decide_eq_false (Nat.not_lt.2 hle)] at hgrowth
          cases hgrowth
        | false =>
          obtain ⟨hlt, hfixed⟩ := Bool.or_eq_false_iff.1 hgrowth
          refine iff_of_false (fun h => (by cases h)) fun hno => hno ⟨hopts, ?_⟩
          exact ⟨o, i, w, hat, ho, rfl, hget, Nat.not_lt.1 (of_decide_eq_false hlt), hfixed⟩
      · rename_i hget hopts
        refine iff_of_true ?_ ?_
        · unfold defineObject
          rw [Heap.defineObject_new ho hopts hget, chargeWrite_new estimate _ hget,
            defineNewDefaultArrayIndex_eq]
        · rintro ⟨-, o', j, v, hget', -, hj, helement, -⟩
          cases hat.symm.trans hget'
          cases hj
          cases hget.symm.trans helement
      · rename_i hdefault hnew
        refine iff_of_true rfl ?_
        rintro ⟨hopts, o', j, v, hget', -, hj, helement, -⟩
        cases hat.symm.trans hget'
        cases hj
        exact hdefault v helement hopts
    · rename_i hother
      refine iff_of_true rfl ?_
      rintro ⟨-, o', j, v, hget', ho, hj, -⟩
      cases hat.symm.trans hget'
      exact hother j ho hj

theorem map_heap (x : Except HeapError Heap) (m : Memory) :
    (x >>= fun heap => pure (f := Except HeapError) (⟨heap, m⟩ : Execution)).map heap = x := by
  cases x <;> rfl

/-- **The heap of a charged write is the write of the heap.** -/
theorem put_heap (e : Execution) (id : ℕ) (key value : Value) :
    (e.put estimate id key value).map heap = e.heap.put id key value := by
  unfold put Heap.put
  cases e.heap.fetchObject id with
  | error reason => rfl
  | ok o =>
    simp only [bind, Except.bind]
    cases o.kind with
    | array =>
      cases normalizeKey key with
      | name v => exact map_heap _ _
      | index i =>
        dsimp only
        cases o.properties.get? (.index i) with
        | none =>
          dsimp only
          rw [putNewDefaultArrayIndex_eq]
          exact map_heap _ _
        | some stored =>
          cases stored with
          | default _ => rfl
          | full _ => exact map_heap _ _
    | _ => exact map_heap _ _

/-- **The heap of a charged definition is the definition in the heap.** -/
theorem define_heap (e : Execution) (id : ℕ) (key value : Value) (opts : Heap.PropertyOptions) :
    (e.define estimate id key value opts).map heap = e.heap.define id key value opts := by
  unfold define Heap.define
  cases e.heap.fetchObject id with
  | error reason => rfl
  | ok o =>
    simp only [bind, Except.bind]
    cases o.kind with
    | array =>
      cases normalizeKey key with
      | name v => exact map_heap _ _
      | index i =>
        dsimp only
        cases o.properties.get? (.index i) with
        | none =>
          cases opts.isDefault with
          | false => exact map_heap _ _
          | true =>
            dsimp only
            rw [defineNewDefaultArrayIndex_eq]
            exact map_heap _ _
        | some stored =>
          cases stored with
          | default _ =>
            cases opts.isDefault with
            | false => exact map_heap _ _
            | true => rfl
          | full _ => cases opts.isDefault <;> exact map_heap _ _
    | _ => exact map_heap _ _

/-! ### An array at once and element by element -/

theorem define_element {e : Execution} {id : ℕ} (hget : e.heap.objects.get? id = some o)
    (ho : o.kind = .array) (hextensible : o.extensible = true)
    (hwritable : o.lengthWritable = true) (hi : i ≤ maxIndex)
    (hnew : o.properties.get? (.index i) = none) (value : Value) :
    e.define estimate id (.int i) value Heap.noOptions =
      .ok (e.storeDefaultArrayIndex estimate id o i value false) := by
  have hfetch : e.heap.fetchObject id = .ok o := by
    unfold Heap.fetchObject
    rw [hget]
  have hkey : normalizeKey (.int i) = .index i := by
    show (if _ then Key.index (i : ℤ).toNat else _) = _
    rw [if_pos ⟨by omega, by omega⟩, Int.toNat_natCast]
  have hopts : Heap.noOptions.isDefault = true := rfl
  unfold define
  rw [hfetch]
  simp only [bind, Except.bind]
  rw [ho, hkey]
  dsimp only
  rw [hnew, hopts]
  dsimp only
  unfold defineNewDefaultArrayIndex
  rw [hextensible, hwritable, Bool.or_true]
  rfl

theorem defineEach_eq (values : List Value) :
    ∀ (base : Heap) (m : Memory) (id : ℕ) (o : Object) (first : ℕ),
      o.kind = .array → o.extensible = true → o.lengthWritable = true → o.length = first →
      (∀ i, first ≤ i → o.properties.get? (.index i) = none) →
      first + values.length ≤ maxIndex + 1 →
      ∃ properties : Assoc Key Stored,
        (⟨base.store id o, m⟩ : Execution).defineEach estimate id first values =
          .ok ⟨base.store id { o with properties, length := first + values.length },
            m.chargeElements estimate first values⟩ ∧
        ∀ key, properties.get? key =
          ((Heap.elements first values).get? key).or (o.properties.get? key) := by
  induction values with
  | nil =>
    intro base m id o first _ _ _ hlength _ _
    refine ⟨o.properties, ?_, fun key => rfl⟩
    subst hlength
    rfl
  | cons v vs ih =>
    intro base m id o first ho hextensible hwritable hlength hnew hfits
    rw [List.length_cons] at hfits
    have hget : (base.store id o).objects.get? id = some o := Assoc.get?_put ..
    -- the array after the first definition
    let o₁ : Object := { o with
      properties := o.properties.put (.index first) (.default v)
      length := max o.length (first + 1) }
    have hstep : (⟨base.store id o, m⟩ : Execution).define estimate id (.int first) v
        Heap.noOptions =
          .ok ⟨base.store id o₁, m.chargeProperty estimate (.index first) v⟩ := by
      rw [define_element estimate hget ho hextensible hwritable (by omega)
        (hnew first (Nat.le_refl first))]
      unfold storeDefaultArrayIndex Heap.storeDefaultArrayIndex Heap.store
      rw [Assoc.put_put]
      rfl
    have hlength₁ : o₁.length = first + 1 := by
      show max o.length (first + 1) = first + 1
      omega
    have hnew₁ : ∀ i, first + 1 ≤ i → o₁.properties.get? (.index i) = none := by
      intro i hi
      have hne : Key.index i ≠ .index first := fun h => by
        cases h
        omega
      exact (Assoc.get?_put_ne _ _ hne).trans (hnew i (by omega))
    obtain ⟨properties, hrest, hprops⟩ := ih base (m.chargeProperty estimate (.index first) v) id o₁
      (first + 1) ho hextensible hwritable hlength₁ hnew₁ (by omega)
    refine ⟨properties, ?_, fun key => ?_⟩
    · unfold defineEach
      rw [hstep]
      refine hrest.trans ?_
      rw [List.length_cons, show first + 1 + vs.length = first + (vs.length + 1) by omega]
      rfl
    · rw [hprops key]
      show ((Heap.elements (first + 1) vs).get? key).or
          ((o.properties.put (.index first) (.default v)).get? key) =
        (((Heap.elements (first + 1) vs).put (.index first) (.default v)).get? key).or
          (o.properties.get? key)
      rw [Assoc.get?_put_eq, Assoc.get?_put_eq]
      split
      · rename_i hkey
        subst hkey
        have hnone : (Heap.elements (first + 1) vs).get? (.index first) = none := by
          cases hlook : (Heap.elements (first + 1) vs).get? (.index first) with
          | none => rfl
          | some stored =>
            have hmem := (Heap.objectOk_elements vs (first + 1) first).1
              (Assoc.hasKey_iff.2 ⟨stored, hlook⟩)
            omega
        rw [hnone]
        rfl
      · rfl

end Execution

/-- The same fields and the same properties, each map without its order. -/
structure Object.SameContents (o o' : Object) : Prop where
  fields : o' = { o with properties := o'.properties }
  properties : ∀ key, o'.properties.get? key = o.properties.get? key

structure Heap.SameContents (h h' : Heap) : Prop where
  nextObjectId : h'.nextObjectId = h.nextObjectId
  defaultPrototypes : h'.defaultPrototypes = h.defaultPrototypes
  objects : ∀ id, Option.Rel Object.SameContents (h.objects.get? id) (h'.objects.get? id)

theorem Object.SameContents.refl (o : Object) : o.SameContents o := ⟨rfl, fun _ => rfl⟩

theorem Heap.SameContents.store (h : Heap) (id : ℕ) {o o' : Object} (ho : o.SameContents o') :
    (h.store id o).SameContents (h.store id o') := by
  refine ⟨rfl, rfl, fun j => ?_⟩
  show Option.Rel _ ((h.objects.put id o).get? j) ((h.objects.put id o').get? j)
  rw [Assoc.get?_put_eq, Assoc.get?_put_eq]
  split
  · exact .some ho
  · cases h.objects.get? j with
    | none => exact .none
    | some p => exact .some (.refl p)

namespace Execution

variable (estimate : Value → ℕ)

/-- **An array built at once is the array built element by element**, and its charge too. -/
theorem allocateArray_eq_defineEach (e : Execution) (values : List Value)
    (hfits : values.length ≤ maxIndex + 1) :
    ∃ e', (e.allocate estimate .array Heap.noAllocateOptions).2.defineEach estimate
        (e.allocate estimate .array Heap.noAllocateOptions).1 0 values = .ok e' ∧
      (e.allocateArray estimate values).1 =
        (e.allocate estimate .array Heap.noAllocateOptions).1 ∧
      (e.allocateArray estimate values).2.memory = e'.memory ∧
      e'.heap.SameContents (e.allocateArray estimate values).2.heap := by
  have hempty : (e.heap.newObject .array Heap.noAllocateOptions).properties = ∅ := rfl
  obtain ⟨properties, hrun, hprops⟩ := defineEach_eq estimate values
    { e.heap with nextObjectId := e.heap.nextObjectId + 1 }
    (e.memory.chargeObject estimate (e.heap.newObject .array Heap.noAllocateOptions))
    e.heap.nextObjectId (e.heap.newObject .array Heap.noAllocateOptions) 0 rfl rfl rfl rfl
    (fun i _ => by rw [hempty]; rfl) (by omega)
  refine ⟨_, hrun, rfl, rfl, Heap.SameContents.store _ _ ⟨?_, fun key => ?_⟩⟩
  · rw [Nat.zero_add]
    rfl
  · show (Heap.elements 0 values).get? key = properties.get? key
    rw [hprops key, hempty, Assoc.get?_empty, Option.or_none]

variable {values : List Value}

theorem heapOk_defineEach {e e' : Execution} (hok : HeapOk e.heap) {id first : ℕ}
    (hd : e.defineEach estimate id first values = .ok e') : HeapOk e'.heap := by
  induction values generalizing e first with
  | nil =>
    cases hd
    exact hok
  | cons v vs ih =>
    obtain ⟨e₁, hstep, hrest⟩ := bind_eq_ok hd
    have hheap := define_heap estimate e id (.int first) v Heap.noOptions
    rw [hstep] at hheap
    exact ih (Heap.heapOk_define_noOptions hok hheap.symm) hrest

theorem not_sameContents_of_long {e e' : Execution} (hok : HeapOk e.heap) {id : ℕ}
    (hlong : maxIndex + 1 < values.length)
    (hd : (e.allocate estimate .array Heap.noAllocateOptions).2.defineEach estimate id 0 values =
    .ok e') : ¬ e'.heap.SameContents (e.allocateArray estimate values).2.heap := by
  intro hsame
  have hnew : HeapOk (e.allocate estimate .array Heap.noAllocateOptions).2.heap := by
    refine (Heap.heapOk_storeNew_iff hok _).2
      ⟨⟨List.nodup_nil, fun key => ?_⟩, fun _ => Nat.zero_le _, fun _ i hi => (by cases hi)⟩
    exact ⟨fun hk => absurd hk List.not_mem_nil, fun hk => (by cases hk.2)⟩
  have hok' := heapOk_defineEach estimate hnew hd
  have hrel := hsame.objects e.heap.nextObjectId
  have hat : ∃ o : Object,
      (e.allocateArray estimate values).2.heap.objects.get? e.heap.nextObjectId = some o ∧
        o.kind = .array ∧ o.length = values.length := ⟨_, Assoc.get?_put .., rfl, rfl⟩
  obtain ⟨o, hget, hkind, hlength⟩ := hat
  rw [hget] at hrel
  cases hbuilt : e'.heap.objects.get? e.heap.nextObjectId with
  | none =>
    rw [hbuilt] at hrel
    cases hrel
  | some p =>
    rw [hbuilt] at hrel
    obtain ⟨hpo⟩ := hrel
    have hpkind : p.kind = .array := by
      rw [hpo.fields] at hkind
      exact hkind
    have hplength : p.length = values.length := by
      rw [hpo.fields] at hlength
      exact hlength
    have hle := (hok'.object _ p hbuilt).array.length_le hpkind
    unfold maxIndex at hlong
    omega

end Execution

/-! ### The paths agree -/

open Execution in
/-- **The paths of arrays are the generic one**: result, reason of a refusal, heap and charge. -/
theorem arrayPaths_agree [Value.Platform] (callable : Value → Bool) (estimate : Value → ℕ) :
    (∀ (e : Execution) (id : ℕ) (key value : Value),
      e.put estimate id key value = e.putGeneric estimate id key value) ∧
    (∀ (e : Execution) (id : ℕ) (key value : Value) (opts : Heap.PropertyOptions),
      e.define estimate id key value opts = e.defineGeneric estimate id key value opts ↔
        ¬ (opts.isDefault = true ∧ e.heap.Stray id (normalizeKey key))) ∧
    (∀ h, (Heap.machine callable).Reachable h → ∀ id key, ¬ h.Stray id key) ∧
    ∀ (e : Execution) (values : List Value), values.length ≤ maxIndex + 1 →
      ∃ e', (e.allocate estimate .array Heap.noAllocateOptions).2.defineEach estimate
          (e.allocate estimate .array Heap.noAllocateOptions).1 0 values = .ok e' ∧
        (e.allocateArray estimate values).1 =
          (e.allocate estimate .array Heap.noAllocateOptions).1 ∧
        (e.allocateArray estimate values).2.memory = e'.memory ∧
        e'.heap.SameContents (e.allocateArray estimate values).2.heap :=
  ⟨put_eq_generic estimate, define_eq_generic_iff estimate,
    fun _ hr => (Heap.storedOk_of_reachable callable hr).not_stray,
    allocateArray_eq_defineEach estimate⟩

/-- Two elements, at once and one by one. -/
theorem arrayPaths_agree_pair :
    ∃ e', ((⟨.empty, ⟨0, none, false⟩⟩ : Execution).allocate (fun _ => 8) .array
        Heap.noAllocateOptions).2.defineEach (fun _ => 8) 0 0 [.null, .undefined] = .ok e' ∧
      e'.memory.used = 824 := by
  obtain ⟨e', hrun, -, hmemory, -⟩ := (@arrayPaths_agree Value.noNumbers (fun _ => false)
    fun _ => 8).2.2.2 ⟨.empty, ⟨0, none, false⟩⟩ [.null, .undefined] (by decide)
  refine ⟨e', hrun, ?_⟩
  rw [← hmemory]
  rfl

def strayElement : Execution where
  heap :=
    { objects := Assoc.put ∅ 0
        { kind := .array, prototype := none
          properties := Assoc.put ∅ (.index 0) (.default .undefined)
          propertyOrder := [], extensible := true, length := 0, lengthWritable := false
          callable := none, internal := none }
      nextObjectId := 1
      defaultPrototypes := ∅ }
  memory := ⟨0, none, false⟩

open Execution in
/-- The paths differ on a default element that lies beyond a fixed length, and on a list whose
last index is no array index. -/
theorem arrayPaths_differ :
    (¬ ∀ (e : Execution) (id : ℕ) (key value : Value) (opts : Heap.PropertyOptions),
      e.define (fun _ => 8) id key value opts = e.defineGeneric (fun _ => 8) id key value opts) ∧
    ¬ ∀ (e : Execution) (values : List Value), ∃ e',
      (e.allocate (fun _ => 8) .array Heap.noAllocateOptions).2.defineEach (fun _ => 8)
        (e.allocate (fun _ => 8) .array Heap.noAllocateOptions).1 0 values = .ok e' ∧
      e'.heap.SameContents (e.allocateArray (fun _ => 8) values).2.heap := by
  constructor
  · intro hall
    have hpath : ∃ e, strayElement.define (fun _ => 8) 0 (.int 0) .null Heap.noOptions = .ok e :=
      ⟨_, rfl⟩
    have hgeneric : strayElement.defineGeneric (fun _ => 8) 0 (.int 0) .null Heap.noOptions =
        .error (.propertyNotWritable lengthKey) := rfl
    obtain ⟨e, he⟩ := hpath
    rw [hall, hgeneric] at he
    cases he
  · intro hall
    obtain ⟨e', hrun, hsame⟩ := hall ⟨.empty, ⟨0, none, false⟩⟩
      (List.replicate 4294967296 .undefined)
    refine not_sameContents_of_long _ Heap.heapOk_empty ?_ hrun hsame
    rw [List.length_replicate]
    decide

end QuickBeam.Vm.Runtime
