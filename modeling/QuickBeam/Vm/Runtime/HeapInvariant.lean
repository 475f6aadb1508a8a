import QuickBeam.Vm.Runtime.Heap

/-!
# The invariant of the heap

The order of an object lists its keys that are no index, each once; the indices of an array are
below its length, and the length fits 32 bits.  Every write keeps the order.  One write forgets
the length of an array: a property with other than the default flags at a new index from the
length on is stored without raising it.  `heap_invariant` is the main result: such a definition
is the only operation that breaks the invariant.
-/

namespace QuickBeam.Vm.Runtime

open QuickBeam.Lib QuickBeam.Vm.Program

/-! ### Keys -/

variable {κ ν : Type*}

theorem hasKey_put_iff [DecidableEq κ] (m : Assoc κ ν) (k j : κ) (v : ν) :
    (m.put k v).hasKey j = true ↔ j = k ∨ m.hasKey j = true := by
  unfold Assoc.hasKey
  rw [Assoc.get?_put_eq]
  split
  · rename_i h
    exact ⟨fun _ => .inl h, fun _ => rfl⟩
  · rename_i h
    exact ⟨.inr, fun hj => hj.resolve_left h⟩

theorem hasKey_filterKeys_iff [DecidableEq κ] (p : κ → Bool) (m : Assoc κ ν) (k : κ) :
    (m.filterKeys p).hasKey k = true ↔ p k = true ∧ m.hasKey k = true := by
  unfold Assoc.hasKey
  rw [Assoc.get?_filterKeys]
  split
  · rename_i h
    exact ⟨fun hk => ⟨h, hk⟩, And.right⟩
  · rename_i h
    exact ⟨fun hk => (by cases hk), fun hk => absurd hk.1 h⟩

theorem hasKey_delete_iff [DecidableEq κ] (m : Assoc κ ν) (k j : κ) :
    (m.delete k).hasKey j = true ↔ j ≠ k ∧ m.hasKey j = true := by
  unfold Assoc.hasKey
  rw [Assoc.get?_delete_eq]
  split
  · rename_i h
    exact ⟨fun hk => (by cases hk), fun hk => absurd h hk.1⟩
  · rename_i h
    exact ⟨fun hk => ⟨h, hk⟩, And.right⟩

theorem normalizeKey_index {key : Value} {i : ℕ} (h : normalizeKey key = .index i) :
    i ≤ maxIndex := by
  unfold normalizeKey at h
  cases key with
  | int n =>
    simp only at h
    split at h
    · rename_i hn
      cases h
      omega
    · cases h
  | float x =>
    simp only at h
    split at h
    · cases h
    · split at h
      · rename_i hx
        cases h
        obtain ⟨hlow, hhigh⟩ := hx
        unfold Double.toUnits at hlow hhigh
        unfold Double.trunc
        split
        · rw [Int.toNat_neg_natCast]
          exact Nat.zero_le _
        · rename_i hneg
          rw [if_neg hneg] at hhigh
          rw [Int.toNat_natCast]
          have hle : x.units ≤ maxIndex * Double.unitsPerOne := by exact_mod_cast hhigh
          exact Nat.div_le_of_le_mul (by rw [Nat.mul_comm]; exact hle)
      · cases h
  | string s =>
    simp only at h
    split at h
    · split at h
      · rename_i hs
        cases h
        exact hs.1
      · cases h
    · cases h
  | _ => cases h

/-! ### Objects -/

structure OrderOk (o : Object) : Prop where
  nodup : o.propertyOrder.Nodup
  mem_iff : ∀ key, key ∈ o.propertyOrder ↔
    Object.isIndex key = false ∧ o.properties.hasKey key = true

structure ArrayOk (o : Object) : Prop where
  length_le : o.kind = .array → o.length ≤ 4294967295
  index_lt : o.kind = .array → ∀ i, o.properties.hasKey (.index i) = true → i < o.length

structure ObjectOk (o : Object) : Prop where
  order : OrderOk o
  array : ArrayOk o

namespace Object

theorem rememberProperty_keeps (o : Object) (key : Key) : o.rememberProperty key =
    { o with propertyOrder := (o.rememberProperty key).propertyOrder } := by
  cases key with
  | index i => rfl
  | name v =>
    unfold rememberProperty
    dsimp only
    split <;> rfl

theorem kind_rememberProperty (o : Object) (key : Key) : (o.rememberProperty key).kind = o.kind := by
  rw [o.rememberProperty_keeps key]

theorem length_rememberProperty (o : Object) (key : Key) :
    (o.rememberProperty key).length = o.length := by
  rw [o.rememberProperty_keeps key]

theorem properties_rememberProperty (o : Object) (key : Key) :
    (o.rememberProperty key).properties = o.properties := by
  rw [o.rememberProperty_keeps key]

theorem orderOk_remember {o o' : Object} {key : Key} {stored : Stored} (h : OrderOk o)
    (horder : o'.propertyOrder = (o.rememberProperty key).propertyOrder)
    (hprops : o'.properties = o.properties.put key stored) : OrderOk o' := by
  cases key with
  | index i =>
    constructor
    · rw [horder]
      exact h.nodup
    · intro key
      rw [horder, hprops, hasKey_put_iff]
      refine (h.mem_iff key).trans ⟨fun hk => ⟨hk.1, .inr hk.2⟩, fun hk => ⟨hk.1, ?_⟩⟩
      refine hk.2.resolve_left fun he => ?_
      rw [he] at hk
      cases hk.1
  | name v =>
    have horder' : o'.propertyOrder =
        if o.properties.hasKey (.name v) then o.propertyOrder
        else o.propertyOrder ++ [.name v] := by
      rw [horder]
      show (if o.properties.hasKey (.name v) then o else _).propertyOrder = _
      split <;> rfl
    by_cases hkey : o.properties.hasKey (.name v) = true
    · rw [if_pos hkey] at horder'
      constructor
      · rw [horder']
        exact h.nodup
      · intro key
        rw [horder', hprops, hasKey_put_iff]
        refine (h.mem_iff key).trans ⟨fun hk => ⟨hk.1, .inr hk.2⟩, fun hk => ⟨hk.1, ?_⟩⟩
        rcases hk.2 with rfl | hk
        · exact hkey
        · exact hk
    · rw [if_neg hkey] at horder'
      have hnew : .name v ∉ o.propertyOrder := fun hm => hkey ((h.mem_iff _).1 hm).2
      constructor
      · rw [horder']
        exact List.nodup_append'.2
          ⟨h.nodup, List.nodup_singleton _, List.disjoint_singleton.2 hnew⟩
      · intro key
        rw [horder', hprops, hasKey_put_iff, List.mem_append, List.mem_singleton, h.mem_iff]
        constructor
        · rintro (hk | rfl)
          · exact ⟨hk.1, .inr hk.2⟩
          · exact ⟨rfl, .inl rfl⟩
        · rintro ⟨hi, rfl | hk⟩
          · exact .inr rfl
          · exact .inl ⟨hi, hk⟩

theorem putDefaultProperty_keeps (o : Object) (key : Key) (value : Value) :
    o.putDefaultProperty key value =
      { o with
        propertyOrder := (o.rememberProperty key).propertyOrder
        properties := o.properties.put key (.default value)
        length := (o.putDefaultProperty key value).length } := by
  unfold putDefaultProperty
  rw [o.rememberProperty_keeps key]
  dsimp only
  split <;> rfl

theorem properties_putDefaultProperty (o : Object) (key : Key) (value : Value) :
    (o.putDefaultProperty key value).properties = o.properties.put key (.default value) := by
  rw [o.putDefaultProperty_keeps key value]

theorem propertyOrder_putDefaultProperty (o : Object) (key : Key) (value : Value) :
    (o.putDefaultProperty key value).propertyOrder = (o.rememberProperty key).propertyOrder := by
  rw [o.putDefaultProperty_keeps key value]

theorem kind_putDefaultProperty (o : Object) (key : Key) (value : Value) :
    (o.putDefaultProperty key value).kind = o.kind := by
  rw [o.putDefaultProperty_keeps key value]

theorem length_putDefaultProperty_index {o : Object} (ho : o.kind = .array) (i : ℕ)
    (value : Value) : (o.putDefaultProperty (.index i) value).length = max o.length (i + 1) := by
  unfold putDefaultProperty rememberProperty
  simp only [ho]

theorem length_putDefaultProperty_name (o : Object) (v : Value) (value : Value) :
    (o.putDefaultProperty (.name v) value).length = o.length := by
  unfold putDefaultProperty
  dsimp only
  split
  · rename_i h
    cases h
  · exact length_rememberProperty o _

end Object

variable {key : Key} {o : Object}

/-- **Storing a default property keeps the invariant of an object.** -/
theorem ObjectOk.putDefaultProperty (h : ObjectOk o) (hkey : ∀ i, key = .index i → i ≤ maxIndex)
    (value : Value) : ObjectOk (o.putDefaultProperty key value) where
  order := Object.orderOk_remember h.order (o.propertyOrder_putDefaultProperty key value)
    (o.properties_putDefaultProperty key value)
  array := by
    constructor
    · intro ho
      rw [Object.kind_putDefaultProperty] at ho
      have hlen := h.array.length_le ho
      cases key with
      | index i =>
        have hi := hkey i rfl
        rw [Object.length_putDefaultProperty_index ho]
        unfold maxIndex at hi
        omega
      | name v => rwa [Object.length_putDefaultProperty_name]
    · intro ho i hi
      rw [Object.kind_putDefaultProperty] at ho
      rw [Object.properties_putDefaultProperty, hasKey_put_iff] at hi
      cases key with
      | index j =>
        rw [Object.length_putDefaultProperty_index ho]
        rcases hi with hi | hi
        · cases hi
          omega
        · have := h.array.index_lt ho i hi
          omega
      | name v =>
        rw [Object.length_putDefaultProperty_name]
        exact h.array.index_lt ho i (hi.resolve_left (fun he => by cases he))

/-- A property, with the default flags or without, that would be stored without raising the
length of its array. -/
def Object.forgets (o : Object) (key : Key) (isDefault : Bool) : Bool :=
  decide (o.kind = .array) && Object.beyond o.length key && !isDefault

theorem Object.putPropertyStruct_of_not_default {property : Descriptor}
    (hd : property.isDefault = false) (o : Object) (key : Key) :
    o.putPropertyStruct key property =
      { o.rememberProperty key with properties := o.properties.put key (.full property) } := by
  unfold putPropertyStruct
  rw [hd, if_neg Bool.false_ne_true]
  dsimp only
  rw [properties_rememberProperty]

/-- **The one write that forgets the length.** -/
theorem ObjectOk.putPropertyStruct_iff (h : ObjectOk o)
    (hkey : ∀ i, key = .index i → i ≤ maxIndex) (property : Descriptor) :
    ObjectOk (o.putPropertyStruct key property) ↔ o.forgets key property.isDefault = false := by
  unfold Object.forgets
  cases hd : property.isDefault with
  | true =>
    unfold Object.putPropertyStruct
    rw [hd, if_pos rfl, Bool.not_true, Bool.and_false]
    exact ⟨fun _ => rfl, fun _ => h.putDefaultProperty hkey _⟩
  | false =>
    rw [Object.putPropertyStruct_of_not_default hd, Bool.not_false, Bool.and_true]
    constructor
    · intro hok
      cases key with
      | name v => exact Bool.and_false _
      | index i =>
        cases ho : decide (o.kind = .array) with
        | false => rfl
        | true =>
          have hlt := hok.array.index_lt (of_decide_eq_true ho) i
            ((hasKey_put_iff ..).2 (.inl rfl))
          exact decide_eq_false (Nat.not_le.2 hlt)
    · intro hf
      have hlength := o.length_rememberProperty key
      have hkind := o.kind_rememberProperty key
      refine ⟨Object.orderOk_remember h.order rfl rfl, fun ho => ?_, fun ho i hi => ?_⟩
      · show (o.rememberProperty key).length ≤ _
        rw [hlength]
        exact h.array.length_le (hkind.symm.trans ho)
      · have ho' : o.kind = .array := hkind.symm.trans ho
        show i < (o.rememberProperty key).length
        rw [hlength]
        rcases (hasKey_put_iff ..).1 hi with rfl | hi
        · rw [decide_eq_true ho', Bool.true_and] at hf
          exact Nat.not_le.1 (of_decide_eq_false hf)
        · exact h.array.index_lt ho' i hi

theorem ObjectOk.not_forgets_of_hasKey (h : ObjectOk o) (hkey : o.properties.hasKey key = true)
    (isDefault : Bool) : o.forgets key isDefault = false := by
  unfold Object.forgets
  cases key with
  | name v =>
    show (_ && false && _) = false
    rw [Bool.and_false, Bool.false_and]
  | index i =>
    by_cases ho : o.kind = .array
    · have hlt := h.array.index_lt ho i hkey
      have hb : Object.beyond o.length (.index i) = false := decide_eq_false (Nat.not_le.2 hlt)
      rw [hb, Bool.and_false, Bool.false_and]
    · rw [decide_eq_false ho, Bool.false_and, Bool.false_and]

theorem ObjectOk.putProperty (h : ObjectOk o) (hkey : ∀ i, key = .index i → i ≤ maxIndex)
    (value : Value) : ObjectOk (o.putProperty key value) := by
  unfold Object.putProperty
  split
  · exact h.putDefaultProperty hkey value
  · rename_i property hp
    have hhas : o.properties.hasKey key = true := Assoc.hasKey_iff.2 ⟨_, hp⟩
    exact (h.putPropertyStruct_iff hkey _).2 (h.not_forgets_of_hasKey hhas _)
  · exact h.putDefaultProperty hkey value

theorem ObjectOk.congr {o o' : Object} (h : ObjectOk o) (hkind : o'.kind = o.kind)
    (hprops : o'.properties = o.properties) (horder : o'.propertyOrder = o.propertyOrder)
    (hlength : o'.length = o.length) : ObjectOk o' := by
  refine ⟨⟨?_, ?_⟩, ⟨?_, ?_⟩⟩
  · rw [horder]
    exact h.order.nodup
  · rw [horder, hprops]
    exact h.order.mem_iff
  · rw [hkind, hlength]
    exact h.array.length_le
  · rw [hkind, hprops, hlength]
    exact h.array.index_lt

namespace Heap

variable {o : Object}

/-- The array path stores what the general one stores. -/
theorem storeDefaultArrayIndex_eq (ho : o.kind = .array) (h : Heap) (id i : ℕ) (value : Value) :
    h.storeDefaultArrayIndex id o i value = h.store id (o.putDefaultProperty (.index i) value) := by
  unfold storeDefaultArrayIndex Object.putDefaultProperty Object.rememberProperty
  simp only [ho]

variable {length : ℕ} {value : Value}

theorem arrayLength_le (h : arrayLength value = .ok length) : length ≤ 4294967295 := by
  unfold arrayLength at h
  split at h
  · split at h
    · cases h
      omega
    · cases h
  · split at h
    · rename_i x hx
      cases h
      obtain ⟨hlow, hhigh, -⟩ := hx
      unfold Double.toUnits at hlow hhigh
      unfold Double.trunc
      split
      · rw [Int.toNat_neg_natCast]
        exact Nat.zero_le _
      · rename_i hneg
        rw [if_neg hneg] at hhigh
        rw [Int.toNat_natCast]
        have hle : x.units ≤ 4294967295 * Double.unitsPerOne := by exact_mod_cast hhigh
        exact Nat.div_le_of_le_mul (by rw [Nat.mul_comm]; exact hle)
    · cases h
  · cases h

theorem objectOk_resizeArray {o o' : Object} (h : ObjectOk o) (hlength : length ≤ 4294967295)
    (hr : resizeArray o length = .ok o') : ObjectOk o' := by
  unfold resizeArray at hr
  split at hr
  · rename_i hle
    cases hr
    refine ⟨⟨h.order.nodup, h.order.mem_iff⟩, fun _ => hlength, fun ho i hi => ?_⟩
    exact Nat.lt_of_lt_of_le (h.array.index_lt ho i hi) hle
  · dsimp only at hr
    split at hr
    · cases hr
    · cases hr
      have hremoved : ∀ key ∈ ((o.properties.toList.filter fun e =>
          Object.beyond length e.1).map Prod.fst), key ∉ o.propertyOrder := by
        intro key hk hm
        obtain ⟨e, he, rfl⟩ := List.mem_map.1 hk
        have hb := (List.mem_filter.1 he).2
        have hi := ((h.order.mem_iff _).1 hm).1
        cases hkey : e.1 with
        | index i =>
          rw [hkey] at hi
          cases hi
        | name v =>
          rw [hkey] at hb
          cases hb
      have hdiff : o.propertyOrder.diff ((o.properties.toList.filter fun e =>
          Object.beyond length e.1).map Prod.fst) = o.propertyOrder := by
        generalize (o.properties.toList.filter fun e =>
          Object.beyond length e.1).map Prod.fst = removed at hremoved
        induction removed with
        | nil => rfl
        | cons key rest ih =>
          rw [List.diff_cons, List.erase_of_not_mem (hremoved key List.mem_cons_self)]
          exact ih fun k hk => hremoved k (List.mem_cons_of_mem _ hk)
      refine ⟨⟨?_, fun key => ?_⟩, fun _ => hlength, fun ho i hi => ?_⟩
      · show (o.propertyOrder.diff _).Nodup
        rw [hdiff]
        exact h.order.nodup
      · show key ∈ o.propertyOrder.diff _ ↔ _
        rw [hdiff, h.order.mem_iff, hasKey_filterKeys_iff]
        constructor
        · rintro ⟨hi, hk⟩
          refine ⟨hi, ?_, hk⟩
          cases key with
          | index i => cases hi
          | name v => rfl
        · exact fun hk => ⟨hk.1, hk.2.2⟩
      · have hb := ((hasKey_filterKeys_iff ..).1 hi).1
        have : Object.beyond length (.index i) = false := by
          cases hb' : Object.beyond length (.index i) with
          | false => rfl
          | true =>
            rw [hb'] at hb
            cases hb
        exact Nat.not_le.1 (of_decide_eq_false this)

theorem objectOk_setLength {o o' : Object} (h : ObjectOk o) (hs : setLength o value = .ok o') :
    ObjectOk o' := by
  obtain ⟨_, -, hs⟩ := bind_eq_ok hs
  obtain ⟨length, hlength, hs⟩ := bind_eq_ok hs
  exact objectOk_resizeArray h (arrayLength_le hlength) hs

theorem objectOk_clearArray (h : ObjectOk o) : ObjectOk o.clearArray := by
  refine ⟨⟨h.order.nodup, fun key => ?_⟩, fun _ => Nat.zero_le _, fun _ i hi => ?_⟩
  · show key ∈ o.propertyOrder ↔ _
    rw [h.order.mem_iff]
    refine and_congr_right fun hi => ?_
    show _ ↔ (o.properties.filterKeys _).hasKey key = true
    rw [hasKey_filterKeys_iff, hi]
    exact ⟨fun hk => ⟨rfl, hk⟩, And.right⟩
  · have hp := ((hasKey_filterKeys_iff ..).1 hi).1
    cases hp

theorem objectOk_delete (h : ObjectOk o) (key : Key) : ObjectOk { o with
      properties := o.properties.delete key
      propertyOrder := o.propertyOrder.erase key } := by
  refine ⟨⟨h.order.nodup.erase key, fun k => ?_⟩, h.array.length_le, fun ho i hi => ?_⟩
  · show k ∈ o.propertyOrder.erase key ↔ _ ∧ (o.properties.delete key).hasKey k = true
    rw [h.order.nodup.mem_erase_iff, h.order.mem_iff, hasKey_delete_iff]
    exact and_left_comm
  · exact h.array.index_lt ho i ((hasKey_delete_iff ..).1 hi).2

theorem objectOk_elements (values : List Value) (first : ℕ) (i : ℕ) :
    (elements first values).hasKey (.index i) = true ↔ first ≤ i ∧ i < first + values.length := by
  induction values generalizing first with
  | nil =>
    constructor
    · intro h
      cases h
    · rintro ⟨h1, h2⟩
      exact absurd h2 (Nat.not_lt.2 h1)
  | cons v vs ih =>
    rw [elements, hasKey_put_iff, ih, Key.index.injEq, List.length_cons]
    omega

theorem not_hasKey_elements_name (values : List Value) (first : ℕ) (v : Value) :
    (elements first values).hasKey (.name v) = false := by
  induction values generalizing first with
  | nil => rfl
  | cons w ws ih =>
    cases h : (elements first (w :: ws)).hasKey (.name v) with
    | false => rfl
    | true =>
      rw [elements, hasKey_put_iff, ih] at h
      rcases h with h | h <;> cases h

end Heap

/-! ### Heaps -/

structure HeapOk (h : Heap) : Prop where
  object : ∀ id o, h.objects.get? id = some o → ObjectOk o
  id_lt : ∀ id o, h.objects.get? id = some o → id < h.nextObjectId

namespace Heap

theorem heapOk_empty : HeapOk empty := ⟨fun _ _ h => (by cases h), fun _ _ h => (by cases h)⟩

variable {h : Heap} {id : ℕ} {o : Object}

theorem fetchObject_ok (hf : h.fetchObject id = .ok o) : h.objects.get? id = some o := by
  unfold fetchObject at hf
  split at hf
  · rename_i object hget
    cases hf
    exact hget
  · cases hf

theorem heapOk_store_iff (hok : HeapOk h) {o o' : Object} (hget : h.objects.get? id = some o) :
    HeapOk (h.store id o') ↔ ObjectOk o' := by
  constructor
  · exact fun hs => hs.object id o' (Assoc.get?_put ..)
  · intro ho'
    constructor
    · intro j p hj
      obtain ⟨-, rfl⟩ | ⟨-, hj⟩ := Assoc.get?_put_cases hj
      · exact ho'
      · exact hok.object j p hj
    · intro j p hj
      obtain ⟨rfl, -⟩ | ⟨-, hj⟩ := Assoc.get?_put_cases hj
      · exact hok.id_lt j o hget
      · exact hok.id_lt j p hj

theorem heapOk_storeNew_iff (hok : HeapOk h) (o : Object) :
    HeapOk (h.storeNew o).2 ↔ ObjectOk o := by
  constructor
  · exact fun hs => hs.object _ o (Assoc.get?_put ..)
  · intro ho
    constructor
    · intro j p hj
      obtain ⟨-, rfl⟩ | ⟨-, hj⟩ := Assoc.get?_put_cases hj
      · exact ho
      · exact hok.object j p hj
    · intro j p hj
      obtain ⟨rfl, -⟩ | ⟨-, hj⟩ := Assoc.get?_put_cases hj
      · exact Nat.lt_succ_self _
      · exact Nat.lt_succ_of_lt (hok.id_lt j p hj)

/-- The property at `key` would be stored in its array without raising the length. -/
def Forgets (h : Heap) (id : ℕ) (key : Key) (isDefault : Bool) : Prop :=
  ∃ o, h.objects.get? id = some o ∧ o.forgets key isDefault = true ∧ o.extensible = true ∧
    o.lengthWritable = true

/-- A result keeps the invariant exactly when the condition holds; a refused operation meets
the condition. -/
def Outcome (result : Except HeapError Heap) (condition : Prop) : Prop :=
  match result with
  | .ok h => HeapOk h ↔ condition
  | .error _ => condition

variable {condition : Prop}

theorem Outcome.of_ok (hh : HeapOk h) (hc : condition) :
    Outcome (.ok h) condition := ⟨fun _ => hc, fun _ => hh⟩

/-- An operation that keeps the invariant whenever it succeeds. -/
theorem Outcome.keeps {result : Except HeapError Heap} (hr : ∀ h, result = .ok h → HeapOk h)
    (hc : condition) : Outcome result condition := by
  cases result with
  | ok h => exact .of_ok (hr h rfl) hc
  | error reason => exact hc

variable {key : Key}

theorem not_forgets_of_ok {isDefault : Bool} (hget : h.objects.get? id = some o)
    (hf : o.forgets key isDefault = false) : ¬ h.Forgets id key isDefault := by
  rintro ⟨p, hp, hpf, -⟩
  rw [hget] at hp
  cases hp
  rw [hf] at hpf
  cases hpf

/-- **Storing a descriptor keeps the invariant unless it forgets the length.** -/
theorem outcome_storeDescriptor (hok : HeapOk h) (hget : h.objects.get? id = some o)
    (hkey : ∀ i, key = .index i → i ≤ maxIndex) (property : Descriptor) :
    Outcome (h.storeDescriptor id o key property) (¬ h.Forgets id key property.isDefault) := by
  have ho := hok.object id o hget
  cases hf : o.forgets key property.isDefault with
  | false =>
    refine Outcome.keeps (fun h' hs => ?_) (not_forgets_of_ok hget hf)
    obtain ⟨_, -, hs⟩ := bind_eq_ok hs
    cases hs
    exact (heapOk_store_iff hok hget).2 ((ho.putPropertyStruct_iff hkey property).2 hf)
  | true =>
    -- the key is new: whether it is stored depends on the two flags of the object
    have hnew : o.properties.get? key = none := by
      cases hg : o.properties.get? key with
      | none => rfl
      | some stored =>
        rw [ho.not_forgets_of_hasKey (Assoc.hasKey_iff.2 ⟨stored, hg⟩)] at hf
        cases hf
    obtain ⟨hf', -⟩ := Bool.and_eq_true_iff.1 hf
    obtain ⟨hkind, hbeyond⟩ := Bool.and_eq_true_iff.1 hf'
    have hvalidate : validateDefinition o key property =
        if o.extensible then check o.lengthWritable (.propertyNotWritable lengthKey)
        else .error (.objectNotExtensible key) := by
      unfold validateDefinition validateArrayGrowth
      rw [hnew, hkind, hbeyond, Bool.true_and, Bool.and_true, Bool.not_not]
    unfold storeDescriptor
    rw [hvalidate]
    by_cases hflags : o.extensible = true ∧ o.lengthWritable = true
    · rw [if_pos hflags.1, check_of_true _ hflags.2]
      refine ⟨fun hh => ?_, fun hn => absurd ⟨o, hget, hf, hflags⟩ hn⟩
      have hobj := (heapOk_store_iff hok hget).1 hh
      rw [(ho.putPropertyStruct_iff hkey property).1 hobj] at hf
      cases hf
    · have hn : ¬ h.Forgets id key property.isDefault := by
        rintro ⟨p, hp, -, hflags'⟩
        rw [hget] at hp
        cases hp
        exact hflags hflags'
      refine Outcome.keeps (fun h' hs => ?_) hn
      obtain ⟨_, hv, -⟩ := bind_eq_ok hs
      split at hv
      · rename_i he
        exact absurd ⟨he, check_eq_ok hv⟩ hflags
      · cases hv

/-! ### The operations -/

theorem heapOk_storeDefaultArrayIndex (hok : HeapOk h) (hget : h.objects.get? id = some o)
    (ho : o.kind = .array) {i : ℕ} (hi : i ≤ maxIndex) (value : Value) :
    HeapOk (h.storeDefaultArrayIndex id o i value) := by
  rw [storeDefaultArrayIndex_eq ho, heapOk_store_iff hok hget]
  exact (hok.object id o hget).putDefaultProperty (fun j hj => by cases hj; exact hi) value

variable {h' : Heap}

theorem heapOk_putObject (hok : HeapOk h) (hget : h.objects.get? id = some o)
    (hkey : ∀ i, key = .index i → i ≤ maxIndex) {value : Value}
    (hp : h.putObject id o key value = .ok h') : HeapOk h' := by
  have ho := hok.object id o hget
  unfold putObject at hp
  split at hp
  · obtain ⟨o', hs, hp⟩ := bind_eq_ok hp
    cases hp
    exact (heapOk_store_iff hok hget).2 (objectOk_setLength ho hs)
  · obtain ⟨_, -, hp⟩ := bind_eq_ok hp
    obtain ⟨_, -, hp⟩ := bind_eq_ok hp
    cases hp
    exact (heapOk_store_iff hok hget).2 (ho.putProperty hkey value)

theorem heapOk_put (hok : HeapOk h) {key value : Value} (hp : h.put id key value = .ok h') :
    HeapOk h' := by
  obtain ⟨o, hfetch, hp⟩ := bind_eq_ok hp
  have hget := fetchObject_ok hfetch
  have hkey : ∀ i, normalizeKey key = .index i → i ≤ maxIndex := fun i => normalizeKey_index
  split at hp
  · rename_i i ho hk
    have hi := hkey i hk
    split at hp
    · cases hp
      exact heapOk_storeDefaultArrayIndex hok hget ho hi value
    · obtain ⟨_, -, hp⟩ := bind_eq_ok hp
      obtain ⟨_, -, hp⟩ := bind_eq_ok hp
      obtain ⟨_, -, hp⟩ := bind_eq_ok hp
      cases hp
      exact heapOk_storeDefaultArrayIndex hok hget ho hi value
    · exact heapOk_putObject hok hget (fun j hj => by cases hj; exact hi) hp
  · exact heapOk_putObject hok hget hkey hp

theorem PropertyOptions.isDefault_property (opts : PropertyOptions) (value : Value) :
    (opts.property value).isDefault = opts.isDefault := by
  unfold PropertyOptions.property Descriptor.isDefault PropertyOptions.isDefault
  show (!false && _ && _ && _) = _
  rw [Bool.not_false, Bool.true_and]
  rfl

theorem outcome_defineObject (hok : HeapOk h) (hget : h.objects.get? id = some o)
    (hkey : ∀ i, key = .index i → i ≤ maxIndex) (value : Value) (opts : PropertyOptions) :
    Outcome (h.defineObject id o key value opts) (¬ h.Forgets id key opts.isDefault) := by
  unfold defineObject
  split
  · rename_i hlength
    refine Outcome.keeps (fun h' hd => ?_) (not_forgets_of_ok hget ?_)
    · obtain ⟨_, -, hd⟩ := bind_eq_ok hd
      obtain ⟨_, -, hd⟩ := bind_eq_ok hd
      obtain ⟨o', hs, hd⟩ := bind_eq_ok hd
      cases hd
      have ho' := objectOk_setLength (hok.object id o hget) hs
      exact (heapOk_store_iff hok hget).2 (ho'.congr rfl rfl rfl rfl)
    · rw [hlength.2]
      show (_ && false && _) = false
      rw [Bool.and_false, Bool.false_and]
  · rw [← opts.isDefault_property value]
    exact outcome_storeDescriptor hok hget hkey _

theorem outcome_define (hok : HeapOk h) (id : ℕ) (key value : Value) (opts : PropertyOptions) :
    Outcome (h.define id key value opts) (¬ h.Forgets id (normalizeKey key) opts.isDefault) := by
  have hkey : ∀ i, normalizeKey key = .index i → i ≤ maxIndex := fun i => normalizeKey_index
  unfold define
  cases hfetch : h.fetchObject id with
  | error reason =>
    rintro ⟨o, hget, -⟩
    unfold fetchObject at hfetch
    rw [hget] at hfetch
    cases hfetch
  | ok o =>
    have hget := fetchObject_ok hfetch
    have hdefault (key : Key) (hd : opts.isDefault = true) :
        ¬ h.Forgets id key opts.isDefault := by
      refine not_forgets_of_ok hget ?_
      unfold Object.forgets
      rw [hd, Bool.not_true, Bool.and_false]
    dsimp only [bind, Except.bind]
    split
    · rename_i i ho hk
      have hi := hkey i hk
      rw [hk]
      split
      · rename_i hd
        exact .of_ok (heapOk_storeDefaultArrayIndex hok hget ho hi value) (hdefault _ hd)
      · rename_i hd
        refine Outcome.keeps (fun h' hs => ?_) (hdefault _ hd)
        obtain ⟨_, -, hs⟩ := bind_eq_ok hs
        obtain ⟨_, -, hs⟩ := bind_eq_ok hs
        cases hs
        exact heapOk_storeDefaultArrayIndex hok hget ho hi value
      · exact outcome_defineObject hok hget (fun j hj => by cases hj; exact hi) value opts
    · exact outcome_defineObject hok hget hkey value opts

theorem outcome_defineAccessor (hok : HeapOk h) (id : ℕ) (key : Value) (kind : AccessorKind)
    (f : Value) (opts : PropertyOptions) :
    Outcome (h.defineAccessor id key kind f opts) (¬ h.Forgets id (normalizeKey key) false) := by
  unfold defineAccessor
  cases hfetch : h.fetchObject id with
  | error reason =>
    rintro ⟨o, hget, -⟩
    unfold fetchObject at hfetch
    rw [hget] at hfetch
    cases hfetch
  | ok o =>
    exact outcome_storeDescriptor hok (fetchObject_ok hfetch) (fun i => normalizeKey_index)
      (accessorProperty (o.properties.get? (normalizeKey key)) kind f opts)

theorem outcome_defineDescriptor (hok : HeapOk h) (id : ℕ) (key : Value) (property : Descriptor) :
    Outcome (h.defineDescriptor id key property)
      (¬ h.Forgets id (normalizeKey key) property.isDefault) := by
  unfold defineDescriptor
  cases hfetch : h.fetchObject id with
  | error reason =>
    rintro ⟨o, hget, -⟩
    unfold fetchObject at hfetch
    rw [hget] at hfetch
    cases hfetch
  | ok o =>
    have hget := fetchObject_ok hfetch
    show Outcome (if _ then _ else _) _
    split
    · rename_i hlength
      rw [hlength.2]
      refine not_forgets_of_ok hget ?_
      show (_ && false && _) = false
      rw [Bool.and_false, Bool.false_and]
    · exact outcome_storeDescriptor hok hget (fun i => normalizeKey_index) property

theorem outcome_applyPropertyDefinition (hok : HeapOk h) (id : ℕ) (key : Value)
    (property : Descriptor) : Outcome (h.applyPropertyDefinition id key property)
      (¬ h.Forgets id (normalizeKey key) property.isDefault) := by
  unfold applyPropertyDefinition
  split
  · exact outcome_defineDescriptor hok id key property
  · rename_i hdata
    have hdefault : property.isDefault = (⟨some property.writable, some property.enumerable,
        some property.configurable⟩ : PropertyOptions).isDefault := by
      unfold Descriptor.isDefault
      rw [Bool.not_eq_true] at hdata
      rw [hdata, Bool.not_false, Bool.true_and]
      rfl
    rw [hdefault]
    exact outcome_define hok id key _ _

theorem heapOk_clearArray (hok : HeapOk h) (hc : h.clearArray id = .ok h') : HeapOk h' := by
  obtain ⟨o, hfetch, hc⟩ := bind_eq_ok hc
  obtain ⟨_, -, hc⟩ := bind_eq_ok hc
  cases hc
  have hget := fetchObject_ok hfetch
  exact (heapOk_store_iff hok hget).2 (objectOk_clearArray (hok.object id o hget))

/-- A definition without flags keeps the invariant. -/
theorem heapOk_define_noOptions (hok : HeapOk h) {key value : Value}
    (hd : h.define id key value noOptions = .ok h') : HeapOk h' := by
  have hout := outcome_define hok id key value noOptions
  rw [hd] at hout
  refine hout.2 ?_
  rintro ⟨o, -, hf, -⟩
  unfold Object.forgets at hf
  rw [show noOptions.isDefault = true from rfl, Bool.not_true, Bool.and_false] at hf
  cases hf

theorem heapOk_defineFrom (hok : HeapOk h) {id first : ℕ} {values : List Value}
    (hd : h.defineFrom id first values = .ok h') : HeapOk h' := by
  induction values generalizing h first with
  | nil =>
    cases hd
    exact hok
  | cons v vs ih =>
    unfold defineFrom at hd
    split at hd
    · rename_i h₁ h₂
      exact ih (heapOk_define_noOptions hok h₂) hd
    · cases hd

theorem heapOk_sort [Value.Platform] (hok : HeapOk h) (hs : h.sort id = .ok h') : HeapOk h' := by
  unfold sort at hs
  split at hs
  · cases hs
  · split at hs
    · cases hs
    · obtain ⟨h₁, hc, hs⟩ := bind_eq_ok hs
      exact heapOk_defineFrom (heapOk_clearArray hok hc) hs

theorem heapOk_updateObject (hok : HeapOk h) {update : Object → Object}
    (hupdate : ∀ o, ObjectOk o → ObjectOk (update o)) (hu : h.updateObject id update = .ok h') :
    HeapOk h' := by
  obtain ⟨o, hfetch, hu⟩ := bind_eq_ok hu
  cases hu
  have hget := fetchObject_ok hfetch
  exact (heapOk_store_iff hok hget).2 (hupdate o (hok.object id o hget))

theorem heapOk_delete (hok : HeapOk h) {key : Value} {deleted : Bool × Heap}
    (hd : h.delete id key = .ok deleted) : HeapOk deleted.2 := by
  obtain ⟨o, hfetch, hd⟩ := bind_eq_ok hd
  split at hd
  · cases hd
    exact hok
  · cases hd
    have hget := fetchObject_ok hfetch
    exact (heapOk_store_iff hok hget).2 (objectOk_delete (hok.object id o hget) _)

/-! ### Runs -/

variable [Value.Platform] (callable : Value → Bool)

def Respects (h : Heap) : Operation → Prop
  | .allocate kind opts => kind = .array → opts.length ≤ 4294967295
  | .allocateArray values => values.length ≤ 4294967295
  | .define id key _ opts => ¬ h.Forgets id (normalizeKey key) opts.isDefault
  | .defineAccessor id key _ _ _ => ¬ h.Forgets id (normalizeKey key) false
  | .defineDescriptor id key property => ¬ h.Forgets id (normalizeKey key) property.isDefault
  | .defineProperty id key fields => ∀ current property, h.ownProperty id key = .ok current →
      descriptorDefinition callable fields current = .ok property →
      ¬ h.Forgets id (normalizeKey key) property.isDefault
  | .put _ _ _ | .delete _ _ | .setPrototype _ _ | .clearArray _ | .freeze _ | .sort _ => True

omit [Value.Platform] in
theorem outcome_defineProperty (hok : HeapOk h) (id : ℕ) (key : Value) (fields : DescriptorFields) :
    Outcome (h.defineProperty callable id key fields)
      (Respects callable h (.defineProperty id key fields)) := by
  unfold defineProperty
  cases hcurrent : h.ownProperty id key with
  | error reason =>
    intro current property hc
    rw [hcurrent] at hc
    cases hc
  | ok current =>
    cases hproperty : descriptorDefinition callable fields current with
    | error reason =>
      show Outcome ((descriptorDefinition callable fields current).bind _) _
      rw [hproperty]
      intro current' property hc hp
      rw [hcurrent] at hc
      cases hc
      rw [hproperty] at hp
      cases hp
    | ok property =>
      show Outcome ((descriptorDefinition callable fields current).bind _) _
      rw [hproperty]
      have hrespects : Respects callable h (.defineProperty id key fields) ↔
          ¬ h.Forgets id (normalizeKey key) property.isDefault := by
        constructor
        · exact fun hr => hr current property hcurrent hproperty
        · intro hn current' property' hc hp
          rw [hcurrent] at hc
          cases hc
          rw [hproperty] at hp
          cases hp
          exact hn
      rw [hrespects]
      exact outcome_applyPropertyDefinition hok id key property

theorem outcome_apply (hok : HeapOk h) (operation : Operation) :
    Outcome (h.apply callable operation) (Respects callable h operation) := by
  cases operation with
  | allocate kind opts =>
    refine (heapOk_storeNew_iff hok _).trans ⟨fun ho => ho.array.length_le, fun hl => ?_⟩
    refine ⟨⟨List.nodup_nil, fun key => ?_⟩, hl, fun _ i hi => ?_⟩
    · exact ⟨fun hk => absurd hk List.not_mem_nil, fun hk => (by cases hk.2)⟩
    · cases hi
  | allocateArray values =>
    refine (heapOk_storeNew_iff hok _).trans ⟨fun ho => ho.array.length_le rfl, fun hl => ?_⟩
    refine ⟨⟨List.nodup_nil, fun key => ?_⟩, fun _ => hl, fun _ i hi => ?_⟩
    · refine ⟨fun hk => absurd hk List.not_mem_nil, fun hk => ?_⟩
      cases key with
      | index i => cases hk.1
      | name v =>
        rw [show (_ : Object).properties = elements 0 values from rfl,
          not_hasKey_elements_name] at hk
        cases hk.2
    · have := ((objectOk_elements values 0 i).1 hi).2
      rwa [Nat.zero_add] at this
  | put id key value => exact .keeps (fun h' hp => heapOk_put hok hp) trivial
  | define id key value opts => exact outcome_define hok id key value opts
  | defineAccessor id key kind f opts => exact outcome_defineAccessor hok id key kind f opts
  | defineDescriptor id key property => exact outcome_defineDescriptor hok id key property
  | delete id key =>
    refine .keeps (fun h' hd => ?_) trivial
    change (h.delete id key).map Prod.snd = .ok h' at hd
    cases hdel : h.delete id key with
    | error reason =>
      rw [hdel] at hd
      cases hd
    | ok deleted =>
      rw [hdel] at hd
      cases hd
      exact heapOk_delete hok hdel
  | setPrototype id prototype =>
    refine .keeps (fun h' hp => ?_) trivial
    obtain ⟨o, hfetch, hp⟩ := bind_eq_ok hp
    obtain ⟨_, -, hp⟩ := bind_eq_ok hp
    cases hp
    have hget := fetchObject_ok hfetch
    exact (heapOk_store_iff hok hget).2 ((hok.object id o hget).congr rfl rfl rfl rfl)
  | clearArray id => exact .keeps (fun h' hc => heapOk_clearArray hok hc) trivial
  | freeze id =>
    refine .keeps (fun h' hf => ?_) trivial
    change h.freeze id = .ok h' at hf
    unfold freeze at hf
    split at hf
    · rename_i h₁ hu
      cases hf
      refine heapOk_updateObject hok (fun o ho => ?_) hu
      exact ho.congr rfl rfl rfl rfl
    · cases hf
  | sort id => exact .keeps (fun h' hs => heapOk_sort hok hs) trivial
  | defineProperty id key fields => exact outcome_defineProperty callable hok id key fields

/-- **One step.**  The invariant is kept exactly by the operations that respect it. -/
theorem step_iff (hok : HeapOk h) {operation : Operation}
    (hs : step callable h operation = some h') : HeapOk h' ↔ Respects callable h operation := by
  have hout := outcome_apply callable hok operation
  unfold step at hs
  cases hr : h.apply callable operation with
  | ok h₁ =>
    rw [hr] at hs hout
    cases hs
    exact hout
  | error reason =>
    rw [hr] at hs hout
    have hh : h' = h := by
      cases reason <;> first | cases hs; done | exact (Option.some.inj hs).symm
    rw [hh]
    exact ⟨fun _ => hout, fun _ => hok⟩

/-- **The heap invariant.**  From the empty heap, operations that respect the lengths of arrays
keep the order, the lengths and the identifiers right; an operation that does not breaks them. -/
theorem heap_invariant :
    (∀ h, (machine callable).ReachableIf (Respects callable) h → HeapOk h) ∧
    ∀ h operation h', (machine callable).ReachableIf (Respects callable) h →
      step callable h operation = some h' → (HeapOk h' ↔ Respects callable h operation) := by
  have hreach : ∀ h, (machine callable).ReachableIf (Respects callable) h → HeapOk h := by
    intro h hr
    refine hr.invariant (fun s hs => ?_) (fun s e s' hI hok he => ?_)
    · rw [hs]
      exact heapOk_empty
    · exact (step_iff callable hI he).2 hok
  exact ⟨hreach, fun h operation h' hr hs => step_iff callable (hreach h hr) hs⟩

omit [Value.Platform]

/-- An array of one element, written to behind its end. -/
theorem heap_invariant_push :
    ∃ h, (@machine Value.noNumbers fun _ => false).exec empty
        [.allocateArray [.int 7], .put 0 (.int 3) (.int 8)] = some h ∧ HeapOk h := by
  have hlength : [Value.int 7].length ≤ 4294967295 := by decide
  exact ⟨_, rfl, (@heap_invariant Value.noNumbers fun _ => false).1 _
    ⟨empty, [.allocateArray [.int 7], .put 0 (.int 3) (.int 8)], rfl,
      .cons hlength rfl (.cons trivial rfl (.nil _))⟩⟩

/-- `Object.defineProperty([], 0, {value: 1})`: an array of length zero with an element. -/
theorem defineProperty_forgets_length :
    ¬ ∀ h, (@machine Value.noNumbers fun _ => false).Reachable h → HeapOk h := by
  intro hall
  have hrun : ∃ h o, (@machine Value.noNumbers fun _ => false).exec empty
      [.allocateArray [], .defineProperty 0 (.int 0)
        ⟨none, none, some (.int 1), none, none, none⟩] = some h ∧
      h.objects.get? 0 = some o ∧ o.kind = .array ∧ o.properties.hasKey (.index 0) = true ∧
      o.length = 0 := ⟨_, _, rfl, rfl, rfl, rfl, rfl⟩
  obtain ⟨h, o, hexec, hget, hkind, hkey, hlength⟩ := hrun
  have hok := hall h (Machine.reachable_of_exec rfl hexec)
  have hlt := (hok.object 0 o hget).array.index_lt hkind 0 hkey
  rw [hlength] at hlt
  exact absurd hlt (Nat.lt_irrefl 0)

end Heap

end QuickBeam.Vm.Runtime
