import QuickBeam.Lib.OrdinaryObject
import QuickBeam.Vm.Runtime.HeapInvariant

/-!
# Own keys and deletion (`own_keys/2`, `assignable_keys/2` and `delete/3` of `runtime/heap.ex`)

The own keys of an object are its indices in ascending order, then the other keys in the order in
which they were first written.  Deletion takes a key out of the properties and out of that order.
The length of an array is a property that stands outside both, so deletion overlooks it.
-/

namespace QuickBeam.Lib.Assoc

variable {κ ν : Type*} [DecidableEq κ]

theorem filter_toList_delete (m : Assoc κ ν) (k : κ) :
    (m.delete k).toList.filter (fun e => e.1 ≠ k) = m.toList.filter fun e => e.1 ≠ k := by
  show ((m.entries.kerase k).map fun e => (e.1, e.2)).filter _ =
    (m.entries.map fun e => (e.1, e.2)).filter _
  induction m.entries with
  | nil => rfl
  | cons e es ih =>
    by_cases h : k = e.1
    · rw [List.kerase_cons_eq h, List.map_cons, List.filter_cons_of_neg (by simp [h])]
    · have hne : e.1 ≠ k := fun he => h he.symm
      rw [List.kerase_cons_ne h, List.map_cons, List.map_cons, List.filter_cons_of_pos (by simp [hne]),
        List.filter_cons_of_pos (by simp [hne]), ih]

end QuickBeam.Lib.Assoc

namespace QuickBeam.Vm.Runtime

open QuickBeam.Lib QuickBeam.Vm.Program

/-! ### The order of the keys -/

def Key.index? : Key → Option ℕ
  | .index i => some i
  | .name _ => none

def Key.isString : Key → Bool
  | .name (.string _) => true
  | _ => false

namespace Object

/-- The indices among the properties that satisfy `keep`, sorted. -/
def indices (object : Object) (keep : Stored → Bool) : List ℕ :=
  (object.properties.toList.filterMap fun e =>
    if keep e.2 then e.1.index? else none).insertionSort (· ≤ ·)

def keyOrder (object : Object) : List Key :=
  (object.indices fun _ => true).map Key.index ++ object.propertyOrder

/-- `property_enumerable?(object.properties[key])`; no clause takes a missing property. -/
def enumerable (object : Object) (key : Key) : Bool :=
  ((object.properties.get? key).map Stored.enumerable).getD false

def ownKeys (object : Object) : List Key :=
  (object.indices Stored.enumerable).map Key.index ++
    object.propertyOrder.filter fun key => key.isString && object.enumerable key

def assignableKeys (object : Object) : List Key :=
  (object.indices Stored.enumerable).map Key.index ++
    object.propertyOrder.filter fun key => !Object.isIndex key && object.enumerable key

def without (object : Object) (key : Key) : Object :=
  { object with
    properties := object.properties.delete key
    propertyOrder := object.propertyOrder.erase key }

theorem filter_filterMap_index (key : Key) (keep : Stored → Bool) (entries : List (Key × Stored)) :
    (entries.filterMap fun e => if keep e.2 then e.1.index? else none).filter
        (fun i => Key.index i ≠ key) =
      (entries.filter fun e => e.1 ≠ key).filterMap fun e =>
        if keep e.2 then e.1.index? else none := by
  rw [List.filter_filterMap, List.filterMap_filter]
  congr 1
  funext e
  obtain ⟨k, stored⟩ := e
  cases k with
  | name v =>
    by_cases hkey : Key.name v = key <;> by_cases hkeep : keep stored <;> simp [*, Key.index?]
  | index i =>
    by_cases hkey : Key.index i = key <;> by_cases hkeep : keep stored <;> simp [*, Key.index?]

theorem indices_without (object : Object) (key : Key) (keep : Stored → Bool) :
    ((object.without key).indices keep).filter (fun i => Key.index i ≠ key) =
      (object.indices keep).filter fun i => Key.index i ≠ key := by
  unfold indices
  rw [Javascript.filter_insertionSort, Javascript.filter_insertionSort, filter_filterMap_index,
    filter_filterMap_index]
  show (((object.properties.delete key).toList.filter _).filterMap _).insertionSort _ = _
  rw [Assoc.filter_toList_delete]

theorem keyOrder_without (object : Object) (key : Key) :
    (object.without key).keyOrder.filter (· ≠ key) = object.keyOrder.filter (· ≠ key) := by
  have hindices := congrArg (List.map Key.index) (object.indices_without key fun _ => true)
  have horder : (object.propertyOrder.erase key).filter (· ≠ key) =
      object.propertyOrder.filter (· ≠ key) := by
    induction object.propertyOrder with
    | nil => rfl
    | cons k ks ih =>
      by_cases hk : k = key
      · rw [hk, List.erase_cons_head, List.filter_cons_of_neg (by simp)]
      · rw [List.erase_cons_tail (by simpa using hk), List.filter_cons_of_pos (by simpa using hk),
          List.filter_cons_of_pos (by simpa using hk), ih]
  show (((object.without key).indices _).map Key.index ++ object.propertyOrder.erase key).filter _ =
    ((object.indices _).map Key.index ++ object.propertyOrder).filter _
  rw [List.filter_append, List.filter_append, horder, List.filter_map, List.filter_map]
  exact congrArg (· ++ _) hindices

end Object

/-! ### Deletion -/

namespace Heap

/-- `h'` is `h` without the own property `key` of the object `id`. -/
structure Deleted (h h' : Heap) (id : ℕ) (key : Value) : Prop where
  gone : h'.ownProperty id key = .ok none
  properties : ∀ other, normalizeKey other ≠ normalizeKey key →
    h'.ownProperty id other = h.ownProperty id other
  object : ∃ o o', h.objects.get? id = some o ∧ h'.objects.get? id = some o' ∧
    o'.keyOrder.filter (· ≠ normalizeKey key) = o.keyOrder.filter (· ≠ normalizeKey key) ∧
    o'.length = o.length ∧ o'.prototype = o.prototype
  others : ∀ other, other ≠ id → h'.objects.get? other = h.objects.get? other

structure DeleteLaw (h : Heap) (id : ℕ) (key : Value) : Prop where
  success : ∀ h', h.delete id key = .ok (true, h') → Deleted h h' id key
  failure : ∀ h', h.delete id key = .ok (false, h') →
    h' = h ∧ ∃ d, h.ownProperty id key = .ok (some d) ∧ d.configurable = false
  fixed : ∀ d, h.ownProperty id key = .ok (some d) → d.configurable = false →
    h.delete id key = .ok (false, h)

/-- The key is the length of an array, and the properties hold no fixed property of that name: no
operation puts one there. -/
def DeletesLength (h : Heap) (id : ℕ) (key : Value) : Prop :=
  ∃ o, h.objects.get? id = some o ∧ o.kind = .array ∧ normalizeKey key = lengthKey ∧
    (o.properties.get? lengthKey).map Stored.isFixed ≠ some true

variable {h : Heap} {id : ℕ} {o : Object}

theorem ownProperty_eq (ho : h.objects.get? id = some o) (key : Value) : h.ownProperty id key =
      if o.kind = .array ∧ normalizeKey key = lengthKey then
        .ok (some ⟨.data (.int o.length) o.lengthWritable, false, false⟩)
      else .ok ((o.properties.get? (normalizeKey key)).map Stored.descriptor) := by
  unfold ownProperty fetchObject
  rw [ho]
  show (if _ then _ else _) = _
  split <;> rfl

theorem delete_eq (ho : h.objects.get? id = some o) (key : Value) : h.delete id key =
      if (o.properties.get? (normalizeKey key)).map Stored.isFixed = some true then .ok (false, h)
      else .ok (true, h.store id (o.without (normalizeKey key))) := by
  unfold delete fetchObject
  rw [ho]
  dsimp only [bind, Except.bind]
  cases hstored : (o.properties.get? (normalizeKey key)).map Stored.isFixed with
  | none => rfl
  | some fixed => cases fixed <;> rfl

theorem delete_none (ho : h.objects.get? id = none) (key : Value) :
    h.delete id key = .error (.invalidReference id) ∧
      h.ownProperty id key = .error (.invalidReference id) := by
  unfold delete ownProperty fetchObject
  rw [ho]
  exact ⟨rfl, rfl⟩

theorem isFixed_iff (stored : Stored) :
    stored.isFixed = true ↔ stored.descriptor.configurable = false := by
  cases stored with
  | default v => simp [Stored.isFixed, Stored.descriptor]
  | full d => simp [Stored.isFixed, Stored.descriptor]

variable {key : Value}

theorem deleted_without (ho : h.objects.get? id = some o)
    (hlength : ¬(o.kind = .array ∧ normalizeKey key = lengthKey)) :
    Deleted h (h.store id (o.without (normalizeKey key))) id key := by
  have ho' : (h.store id (o.without (normalizeKey key))).objects.get? id =
      some (o.without (normalizeKey key)) := Assoc.get?_put ..
  refine ⟨?_, ?_, ⟨o, _, ho, ho', o.keyOrder_without _, rfl, rfl⟩, ?_⟩
  · have hnot : ¬((o.without (normalizeKey key)).kind = .array ∧ normalizeKey key = lengthKey) :=
      hlength
    rw [ownProperty_eq ho', if_neg hnot]
    show Except.ok (((o.properties.delete (normalizeKey key)).get? _).map _) = _
    rw [Assoc.get?_delete]
    rfl
  · intro other hother
    rw [ownProperty_eq ho', ownProperty_eq ho]
    show (if o.kind = .array ∧ _ then _ else
      Except.ok (((o.properties.delete (normalizeKey key)).get? _).map _)) = _
    rw [Assoc.get?_delete_ne _ hother]
    rfl
  · intro other hother
    exact Assoc.get?_put_ne _ _ hother

theorem deleteLaw_of_fixed (ho : h.objects.get? id = some o)
    (hfixed : (o.properties.get? (normalizeKey key)).map Stored.isFixed = some true) :
    DeleteLaw h id key := by
  have hdelete : h.delete id key = .ok (false, h) := by rw [delete_eq ho, if_pos hfixed]
  refine ⟨?_, ?_, fun _ _ _ => hdelete⟩
  · intro h' hd
    rw [hdelete] at hd
    cases hd
  · intro h' hd
    rw [hdelete] at hd
    cases hd
    obtain ⟨stored, hstored, hisFixed⟩ := Option.map_eq_some_iff.1 hfixed
    rw [ownProperty_eq ho, hstored]
    by_cases hlength : o.kind = .array ∧ normalizeKey key = lengthKey
    · rw [if_pos hlength]
      exact ⟨rfl, _, rfl, rfl⟩
    · rw [if_neg hlength]
      exact ⟨rfl, stored.descriptor, rfl, (isFixed_iff stored).1 hisFixed⟩

theorem deleteLaw_iff_of_not_fixed (ho : h.objects.get? id = some o)
    (hfixed : (o.properties.get? (normalizeKey key)).map Stored.isFixed ≠ some true) :
    DeleteLaw h id key ↔ ¬(o.kind = .array ∧ normalizeKey key = lengthKey) := by
  have hdelete : h.delete id key = .ok (true, h.store id (o.without (normalizeKey key))) := by
    rw [delete_eq ho, if_neg hfixed]
  constructor
  · intro hlaw hlength
    have hown := ownProperty_eq ho key
    rw [if_pos hlength] at hown
    have hrefused := hlaw.fixed _ hown rfl
    rw [hdelete] at hrefused
    cases hrefused
  · intro hlength
    refine ⟨?_, ?_, ?_⟩
    · intro h' hd
      rw [hdelete] at hd
      cases hd
      exact deleted_without ho hlength
    · intro h' hd
      rw [hdelete] at hd
      cases hd
    · intro d hd hconfigurable
      rw [ownProperty_eq ho, if_neg hlength] at hd
      obtain ⟨stored, hstored, hdescriptor⟩ := Option.map_eq_some_iff.1 (Except.ok.inj hd)
      refine absurd ?_ hfixed
      rw [hstored, Option.map_some, (isFixed_iff stored).2 (hdescriptor ▸ hconfigurable)]

/-- **Deletion keeps its promise exactly when it is not asked for the length of an array.** -/
theorem deleteLaw_iff (h : Heap) (id : ℕ) (key : Value) :
    DeleteLaw h id key ↔ ¬DeletesLength h id key := by
  cases ho : h.objects.get? id with
  | none =>
    obtain ⟨hdelete, hown⟩ := delete_none ho key
    refine iff_of_true ⟨?_, ?_, ?_⟩ ?_
    · intro h' hd
      rw [hdelete] at hd
      cases hd
    · intro h' hd
      rw [hdelete] at hd
      cases hd
    · intro d hd
      rw [hown] at hd
      cases hd
    · intro hasked
      obtain ⟨o, hget, -⟩ := hasked
      rw [ho] at hget
      cases hget
  | some o =>
    have hasked : DeletesLength h id key ↔ o.kind = .array ∧ normalizeKey key = lengthKey ∧
        (o.properties.get? (normalizeKey key)).map Stored.isFixed ≠ some true := by
      constructor
      · intro hasked
        obtain ⟨o', hget, hkind, hkey, hstored⟩ := hasked
        cases ho.symm.trans hget
        exact ⟨hkind, hkey, hkey ▸ hstored⟩
      · intro hasked
        obtain ⟨hkind, hkey, hstored⟩ := hasked
        exact ⟨o, ho, hkind, hkey, hkey ▸ hstored⟩
    rw [hasked]
    by_cases hfixed : (o.properties.get? (normalizeKey key)).map Stored.isFixed = some true
    · exact iff_of_true (deleteLaw_of_fixed ho hfixed) fun hlength => hlength.2.2 hfixed
    · rw [deleteLaw_iff_of_not_fixed ho hfixed]
      exact not_congr ⟨fun hlength => ⟨hlength.1, hlength.2, hfixed⟩,
        fun hlength => ⟨hlength.1, hlength.2.1⟩⟩

/-- `delete [].length` succeeds, and the length is still there. -/
theorem length_deleted_and_kept : ¬∀ (h : Heap) (id : ℕ) (key : Value), DeleteLaw h id key := by
  intro hlaw
  have hrefused := (hlaw (allocateArray empty []).2 0 (.string (.ofString "length"))).fixed
    ⟨.data (.int 0) true, false, false⟩ (by decide +kernel) rfl
  have hsuccess : ∃ h', (allocateArray empty []).2.delete 0 (.string (.ofString "length")) =
      .ok (true, h') := ⟨_, rfl⟩
  obtain ⟨h', hdelete⟩ := hsuccess
  rw [hdelete] at hrefused
  cases hrefused

end Heap

end QuickBeam.Vm.Runtime
