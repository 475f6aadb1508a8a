import QuickBeam.Vm.Builtin.SameValueZero

/-!
# Maps and sets are insertion-ordered

The keys of the ordered collections are the classes of SameValueZero.  An ordered map is a list of
entries in the order of their first insertion, an ordered set a list of keys, and an iterator the
list of what it still gives.  Every sequence of operations gives what it gives on the ordered
collections.
-/

namespace QuickBeam.Vm.Builtin

open QuickBeam.Lib QuickBeam.Vm.Program

/-! ### Ordered collections -/

inductive OrderedObject where
  | other
  | map (entries : List (Key × Value))
  | mapIterator (rest : List (Key × Value)) (kind : IteratorKind)
  | set (keys : List Key)
  | setIterator (rest : List Key)

structure Ordered where
  object? : ℕ → Option OrderedObject
  nextObjectId : ℕ

def itemOf (kind : IteratorKind) (entry : Key × Value) : Item Key :=
  match kind with
  | .keys => .key entry.1
  | .values => .value entry.2
  | .entries => .entry entry.1 entry.2

def answerNext (first : Option (Item Key)) : Answer Key :=
  match first with
  | some item => .next item false
  | none => .next .undefined true

namespace Ordered

abbrev Outcome := Except Reason (Answer Key) × Ordered

def store (s : Ordered) (id : ℕ) (object : OrderedObject) : Ordered :=
  { s with object? := Function.update s.object? id (some object) }

def allocate (s : Ordered) (object : OrderedObject) : Outcome :=
  (.ok (.value (.reference s.nextObjectId)),
    ⟨Function.update s.object? s.nextObjectId (some object), s.nextObjectId + 1⟩)

def onMap (s : Ordered) (this : Value) (method : ℕ → List (Key × Value) → Outcome) : Outcome :=
  match this with
  | .reference id =>
      match s.object? id with
      | some (.map entries) => method id entries
      | _ => (.error .incompatibleMapReceiver, s)
  | _ => (.error .incompatibleMapReceiver, s)

def onSet (s : Ordered) (this : Value) (method : ℕ → List Key → Outcome) : Outcome :=
  match this with
  | .reference id =>
      match s.object? id with
      | some (.set keys) => method id keys
      | _ => (.error .incompatibleSetReceiver, s)
  | _ => (.error .incompatibleSetReceiver, s)

def add (s : Ordered) (this : Value) (key : Key) : Outcome :=
  match this with
  | .reference id =>
      match s.object? id with
      | some (.set keys) => (.ok (.value this), s.store id (.set (addKey key keys)))
      | some _ => (.error .incompatibleSetReceiver, s)
      | none => (.error (.invalidReference id), s)
  | _ => (.error .incompatibleSetReceiver, s)

def mapNext (s : Ordered) (this : Value) : Outcome :=
  match this with
  | .reference id =>
      match s.object? id with
      | some (.mapIterator rest kind) =>
          (.ok (answerNext (rest.head?.map (itemOf kind))), s.store id (.mapIterator rest.tail kind))
      | _ => (.error .incompatibleMapIteratorReceiver, s)
  | _ => (.error .incompatibleMapIteratorReceiver, s)

def setNext (s : Ordered) (this : Value) : Outcome :=
  match this with
  | .reference id =>
      match s.object? id with
      | some (.setIterator rest) =>
          (.ok (answerNext (rest.head?.map .key)), s.store id (.setIterator rest.tail))
      | _ => (.error .incompatibleSetIteratorReceiver, s)
  | _ => (.error .incompatibleSetIteratorReceiver, s)

def invoke (s : Ordered) (method : Method) (call : Call) : Outcome :=
  let key := keyOf (call.argument 0)
  match method with
  | .mapClear => s.onMap call.this fun id _ => (.ok (.value .undefined), s.store id (.map []))
  | .mapDelete => s.onMap call.this fun id entries =>
      (.ok (.value (.bool (key ∈ entries.map Prod.fst))),
        s.store id (.map (entries.filter fun entry => !decide (entry.1 = key))))
  | .mapGet => s.onMap call.this fun _ entries =>
      (.ok (.value ((entries.lookup key).getD .undefined)), s)
  | .mapHas => s.onMap call.this fun _ entries =>
      (.ok (.value (.bool (key ∈ entries.map Prod.fst))), s)
  | .mapSet => s.onMap call.this fun id entries =>
      (.ok (.value call.this), s.store id (.map (putEntry key (call.argument 1) entries)))
  | .mapSize => s.onMap call.this fun _ entries => (.ok (.value (.int entries.length)), s)
  | .mapIterator kind => s.onMap call.this fun _ entries => s.allocate (.mapIterator entries kind)
  | .mapNext => s.mapNext call.this
  | .setAdd => s.add call.this key
  | .setDelete => s.onSet call.this fun id keys =>
      (.ok (.value (.bool (key ∈ keys))),
        s.store id (.set (keys.filter fun other => !decide (other = key))))
  | .setHas => s.onSet call.this fun _ keys => (.ok (.value (.bool (key ∈ keys))), s)
  | .setSize => s.onSet call.this fun _ keys => (.ok (.value (.int keys.length)), s)
  | .setValues => s.onSet call.this fun _ keys => s.allocate (.setIterator keys)
  | .setNext => s.setNext call.this

def renew (s : Ordered) (receiver : ℕ) (object : OrderedObject) : Outcome :=
  match s.object? receiver with
  | some _ => (.ok (.value (.reference receiver)), s.store receiver object)
  | none => (.error (.invalidReference receiver), s)

def perform (s : Ordered) : Operation → Outcome
  | .allocate => s.allocate .other
  | .initializeMap receiver entries =>
      s.renew receiver (.map (entries.foldl (fun acc entry => putEntry (keyOf entry.1) entry.2 acc) []))
  | .initializeSet receiver values =>
      s.renew receiver (.set (values.foldl (fun acc value => addKey (keyOf value) acc) []))
  | .call method call => s.invoke method call

def performAll (s : Ordered) : List Operation → List (Except Reason (Answer Key)) × Ordered
  | [] => ([], s)
  | operation :: operations =>
      let (answer, s) := s.perform operation
      let (answers, s) := s.performAll operations
      (answer :: answers, s)

def empty : Ordered := ⟨fun _ => none, 0⟩

end Ordered

/-! ### What the objects stand for -/

def Internal.view : Internal → OrderedObject
  | .other => .other
  | .map entries => .map (classes keyOf entries)
  | .mapIterator entries index kind => .mapIterator ((classes keyOf entries).drop index) kind
  | .set values _ => .set (values.map keyOf)
  | .setIterator values index => .setIterator ((values.map keyOf).drop index)

def Objects.view (objects : Objects) : Ordered :=
  ⟨fun id => (objects.fetch id).map Internal.view, objects.nextObjectId⟩

def answerView (answer : Except Reason (Answer Value)) : Except Reason (Answer Key) :=
  answer.map (Answer.map keyOf)

/-- No two keys are SameValueZero-equal, and the index holds the normalised keys of the values. -/
def Internal.Exact : Internal → Prop
  | .map entries => entries.Pairwise fun entry entry' => ¬SameValueZero entry.1 entry'.1
  | .set values index => (∀ key, key ∈ index ↔ ∃ value ∈ values, setKey value = key) ∧
      values.Pairwise fun value value' => ¬SameValueZero value value'
  | _ => True

def Objects.Exact (objects : Objects) : Prop :=
  ∀ id internal, objects.fetch id = some internal → internal.Exact

def Refines (outcome : Outcome) (expected : Ordered.Outcome) : Prop :=
  (answerView outcome.1, outcome.2.view) = expected ∧ outcome.2.Exact

/-! ### Objects -/

section Objects

variable {objects : Objects} {id : ℕ} {internal : Internal}

theorem Objects.fetch_store (objects : Objects) (id : ℕ) (internal : Internal) (id' : ℕ) :
    (objects.store id internal).fetch id' = if id' = id then some internal else objects.fetch id' :=
  Assoc.get?_put_eq ..

theorem Objects.view_store (objects : Objects) (id : ℕ) (internal : Internal) :
    (objects.store id internal).view = objects.view.store id internal.view := by
  refine congrArg (Ordered.mk · objects.nextObjectId) (funext fun id' => ?_)
  show ((objects.store id internal).fetch id').map Internal.view =
    Function.update objects.view.object? id (some internal.view) id'
  rw [Objects.fetch_store, Function.update_apply]
  split <;> rfl

theorem Objects.Exact.store (h : objects.Exact) (hinternal : internal.Exact) :
    (objects.store id internal).Exact := by
  intro id' internal' hfetch
  rw [Objects.fetch_store] at hfetch
  split at hfetch
  · cases hfetch
    exact hinternal
  · exact h id' internal' hfetch

variable {answer : Except Reason (Answer Value)} {expected : Except Reason (Answer Key)}
  {object : OrderedObject}

theorem refines_store (h : objects.Exact) (hanswer : answerView answer = expected)
    (hview : internal.view = object) (hinternal : internal.Exact) :
    Refines (answer, objects.store id internal) (expected, objects.view.store id object) := by
  refine ⟨?_, h.store hinternal⟩
  rw [← hview, ← Objects.view_store, ← hanswer]

theorem refines_same (h : objects.Exact) (hanswer : answerView answer = expected) :
    Refines (answer, objects) (expected, objects.view) :=
  ⟨Prod.ext hanswer rfl, h⟩

theorem refines_allocate (h : objects.Exact) (hview : internal.view = object)
    (hinternal : internal.Exact) :
    Refines (.ok (.value (.reference (objects.allocate internal).1)), (objects.allocate internal).2)
      (objects.view.allocate object) := by
  subst hview
  have hstore := Objects.view_store objects objects.nextObjectId internal
  refine ⟨Prod.ext rfl ?_, h.store hinternal⟩
  exact congrArg (fun s : Ordered => Ordered.mk s.object? (objects.nextObjectId + 1)) hstore

end Objects

variable {objects : Objects}

theorem view_store_same {id : ℕ} {internal : Internal} (hfetch : objects.fetch id = some internal) :
    objects.view.store id internal.view = objects.view := by
  refine congrArg (Ordered.mk · objects.nextObjectId) ?_
  have hview : objects.view.object? id = some internal.view := congrArg (Option.map _) hfetch
  rw [← hview]
  exact Function.update_eq_self _ _

/-! ### Maps -/

theorem pairwise_iff_nodup {α : Type*} {key : α → Value} {items : List α} :
    (items.Pairwise fun item item' => ¬SameValueZero (key item) (key item')) ↔
      (items.map fun item => keyOf (key item)).Nodup := by
  simp only [List.Nodup, List.pairwise_map, ne_eq, keyOf_eq_iff]

theorem exact_map_iff {entries : List (Value × Value)} :
    (Internal.map entries).Exact ↔ ((classes keyOf entries).map Prod.fst).Nodup := by
  rw [keys_classes]
  exact pairwise_iff_nodup

section Maps

variable {objects : Objects} {call : Call}

theorem refines_withEntries (h : objects.Exact)
    {method : ℕ → List (Value × Value) → Outcome} {expected : ℕ → List (Key × Value) → Ordered.Outcome}
    (hmethod : ∀ map entries, call.this = .reference map → objects.fetch map = some (.map entries) →
      ((classes keyOf entries).map Prod.fst).Nodup →
      Refines (method map entries) (expected map (classes keyOf entries))) :
    Refines (Map.withEntries call objects method) (objects.view.onMap call.this expected) := by
  unfold Map.withEntries Ordered.onMap
  cases hthis : call.this with
  | reference map =>
    have hview : objects.view.object? map = (objects.fetch map).map Internal.view := rfl
    simp only [hview]
    cases hfetch : objects.fetch map with
    | none => exact refines_same h rfl
    | some internal =>
      cases internal with
      | map entries => exact hmethod map entries hthis hfetch (exact_map_iff.1 (h map _ hfetch))
      | _ => exact refines_same h rfl
  | _ => exact refines_same h rfl

theorem updateMap_eq {map : ℕ} {entries : List (Value × Value)} (hthis : call.this = .reference map)
    (hfetch : objects.fetch map = some (.map entries))
    (update : List (Value × Value) → List (Value × Value)) (result : Value) :
    Map.updateMap call objects update result =
      (.ok (.value result), objects.store map (.map (update entries))) := by
  unfold Map.updateMap Map.withEntries
  rw [hthis]
  simp only [hfetch]

theorem findEntry_eq (entries : List (Value × Value)) (key : Value) :
    Map.findEntry entries key = ((classes keyOf entries).lookup (keyOf key)).getD .undefined := by
  rw [← find?_same sameKey_iff]
  unfold Map.findEntry
  cases entries.find? fun entry => sameKey entry.1 key <;> rfl

theorem refines_clear (h : objects.Exact) :
    Refines (Map.clear call objects) (objects.view.invoke .mapClear call) :=
  refines_withEntries h fun _ _ _ _ _ => refines_store h rfl rfl .nil

theorem refines_delete (h : objects.Exact) :
    Refines (Map.delete call objects) (objects.view.invoke .mapDelete call) := by
  refine refines_withEntries h fun map entries hthis hfetch hnodup => ?_
  have hfilter := classes_filter sameKey_iff entries (call.argument 0)
  rw [updateMap_eq hthis hfetch, any_same sameKey_iff]
  refine refines_store h rfl (congrArg OrderedObject.map hfilter) (exact_map_iff.2 ?_)
  rw [hfilter]
  exact (List.filter_sublist.map Prod.fst).nodup hnodup

theorem refines_get (h : objects.Exact) :
    Refines (Map.get call objects) (objects.view.invoke .mapGet call) := by
  refine refines_withEntries h fun map entries _ _ _ => ?_
  rw [findEntry_eq]
  exact refines_same h rfl

theorem refines_has (h : objects.Exact) :
    Refines (Map.has call objects) (objects.view.invoke .mapHas call) := by
  refine refines_withEntries h fun map entries _ _ _ => ?_
  rw [any_same sameKey_iff]
  exact refines_same h rfl

theorem refines_set (h : objects.Exact) :
    Refines (Map.set call objects) (objects.view.invoke .mapSet call) := by
  refine refines_withEntries h fun map entries _ _ hnodup => ?_
  have hput := classes_placeBy_append sameKey_iff entries (call.argument 0) (call.argument 1)
  refine refines_store h rfl (congrArg OrderedObject.map hput) (exact_map_iff.2 ?_)
  exact hput.symm ▸ nodup_keys_putEntry hnodup

theorem refines_size (h : objects.Exact) :
    Refines (Map.size call objects) (objects.view.invoke .mapSize call) := by
  refine refines_withEntries h fun map entries _ _ _ => refines_same h ?_
  have hlength : (classes keyOf entries).length = entries.length := List.length_map _
  rw [hlength]
  rfl

theorem refines_mapIterator (h : objects.Exact) (kind : IteratorKind) :
    Refines (Map.mapIterator kind call objects) (objects.view.invoke (.mapIterator kind) call) :=
  refines_withEntries h fun _ _ _ _ _ => refines_allocate h rfl trivial

theorem answer_mapNext (entries : List (Value × Value)) (index : ℕ) (kind : IteratorKind) :
    answerView (.ok (.next (if entries.length ≤ index then .undefined
      else Map.iteratorValue entries index kind) (decide (entries.length ≤ index)))) =
      .ok (answerNext (((classes keyOf entries).drop index).head?.map (itemOf kind))) := by
  rw [List.head?_drop]
  unfold classes
  rw [List.getElem?_map]
  by_cases hdone : entries.length ≤ index
  · rw [if_pos hdone, decide_eq_true hdone, List.getElem?_eq_none hdone]
    rfl
  · have hget := List.getElem?_eq_getElem (Nat.lt_of_not_le hdone)
    unfold Map.iteratorValue
    rw [if_neg hdone, decide_eq_false hdone, hget]
    cases kind <;> rfl

theorem drop_next {α : Type*} (items : List α) (index : ℕ) :
    items.drop (if items.length ≤ index then index else index + 1) = (items.drop index).tail := by
  rw [List.tail_drop]
  split
  · rename_i hdone
    rw [List.drop_eq_nil_of_le hdone, List.drop_eq_nil_of_le (by omega)]
  · rfl

theorem refines_mapNext (h : objects.Exact) :
    Refines (Map.next call objects) (objects.view.invoke .mapNext call) := by
  show Refines _ (objects.view.mapNext call.this)
  unfold Map.next Ordered.mapNext
  cases hthis : call.this with
  | reference iterator =>
    have hview : objects.view.object? iterator = (objects.fetch iterator).map Internal.view := rfl
    simp only [hview]
    cases hfetch : objects.fetch iterator with
    | none => exact refines_same h rfl
    | some internal =>
      cases internal with
      | mapIterator entries index kind =>
        have hdrop := drop_next (classes keyOf entries) index
        have hlength : (classes keyOf entries).length = entries.length := List.length_map _
        rw [hlength] at hdrop
        refine refines_store h ?_ (congrArg (OrderedObject.mapIterator · kind) ?_) trivial
        · simpa only [decide_eq_true_eq] using answer_mapNext entries index kind
        · simpa only [decide_eq_true_eq] using hdrop
      | _ => exact refines_same h rfl
  | _ => exact refines_same h rfl

theorem classes_foldl_prepend (entries : List (Value × Value)) :
    ∀ {acc : List (Value × Value)}, ((classes keyOf acc).map Prod.fst).Nodup →
      (classes keyOf
        (entries.foldl (fun acc entry => Map.putEntryPrepend acc entry.1 entry.2) acc)).reverse =
        entries.foldl (fun acc entry => putEntry (keyOf entry.1) entry.2 acc)
          (classes keyOf acc).reverse ∧
      ((classes keyOf (entries.foldl (fun acc entry =>
        Map.putEntryPrepend acc entry.1 entry.2) acc)).map Prod.fst).Nodup := by
  induction entries with
  | nil => exact fun hnodup => ⟨rfl, hnodup⟩
  | cons entry entries ih =>
    intro acc hnodup
    have hput := classes_placeBy_cons sameKey_iff entry.1 entry.2 hnodup
    have hreversed : ((classes keyOf acc).reverse.map Prod.fst).Nodup := by
      rw [List.map_reverse]
      exact List.nodup_reverse.2 hnodup
    have hnodup' : ((classes keyOf (Map.putEntryPrepend acc entry.1 entry.2)).map Prod.fst).Nodup := by
      rw [← List.nodup_reverse, ← List.map_reverse]
      exact hput.symm ▸ nodup_keys_putEntry hreversed
    have hrest := ih hnodup'
    rw [List.foldl_cons, List.foldl_cons, ← hput]
    exact hrest

theorem refines_initializeMap (h : objects.Exact) (receiver : ℕ) (entries : List (Value × Value)) :
    Refines (Map.initializeMap receiver entries objects)
      (objects.view.perform (.initializeMap receiver entries)) := by
  show Refines _ (objects.view.renew receiver _)
  unfold Map.initializeMap Ordered.renew
  have hview : objects.view.object? receiver = (objects.fetch receiver).map Internal.view := rfl
  rw [hview]
  cases hfetch : objects.fetch receiver with
  | none => exact refines_same h rfl
  | some internal =>
    obtain ⟨hentries, hnodup⟩ := @classes_foldl_prepend entries [] List.nodup_nil
    refine refines_store h rfl (congrArg OrderedObject.map ?_) (exact_map_iff.2 ?_)
    · exact List.map_reverse.trans hentries
    · unfold classes
      rw [List.map_reverse, List.map_reverse]
      exact List.nodup_reverse.2 hnodup

end Maps

/-! ### Sets -/

section Sets

variable {objects : Objects} {call : Call} {values : List Value} {index : Finset SetKey}

theorem exact_set_iff : (Internal.set values index).Exact ↔
    (∀ key, key ∈ index ↔ ∃ value ∈ values, setKey value = key) ∧ (values.map keyOf).Nodup :=
  and_congr_right fun _ => pairwise_iff_nodup

theorem mem_index_iff (h : (Internal.set values index).Exact) (value : Value) :
    setKey value ∈ index ↔ keyOf value ∈ values.map keyOf := by
  rw [h.1, List.mem_map]
  refine exists_congr fun other => and_congr_right fun _ => ?_
  rw [setKey_eq_iff, keyOf_eq_iff]

theorem refines_withValues (h : objects.Exact)
    {method : ℕ → List Value → Finset SetKey → Outcome} {expected : ℕ → List Key → Ordered.Outcome}
    (hmethod : ∀ set values index, (Internal.set values index).Exact →
      Refines (method set values index) (expected set (values.map keyOf))) :
    Refines (Set.withValues call objects method) (objects.view.onSet call.this expected) := by
  unfold Set.withValues Ordered.onSet
  cases hthis : call.this with
  | reference set =>
    have hview : objects.view.object? set = (objects.fetch set).map Internal.view := rfl
    simp only [hview]
    cases hfetch : objects.fetch set with
    | none => exact refines_same h rfl
    | some internal =>
      cases internal with
      | set values index => exact hmethod set values index (h set _ hfetch)
      | _ => exact refines_same h rfl
  | _ => exact refines_same h rfl

theorem exact_insert (h : (Internal.set values index).Exact) {value : Value}
    (hnew : setKey value ∉ index) :
    (Internal.set (values ++ [value]) (insert (setKey value) index)).Exact := by
  rw [exact_set_iff]
  constructor
  · intro key
    rw [Finset.mem_insert, h.1]
    constructor
    · rintro (rfl | ⟨other, hother, hkey⟩)
      · exact ⟨value, List.mem_append_right _ (List.mem_singleton_self _), rfl⟩
      · exact ⟨other, List.mem_append_left _ hother, hkey⟩
    · rintro ⟨other, hother, hkey⟩
      rcases List.mem_append.1 hother with hother | hother
      · exact .inr ⟨other, hother, hkey⟩
      · rw [List.mem_singleton.1 hother] at hkey
        exact .inl hkey.symm
  · have hadd := @nodup_addKey _ _ (keyOf value) _ (exact_set_iff.1 h).2
    rw [addKey, if_neg (mt (mem_index_iff h value).2 hnew)] at hadd
    rw [List.map_append]
    exact hadd

theorem refines_add (h : objects.Exact) :
    Refines (Set.add call objects) (objects.view.invoke .setAdd call) := by
  show Refines _ (objects.view.add call.this (keyOf (call.argument 0)))
  unfold Set.add Ordered.add
  cases hthis : call.this with
  | reference set =>
    have hview : objects.view.object? set = (objects.fetch set).map Internal.view := rfl
    simp only [hview]
    cases hfetch : objects.fetch set with
    | none => exact refines_same h rfl
    | some internal =>
      cases internal with
      | set values index =>
        have hexact := h set _ hfetch
        show Refines (_, if _ then _ else _) (_, objects.view.store set (.set (addKey _ _)))
        unfold addKey
        by_cases hmem : setKey (call.argument 0) ∈ index
        · rw [if_pos hmem, if_pos ((mem_index_iff hexact _).1 hmem)]
          exact ⟨Prod.ext rfl (view_store_same hfetch).symm, h⟩
        · rw [if_neg hmem, if_neg (mt (mem_index_iff hexact _).2 hmem)]
          exact refines_store h rfl (congrArg OrderedObject.set List.map_append)
            (exact_insert hexact hmem)
      | _ => exact refines_same h rfl
  | _ => exact refines_same h rfl

theorem refines_setDelete (h : objects.Exact) :
    Refines (Set.delete call objects) (objects.view.invoke .setDelete call) := by
  refine refines_withValues h fun set values index hexact => ?_
  have hfilter : (values.filter fun v => !sameKey v (call.argument 0)).map keyOf =
      (values.map keyOf).filter fun other => !decide (other = keyOf (call.argument 0)) := by
    rw [List.filter_map]
    congr 1
    refine List.filter_congr fun v _ => ?_
    rw [same_eq_decide sameKey_iff]
    rfl
  refine refines_store h ?_ (congrArg OrderedObject.set hfilter) (exact_set_iff.2 ⟨fun key => ?_, ?_⟩)
  · rw [decide_eq_decide.2 (mem_index_iff hexact (call.argument 0))]
    rfl
  · rw [Finset.mem_erase, hexact.1]
    constructor
    · rintro ⟨hne, v, hv, rfl⟩
      refine ⟨v, List.mem_filter.2 ⟨hv, ?_⟩, rfl⟩
      rw [same_eq_decide sameKey_iff, Bool.not_eq_true', decide_eq_false_iff_not, keyOf_eq_iff,
        ← setKey_eq_iff]
      exact hne
    · rintro ⟨v, hv, rfl⟩
      obtain ⟨hv, hkey⟩ := List.mem_filter.1 hv
      rw [same_eq_decide sameKey_iff, Bool.not_eq_true', decide_eq_false_iff_not, keyOf_eq_iff,
        ← setKey_eq_iff] at hkey
      exact ⟨hkey, v, hv, rfl⟩
  · rw [hfilter]
    exact (exact_set_iff.1 hexact).2.filter _

theorem refines_setHas (h : objects.Exact) :
    Refines (Set.has call objects) (objects.view.invoke .setHas call) := by
  refine refines_withValues h fun set values index hexact => refines_same h ?_
  rw [decide_eq_decide.2 (mem_index_iff hexact (call.argument 0))]
  rfl

theorem refines_setSize (h : objects.Exact) :
    Refines (Set.size call objects) (objects.view.invoke .setSize call) := by
  refine refines_withValues h fun set values index _ => refines_same h ?_
  rw [List.length_map]
  rfl

theorem refines_setValues (h : objects.Exact) :
    Refines (Set.values call objects) (objects.view.invoke .setValues call) :=
  refines_withValues h fun _ _ _ _ => refines_allocate h rfl trivial

theorem answer_setNext (values : List Value) (index : ℕ) :
    answerView (.ok (.next (if values.length ≤ index then .undefined
      else .key (values.getD index .null)) (decide (values.length ≤ index)))) =
      .ok (answerNext (((values.map keyOf).drop index).head?.map .key)) := by
  rw [List.head?_drop, List.getElem?_map]
  by_cases hdone : values.length ≤ index
  · rw [if_pos hdone, decide_eq_true hdone, List.getElem?_eq_none hdone]
    rfl
  · rw [if_neg hdone, decide_eq_false hdone, List.getD_eq_getElem?_getD,
      List.getElem?_eq_getElem (Nat.lt_of_not_le hdone)]
    rfl

theorem refines_setNext (h : objects.Exact) :
    Refines (Set.next call objects) (objects.view.invoke .setNext call) := by
  show Refines _ (objects.view.setNext call.this)
  unfold Set.next Ordered.setNext
  cases hthis : call.this with
  | reference iterator =>
    have hview : objects.view.object? iterator = (objects.fetch iterator).map Internal.view := rfl
    simp only [hview]
    cases hfetch : objects.fetch iterator with
    | none => exact refines_same h rfl
    | some internal =>
      cases internal with
      | setIterator values index =>
        have hdrop := drop_next (values.map keyOf) index
        rw [List.length_map] at hdrop
        refine refines_store h ?_ (congrArg OrderedObject.setIterator ?_) trivial
        · simpa only [decide_eq_true_eq] using answer_setNext values index
        · simpa only [decide_eq_true_eq] using hdrop
      | _ => exact refines_same h rfl
  | _ => exact refines_same h rfl

def prependValue (acc : List Value × Finset SetKey) (value : Value) : List Value × Finset SetKey :=
  if setKey value ∈ acc.2 then acc else (value :: acc.1, insert (setKey value) acc.2)

theorem foldl_prependValue (values : List Value) :
    ∀ {acc : List Value × Finset SetKey}, (Internal.set acc.1.reverse acc.2).Exact →
      (values.foldl prependValue acc).1.reverse.map keyOf =
        values.foldl (fun acc value => addKey (keyOf value) acc) (acc.1.reverse.map keyOf) ∧
      (Internal.set (values.foldl prependValue acc).1.reverse (values.foldl prependValue acc).2).Exact := by
  induction values with
  | nil => exact fun hexact => ⟨rfl, hexact⟩
  | cons value values ih =>
    intro acc hexact
    have hmem := mem_index_iff hexact value
    have hstep : (Internal.set (prependValue acc value).1.reverse (prependValue acc value).2).Exact ∧
        (prependValue acc value).1.reverse.map keyOf =
          addKey (keyOf value) (acc.1.reverse.map keyOf) := by
      unfold prependValue addKey
      by_cases hindex : setKey value ∈ acc.2
      · rw [if_pos hindex, if_pos (hmem.1 hindex)]
        exact ⟨hexact, rfl⟩
      · rw [if_neg hindex, if_neg (mt hmem.2 hindex), List.reverse_cons]
        exact ⟨exact_insert hexact hindex, List.map_append⟩
    rw [List.foldl_cons, List.foldl_cons, ← hstep.2]
    exact ih hstep.1

theorem refines_initializeSet (h : objects.Exact) (receiver : ℕ) (values : List Value) :
    Refines (Set.initializeSet receiver values objects)
      (objects.view.perform (.initializeSet receiver values)) := by
  show Refines _ (objects.view.renew receiver _)
  unfold Set.initializeSet Ordered.renew
  have hview : objects.view.object? receiver = (objects.fetch receiver).map Internal.view := rfl
  rw [hview]
  cases hfetch : objects.fetch receiver with
  | none => exact refines_same h rfl
  | some internal =>
    obtain ⟨hkeys, hexact⟩ := @foldl_prependValue values ([], ∅)
      ⟨fun key => ⟨fun hkey => absurd hkey (Finset.notMem_empty _), fun ⟨_, hvalue, _⟩ => by cases hvalue⟩, .nil⟩
    exact refines_store h rfl (congrArg OrderedObject.set hkeys) hexact

end Sets

/-! ### Operations -/

/-- **One operation** gives what it gives on the ordered collections. -/
theorem refines_perform (h : objects.Exact) (operation : Operation) :
    Refines (perform objects operation) (objects.view.perform operation) := by
  cases operation with
  | allocate => exact refines_allocate h rfl trivial
  | initializeMap receiver entries => exact refines_initializeMap h receiver entries
  | initializeSet receiver values => exact refines_initializeSet h receiver values
  | call method call =>
    cases method with
    | mapClear => exact refines_clear h
    | mapDelete => exact refines_delete h
    | mapGet => exact refines_get h
    | mapHas => exact refines_has h
    | mapSet => exact refines_set h
    | mapSize => exact refines_size h
    | mapIterator kind => exact refines_mapIterator h kind
    | mapNext => exact refines_mapNext h
    | setAdd => exact refines_add h
    | setDelete => exact refines_setDelete h
    | setHas => exact refines_setHas h
    | setSize => exact refines_setSize h
    | setValues => exact refines_setValues h
    | setNext => exact refines_setNext h

theorem performAll_refines (operations : List Operation) :
    ∀ {objects : Objects}, objects.Exact →
      (performAll objects operations).1.map answerView =
        (objects.view.performAll operations).1 ∧ (performAll objects operations).2.Exact := by
  induction operations with
  | nil => exact fun h => ⟨rfl, h⟩
  | cons operation operations ih =>
    intro objects h
    obtain ⟨hview, hexact⟩ := refines_perform h operation
    obtain ⟨hrest, hexact'⟩ := ih hexact
    refine ⟨?_, hexact'⟩
    show answerView (perform objects operation).1 ::
      (performAll (perform objects operation).2 operations).1.map answerView =
        (objects.view.perform operation).1 ::
          ((objects.view.perform operation).2.performAll operations).1
    rw [hrest, ← hview]

/-- **Maps and sets are insertion-ordered**: every sequence of operations gives what it gives on
lists of entries and of keys, compared by SameValueZero, with iterators over what stood when they
were opened; afterwards no two keys of a collection are SameValueZero-equal and every index holds
exactly the normalised keys of its values. -/
theorem performAll_ordered (operations : List Operation) :
    (performAll .empty operations).1.map answerView = (Ordered.empty.performAll operations).1 ∧
      (performAll .empty operations).2.Exact :=
  performAll_refines operations fun _ _ hfetch => by cases hfetch

def keysThenSet : List Operation :=
  [.allocate, .initializeMap 0 [], .call (.mapIterator .keys) ⟨.reference 0, []⟩,
    .call .mapSet ⟨.reference 0, [.int 1, .int 2]⟩, .call .mapNext ⟨.reference 1, []⟩]

/-- `let m = new Map(), i = m.keys(); m.set(1, 2); i.next().done`: the iterator gives nothing, and
the map has an entry. -/
theorem keys_not_live :
    (performAll .empty keysThenSet).1.getLast? = some (.ok (.next .undefined true)) ∧
      (performAll .empty keysThenSet).2.fetch 0 = some (.map [(.int 1, .int 2)]) := ⟨rfl, rfl⟩

end QuickBeam.Vm.Builtin
