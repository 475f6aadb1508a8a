import QuickBeam.Lib.Unfolding
import QuickBeam.Vm.Runtime.ArraySort

/-!
# Exporting values (`runtime/value/export.ex`)

`Export.value` turns a value into a term of the host: an array into a list, another object into a
map of its enumerable properties, a fulfilled promise into what it holds.  It refuses functions,
symbols and open promises, and the objects that it meets again on its way down.  A value of any
other kind goes out as it is; a promise is not remembered.
-/

namespace QuickBeam.Vm.Runtime.Export

open QuickBeam.Lib QuickBeam.Lib.Unfolding QuickBeam.Vm.Program Relation

/-! ### The exporter -/

/-- `Promise.state/2`; a promise that is being resolved counts as pending. -/
inductive Settlement where
  | pending
  | fulfilled (value : Value)
  | rejected (reason : Value)

structure Store where
  heap : Heap
  promises : Assoc ℕ Settlement

/-- The reasons of a refusal; `keyError` raises in the host. -/
inductive ExportError where
  | jsError (reason : Value)
  | pendingPromiseResult
  | cyclicResult (id : ℕ)
  | invalidReference (id : ℕ)
  | functionResult
  | symbolResult
  | keyError

inductive Term where
  | leaf (v : Value)
  | list (terms : List Term)
  | map (entries : List (Key × Term))

def isSymbol : Key → Bool
  | .name (.symbol _) => true
  | _ => false

/-- The elements of an array; a hole is `:undefined`. -/
def elements (object : Object) : List Value := object.entries.map fun e => e.getD .undefined

def exported (object : Object) : List (Key × Stored) :=
  object.properties.toList.filter fun e => e.2.enumerable && !isSymbol e.1

def values (properties : List (Key × Stored)) : List Value :=
  properties.map fun e => e.2.descriptor.value

def mapOf (keys : List Key) (terms : List Term) : Term := .map (keys.zip terms)

/-- `convert_object/3`, where `f` is `convert/3` below the object. -/
def convertObject (f : Value → Option (Except ExportError Term)) (object : Object) :
    Option (Except ExportError Term) :=
  if object.callable.isSome then some (.error .functionResult)
  else if object.kind = .array then (each f (elements object)).map (Except.map .list)
  else
    (each f (values (exported object))).map
      (Except.map (mapOf ((exported object).map Prod.fst)))

/-- `convert/3`, with the fuel for its depth; `seen` holds the objects on the way down. -/
def convert (s : Store) : ℕ → Value → List ℕ → Option (Except ExportError Term)
  | 0, _, _ => none
  | n + 1, value, seen =>
      match value with
      | .promise id =>
          match s.promises.get? id with
          | some (.fulfilled value) => convert s n value seen
          | some (.rejected reason) => some (.error (.jsError reason))
          | some .pending => some (.error .pendingPromiseResult)
          | none => some (.error .keyError)
      | .reference id =>
          if id ∈ seen then some (.error (.cyclicResult id))
          else
            match s.heap.objects.get? id with
            | some object => convertObject (fun value => convert s n value (id :: seen)) object
            | none => some (.error (.invalidReference id))
      | .closure _ _ => some (.error .functionResult)
      | .function _ => some (.error .functionResult)
      | .symbol _ => some (.error .symbolResult)
      | .array vs => (each (fun value => convert s n value seen) vs).map (Except.map .list)
      | .object kvs =>
          (each (fun value => convert s n value seen) (kvs.map Prod.snd)).map
            (Except.map (mapOf (kvs.map fun kv => .name (.string kv.1))))
      | value => some (.ok (.leaf value))

/-! ### The graph of a value -/

/-- `w` is an array element, an exported property or the result of the promise `v`. -/
inductive Edge (s : Store) : Value → Value → Prop where
  | promise {id : ℕ} {w : Value} : s.promises.get? id = some (.fulfilled w) → Edge s (.promise id) w
  | element {id : ℕ} {o : Object} {w : Value} : s.heap.objects.get? id = some o →
      o.callable = none → o.kind = .array → w ∈ elements o → Edge s (.reference id) w
  | property {id : ℕ} {o : Object} {w : Value} : s.heap.objects.get? id = some o →
      o.callable = none → o.kind ≠ .array → w ∈ values (exported o) → Edge s (.reference id) w
  | item {vs : List Value} {w : Value} : w ∈ vs → Edge s (.array vs) w
  | entry {kvs : List (Binary × Value)} {w : Value} : w ∈ kvs.map Prod.snd → Edge s (.object kvs) w

abbrev Reach (s : Store) : Value → Value → Prop := ReflTransGen (Edge s)

/-- A function of some kind, apart from the objects that are callable. -/
def isFunction : Value → Bool
  | .function _ | .closure _ _ | .boundFunction _ _ _ | .builtin _ | .primitiveMethod _ _
  | .promiseResolver _ _ _ => true
  | _ => false

def Offends (s : Store) : Value → Prop
  | .symbol _ => True
  | .reference id => ∀ o, s.heap.objects.get? id = some o → o.callable.isSome = true
  | .promise id => ∀ w, s.promises.get? id ≠ some (.fulfilled w)
  | v => isFunction v = true

/-- Nothing that must not go out can be reached, and no cycle. -/
def Exportable (s : Store) (v : Value) : Prop :=
  ∀ w, Reach s v w → ¬Offends s w ∧ ¬TransGen (Edge s) w w

/-- The values that are terms of the host: numbers, strings and atoms. -/
def isPlain : Value → Bool
  | .undefined | .null | .bool _ | .int _ | .float _ | .nan | .infinity | .negInfinity | .string _
  | .uninitialized | .directIterator => true
  | _ => false

def plainKey : Key → Bool
  | .index _ => true
  | .name v => isPlain v

/-- No part of the term belongs to the VM. -/
inductive Clean : Term → Prop where
  | leaf {v : Value} : isPlain v = true → Clean (.leaf v)
  | list {terms : List Term} : (∀ t ∈ terms, Clean t) → Clean (.list terms)
  | map {entries : List (Key × Term)} :
      (∀ e ∈ entries, plainKey e.1 = true) → (∀ e ∈ entries, Clean e.2) → Clean (.map entries)

inductive Mirrors (s : Store) : Value → Term → Prop where
  | leaf {v : Value} : isPlain v = true → Mirrors s v (.leaf v)
  | promise {id : ℕ} {v : Value} {t : Term} : s.promises.get? id = some (.fulfilled v) →
      Mirrors s v t → Mirrors s (.promise id) t
  | list {vs : List Value} {ts : List Term} : List.Forall₂ (Mirrors s) vs ts →
      Mirrors s (.array vs) (.list ts)
  | map {kvs : List (Binary × Value)} {ts : List Term} :
      List.Forall₂ (Mirrors s) (kvs.map Prod.snd) ts →
      Mirrors s (.object kvs) (mapOf (kvs.map fun kv => .name (.string kv.1)) ts)
  | array {id : ℕ} {o : Object} {ts : List Term} : s.heap.objects.get? id = some o →
      o.kind = .array → List.Forall₂ (Mirrors s) (elements o) ts →
      Mirrors s (.reference id) (.list ts)
  | object {id : ℕ} {o : Object} {ts : List Term} : s.heap.objects.get? id = some o →
      o.kind ≠ .array → List.Forall₂ (Mirrors s) (values (exported o)) ts →
      Mirrors s (.reference id) (mapOf ((exported o).map Prod.fst) ts)

/-- What the exporter promises for a value: it ends with an answer, it succeeds exactly for what
may go out, and then with a term of the host that has the shape of the graph. -/
structure ExportsSafely (s : Store) (v : Value) : Prop where
  ends : ∃ n r, convert s n v [] = some r ∧ r ≠ .error .keyError
  succeeds : (∃ n t, convert s n v [] = some (.ok t)) ↔ Exportable s v
  mirrors : ∀ n t, convert s n v [] = some (.ok t) → Clean t ∧ Mirrors s v t

/-! ### When the promise is kept -/

/-- The exporter lets `v` out although it is a function or a term of the VM, or it lets out an
object with a key of that kind. -/
def Leaks (s : Store) (v : Value) : Prop :=
  match v with
  | .reference id => Exportable s v ∧ ∃ o, s.heap.objects.get? id = some o ∧ o.kind ≠ .array ∧
      ∃ e ∈ exported o, plainKey e.1 = false
  | .function _ | .closure _ _ | .symbol _ | .promise _ | .array _ | .object _ => False
  | v => isPlain v = false

/-- The exporter goes on from `v` to `w` without remembering `v`. -/
inductive Asks (s : Store) : Value → Value → Prop where
  | promise {id : ℕ} {w : Value} : s.promises.get? id = some (.fulfilled w) → Asks s (.promise id) w
  | item {before after : List Value} {w : Value} : (∀ u ∈ before, Exportable s u) →
      Asks s (.array (before ++ w :: after)) w
  | entry {kvs : List (Binary × Value)} {before after : List Value} {w : Value} :
      kvs.map Prod.snd = before ++ w :: after → (∀ u ∈ before, Exportable s u) →
      Asks s (.object kvs) w

def Stuck (s : Store) (v : Value) : Prop :=
  (∃ id, v = .promise id ∧ s.promises.get? id = none) ∨ TransGen (Asks s) v v

/-! ### The exporter as a walk -/

def promiseContent : Option Settlement → Unfolding.Content Value ExportError Term
  | some (.fulfilled value) => .children [value] fun ts => ts.headD (.leaf .undefined)
  | some (.rejected reason) => .refused (.jsError reason)
  | some .pending => .refused .pendingPromiseResult
  | none => .refused .keyError

def objectContent (id : ℕ) : Option Object → Unfolding.Content Value ExportError Term
  | some object =>
      if object.callable.isSome then .refused .functionResult
      else if object.kind = .array then .children (elements object) .list
      else .children (values (exported object)) (mapOf ((exported object).map Prod.fst))
  | none => .refused (.invalidReference id)

variable {o : Object}

theorem objectContent_callable (h : o.callable.isSome = true) (id : ℕ) :
    objectContent id (some o) = .refused .functionResult := if_pos h

theorem objectContent_array (h : o.callable = none) (harray : o.kind = .array) (id : ℕ) :
    objectContent id (some o) = .children (elements o) .list := by
  simp [objectContent, h, harray]

theorem objectContent_other (h : o.callable = none) (harray : o.kind ≠ .array) (id : ℕ) :
    objectContent id (some o) =
      .children (values (exported o)) (mapOf ((exported o).map Prod.fst)) := by
  simp [objectContent, h, harray]

def content (s : Store) : Value → Unfolding.Content Value ExportError Term
  | .promise id => promiseContent (s.promises.get? id)
  | .reference id => objectContent id (s.heap.objects.get? id)
  | .closure _ _ => .refused .functionResult
  | .function _ => .refused .functionResult
  | .symbol _ => .refused .symbolResult
  | .array vs => .children vs .list
  | .object kvs =>
      .children (kvs.map Prod.snd) (mapOf (kvs.map fun kv => .name (.string kv.1)))
  | value => .children [] fun _ => .leaf value

def isReference : Value → Bool
  | .reference _ => true
  | _ => false

def cyclicError : Value → ExportError
  | .reference id => .cyclicResult id
  | _ => .pendingPromiseResult

theorem convert_eq (s : Store) (n : ℕ) (v : Value) (seen : List ℕ) :
    convert s n v seen = walk (content s) isReference cyclicError n (seen.map .reference) v := by
  induction n generalizing v seen with
  | zero => rfl
  | succ n ih =>
    have hsame : ∀ seen, (fun value => convert s n value seen) =
        walk (content s) isReference cyclicError n (seen.map .reference) := fun seen => by
      funext value
      exact ih value seen
    cases v with
    | promise id =>
      rw [convert, walk, if_neg (by simp [isReference])]
      show _ = assemble _ (promiseContent (s.promises.get? id))
      cases s.promises.get? id with
      | none => rfl
      | some settlement =>
        cases settlement with
        | pending => rfl
        | rejected reason => rfl
        | fulfilled value =>
          show convert s n value seen = (each _ [value]).map _
          rw [ih, each]
          cases walk (content s) isReference cyclicError n (seen.map .reference) value with
          | none => rfl
          | some r => cases r <;> rfl
    | reference id =>
      have hmem : Value.reference id ∈ seen.map Value.reference ↔ id ∈ seen := by simp
      rw [convert, walk, if_pos (show isReference (.reference id) = true from rfl),
        if_congr hmem rfl rfl]
      show _ = if id ∈ seen then _ else assemble _ (objectContent id (s.heap.objects.get? id))
      split
      · rfl
      · cases s.heap.objects.get? id with
        | none => rfl
        | some object =>
          show convertObject (fun value => convert s n value (id :: seen)) object = _
          rw [hsame]
          unfold convertObject
          by_cases hcallable : object.callable.isSome = true
          · rw [if_pos hcallable, objectContent_callable hcallable]
            rfl
          · have hnone : object.callable = none := by simpa using hcallable
            rw [if_neg hcallable]
            by_cases harray : object.kind = .array
            · rw [if_pos harray, objectContent_array hnone harray]
              rfl
            · rw [if_neg harray, objectContent_other hnone harray]
              rfl
    | array vs =>
      show (each (fun value => convert s n value seen) vs).map _ = _
      rw [hsame]
      rfl
    | object kvs =>
      show (each (fun value => convert s n value seen) _).map _ = _
      rw [hsame]
      rfl
    | _ => rfl

theorem convert_start (s : Store) (n : ℕ) (v : Value) :
    convert s n v [] = walk (content s) isReference cyclicError n [] v := convert_eq s n v []

/-! ### The graph of the walk -/

inductive Shape (s : Store) : Value → List Value → (List Term → Term) → Prop where
  | promise {id : ℕ} {w : Value} : s.promises.get? id = some (.fulfilled w) →
      Shape s (.promise id) [w] fun ts => ts.headD (.leaf .undefined)
  | array {id : ℕ} {o : Object} : s.heap.objects.get? id = some o → o.callable = none →
      o.kind = .array → Shape s (.reference id) (elements o) .list
  | object {id : ℕ} {o : Object} : s.heap.objects.get? id = some o → o.callable = none →
      o.kind ≠ .array →
      Shape s (.reference id) (values (exported o)) (mapOf ((exported o).map Prod.fst))
  | list (vs : List Value) : Shape s (.array vs) vs .list
  | map (kvs : List (Binary × Value)) : Shape s (.object kvs) (kvs.map Prod.snd)
      (mapOf (kvs.map fun kv => .name (.string kv.1)))
  | leaf {v : Value} : (Leaks s v ↔ isPlain v = false) → Shape s v [] fun _ => .leaf v

variable {build : List Term → Term} {id : ℕ} {nodes : List Value} {s : Store}

theorem shape_of_promise (h : promiseContent (s.promises.get? id) = .children nodes build) :
    Shape s (.promise id) nodes build := by
  cases hp : s.promises.get? id with
  | none =>
    rw [hp] at h
    cases h
  | some settlement =>
    rw [hp] at h
    cases settlement with
    | pending => cases h
    | rejected reason => cases h
    | fulfilled value =>
      cases h
      exact .promise hp

theorem shape_of_reference (h : objectContent id (s.heap.objects.get? id) = .children nodes build) :
    Shape s (.reference id) nodes build := by
  cases ho : s.heap.objects.get? id with
  | none =>
    rw [ho] at h
    cases h
  | some o =>
    rw [ho] at h
    by_cases hcallable : o.callable.isSome = true
    · rw [objectContent_callable hcallable] at h
      cases h
    · have hnone : o.callable = none := by simpa using hcallable
      by_cases harray : o.kind = .array
      · rw [objectContent_array hnone harray] at h
        cases h
        exact .array ho hnone harray
      · rw [objectContent_other hnone harray] at h
        cases h
        exact .object ho hnone harray

variable {v : Value}

theorem shape_of_content (h : content s v = .children nodes build) : Shape s v nodes build := by
  cases v with
  | promise id => exact shape_of_promise h
  | reference id => exact shape_of_reference h
  | array vs =>
    cases h
    exact .list _
  | object kvs =>
    cases h
    exact .map _
  | closure f refs => cases h
  | function f => cases h
  | symbol id => cases h
  | _ =>
    cases h
    exact .leaf Iff.rfl

variable {w : Value}

theorem child_iff : Child (content s) v w ↔ Edge s v w := by
  constructor
  · intro hchild
    obtain ⟨nodes, build, hcontent, hw⟩ := hchild
    cases shape_of_content hcontent with
    | promise hp =>
      cases List.mem_singleton.1 hw
      exact .promise hp
    | array ho hcallable harray => exact .element ho hcallable harray hw
    | object ho hcallable harray => exact .property ho hcallable harray hw
    | list vs => exact .item hw
    | map kvs => exact .entry hw
    | leaf hleaks => cases hw
  · intro hedge
    cases hedge with
    | promise hp =>
      refine ⟨[w], fun ts => ts.headD (.leaf .undefined), ?_, List.mem_singleton_self _⟩
      show promiseContent (s.promises.get? _) = _
      rw [hp]
      rfl
    | element ho hcallable harray hw =>
      refine ⟨_, .list, ?_, hw⟩
      show objectContent _ (s.heap.objects.get? _) = _
      rw [ho, objectContent_array hcallable harray]
    | @property id o w ho hcallable harray hw =>
      refine ⟨_, mapOf ((exported o).map Prod.fst), ?_, hw⟩
      show objectContent _ (s.heap.objects.get? _) = _
      rw [ho, objectContent_other hcallable harray]
    | item hw => exact ⟨_, _, rfl, hw⟩
    | entry hw => exact ⟨_, _, rfl, hw⟩

theorem child_eq (s : Store) : Child (content s) = Edge s := by
  funext v w
  exact propext child_iff

theorem refused_reference_iff :
    Refused (content s) (.reference id) ↔ Offends s (.reference id) := by
  show (∃ e, objectContent id (s.heap.objects.get? id) = .refused e) ↔
    ∀ o, s.heap.objects.get? id = some o → o.callable.isSome = true
  cases s.heap.objects.get? id with
  | none => exact iff_of_true ⟨_, rfl⟩ fun o ho => (by cases ho)
  | some o =>
    by_cases hcallable : o.callable.isSome = true
    · refine iff_of_true ⟨_, objectContent_callable hcallable id⟩ fun o' ho' => ?_
      cases ho'
      exact hcallable
    · have hnone : o.callable = none := by simpa using hcallable
      refine iff_of_false (fun hrefused => ?_) fun hall => hcallable (hall o rfl)
      obtain ⟨e, he⟩ := hrefused
      by_cases harray : o.kind = .array
      · rw [objectContent_array hnone harray] at he
        cases he
      · rw [objectContent_other hnone harray] at he
        cases he

theorem refused_promise_iff : Refused (content s) (.promise id) ↔ Offends s (.promise id) := by
  show (∃ e, promiseContent (s.promises.get? id) = .refused e) ↔
    ∀ w, s.promises.get? id ≠ some (.fulfilled w)
  cases s.promises.get? id with
  | none => exact iff_of_true ⟨_, rfl⟩ fun w hw => (by cases hw)
  | some settlement =>
    cases settlement with
    | pending => exact iff_of_true ⟨_, rfl⟩ fun w hw => (by cases hw)
    | rejected reason => exact iff_of_true ⟨_, rfl⟩ fun w hw => (by cases hw)
    | fulfilled value =>
      refine iff_of_false (fun hrefused => ?_) fun hall => hall value rfl
      obtain ⟨e, he⟩ := hrefused
      cases he

theorem offends_of_refused (h : Refused (content s) v) : Offends s v := by
  cases v with
  | reference id => exact refused_reference_iff.1 h
  | promise id => exact refused_promise_iff.1 h
  | function f => exact rfl
  | closure f refs => exact rfl
  | symbol id => trivial
  | _ =>
    obtain ⟨e, he⟩ := h
    cases he

/-- What must not go out is refused, unless it is a function that the exporter takes for a value. -/
theorem refused_of_offends (h : Offends s v) (hleaks : ¬Leaks s v) : Refused (content s) v := by
  cases v with
  | reference id => exact refused_reference_iff.2 h
  | promise id => exact refused_promise_iff.2 h
  | function f => exact ⟨_, rfl⟩
  | closure f refs => exact ⟨_, rfl⟩
  | symbol id => exact ⟨_, rfl⟩
  | boundFunction target this arguments => exact absurd rfl hleaks
  | builtin name => exact absurd rfl hleaks
  | primitiveMethod kind key => exact absurd rfl hleaks
  | promiseResolver promise resolve assimilated => exact absurd rfl hleaks
  | _ => cases h

theorem unfolds_of_exportable (h : Exportable s v) : Unfolds (content s) v := by
  intro w hreach
  rw [child_eq] at hreach ⊢
  obtain ⟨hoffends, hcycle⟩ := h w hreach
  exact ⟨fun hrefused => hoffends (offends_of_refused hrefused), hcycle⟩

theorem exportable_of_unfolds (hleaks : ∀ w, Reach s v w → ¬Leaks s w) (h : Unfolds (content s) v) :
    Exportable s v := by
  intro w hreach
  have hw := h w (by rw [child_eq]; exact hreach)
  rw [child_eq] at hw
  exact ⟨fun hoffends => hw.1 (refused_of_offends hoffends (hleaks w hreach)), hw.2⟩

/-! ### The graph is finite -/

mutual

def pieces : Value → List Value
  | .array vs => .array vs :: piecesOf vs
  | .object kvs => .object kvs :: piecesOfEntries kvs
  | v => [v]

def piecesOf : List Value → List Value
  | [] => []
  | v :: vs => pieces v ++ piecesOf vs

def piecesOfEntries : List (Binary × Value) → List Value
  | [] => []
  | (_, v) :: kvs => pieces v ++ piecesOfEntries kvs

end

theorem mem_pieces_self (v : Value) : v ∈ pieces v := by
  cases v <;> simp [pieces]

theorem mem_piecesOf {vs : List Value} : w ∈ piecesOf vs ↔ ∃ v ∈ vs, w ∈ pieces v := by
  induction vs with
  | nil => simp [piecesOf]
  | cons v vs ih => simp [piecesOf, ih]

theorem piecesOfEntries_eq (kvs : List (Binary × Value)) :
    piecesOfEntries kvs = piecesOf (kvs.map Prod.snd) := by
  induction kvs with
  | nil => rfl
  | cons kv kvs ih => rw [piecesOfEntries, List.map_cons, piecesOf, ih]

def held (s : Store) : List Value :=
  (s.promises.toList.filterMap fun e => match e.2 with | .fulfilled v => some v | _ => none) ++
    s.heap.objects.toList.flatMap fun e => elements e.2 ++ values (exported e.2)

mutual

theorem pieces_trans : (x : Value) → {w u : Value} → w ∈ pieces x → u ∈ pieces w → u ∈ pieces x
  | .array vs, w, u, hw, hu => by
    rcases List.mem_cons.1 (show w ∈ .array vs :: piecesOf vs from hw) with heq | hmem
    · exact heq ▸ hu
    · exact List.mem_cons_of_mem _ (piecesOf_trans vs hmem hu)
  | .object kvs, w, u, hw, hu => by
    rcases List.mem_cons.1 (show w ∈ .object kvs :: piecesOfEntries kvs from hw) with heq | hmem
    · exact heq ▸ hu
    · exact List.mem_cons_of_mem _ (piecesOfEntries_trans kvs hmem hu)
  | .undefined, _, _, hw, hu | .null, _, _, hw, hu | .bool _, _, _, hw, hu | .int _, _, _, hw, hu
  | .float _, _, _, hw, hu | .nan, _, _, hw, hu | .infinity, _, _, hw, hu
  | .negInfinity, _, _, hw, hu | .string _, _, _, hw, hu | .bigint _, _, _, hw, hu
  | .uninitialized, _, _, hw, hu | .reference _, _, _, hw, hu | .promise _, _, _, hw, hu
  | .symbol _, _, _, hw, hu | .function _, _, _, hw, hu | .closure _ _, _, _, hw, hu
  | .boundFunction _ _ _, _, _, hw, hu | .builtin _, _, _, hw, hu
  | .primitiveMethod _ _, _, _, hw, hu | .promiseResolver _ _ _, _, _, hw, hu
  | .templateObject _ _, _, _, hw, hu | .slot _, _, _, hw, hu | .catchMarker _, _, _, hw, hu
  | .returnAddress _, _, _, hw, hu | .forIn _ _, _, _, hw, hu | .forOf _ _, _, _, hw, hu
  | .directIterator, _, _, hw, hu | .pending _, _, _, hw, hu | .resolved _, _, _, hw, hu
  | .rejected _, _, _, hw, hu | .atom _, _, _, hw, hu => by
    rw [List.mem_singleton.1 hw] at hu
    exact hu

theorem piecesOf_trans : (vs : List Value) → {w u : Value} → w ∈ piecesOf vs → u ∈ pieces w →
    u ∈ piecesOf vs
  | [], _, _, hw, _ => by cases hw
  | v :: vs, _, _, hw, hu => by
    rcases List.mem_append.1 hw with hhead | htail
    · exact List.mem_append_left _ (pieces_trans v hhead hu)
    · exact List.mem_append_right _ (piecesOf_trans vs htail hu)

theorem piecesOfEntries_trans : (kvs : List (Binary × Value)) → {w u : Value} →
    w ∈ piecesOfEntries kvs → u ∈ pieces w → u ∈ piecesOfEntries kvs
  | [], _, _, hw, _ => by cases hw
  | (_, v) :: kvs, _, _, hw, hu => by
    rcases List.mem_append.1 hw with hhead | htail
    · exact List.mem_append_left _ (pieces_trans v hhead hu)
    · exact List.mem_append_right _ (piecesOfEntries_trans kvs htail hu)

end

theorem edge_cases (h : Edge s v w) : w ∈ pieces v ∨ w ∈ held s := by
  cases h with
  | promise hp =>
    refine .inr (List.mem_append_left _ (List.mem_filterMap.2 ⟨_, Assoc.mem_toList.2 hp, rfl⟩))
  | element ho hcallable harray hw =>
    exact .inr (List.mem_append_right _ (List.mem_flatMap.2
      ⟨_, Assoc.mem_toList.2 ho, List.mem_append_left _ hw⟩))
  | property ho hcallable harray hw =>
    exact .inr (List.mem_append_right _ (List.mem_flatMap.2
      ⟨_, Assoc.mem_toList.2 ho, List.mem_append_right _ hw⟩))
  | item hw => exact .inl (List.mem_cons_of_mem _ (mem_piecesOf.2 ⟨w, hw, mem_pieces_self w⟩))
  | entry hw =>
    refine .inl (List.mem_cons_of_mem _ ?_)
    rw [piecesOfEntries_eq]
    exact mem_piecesOf.2 ⟨w, hw, mem_pieces_self w⟩

theorem reach_finite (s : Store) (v : Value) : {w | Reach s v w}.Finite := by
  refine (List.finite_toSet (pieces v ++ piecesOf (held s))).subset fun w hw => ?_
  induction hw with
  | refl => exact List.mem_append_left _ (mem_pieces_self v)
  | tail _ hedge ih =>
    rcases edge_cases hedge with hpiece | hheld
    · rcases List.mem_append.1 ih with hmem | hmem
      · exact List.mem_append_left _ (pieces_trans v hmem hpiece)
      · exact List.mem_append_right _ (piecesOf_trans _ hmem hpiece)
    · exact List.mem_append_right _ (mem_piecesOf.2 ⟨_, hheld, mem_pieces_self _⟩)

/-! ### What goes out -/

variable {keys : List Key} {terms : List Term}

theorem mem_mapOf (hlength : terms.length = keys.length) {key : Key} (hkey : key ∈ keys) :
    ∃ t, (key, t) ∈ keys.zip terms := by
  rw [← @List.map_fst_zip _ _ keys terms hlength.ge] at hkey
  obtain ⟨e, he, rfl⟩ := List.mem_map.1 hkey
  exact ⟨e.2, he⟩

theorem clean_mapOf (hkeys : ∀ k ∈ keys, plainKey k = true) (hterms : ∀ t ∈ terms, Clean t) :
    Clean (mapOf keys terms) :=
  .map (fun e he => hkeys e.1 (List.of_mem_zip he).1) fun e he => hterms e.2 (List.of_mem_zip he).2

theorem mirrors_of_walk_ok {n : ℕ} {seen : List Value} {t : Term}
    (hleaks : ∀ w, Reach s v w → ¬Leaks s w)
    (h : walk (content s) isReference cyclicError n seen v = some (.ok t)) :
    Clean t ∧ Mirrors s v t := by
  induction n generalizing seen v t with
  | zero => cases h
  | succ n ih =>
    have hexportable : Exportable s v := exportable_of_unfolds hleaks (unfolds_of_walk_ok h)
    obtain ⟨m, seen', nodes, build, ts, hn, hcontent, hnodes, rfl⟩ := walk_ok h
    cases hn
    have hedges : ∀ w ∈ nodes, Edge s v w := fun w hw => child_iff.1 ⟨nodes, build, hcontent, hw⟩
    have hchildren : List.Forall₂ (fun w t => Clean t ∧ Mirrors s w t) nodes ts :=
      ((List.forall₂_and_left nodes ts).2 ⟨hedges, hnodes⟩).imp fun w t hw =>
        ih (fun u hu => hleaks u (.head hw.1 hu)) hw.2
    have hclean : ∀ t ∈ ts, Clean t := fun t ht => by
      obtain ⟨w, -, hw⟩ := forall₂_of_mem hchildren.flip ht
      exact hw.1
    have hmirrors : List.Forall₂ (Mirrors s) nodes ts := hchildren.imp fun _ _ hw => hw.2
    cases shape_of_content hcontent with
    | promise hp =>
      cases hmirrors with
      | cons hw hrest =>
        cases hrest
        exact ⟨hclean _ (List.mem_singleton_self _), .promise hp hw⟩
    | array ho hcallable harray => exact ⟨.list hclean, .array ho harray hmirrors⟩
    | object ho hcallable harray =>
      refine ⟨clean_mapOf (fun k hk => ?_) hclean, .object ho harray hmirrors⟩
      obtain ⟨e, he, rfl⟩ := List.mem_map.1 hk
      by_contra hplain
      exact hleaks _ .refl ⟨hexportable, _, ho, harray, e, he, by simpa using hplain⟩
    | list vs => exact ⟨.list hclean, .list hmirrors⟩
    | map kvs =>
      refine ⟨clean_mapOf (fun k hk => ?_) hclean, .map hmirrors⟩
      obtain ⟨kv, -, rfl⟩ := List.mem_map.1 hk
      rfl
    | leaf hiff =>
      have hplain : isPlain v = true := by
        by_contra hplain
        exact hleaks v .refl (hiff.2 (by simpa using hplain))
      exact ⟨.leaf hplain, .leaf hplain⟩

/-! ### What is asked for -/

theorem next_of_asks (h : Asks s v w) : Next (content s) isReference v w := by
  cases h with
  | promise hp =>
    refine ⟨rfl, [], [], fun ts => ts.headD (.leaf .undefined), ?_, by simp⟩
    show promiseContent (s.promises.get? _) = _
    rw [hp]
    rfl
  | item hbefore =>
    exact ⟨rfl, _, _, _, rfl, fun u hu => unfolds_of_exportable (hbefore u hu)⟩
  | entry hsplit hbefore =>
    exact ⟨rfl, _, _, _, congrArg (Content.children · _) hsplit,
      fun u hu => unfolds_of_exportable (hbefore u hu)⟩

theorem asks_of_next (hleaks : ∀ u, Reach s v u → ¬Leaks s u)
    (h : Next (content s) isReference v w) : Asks s v w := by
  obtain ⟨hguarded, before, after, build, hcontent, hunfolds⟩ := h
  have hbefore : ∀ u ∈ before, Exportable s u := fun u hu => by
    have hedge : Edge s v u := child_iff.1 ⟨_, build, hcontent, by simp [hu]⟩
    exact exportable_of_unfolds (fun x hx => hleaks x (.head hedge hx)) (hunfolds u hu)
  generalize hnodes : before ++ w :: after = nodes at hcontent
  cases shape_of_content hcontent with
  | promise hp =>
    cases before with
    | nil =>
      cases hnodes
      exact .promise hp
    | cons u before => simp at hnodes
  | array ho hcallable harray => cases hguarded
  | object ho hcallable harray => cases hguarded
  | list vs =>
    cases hnodes
    exact .item hbefore
  | map kvs => exact .entry hnodes.symm hbefore
  | leaf hiff => simp at hnodes

theorem reach_of_next (h : TransGen (Next (content s) isReference) v w) : Reach s v w := by
  refine (TransGen.mono (fun a b hnext => ?_) _ _ h).to_reflTransGen
  obtain ⟨-, before, after, build, hcontent, -⟩ := hnext
  exact child_iff.1 ⟨_, build, hcontent, by simp⟩

theorem asks_of_next_trans (hleaks : ∀ u, Reach s v u → ¬Leaks s u)
    (h : TransGen (Next (content s) isReference) v w) : TransGen (Asks s) v w := by
  induction h with
  | single hnext => exact .single (asks_of_next hleaks hnext)
  | tail hbefore hnext ih =>
    exact ih.tail (asks_of_next (fun u hu => hleaks u ((reach_of_next hbefore).trans hu)) hnext)

/-! ### The promise -/

theorem missing_of_keyError (h : content s v = .refused .keyError) :
    ∃ id, v = .promise id ∧ s.promises.get? id = none := by
  cases v with
  | promise id =>
    refine ⟨id, rfl, ?_⟩
    change promiseContent (s.promises.get? id) = _ at h
    cases hp : s.promises.get? id with
    | none => rfl
    | some settlement =>
      rw [hp] at h
      cases settlement <;> cases h
  | reference id =>
    change objectContent id (s.heap.objects.get? id) = _ at h
    cases ho : s.heap.objects.get? id with
    | none =>
      rw [ho] at h
      cases h
    | some o =>
      rw [ho] at h
      unfold objectContent at h
      dsimp only at h
      split at h
      · cases h
      · split at h <;> cases h
  | _ => cases h

theorem ends_of_not_stuck (h : ∀ w, Reach s v w → ¬Leaks s w ∧ ¬Stuck s w) :
    ∃ n r, convert s n v [] = some r ∧ r ≠ .error .keyError := by
  have hends : ∃ n r, walk (content s) isReference cyclicError n [] v = some r := by
    refine walk_ends ?_ fun w hreach hloop => ?_
    · rw [child_eq]
      exact reach_finite s v
    · rw [child_eq] at hreach
      refine (h w hreach).2 (.inr (asks_of_next_trans (fun u hu => ?_) hloop))
      exact (h u (hreach.trans hu)).1
  obtain ⟨n, r, hwalk⟩ := hends
  refine ⟨n, r, (convert_start s n v).trans hwalk, ?_⟩
  rintro rfl
  obtain ⟨w, hreach, hrefused | ⟨hcyclic, -⟩⟩ := walk_error hwalk
  · rw [child_eq] at hreach
    exact (h w hreach).2 (.inl (missing_of_keyError hrefused))
  · cases w <;> cases hcyclic

theorem exportsSafely_of_not_leaks (h : ∀ w, Reach s v w → ¬Leaks s w ∧ ¬Stuck s w) :
    ExportsSafely s v where
  ends := ends_of_not_stuck h
  succeeds := by
    constructor
    · intro hok
      obtain ⟨n, t, hok⟩ := hok
      rw [convert_start] at hok
      exact exportable_of_unfolds (fun w hw => (h w hw).1) (unfolds_of_walk_ok hok)
    · intro hexportable
      obtain ⟨n, r, hr, -⟩ := ends_of_not_stuck h
      cases r with
      | ok t => exact ⟨n, t, hr⟩
      | error e =>
        rw [convert_start] at hr
        exact absurd (unfolds_of_exportable hexportable) (not_unfolds_of_walk_error hr)
  mirrors n t hok := by
    rw [convert_start] at hok
    exact mirrors_of_walk_ok (fun w hw => (h w hw).1) hok

theorem ExportsSafely.not_leaks (h : ExportsSafely s v) : ¬Leaks s v := by
  intro hleaks
  have hleaf : convert s 1 v [] = some (.ok (.leaf v)) → isPlain v = true := fun hok => by
    cases (h.mirrors 1 _ hok).1 with
    | leaf hplain => exact hplain
  cases v with
  | reference id =>
    obtain ⟨hexportable, o, ho, harray, e, he, hkey⟩ := hleaks
    obtain ⟨n, t, hok⟩ := h.succeeds.2 hexportable
    obtain ⟨hclean, hmirrors⟩ := h.mirrors n t hok
    cases hmirrors with
    | leaf hplain => cases hplain
    | array ho' harray' hts =>
      cases ho.symm.trans ho'
      exact harray harray'
    | object ho' harray' hts =>
      cases ho.symm.trans ho'
      cases hclean with
      | map hkeys hterms =>
        have hlength := hts.length_eq
        obtain ⟨t, ht⟩ := mem_mapOf (by simpa [values] using hlength.symm)
          (List.mem_map_of_mem (f := Prod.fst) he)
        rw [hkeys _ ht] at hkey
        cases hkey
  | function f => exact hleaks
  | closure f refs => exact hleaks
  | symbol id => exact hleaks
  | promise id => exact hleaks
  | array vs => exact hleaks
  | object kvs => exact hleaks
  | _ => exact absurd (hleaf rfl) (by rw [show isPlain _ = false from hleaks]; exact Bool.noConfusion)

theorem ExportsSafely.not_stuck (h : ExportsSafely s v) : ¬Stuck s v := by
  obtain ⟨n, r, hr, hraises⟩ := h.ends
  rintro (⟨id, rfl, hmissing⟩ | hloop)
  · cases n with
    | zero => cases hr
    | succ n =>
      rw [convert] at hr
      simp only [hmissing, Option.some.injEq] at hr
      exact hraises hr.symm
  · rw [convert_start, walk_of_loop (TransGen.mono (fun _ _ => next_of_asks) _ _ hloop)] at hr
    cases hr

/-- **The exporter keeps its promise on a graph exactly if** nothing in the graph leaks, and no
promise of it is missing or its own result. -/
theorem exportsSafely_iff (s : Store) (root : Value) :
    (∀ v, Reach s root v → ExportsSafely s v) ↔
      ∀ v, Reach s root v → ¬Leaks s v ∧ ¬Stuck s v := by
  constructor
  · intro h v hv
    exact ⟨(h v hv).not_leaks, (h v hv).not_stuck⟩
  · intro h v hv
    exact exportsSafely_of_not_leaks fun w hw => h w (hv.trans hw)

/-- A host list with a builtin in it is exported with the builtin. -/
theorem builtin_exported : ∃ (s : Store) (v : Value), ¬ExportsSafely s v := by
  refine ⟨⟨.empty, ∅⟩, .array [.builtin "Math.max"], fun h => ?_⟩
  have hok : convert ⟨.empty, ∅⟩ 2 (.array [.builtin "Math.max"]) [] =
      some (.ok (.list [.leaf (.builtin "Math.max")])) := rfl
  have hexportable := h.succeeds.1 ⟨2, _, hok⟩
  exact (hexportable _ (.single (.item (List.mem_singleton_self _)))).1 rfl

end QuickBeam.Vm.Runtime.Export
