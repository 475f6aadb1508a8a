import QuickBeam.Convert.Terms
import QuickBeam.Lib.Entries

/-!
# When a term survives the way to JavaScript and back

A conversion loses a key of a map when the names made of its keys are not its keys again, and a
map with both marker keys is taken for an encoded term.  `walk` follows the conversion without
looking at results: it counts nodes and stops at a map that loses a key.  A term round-trips if and only if
the walk does not stop and, within the limits, no map has both markers.

Two facts about one term are carried through the recursion: `Walks` says that the result agrees with
the term but for cuts exactly when the walk goes through, and `Exact` that, within the limits, it
is an equal term exactly when no map is marked.
-/

namespace QuickBeam.Convert

open QuickBeam.Lib

/-! ### Terms within terms -/

namespace Term

theorem nodes_eq (term : Term) : term.nodes = 1 + (term.children.map nodes).sum := by
  rw [nodes, List.attach_map_val]

theorem nodes_list (terms : List Term) : (list terms).nodes = 1 + (terms.map nodes).sum := nodes_eq _

theorem nodes_map (entries : List (List UInt8 × Term)) :
    (map entries).nodes = 1 + (entries.map fun entry => entry.2.nodes).sum := by
  rw [nodes_eq]
  show 1 + ((entries.map Prod.snd).map nodes).sum = _
  rw [List.map_map]
  rfl

theorem depth_child {term child : Term} (h : child ∈ term.children) : child.depth < term.depth := by
  have hin : child.depth + 1 ∈ term.children.attach.map fun child => child.1.depth + 1 :=
    List.mem_map.2 ⟨⟨child, h⟩, List.mem_attach _ _, rfl⟩
  have hle := List.le_max_of_le hin le_rfl
  conv_rhs => rw [depth]
  exact hle

variable {p : Term → Prop} {term : Term}

theorem All.self (h : All p term) : p term := by
  cases h
  assumption

theorem All.child {term child : Term} (h : All p term) (hchild : child ∈ term.children) :
    All p child := by
  cases h with
  | intro _ children => exact children child hchild

end Term

/-! ### Entries of a map -/

section Entries

variable {entries : List (List UInt8 × Term)}

/-- The map holds both marker keys. -/
def isMarked (entries : List (List UInt8 × Term)) : Bool :=
  (entries.lookup beamType).isSome && (entries.lookup beamData).isSome

def KeysKept (text : List UInt8 → List UInt8) (entries : List (List UInt8 × Term)) : Prop :=
  (keyNames text entries).Perm (entries.map Prod.fst)

instance (text : List UInt8 → List UInt8) (entries : List (List UInt8 × Term)) :
    Decidable (KeysKept text entries) := inferInstanceAs (Decidable (List.Perm _ _))

theorem isUndefined_toJs (text : List UInt8 → List UInt8) (left : ℕ) (term : Term) :
    (toJs text left term).isUndefined = false := by
  cases left with
  | zero => rfl
  | succ left =>
    cases term with
    | int n =>
      rw [toJs]
      unfold newInt64
      split
      · split
        · rfl
        · split <;> rfl
      · rfl
    | map entries => cases entries <;> rfl
    | nil => rfl
    | bool b => rfl
    | float x => rfl
    | binary bytes => rfl
    | list terms => rfl

theorem isUndefined_getProperty (text : List UInt8 → List UInt8) (name : List UInt8) :
    (getProperty text entries name).isUndefined = (entries.lookup name).isNone := by
  unfold getProperty
  cases entries.lookup name with
  | none => rfl
  | some term => exact isUndefined_toJs ..

theorem marked_iff (text : List UInt8 → List UInt8) :
    ((getProperty text entries beamType).isUndefined = false ∧
      (getProperty text entries beamData).isUndefined = false) ↔ isMarked entries = true := by
  rw [isUndefined_getProperty, isUndefined_getProperty, isMarked, Bool.and_eq_true]
  cases entries.lookup beamType <;> cases entries.lookup beamData <;> simp

variable {text : List UInt8 → List UInt8}

theorem length_keyNames : (keyNames text entries).length ≤ (entries.map Prod.fst).length := by
  rw [keyNames, List.length_map]
  exact List.length_filter_le ..

theorem ownPropertyNames_of_kept (h : KeysKept text entries) :
    ownPropertyNames text entries = keyNames text entries :=
  List.filter_eq_self.2 fun _ hname => isSome_lookup_iff_mem.2 (h.mem_iff.1 hname)

/-! ### Maps made of arrays -/

theorem foldl_mapPut (pairs : List (List UInt8 × Term)) :
    ∀ acc : List (List UInt8 × Term), ((acc ++ pairs).map Prod.fst).Nodup →
      pairs.foldl mapPut acc = acc ++ pairs := by
  induction pairs with
  | nil => intro acc _; exact (List.append_nil acc).symm
  | cons pair pairs ih =>
    intro acc hnodup
    have hnew : pair.1 ∉ acc.map Prod.fst := by
      intro hin
      rw [List.map_append, List.map_cons] at hnodup
      exact List.disjoint_of_nodup_append hnodup hin List.mem_cons_self
    have hput : mapPut acc pair = acc ++ [pair] := if_neg hnew
    rw [List.foldl_cons, hput, ih, List.append_assoc, List.singleton_append]
    rw [List.append_assoc, List.singleton_append]
    exact hnodup

variable {pairs : List (List UInt8 × Term)}

theorem makeMap_of_nodup (h : (pairs.map Prod.fst).Nodup) : makeMap pairs = pairs := by
  by_cases hlength : pairs.length ≤ 128
  · rw [makeMap, if_pos hlength, if_pos h]
  · rw [makeMap, if_neg hlength]
    exact foldl_mapPut pairs [] h

variable {key : List UInt8}

theorem mem_foldl_mapPut (pairs : List (List UInt8 × Term)) :
    ∀ acc : List (List UInt8 × Term), key ∈ (pairs.foldl mapPut acc).map Prod.fst →
      key ∈ acc.map Prod.fst ∨ key ∈ pairs.map Prod.fst := by
  induction pairs with
  | nil => intro acc h; exact .inl h
  | cons pair pairs ih =>
    intro acc h
    rw [List.foldl_cons] at h
    rcases ih _ h with hacc | hin
    · unfold mapPut at hacc
      split at hacc
      · rename_i hold
        obtain ⟨entry, hentry, rfl⟩ := List.mem_map.1 hacc
        obtain ⟨old, hin, rfl⟩ := List.mem_map.1 hentry
        split
        · exact .inl hold
        · exact .inl (List.mem_map.2 ⟨old, hin, rfl⟩)
      · rw [List.map_append, List.mem_append] at hacc
        rcases hacc with hold | hnew
        · exact .inl hold
        · rw [List.map_singleton, List.mem_singleton] at hnew
          rw [hnew]
          exact .inr List.mem_cons_self
    · exact .inr (List.mem_cons_of_mem _ hin)

theorem mem_makeMap (h : key ∈ (makeMap pairs).map Prod.fst) : key ∈ pairs.map Prod.fst := by
  unfold makeMap at h
  split at h
  · split at h
    · exact h
    · cases h
  · rcases mem_foldl_mapPut pairs [] h with hnil | hin
    · cases hnil
    · exact hin

variable {results : List Term}

theorem kept_of_makeMap (hnodup : (entries.map Prod.fst).Nodup)
    (h : ((makeMap ((ownPropertyNames text entries).zip results)).map Prod.fst).Perm (entries.map
    Prod.fst)) : KeysKept text entries := by
  have hsub : entries.map Prod.fst ⊆ ownPropertyNames text entries := by
    intro key hkey
    have hin := mem_makeMap (h.mem_iff.2 hkey)
    obtain ⟨pair, hpair, rfl⟩ := List.mem_map.1 hin
    exact (List.of_mem_zip hpair).1
  have hfilter : (ownPropertyNames text entries).Sublist (keyNames text entries) :=
    List.filter_sublist
  have hperm : (entries.map Prod.fst).Perm (ownPropertyNames text entries) :=
    (hnodup.subperm hsub).perm_of_length_le (hfilter.length_le.trans length_keyNames)
  have hall : ownPropertyNames text entries = keyNames text entries :=
    hfilter.eq_of_length_le (length_keyNames.trans hperm.length_eq.le)
  rw [KeysKept, ← hall]
  exact hperm.symm

theorem agrees_map_iff {cut : Prop} {names : List (List UInt8)}
    (hnodup : (entries.map Prod.fst).Nodup) (hnames : names.Perm (entries.map Prod.fst))
    (hlength : names.length = results.length) :
    Term.Agrees cut (.map entries) (.map (names.zip results)) ↔
      List.Forall₂ (fun name result => ∃ term, entries.lookup name = some term ∧
        Term.Agrees cut term result) names results := by
  have hkeys : (names.zip results).map Prod.fst = names := List.map_fst_zip hlength.le
  rw [List.forall₂_iff_zip]
  constructor
  · intro h
    cases h with
    | map keys values =>
      refine ⟨hlength, fun {name result} hin => ?_⟩
      obtain ⟨term, hterm⟩ := Option.isSome_iff_exists.1
        (isSome_lookup_iff_mem.2 (hnames.mem_iff.1 (List.of_mem_zip hin).1))
      exact ⟨term, hterm, values name term result (mem_of_lookup hterm) hin⟩
  · rintro ⟨-, h⟩
    refine .map (by rw [hkeys]; exact hnames) fun key term result hterm hin => ?_
    obtain ⟨found, hfound, hagrees⟩ := h hin
    rw [lookup_of_mem hnodup hterm] at hfound
    rw [Option.some.inj hfound]
    exact hagrees

end Entries

/-! ### Walks -/

section Lists

variable {α : Type}

def walkLast (walk : α → ℕ → Option ℕ) : List α → ℕ → Option ℕ
  | [], count => some count
  | x :: xs, count => (walkLast walk xs count).bind (walk x)

def walkFirst (walk : α → ℕ → Option ℕ) : List α → ℕ → Option ℕ
  | [], count => some count
  | x :: xs, count => (walk x count).bind (walkFirst walk xs)

/-- The result has the property and counts as many nodes as the walk, or the walk has stopped and
the result does not have the property. -/
def Follows {β : Type} (p : β → Prop) (result : β × ℕ) : Option ℕ → Prop
  | some count => p result.1 ∧ result.2 = count
  | none => ¬ p result.1

variable {f : α → ℕ → Term × ℕ} {walk : α → ℕ → Option ℕ} {r : α → Term → Prop}

variable {xs : List α}

theorem mapLast_follows (h : ∀ x ∈ xs, ∀ count, Follows (r x) (f x count) (walk x count))
    (count : ℕ) : Follows (List.Forall₂ r xs) (mapLast f xs count) (walkLast walk xs count) := by
  induction xs with
  | nil => exact ⟨.nil, rfl⟩
  | cons x xs ih =>
    have hrest := ih fun y hy => h y (List.mem_cons_of_mem x hy)
    rw [walkLast, mapLast]
    cases hwalk : walkLast walk xs count with
    | none =>
      rw [hwalk] at hrest
      intro hall
      cases hall with
      | cons _ hall => exact hrest hall
    | some count' =>
      rw [hwalk] at hrest
      obtain ⟨hall, rfl⟩ := hrest
      have hfirst := h x List.mem_cons_self (mapLast f xs count).2
      rw [Option.bind_some]
      cases hwalkx : walk x (mapLast f xs count).2 with
      | none =>
        rw [hwalkx] at hfirst
        intro hboth
        cases hboth with
        | cons hx _ => exact hfirst hx
      | some count' =>
        rw [hwalkx] at hfirst
        exact ⟨.cons hfirst.1 hall, hfirst.2⟩

theorem mapFirst_follows (h : ∀ x ∈ xs, ∀ count, Follows (r x) (f x count) (walk x count)) :
    ∀ count, Follows (List.Forall₂ r xs) (mapFirst f xs count) (walkFirst walk xs count) := by
  induction xs with
  | nil => intro count; exact ⟨.nil, rfl⟩
  | cons x xs ih =>
    intro count
    have hfirst := h x List.mem_cons_self count
    rw [walkFirst, mapFirst]
    cases hwalkx : walk x count with
    | none =>
      rw [hwalkx] at hfirst
      intro hall
      cases hall with
      | cons hx _ => exact hfirst hx
    | some count' =>
      rw [hwalkx] at hfirst
      obtain ⟨hx, rfl⟩ := hfirst
      have hrest := ih (fun y hy => h y (List.mem_cons_of_mem x hy)) (f x count).2
      rw [Option.bind_some]
      cases hwalk : walkFirst walk xs (f x count).2 with
      | none =>
        rw [hwalk] at hrest
        intro hboth
        cases hboth with
        | cons _ hall => exact hrest hall
      | some count' =>
        rw [hwalk] at hrest
        exact ⟨.cons hx hrest.1, hrest.2⟩

/-- Within `limit`, an element has the property exactly when it is clean, and it counts at most its
`size`. -/
def ExactOn (limit : ℕ) (f : α → ℕ → Term × ℕ) (walk : α → ℕ → Option ℕ) (r : α → Term → Prop)
    (clean : α → Prop) (size : α → ℕ) (x : α) : Prop :=
  ∀ count count', count + size x ≤ limit → walk x count = some count' →
    (r x (f x count).1 ↔ clean x) ∧ (f x count).2 = count' ∧ count' ≤ count + size x

variable {limit : ℕ} {clean : α → Prop} {size : α → ℕ}

theorem mapLast_exact (h : ∀ x ∈ xs, ExactOn limit f walk r clean size x) {count count' : ℕ}
    (hlimit : count + (xs.map size).sum ≤ limit) (hwalk : walkLast walk xs count = some count') :
    (List.Forall₂ r xs (mapLast f xs count).1 ↔ ∀ x ∈ xs, clean x) ∧
      (mapLast f xs count).2 = count' ∧ count' ≤ count + (xs.map size).sum := by
  induction xs generalizing count' with
  | nil =>
    cases hwalk
    exact ⟨iff_of_true .nil nofun, rfl, le_rfl⟩
  | cons x xs ih =>
    rw [walkLast] at hwalk
    obtain ⟨middle, hrest, hx⟩ := Option.bind_eq_some_iff.1 hwalk
    rw [List.map_cons, List.sum_cons] at hlimit ⊢
    obtain ⟨hall, hcount, hle⟩ := ih (fun y hy => h y (List.mem_cons_of_mem x hy)) (by omega) hrest
    obtain ⟨hfirst, hcount', hle'⟩ := h x List.mem_cons_self middle count' (by omega) hx
    rw [mapLast, hcount, List.forall₂_cons, hfirst, hall, List.forall_mem_cons]
    exact ⟨Iff.rfl, hcount', by omega⟩

theorem mapFirst_exact (h : ∀ x ∈ xs, ExactOn limit f walk r clean size x) {count count' : ℕ}
    (hlimit : count + (xs.map size).sum ≤ limit) (hwalk : walkFirst walk xs count = some count') :
    (List.Forall₂ r xs (mapFirst f xs count).1 ↔ ∀ x ∈ xs, clean x) ∧
      (mapFirst f xs count).2 = count' ∧ count' ≤ count + (xs.map size).sum := by
  induction xs generalizing count with
  | nil =>
    cases hwalk
    exact ⟨iff_of_true .nil nofun, rfl, le_rfl⟩
  | cons x xs ih =>
    rw [walkFirst] at hwalk
    obtain ⟨middle, hx, hrest⟩ := Option.bind_eq_some_iff.1 hwalk
    rw [List.map_cons, List.sum_cons] at hlimit ⊢
    obtain ⟨hfirst, hcount, hle⟩ := h x List.mem_cons_self count middle (by omega) hx
    obtain ⟨hall, hcount', hle'⟩ := ih (fun y hy => h y (List.mem_cons_of_mem x hy)) (by omega) hrest
    rw [mapFirst, hcount, List.forall₂_cons, hfirst, hall, List.forall_mem_cons]
    exact ⟨Iff.rfl, hcount', by omega⟩

end Lists

/-- The conversion without its results: the node count after it, or `none` when it meets a map whose keys
are not kept.  A marked map counts as one node. -/
def walk (text : List UInt8 → List UInt8) (maxNodes : ℕ) : ℕ → ℕ → Term → ℕ → Option ℕ
  | 0, _, _, count => some count
  | left + 1, jsLeft, term, count =>
    if maxNodes ≤ count then some count
    else
      match jsLeft, term with
      | 0, _ => some (count + 1)
      | jsLeft + 1, .list terms => walkLast (walk text maxNodes left jsLeft) terms (count + 1)
      | _ + 1, .map entries =>
        if isMarked entries then some (count + 1)
        else if KeysKept text entries then
          walkFirst (fun name count =>
            match entries.lookup name with
            | some term => walk text maxNodes left (maxDepth + 1) term count
            | none => some count) (keyNames text entries) (count + 1)
        else none
      | _ + 1, _ => some (count + 1)

/-- No map that the limits let the conversion reach loses a key. -/
def ReachedKeysKept (text : List UInt8 → List UInt8) (limits : ConvertLimits) (term : Term) : Prop :=
  (walk text limits.maxNodes (limits.maxDepth + 1) (maxDepth + 1) term 0).isSome = true

instance (text : List UInt8 → List UInt8) (limits : ConvertLimits) (term : Term) :
    Decidable (ReachedKeysKept text limits term) := inferInstanceAs (Decidable (_ = true))

/-- No map holds both marker keys. -/
def Unmarked : Term → Prop :=
  Term.All fun
    | .map entries => isMarked entries = false
    | _ => True

/-! ### Leaves -/

theorem convertNumber_of_nonintegral {x : Double} (h : x.units % Double.unitsPerOne ≠ 0) :
    convertNumber x = .float x := if_neg fun hboth => h hboth.1

section Main

variable {text : List UInt8 → List UInt8} {maxNodes : ℕ}

variable {count left : ℕ}

theorem toBeam_newInt64 {n : ℤ} (hlow : -maxSafeInteger ≤ n) (hhigh : n ≤ maxSafeInteger)
    (hcount : ¬ maxNodes ≤ count) :
    toBeam text maxNodes (left + 1) (newInt64 n) count = (.int n, count + 1) := by
  unfold maxSafeInteger at hlow hhigh
  unfold newInt64
  split
  · rw [toBeam, if_neg hcount]
  · obtain ⟨x, hx, hunits, hneg⟩ := Double.ofInt_exact (n := n) (by omega)
    have htrunc : x.trunc = n := by
      rw [Double.trunc_of_units hunits, hneg]
      split
      · rename_i hlt
        have := of_decide_eq_true hlt
        omega
      · rename_i hlt
        have : ¬ n < 0 := fun hn => hlt (decide_eq_true hn)
        omega
    have hwhole : x.units % Double.unitsPerOne = 0 := by
      rw [hunits]
      exact Nat.mul_mod_left ..
    rw [hx]
    show toBeam text maxNodes (left + 1) (.float x) count = _
    rw [toBeam, if_neg hcount, convertNumber, htrunc, if_pos ⟨hwhole, hlow, hhigh⟩]

def Term.isLeaf : Term → Bool
  | .list _ => false
  | .map _ => false
  | _ => true

variable {cut : Prop} {term : Term}

theorem agrees_leaf (h : term.isLeaf = true) : Term.Agrees cut term term := by
  cases term with
  | nil => exact .nil
  | bool b => exact .bool b
  | int n => exact .int n
  | float x => exact .float x
  | binary bytes => exact .binary bytes
  | list terms => cases h
  | map entries => cases h

variable {jsLeft : ℕ}

theorem toBeam_leaf (htext : ∀ bytes, Text.validateUtf8 bytes = true → text bytes = bytes)
    (h : term.isLeaf = true) (hterm : term.Supported) (hcount : ¬ maxNodes ≤ count) :
    toBeam text maxNodes (left + 1) (toJs text (jsLeft + 1) term) count = (term, count + 1) := by
  have hself := Term.All.self hterm
  cases term with
  | nil => exact if_neg hcount
  | bool b => exact if_neg hcount
  | int n =>
    have hbounds : -2 ^ 63 ≤ n ∧ n < 2 ^ 63 := by
      obtain ⟨hlow, hhigh⟩ := hself
      unfold maxSafeInteger at hlow hhigh
      omega
    rw [toJs, if_pos hbounds]
    exact toBeam_newInt64 hself.1 hself.2 hcount
  | float x =>
    rw [toJs, toBeam, if_neg hcount, convertNumber_of_nonintegral hself]
  | binary bytes =>
    rw [toJs, toBeam, if_neg hcount, htext bytes hself]
  | list terms => cases h
  | map entries => cases h

theorem walk_leaf (h : term.isLeaf = true) (hcount : ¬ maxNodes ≤ count) :
    walk text maxNodes (left + 1) (jsLeft + 1) term count = some (count + 1) := by
  cases term with
  | nil => exact if_neg hcount
  | bool b => exact if_neg hcount
  | int n => exact if_neg hcount
  | float x => exact if_neg hcount
  | binary bytes => exact if_neg hcount
  | list terms => cases h
  | map entries => cases h

theorem toBeam_cut {value : JSValue} (hcount : maxNodes ≤ count) :
    toBeam text maxNodes (left + 1) value count = (.nil, count) := if_pos hcount

theorem toBeam_array {values : List JSValue} (hcount : ¬ maxNodes ≤ count) :
    toBeam text maxNodes (left + 1) (.array values) count =
      (.list (mapLast (toBeam text maxNodes left) values (count + 1)).1,
        (mapLast (toBeam text maxNodes left) values (count + 1)).2) := if_neg hcount

def convertNames (text : List UInt8 → List UInt8) (maxNodes left : ℕ)
    (entries : List (List UInt8 × Term)) (name : List UInt8) (count : ℕ) : Term × ℕ :=
  toBeam text maxNodes left (getProperty text entries name) count

variable {entries : List (List UInt8 × Term)}

theorem toBeam_proxy (hcount : ¬ maxNodes ≤ count) :
    toBeam text maxNodes (left + 1) (.proxy entries) count =
      if isMarked entries then (.nil, count + 1)
      else
        (.map (makeMap ((ownPropertyNames text entries).zip
          (mapFirst (convertNames text maxNodes left entries) (ownPropertyNames text entries)
            (count + 1)).1)),
          (mapFirst (convertNames text maxNodes left entries) (ownPropertyNames text entries)
            (count + 1)).2) :=
  (if_neg hcount).trans (if_congr (marked_iff text) rfl rfl)

theorem toBeam_map (hcount : ¬ maxNodes ≤ count) :
    toBeam text maxNodes (left + 1) (toJs text (jsLeft + 1) (.map entries)) count =
      toBeam text maxNodes (left + 1) (.proxy entries) count := by
  cases entries with
  | cons entry entries => rfl
  | nil =>
    rw [toBeam_proxy hcount]
    exact if_neg hcount

theorem walk_cut (hcount : maxNodes ≤ count) :
    walk text maxNodes (left + 1) jsLeft term count = some count := if_pos hcount

variable {terms : List Term}

theorem walk_list (hcount : ¬ maxNodes ≤ count) :
    walk text maxNodes (left + 1) (jsLeft + 1) (.list terms) count =
      walkLast (walk text maxNodes left jsLeft) terms (count + 1) := if_neg hcount

def walkName (text : List UInt8 → List UInt8) (maxNodes left : ℕ)
    (entries : List (List UInt8 × Term)) (name : List UInt8) (count : ℕ) : Option ℕ :=
  match entries.lookup name with
  | some term => walk text maxNodes left (maxDepth + 1) term count
  | none => some count

theorem walk_map (hcount : ¬ maxNodes ≤ count) :
    walk text maxNodes (left + 1) (jsLeft + 1) (.map entries) count =
      if isMarked entries then some (count + 1)
      else if KeysKept text entries then
        walkFirst (walkName text maxNodes left entries) (keyNames text entries) (count + 1)
      else none := if_neg hcount

/-- Names stand for values. -/
def NameAgrees (cut : Prop) (entries : List (List UInt8 × Term)) (name : List UInt8)
    (result : Term) : Prop :=
  ∃ term, entries.lookup name = some term ∧ Term.Agrees cut term result

variable {name : List UInt8}

theorem nameAgrees_iff (h : entries.lookup name = some term) (result : Term) :
    NameAgrees cut entries name result ↔ Term.Agrees cut term result := by
  constructor
  · rintro ⟨found, hfound, hagrees⟩
    rw [h] at hfound
    rw [Option.some.inj hfound]
    exact hagrees
  · exact fun hagrees => ⟨term, h, hagrees⟩

theorem Term.Supported.child {term child : Term} (h : term.Supported) (hchild : child ∈ term.children) :
    child.Supported := Term.All.child h hchild

theorem Term.Supported.nodup (h : (Term.map entries).Supported) :
    (entries.map Prod.fst).Nodup := (Term.All.self h).1

theorem child_of_lookup (h : entries.lookup name = some term) :
    term ∈ (Term.map entries).children :=
  List.mem_map.2 ⟨(name, term), mem_of_lookup h, rfl⟩

theorem agrees_list_iff {cut : Prop} {terms results : List Term} :
    Term.Agrees cut (.list terms) (.list results) ↔ List.Forall₂ (Term.Agrees cut) terms results := by
  constructor
  · intro h
    cases h with
    | list hall => exact hall
  · exact .list

theorem Follows.of_iff {β γ : Type} {p : β → Prop} {q : γ → Prop} {result : β × ℕ} {value : γ}
    {walked : Option ℕ} (h : Follows p result walked) (hiff : q value ↔ p result.1) :
    Follows q (value, result.2) walked := by
  cases walked with
  | none => exact fun hq => h (hiff.1 hq)
  | some count => exact ⟨hiff.2 h.1, h.2⟩

theorem mapLast_map {α β : Type} (f : β → ℕ → Term × ℕ) (g : α → β) (xs : List α) (count : ℕ) :
    mapLast f (xs.map g) count = mapLast (fun x => f (g x)) xs count := by
  induction xs with
  | nil => rfl
  | cons x xs ih => rw [List.map_cons, mapLast, mapLast, ih]

theorem mapFirst_length {α : Type} (f : α → ℕ → Term × ℕ) (xs : List α) :
    ∀ count, (mapFirst f xs count).1.length = xs.length := by
  induction xs with
  | nil => intro count; rfl
  | cons x xs ih =>
    intro count
    rw [mapFirst, List.length_cons, List.length_cons, ih]

theorem agrees_made_iff (cut : Prop) (maxNodes left count : ℕ)
    (hnodup : (entries.map Prod.fst).Nodup) (hkept : KeysKept text entries) :
    Term.Agrees cut (.map entries) (.map (makeMap ((ownPropertyNames text entries).zip
      (mapFirst (convertNames text maxNodes left entries) (ownPropertyNames text entries) count).1))) ↔
      List.Forall₂ (NameAgrees cut entries) (keyNames text entries)
        (mapFirst (convertNames text maxNodes left entries) (keyNames text entries) count).1 := by
  have hlength := mapFirst_length (convertNames text maxNodes left entries) (keyNames text entries) count
  have hkeys := List.map_fst_zip hlength.ge
  have hnames : (keyNames text entries).Nodup := hkept.nodup_iff.2 hnodup
  rw [ownPropertyNames_of_kept hkept, makeMap_of_nodup (by rw [hkeys]; exact hnames)]
  exact agrees_map_iff hnodup hkept hlength.symm

/-- **The conversion follows the walk.** -/
theorem toBeam_follows (htext : ∀ bytes, Text.validateUtf8 bytes = true → text bytes = bytes)
    (left : ℕ) : ∀ (jsLeft : ℕ) (term : Term) (count : ℕ), term.Supported →
      Follows (Term.Agrees True term) (toBeam text maxNodes left (toJs text jsLeft term) count)
        (walk text maxNodes left jsLeft term count) := by
  induction left with
  | zero =>
    intro jsLeft term count _
    exact ⟨.cut trivial term, rfl⟩
  | succ left ih =>
    intro jsLeft term count hterm
    by_cases hcount : maxNodes ≤ count
    · rw [toBeam_cut hcount, walk_cut hcount]
      exact ⟨.cut trivial term, rfl⟩
    cases jsLeft with
    | zero =>
      show Follows _ (toBeam text maxNodes (left + 1) .null count) _
      rw [toBeam, if_neg hcount, walk, if_neg hcount]
      exact ⟨.cut trivial term, rfl⟩
    | succ jsLeft =>
      by_cases hleaf : term.isLeaf = true
      · rw [toBeam_leaf htext hleaf hterm hcount, walk_leaf hleaf hcount]
        exact ⟨agrees_leaf hleaf, rfl⟩
      cases term with
      | list terms =>
        show Follows _ (toBeam text maxNodes (left + 1) (.array (terms.map (toJs text jsLeft))) count) _
        rw [toBeam_array hcount, walk_list hcount, mapLast_map]
        refine Follows.of_iff (mapLast_follows ?_ (count + 1)) agrees_list_iff
        exact fun term hin count => ih jsLeft term count (hterm.child hin)
      | map entries =>
        rw [toBeam_map hcount, toBeam_proxy hcount, walk_map hcount]
        have hnodup := hterm.nodup
        split
        · exact ⟨.cut trivial _, rfl⟩
        split
        · rename_i hkept
          have hmade := agrees_made_iff True maxNodes left (count + 1) hnodup hkept
          rw [ownPropertyNames_of_kept hkept] at hmade ⊢
          refine Follows.of_iff (mapFirst_follows (fun name hname count => ?_) (count + 1)) hmade
          obtain ⟨term, hlookup⟩ := Option.isSome_iff_exists.1
            (isSome_lookup_iff_mem.2 (hkept.mem_iff.1 hname))
          have hone := ih (maxDepth + 1) term count (hterm.child (child_of_lookup hlookup))
          unfold convertNames walkName getProperty
          rw [hlookup]
          exact hone.of_iff (nameAgrees_iff hlookup _)
        · rename_i hlost
          intro hagrees
          cases hagrees with
          | map keys _ => exact hlost (kept_of_makeMap hnodup keys)
      | nil => exact absurd rfl hleaf
      | bool b => exact absurd rfl hleaf
      | int n => exact absurd rfl hleaf
      | float x => exact absurd rfl hleaf
      | binary bytes => exact absurd rfl hleaf

theorem unmarked_leaf (h : term.isLeaf = true) : Unmarked term := by
  cases term with
  | list terms => cases h
  | map entries => cases h
  | nil => exact .intro trivial fun _ h => absurd h List.not_mem_nil
  | bool b => exact .intro trivial fun _ h => absurd h List.not_mem_nil
  | int n => exact .intro trivial fun _ h => absurd h List.not_mem_nil
  | float x => exact .intro trivial fun _ h => absurd h List.not_mem_nil
  | binary bytes => exact .intro trivial fun _ h => absurd h List.not_mem_nil

theorem unmarked_list_iff : Unmarked (.list terms) ↔ ∀ term ∈ terms, Unmarked term :=
  ⟨fun h _ hin => Term.All.child h hin, fun h => .intro trivial h⟩

theorem unmarked_map_iff :
    Unmarked (.map entries) ↔ isMarked entries = false ∧ ∀ entry ∈ entries, Unmarked entry.2 := by
  constructor
  · exact fun h => ⟨Term.All.self h, fun entry hin =>
      Term.All.child h (List.mem_map.2 ⟨entry, hin, rfl⟩)⟩
  · rintro ⟨hmarked, hall⟩
    refine .intro hmarked fun child hchild => ?_
    obtain ⟨entry, hin, rfl⟩ := List.mem_map.1 hchild
    exact hall entry hin

def nameSize (entries : List (List UInt8 × Term)) (name : List UInt8) : ℕ :=
  ((entries.lookup name).map Term.nodes).getD 0

theorem sum_nameSize (hnodup : (entries.map Prod.fst).Nodup) (hkept : KeysKept text entries) :
    ((keyNames text entries).map (nameSize entries)).sum =
      (entries.map fun entry => entry.2.nodes).sum := by
  have hsizes : (entries.map Prod.fst).map (nameSize entries) =
      entries.map fun entry => entry.2.nodes := by
    rw [List.map_map]
    refine List.map_congr_left fun entry hin => ?_
    show ((entries.lookup entry.1).map Term.nodes).getD 0 = entry.2.nodes
    have hlookup : entries.lookup entry.1 = some entry.2 := lookup_of_mem hnodup hin
    rw [hlookup]
    rfl
  rw [← hsizes]
  exact (hkept.map (nameSize entries)).sum_eq

theorem exact_name (hkept : KeysKept text entries) (hname : name ∈ keyNames text entries)
    (h : ∀ term, entries.lookup name = some term → ExactOn maxNodes (fun term => toBeam text
    maxNodes left (toJs text (maxDepth + 1) term)) (walk text maxNodes left (maxDepth + 1))
    (Term.Agrees False) Unmarked Term.nodes term) :
    ExactOn maxNodes (convertNames text maxNodes left entries) (walkName text maxNodes left entries)
      (NameAgrees False entries) (fun name => ∀ term, entries.lookup name = some term → Unmarked term)
      (nameSize entries) name := by
  obtain ⟨term, hlookup⟩ := Option.isSome_iff_exists.1
    (isSome_lookup_iff_mem.2 (hkept.mem_iff.1 hname))
  intro count count' hlimit hwalk
  unfold nameSize at hlimit ⊢
  unfold walkName at hwalk
  unfold convertNames getProperty
  rw [hlookup] at hlimit hwalk ⊢
  obtain ⟨hiff, hcounts, hle⟩ := h term hlookup count count' hlimit hwalk
  refine ⟨?_, hcounts, hle⟩
  rw [nameAgrees_iff hlookup]
  refine hiff.trans ⟨fun hclean found hfound => ?_, fun hall => hall term hlookup⟩
  rw [hlookup] at hfound
  rw [← Option.some.inj hfound]
  exact hclean

/-- **Within the limits a term comes back exactly when no map is marked.** -/
theorem toBeam_exact (htext : ∀ bytes, Text.validateUtf8 bytes = true → text bytes = bytes)
    (left : ℕ) : ∀ (jsLeft : ℕ) (term : Term), term.Supported → term.depth < left →
      term.depth < jsLeft → jsLeft ≤ maxDepth + 1 →
      ExactOn maxNodes (fun term => toBeam text maxNodes left (toJs text jsLeft term))
        (walk text maxNodes left jsLeft) (Term.Agrees False) Unmarked Term.nodes term := by
  induction left with
  | zero =>
    intro _ _ _ hdepth
    exact absurd hdepth (Nat.not_lt_zero _)
  | succ left ih =>
    intro jsLeft term hterm hdepth hjsDepth hmax count count' hlimit hwalk
    have hpos : 0 < term.nodes := by
      rw [Term.nodes_eq]
      exact Nat.lt_of_lt_of_le Nat.zero_lt_one (Nat.le_add_right ..)
    have hcount : ¬ maxNodes ≤ count := by omega
    obtain ⟨jsLeft, rfl⟩ := Nat.exists_eq_succ_of_ne_zero (Nat.ne_zero_of_lt hjsDepth)
    have hchildren : ∀ child ∈ term.children, child.depth < left ∧ child.depth < jsLeft := by
      intro child hchild
      have hlt := Term.depth_child hchild
      omega
    by_cases hleaf : term.isLeaf = true
    · rw [walk_leaf hleaf hcount] at hwalk
      dsimp only
      rw [toBeam_leaf htext hleaf hterm hcount]
      cases hwalk
      exact ⟨iff_of_true (agrees_leaf hleaf) (unmarked_leaf hleaf), rfl, by omega⟩
    cases term with
    | list terms =>
      rw [walk_list hcount] at hwalk
      rw [Term.nodes_list] at hlimit ⊢
      show (Term.Agrees False _ (toBeam text maxNodes (left + 1) (.array (terms.map (toJs text jsLeft)))
        count).1 ↔ _) ∧ (toBeam text maxNodes (left + 1) (.array (terms.map (toJs text jsLeft)))
        count).2 = _ ∧ _
      rw [toBeam_array hcount, mapLast_map, agrees_list_iff, unmarked_list_iff]
      obtain ⟨hiff, hcounts, hle⟩ := mapLast_exact (fun (term : Term) (hin : term ∈ terms) =>
        ih jsLeft term (hterm.child hin) (hchildren term hin).1 (hchildren term hin).2 (by omega))
        (by omega) hwalk
      exact ⟨hiff, hcounts, by omega⟩
    | map entries =>
      have hnodup := hterm.nodup
      rw [walk_map hcount] at hwalk
      rw [Term.nodes_map] at hlimit ⊢
      dsimp only
      rw [toBeam_map hcount, toBeam_proxy hcount, unmarked_map_iff]
      by_cases hmarked : isMarked entries = true
      · rw [if_pos hmarked] at hwalk ⊢
        cases hwalk
        refine ⟨iff_of_false ?_ fun hboth => ?_, rfl, by omega⟩
        · intro hagrees
          cases hagrees with
          | cut h _ => exact h
        · rw [hmarked] at hboth
          cases hboth.1
      rw [if_neg hmarked] at hwalk ⊢
      split at hwalk
      swap
      · cases hwalk
      rename_i hkept
      rw [← sum_nameSize hnodup hkept] at hlimit ⊢
      have hmade := agrees_made_iff False maxNodes left (count + 1) hnodup hkept
      have hname : ∀ name ∈ keyNames text entries,
          ExactOn maxNodes (convertNames text maxNodes left entries)
            (walkName text maxNodes left entries) (NameAgrees False entries)
            (fun name => ∀ term, entries.lookup name = some term → Unmarked term)
            (nameSize entries) name := by
        refine fun name hname => exact_name hkept hname fun term hlookup => ?_
        have hchild := child_of_lookup hlookup
        obtain ⟨hbeam, hjs⟩ := hchildren term hchild
        exact ih (maxDepth + 1) term (hterm.child hchild) hbeam (by omega) le_rfl
      obtain ⟨hiff, hcounts, hle⟩ := mapFirst_exact hname (by omega) hwalk
      rw [ownPropertyNames_of_kept hkept] at hmade ⊢
      rw [hmade, hiff]
      refine ⟨?_, hcounts, by omega⟩
      constructor
      · refine fun hall => ⟨Bool.eq_false_iff.2 hmarked, fun entry hin => ?_⟩
        have hkey : entry.1 ∈ keyNames text entries :=
          hkept.mem_iff.2 (List.mem_map.2 ⟨entry, hin, rfl⟩)
        exact hall entry.1 hkey entry.2 (lookup_of_mem hnodup hin)
      · rintro ⟨-, hall⟩ name _ term hlookup
        exact hall (name, term) (mem_of_lookup hlookup)
    | nil => exact absurd rfl hleaf
    | bool b => exact absurd rfl hleaf
    | int n => exact absurd rfl hleaf
    | float x => exact absurd rfl hleaf
    | binary bytes => exact absurd rfl hleaf

/-- **A term round-trips exactly when no map that the limits let the conversion reach loses a key and,
within the limits, no map holds both markers.** -/
theorem roundTrips_iff (htext : ∀ bytes, Text.validateUtf8 bytes = true → text bytes = bytes)
    (limits : ConvertLimits) {term : Term} (hterm : term.Supported) :
    RoundTrips text limits term ↔
      ReachedKeysKept text limits term ∧ (term.Within limits → Unmarked term) := by
  have hfollows : Follows (Term.Agrees True term)
      (toBeam text limits.maxNodes (limits.maxDepth + 1) (convert text term) 0)
      (walk text limits.maxNodes (limits.maxDepth + 1) (maxDepth + 1) term 0) :=
    toBeam_follows htext (limits.maxDepth + 1) (maxDepth + 1) term 0 hterm
  have hexact : ∀ count, walk text limits.maxNodes (limits.maxDepth + 1) (maxDepth + 1) term 0 =
      some count → term.Within limits →
      (Term.Agrees False term (roundTrip text limits term) ↔ Unmarked term) := by
    rintro count hwalk ⟨hjs, hbeam, hnodes⟩
    exact (toBeam_exact htext (limits.maxDepth + 1) (maxDepth + 1) term hterm
      (Nat.lt_succ_of_le hbeam) (Nat.lt_succ_of_le hjs) le_rfl 0 count (by omega) hwalk).1
  unfold RoundTrips ReachedKeysKept
  cases hwalk : walk text limits.maxNodes (limits.maxDepth + 1) (maxDepth + 1) term 0 with
  | none =>
    rw [hwalk] at hfollows
    exact iff_of_false (fun hboth => hfollows hboth.2) nofun
  | some count =>
    rw [hwalk] at hfollows
    constructor
    · rintro ⟨hequal, -⟩
      exact ⟨rfl, fun hwithin => (hexact count hwalk hwithin).1 (hequal hwithin)⟩
    · rintro ⟨-, hunmarked⟩
      exact ⟨fun hwithin => (hexact count hwalk hwithin).2 (hunmarked hwithin), hfollows.1⟩

end Main

def sampleMap : Term := .map [([97], .list [.int 1, .bool true])]

theorem sampleMap_supported : sampleMap.Supported := by
  have hascii : Text.branch 97 [] = .ascii := by decide
  have hvalid : Text.validateUtf8 [97] = true := by simp [Text.validateUtf8, hascii]
  refine .intro ⟨List.nodup_singleton _, fun key hkey => ?_⟩ fun child hchild => ?_
  · rw [List.mem_singleton.1 hkey]
    exact hvalid
  · rw [show child = .list [.int 1, .bool true] from List.mem_singleton.1 hchild]
    refine .intro trivial fun item hitem => ?_
    rcases List.mem_cons.1 hitem with rfl | hitem
    · exact .intro (by decide) fun _ h => absurd h List.not_mem_nil
    · rw [List.mem_singleton.1 hitem]
      exact .intro trivial fun _ h => absurd h List.not_mem_nil

theorem roundTrips_sampleMap : RoundTrips id ⟨32, 10000⟩ sampleMap := by
  have hunmarked : Unmarked sampleMap := by
    refine unmarked_map_iff.2 ⟨by decide, fun entry hentry => ?_⟩
    rw [List.mem_singleton.1 hentry]
    refine unmarked_list_iff.2 fun item hitem => unmarked_leaf ?_
    rcases List.mem_cons.1 hitem with rfl | hitem
    · rfl
    · rw [List.mem_singleton.1 hitem]
      rfl
  exact (roundTrips_iff (fun _ _ => rfl) ⟨32, 10000⟩ sampleMap_supported).2
    ⟨rfl, fun _ => hunmarked⟩

/-- A map with the empty key comes back empty. -/
theorem empty_key_lost : ¬ ∀ term : Term, term.Supported → RoundTrips id ⟨32, 10000⟩ term := by
  intro h
  have hsupported : (Term.map [([], .int 1)]).Supported := by
    have hvalid : Text.validateUtf8 [] = true := by simp [Text.validateUtf8]
    refine .intro ⟨List.nodup_singleton _, fun key hkey => ?_⟩ fun child hchild => ?_
    · rw [List.mem_singleton.1 hkey]
      exact hvalid
    · rw [show child = .int 1 from List.mem_singleton.1 hchild]
      exact .intro (by decide) fun _ h => absurd h List.not_mem_nil
  have hagrees := (h _ hsupported).2
  rw [show roundTrip id ⟨32, 10000⟩ (.map [([], .int 1)]) = .map [] from rfl] at hagrees
  cases hagrees with
  | map keys _ => exact absurd keys.length_eq (by decide)

end QuickBeam.Convert
