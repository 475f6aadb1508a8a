import QuickBeam.Lib.Assoc
import QuickBeam.Lib.Transition

/-!
# Header lists (`headers.ts`, `fetch.ts`)

A `Headers` object maps names to arrays of values, which `append` extends in place; so the arrays
have addresses here.  `new Headers(h)`, and with it `clone` of requests and responses, goes through
the iterator of `h`, whose values are joined.  The order in which a map has its names is never seen:
the iterator sorts them.

Texts are lists of code units.
-/

namespace QuickBeam.Web

open QuickBeam.Lib

abbrev Text := List ℕ

structure ToLowerCase where
  apply : Text → Text
  idempotent : ∀ name, apply (apply name) = apply name

namespace Headers

/-! ### Objects and arrays -/

structure State where
  arrays : List (List Text)
  /-- The maps of the objects, with addresses for the arrays. -/
  objects : List (Assoc Text ℕ)

def initial : State := ⟨[], []⟩

def join (values : List Text) : Text := [0x2C, 0x20].intercalate values

def setCookie : Text := [0x73, 0x65, 0x74, 0x2D, 0x63, 0x6F, 0x6F, 0x6B, 0x69, 0x65]

theorem join_singleton (v : Text) : join [v] = v := by
  unfold join List.intercalate
  rw [List.intersperse_singleton, List.flatten_singleton]

section

variable (lower : ToLowerCase) (s : State) (i : ℕ)

def address (key : Text) : Option ℕ := s.objects[i]?.bind fun map => map.get? key

/-- `#map.get(key)`. -/
def values (key : Text) : Option (List Text) := (address s i key).bind fun r => s.arrays[r]?

def append (name value : Text) : State :=
  let key := lower.apply name
  match address s i key with
  | some r => { s with arrays := s.arrays.modify r (· ++ [value]) }
  | none => {
      arrays := s.arrays ++ [[value]]
      objects := s.objects.modify i (·.put key s.arrays.length) }

def set (name value : Text) : State :=
  { arrays := s.arrays ++ [[value]]
    objects := s.objects.modify i (·.put (lower.apply name) s.arrays.length) }

def delete (name : Text) : State :=
  { s with objects := s.objects.modify i (·.delete (lower.apply name)) }

def get (name : Text) : Option Text := (values s i (lower.apply name)).map join

def has (name : Text) : Bool := (address s i (lower.apply name)).isSome

def getSetCookie : List Text := (values s i setCookie).getD []

def keys : List Text :=
  ((s.objects[i]?.map AList.keys).getD []).mergeSort fun a b => decide (a ≤ b)

def entries : List (Text × Text) :=
  (keys s i).map fun key => (key, ((values s i key).map join).getD [])

/-- `new Headers(h)`. -/
def copy : State :=
  (entries s i).foldl (fun t entry => append lower t s.objects.length entry.1 entry.2)
    { s with objects := s.objects ++ [∅] }

end

/-! ### Steps -/

inductive Event where
  /-- `new Headers()`. -/
  | create
  | append (i : ℕ) (name value : Text)
  | set (i : ℕ) (name value : Text)
  | delete (i : ℕ) (name : Text)
  | copy (i : ℕ)

def Event.target : Event → Option ℕ
  | .append i _ _ | .set i _ _ | .delete i _ => some i
  | .create | .copy _ => none

def step (lower : ToLowerCase) (s : State) : Event → Option State
  | .create => some { s with objects := s.objects ++ [∅] }
  | .append i name value => if i < s.objects.length then some (append lower s i name value) else none
  | .set i name value => if i < s.objects.length then some (set lower s i name value) else none
  | .delete i name => if i < s.objects.length then some (delete lower s i name) else none
  | .copy i => if i < s.objects.length then some (copy lower s i) else none

def machine (lower : ToLowerCase) : Machine State Event where
  init s := s = initial
  step := step lower

/-! ### What is seen of an object -/

/-- What the methods give; `forEach` and the other iterators go over the same entries. -/
structure Observed where
  get : Text → Option Text
  has : Text → Bool
  entries : List (Text × Text)
  keys : List Text
  getSetCookie : List Text

def observe (lower : ToLowerCase) (s : State) (i : ℕ) : Observed where
  get := get lower s i
  has := has lower s i
  entries := entries s i
  keys := keys s i
  getSetCookie := getSetCookie s i

/-- The copy that leads from `s` to `s'` looks like the object `i`, and changes of other objects are
not seen in an object. -/
structure Survives (lower : ToLowerCase) (s s' : State) (i : ℕ) : Prop where
  same : observe lower s' s.objects.length = observe lower s i
  independent : ∀ es t, (machine lower).exec s' es = some t → ∀ j < s'.objects.length,
    (∀ e ∈ es, e.target ≠ some j) → observe lower t j = observe lower s' j

/-! ### The addresses -/

structure Invariant (lower : ToLowerCase) (s : State) : Prop where
  /-- No two names share an array. -/
  apart : ∀ i j k l r, address s i k = some r → address s j l = some r → i = j ∧ k = l
  bound : ∀ i k r, address s i k = some r → r < s.arrays.length
  nonempty : ∀ values ∈ s.arrays, values ≠ []
  lowered : ∀ i k r, address s i k = some r → lower.apply k = k

theorem mem_keys {s : State} {i : ℕ} {k : Text} : k ∈ keys s i ↔ (address s i k).isSome := by
  unfold keys address
  rw [(List.mergeSort_perm _ _).mem_iff]
  cases s.objects[i]? with
  | none => exact ⟨nofun, nofun⟩
  | some map =>
    show k ∈ map.keys ↔ (map.lookup k).isSome
    rw [AList.lookup_isSome]
    rfl

theorem nodup_keys (s : State) (i : ℕ) : (keys s i).Nodup := by
  refine (List.mergeSort_perm _ _).nodup_iff.2 ?_
  cases s.objects[i]? with
  | none => exact .nil
  | some map => exact map.keys_nodup

theorem keys_congr {s s' : State} {i j : ℕ}
    (h : ∀ k, (address s i k).isSome = (address s' j k).isSome) : keys s i = keys s' j := by
  have hsorted : ∀ l : List Text, (l.mergeSort fun a b => decide (a ≤ b)).Pairwise (· ≤ ·) := by
    intro l
    have htrans : ∀ a b c : Text, decide (a ≤ b) = true → decide (b ≤ c) = true → decide (a ≤ c) = true :=
      fun a b c hab hbc => decide_eq_true (le_trans (of_decide_eq_true hab) (of_decide_eq_true hbc))
    have htotal : ∀ a b : Text, (decide (a ≤ b) || decide (b ≤ a)) = true := by
      intro a b
      rw [Bool.or_eq_true, decide_eq_true_eq, decide_eq_true_eq]
      exact le_total a b
    exact (List.pairwise_mergeSort htrans htotal l).imp fun hle => of_decide_eq_true hle
  refine List.Perm.eq_of_pairwise (fun _ _ _ _ => le_antisymm) (hsorted _) (hsorted _) ?_
  refine (List.perm_ext_iff_of_nodup (nodup_keys s i) (nodup_keys s' j)).2 fun k => ?_
  rw [mem_keys, mem_keys, h]

/-! ### What one method changes -/

section Methods

variable {lower : ToLowerCase} {s : State} {i : ℕ}

theorem address_put (hi : i < s.objects.length) (arrays : List (List Text)) (key : Text) (r j : ℕ)
    (k : Text) : address ⟨arrays, s.objects.modify i (·.put key r)⟩ j k =
      if j = i ∧ k = key then some r else address s j k := by
  show ((s.objects.modify i (·.put key r))[j]?.bind fun map => map.get? k) = _
  by_cases hj : j = i
  · subst hj
    rw [List.getElem?_modify_eq, address, List.getElem?_eq_getElem hi]
    show (s.objects[j].put key r).get? k = if j = j ∧ k = key then some r else s.objects[j].get? k
    rw [Assoc.get?_put_eq]
    exact if_congr (by rw [eq_self_iff_true, true_and]) rfl rfl
  · rw [List.getElem?_modify_ne _ _ fun h => hj h.symm, if_neg fun h => hj h.1]
    rfl

theorem address_delete (arrays : List (List Text)) (key : Text) (j : ℕ) (k : Text) :
    address ⟨arrays, s.objects.modify i (·.delete key)⟩ j k =
      if j = i ∧ k = key then none else address s j k := by
  show ((s.objects.modify i (·.delete key))[j]?.bind fun map => map.get? k) = _
  rw [List.getElem?_modify, address]
  cases s.objects[j]? with
  | none => exact (ite_self _).symm
  | some map =>
    show (if i = j then map.delete key else map).get? k = if j = i ∧ k = key then none else map.get? k
    by_cases hj : i = j
    · rw [if_pos hj, Assoc.get?_delete_eq]
      exact if_congr (by rw [and_iff_right hj.symm]) rfl rfl
    · rw [if_neg hj, if_neg fun h => hj h.1.symm]

theorem address_create (j : ℕ) (k : Text) :
    address { s with objects := s.objects ++ [∅] } j k = address s j k := by
  unfold address
  rcases Nat.lt_trichotomy j s.objects.length with hlt | rfl | hgt
  · show ((s.objects ++ [∅])[j]?.bind _) = _
    rw [List.getElem?_append_left hlt]
  · show ((s.objects ++ [∅])[s.objects.length]?.bind _) = _
    rw [List.getElem?_concat_length, List.getElem?_eq_none le_rfl]
    rfl
  · show ((s.objects ++ [∅])[j]?.bind _) = _
    rw [List.getElem?_eq_none (by rw [List.length_append, List.length_singleton]; omega),
      List.getElem?_eq_none hgt.le]

theorem values_isSome (h : Invariant lower s) (k : Text) :
    (values s i k).isSome = (address s i k).isSome := by
  unfold values
  cases haddress : address s i k with
  | none => rfl
  | some r =>
    show (s.arrays[r]?).isSome = true
    rw [List.getElem?_eq_getElem (h.bound i k r haddress)]
    rfl

theorem Invariant.put (h : Invariant lower s) (hi : i < s.objects.length) (name value : Text) :
    Invariant lower ⟨s.arrays ++ [[value]],
      s.objects.modify i (·.put (lower.apply name) s.arrays.length)⟩ where
  apart j₁ j₂ k₁ k₂ r := by
    rw [address_put hi, address_put hi]
    split <;> split
    · rename_i h₁ h₂
      exact fun _ _ => ⟨h₁.1.trans h₂.1.symm, h₁.2.trans h₂.2.symm⟩
    · intro h₁ h₂
      have hlt := h.bound _ _ _ h₂
      rw [← Option.some.inj h₁] at hlt
      exact absurd hlt (lt_irrefl _)
    · intro h₁ h₂
      have hlt := h.bound _ _ _ h₁
      rw [← Option.some.inj h₂] at hlt
      exact absurd hlt (lt_irrefl _)
    · exact h.apart j₁ j₂ k₁ k₂ r
  bound j k r := by
    show _ → r < (s.arrays ++ [[value]]).length
    rw [address_put hi, List.length_append, List.length_singleton]
    split
    · intro hr
      rw [← Option.some.inj hr]
      exact Nat.lt_succ_self _
    · exact fun hr => Nat.lt_succ_of_lt (h.bound j k r hr)
  nonempty := List.forall_mem_append.2 ⟨h.nonempty, List.forall_mem_singleton.2 (List.cons_ne_nil _ _)⟩
  lowered j k r := by
    rw [address_put hi]
    split
    · rename_i hkey
      intro _
      rw [hkey.2, lower.idempotent]
    · exact h.lowered j k r

theorem values_put (h : Invariant lower s) (hi : i < s.objects.length) (key value : Text) (j : ℕ)
    (k : Text) : values ⟨s.arrays ++ [[value]], s.objects.modify i (·.put key s.arrays.length)⟩ j k =
      if j = i ∧ k = key then some [value] else values s j k := by
  unfold values
  rw [address_put hi]
  split
  · exact List.getElem?_concat_length
  · cases haddress : address s j k with
    | none => rfl
    | some r => exact List.getElem?_append_left (h.bound j k r haddress)

theorem Invariant.append (h : Invariant lower s) (hi : i < s.objects.length) (name value : Text) :
    Invariant lower (append lower s i name value) := by
  unfold Headers.append
  dsimp only
  cases haddress : address s i (lower.apply name) with
  | none => exact h.put hi name value
  | some r =>
    refine ⟨h.apart, fun j k q hq => ?_, fun vs hvs => ?_, h.lowered⟩
    · show q < (s.arrays.modify r _).length
      rw [List.length_modify]
      exact h.bound j k q hq
    · obtain ⟨q, hq⟩ := List.getElem?_of_mem hvs
      rw [List.getElem?_modify] at hq
      obtain ⟨old, hold, rfl⟩ := Option.map_eq_some_iff.1 hq
      split
      · exact List.append_ne_nil_of_right_ne_nil _ (List.cons_ne_nil _ _)
      · exact h.nonempty old (List.mem_of_getElem? hold)

/-- **What `append` changes.** -/
theorem values_append (h : Invariant lower s) (hi : i < s.objects.length) (name value : Text) (j : ℕ)
    (k : Text) : values (Headers.append lower s i name value) j k =
      if j = i ∧ k = lower.apply name then some ((values s i k).getD [] ++ [value])
      else values s j k := by
  unfold Headers.append
  dsimp only
  cases haddress : address s i (lower.apply name) with
  | none =>
    dsimp only
    rw [values_put h hi]
    split
    · rename_i hkey
      rw [values, hkey.2, haddress]
      rfl
    · rfl
  | some r =>
    show (address s j k).bind (fun q => (s.arrays.modify r (· ++ [value]))[q]?) = _
    have hr := List.getElem?_eq_getElem (h.bound i _ r haddress)
    split
    · rename_i hkey
      rw [hkey.1, hkey.2, values, haddress]
      show (s.arrays.modify r (· ++ [value]))[r]? = some ((s.arrays[r]?).getD [] ++ [value])
      rw [List.getElem?_modify, hr]
      show some (if r = r then _ else _) = _
      rw [if_pos rfl]
      rfl
    · rename_i hkey
      unfold values
      cases hother : address s j k with
      | none => rfl
      | some q =>
        have hne : r ≠ q := by
          rintro rfl
          exact hkey (h.apart j i k _ r hother haddress)
        show (s.arrays.modify r (· ++ [value]))[q]? = s.arrays[q]?
        rw [List.getElem?_modify_ne _ _ hne]

theorem length_append (name value : Text) :
    (Headers.append lower s i name value).objects.length = s.objects.length := by
  unfold Headers.append
  dsimp only
  cases address s i (lower.apply name) with
  | none => exact List.length_modify ..
  | some r => rfl

theorem Invariant.delete (h : Invariant lower s) (name : Text) :
    Invariant lower (Headers.delete lower s i name) := by
  have hold : ∀ {j k r}, address (Headers.delete lower s i name) j k = some r →
      address s j k = some r := by
    intro j k r hr
    unfold Headers.delete at hr
    rw [address_delete] at hr
    split at hr
    · cases hr
    · exact hr
  exact ⟨fun j₁ j₂ k₁ k₂ r h₁ h₂ => h.apart j₁ j₂ k₁ k₂ r (hold h₁) (hold h₂),
    fun j k r hr => h.bound j k r (hold hr), h.nonempty, fun j k r hr => h.lowered j k r (hold hr)⟩

theorem values_delete (name : Text) (j : ℕ) (k : Text) :
    values (Headers.delete lower s i name) j k =
      if j = i ∧ k = lower.apply name then none else values s j k := by
  unfold values Headers.delete
  rw [address_delete]
  split <;> rfl

theorem Invariant.create (h : Invariant lower s) :
    Invariant lower { s with objects := s.objects ++ [∅] } where
  __ := h
  apart j₁ j₂ k₁ k₂ r := by
    rw [address_create, address_create]
    exact h.apart j₁ j₂ k₁ k₂ r
  bound j k r := by
    rw [address_create]
    exact h.bound j k r
  lowered j k r := by
    rw [address_create]
    exact h.lowered j k r

end Methods

/-! ### Copies -/

section Copies

variable {lower : ToLowerCase} {s : State} {i : ℕ}

theorem append_all (n : ℕ) :
    ∀ (es : List (Text × Text)) {t : State}, Invariant lower t → n < t.objects.length →
      (∀ e ∈ es, lower.apply e.1 = e.1) → (es.map Prod.fst).Nodup →
      (∀ e ∈ es, values t n e.1 = none) →
      let t' := es.foldl (fun t e => Headers.append lower t n e.1 e.2) t
      Invariant lower t' ∧ t'.objects.length = t.objects.length ∧
        ∀ j k, values t' j k =
          if j = n then ((es.lookup k).map fun v => [v]).or (values t n k) else values t j k
  | [], t, h, hn, _, _, _ => by
    refine ⟨h, rfl, fun j k => ?_⟩
    split
    · rename_i hj
      rw [hj]
      rfl
    · rfl
  | (key, v) :: es, t, h, hn, hlower, hnodup, hnew => by
    obtain ⟨hkey, hrest⟩ := List.forall_mem_cons.1 hlower
    obtain ⟨hfresh, hnodup⟩ := List.nodup_cons.1 hnodup
    obtain ⟨hnone, hnew⟩ := List.forall_mem_cons.1 hnew
    have hvalues := values_append h hn key v
    have hother : ∀ e ∈ es, values (Headers.append lower t n key v) n e.1 = none := by
      intro e he
      rw [hvalues, if_neg, hnew e he]
      rintro ⟨-, heq⟩
      exact hfresh (List.mem_map.2 ⟨e, he, heq.trans hkey⟩)
    obtain ⟨hinv, hlen, hall⟩ := append_all n es (h.append hn key v) (by rwa [length_append]) hrest
      hnodup hother
    refine ⟨hinv, hlen.trans (length_append ..), fun j k => ?_⟩
    rw [List.foldl_cons, hall, hvalues, hvalues, hkey]
    by_cases hj : j = n
    · subst hj
      rw [if_pos rfl, if_pos rfl, List.lookup_cons]
      by_cases hk : k = key
      · subst hk
        have hlookup : es.lookup k = none := by
          refine List.lookup_eq_none_iff.2 fun e he => ?_
          exact bne_iff_ne.2 fun heq => hfresh (List.mem_map.2 ⟨e, he, heq.symm⟩)
        rw [hlookup, beq_self_eq_true, if_pos ⟨rfl, rfl⟩, hnone]
        rfl
      · rw [beq_false_of_ne hk, if_neg fun h => hk h.2]
    · rw [if_neg hj, if_neg hj, if_neg fun h => hj h.1]

theorem lookup_entries (h : Invariant lower s) (k : Text) :
    (entries s i).lookup k = (values s i k).map join := by
  by_cases hk : k ∈ keys s i
  · unfold entries
    rw [List.lookup_graph _ hk]
    rw [mem_keys, ← values_isSome h] at hk
    obtain ⟨vs, hvs⟩ := Option.isSome_iff_exists.1 hk
    rw [hvs]
    rfl
  · have hnone : values s i k = none := by
      rw [← Option.not_isSome_iff_eq_none, values_isSome h, ← mem_keys]
      exact hk
    rw [hnone]
    refine List.lookup_eq_none_iff.2 fun e he => bne_iff_ne.2 ?_
    rintro rfl
    obtain ⟨key, hkey, rfl⟩ := List.mem_map.1 he
    exact hk hkey

/-- **What a copy has**: each value list is joined. -/
theorem values_copy (h : Invariant lower s) :
    Invariant lower (copy lower s i) ∧ (copy lower s i).objects.length = s.objects.length + 1 ∧
      ∀ j k, values (copy lower s i) j k =
        if j = s.objects.length then (values s i k).map fun vs => [join vs] else values s j k := by
  have hlen : (s.objects ++ [(∅ : Assoc Text ℕ)]).length = s.objects.length + 1 := by
    rw [List.length_append, List.length_singleton]
  have hold : ∀ j k, values { s with objects := s.objects ++ [∅] } j k = values s j k := by
    intro j k
    unfold values
    rw [address_create]
  have hbeyond : ∀ k, values s s.objects.length k = none := by
    intro k
    unfold values address
    rw [List.getElem?_eq_none le_rfl]
    rfl
  have hkeys : (entries s i).map Prod.fst = keys s i := by
    unfold entries
    rw [List.map_map]
    exact List.map_id _
  have hlower : ∀ e ∈ entries s i, lower.apply e.1 = e.1 := by
    intro e he
    have hmem : e.1 ∈ keys s i := hkeys ▸ List.mem_map_of_mem he
    obtain ⟨r, hr⟩ := Option.isSome_iff_exists.1 (mem_keys.1 hmem)
    exact h.lowered i e.1 r hr
  obtain ⟨hinv, hlength, hall⟩ := append_all s.objects.length (entries s i) h.create
    (by rw [hlen]; exact Nat.lt_succ_self _) hlower (hkeys ▸ nodup_keys s i)
    (fun e _ => (hold _ _).trans (hbeyond _))
  refine ⟨hinv, hlength.trans hlen, fun j k => (hall j k).trans ?_⟩
  rw [hold, hold, hbeyond, Option.or_none, lookup_entries h, Option.map_map]
  rfl

theorem Invariant.step (h : Invariant lower s) {s' : State} {e : Event}
    (hstep : Headers.step lower s e = some s') : Invariant lower s' := by
  cases e with
  | create =>
    cases hstep
    exact h.create
  | append j name value =>
    obtain ⟨hj, ⟨⟩⟩ := Option.ite_none_right_eq_some.1 hstep
    exact h.append hj name value
  | set j name value =>
    obtain ⟨hj, ⟨⟩⟩ := Option.ite_none_right_eq_some.1 hstep
    exact h.put hj name value
  | delete j name =>
    obtain ⟨-, ⟨⟩⟩ := Option.ite_none_right_eq_some.1 hstep
    exact h.delete name
  | copy j =>
    obtain ⟨-, ⟨⟩⟩ := Option.ite_none_right_eq_some.1 hstep
    exact (values_copy h).1

theorem invariant_initial : Invariant lower initial where
  apart _ _ _ _ _ := nofun
  bound _ _ _ := nofun
  nonempty := List.forall_mem_nil _
  lowered _ _ _ := nofun

theorem values_step (h : Invariant lower s) {s' : State} {e : Event}
    (hstep : Headers.step lower s e = some s') {j : ℕ} (hj : j < s.objects.length)
    (htarget : e.target ≠ some j) : j < s'.objects.length ∧ ∀ k, values s' j k = values s j k := by
  cases e with
  | create =>
    cases hstep
    refine ⟨Nat.lt_of_lt_of_le hj ?_, fun k => ?_⟩
    · show _ ≤ (s.objects ++ [∅]).length
      rw [List.length_append]
      exact Nat.le_add_right ..
    · unfold values
      rw [address_create]
  | append i name value =>
    obtain ⟨hi, ⟨⟩⟩ := Option.ite_none_right_eq_some.1 hstep
    refine ⟨by rwa [length_append], fun k => ?_⟩
    rw [values_append h hi, if_neg fun hsame => htarget (congrArg some hsame.1.symm)]
  | set i name value =>
    obtain ⟨hi, ⟨⟩⟩ := Option.ite_none_right_eq_some.1 hstep
    refine ⟨hj.trans_eq (List.length_modify ..).symm, fun k => ?_⟩
    refine (values_put h hi _ value j k).trans ?_
    rw [if_neg fun hsame => htarget (congrArg some hsame.1.symm)]
  | delete i name =>
    obtain ⟨-, ⟨⟩⟩ := Option.ite_none_right_eq_some.1 hstep
    refine ⟨hj.trans_eq (List.length_modify ..).symm, fun k => ?_⟩
    rw [values_delete, if_neg fun hsame => htarget (congrArg some hsame.1.symm)]
  | copy i =>
    obtain ⟨-, ⟨⟩⟩ := Option.ite_none_right_eq_some.1 hstep
    obtain ⟨-, hlen, hall⟩ := values_copy (i := i) h
    refine ⟨by omega, fun k => ?_⟩
    rw [hall, if_neg hj.ne]

end Copies

/-! ### What is seen -/

section Seen

variable {lower : ToLowerCase} {s s' : State} {i j : ℕ}

theorem observe_iff (h : Invariant lower s) (h' : Invariant lower s')
    (hjoin : ∀ k, (values s i k).map join = (values s' j k).map join) :
    observe lower s i = observe lower s' j ↔ getSetCookie s i = getSetCookie s' j := by
  have haddress : ∀ k, (address s i k).isSome = (address s' j k).isSome := by
    intro k
    rw [← values_isSome h, ← values_isSome h', ← Option.isSome_map, hjoin, Option.isSome_map]
  have hkeys := keys_congr haddress
  have hentries : entries s i = entries s' j := by
    unfold entries
    rw [hkeys]
    exact List.map_congr_left fun k _ => by rw [hjoin]
  refine ⟨fun hobserve => congrArg Observed.getSetCookie hobserve, fun hcookies => ?_⟩
  unfold observe
  rw [hcookies, hkeys, hentries, funext fun name => show get lower s i name = get lower s' j name from
    hjoin _, funext fun name => show has lower s i name = has lower s' j name from haddress _]

theorem observe_congr (h : Invariant lower s) (h' : Invariant lower s')
    (hvalues : ∀ k, values s i k = values s' j k) : observe lower s i = observe lower s' j := by
  refine (observe_iff h h' fun k => by rw [hvalues]).2 ?_
  unfold getSetCookie
  rw [hvalues]

theorem values_exec (h : Invariant lower s) {es : List Event}
    (hexec : (machine lower).exec s es = some s') (hj : j < s.objects.length)
    (htarget : ∀ e ∈ es, e.target ≠ some j) :
    Invariant lower s' ∧ ∀ k, values s' j k = values s j k := by
  induction es generalizing s with
  | nil =>
    cases hexec
    exact ⟨h, fun _ => rfl⟩
  | cons e es ih =>
    obtain ⟨t, hstep, hrest⟩ := Option.bind_eq_some_iff.1 hexec
    obtain ⟨hfirst, hothers⟩ := List.forall_mem_cons.1 htarget
    obtain ⟨hlt, hvalues⟩ := values_step h hstep hj hfirst
    obtain ⟨hinv, hrun⟩ := ih (h.step hstep) hrest hlt hothers
    exact ⟨hinv, fun k => (hrun k).trans (hvalues k)⟩

/-- **A copy survives exactly if the object has at most one `Set-Cookie` value.** -/
theorem survives_iff (hs : (machine lower).Reachable s)
    (hstep : (machine lower).step s (.copy i) = some s') :
    Survives lower s s' i ↔ (getSetCookie s i).length ≤ 1 := by
  have h : Invariant lower s := Machine.Reachable.invariant (by rintro _ rfl; exact invariant_initial)
    (fun _ _ _ ht htstep => ht.step htstep) hs
  obtain ⟨-, ⟨⟩⟩ := Option.ite_none_right_eq_some.1 hstep
  obtain ⟨hcopy, -, hvalues⟩ := values_copy (i := i) h
  have hjoin : ∀ k, (values (copy lower s i) s.objects.length k).map join = (values s i k).map join := by
    intro k
    rw [hvalues, if_pos rfl, Option.map_map]
    exact congrArg (fun f => (values s i k).map f) (funext fun vs => join_singleton (join vs))
  have hcookies : getSetCookie (copy lower s i) s.objects.length = getSetCookie s i ↔
      (getSetCookie s i).length ≤ 1 := by
    unfold getSetCookie
    rw [hvalues, if_pos rfl]
    cases hcookie : values s i setCookie with
    | none => exact ⟨fun _ => Nat.zero_le _, fun _ => rfl⟩
    | some vs =>
      obtain ⟨r, -, hr⟩ := Option.bind_eq_some_iff.1 hcookie
      have hne := h.nonempty vs (List.mem_of_getElem? hr)
      show [join vs] = vs ↔ vs.length ≤ 1
      constructor
      · intro heq
        rw [← heq]
        exact le_rfl
      · intro hle
        obtain ⟨v, rfl⟩ := List.length_eq_one_iff.1 (show vs.length = 1 from
          Nat.le_antisymm hle (List.length_pos_iff.2 hne))
        rw [join_singleton]
  constructor
  · exact fun hsurvives => hcookies.1 ((observe_iff hcopy h hjoin).1 hsurvives.same)
  · intro hle
    refine ⟨(observe_iff hcopy h hjoin).2 (hcookies.2 hle), fun es t hexec j hj htarget => ?_⟩
    obtain ⟨ht, hrun⟩ := values_exec hcopy hexec hj htarget
    exact observe_congr ht hcopy hrun

end Seen

def asciiLower : ToLowerCase where
  apply := List.map fun c => if 65 ≤ c ∧ c ≤ 90 then c + 32 else c
  idempotent name := by
    rw [List.map_map]
    refine List.map_congr_left fun c _ => ?_
    dsimp only [Function.comp]
    split_ifs <;> omega

def withCookies (cookies : List Text) : List Event :=
  .create :: cookies.map fun value => .append 0 setCookie value

/-- A copy of an object with one cookie. -/
theorem survives_one :
    ∃ s s', (machine asciiLower).exec initial (withCookies [[1]]) = some s ∧
      (machine asciiLower).step s (.copy 0) = some s' ∧ getSetCookie s 0 = [[1]] ∧
      Survives asciiLower s s' 0 := by
  have hrun : ((machine asciiLower).exec initial (withCookies [[1]])).map (fun s =>
      (getSetCookie s 0, ((machine asciiLower).step s (.copy 0)).isSome)) = some ([[1]], true) := by
    decide +kernel
  obtain ⟨s, hexec, hs⟩ := Option.map_eq_some_iff.1 hrun
  obtain ⟨hcookies, hstep⟩ := Prod.mk.inj hs
  obtain ⟨s', hstep⟩ := Option.isSome_iff_exists.1 hstep
  refine ⟨s, s', hexec, hstep, hcookies, ?_⟩
  exact (survives_iff (Machine.reachable_of_exec rfl hexec) hstep).2 (by rw [hcookies]; exact le_rfl)

/-- Two cookies are joined by a copy. -/
theorem cookies_joined :
    ¬ ∀ s s' i, (machine asciiLower).Reachable s → (machine asciiLower).step s (.copy i) = some s' →
      Survives asciiLower s s' i := by
  intro h
  have hrun : ((machine asciiLower).exec initial (withCookies [[1], [2]])).bind (fun s =>
      ((machine asciiLower).step s (.copy 0)).map fun s' =>
        decide (getSetCookie s' s.objects.length = getSetCookie s 0)) = some false := by
    decide +kernel
  obtain ⟨s, hexec, hs⟩ := Option.bind_eq_some_iff.1 hrun
  obtain ⟨s', hstep, hdiffer⟩ := Option.map_eq_some_iff.1 hs
  have hsurvives := h s s' 0 (Machine.reachable_of_exec rfl hexec) hstep
  exact of_decide_eq_false hdiffer (congrArg Observed.getSetCookie hsurvives.same)

end Headers

end QuickBeam.Web
