import Mathlib.Data.List.AList
import Mathlib.Algebra.BigOperators.Group.List.Basic
import Mathlib.Tactic

/-!
# Finite maps with decidable keys

Erlang maps, as Mathlib's association lists without duplicate keys (`AList`) at a constant
family.  The operations carry Elixir's names (`get?`, `put`, `delete`, `size`, `hasKey`).

The measure `sumBy f m` adds `f k v` over the entries; counting the entries with a property is
the case of a `0`/`1`-valued `f`, and the number of entries the case `f = 1`.  The two rules
that keep a redundant counter equal to such a measure are `sumBy_put_new` and `sumBy_delete`.
-/

namespace QuickBeam.Lib

/-- A finite map from `κ` to `ν`. -/
abbrev Assoc (κ ν : Type*) := AList fun _ : κ => ν

namespace Assoc

variable {κ ν : Type*} [DecidableEq κ]

def get? (m : Assoc κ ν) (k : κ) : Option ν := m.lookup k

def put (m : Assoc κ ν) (k : κ) (v : ν) : Assoc κ ν := m.insert k v

def delete (m : Assoc κ ν) (k : κ) : Assoc κ ν := m.erase k

def hasKey (m : Assoc κ ν) (k : κ) : Bool := (m.get? k).isSome

def toList {κ ν : Type*} (m : Assoc κ ν) : List (κ × ν) := m.entries.map fun e => (e.1, e.2)

def size {κ ν : Type*} (m : Assoc κ ν) : ℕ := m.entries.length

def sumBy {κ ν : Type*} (f : κ → ν → ℕ) (m : Assoc κ ν) : ℕ :=
  (m.entries.map fun e => f e.1 e.2).sum

/-! ### Reading back -/

@[simp] theorem get?_empty (k : κ) : (∅ : Assoc κ ν).get? k = none := rfl

@[simp] theorem get?_put (m : Assoc κ ν) (k : κ) (v : ν) : (m.put k v).get? k = some v :=
  AList.lookup_insert m

theorem get?_put_ne (m : Assoc κ ν) {k j : κ} (v : ν) (h : j ≠ k) :
    (m.put k v).get? j = m.get? j := AList.lookup_insert_ne h

theorem get?_put_eq (m : Assoc κ ν) (k j : κ) (v : ν) :
    (m.put k v).get? j = if j = k then some v else m.get? j := by
  split
  · rename_i h; rw [h, get?_put]
  · rename_i h; exact get?_put_ne m v h

@[simp] theorem get?_delete (m : Assoc κ ν) (k : κ) : (m.delete k).get? k = none :=
  AList.lookup_erase k m

theorem get?_delete_ne (m : Assoc κ ν) {k j : κ} (h : j ≠ k) :
    (m.delete k).get? j = m.get? j := AList.lookup_erase_ne h

theorem get?_delete_eq (m : Assoc κ ν) (k j : κ) :
    (m.delete k).get? j = if j = k then none else m.get? j := by
  split
  · rename_i h; rw [h, get?_delete]
  · rename_i h; exact get?_delete_ne m h

theorem get?_of_delete {m : Assoc κ ν} {k j : κ} {v : ν} (h : (m.delete k).get? j = some v) :
    m.get? j = some v := by
  rw [get?_delete_eq] at h
  split at h
  · cases h
  · exact h

theorem get?_put_cases {m : Assoc κ ν} {k j : κ} {v w : ν} (h : (m.put k v).get? j = some w) :
    j = k ∧ w = v ∨ j ≠ k ∧ m.get? j = some w := by
  rw [get?_put_eq] at h
  split at h
  · rename_i hj
    exact .inl ⟨hj, (Option.some.inj h).symm⟩
  · rename_i hj
    exact .inr ⟨hj, h⟩

@[simp] theorem put_put (m : Assoc κ ν) (k : κ) (v w : ν) : (m.put k v).put k w = m.put k w :=
  AList.insert_insert m

theorem exists_get?_put_iff {P : ν → Prop} {m : Assoc κ ν} {k : κ} {v w : ν}
    (hk : m.get? k = some v) (hP : P w ↔ P v) (j : κ) :
    (∃ x, (m.put k w).get? j = some x ∧ P x) ↔ ∃ x, m.get? j = some x ∧ P x := by
  by_cases hj : j = k
  · subst hj
    simp only [get?_put, hk, Option.some.injEq, exists_eq_left', hP]
  · simp only [get?_put_ne m w hj]

theorem mem_toList {m : Assoc κ ν} {k : κ} {v : ν} : (k, v) ∈ m.toList ↔ m.get? k = some v := by
  rw [toList, List.mem_map, get?, ← Option.mem_def, AList.mem_lookup_iff]
  constructor
  · rintro ⟨⟨a, b⟩, hm, he⟩
    cases he
    exact hm
  · exact fun h => ⟨⟨k, v⟩, h, rfl⟩

theorem nodup_keys_toList {κ ν : Type*} (m : Assoc κ ν) : (m.toList.map Prod.fst).Nodup := by
  have h : m.toList.map Prod.fst = m.keys := by
    rw [toList, List.map_map]
    rfl
  exact h ▸ m.nodupKeys

theorem length_toList {κ ν : Type*} (m : Assoc κ ν) : m.toList.length = m.size :=
  List.length_map _

theorem hasKey_iff {m : Assoc κ ν} {k : κ} : m.hasKey k = true ↔ ∃ v, m.get? k = some v := by
  rw [hasKey, Option.isSome_iff_exists]

theorem delete_of_get?_none {m : Assoc κ ν} {k : κ} (h : m.get? k = none) : m.delete k = m := by
  apply AList.ext
  exact List.kerase_of_notMem_keys (AList.lookup_eq_none.1 h)

def filterKeys {κ ν : Type*} (p : κ → Bool) (m : Assoc κ ν) : Assoc κ ν :=
  ⟨m.entries.filter fun e => p e.1, m.nodupKeys.sublist List.filter_sublist⟩

theorem get?_filterKeys (p : κ → Bool) (m : Assoc κ ν) (k : κ) :
    (m.filterKeys p).get? k = if p k then m.get? k else none := by
  apply Option.ext
  intro v
  have hmem : (m.filterKeys p).get? k = some v ↔ p k = true ∧ m.get? k = some v := by
    rw [get?, get?, ← Option.mem_def, ← Option.mem_def, AList.mem_lookup_iff, AList.mem_lookup_iff]
    exact List.mem_filter.trans And.comm
  rw [hmem]
  split
  · rename_i hp
    exact ⟨And.right, fun h => ⟨hp, h⟩⟩
  · rename_i hp
    exact ⟨fun h => absurd h.1 hp, fun h => by cases h⟩

theorem get?_foldl_delete (ks : List κ) (m : Assoc κ ν) (j : κ) :
    (ks.foldl delete m).get? j = if j ∈ ks then none else m.get? j := by
  induction ks generalizing m with
  | nil => rfl
  | cons k ks ih =>
    rw [List.foldl_cons, ih, get?_delete_eq]
    by_cases hj : j = k
    · simp [hj]
    · simp [hj]

/-! ### Measures -/

theorem sumBy_empty {κ ν : Type*} (f : κ → ν → ℕ) : sumBy f (∅ : Assoc κ ν) = 0 := rfl

theorem size_eq_sumBy {κ ν : Type*} (m : Assoc κ ν) : m.size = sumBy (fun _ _ => 1) m := by
  simp [size, sumBy]

private theorem sum_kerase (f : κ → ν → ℕ) (k : κ) (v : ν) :
    ∀ l : List (Sigma fun _ : κ => ν), l.dlookup k = some v →
      (l.map fun e => f e.1 e.2).sum = ((l.kerase k).map fun e => f e.1 e.2).sum + f k v
  | [], h => by cases h
  | e :: l, h => by
    by_cases he : k = e.1
    · obtain ⟨a, b⟩ := e
      subst he
      rw [List.dlookup_cons_eq] at h
      cases h
      rw [show List.kerase k (⟨k, v⟩ :: l) = l from List.kerase_cons_eq rfl, List.map_cons,
        List.sum_cons, Nat.add_comm]
    · rw [List.dlookup_cons_ne _ _ he] at h
      rw [List.kerase_cons_ne he, List.map_cons, List.map_cons, List.sum_cons, List.sum_cons,
        sum_kerase f k v l h]
      omega

theorem sumBy_delete (f : κ → ν → ℕ) {m : Assoc κ ν} {k : κ} {v : ν} (h : m.get? k = some v) :
    sumBy f m = sumBy f (m.delete k) + f k v :=
  sum_kerase f k v m.entries h

theorem sumBy_put (f : κ → ν → ℕ) (m : Assoc κ ν) (k : κ) (v : ν) :
    sumBy f (m.put k v) = f k v + sumBy f (m.delete k) := rfl

theorem sumBy_put_new (f : κ → ν → ℕ) {m : Assoc κ ν} {k : κ} (v : ν) (h : m.get? k = none) :
    sumBy f (m.put k v) = f k v + sumBy f m := by
  rw [sumBy_put, delete_of_get?_none h]

theorem sumBy_put_same (f : κ → ν → ℕ) {m : Assoc κ ν} {k : κ} {v w : ν}
    (h : m.get? k = some w) (hf : f k v = f k w) : sumBy f (m.put k v) = sumBy f m := by
  rw [sumBy_put, sumBy_delete f h, hf, Nat.add_comm]

theorem sumBy_put_swap (f : κ → ν → ℕ) {m : Assoc κ ν} {k : κ} {v : ν} (w : ν)
    (h : m.get? k = some v) : sumBy f (m.put k w) + f k v = sumBy f m + f k w := by
  rw [sumBy_put, sumBy_delete f h]
  omega

theorem sumBy_eq_zero {f : κ → ν → ℕ} {m : Assoc κ ν} :
    sumBy f m = 0 ↔ ∀ k v, m.get? k = some v → f k v = 0 := by
  simp only [sumBy, List.sum_eq_zero_iff, List.mem_map]
  constructor
  · exact fun h k v hk => h _ ⟨⟨k, v⟩, AList.mem_lookup_iff.1 hk, rfl⟩
  · rintro h x ⟨⟨k, v⟩, he, rfl⟩
    exact h k v (AList.mem_lookup_iff.2 he)

theorem sumBy_le_size {κ ν : Type*} {f : κ → ν → ℕ} {m : Assoc κ ν} (h : ∀ k v, f k v ≤ 1) :
    sumBy f m ≤ m.size := by
  have hle := List.sum_le_card_nsmul (m.entries.map fun e => f e.1 e.2) 1 fun x hx => by
    obtain ⟨e, -, rfl⟩ := List.mem_map.1 hx
    exact h e.1 e.2
  simpa [sumBy, size] using hle

theorem le_sumBy (f : κ → ν → ℕ) {m : Assoc κ ν} {k : κ} {v : ν} (h : m.get? k = some v) :
    f k v ≤ sumBy f m := by
  rw [sumBy_delete f h]; exact Nat.le_add_left _ _

theorem size_eq_zero {m : Assoc κ ν} : m.size = 0 ↔ ∀ k, m.get? k = none := by
  rw [size_eq_sumBy, sumBy_eq_zero]
  constructor
  · intro h k
    cases hk : m.get? k with
    | none => rfl
    | some v => exact absurd (h k v hk) one_ne_zero
  · intro h k v hk
    rw [h] at hk
    cases hk

end Assoc

end QuickBeam.Lib
