import Mathlib

/-!
# Grouping by counting

Items are placed into one table, the items of a key next to each other and in their order: the
groups are laid out by the number of their members, and an item goes behind those of its key that
are placed already (`cells_place`).  When all are placed, the table is the groups one behind the
other (`cells_full`).
-/

namespace QuickBeam.Lib.Grouping

variable {α κ : Type*} [DecidableEq κ] (key : α → κ)

def members (k : κ) (items : List α) : List α := items.filter (key · = k)

/-- The cells of a group: the items that are placed, and room for the others. -/
def group (size : ℕ) (placed : List α) : List (Option α) :=
  placed.map some ++ List.replicate (size - placed.length) none

def cells (size : κ → ℕ) (keys : List κ) (placed : List α) : List (Option α) :=
  keys.flatMap fun k => group (size k) (members key k placed)

def starts (size : κ → ℕ) : ℕ → List κ → List ℕ
  | _, [] => []
  | next, k :: keys => next :: starts size (next + size k) keys

variable {key} {size : κ → ℕ} {keys : List κ} {placed : List α} {x : α}

/-! ### Members -/

theorem members_append_self : members key (key x) (placed ++ [x]) =
    members key (key x) placed ++ [x] := by
  unfold members
  rw [List.filter_append]
  congr 1
  exact List.filter_cons_of_pos (decide_eq_true rfl)

theorem members_append_of_ne {k : κ} (hk : k ≠ key x) :
    members key k (placed ++ [x]) = members key k placed := by
  unfold members
  rw [List.filter_append, List.filter_cons_of_neg fun h => hk (of_decide_eq_true h).symm]
  exact List.append_nil _

theorem members_append (k : κ) (items rest : List α) :
    members key k (items ++ rest) = members key k items ++ members key k rest := List.filter_append ..

omit [DecidableEq κ] in
theorem length_starts (size : κ → ℕ) (keys : List κ) : ∀ next, (starts size next keys).length = keys.length := by
  induction keys with
  | nil => exact fun _ => rfl
  | cons k keys ih => exact fun next => congrArg (· + 1) (ih (next + size k))

/-! ### Placing an item -/

theorem length_group {n : ℕ} (h : placed.length ≤ n) : (group n placed).length = n := by
  unfold group
  rw [List.length_append, List.length_map, List.length_replicate]
  omega

theorem group_place {n : ℕ} (h : placed.length < n) :
    (group n placed)[placed.length]? = some none ∧
      (group n placed).set placed.length (some x) = group n (placed ++ [x]) := by
  obtain ⟨m, hm⟩ : ∃ m, n - placed.length = m + 1 := ⟨n - placed.length - 1, by omega⟩
  have hlength : (placed.map some).length = placed.length := List.length_map ..
  have hgroup : group n placed = placed.map some ++ none :: List.replicate m none := by
    unfold group
    rw [hm]
    rfl
  rw [hgroup]
  constructor
  · rw [List.getElem?_append_right (Nat.le_of_eq hlength), hlength, Nat.sub_self]
    rfl
  · rw [List.set_append_right _ _ (Nat.le_of_eq hlength), hlength, Nat.sub_self]
    unfold group
    have hrest : n - (placed ++ [x]).length = m := by
      rw [List.length_append]
      show n - (placed.length + 1) = m
      omega
    rw [hrest, List.map_append, List.append_assoc]
    rfl

theorem cells_of_not_mem (h : key x ∉ keys) :
    cells key size keys (placed ++ [x]) = cells key size keys placed := by
  induction keys with
  | nil => rfl
  | cons k keys ih =>
    rw [List.mem_cons, not_or] at h
    show group (size k) (members key k (placed ++ [x])) ++ cells key size keys (placed ++ [x]) = _
    rw [members_append_of_ne (Ne.symm h.1), ih h.2]
    rfl

/-- **Placing an item** behind those of its key fills one cell and changes no other. -/
theorem cells_place (hnodup : keys.Nodup)
    (hroom : ∀ k ∈ keys, (members key k placed).length ≤ size k)
    (hfree : (members key (key x) placed).length < size (key x)) {i start : ℕ}
    (hkey : keys[i]? = some (key x)) {next : ℕ} (hstart : (starts size next keys)[i]? = some start) :
    next ≤ start ∧
      (cells key size keys placed)[start - next + (members key (key x) placed).length]? = some none ∧
      (cells key size keys placed).set (start - next + (members key (key x) placed).length) (some x) =
        cells key size keys (placed ++ [x]) := by
  induction keys generalizing i next with
  | nil => cases hkey
  | cons k keys ih =>
    obtain ⟨hnot, hnodup'⟩ := List.nodup_cons.1 hnodup
    obtain ⟨hk, hroom'⟩ := List.forall_mem_cons.1 hroom
    have hlength := length_group hk
    cases i with
    | zero =>
      obtain rfl : k = key x := Option.some.inj hkey
      obtain rfl : next = start := Option.some.inj hstart
      obtain ⟨hget, hset⟩ := @group_place _ _ x _ hfree
      refine ⟨Nat.le_refl _, ?_, ?_⟩
      · show (group _ _ ++ cells key size keys placed)[_]? = _
        rw [Nat.sub_self, Nat.zero_add, List.getElem?_append_left (by omega)]
        exact hget
      · show (group _ _ ++ cells key size keys placed).set _ _ = group _ _ ++ cells key size keys _
        rw [Nat.sub_self, Nat.zero_add, List.set_append_left _ _ (by omega), hset,
          members_append_self, cells_of_not_mem hnot]
    | succ i =>
      have hmem : key x ∈ keys := List.mem_of_getElem? hkey
      have hne : k ≠ key x := fun h => hnot (h ▸ hmem)
      obtain ⟨hle, hget, hset⟩ := ih hnodup' hroom' hkey hstart
      have hposition : start - next + (members key (key x) placed).length =
          size k + (start - (next + size k) + (members key (key x) placed).length) := by omega
      refine ⟨by omega, ?_, ?_⟩
      · show (group _ _ ++ cells key size keys placed)[_]? = _
        rw [hposition, List.getElem?_append_right (by omega), hlength, Nat.add_sub_cancel_left]
        exact hget
      · show (group _ _ ++ cells key size keys placed).set _ _ = group _ _ ++ cells key size keys _
        rw [hposition, List.set_append_right _ _ (by omega), hlength, Nat.add_sub_cancel_left, hset,
          members_append_of_ne hne]

/-! ### The whole table -/

theorem cells_nil (size : κ → ℕ) (keys : List κ) :
    cells key size keys [] = List.replicate (keys.map size).sum none := by
  induction keys with
  | nil => rfl
  | cons k keys ih =>
    show List.replicate (size k) none ++ cells key size keys [] = _
    rw [ih, List.map_cons, List.sum_cons, List.replicate_add]

/-- **All items placed**: the groups one behind the other. -/
theorem cells_full (hsize : ∀ k ∈ keys, (members key k placed).length = size k) :
    cells key size keys placed = (keys.flatMap fun k => members key k placed).map some := by
  induction keys with
  | nil => rfl
  | cons k keys ih =>
    obtain ⟨hk, hsize'⟩ := List.forall_mem_cons.1 hsize
    show group (size k) (members key k placed) ++ cells key size keys placed =
      (members key k placed ++ keys.flatMap fun k => members key k placed).map some
    rw [ih hsize', List.map_append, ← hk]
    unfold group
    rw [Nat.sub_self]
    simp

omit [DecidableEq κ] in
theorem slice_flatMap (groups : κ → List α) {i : ℕ} {k : κ} {next start : ℕ}
    (hkey : keys[i]? = some k)
    (hstart : (starts (fun k => (groups k).length) next keys)[i]? = some start) :
    next ≤ start ∧ ((keys.flatMap groups).drop (start - next)).take (groups k).length = groups k := by
  induction keys generalizing i next with
  | nil => cases hkey
  | cons first keys ih =>
    rw [List.flatMap_cons]
    cases i with
    | zero =>
      obtain rfl : first = k := Option.some.inj hkey
      obtain rfl : next = start := Option.some.inj hstart
      refine ⟨Nat.le_refl _, ?_⟩
      rw [Nat.sub_self, List.drop_zero]
      exact List.take_left
    | succ i =>
      obtain ⟨hle, hslice⟩ := ih hkey hstart
      dsimp only at hle hslice
      have hposition : start - next = (groups first).length + (start - (next + (groups first).length)) := by
        omega
      refine ⟨by omega, ?_⟩
      rw [hposition, ← List.drop_drop, List.drop_left]
      exact hslice

/-! ### Counting -/

theorem length_members_cons (k : κ) (items : List α) :
    (members key k (x :: items)).length =
      (members key k items).length + if k = key x then 1 else 0 := by
  unfold members
  rw [List.filter_cons]
  by_cases h : key x = k
  · rw [if_pos (decide_eq_true h), if_pos h.symm]
    rfl
  · rw [if_neg fun hx => h (of_decide_eq_true hx), if_neg (Ne.symm h)]
    rfl

theorem sum_indicator (hnodup : keys.Nodup) (k : κ) (hk : k ∈ keys) :
    (keys.map fun k' => if k' = k then 1 else 0).sum = 1 := by
  induction keys with
  | nil => cases hk
  | cons first keys ih =>
    obtain ⟨hnot, hnodup'⟩ := List.nodup_cons.1 hnodup
    rw [List.map_cons, List.sum_cons]
    by_cases h : first = k
    · have hzero : (keys.map fun k' => if k' = k then 1 else 0).sum = 0 := by
        refine List.sum_eq_zero_iff_forall_eq_nat.2 fun n hn => ?_
        obtain ⟨k', hk', rfl⟩ := List.mem_map.1 hn
        exact if_neg fun hsame : k' = k => hnot (h ▸ hsame ▸ hk')
      rw [if_pos h, hzero]
    · have hmem : k ∈ keys := (List.mem_cons.1 hk).resolve_left (Ne.symm h)
      rw [if_neg h, ih hnodup' hmem]

theorem sum_length_members (hnodup : keys.Nodup) {items : List α} (hkeys : ∀ x ∈ items, key x ∈ keys) :
    (keys.map fun k => (members key k items).length).sum = items.length := by
  induction items with
  | nil =>
    refine List.sum_eq_zero_iff_forall_eq_nat.2 fun n hn => ?_
    obtain ⟨k, -, rfl⟩ := List.mem_map.1 hn
    rfl
  | cons x items ih =>
    obtain ⟨hx, hitems⟩ := List.forall_mem_cons.1 hkeys
    simp only [length_members_cons]
    rw [List.sum_map_add, ih hitems, sum_indicator hnodup (key x) hx]
    rfl

end QuickBeam.Lib.Grouping
