import Mathlib.Data.List.Basic
import Mathlib.Tactic

/-!
# Entries in the order they were written

Association lists that keep the place of a key: writing an entry replaces the one that stands under
its key, or comes last.
-/

namespace QuickBeam.Lib

/-- Write an entry where its key stands, or else at the end. -/
def putEntry {κ ν : Type*} [DecidableEq κ] (k : κ) (v : ν) : List (κ × ν) → List (κ × ν)
  | [] => [(k, v)]
  | entry :: entries =>
    if entry.1 = k then (k, v) :: entries else entry :: putEntry k v entries

variable {κ ν : Type*} [DecidableEq κ]

/-! ### Writing -/

theorem putEntry_cons (k : κ) (v : ν) (entry : κ × ν) (entries : List (κ × ν)) :
    putEntry k v (entry :: entries) =
      if entry.1 = k then (k, v) :: entries else entry :: putEntry k v entries := rfl

variable {entries : List (κ × ν)} {k : κ}

theorem keys_putEntry_of_mem (v : ν) (h : k ∈ entries.map Prod.fst) :
    (putEntry k v entries).map Prod.fst = entries.map Prod.fst := by
  induction entries with
  | nil => cases h
  | cons entry entries ih =>
    rw [putEntry_cons]
    by_cases hentry : entry.1 = k
    · rw [if_pos hentry, List.map_cons, List.map_cons, hentry]
    · have hmem : k ∈ entries.map Prod.fst := by
        rcases List.mem_cons.1 (List.map_cons ▸ h) with heq | hmem
        · exact absurd heq.symm hentry
        · exact hmem
      rw [if_neg hentry, List.map_cons, List.map_cons, ih hmem]

theorem putEntry_of_not_mem (v : ν) (h : k ∉ entries.map Prod.fst) :
    putEntry k v entries = entries ++ [(k, v)] := by
  induction entries with
  | nil => rfl
  | cons entry entries ih =>
    rw [List.map_cons, List.mem_cons, not_or] at h
    rw [putEntry_cons, if_neg (fun heq => h.1 heq.symm), ih h.2, List.cons_append]

variable {α : Type*}

theorem foldl_putEntry (key : α → κ) (value : α → ν) : ∀ (items : List α) (entries : List (κ × ν)),
      (entries.map Prod.fst ++ items.map key).Nodup →
      items.foldl (fun written item => putEntry (key item) (value item) written) entries =
        entries ++ items.map fun item => (key item, value item)
  | [], entries, _ => (List.append_nil entries).symm
  | item :: items, entries, hnodup => by
    have hnew : key item ∉ entries.map Prod.fst := fun hmem =>
      (List.nodup_append.1 hnodup).2.2 _ hmem _ (List.mem_cons_self ..) rfl
    have hrest : ((entries ++ [(key item, value item)]).map Prod.fst ++ items.map key).Nodup := by
      rw [List.map_append, List.append_assoc]
      exact hnodup
    rw [List.foldl_cons, putEntry_of_not_mem _ hnew, foldl_putEntry key value items _ hrest,
      List.append_assoc, List.map_cons, List.singleton_append]

/-! ### Looking up -/

variable [BEq κ] [LawfulBEq κ]

theorem lookup_cons_eq_ite (k : κ) (entry : κ × ν) (entries : List (κ × ν)) :
    (entry :: entries).lookup k = if k = entry.1 then some entry.2 else entries.lookup k := by
  by_cases hk : k = entry.1
  · rw [if_pos hk, hk, List.lookup_cons_self]
  · rw [if_neg hk, List.lookup_cons, beq_false_of_ne hk]

theorem isSome_lookup_iff_mem : (entries.lookup k).isSome ↔ k ∈ entries.map Prod.fst := by
  induction entries with
  | nil => exact ⟨fun h => (by cases h), fun h => (by cases h)⟩
  | cons entry entries ih =>
    rw [lookup_cons_eq_ite, List.map_cons, List.mem_cons]
    by_cases hk : k = entry.1
    · rw [if_pos hk]
      exact ⟨fun _ => .inl hk, fun _ => rfl⟩
    · rw [if_neg hk, ih]
      exact ⟨.inr, fun h => h.resolve_left hk⟩

variable {v : ν}

theorem mem_of_lookup (h : entries.lookup k = some v) : (k, v) ∈ entries := by
  induction entries with
  | nil => cases h
  | cons entry entries ih =>
    rw [lookup_cons_eq_ite] at h
    by_cases hk : k = entry.1
    · rw [if_pos hk] at h
      rw [hk, ← Option.some.inj h]
      exact List.mem_cons_self
    · rw [if_neg hk] at h
      exact List.mem_cons_of_mem _ (ih h)

theorem lookup_of_mem (hnodup : (entries.map Prod.fst).Nodup) (h : (k, v) ∈ entries) :
    entries.lookup k = some v := by
  obtain ⟨found, hfound⟩ := Option.isSome_iff_exists.1
    (isSome_lookup_iff_mem.2 (List.mem_map.2 ⟨(k, v), h, rfl⟩))
  have heq := List.inj_on_of_nodup_map hnodup (mem_of_lookup hfound) h rfl
  rw [hfound, (Prod.mk.inj heq).2]

theorem lookup_putEntry (k j : κ) (v : ν) (entries : List (κ × ν)) :
    (putEntry k v entries).lookup j = if j = k then some v else entries.lookup j := by
  induction entries with
  | nil => exact lookup_cons_eq_ite j (k, v) []
  | cons entry entries ih =>
    rw [putEntry_cons]
    by_cases hentry : entry.1 = k
    · rw [if_pos hentry, lookup_cons_eq_ite, lookup_cons_eq_ite, hentry]
      by_cases hj : j = k
      · rw [if_pos hj, if_pos hj]
      · rw [if_neg hj, if_neg hj, if_neg hj]
    · rw [if_neg hentry, lookup_cons_eq_ite, lookup_cons_eq_ite, ih]
      by_cases hj : j = entry.1
      · have hne : j ≠ k := fun h => hentry (hj.symm.trans h)
        rw [if_pos hj, if_neg hne, if_pos hj]
      · rw [if_neg hj, if_neg hj]

theorem lookup_foldl_putEntry (key : α → κ) (value : α → ν) :
    ∀ (items : List α) (entries : List (κ × ν)),
      (∀ item ∈ items, key item = k → value item = v) →
      (entries.lookup k = some v ∨ ∃ item ∈ items, key item = k) →
      (items.foldl (fun written item => putEntry (key item) (value item) written) entries).lookup k =
        some v
  | [], entries, _, hfound => by
    rcases hfound with hfound | ⟨item, hitem, -⟩
    · exact hfound
    · cases hitem
  | item :: items, entries, hvalue, hfound => by
    rw [List.foldl_cons]
    refine lookup_foldl_putEntry key value items _
      (fun other hother => hvalue other (List.mem_cons_of_mem _ hother)) ?_
    rw [lookup_putEntry]
    by_cases hitem : k = key item
    · rw [if_pos hitem, hvalue item List.mem_cons_self hitem.symm]
      exact .inl rfl
    · rw [if_neg hitem]
      rcases hfound with hfound | ⟨other, hother, hkey⟩
      · exact .inl hfound
      · rcases List.mem_cons.1 hother with rfl | hother
        · exact absurd hkey.symm hitem
        · exact .inr ⟨other, hother, hkey⟩

theorem lookup_foldl_putEntry_cases (key : α → κ) (value : α → ν) :
    ∀ (items : List α) (entries : List (κ × ν)),
      (items.foldl (fun written item => putEntry (key item) (value item) written) entries).lookup k =
        some v →
      entries.lookup k = some v ∨ ∃ item ∈ items, key item = k ∧ value item = v
  | [], _, hfound => .inl hfound
  | item :: items, entries, hfound => by
    rw [List.foldl_cons] at hfound
    rcases lookup_foldl_putEntry_cases key value items _ hfound with hold | ⟨other, hother, hentry⟩
    · rw [lookup_putEntry] at hold
      by_cases hitem : k = key item
      · rw [if_pos hitem] at hold
        exact .inr ⟨item, List.mem_cons_self, hitem.symm, Option.some.inj hold⟩
      · rw [if_neg hitem] at hold
        exact .inl hold
    · exact .inr ⟨other, List.mem_cons_of_mem _ hother, hentry⟩

end QuickBeam.Lib
