import QuickBeam.Lib.Entries

/-!
# Entries whose keys are compared by an equivalence

A list of entries whose keys count as the same when a test says so, and its image under the map
that sends a key to its class.  Each operation on the list is the operation with the class on the
image.
-/

namespace QuickBeam.Lib

variable {α κ ν : Type*}

/-! ### Entries under the classes of their keys -/

def classes (cls : α → κ) (entries : List (α × ν)) : List (κ × ν) :=
  entries.map fun entry => (cls entry.1, entry.2)

theorem keys_classes (cls : α → κ) (entries : List (α × ν)) :
    (classes cls entries).map Prod.fst = entries.map fun entry => cls entry.1 := by
  unfold classes
  rw [List.map_map]
  rfl

/-- Write the entry where a key of its class stands; `missing` is the list where none does. -/
def placeBy (same : α → α → Bool) (missing entries : List (α × ν)) (key : α) (value : ν) :
    List (α × ν) :=
  match entries.findIdx? fun entry => same entry.1 key with
  | none => missing
  | some index => entries.set index (key, value)

def addKey [DecidableEq κ] (k : κ) (keys : List κ) : List κ :=
  if k ∈ keys then keys else keys ++ [k]

theorem nodup_addKey [DecidableEq κ] {k : κ} {keys : List κ} (h : keys.Nodup) :
    (addKey k keys).Nodup := by
  unfold addKey
  split
  · exact h
  · rename_i hnew
    rw [List.nodup_append]
    refine ⟨h, List.nodup_singleton k, fun a ha b hb => ?_⟩
    rw [List.mem_singleton] at hb
    rintro rfl
    exact hnew (hb ▸ ha)

variable {entries : List (κ × ν)}

theorem nodup_keys_putEntry [DecidableEq κ] {k : κ} {v : ν} (h : (entries.map Prod.fst).Nodup) :
    ((putEntry k v entries).map Prod.fst).Nodup := by
  by_cases hk : k ∈ entries.map Prod.fst
  · rw [keys_putEntry_of_mem v hk]
    exact h
  · have hadd := nodup_addKey (k := k) h
    rw [addKey, if_neg hk] at hadd
    rw [putEntry_of_not_mem v hk, List.map_append]
    exact hadd

theorem putEntry_eq_map [DecidableEq κ] {k : κ} (v : ν) (hnodup : (entries.map Prod.fst).Nodup)
    (hk : k ∈ entries.map Prod.fst) :
    putEntry k v entries = entries.map fun entry => if entry.1 = k then (k, v) else entry := by
  induction entries with
  | nil => cases hk
  | cons entry entries ih =>
    rw [List.map_cons, List.nodup_cons] at hnodup
    rw [putEntry_cons, List.map_cons]
    by_cases hentry : entry.1 = k
    · have hrest : (entries.map fun entry => if entry.1 = k then (k, v) else entry) = entries := by
        refine (List.map_congr_left fun other hother => ?_).trans (List.map_id entries)
        have hne : other.1 ≠ k := fun heq =>
          hnodup.1 (List.mem_map.2 ⟨other, hother, heq.trans hentry.symm⟩)
        exact if_neg hne
      rw [if_pos hentry, if_pos hentry, hrest]
    · have hmem : k ∈ entries.map Prod.fst := by
        rcases List.mem_cons.1 (List.map_cons ▸ hk) with heq | hmem
        · exact absurd heq.symm hentry
        · exact hmem
      rw [if_neg hentry, if_neg hentry, ih hnodup.2 hmem]

/-! ### The operations on the classes -/

section Classes

variable [DecidableEq κ] {same : α → α → Bool} {cls : α → κ}
  (hsame : ∀ a b, same a b = true ↔ cls a = cls b)

include hsame

theorem same_eq_decide (a b : α) : same a b = decide (cls a = cls b) := by
  rw [Bool.eq_iff_iff, hsame, decide_eq_true_iff]

theorem any_same (entries : List (α × ν)) (key : α) :
    (entries.any fun entry => same entry.1 key) =
      decide (cls key ∈ (classes cls entries).map Prod.fst) := by
  rw [Bool.eq_iff_iff, List.any_eq_true, decide_eq_true_iff, keys_classes, List.mem_map]
  exact exists_congr fun entry => and_congr_right fun _ => hsame _ _

theorem classes_filter (entries : List (α × ν)) (key : α) :
    classes cls (entries.filter fun entry => !same entry.1 key) =
      (classes cls entries).filter fun entry => !decide (entry.1 = cls key) := by
  unfold classes
  rw [List.filter_map]
  congr 1
  refine List.filter_congr fun entry _ => ?_
  rw [same_eq_decide hsame]
  rfl

theorem find?_same (entries : List (α × ν)) (key : α) :
    (entries.find? fun entry => same entry.1 key).map Prod.snd =
      (classes cls entries).lookup (cls key) := by
  induction entries with
  | nil => rfl
  | cons entry entries ih =>
    show _ = ((cls entry.1, entry.2) :: classes cls entries).lookup (cls key)
    rw [List.find?_cons, lookup_cons_eq_ite, same_eq_decide hsame]
    by_cases hkey : cls entry.1 = cls key
    · rw [decide_eq_true hkey, if_pos hkey.symm]
      rfl
    · rw [decide_eq_false hkey, if_neg (Ne.symm hkey)]
      exact ih

variable {entries : List (α × ν)} {key : α}

theorem findIdx?_eq_none : (entries.findIdx? fun entry => same entry.1 key) = none ↔
      cls key ∉ (classes cls entries).map Prod.fst := by
  rw [List.findIdx?_eq_none_iff, keys_classes, List.mem_map]
  constructor
  · rintro h ⟨entry, hentry, heq⟩
    have hfalse := h entry hentry
    rw [(hsame _ _).2 heq] at hfalse
    cases hfalse
  · intro h entry hentry
    rw [same_eq_decide hsame]
    exact decide_eq_false fun heq => h ⟨entry, hentry, heq⟩

theorem placeBy_of_not_mem {missing entries : List (α × ν)} (value : ν)
    (h : cls key ∉ (classes cls entries).map Prod.fst) :
    placeBy same missing entries key value = missing := by
  unfold placeBy
  rw [(findIdx?_eq_none hsame).2 h]

theorem classes_placeBy_of_mem (missing : List (α × ν)) (value : ν)
    (h : cls key ∈ (classes cls entries).map Prod.fst) :
    classes cls (placeBy same missing entries key value) =
      putEntry (cls key) value (classes cls entries) := by
  unfold placeBy
  induction entries with
  | nil => cases h
  | cons entry entries ih =>
    show _ = putEntry (cls key) value ((cls entry.1, entry.2) :: classes cls entries)
    rw [List.findIdx?_cons, putEntry, same_eq_decide hsame]
    by_cases hkey : cls entry.1 = cls key
    · rw [decide_eq_true hkey, if_pos hkey]
      rfl
    · have hmem : cls key ∈ (classes cls entries).map Prod.fst := by
        rcases List.mem_cons.1 h with heq | hmem
        · exact absurd heq.symm hkey
        · exact hmem
      obtain ⟨index, hindex⟩ := Option.ne_none_iff_exists'.1
        (mt (findIdx?_eq_none hsame).1 (not_not.2 hmem))
      have hrest := ih hmem
      rw [hindex] at hrest ⊢
      rw [decide_eq_false hkey, if_neg hkey]
      exact congrArg ((cls entry.1, entry.2) :: ·) hrest

theorem classes_placeBy_append (entries : List (α × ν)) (key : α) (value : ν) :
    classes cls (placeBy same (entries ++ [(key, value)]) entries key value) =
      putEntry (cls key) value (classes cls entries) := by
  by_cases h : cls key ∈ (classes cls entries).map Prod.fst
  · exact classes_placeBy_of_mem hsame _ value h
  · rw [placeBy_of_not_mem hsame value h, putEntry_of_not_mem value h]
    exact List.map_append

theorem classes_placeBy_cons (key : α) (value : ν)
    (hnodup : ((classes cls entries).map Prod.fst).Nodup) :
    (classes cls (placeBy same ((key, value) :: entries) entries key value)).reverse =
      putEntry (cls key) value (classes cls entries).reverse := by
  have hreversed : (classes cls entries).reverse.map Prod.fst =
      ((classes cls entries).map Prod.fst).reverse := List.map_reverse
  by_cases h : cls key ∈ (classes cls entries).map Prod.fst
  · have hnodup' : ((classes cls entries).reverse.map Prod.fst).Nodup := by
      rw [hreversed]
      exact List.nodup_reverse.2 hnodup
    have h' : cls key ∈ (classes cls entries).reverse.map Prod.fst := by
      rw [hreversed]
      exact List.mem_reverse.2 h
    rw [classes_placeBy_of_mem hsame _ value h, putEntry_eq_map value hnodup h,
      putEntry_eq_map value hnodup' h', List.map_reverse]
  · have h' : cls key ∉ (classes cls entries).reverse.map Prod.fst := by
      rw [hreversed]
      exact mt List.mem_reverse.1 h
    rw [placeBy_of_not_mem hsame value h, putEntry_of_not_mem value h']
    exact List.reverse_cons

end Classes

end QuickBeam.Lib
