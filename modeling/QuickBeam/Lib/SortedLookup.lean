import Mathlib

/-!
# Lookup in a list sorted by key

The value of a key is the one of the last entry whose key is at most it.  Where the entries are
sorted, a search from the front can stop at the first larger key, and it can go on for a larger
key from where it stopped.
-/

namespace QuickBeam.Lib.SortedLookup

variable {κ α : Type} [LinearOrder κ]

/-- The value of the last entry whose key is at most `key`, or `start` if there is none. -/
def lastAtMost (start : α) (entries : List (κ × α)) (key : κ) : α :=
  ((entries.filter fun e => e.1 ≤ key).getLast?.map Prod.snd).getD start

/-- The keys do not get smaller. -/
def Sorted (entries : List (κ × α)) : Prop := entries.Pairwise fun e e' => e.1 ≤ e'.1

@[simp] theorem lastAtMost_nil (start : α) (key : κ) : lastAtMost start [] key = start := rfl

variable {e : κ × α} {key : κ}

theorem lastAtMost_cons_of_le (start : α) (entries : List (κ × α)) (h : e.1 ≤ key) :
    lastAtMost start (e :: entries) key = lastAtMost e.2 entries key := by
  unfold lastAtMost
  rw [List.filter_cons_of_pos (by simpa using h), List.getLast?_cons]
  cases (entries.filter fun e => e.1 ≤ key).getLast? with
  | none => rfl
  | some last => rfl

theorem lastAtMost_cons_of_lt (start : α) {entries : List (κ × α)}
    (hsorted : Sorted (e :: entries)) (h : key < e.1) :
    lastAtMost start (e :: entries) key = start := by
  have hnone : (e :: entries).filter (fun e => e.1 ≤ key) = [] := by
    rw [List.filter_eq_nil_iff]
    intro e' hmem
    have hle : e.1 ≤ e'.1 := by
      rcases List.mem_cons.1 hmem with rfl | hmem
      · exact le_refl _
      · exact List.rel_of_pairwise_cons hsorted hmem
    simpa using lt_of_lt_of_le h hle
  unfold lastAtMost
  rw [hnone]
  rfl

end QuickBeam.Lib.SortedLookup
