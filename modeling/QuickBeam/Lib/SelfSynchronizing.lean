import Mathlib.Data.List.Infix
import Mathlib.Tactic

/-!
# Self-synchronizing codes

A code writes every character as a word.  It is self-synchronizing if a word begins with a lead
letter, goes on with other letters, and is no proper prefix of a word.  Then the words of one text
occur in those of another exactly where the text does.  The order of two texts is that of the words
in which they first differ.
-/

namespace QuickBeam.Lib

variable {α β : Type*}

structure SelfSynchronizing (word : α → List β) (lead : β → Bool) : Prop where
  shape : ∀ a, ∃ b rest, word a = b :: rest ∧ lead b = true ∧ ∀ c ∈ rest, lead c = false
  prefixFree : ∀ a b, word a <+: word b → a = b

namespace SelfSynchronizing

variable {word : α → List β} {lead : β → Bool} (h : SelfSynchronizing word lead)

include h

theorem word_ne_nil (a : α) : word a ≠ [] := by
  obtain ⟨b, rest, hword, -⟩ := h.shape a
  rw [hword]
  exact List.cons_ne_nil b rest

variable {s t : List α}

theorem prefix_iff : t.flatMap word <+: s.flatMap word ↔ t <+: s := by
  constructor
  · intro hbytes
    induction t generalizing s with
    | nil => exact List.nil_prefix
    | cons a t ih =>
      cases s with
      | nil =>
        have hnil := List.prefix_nil.1 hbytes
        rw [List.flatMap_cons] at hnil
        exact absurd (List.append_eq_nil_iff.1 hnil).1 (h.word_ne_nil a)
      | cons b s =>
        rw [List.flatMap_cons, List.flatMap_cons] at hbytes
        have ha : word a <+: word b ++ s.flatMap word := (List.prefix_append _ _).trans hbytes
        have hab : a = b := by
          rcases List.prefix_or_prefix_of_prefix ha (List.prefix_append _ _) with hle | hle
          · exact h.prefixFree a b hle
          · exact (h.prefixFree b a hle).symm
        subst hab
        exact (List.prefix_cons_inj a).2 (ih ((List.prefix_append_right_inj _).1 hbytes))
  · rintro ⟨post, rfl⟩
    rw [List.flatMap_append]
    exact List.prefix_append _ _

theorem flatMap_injective (heq : t.flatMap word = s.flatMap word) : t = s :=
  (h.prefix_iff.1 (heq ▸ List.prefix_rfl)).eq_of_length_le
    (h.prefix_iff.1 (heq ▸ List.prefix_rfl : s.flatMap word <+: t.flatMap word)).length_le

theorem split_at_lead {x y : List β} {b : β} (hlead : lead b = true)
    (heq : s.flatMap word = x ++ b :: y) :
    ∃ s₁ s₂, s = s₁ ++ s₂ ∧ x = s₁.flatMap word ∧ b :: y = s₂.flatMap word := by
  induction s generalizing x with
  | nil => cases x <;> cases heq
  | cons a s ih =>
    obtain ⟨c, rest, hword, -, hrest⟩ := h.shape a
    cases x with
    | nil => exact ⟨[], a :: s, rfl, rfl, heq.symm⟩
    | cons c' x =>
      have hcons := heq
      rw [List.flatMap_cons, hword, List.cons_append, List.cons_append] at hcons
      obtain ⟨rfl, htail⟩ := List.cons.inj hcons
      have hword' : ∀ s₁ : List α, c :: (rest ++ s₁.flatMap word) = (a :: s₁).flatMap word :=
        fun s₁ => by rw [List.flatMap_cons, hword, List.cons_append]
      rcases List.append_eq_append_iff.1 htail with ⟨z, rfl, hz⟩ | ⟨w, hw, hy⟩
      · obtain ⟨s₁, s₂, rfl, rfl, hs₂⟩ := ih hz
        exact ⟨a :: s₁, s₂, rfl, hword' s₁, hs₂⟩
      · cases w with
        | nil =>
          rw [List.append_nil] at hw
          subst hw
          obtain ⟨s₁, s₂, rfl, hs₁, hs₂⟩ := @ih [] hy.symm
          refine ⟨a :: s₁, s₂, rfl, ?_, hs₂⟩
          rw [← hword', ← hs₁, List.append_nil]
        | cons d w =>
          -- The letter would be one of the others in the word.
          obtain ⟨rfl, -⟩ := List.cons.inj hy
          have hother := hrest b (hw ▸ List.mem_append_right x List.mem_cons_self)
          rw [hlead] at hother
          cases hother

theorem split_at_words {x y : List β} (ht : t ≠ [])
    (heq : s.flatMap word = x ++ (t.flatMap word ++ y)) :
    ∃ s₁ s₂, s = s₁ ++ t ++ s₂ ∧ x = s₁.flatMap word := by
  obtain ⟨a, t', rfl⟩ := List.exists_cons_of_ne_nil ht
  obtain ⟨b, rest, hword, hlead, -⟩ := h.shape a
  have hstart : (a :: t').flatMap word ++ y = b :: (rest ++ t'.flatMap word ++ y) := by
    rw [List.flatMap_cons, hword]
    rfl
  obtain ⟨s₁, s₂, rfl, hx, hy⟩ := h.split_at_lead hlead (heq.trans (congrArg (x ++ ·) hstart))
  have hstarts : (a :: t').flatMap word <+: s₂.flatMap word := by
    rw [← hy, ← hstart]
    exact List.prefix_append _ _
  obtain ⟨s₃, rfl⟩ := h.prefix_iff.1 hstarts
  exact ⟨s₁, s₃, (List.append_assoc ..).symm, hx⟩

theorem infix_iff : t.flatMap word <:+: s.flatMap word ↔ t <:+: s := by
  constructor
  · rintro ⟨x, y, heq⟩
    by_cases ht : t = []
    · subst ht
      exact List.nil_infix
    · rw [List.append_assoc] at heq
      obtain ⟨s₁, s₂, rfl, -⟩ := h.split_at_words ht heq.symm
      exact ⟨s₁, s₂, rfl⟩
  · rintro ⟨s₁, s₂, rfl⟩
    exact ⟨s₁.flatMap word, s₂.flatMap word, by rw [List.flatMap_append, List.flatMap_append]⟩

theorem suffix_iff : t.flatMap word <:+ s.flatMap word ↔ t <:+ s := by
  constructor
  · rintro ⟨x, heq⟩
    by_cases ht : t = []
    · subst ht
      exact List.nil_suffix
    · obtain ⟨s₁, s₂, rfl, rfl⟩ :=
        h.split_at_words (y := []) ht (by rw [List.append_nil]; exact heq.symm)
      rw [← List.flatMap_append] at heq
      have hs₂ := h.flatMap_injective heq
      exact ⟨s₁, hs₂⟩
  · rintro ⟨s₁, rfl⟩
    exact ⟨s₁.flatMap word, List.flatMap_append.symm⟩

end SelfSynchronizing

/-! ### Lexicographic order -/

section Order

variable [Ord β]

theorem compare_cons (x y : β) (xs ys : List β) :
    compare (x :: xs) (y :: ys) = (compare x y).then (compare xs ys) := List.compareLex_cons_cons

variable {xs : List β}

theorem compare_nil_of_ne (h : xs ≠ []) : compare [] xs = .lt := by
  obtain ⟨x, xs, rfl⟩ := List.exists_cons_of_ne_nil h
  exact List.compareLex_nil_cons

theorem compare_ne_nil (h : xs ≠ []) : compare xs [] = .gt := by
  obtain ⟨x, xs, rfl⟩ := List.exists_cons_of_ne_nil h
  exact List.compareLex_cons_nil

variable [Std.LawfulEqOrd β]

theorem compare_append_left (u x y : List β) : compare (u ++ x) (u ++ y) = compare x y := by
  induction u with
  | nil => rfl
  | cons b u ih =>
    rw [List.cons_append, List.cons_append, compare_cons, Std.ReflOrd.compare_self]
    exact ih

/-- Words of which neither is a prefix of the other are compared before what follows. -/
theorem compare_append {u v : List β} (huv : ¬u <+: v) (hvu : ¬v <+: u) (x y : List β) :
    compare (u ++ x) (v ++ y) = compare u v := by
  induction u generalizing v with
  | nil => exact absurd List.nil_prefix huv
  | cons b u ih =>
    cases v with
    | nil => exact absurd List.nil_prefix hvu
    | cons c v =>
      rw [List.cons_append, List.cons_append, compare_cons, compare_cons]
      cases hbc : compare b c with
      | lt => rfl
      | gt => rfl
      | eq =>
        have heq : b = c := Std.LawfulEqOrd.eq_of_compare hbc
        subst heq
        exact ih (fun h => huv ((List.prefix_cons_inj b).2 h))
          fun h => hvu ((List.prefix_cons_inj b).2 h)

end Order

end QuickBeam.Lib
