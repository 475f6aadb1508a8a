import Mathlib.Data.Finset.Card
import Mathlib.Data.List.Basic
import Mathlib.Logic.Relation
import Mathlib.Tactic.Common

/-!
# Depth-first collection

A walk over a graph that visits every node once: visiting a node gives an item and the nodes
behind it, or fails.  Over a finite set of nodes the walk ends (`collect_ends`); where it ends
without a failure it has visited exactly the nodes that the first one reaches, each once
(`collect_ok`), and a failure is the one of a node that the first one reaches (`collect_error`).
-/

namespace QuickBeam.Lib.DepthFirst

open Relation

variable {κ α ε : Type}

/-- The items and the visited nodes, the newest first. -/
structure Progress (κ α : Type) where
  items : List α
  seen : List κ

def collectEach (walk : κ → Progress κ α → Option (Except ε (Progress κ α))) :
    List κ → Progress κ α → Option (Except ε (Progress κ α))
  | [], s => some (.ok s)
  | k :: ks, s =>
      match walk k s with
      | none => none
      | some (.error e) => some (.error e)
      | some (.ok s) => collectEach walk ks s

variable [DecidableEq κ] (visit : κ → Except ε (α × List κ))

/-- The walk from a node, over at most `fuel` nodes one behind the other. -/
def collect : ℕ → κ → Progress κ α → Option (Except ε (Progress κ α))
  | 0, _, _ => none
  | fuel + 1, k, s =>
      if k ∈ s.seen then some (.ok s)
      else
        match visit k with
        | .error e => some (.error e)
        | .ok (item, behind) =>
            collectEach (collect fuel) behind ⟨item :: s.items, k :: s.seen⟩

def Next (a b : κ) : Prop := ∃ item behind, visit a = .ok (item, behind) ∧ b ∈ behind

def Reaches : κ → κ → Prop := ReflTransGen (Next visit)

def Gives (k : κ) (item : α) : Prop := ∃ behind, visit k = .ok (item, behind)

/-! ### The walk ends -/

section Ends

variable {visit} {nodes : Finset κ}

/-- Every walk ends with a failure, or with more nodes of the set visited. -/
structure EndsWithin (nodes : Finset κ) (s : Progress κ α)
    (result : Option (Except ε (Progress κ α))) : Prop where
  ends : result ≠ none
  seen : ∀ s', result = some (.ok s') → ∀ k ∈ s.seen, k ∈ s'.seen

theorem collectEach_ends {walk : κ → Progress κ α → Option (Except ε (Progress κ α))}
    (bound : ℕ)
    (hwalk : ∀ k ∈ nodes, ∀ s : Progress κ α, (nodes \ s.seen.toFinset).card ≤ bound →
      EndsWithin nodes s (walk k s)) :
    ∀ (ks : List κ), (∀ k ∈ ks, k ∈ nodes) → ∀ s : Progress κ α,
      (nodes \ s.seen.toFinset).card ≤ bound → EndsWithin nodes s (collectEach walk ks s) := by
  intro ks
  induction ks with
  | nil =>
    intro _ s _
    refine ⟨fun h => (by cases h), fun s' h k hk => ?_⟩
    cases h
    exact hk
  | cons k ks ih =>
    intro hks s hbound
    have hfirst := hwalk k (hks k (List.mem_cons_self ..)) s hbound
    unfold collectEach
    cases hresult : walk k s with
    | none => exact absurd hresult hfirst.ends
    | some result =>
      cases result with
      | error e => exact ⟨fun h => (by cases h), fun s' h => (by cases h)⟩
      | ok s₁ =>
        have hseen := hfirst.seen s₁ hresult
        have hbound₁ : (nodes \ s₁.seen.toFinset).card ≤ bound := by
          refine (Finset.card_le_card (Finset.sdiff_subset_sdiff (Finset.Subset.refl _) ?_)).trans
            hbound
          intro a ha
          exact List.mem_toFinset.2 (hseen a (List.mem_toFinset.1 ha))
        have hrest := ih (fun a ha => hks a (List.mem_cons_of_mem _ ha)) s₁ hbound₁
        exact ⟨hrest.ends, fun s' h a ha => hrest.seen s' h a (hseen a ha)⟩

theorem collect_endsWithin (hclosed : ∀ a ∈ nodes, ∀ b, Next visit a b → b ∈ nodes) :
    ∀ (fuel : ℕ), ∀ k ∈ nodes, ∀ s : Progress κ α, (nodes \ s.seen.toFinset).card + 1 ≤ fuel →
      EndsWithin nodes s (collect visit fuel k s) := by
  intro fuel
  induction fuel with
  | zero =>
    intro k _ s hfuel
    omega
  | succ fuel ih =>
    intro k hk s hfuel
    unfold collect
    split
    · refine ⟨fun h => (by cases h), fun s' h a ha => ?_⟩
      cases h
      exact ha
    · rename_i hnew
      cases hvisit : visit k with
      | error e => exact ⟨fun h => (by cases h), fun s' h => (by cases h)⟩
      | ok result =>
        obtain ⟨item, behind⟩ := result
        -- the visited node leaves the set of those to come
        have hless : (nodes \ (k :: s.seen).toFinset).card < (nodes \ s.seen.toFinset).card := by
          refine Finset.card_lt_card ⟨fun a ha => ?_, fun hsub => ?_⟩
          · rw [Finset.mem_sdiff, List.mem_toFinset] at ha ⊢
            exact ⟨ha.1, fun h => ha.2 (List.mem_cons_of_mem _ h)⟩
          · have hmem := hsub (Finset.mem_sdiff.2 ⟨hk, fun h => hnew (List.mem_toFinset.1 h)⟩)
            exact (Finset.mem_sdiff.1 hmem).2 (List.mem_toFinset.2 (List.mem_cons_self ..))
        have hrest := collectEach_ends (fuel - 1)
          (fun a ha t ht => ih a ha t (by omega)) behind
          (fun a ha => hclosed k hk a ⟨item, behind, hvisit, ha⟩)
          ⟨item :: s.items, k :: s.seen⟩ (by dsimp only; omega)
        exact ⟨hrest.ends, fun s' h a ha => hrest.seen s' h a (List.mem_cons_of_mem _ ha)⟩

/-- **Over a finite set of nodes the walk ends.** -/
theorem collect_ends (hclosed : ∀ a ∈ nodes, ∀ b, Next visit a b → b ∈ nodes) {k : κ}
    (hk : k ∈ nodes) {fuel : ℕ} (hfuel : nodes.card + 1 ≤ fuel) :
    collect visit fuel k ⟨[], []⟩ ≠ none := by
  refine (collect_endsWithin hclosed fuel k hk ⟨[], []⟩ ?_).ends
  rw [List.toFinset_nil, Finset.sdiff_empty]
  exact hfuel

end Ends

/-! ### What the walk has visited -/

/-- The walk from `ks` has visited new nodes, each once, with everything behind them. -/
structure Visited (ks : List κ) (s s' : Progress κ α) : Prop where
  run : ∃ (new : List κ) (items : List α), s'.seen = new ++ s.seen ∧ s'.items = items ++ s.items ∧
    List.Forall₂ (Gives visit) new items ∧ new.Nodup ∧ (∀ a ∈ new, a ∉ s.seen) ∧
    (∀ a ∈ new, ∃ k ∈ ks, Reaches visit k a) ∧
    ∀ a ∈ new, ∀ b, Next visit a b → b ∈ s'.seen
  start : ∀ k ∈ ks, k ∈ s'.seen

variable {visit}

variable {walk : κ → Progress κ α → Option (Except ε (Progress κ α))}

omit [DecidableEq κ] in
theorem collectEach_visited (hwalk : ∀ k s s', walk k s = some (.ok s') → Visited visit [k] s s') :
    ∀ (ks : List κ) (s s' : Progress κ α), collectEach walk ks s = some (.ok s') →
      Visited visit ks s s' := by
  intro ks
  induction ks with
  | nil =>
    intro s s' h
    cases h
    exact ⟨⟨[], [], rfl, rfl, .nil, List.nodup_nil, fun a h => (by cases h), fun a h => (by cases h),
      fun a h => (by cases h)⟩, fun k h => (by cases h)⟩
  | cons k ks ih =>
    intro s s' h
    unfold collectEach at h
    cases hresult : walk k s with
    | none =>
      rw [hresult] at h
      cases h
    | some result =>
      rw [hresult] at h
      cases result with
      | error e => cases h
      | ok s₁ =>
        obtain ⟨⟨new₁, items₁, hseen₁, hitems₁, hgives₁, hnodup₁, hfresh₁, hreach₁, hbehind₁⟩,
          hstart₁⟩ := hwalk k s s₁ hresult
        obtain ⟨⟨new₂, items₂, hseen₂, hitems₂, hgives₂, hnodup₂, hfresh₂, hreach₂, hbehind₂⟩,
          hstart₂⟩ := ih s₁ s' h
        have hkept : ∀ a ∈ s₁.seen, a ∈ s'.seen := fun a ha => by
          rw [hseen₂]
          exact List.mem_append_right _ ha
        refine ⟨⟨new₂ ++ new₁, items₂ ++ items₁, ?_, ?_, ?_, ?_, ?_, ?_, ?_⟩, ?_⟩
        · rw [hseen₂, hseen₁, List.append_assoc]
        · rw [hitems₂, hitems₁, List.append_assoc]
        · exact List.rel_append hgives₂ hgives₁
        · refine List.nodup_append'.2 ⟨hnodup₂, hnodup₁, fun a ha₂ ha₁ => ?_⟩
          refine hfresh₂ a ha₂ ?_
          rw [hseen₁]
          exact List.mem_append_left _ ha₁
        · intro a ha hs
          rcases List.mem_append.1 ha with ha | ha
          · refine hfresh₂ a ha ?_
            rw [hseen₁]
            exact List.mem_append_right _ hs
          · exact hfresh₁ a ha hs
        · intro a ha
          rcases List.mem_append.1 ha with ha | ha
          · obtain ⟨j, hj, hreach⟩ := hreach₂ a ha
            exact ⟨j, List.mem_cons_of_mem _ hj, hreach⟩
          · obtain ⟨j, hj, hreach⟩ := hreach₁ a ha
            rw [List.mem_singleton.1 hj] at hreach
            exact ⟨k, List.mem_cons_self .., hreach⟩
        · intro a ha b hb
          rcases List.mem_append.1 ha with ha | ha
          · exact hbehind₂ a ha b hb
          · exact hkept b (hbehind₁ a ha b hb)
        · intro j hj
          rcases List.mem_cons.1 hj with rfl | hj
          · exact hkept j (hstart₁ j (List.mem_singleton_self j))
          · exact hstart₂ j hj

theorem collect_visited : ∀ (fuel : ℕ) (k : κ) (s s' : Progress κ α),
    collect visit fuel k s = some (.ok s') → Visited visit [k] s s' := by
  intro fuel
  induction fuel with
  | zero =>
    intro k s s' h
    cases h
  | succ fuel ih =>
    intro k s s' h
    unfold collect at h
    split at h
    · rename_i hseen
      cases h
      refine ⟨⟨[], [], rfl, rfl, .nil, List.nodup_nil, fun a h => (by cases h),
        fun a h => (by cases h), fun a h => (by cases h)⟩, fun j hj => ?_⟩
      rwa [List.mem_singleton.1 hj]
    · rename_i hnew
      cases hvisit : visit k with
      | error e =>
        rw [hvisit] at h
        cases h
      | ok result =>
        obtain ⟨item, behind⟩ := result
        rw [hvisit] at h
        obtain ⟨⟨new, items, hseen, hitems, hgives, hnodup, hfresh, hreach, hbehind⟩, hstart⟩ :=
          collectEach_visited ih behind ⟨item :: s.items, k :: s.seen⟩ s' h
        refine ⟨⟨new ++ [k], items ++ [item], ?_, ?_, ?_, ?_, ?_, ?_, ?_⟩, ?_⟩
        · rw [hseen, List.append_assoc]
          rfl
        · rw [hitems, List.append_assoc]
          rfl
        · exact List.rel_append hgives (.cons ⟨behind, hvisit⟩ .nil)
        · refine List.nodup_append'.2 ⟨hnodup, List.nodup_singleton k, fun a ha hk => ?_⟩
          rw [List.mem_singleton.1 hk] at ha
          exact hfresh k ha (List.mem_cons_self ..)
        · intro a ha hs
          rcases List.mem_append.1 ha with ha | ha
          · exact hfresh a ha (List.mem_cons_of_mem _ hs)
          · rw [List.mem_singleton.1 ha] at hs
            exact hnew hs
        · intro a ha
          refine ⟨k, List.mem_singleton_self k, ?_⟩
          rcases List.mem_append.1 ha with ha | ha
          · obtain ⟨j, hj, hja⟩ := hreach a ha
            exact .head ⟨item, behind, hvisit, hj⟩ hja
          · rw [List.mem_singleton.1 ha]
            exact .refl
        · intro a ha b hb
          rcases List.mem_append.1 ha with ha | ha
          · exact hbehind a ha b hb
          · rw [List.mem_singleton.1 ha] at hb
            obtain ⟨item', behind', hvisit', hmem⟩ := hb
            rw [hvisit] at hvisit'
            cases hvisit'
            exact hstart b hmem
        · intro j hj
          rw [List.mem_singleton.1 hj, hseen]
          exact List.mem_append_right _ (List.mem_cons_self ..)

/-- **A walk without a failure has visited what the first node reaches**, each node once. -/
theorem collect_ok {fuel : ℕ} {k : κ} {s' : Progress κ α}
    (h : collect visit fuel k ⟨[], []⟩ = some (.ok s')) :
    List.Forall₂ (Gives visit) s'.seen s'.items ∧ s'.seen.Nodup ∧
      ∀ a, a ∈ s'.seen ↔ Reaches visit k a := by
  obtain ⟨⟨new, items, hseen, hitems, hgives, hnodup, -, hreach, hbehind⟩, hstart⟩ :=
    collect_visited fuel k ⟨[], []⟩ s' h
  rw [List.append_nil] at hseen hitems
  subst hseen hitems
  refine ⟨hgives, hnodup, fun a => ⟨fun ha => ?_, fun ha => ?_⟩⟩
  · obtain ⟨j, hj, hja⟩ := hreach a ha
    rwa [List.mem_singleton.1 hj] at hja
  · induction ha with
    | refl => exact hstart k (List.mem_singleton_self k)
    | tail _ hstep ih => exact hbehind _ ih _ hstep

/-! ### Failures -/

omit [DecidableEq κ] in
theorem collectEach_error {e : ε} {P : κ → Prop} (hwalk : ∀ k s, walk k s = some (.error e) → P k) :
    ∀ (ks : List κ) (s : Progress κ α), collectEach walk ks s = some (.error e) →
      ∃ k ∈ ks, P k := by
  intro ks
  induction ks with
  | nil =>
    intro s h
    cases h
  | cons k ks ih =>
    intro s h
    unfold collectEach at h
    cases hresult : walk k s with
    | none =>
      rw [hresult] at h
      cases h
    | some result =>
      rw [hresult] at h
      cases result with
      | error e' =>
        cases h
        exact ⟨k, List.mem_cons_self .., hwalk k s hresult⟩
      | ok s₁ =>
        obtain ⟨j, hj, hP⟩ := ih s₁ h
        exact ⟨j, List.mem_cons_of_mem _ hj, hP⟩

/-- **A failure of the walk is the failure of a node that the first one reaches.** -/
theorem collect_error {e : ε} : ∀ (fuel : ℕ) (k : κ) (s : Progress κ α),
    collect visit fuel k s = some (.error e) → ∃ a, Reaches visit k a ∧ visit a = .error e := by
  intro fuel
  induction fuel with
  | zero =>
    intro k s h
    cases h
  | succ fuel ih =>
    intro k s h
    unfold collect at h
    split at h
    · cases h
    · cases hvisit : visit k with
      | error e' =>
        rw [hvisit] at h
        cases h
        exact ⟨k, .refl, hvisit⟩
      | ok result =>
        obtain ⟨item, behind⟩ := result
        rw [hvisit] at h
        obtain ⟨j, hj, a, hja, ha⟩ := collectEach_error ih behind _ h
        exact ⟨a, .head ⟨item, behind, hvisit, hj⟩ hja, ha⟩

end QuickBeam.Lib.DepthFirst
