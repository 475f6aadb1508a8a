import Mathlib.Data.Fintype.Card
import Mathlib.Data.Set.Finite.Basic
import Mathlib.Logic.Relation
import Mathlib.Order.WellFounded
import Mathlib.Data.Finite.Defs
import Mathlib.Tactic.Common

/-!
# Unfolding a graph into a tree

A walk builds a tree out of a node and what is below it.  It remembers the guarded nodes on its
way and refuses one that it meets again; the other nodes it does not remember.  The walk gives a
tree exactly for the nodes below which no node is refused and no cycle lies, and it comes to an
end when no node is, through unguarded nodes alone, below itself.
-/

namespace QuickBeam.Lib.Unfolding

open Relation

/-- What a node is: refused, or a tree of what its children give. -/
inductive Content (α ε τ : Type*) where
  | refused (reason : ε)
  | children (nodes : List α) (build : List τ → τ)

variable {α ε τ : Type*}

/-- The results for the items of a list, up to the first error; `none` when one does not end. -/
def each (f : α → Option (Except ε τ)) : List α → Option (Except ε (List τ))
  | [] => some (.ok [])
  | a :: as =>
      match f a with
      | none => none
      | some (.error e) => some (.error e)
      | some (.ok t) =>
          match each f as with
          | none => none
          | some (.error e) => some (.error e)
          | some (.ok ts) => some (.ok (t :: ts))

/-! ### Lists -/

section Each

variable {f g : α → Option (Except ε τ)} {as : List α}

theorem each_cons (a : α) : each f (a :: as) =
    match f a with
    | none => none
    | some (.error e) => some (.error e)
    | some (.ok t) =>
        match each f as with
        | none => none
        | some (.error e) => some (.error e)
        | some (.ok ts) => some (.ok (t :: ts)) := rfl

variable {r : Except ε (List τ)}

theorem each_mono (hfg : ∀ a ∈ as, ∀ r, f a = some r → g a = some r) (h : each f as = some r) :
    each g as = some r := by
  induction as generalizing r with
  | nil => exact h
  | cons a as ih =>
    rw [each_cons] at h ⊢
    cases hf : f a with
    | none =>
      rw [hf] at h
      cases h
    | some result =>
      rw [hfg a (List.mem_cons_self ..) result hf]
      rw [hf] at h
      cases result with
      | error e => exact h
      | ok t =>
        dsimp only at h ⊢
        cases hrest : each f as with
        | none =>
          rw [hrest] at h
          cases h
        | some rest =>
          rw [hrest] at h
          rw [ih (fun b hb => hfg b (List.mem_cons_of_mem _ hb)) hrest]
          exact h

theorem each_ok_iff {ts : List τ} :
    each f as = some (.ok ts) ↔ List.Forall₂ (fun a t => f a = some (.ok t)) as ts := by
  induction as generalizing ts with
  | nil =>
    constructor
    · intro h
      cases h
      exact .nil
    · intro h
      cases h
      rfl
  | cons a as ih =>
    rw [each_cons]
    constructor
    · intro h
      cases hf : f a with
      | none =>
        rw [hf] at h
        cases h
      | some result =>
        rw [hf] at h
        cases result with
        | error e => cases h
        | ok t =>
          dsimp only at h
          cases hrest : each f as with
          | none =>
            rw [hrest] at h
            cases h
          | some rest =>
            rw [hrest] at h
            cases rest with
            | error e => cases h
            | ok rest =>
              cases h
              exact .cons hf (ih.1 hrest)
    · intro h
      cases h with
      | cons hf hrest => rw [hf, ih.2 hrest]

theorem each_error {e : ε} (h : each f as = some (.error e)) : ∃ a ∈ as, f a = some (.error e) := by
  induction as with
  | nil => cases h
  | cons a as ih =>
    rw [each_cons] at h
    cases hf : f a with
    | none =>
      rw [hf] at h
      cases h
    | some result =>
      rw [hf] at h
      cases result with
      | error e' =>
        cases h
        exact ⟨a, List.mem_cons_self .., hf⟩
      | ok t =>
        dsimp only at h
        cases hrest : each f as with
        | none =>
          rw [hrest] at h
          cases h
        | some rest =>
          rw [hrest] at h
          cases rest with
          | error e' =>
            cases h
            obtain ⟨b, hb, hfb⟩ := ih hrest
            exact ⟨b, List.mem_cons_of_mem _ hb, hfb⟩
          | ok rest => cases h

theorem each_asks {xs ys : List α} {b : α} (h : each f (xs ++ b :: ys) = some r)
    (hxs : ∀ x ∈ xs, ∀ e, f x ≠ some (.error e)) : ∃ result, f b = some result := by
  induction xs generalizing r with
  | nil =>
    rw [List.nil_append, each] at h
    cases hf : f b with
    | none =>
      rw [hf] at h
      cases h
    | some result => exact ⟨result, rfl⟩
  | cons x xs ih =>
    rw [List.cons_append, each] at h
    cases hf : f x with
    | none =>
      rw [hf] at h
      cases h
    | some result =>
      rw [hf] at h
      cases result with
      | error e => exact absurd hf (hxs x (List.mem_cons_self ..) e)
      | ok t =>
        dsimp only at h
        cases hrest : each f (xs ++ b :: ys) with
        | none =>
          rw [hrest] at h
          cases h
        | some rest => exact ih hrest fun y hy => hxs y (List.mem_cons_of_mem _ hy)

end Each

/-! ### The walk -/

variable [DecidableEq α] (content : α → Content α ε τ) (guarded : α → Bool) (cyclic : α → ε)

def assemble (f : α → Option (Except ε τ)) : Content α ε τ → Option (Except ε τ)
  | .refused e => some (.error e)
  | .children nodes build => (each f nodes).map (Except.map build)

/-- The tree of a node below the guarded nodes `seen`, with the fuel for its depth. -/
def walk : ℕ → List α → α → Option (Except ε τ)
  | 0, _, _ => none
  | n + 1, seen, a =>
      if guarded a then
        if a ∈ seen then some (.error (cyclic a))
        else assemble (walk n (a :: seen)) (content a)
      else assemble (walk n seen) (content a)

def Child (a b : α) : Prop := ∃ nodes build, content a = .children nodes build ∧ b ∈ nodes

def Refused (a : α) : Prop := ∃ e, content a = .refused e

/-- Below `a` no node is refused and no cycle lies. -/
def Unfolds (a : α) : Prop :=
  ∀ b, ReflTransGen (Child content) a b → ¬Refused content b ∧ ¬TransGen (Child content) b b

/-- The walk asks for `b` at the unguarded node `a`: the children before `b` unfold. -/
def Next (a b : α) : Prop :=
  guarded a = false ∧ ∃ before after build, content a = .children (before ++ b :: after) build ∧
    ∀ c ∈ before, Unfolds content c

variable {content guarded cyclic}

variable {c : Content α ε τ} {f : α → Option (Except ε τ)} {t : τ}

omit [DecidableEq α] in
theorem assemble_ok (h : assemble f c = some (.ok t)) :
    ∃ nodes build ts, c = .children nodes build ∧
      List.Forall₂ (fun a t => f a = some (.ok t)) nodes ts ∧ t = build ts := by
  cases c with
  | refused e => cases h
  | children nodes build =>
    obtain ⟨result, heach, hresult⟩ := Option.map_eq_some_iff.1 h
    cases result with
    | error e => cases hresult
    | ok ts =>
      cases hresult
      exact ⟨nodes, build, ts, rfl, each_ok_iff.1 heach, rfl⟩

variable {e : ε}

omit [DecidableEq α] in
theorem assemble_error (h : assemble f c = some (.error e)) : c = .refused e ∨
      ∃ nodes build, c = .children nodes build ∧ ∃ a ∈ nodes, f a = some (.error e) := by
  cases c with
  | refused e' =>
    cases h
    exact .inl rfl
  | children nodes build =>
    obtain ⟨result, heach, hresult⟩ := Option.map_eq_some_iff.1 h
    cases result with
    | error e' =>
      cases hresult
      exact .inr ⟨nodes, build, rfl, each_error heach⟩
    | ok ts => cases hresult

variable {r : Except ε τ}

omit [DecidableEq α] in
theorem assemble_mono {f g : α → Option (Except ε τ)} (hfg : ∀ a r, f a = some r → g a = some r)
    (h : assemble f c = some r) : assemble g c = some r := by
  cases c with
  | refused e => exact h
  | children nodes build =>
    obtain ⟨result, heach, hresult⟩ := Option.map_eq_some_iff.1 h
    exact Option.map_eq_some_iff.2 ⟨result, each_mono (fun a _ => hfg a) heach, hresult⟩

variable {a : α} {seen : List α}

theorem walk_mono {n m : ℕ} (hnm : n ≤ m) (h : walk content guarded cyclic n seen a = some r) :
    walk content guarded cyclic m seen a = some r := by
  induction n generalizing m seen a r with
  | zero => cases h
  | succ n ih =>
    obtain ⟨m, rfl⟩ : ∃ k, m = k + 1 := ⟨m - 1, by omega⟩
    have hrest : ∀ seen b r, walk content guarded cyclic n seen b = some r →
        walk content guarded cyclic m seen b = some r := fun seen b r hb => ih (by omega) hb
    rw [walk] at h ⊢
    by_cases hg : guarded a
    · rw [if_pos hg] at h ⊢
      by_cases hseen : a ∈ seen
      · rw [if_pos hseen] at h ⊢
        exact h
      · rw [if_neg hseen] at h ⊢
        exact assemble_mono (hrest _) h
    · rw [if_neg hg] at h ⊢
      exact assemble_mono (hrest _) h

/-! ### Success -/

variable {n : ℕ}

theorem walk_ok (h : walk content guarded cyclic n seen a = some (.ok t)) :
    ∃ m seen' nodes build ts, n = m + 1 ∧ content a = .children nodes build ∧
      List.Forall₂ (fun b t => walk content guarded cyclic m seen' b = some (.ok t)) nodes ts ∧
      t = build ts := by
  cases n with
  | zero => cases h
  | succ n =>
    rw [walk] at h
    by_cases hg : guarded a
    · rw [if_pos hg] at h
      by_cases hseen : a ∈ seen
      · rw [if_pos hseen] at h
        cases h
      · rw [if_neg hseen] at h
        obtain ⟨nodes, build, ts, hcontent, hnodes, ht⟩ := assemble_ok h
        exact ⟨n, _, nodes, build, ts, rfl, hcontent, hnodes, ht⟩
    · rw [if_neg hg] at h
      obtain ⟨nodes, build, ts, hcontent, hnodes, ht⟩ := assemble_ok h
      exact ⟨n, _, nodes, build, ts, rfl, hcontent, hnodes, ht⟩

variable {as : List α}

omit [DecidableEq α] in
theorem forall₂_of_mem {β : Type*} {R : α → β → Prop} {bs : List β} (h : List.Forall₂ R as bs)
    (ha : a ∈ as) : ∃ b ∈ bs, R a b := by
  induction h with
  | nil => cases ha
  | cons hab hrest ih =>
    rcases List.mem_cons.1 ha with heq | hmem
    · exact ⟨_, List.mem_cons_self .., heq ▸ hab⟩
    · obtain ⟨b, hb, hR⟩ := ih hmem
      exact ⟨b, List.mem_cons_of_mem _ hb, hR⟩

theorem walk_ok_child {a b : α} (h : walk content guarded cyclic n seen a = some (.ok t))
    (hchild : Child content a b) :
    ∃ m seen' t', m < n ∧ walk content guarded cyclic m seen' b = some (.ok t') := by
  obtain ⟨m, seen', nodes, build, ts, hn, hcontent, hnodes, -⟩ := walk_ok h
  obtain ⟨nodes', build', hcontent', hb⟩ := hchild
  cases hcontent.symm.trans hcontent'
  obtain ⟨t', -, ht'⟩ := forall₂_of_mem hnodes hb
  exact ⟨m, seen', t', by omega, ht'⟩

theorem walk_ok_below {a b : α} (h : walk content guarded cyclic n seen a = some (.ok t))
    (hbelow : TransGen (Child content) a b) :
    ∃ m seen' t', m < n ∧ walk content guarded cyclic m seen' b = some (.ok t') := by
  induction hbelow with
  | single hchild => exact walk_ok_child h hchild
  | tail _ hchild ih =>
    obtain ⟨m, seen', t', hm, hwalk⟩ := ih
    obtain ⟨k, seen'', t'', hk, hwalk'⟩ := walk_ok_child hwalk hchild
    exact ⟨k, seen'', t'', by omega, hwalk'⟩

theorem unfolds_of_walk_ok (h : walk content guarded cyclic n seen a = some (.ok t)) :
    Unfolds content a := by
  have hacyclic : ∀ n seen b t, walk content guarded cyclic n seen b = some (.ok t) →
      ¬TransGen (Child content) b b := by
    -- The walk of a node on a cycle contains a walk of the same node with less fuel.
    intro n
    induction n using Nat.strong_induction_on with
    | _ n ih =>
      intro seen b t hb hcycle
      obtain ⟨m, seen', t', hm, hwalk⟩ := walk_ok_below hb hcycle
      exact ih m hm seen' b t' hwalk hcycle
  intro b hreach
  have hb : ∃ m seen' t', walk content guarded cyclic m seen' b = some (.ok t') := by
    rcases reflTransGen_iff_eq_or_transGen.1 hreach with heq | hbelow
    · exact ⟨n, seen, t, heq ▸ h⟩
    · obtain ⟨m, seen', t', -, hwalk⟩ := walk_ok_below h hbelow
      exact ⟨m, seen', t', hwalk⟩
  obtain ⟨m, seen', t', hwalk⟩ := hb
  refine ⟨fun hrefused => ?_, hacyclic m seen' b t' hwalk⟩
  obtain ⟨e, he⟩ := hrefused
  obtain ⟨_, _, nodes, build, _, _, hcontent, -⟩ := walk_ok hwalk
  cases he.symm.trans hcontent

/-! ### Errors -/

/-- An error comes from a refused node, or from a guarded node that was met before. -/
theorem walk_error (h : walk content guarded cyclic n seen a = some (.error e)) :
    ∃ b, ReflTransGen (Child content) a b ∧
      (content b = .refused e ∨ e = cyclic b ∧ (b ∈ seen ∨ TransGen (Child content) b b)) := by
  induction n generalizing seen a with
  | zero => cases h
  | succ n ih =>
    rw [walk] at h
    by_cases hg : guarded a
    · rw [if_pos hg] at h
      by_cases hseen : a ∈ seen
      · rw [if_pos hseen] at h
        cases h
        exact ⟨a, .refl, .inr ⟨rfl, .inl hseen⟩⟩
      · rw [if_neg hseen] at h
        rcases assemble_error h with hrefused | ⟨nodes, build, hcontent, c, hc, hwalk⟩
        · exact ⟨a, .refl, .inl hrefused⟩
        · have hchild : Child content a c := ⟨nodes, build, hcontent, hc⟩
          obtain ⟨b, hreach, hb⟩ := ih hwalk
          refine ⟨b, .head hchild hreach, ?_⟩
          rcases hb with hrefused | ⟨he, hmem | hcycle⟩
          · exact .inl hrefused
          · rcases List.mem_cons.1 hmem with heq | hmem
            · exact .inr ⟨he, .inr (.head' (heq ▸ hchild) hreach)⟩
            · exact .inr ⟨he, .inl hmem⟩
          · exact .inr ⟨he, .inr hcycle⟩
    · rw [if_neg hg] at h
      rcases assemble_error h with hrefused | ⟨nodes, build, hcontent, c, hc, hwalk⟩
      · exact ⟨a, .refl, .inl hrefused⟩
      · obtain ⟨b, hreach, hb⟩ := ih hwalk
        exact ⟨b, .head ⟨nodes, build, hcontent, hc⟩ hreach, hb⟩

theorem not_unfolds_of_walk_error (h : walk content guarded cyclic n [] a = some (.error e)) :
    ¬Unfolds content a := by
  intro hunfolds
  obtain ⟨b, hreach, hb⟩ := walk_error h
  obtain ⟨hrefused, hcycle⟩ := hunfolds b hreach
  rcases hb with he | ⟨-, hmem | htrans⟩
  · exact hrefused ⟨e, he⟩
  · cases hmem
  · exact hcycle htrans

/-! ### Ending -/

theorem walk_next {a b : α} (h : walk content guarded cyclic n [] a = some r)
    (hnext : Next content guarded a b) :
    ∃ m r', m < n ∧ walk content guarded cyclic m [] b = some r' := by
  obtain ⟨hg, before, after, build, hcontent, hbefore⟩ := hnext
  cases n with
  | zero => cases h
  | succ n =>
    rw [walk, if_neg (by simp [hg]), hcontent] at h
    obtain ⟨result, heach, -⟩ := Option.map_eq_some_iff.1 h
    obtain ⟨r', hr'⟩ := each_asks heach fun c hc e he => not_unfolds_of_walk_error he (hbefore c hc)
    exact ⟨n, r', by omega, hr'⟩

theorem walk_of_loop (hloop : TransGen (Next content guarded) a a) (n : ℕ) :
    walk content guarded cyclic n [] a = none := by
  have hbelow : ∀ {n b r}, walk content guarded cyclic n [] a = some r →
      TransGen (Next content guarded) a b → ∃ m r', m < n ∧
        walk content guarded cyclic m [] b = some r' := by
    intro n b r h hnext
    induction hnext with
    | single hnext => exact walk_next h hnext
    | tail _ hnext ih =>
      obtain ⟨m, r', hm, hwalk⟩ := ih
      obtain ⟨k, r'', hk, hwalk'⟩ := walk_next hwalk hnext
      exact ⟨k, r'', by omega, hwalk'⟩
  induction n using Nat.strong_induction_on with
  | _ n ih =>
    cases hwalk : walk content guarded cyclic n [] a with
    | none => rfl
    | some r =>
      obtain ⟨m, r', hm, hwalk'⟩ := hbelow hwalk hloop
      rw [ih m hm] at hwalk'
      cases hwalk'

variable {F : ℕ → α → Option (Except ε τ)}

omit [DecidableEq α] in
/-- A list ends when each item does once the items before it have succeeded. -/
theorem each_ends (hmono : ∀ n m a r, n ≤ m → F n a = some r → F m a = some r)
    (h : ∀ before a after, as = before ++ a :: after → (∀ b ∈ before, ∃ n t, F n b = some (.ok
    t)) → ∃ n r, F n a = some r) : ∃ n r, each (F n) as = some r := by
  induction as with
  | nil => exact ⟨0, _, rfl⟩
  | cons a as ih =>
    obtain ⟨n, r, hr⟩ := h [] a as rfl (by simp)
    cases r with
    | error e =>
      refine ⟨n, .error e, ?_⟩
      rw [each, hr]
    | ok t =>
      obtain ⟨m, rest, hrest⟩ := ih fun before b after hsplit hbefore => by
        refine h (a :: before) b after (by rw [hsplit]; rfl) fun c hc => ?_
        rcases List.mem_cons.1 hc with heq | hmem
        · exact ⟨n, t, heq ▸ hr⟩
        · exact hbefore c hmem
      have hhead : F (max n m) a = some (.ok t) := hmono _ _ _ _ (le_max_left n m) hr
      have htail : each (F (max n m)) as = some rest :=
        each_mono (fun b _ r hb => hmono _ _ _ _ (le_max_right n m) hb) hrest
      cases rest with
      | error e =>
        refine ⟨max n m, .error e, ?_⟩
        rw [each, hhead]
        dsimp only
        rw [htail]
      | ok ts =>
        refine ⟨max n m, .ok (t :: ts), ?_⟩
        rw [each, hhead]
        dsimp only
        rw [htail]

omit [DecidableEq α] in
theorem assemble_ends (hmono : ∀ n m a r, n ≤ m → F n a = some r → F m a = some r)
    (h : ∀ before a after build, c = .children (before ++ a :: after) build → (∀ b ∈ before, ∃ n
    t, F n b = some (.ok t)) → ∃ n r, F n a = some r) : ∃ n r, assemble (F n) c = some r := by
  cases c with
  | refused e => exact ⟨0, _, rfl⟩
  | children nodes build =>
    have heach : ∃ n r, each (F n) nodes = some r := by
      refine each_ends hmono fun before a after hsplit hbefore => ?_
      exact h before a after build (congrArg (Content.children · build) hsplit) hbefore
    obtain ⟨n, r, hr⟩ := heach
    refine ⟨n, r.map build, ?_⟩
    show (each (F n) nodes).map _ = _
    rw [hr]
    rfl

/-- **The walk ends** where finitely many nodes lie below and none of them asks for itself. -/
theorem walk_ends (hfinite : {b | ReflTransGen (Child content) a b}.Finite)
    (hloop : ∀ b, ReflTransGen (Child content) a b → ¬TransGen (Next content guarded) b b) :
    ∃ n r, walk content guarded cyclic n [] a = some r := by
  let Below := {b // ReflTransGen (Child content) a b}
  have : Finite Below := hfinite.to_subtype
  let asked : Below → Below → Prop := fun c b => TransGen (Next content guarded) b.1 c.1
  have : IsTrans Below asked := ⟨fun _ _ _ hxy hyz => hyz.trans hxy⟩
  have : Std.Irrefl asked := ⟨fun b => hloop b.1 b.2⟩
  have hwf : WellFounded asked := Finite.wellFounded_of_trans_of_irrefl asked
  let unseen : List α → Finset α := fun seen => hfinite.toFinset.filter (· ∉ seen)
  -- First on the number of nodes not seen, then on the nodes an unguarded one asks for.
  have hends : ∀ k seen, (unseen seen).card = k → ∀ b : Below,
      ∃ n r, walk content guarded cyclic n seen b.1 = some r := by
    intro k
    induction k using Nat.strong_induction_on with
    | _ k ihk =>
      intro seen hk b
      induction b using hwf.induction with
      | _ b ihb =>
        by_cases hg : guarded b.1
        · by_cases hseen : b.1 ∈ seen
          · exact ⟨1, .error (cyclic b.1), by rw [walk, if_pos hg, if_pos hseen]⟩
          · have hfewer : (unseen (b.1 :: seen)).card < k := by
              rw [← hk]
              refine Finset.card_lt_card (Finset.ssubset_iff_of_subset ?_ |>.2 ⟨b.1, ?_, ?_⟩)
              · intro c hc
                obtain ⟨hc, hnot⟩ := Finset.mem_filter.1 hc
                exact Finset.mem_filter.2 ⟨hc, fun hmem => hnot (List.mem_cons_of_mem _ hmem)⟩
              · exact Finset.mem_filter.2 ⟨hfinite.mem_toFinset.2 b.2, hseen⟩
              · intro hmem
                exact (Finset.mem_filter.1 hmem).2 (List.mem_cons_self ..)
            obtain ⟨n, r, hr⟩ := assemble_ends (c := content b.1)
              (F := fun n => walk content guarded cyclic n (b.1 :: seen)) (fun _ _ _ _ hle hw => walk_mono hle hw)
              fun before c after build hcontent _ =>
                ihk _ hfewer _ rfl ⟨c, b.2.tail ⟨_, build, hcontent, by simp⟩⟩
            exact ⟨n + 1, r, by rw [walk, if_pos hg, if_neg hseen]; exact hr⟩
        · obtain ⟨n, r, hr⟩ := assemble_ends (c := content b.1)
            (F := fun n => walk content guarded cyclic n seen) (fun _ _ _ _ hle hw => walk_mono hle hw)
            fun before c after build hcontent hbefore => by
              have hnext : Next content guarded b.1 c :=
                ⟨by simpa using hg, before, after, build, hcontent, fun x hx => by
                  obtain ⟨m, t, ht⟩ := hbefore x hx
                  exact unfolds_of_walk_ok ht⟩
              exact ihb ⟨c, b.2.tail ⟨_, build, hcontent, by simp⟩⟩ (.single hnext)
          exact ⟨n + 1, r, by rw [walk, if_neg hg]; exact hr⟩
  exact hends _ [] rfl ⟨a, .refl⟩

end QuickBeam.Lib.Unfolding
