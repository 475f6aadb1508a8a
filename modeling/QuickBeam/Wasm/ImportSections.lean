import QuickBeam.Wasm.ImportEntries

/-!
# The sections of a rewritten module

A section that is put back or inserted goes before the first one with a larger identifier.  This is
its place for imports and memories, and for globals when the module has no tags, whose section has a
larger identifier and stands before the globals.
-/

namespace QuickBeam.Wasm.ImportRewriter

open QuickBeam.Lib QuickBeam.Lib.Leb128 QuickBeam.Lib.Wasm

/-! ### Insertion -/

variable {new s : Section} {sections : List Section}

theorem mem_insertSection : s ∈ insertSection sections new ↔ s = new ∨ s ∈ sections := by
  induction sections with
  | nil => exact List.mem_singleton.trans (by simp)
  | cons current rest ih =>
    rw [insertSection]
    split
    · exact List.mem_cons
    · rw [List.mem_cons, ih, List.mem_cons]
      exact or_left_comm

variable {p : Section → Bool}

theorem insertSection_filter (hnew : p new = false) (sections : List Section) :
    (insertSection sections new).filter p = sections.filter p := by
  induction sections with
  | nil => exact List.filter_cons_of_neg (Bool.eq_false_iff.1 hnew)
  | cons current rest ih =>
    rw [insertSection]
    split
    · exact List.filter_cons_of_neg (Bool.eq_false_iff.1 hnew)
    · rw [List.filter_cons, List.filter_cons, ih]

/-- The identifiers of two sections are in the order of their places. -/
def Agree (id new : ℕ) : Prop :=
  (new < id ∧ place new < place id) ∨ (id ≤ new ∧ place id < place new)

instance (id new : ℕ) : Decidable (Agree id new) := inferInstanceAs (Decidable (_ ∨ _))

/-- Only tags and globals are in another order than their identifiers. -/
theorem agree {id new : ℕ} (hid : id ≤ 13) (hcustom : id ≠ 0) (hne : id ≠ new)
    (hnew : new = 2 ∨ new = 5 ∨ (new = 6 ∧ id ≠ 13)) : Agree id new := by
  have hall : ∀ id < 14, id ≠ 0 → (id ≠ 2 → Agree id 2) ∧ (id ≠ 5 → Agree id 5) ∧
      (id ≠ 6 → id ≠ 13 → Agree id 6) := by decide
  obtain ⟨himport, hmemory, hglobal⟩ := hall id (Nat.lt_succ_of_le hid) hcustom
  rcases hnew with rfl | rfl | ⟨rfl, htag⟩
  · exact himport hne
  · exact hmemory hne
  · exact hglobal hne htag

theorem insertSection_inPlace (h : InPlace sections) (hknown : new.id ≤ 13) (hcustom : new.id ≠ 0)
    (hagree : ∀ s ∈ sections, s.id ≠ 0 → Agree s.id new.id) :
    InPlace (insertSection sections new) where
  known := by
    intro s hin
    rcases mem_insertSection.1 hin with rfl | hin
    · exact hknown
    · exact h.known s hin
  ordered := by
    have hnew : decide (new.id ≠ 0) = true := decide_eq_true hcustom
    have hordered := h.ordered
    clear h
    induction sections with
    | nil =>
      rw [insertSection, List.filter_cons, if_pos hnew, List.filter_nil]
      exact List.pairwise_singleton _ _
    | cons current rest ih =>
      have hrest := ih fun s hin => hagree s (List.mem_cons_of_mem _ hin)
      rw [insertSection]
      by_cases hzero : current.id = 0
      · have hskip : ¬ decide (current.id ≠ 0) = true := by
          rw [decide_eq_true_eq]
          exact fun hne => hne hzero
        rw [if_neg fun h => h.2 hzero, List.filter_cons, if_neg hskip]
        rw [List.filter_cons, if_neg hskip] at hordered
        exact hrest hordered
      · have hkeep : decide (current.id ≠ 0) = true := decide_eq_true hzero
        rw [List.filter_cons, if_pos hkeep, List.pairwise_cons] at hordered
        obtain ⟨hfirst, hordered⟩ := hordered
        rcases hagree current List.mem_cons_self hzero with ⟨hid, hplace⟩ | ⟨hid, hplace⟩
        · rw [if_pos ⟨hid, hzero⟩, List.filter_cons, if_pos hnew, List.filter_cons, if_pos hkeep]
          refine .cons ?_ (.cons hfirst hordered)
          intro t hin
          rcases List.mem_cons.1 hin with rfl | hin
          · exact hplace
          · exact Nat.lt_trans hplace (hfirst t hin)
        · rw [if_neg fun h => Nat.not_lt.2 hid h.1, List.filter_cons, if_pos hkeep]
          refine .cons ?_ (hrest hordered)
          intro t hin
          obtain ⟨hin, hcustom⟩ := List.mem_filter.1 hin
          rcases mem_insertSection.1 hin with rfl | hin
          · exact hplace
          · exact hfirst t (List.mem_filter.2 ⟨hin, hcustom⟩)

/-! ### Replacement -/

theorem inPlace_filter (h : InPlace sections) (p : Section → Bool) :
    InPlace (sections.filter p) where
  known := fun s hin => h.known s (List.mem_of_mem_filter hin)
  ordered := by
    rw [List.filter_comm]
    exact h.ordered.filter p

variable {rest : List Section}

theorem inPlace_tail (h : InPlace (s :: rest)) : InPlace rest where
  known := fun t hin => h.known t (List.mem_cons_of_mem _ hin)
  ordered := h.ordered.sublist ((List.sublist_cons_self _ _).filter _)

theorem ne_of_inPlace {s t : Section} (h : InPlace (s :: rest)) (hcustom : s.id ≠ 0)
    (hin : t ∈ rest) : t.id ≠ s.id := by
  intro heq
  have hordered := h.ordered
  rw [List.filter_cons, if_pos (decide_eq_true hcustom), List.pairwise_cons] at hordered
  have hplace := hordered.1 t (List.mem_filter.2 ⟨hin, decide_eq_true (heq ▸ hcustom)⟩)
  rw [heq] at hplace
  exact Nat.lt_irrefl _ hplace

def without (id : ℕ) (sections : List Section) : List Section :=
  sections.filter fun s => s.id ≠ id

variable {id : ℕ}

theorem without_eq (h : ∀ s ∈ sections, s.id ≠ id) : without id sections = sections :=
  List.filter_eq_self.2 fun s hin => decide_eq_true (h s hin)

theorem keytake_absent (h : ∀ s ∈ sections, s.id ≠ id) : keytake id sections = none := by
  induction sections with
  | nil => rfl
  | cons s rest ih =>
    rw [keytake, if_neg (h s List.mem_cons_self),
      ih fun t hin => h t (List.mem_cons_of_mem _ hin)]
    rfl

theorem keytake_present {payload : Bytes} (hplace : InPlace sections) (hcustom : id ≠ 0)
    (hin : ⟨id, payload⟩ ∈ sections) :
    keytake id sections = some (payload, without id sections) := by
  induction sections with
  | nil => cases hin
  | cons s rest ih =>
    rw [keytake]
    rcases List.mem_cons.1 hin with rfl | hin
    · have hrest : ∀ t ∈ rest, t.id ≠ id := fun t ht => ne_of_inPlace hplace hcustom ht
      rw [if_pos rfl, without, List.filter_cons, if_neg (by simp)]
      exact congrArg (fun rest => some (payload, rest)) (without_eq hrest).symm
    · have hne : s.id ≠ id := by
        intro heq
        exact ne_of_inPlace hplace (heq ▸ hcustom) hin heq.symm
      rw [if_neg hne, ih (inPlace_tail hplace) hin, without, without,
        List.filter_cons, if_pos (decide_eq_true hne)]
      rfl

/-- The sections with an identifier are gone or replaced, and the others are the same. -/
structure Replaces (id : ℕ) (sections sections' : List Section) : Prop where
  inPlace : InPlace sections'
  others : without id sections' = without id sections

theorem replaces_without (h : InPlace sections) : Replaces id sections (without id sections) where
  inPlace := inPlace_filter h _
  others := without_eq fun _ hin => of_decide_eq_true (List.mem_filter.1 hin).2

theorem replaces_insert (h : InPlace sections)
    (hid : id = 2 ∨ id = 5 ∨ (id = 6 ∧ ∀ s ∈ sections, s.id ≠ 13)) (payload : Bytes) :
    Replaces id sections (insertSection (without id sections) ⟨id, payload⟩) where
  inPlace := by
    refine insertSection_inPlace (inPlace_filter h _) ?_ ?_ ?_
    · show id ≤ 13
      rcases hid with rfl | rfl | ⟨rfl, -⟩ <;> decide
    · show id ≠ 0
      rcases hid with rfl | rfl | ⟨rfl, -⟩ <;> decide
    · intro s hin hcustom
      have hne := (List.mem_filter.1 hin).2
      replace hin := (List.mem_filter.1 hin).1
      refine agree (h.known s hin) hcustom (of_decide_eq_true hne) ?_
      rcases hid with rfl | rfl | ⟨rfl, htag⟩
      · exact .inl rfl
      · exact .inr (.inl rfl)
      · exact .inr (.inr ⟨rfl, htag s hin⟩)
  others := by
    have hnew : decide ((⟨id, payload⟩ : Section).id ≠ id) = false := by simp
    rw [without, insertSection_filter hnew]
    exact (replaces_without h).others

variable {sections' : List Section}

theorem Replaces.mem_iff (h : Replaces id sections sections') (hs : s.id ≠ id) :
    s ∈ sections' ↔ s ∈ sections := by
  have hmem : ∀ l : List Section, s ∈ without id l ↔ s ∈ l :=
    fun l => List.mem_filter.trans (and_iff_left (decide_eq_true hs))
  rw [← hmem, h.others, hmem]

variable {β : Type}

theorem Replaces.entries {item : Bytes → β → Prop} {id id' : ℕ}
    (h : Replaces id sections sections') (hne : id' ≠ id) {xs : List β}
    (hentries : Entries item id' sections xs) : Entries item id' sections' xs := by
  cases hentries with
  | absent habsent =>
    refine .absent fun s hin heq => habsent s ?_ heq
    exact (h.mem_iff (heq ▸ hne)).1 hin
  | present hin hvec => exact .present ((h.mem_iff hne).2 hin) hvec

theorem Replaces.filter (h : Replaces id sections sections')
    (hp : ∀ s : Section, s.id = id → p s = false) : sections'.filter p = sections.filter p := by
  have hsame : ∀ l : List Section, (without id l).filter p = l.filter p := by
    intro l
    rw [without, List.filter_filter]
    refine List.filter_congr fun s _ => ?_
    by_cases hs : s.id = id
    · rw [hp s hs, Bool.false_and]
    · rw [decide_eq_true hs, Bool.and_true]
  rw [← hsame, h.others, hsame]

/-! ### Sizes -/

variable {items : List Bytes}

theorem length_le_flatten (h : ∀ item ∈ items, item ≠ []) :
    items.length ≤ items.flatten.length := by
  induction items with
  | nil => exact le_refl 0
  | cons item items ih =>
    have hitem := List.length_pos_iff.2 (h item List.mem_cons_self)
    have hrest := ih fun item hin => h item (List.mem_cons_of_mem _ hin)
    rw [List.flatten_cons, List.length_append, List.length_cons]
    omega

theorem length_payload_lt (hin : s ∈ sections) : s.payload.length < (rebuild sections).length := by
  have hpart : (encodeSection s).length ≤ (sections.flatMap encodeSection).length := by
    obtain ⟨before, after, rfl⟩ := List.append_of_mem hin
    rw [List.flatMap_append, List.flatMap_cons, List.length_append, List.length_append]
    omega
  have hsection : (encodeSection s).length =
      (encodeU32 s.payload.length).length + s.payload.length + 1 := by
    rw [encodeSection, List.length_cons, List.length_append]
  rw [rebuild, List.length_append]
  omega

theorem length_le_encodeVecRaw (h : ∀ item ∈ items, item ≠ []) :
    items.length ≤ (encodeVecRaw items).length := by
  have hflatten := length_le_flatten h
  rw [encodeVecRaw, List.length_append]
  omega

/-! ### New entries -/

variable {decode : Bytes → Except Failure (List Bytes)}
  {encode : Validated → Except Failure Bytes} {imports : List Validated}

theorem prependSectionEntries_eq {item : Bytes → β → Prop} {xs : List β} {new : List Bytes}
    (hplace : InPlace sections) (hcustom : id ≠ 0) (hentries : Entries item id sections xs)
    (himports : imports.isEmpty = false) (hnew : imports.mapM encode = .ok new)
    (hdecode : ∀ payload, IsVec item payload xs → ∃ items, decode payload = .ok items ∧
    List.Forall₂ item items xs) : ∃ items, List.Forall₂ item items xs ∧
      prependSectionEntries sections id imports encode decode =
        .ok (insertSection (without id sections) ⟨id, encodeVecRaw (new ++ items)⟩) := by
  cases hentries with
  | absent habsent =>
    refine ⟨[], .nil, ?_⟩
    rw [prependSectionEntries, if_neg (Bool.eq_false_iff.1 himports), hnew,
      keytake_absent habsent, without_eq habsent, List.append_nil]
    rfl
  | @present payload _ hin hvec =>
    obtain ⟨items, hitems, hforall⟩ := hdecode payload hvec
    refine ⟨items, hforall, ?_⟩
    rw [prependSectionEntries, if_neg (Bool.eq_false_iff.1 himports), hnew,
      keytake_present hplace hcustom hin]
    show (do
      let items ← decode payload
      return insertSection (without id sections) ⟨id, encodeVecRaw (new ++ items)⟩) = _
    rw [hitems]
    rfl

def Fits (id : ℕ) (sections : List Section) : Prop :=
  ∀ s ∈ sections, s.id = id → s.payload.length < 2 ^ 32

theorem entries_insert {item : Bytes → β → Prop} {xs : List β}
    (hitems : List.Forall₂ item items xs) (hne : ∀ raw ∈ items, raw ≠ [])
    (hfits : Fits id (insertSection sections ⟨id, encodeVecRaw items⟩)) :
    Entries item id (insertSection sections ⟨id, encodeVecRaw items⟩) xs := by
  have hin : (⟨id, encodeVecRaw items⟩ : Section) ∈
      insertSection sections ⟨id, encodeVecRaw items⟩ := mem_insertSection.2 (.inl rfl)
  have hlength : (encodeVecRaw items).length < 2 ^ 32 := hfits _ hin rfl
  refine .present hin (encodeVecRaw_isVec hitems ?_)
  exact Nat.lt_of_le_of_lt (length_le_encodeVecRaw hne) hlength

theorem prependSectionEntries_spec {item : Bytes → β → Prop} {xs ys : List β} {new : List Bytes}
    (hplace : InPlace sections) (hcustom : id ≠ 0) (hentries : Entries item id sections xs)
    (hnew : imports.mapM encode = .ok new) (hitems : List.Forall₂ item new ys)
    (hne : ∀ raw x, item raw x → raw ≠ [])
    (hid : imports.isEmpty = false → id = 2 ∨ id = 5 ∨ (id = 6 ∧ ∀ s ∈ sections, s.id ≠ 13))
    (hdecode : imports.isEmpty = false → ∀ payload, IsVec item payload xs → ∃ items, decode
    payload = .ok items ∧ List.Forall₂ item items xs) :
    ∃ sections', prependSectionEntries sections id imports encode decode = .ok sections' ∧
      Replaces id sections sections' ∧
      (imports.isEmpty = true → sections' = sections) ∧
      (Fits id sections' → Entries item id sections' (ys ++ xs)) := by
  by_cases himports : imports.isEmpty = true
  · refine ⟨sections, if_pos himports, ⟨hplace, rfl⟩, fun _ => rfl, fun _ => ?_⟩
    rw [List.isEmpty_iff.1 himports, List.mapM_nil] at hnew
    rw [← Except.ok.inj hnew] at hitems
    cases hitems
    exact hentries
  · have himports' := Bool.eq_false_iff.2 himports
    obtain ⟨items, hold, heq⟩ := prependSectionEntries_eq hplace hcustom hentries himports' hnew
      (hdecode himports')
    have hall : List.Forall₂ item (new ++ items) (ys ++ xs) := List.rel_append hitems hold
    refine ⟨_, heq, replaces_insert hplace (hid himports') _, fun h => absurd h himports,
      entries_insert hall ?_⟩
    intro raw hraw
    obtain ⟨i, hi, rfl⟩ := List.getElem_of_mem hraw
    exact hne _ _ (hall.get hi (hall.length_eq ▸ hi))

end QuickBeam.Wasm.ImportRewriter
