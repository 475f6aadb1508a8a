import QuickBeam.Text.TextDecoder

/-!
# The steps of the decoder's loops

`scan` lists the steps in which `validate_utf8` and `replace_invalid_utf8` walk their input, and
the decoder is the scan read out (`decode_eq`).

Two parts scanned alone take the steps of the whole unless the cut falls inside a sequence
(`scan_append`).  A sequence that is cut becomes one U+FFFD for each of its bytes, which shows in
the number of code points other than U+FEFF; that one is left out because a byte-order mark may
be stripped.
-/

namespace QuickBeam.Text

/-! ### The steps of the loops -/

/-- One step: the bytes it passes, the code point it yields, and whether the input was valid. -/
structure Step where
  bytes : List UInt8
  point : ℕ
  valid : Bool
deriving DecidableEq

def strayStep (b : UInt8) : Step := ⟨[b], 0xFFFD, false⟩

/-- A lead byte with all its continuation bytes. -/
def isSequence : List UInt8 → Bool
  | [] => false
  | b :: rest => sequenceLength b == some (rest.length + 1) && validateContinuation rest

def sequenceStep (bytes : List UInt8) : Step :=
  let cp := decodeCodepoint bytes bytes.length
  if isInvalid cp bytes.length then ⟨bytes, 0xFFFD, false⟩ else ⟨bytes, cp, true⟩

/-- The step at the byte `b` with the bytes `rest` behind it. -/
def stepAt (b : UInt8) (rest : List UInt8) : Step :=
  match branch b rest with
  | .ascii => ⟨[b], b.toNat, true⟩
  | .stray => strayStep b
  | .invalid sl => ⟨b :: rest.take (sl - 1), 0xFFFD, false⟩
  | .scalar sl => ⟨b :: rest.take (sl - 1), decodeCodepoint (b :: rest) sl, true⟩

def scan : List UInt8 → List Step
  | [] => []
  | b :: rest => stepAt b rest :: scan (rest.drop ((stepAt b rest).bytes.length - 1))
termination_by data => data.length
decreasing_by simp only [List.length_cons, List.length_drop]; omega

/-! ### Bytes -/

variable {b : UInt8} {sl : ℕ}

theorem sequenceLength_cases (h : sequenceLength b = some sl) : sl = 2 ∨ sl = 3 ∨ sl = 4 := by
  unfold sequenceLength at h
  split at h
  · exact .inl (Option.some.inj h).symm
  split at h
  · exact .inr (.inl (Option.some.inj h).symm)
  split at h
  · exact .inr (.inr (Option.some.inj h).symm)
  · cases h

private theorem byte_cases : ∀ i : Fin 256, isContinuation (UInt8.ofNat i) = true →
    ¬ UInt8.ofNat i < 0x80 ∧ sequenceLength (UInt8.ofNat i) = none := by
  decide +kernel

private theorem lead_cases : ∀ i : Fin 256, (sequenceLength (UInt8.ofNat i)).isSome →
    ¬ UInt8.ofNat i < 0x80 := by
  decide +kernel

theorem continuation_begins_nothing (h : isContinuation b = true) :
    ¬ b < 0x80 ∧ sequenceLength b = none := by
  have hb := byte_cases ⟨b.toNat, b.toNat_lt⟩
  rw [show UInt8.ofNat (⟨b.toNat, b.toNat_lt⟩ : Fin 256) = b from UInt8.ofNat_toNat] at hb
  exact hb h

theorem not_ascii_of_lead (h : sequenceLength b = some sl) : ¬ b < 0x80 := by
  have hb := lead_cases ⟨b.toNat, b.toNat_lt⟩
  rw [show UInt8.ofNat (⟨b.toNat, b.toNat_lt⟩ : Fin 256) = b from UInt8.ofNat_toNat] at hb
  exact hb (by rw [h]; rfl)

theorem decodeCodepoint_take {data : List UInt8} (h : sl = 2 ∨ sl = 3 ∨ sl = 4) :
    decodeCodepoint (data.take sl) sl = decodeCodepoint data sl := by
  have hget : ∀ i < sl, (data.take sl).getD i 0 = data.getD i 0 := by
    intro i hi
    rw [List.getD_eq_getElem?_getD, List.getD_eq_getElem?_getD, List.getElem?_take_of_lt hi]
  rcases h with rfl | rfl | rfl
  · simp only [decodeCodepoint, hget 0 (by omega), hget 1 (by omega)]
  · simp only [decodeCodepoint, hget 0 (by omega), hget 1 (by omega), hget 2 (by omega)]
  · simp only [decodeCodepoint, hget 0 (by omega), hget 1 (by omega), hget 2 (by omega),
      hget 3 (by omega)]

/-! ### Which branch is taken -/

variable {s : List UInt8}

theorem isSequence_cons (h : isSequence (b :: s) = true) :
    sequenceLength b = some (s.length + 1) ∧ validateContinuation s = true := by
  rwa [isSequence, Bool.and_eq_true, beq_iff_eq] at h

theorem branch_ascii (rest : List UInt8) (h : b < 0x80) : branch b rest = .ascii := by
  rw [branch, if_pos h]

theorem branch_sequence (v : List UInt8) (h : isSequence (b :: s) = true) :
    branch b (s ++ v) = if isInvalid (decodeCodepoint (b :: s) (s.length + 1)) (s.length + 1)
      then .invalid (s.length + 1) else .scalar (s.length + 1) := by
  obtain ⟨hlen, hcont⟩ := isSequence_cons h
  have htake : (s ++ v).take (s.length + 1 - 1) = s := by
    rw [Nat.add_sub_cancel]
    exact List.take_left
  have hcp : decodeCodepoint (b :: (s ++ v)) (s.length + 1) =
      decodeCodepoint (b :: s) (s.length + 1) := by
    rw [← decodeCodepoint_take (sequenceLength_cases hlen), List.take_succ_cons, List.take_left]
  have hshort : ¬ (s ++ v).length + 1 < s.length + 1 := by
    rw [List.length_append]
    omega
  rw [branch, if_neg (not_ascii_of_lead hlen)]
  simp only [hlen, htake, hcont, hcp, hshort, decide_false, Bool.not_true, Bool.or_self,
    Bool.false_eq_true, if_false]

variable {rest : List UInt8}

theorem branch_stray (hascii : ¬ b < 0x80)
    (hnone : ∀ s v, rest = s ++ v → isSequence (b :: s) = false) : branch b rest = .stray := by
  rw [branch, if_neg hascii]
  cases hlen : sequenceLength b with
  | none => rfl
  | some sl =>
    have hstray : (rest.length + 1 < sl || !validateContinuation (rest.take (sl - 1))) = true := by
      by_contra hwhole
      rw [Bool.or_eq_true, decide_eq_true_eq, not_or, Bool.not_eq_true', Bool.not_eq_false] at hwhole
      obtain ⟨hlong, hcont⟩ := hwhole
      have hseq := hnone (rest.take (sl - 1)) (rest.drop (sl - 1)) (List.take_append_drop _ _).symm
      have hsl := sequenceLength_cases hlen
      rw [isSequence, hcont, hlen, List.length_take, Nat.min_eq_left (by omega),
        Nat.sub_add_cancel (by omega)] at hseq
      simp at hseq
    simp only [hstray, if_true]

theorem position_cases (b : UInt8) (rest : List UInt8) :
    b < 0x80 ∨ (∃ s v, rest = s ++ v ∧ isSequence (b :: s) = true) ∨
      ¬ b < 0x80 ∧ ∀ s v, rest = s ++ v → isSequence (b :: s) = false := by
  by_cases hascii : b < 0x80
  · exact .inl hascii
  by_cases hseq : ∃ s v, rest = s ++ v ∧ isSequence (b :: s) = true
  · exact .inr (.inl hseq)
  · refine .inr (.inr ⟨hascii, fun s v hrest => ?_⟩)
    by_contra hs
    exact hseq ⟨s, v, hrest, Bool.not_eq_false _ ▸ hs⟩

theorem bytes_induction {P : List UInt8 → Prop} (nil : P [])
    (ascii : ∀ b rest, b < 0x80 → P rest → P (b :: rest))
    (sequence : ∀ b s v, isSequence (b :: s) = true → P v → P (b :: (s ++ v)))
    (stray : ∀ b rest, ¬ b < 0x80 → (∀ s v, rest = s ++ v → isSequence (b :: s) = false) →
      P rest → P (b :: rest)) : ∀ data, P data
  | [] => nil
  | b :: rest => by
    rcases position_cases b rest with hascii | ⟨s, v, rfl, hs⟩ | ⟨hascii, hnone⟩
    · exact ascii b rest hascii (bytes_induction nil ascii sequence stray rest)
    · exact sequence b s v hs (bytes_induction nil ascii sequence stray v)
    · exact stray b rest hascii hnone (bytes_induction nil ascii sequence stray rest)
termination_by data => data.length
decreasing_by
  · simp
  · subst_vars
    simp only [List.length_cons, List.length_append]
    omega
  · simp

/-! ### The scan -/

@[simp] theorem scan_nil : scan [] = [] := by rw [scan]

theorem scan_ascii (rest : List UInt8) (h : b < 0x80) :
    scan (b :: rest) = ⟨[b], b.toNat, true⟩ :: scan rest := by
  rw [scan, stepAt, branch_ascii rest h]
  rfl

theorem scan_stray (hascii : ¬ b < 0x80)
    (hnone : ∀ s v, rest = s ++ v → isSequence (b :: s) = false) :
    scan (b :: rest) = strayStep b :: scan rest := by
  rw [scan, stepAt, branch_stray hascii hnone]
  rfl

theorem stepAt_sequence (v : List UInt8) (h : isSequence (b :: s) = true) :
    stepAt b (s ++ v) = sequenceStep (b :: s) := by
  have hcp : decodeCodepoint (b :: (s ++ v)) (s.length + 1) =
      decodeCodepoint (b :: s) (s.length + 1) := by
    rw [← decodeCodepoint_take (sequenceLength_cases (isSequence_cons h).1), List.take_succ_cons,
      List.take_left]
  rw [stepAt, branch_sequence v h, sequenceStep, List.length_cons]
  cases isInvalid (decodeCodepoint (b :: s) (s.length + 1)) (s.length + 1) with
  | true => simp only [if_true, Nat.add_sub_cancel, List.take_left]
  | false => simp only [Bool.false_eq_true, if_false, Nat.add_sub_cancel, List.take_left, hcp]

theorem bytes_sequenceStep (s : List UInt8) : (sequenceStep s).bytes = s := by
  simp only [sequenceStep]
  split <;> rfl

theorem scan_sequence (v : List UInt8) (h : isSequence s = true) :
    scan (s ++ v) = sequenceStep s :: scan v := by
  cases s with
  | nil => cases h
  | cons b s =>
    rw [List.cons_append, scan, stepAt_sequence v h, bytes_sequenceStep, List.length_cons,
      Nat.add_sub_cancel, List.drop_left]

theorem scan_continuation {t : List UInt8} (v : List UInt8) (h : validateContinuation t = true) :
    scan (t ++ v) = t.map strayStep ++ scan v := by
  induction t with
  | nil => rfl
  | cons b t ih =>
    rw [validateContinuation, List.all_cons, Bool.and_eq_true] at h
    obtain ⟨hascii, hlead⟩ := continuation_begins_nothing h.1
    have hnone : ∀ s w, t ++ v = s ++ w → isSequence (b :: s) = false := by
      intro s w _
      by_contra hs
      rw [Bool.not_eq_false] at hs
      have hlen := (isSequence_cons hs).1
      rw [hlead] at hlen
      cases hlen
    rw [List.cons_append, scan_stray hascii hnone, ih h.2]
    rfl

/-! ### Cuts -/

/-- The cut between `a` and `b` falls inside a sequence. -/
def Cuts (a b : List UInt8) : Prop :=
  ∃ u s₁ s₂ v, a = u ++ s₁ ∧ b = s₂ ++ v ∧ s₁ ≠ [] ∧ s₂ ≠ [] ∧ isSequence (s₁ ++ s₂) = true

def CutsFirst (a b : List UInt8) : Prop :=
  ∃ s₂ v, b = s₂ ++ v ∧ s₂ ≠ [] ∧ isSequence (a ++ s₂) = true

theorem not_cuts_nil (b : List UInt8) : ¬ Cuts [] b := by
  rintro ⟨u, s₁, s₂, v, ha, -, hs₁, -⟩
  exact hs₁ (List.append_eq_nil_iff.1 ha.symm).2

variable {c : UInt8}

theorem cuts_cons {a b : List UInt8} : Cuts (c :: a) b ↔ CutsFirst (c :: a) b ∨ Cuts a b := by
  constructor
  · rintro ⟨u, s₁, s₂, v, ha, hb, hs₁, hs₂, hseq⟩
    cases u with
    | nil =>
      rw [List.nil_append] at ha
      rw [← ha] at hseq
      exact .inl ⟨s₂, v, hb, hs₂, hseq⟩
    | cons d u =>
      rw [List.cons_append, List.cons.injEq] at ha
      exact .inr ⟨u, s₁, s₂, v, ha.2, hb, hs₁, hs₂, hseq⟩
  · rintro (⟨s₂, v, hb, hs₂, hseq⟩ | ⟨u, s₁, s₂, v, ha, hb, hs₁, hs₂, hseq⟩)
    · exact ⟨[], c :: a, s₂, v, rfl, hb, List.cons_ne_nil _ _, hs₂, hseq⟩
    · exact ⟨c :: u, s₁, s₂, v, by rw [ha]; rfl, hb, hs₁, hs₂, hseq⟩

theorem cuts_cons_of_not_lead {a b : List UInt8} (h : sequenceLength c = none) :
    Cuts (c :: a) b ↔ Cuts a b := by
  rw [cuts_cons]
  constructor
  · rintro (⟨s₂, v, -, -, hseq⟩ | hcut)
    · have hlen := (isSequence_cons hseq).1
      rw [h] at hlen
      cases hlen
    · exact hcut
  · exact .inr

theorem sequenceLength_ascii (h : b < 0x80) : sequenceLength b = none := by
  cases hlen : sequenceLength b with
  | none => rfl
  | some sl => exact absurd h (not_ascii_of_lead hlen)

theorem cuts_continuation {t a b : List UInt8} (h : validateContinuation t = true) :
    Cuts (t ++ a) b ↔ Cuts a b := by
  induction t with
  | nil => exact .rfl
  | cons c t ih =>
    rw [validateContinuation, List.all_cons, Bool.and_eq_true] at h
    rw [List.cons_append, cuts_cons_of_not_lead (continuation_begins_nothing h.1).2]
    exact ih h.2

theorem cuts_sequence {s a b : List UInt8} (h : isSequence s = true) :
    Cuts (s ++ a) b ↔ Cuts a b := by
  cases s with
  | nil => cases h
  | cons c s =>
    obtain ⟨hlen, hcont⟩ := isSequence_cons h
    rw [List.cons_append, cuts_cons, cuts_continuation hcont]
    constructor
    · rintro (⟨s₂, v, -, hs₂, hseq⟩ | hcut)
      · -- Both sequences have the length that their common lead byte announces.
        rw [List.cons_append] at hseq
        have hlong := (isSequence_cons hseq).1
        rw [hlen, Option.some.injEq, List.length_append, List.length_append] at hlong
        exact absurd (List.length_eq_zero_iff.1 (by omega)) hs₂
      · exact hcut
    · exact .inr

/-! ### Scanning two parts -/

def weight (steps : List Step) : ℕ := steps.countP fun x => x.point ≠ 0xFEFF

theorem weight_append (xs ys : List Step) : weight (xs ++ ys) = weight xs + weight ys :=
  List.countP_append

theorem weight_cons (x : Step) (xs : List Step) : weight (x :: xs) = weight [x] + weight xs :=
  weight_append [x] xs

theorem weight_singleton_le (x : Step) : weight [x] ≤ 1 := List.countP_le_length

theorem weight_map_strayStep (t : List UInt8) : weight (t.map strayStep) = t.length := by
  induction t with
  | nil => rfl
  | cons b t ih =>
    rw [List.map_cons, weight_cons, ih, List.length_cons, Nat.add_comm]
    rfl

theorem weight_of_cutsFirst {a b : List UInt8} (hascii : ¬ c < 0x80)
    (hnone : ∀ s v, a = s ++ v → isSequence (c :: s) = false) (h : CutsFirst (c :: a) b) :
    weight (scan (c :: a ++ b)) < weight (scan (c :: a)) + weight (scan b) := by
  obtain ⟨s₂, v, rfl, hs₂, hseq⟩ := h
  have hcont : validateContinuation s₂ = true := by
    rw [List.cons_append] at hseq
    have hall := (isSequence_cons hseq).2
    rw [validateContinuation, List.all_append, Bool.and_eq_true] at hall
    exact hall.2
  have hpos : 0 < s₂.length := List.length_pos_of_ne_nil hs₂
  have hone : weight [strayStep c] = 1 := rfl
  have hwhole := weight_singleton_le (sequenceStep (c :: a ++ s₂))
  rw [← List.append_assoc, scan_sequence v hseq, scan_stray hascii hnone, scan_continuation v hcont,
    weight_cons, weight_cons (strayStep c), weight_append, weight_map_strayStep, hone]
  omega

/-- **Two parts**: either the cut is between two steps, or it falls inside a sequence and shows. -/
theorem scan_append (a b : List UInt8) :
    ¬ Cuts a b ∧ scan (a ++ b) = scan a ++ scan b ∨
      Cuts a b ∧ weight (scan (a ++ b)) < weight (scan a) + weight (scan b) := by
  induction a using bytes_induction with
  | nil => exact .inl ⟨not_cuts_nil b, by rw [scan_nil]; rfl⟩
  | ascii c a hascii ih =>
    rw [cuts_cons_of_not_lead (sequenceLength_ascii hascii), List.cons_append,
      scan_ascii _ hascii, scan_ascii _ hascii]
    refine ih.imp (And.imp_right fun h => ?_) (And.imp_right fun h => ?_)
    · rw [h, List.cons_append]
    · rw [weight_cons, weight_cons _ (scan a)]
      omega
  | sequence c s a hs ih =>
    rw [← List.cons_append, cuts_sequence hs, List.append_assoc, scan_sequence _ hs,
      scan_sequence _ hs]
    refine ih.imp (And.imp_right fun h => ?_) (And.imp_right fun h => ?_)
    · rw [h, List.cons_append]
    · rw [weight_cons, weight_cons _ (scan a)]
      omega
  | stray c a hascii hnone ih =>
    by_cases hfirst : CutsFirst (c :: a) b
    · exact .inr ⟨cuts_cons.2 (.inl hfirst), weight_of_cutsFirst hascii hnone hfirst⟩
    -- No sequence reaches over the cut, so the byte is stray in the whole as well.
    have hnone' : ∀ s v, a ++ b = s ++ v → isSequence (c :: s) = false := by
      intro s v heq
      rcases List.append_eq_append_iff.1 heq with ⟨s₂, rfl, hb⟩ | ⟨w, ha, -⟩
      · by_contra hseq
        rw [Bool.not_eq_false] at hseq
        refine hfirst ⟨s₂, v, hb, ?_, hseq⟩
        rintro rfl
        rw [List.append_nil] at hseq
        exact Bool.noConfusion ((hnone a [] (List.append_nil a).symm).symm.trans hseq)
      · exact hnone s w ha
    rw [cuts_cons, List.cons_append, scan_stray hascii hnone', scan_stray hascii hnone]
    refine ih.imp (fun h => ⟨?_, ?_⟩) (fun h => ⟨.inr h.1, ?_⟩)
    · rintro (hcut | hcut)
      · exact hfirst hcut
      · exact h.1 hcut
    · rw [h.2, List.cons_append]
    · rw [weight_cons, weight_cons _ (scan a)]
      exact (Nat.add_lt_add_left h.2 _).trans_eq (Nat.add_assoc _ _ _).symm

theorem scan_append_of_valid {a : List UInt8} (b : List UInt8)
    (h : (scan a).all Step.valid = true) : scan (a ++ b) = scan a ++ scan b := by
  induction a using bytes_induction with
  | nil => rw [scan_nil]; rfl
  | ascii c a hascii ih =>
    rw [scan_ascii _ hascii, List.all_cons, Bool.and_eq_true] at h
    rw [List.cons_append, scan_ascii _ hascii, scan_ascii _ hascii, ih h.2, List.cons_append]
  | sequence c s a hs ih =>
    rw [← List.cons_append, scan_sequence _ hs, List.all_cons, Bool.and_eq_true] at h
    rw [← List.cons_append, List.append_assoc, scan_sequence _ hs, scan_sequence _ hs, ih h.2,
      List.cons_append]
  | stray c a hascii hnone ih =>
    rw [scan_stray hascii hnone] at h
    cases h

/-! ### The loops walk the scan -/

def text (steps : List Step) : JSString := steps.map Step.point

theorem weight_eq_countP_text (steps : List Step) :
    weight steps = (text steps).countP fun p => p ≠ 0xFEFF := by
  rw [text, List.countP_map]
  rfl

theorem weight_eq_of_text_eq {xs ys : List Step} (h : text xs = text ys) : weight xs = weight ys := by
  rw [weight_eq_countP_text, weight_eq_countP_text, h]

theorem newStringLen_eq (data : List UInt8) : newStringLen data = text (scan data) := by
  induction data using bytes_induction with
  | nil => rw [newStringLen, scan_nil]; rfl
  | ascii b rest h ih =>
    rw [newStringLen, branch_ascii rest h, scan_ascii rest h]
    exact congrArg _ ih
  | sequence b s v h ih =>
    have hpoint : text (scan (b :: (s ++ v))) = (sequenceStep (b :: s)).point :: text (scan v) := by
      rw [← List.cons_append, scan_sequence v h]
      rfl
    have hcp : decodeCodepoint (b :: (s ++ v)) (s.length + 1) =
        decodeCodepoint (b :: s) (s.length + 1) := by
      rw [← decodeCodepoint_take (sequenceLength_cases (isSequence_cons h).1), List.take_succ_cons,
        List.take_left]
    rw [newStringLen, branch_sequence v h, hpoint, sequenceStep, List.length_cons]
    cases isInvalid (decodeCodepoint (b :: s) (s.length + 1)) (s.length + 1) with
    | true => simp only [if_true, Nat.add_sub_cancel, List.drop_left, ih]
    | false => simp only [Bool.false_eq_true, if_false, Nat.add_sub_cancel, List.drop_left, ih, hcp]
  | stray b rest hascii hnone ih =>
    rw [newStringLen, branch_stray hascii hnone, scan_stray hascii hnone]
    exact congrArg _ ih

theorem valid_sequenceStep (s : List UInt8) :
    (sequenceStep s).valid = !isInvalid (decodeCodepoint s s.length) s.length := by
  simp only [sequenceStep]
  split
  · rename_i h
    rw [h]
    rfl
  · rename_i h
    rw [Bool.not_eq_true] at h
    rw [h]
    rfl

theorem validateUtf8_eq (data : List UInt8) : validateUtf8 data = (scan data).all Step.valid := by
  induction data using bytes_induction with
  | nil => rw [validateUtf8, scan_nil]; rfl
  | ascii b rest h ih =>
    rw [validateUtf8, branch_ascii rest h, scan_ascii rest h, List.all_cons, Bool.true_and]
    exact ih
  | sequence b s v h ih =>
    rw [validateUtf8, branch_sequence v h, ← List.cons_append, scan_sequence v h, List.all_cons,
      valid_sequenceStep, List.length_cons]
    cases isInvalid (decodeCodepoint (b :: s) (s.length + 1)) (s.length + 1) with
    | true => rfl
    | false => simp only [Bool.false_eq_true, if_false, Nat.add_sub_cancel, List.drop_left, ih,
        Bool.not_false, Bool.true_and]
  | stray b rest hascii hnone ih =>
    rw [validateUtf8, branch_stray hascii hnone, scan_stray hascii hnone]
    rfl

theorem scan_replacement (v : List UInt8) :
    scan (replacement ++ v) = ⟨replacement, 0xFFFD, true⟩ :: scan v :=
  scan_sequence v (by decide)

theorem text_replacePass (data : List UInt8) : text (scan (replacePass data)) = text (scan data) := by
  induction data using bytes_induction with
  | nil => rw [replacePass]
  | ascii b rest h ih =>
    rw [replacePass, branch_ascii rest h, scan_ascii rest h]
    show text (scan (b :: replacePass rest)) = _
    rw [scan_ascii _ h]
    exact congrArg (b.toNat :: ·) ih
  | sequence b s v h ih =>
    have hpoint : text (scan (b :: (s ++ v))) = (sequenceStep (b :: s)).point :: text (scan v) := by
      rw [← List.cons_append, scan_sequence v h]
      rfl
    rw [replacePass, branch_sequence v h, hpoint]
    cases hinvalid : isInvalid (decodeCodepoint (b :: s) (s.length + 1)) (s.length + 1) with
    | true =>
      simp only [if_true, Nat.add_sub_cancel, List.drop_left, scan_replacement, sequenceStep,
        List.length_cons, hinvalid]
      exact congrArg _ ih
    | false =>
      simp only [Bool.false_eq_true, if_false, Nat.add_sub_cancel, List.drop_left, List.take_left]
      rw [scan_sequence _ h]
      exact congrArg _ ih
  | stray b rest hascii hnone ih =>
    rw [replacePass, branch_stray hascii hnone, scan_stray hascii hnone]
    show text (scan (replacement ++ replacePass rest)) = _
    rw [scan_replacement]
    exact congrArg (0xFFFD :: ·) ih

def textOf (options : DecoderOptions) (data : List UInt8) : JSString :=
  text (scan (stripBom options data))

/-- The decoder throws at nothing but invalid input in fatal mode. -/
def accepts (options : DecoderOptions) (data : List UInt8) : Bool :=
  !options.fatal || validateUtf8 (stripBom options data)

theorem decode_eq (options : DecoderOptions) (data : List UInt8) :
    decode options (some data) = if accepts options data then .ok (textOf options data)
      else .error "The encoded data was not valid UTF-8" := by
  rw [decode, accepts, textOf]
  cases options.fatal with
  | true =>
    cases validateUtf8 (stripBom options data) with
    | true => rw [← newStringLen_eq]; rfl
    | false => rfl
  | false =>
    rw [replaceInvalidUtf8]
    cases needsReplace (stripBom options data) with
    | true => rw [← text_replacePass, ← newStringLen_eq]; rfl
    | false => rw [← newStringLen_eq]; rfl

end QuickBeam.Text
