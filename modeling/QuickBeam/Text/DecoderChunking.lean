import QuickBeam.Text.Utf8Steps

/-!
# Cutting the input of a `TextDecoderStream`

A chunk is decoded alone, and its byte-order mark is stripped.  The stream agrees with the
decoder of the whole input exactly if the input is refused, or no cut falls inside a sequence and
no chunk but the first begins with a mark (`independentOfChunking_iff`).
-/

namespace QuickBeam.Text

/-! ### What the stream emits -/

theorem foldl_transform (s : DecoderStream) (chunks : List (List UInt8)) :
    chunks.foldl DecoderStream.transform s =
      { s with
        emitted := s.emitted ++ (chunks.filter (accepts s.options)).map (textOf s.options)
        failed := s.failed || !chunks.all (accepts s.options) } := by
  induction chunks generalizing s with
  | nil => simp
  | cons c chunks ih =>
    rw [List.foldl_cons, ih, DecoderStream.transform, decode_eq]
    cases hc : accepts s.options c with
    | true => simp [hc]
    | false => simp [hc]

theorem run_eq (options : DecoderOptions) (chunks : List (List UInt8)) :
    DecoderStream.run options chunks =
      ⟨options, (chunks.filter (accepts options)).map (textOf options),
        !chunks.all (accepts options)⟩ := by
  rw [DecoderStream.run, foldl_transform]
  rfl

/-- The stream emits what the decoder makes of the whole input, and fails when that fails. -/
def IndependentOfChunking (options : DecoderOptions) (chunks : List (List UInt8)) : Prop :=
  match decode options (some chunks.flatten) with
  | .ok whole => (DecoderStream.run options chunks).failed = false ∧
      (DecoderStream.run options chunks).emitted.flatten = whole
  | .error _ => (DecoderStream.run options chunks).failed = true

/-- A cut between two chunks falls inside a sequence. -/
def CutsSequence (chunks : List (List UInt8)) : Prop :=
  ∃ before after, chunks = before ++ after ∧ Cuts before.flatten after.flatten

/-- A chunk that begins with a byte-order mark stands behind other bytes. -/
def LaterBom (chunks : List (List UInt8)) : Prop :=
  ∃ before c after, chunks = before ++ c :: after ∧ before.flatten ≠ [] ∧ startsWithBom c = true

/-! ### Cuts between chunks -/

theorem cuts_append_left {a b : List UInt8} (c : List UInt8) (h : Cuts a b) : Cuts (c ++ a) b := by
  obtain ⟨u, s₁, s₂, v, rfl, hb, hs⟩ := h
  exact ⟨c ++ u, s₁, s₂, v, (List.append_assoc _ _ _).symm, hb, hs⟩

/-- A sequence that the second of two cuts divides begins behind the first cut or is divided by
it as well. -/
theorem cuts_of_append {a b c : List UInt8} (h : Cuts (c ++ a) b) : Cuts a b ∨ Cuts c (a ++ b) := by
  obtain ⟨u, s₁, s₂, v, ha, rfl, hs₁, hs₂, hseq⟩ := h
  rcases List.append_eq_append_iff.1 ha with ⟨w, rfl, rfl⟩ | ⟨w, rfl, rfl⟩
  · exact .inl ⟨w, s₁, s₂, v, rfl, rfl, hs₁, hs₂, hseq⟩
  · by_cases hw : w = []
    · subst hw
      exact .inl ⟨[], a, s₂, v, rfl, rfl, hs₁, hs₂, hseq⟩
    · refine .inr ⟨u, w, a ++ s₂, v, rfl, (List.append_assoc _ _ _).symm, hw, ?_, ?_⟩
      · intro hnil
        exact hs₂ (List.append_eq_nil_iff.1 hnil).2
      · rw [← List.append_assoc]
        exact hseq

variable {c : List UInt8} {chunks : List (List UInt8)}

theorem cutsSequence_cons :
    CutsSequence (c :: chunks) ↔ Cuts c chunks.flatten ∨ CutsSequence chunks := by
  constructor
  · rintro ⟨before, after, heq, hcut⟩
    cases before with
    | nil => exact absurd hcut (not_cuts_nil _)
    | cons d before =>
      rw [List.cons_append, List.cons.injEq] at heq
      obtain ⟨rfl, rfl⟩ := heq
      rw [List.flatten_cons] at hcut
      rw [List.flatten_append]
      exact (cuts_of_append hcut).symm.imp_right fun h => ⟨before, after, rfl, h⟩
  · rintro (hcut | ⟨before, after, rfl, hcut⟩)
    · exact ⟨[c], chunks, rfl, by rw [List.flatten_singleton]; exact hcut⟩
    · exact ⟨c :: before, after, rfl, by rw [List.flatten_cons]; exact cuts_append_left c hcut⟩

theorem not_cutsSequence_nil : ¬ CutsSequence [] := by
  rintro ⟨before, after, heq, hcut⟩
  rw [(List.append_eq_nil_iff.1 heq.symm).1] at hcut
  exact not_cuts_nil _ hcut

/-- **Any number of parts.** -/
theorem scan_flatten (chunks : List (List UInt8)) :
    ¬ CutsSequence chunks ∧ scan chunks.flatten = chunks.flatMap scan ∨
      CutsSequence chunks ∧ weight (scan chunks.flatten) < weight (chunks.flatMap scan) := by
  induction chunks with
  | nil => exact .inl ⟨not_cutsSequence_nil, by rw [List.flatten_nil, scan_nil]; rfl⟩
  | cons c chunks ih =>
    rw [List.flatten_cons, List.flatMap_cons, weight_append, cutsSequence_cons]
    rcases scan_append c chunks.flatten with ⟨hno, heq⟩ | ⟨hcut, hlt⟩
    · rcases ih with ⟨hnone, hscan⟩ | ⟨hsome, hless⟩
      · refine .inl ⟨not_or.2 ⟨hno, hnone⟩, ?_⟩
        rw [heq, hscan]
      · refine .inr ⟨.inr hsome, ?_⟩
        rw [heq, weight_append]
        omega
    · refine .inr ⟨.inl hcut, ?_⟩
      rcases ih with ⟨-, hscan⟩ | ⟨-, hless⟩
      · rw [hscan] at hlt
        exact hlt
      · omega

/-! ### Byte-order marks -/

/-- The decoder strips a byte-order mark from these bytes. -/
def strips (options : DecoderOptions) (data : List UInt8) : Bool :=
  !options.ignoreBOM && startsWithBom data

theorem startsWithBom_iff {data : List UInt8} :
    startsWithBom data = true ↔ ∃ rest, data = bom ++ rest := by
  rw [startsWithBom, List.isPrefixOf_iff_prefix]
  exact ⟨fun ⟨rest, h⟩ => ⟨rest, h.symm⟩, fun ⟨rest, h⟩ => ⟨rest, h.symm⟩⟩

theorem scan_bom (rest : List UInt8) : scan (bom ++ rest) = ⟨bom, 0xFEFF, true⟩ :: scan rest :=
  scan_sequence rest (by decide)

theorem strip_cases (options : DecoderOptions) (data : List UInt8) :
    strips options data = false ∧ stripBom options data = data ∨
      strips options data = true ∧ ∃ rest, data = bom ++ rest ∧ stripBom options data = rest := by
  rw [stripBom, ← strips]
  cases h : strips options data with
  | false => exact .inl ⟨rfl, rfl⟩
  | true =>
    rw [strips, Bool.and_eq_true] at h
    obtain ⟨rest, rfl⟩ := startsWithBom_iff.1 h.2
    exact .inr ⟨rfl, rest, rfl, rfl⟩

theorem weight_strip (options : DecoderOptions) (data : List UInt8) :
    weight (scan (stripBom options data)) = weight (scan data) := by
  rcases strip_cases options data with ⟨-, heq⟩ | ⟨-, rest, rfl, heq⟩
  · rw [heq]
  · rw [heq, scan_bom, weight_cons]
    exact (Nat.zero_add _).symm

theorem length_textOf (options : DecoderOptions) (data : List UInt8) :
    (textOf options data).length + (strips options data).toNat = (text (scan data)).length := by
  rw [textOf]
  rcases strip_cases options data with ⟨hno, heq⟩ | ⟨hyes, rest, rfl, heq⟩
  · rw [hno, heq]
    rfl
  · rw [hyes, heq, scan_bom]
    rfl

theorem stripBom_append (options : DecoderOptions) {c r : List UInt8} (hc : c ≠ [])
    (hcut : ¬ Cuts c r) : stripBom options (c ++ r) = stripBom options c ++ r := by
  have hbom : startsWithBom (c ++ r) = startsWithBom c := by
    rw [Bool.eq_iff_iff, startsWithBom_iff, startsWithBom_iff]
    constructor
    · rintro ⟨rest, heq⟩
      rcases List.append_eq_append_iff.1 heq with ⟨w, hw, rfl⟩ | ⟨w, rfl, -⟩
      · by_cases hnil : w = []
        · rw [hnil, List.append_nil] at hw
          exact ⟨[], by rw [List.append_nil, hw]⟩
        · exact absurd ⟨[], c, w, rest, rfl, rfl, hc, hnil, by rw [← hw]; decide⟩ hcut
      · exact ⟨w, rfl⟩
    · rintro ⟨rest, rfl⟩
      exact ⟨rest ++ r, List.append_assoc _ _ _⟩
  rcases strip_cases options c with ⟨hno, heq⟩ | ⟨hyes, rest, rfl, heq⟩
  · rw [stripBom, ← strips, strips, hbom, ← strips, hno, heq]
    rfl
  · rw [stripBom, ← strips, strips, hbom, ← strips, hyes, heq]
    rfl

theorem text_append (xs ys : List Step) : text (xs ++ ys) = text xs ++ text ys := List.map_append

theorem textOf_append (options : DecoderOptions) {c r : List UInt8} (hc : c ≠ [])
    (hcut : ¬ Cuts c r) : textOf options (c ++ r) = textOf options c ++ text (scan r) := by
  have hcut' : ¬ Cuts (stripBom options c) r := by
    rcases strip_cases options c with ⟨-, heq⟩ | ⟨-, rest, rfl, heq⟩
    · rw [heq]
      exact hcut
    · rw [heq]
      intro h
      exact hcut (cuts_append_left bom h)
  rw [textOf, stripBom_append options hc hcut, textOf]
  rcases scan_append (stripBom options c) r with ⟨-, heq⟩ | ⟨h, -⟩
  · rw [heq, text_append]
  · exact absurd h hcut'

/-! ### The chunks against the whole -/

theorem length_flatMap_textOf (options : DecoderOptions) (chunks : List (List UInt8)) :
    (chunks.flatMap (textOf options)).length + chunks.countP (strips options) =
      (text (chunks.flatMap scan)).length := by
  induction chunks with
  | nil => rfl
  | cons c chunks ih =>
    have hlen := length_textOf options c
    rw [List.flatMap_cons, List.flatMap_cons, List.length_append, text_append, List.length_append,
      List.countP_cons, ← ih, ← hlen]
    cases strips options c with
    | true => simp only [Bool.toNat_true, if_true]; omega
    | false => simp only [Bool.toNat_false, Bool.false_eq_true, if_false]; omega

theorem flatMap_textOf_eq_iff (options : DecoderOptions) (chunks : List (List UInt8)) :
    chunks.flatMap (textOf options) = text (chunks.flatMap scan) ↔
      ∀ c ∈ chunks, strips options c = false := by
  constructor
  · intro heq
    have hlen := length_flatMap_textOf options chunks
    rw [heq] at hlen
    have hzero : chunks.countP (strips options) = 0 := by omega
    intro c hc
    exact Bool.not_eq_true _ ▸ List.countP_eq_zero.1 hzero c hc
  · intro hall
    induction chunks with
    | nil => rfl
    | cons c chunks ih =>
      rw [List.flatMap_cons, List.flatMap_cons, text_append,
        ih fun d hd => hall d (List.mem_cons_of_mem _ hd)]
      have hc := hall c List.mem_cons_self
      rcases strip_cases options c with ⟨-, heq⟩ | ⟨hyes, -⟩
      · rw [textOf, heq]
      · rw [hyes] at hc
        cases hc

theorem laterBom_cons_nil : LaterBom ([] :: chunks) ↔ LaterBom chunks := by
  constructor
  · rintro ⟨before, c, after, heq, hbefore, hc⟩
    cases before with
    | nil => exact absurd rfl hbefore
    | cons d before =>
      rw [List.cons_append, List.cons.injEq] at heq
      obtain ⟨rfl, rfl⟩ := heq
      exact ⟨before, c, after, rfl, hbefore, hc⟩
  · rintro ⟨before, c, after, rfl, hbefore, hc⟩
    exact ⟨[] :: before, c, after, rfl, hbefore, hc⟩

theorem laterBom_cons (hc : c ≠ []) :
    LaterBom (c :: chunks) ↔ ∃ d ∈ chunks, startsWithBom d = true := by
  constructor
  · rintro ⟨before, d, after, heq, hbefore, hd⟩
    cases before with
    | nil => exact absurd rfl hbefore
    | cons e before =>
      rw [List.cons_append, List.cons.injEq] at heq
      obtain ⟨rfl, rfl⟩ := heq
      exact ⟨d, List.mem_append_right _ List.mem_cons_self, hd⟩
  · rintro ⟨d, hd, hbom⟩
    obtain ⟨before, after, rfl⟩ := List.append_of_mem hd
    refine ⟨c :: before, d, after, rfl, ?_, hbom⟩
    rw [List.flatten_cons]
    exact fun h => hc (List.append_eq_nil_iff.1 h).1

theorem chunks_eq_whole_iff (options : DecoderOptions) (h : ¬ CutsSequence chunks) :
    chunks.flatMap (textOf options) = textOf options chunks.flatten ↔
      options.ignoreBOM = true ∨ ¬ LaterBom chunks := by
  induction chunks with
  | nil =>
    have hnot : ¬ LaterBom [] := by
      rintro ⟨before, c, after, heq, -⟩
      exact List.cons_ne_nil _ _ (List.append_eq_nil_iff.1 heq.symm).2
    refine iff_of_true ?_ (.inr hnot)
    rw [textOf, List.flatten_nil]
    cases hbom : options.ignoreBOM <;> simp [stripBom, startsWithBom, bom, text]
  | cons c chunks ih =>
    rw [cutsSequence_cons, not_or] at h
    by_cases hc : c = []
    · subst hc
      have hnil : textOf options [] = [] := by
        rw [textOf]
        rcases strip_cases options [] with ⟨-, heq⟩ | ⟨-, rest, hrest, -⟩
        · rw [heq, scan_nil]
          rfl
        · cases hrest
      rw [List.flatMap_cons, hnil, List.nil_append, List.flatten_cons, List.nil_append,
        laterBom_cons_nil]
      exact ih h.2
    · have hrest : scan chunks.flatten = chunks.flatMap scan := by
        rcases scan_flatten chunks with ⟨-, heq⟩ | ⟨hcut, -⟩
        · exact heq
        · exact absurd hcut h.2
      rw [List.flatMap_cons, List.flatten_cons, textOf_append options hc h.1, hrest,
        List.append_cancel_left_eq, flatMap_textOf_eq_iff, laterBom_cons hc]
      simp only [strips]
      cases options.ignoreBOM with
      | true => simp
      | false => simp

theorem chunks_ne_whole (options : DecoderOptions) (h : CutsSequence chunks) :
    chunks.flatMap (textOf options) ≠ textOf options chunks.flatten := by
  intro heq
  have hweight : weight (chunks.flatMap fun c => scan (stripBom options c)) =
      weight (chunks.flatMap scan) := by
    clear h heq
    induction chunks with
    | nil => rfl
    | cons c chunks ih =>
      rw [List.flatMap_cons, List.flatMap_cons, weight_append, weight_append, weight_strip, ih]
  have hpoints : text (chunks.flatMap fun c => scan (stripBom options c)) =
      text (scan (stripBom options chunks.flatten)) := by
    rw [text, List.map_flatMap]
    exact heq
  have hsame := weight_eq_of_text_eq hpoints
  rw [hweight, weight_strip] at hsame
  rcases scan_flatten chunks with ⟨hno, -⟩ | ⟨-, hlt⟩
  · exact hno h
  · omega

/-! ### Chunking -/

variable {options : DecoderOptions}

theorem accepts_chunk (hcut : ¬ CutsSequence chunks) (h : accepts options chunks.flatten = true) :
    ∀ c ∈ chunks, accepts options c = true := by
  intro c hc
  rw [accepts, Bool.or_eq_true, validateUtf8_eq, List.all_eq_true] at h ⊢
  refine h.imp_right fun hall x hx => ?_
  have hwhole : x ∈ scan chunks.flatten := by
    rcases scan_flatten chunks with ⟨-, heq⟩ | ⟨h, -⟩
    · rw [heq]
      refine List.mem_flatMap.2 ⟨c, hc, ?_⟩
      rcases strip_cases options c with ⟨-, heq⟩ | ⟨-, rest, rfl, heq⟩
      · rwa [heq] at hx
      · rw [heq] at hx
        rw [scan_bom]
        exact List.mem_cons_of_mem _ hx
    · exact absurd h hcut
  rcases strip_cases options chunks.flatten with ⟨-, heq⟩ | ⟨-, rest, hrest, heq⟩
  · rw [heq] at hall
    exact hall x hwhole
  · rw [heq] at hall
    rw [hrest, scan_bom] at hwhole
    rcases List.mem_cons.1 hwhole with rfl | hin
    · rfl
    · exact hall x hin

theorem accepts_whole (h : ∀ c ∈ chunks, accepts options c = true) :
    accepts options chunks.flatten = true := by
  have hvalid : options.fatal = true → (scan chunks.flatten).all Step.valid = true := by
    intro hfatal
    induction chunks with
    | nil => rw [List.flatten_nil, scan_nil]; rfl
    | cons c chunks ih =>
      have hc := h c List.mem_cons_self
      rw [accepts, hfatal, Bool.not_true, Bool.false_or, validateUtf8_eq] at hc
      have hfirst : (scan c).all Step.valid = true := by
        rcases strip_cases options c with ⟨-, heq⟩ | ⟨-, rest, rfl, heq⟩
        · rwa [heq] at hc
        · rw [heq] at hc
          rw [scan_bom, List.all_cons, Bool.true_and]
          exact hc
      rw [List.flatten_cons, scan_append_of_valid _ hfirst, List.all_append, hfirst, Bool.true_and]
      exact ih fun d hd => h d (List.mem_cons_of_mem _ hd)
  rw [accepts, validateUtf8_eq]
  cases hfatal : options.fatal with
  | false => rfl
  | true =>
    have hall := hvalid hfatal
    rcases strip_cases options chunks.flatten with ⟨-, heq⟩ | ⟨-, rest, hrest, heq⟩
    · rw [heq]
      exact hall
    · rw [hrest, scan_bom, List.all_cons, Bool.true_and] at hall
      rw [heq]
      exact hall

/-- The stream is independent of the chunking exactly on refused input and on chunks that cut no
sequence and hold no later byte-order mark to strip. -/
theorem independentOfChunking_iff (options : DecoderOptions) (chunks : List (List UInt8)) :
    IndependentOfChunking options chunks ↔
      (options.fatal = true ∧ validateUtf8 (stripBom options chunks.flatten) = false) ∨
      (¬ CutsSequence chunks ∧ (options.ignoreBOM = true ∨ ¬ LaterBom chunks)) := by
  have hrefused : accepts options chunks.flatten = false ↔
      options.fatal = true ∧ validateUtf8 (stripBom options chunks.flatten) = false := by
    rw [accepts, Bool.or_eq_false_iff, Bool.not_eq_false']
  rw [IndependentOfChunking, decode_eq, run_eq, ← hrefused]
  cases hwhole : accepts options chunks.flatten with
  | false =>
    -- Some chunk is refused as well.
    refine iff_of_true ?_ (.inl rfl)
    show (!chunks.all (accepts options)) = true
    rw [Bool.not_eq_true', ← Bool.not_eq_true, List.all_eq_true]
    intro hall
    rw [accepts_whole hall] at hwhole
    cases hwhole
  | true =>
    show (!chunks.all (accepts options)) = false ∧
      ((chunks.filter (accepts options)).map (textOf options)).flatten =
        textOf options chunks.flatten ↔ _
    rw [Bool.not_eq_false', List.all_eq_true]
    have hfilter (hall : ∀ c ∈ chunks, accepts options c = true) :
        ((chunks.filter (accepts options)).map (textOf options)).flatten =
          chunks.flatMap (textOf options) := by
      rw [List.filter_eq_self.2 hall]
      rfl
    constructor
    · rintro ⟨hall, heq⟩
      rw [hfilter hall] at heq
      have hcut : ¬ CutsSequence chunks := fun h => chunks_ne_whole options h heq
      exact .inr ⟨hcut, (chunks_eq_whole_iff options hcut).1 heq⟩
    · rintro (h | ⟨hcut, hmark⟩)
      · cases h
      · have hall := accepts_chunk hcut hwhole
        refine ⟨hall, ?_⟩
        rw [hfilter hall]
        exact (chunks_eq_whole_iff options hcut).2 hmark

/-- The euro sign in two chunks. -/
theorem euro_in_two_chunks :
    ¬ ∀ (options : DecoderOptions) (chunks : List (List UInt8)),
      IndependentOfChunking options chunks := by
  intro h
  have heuro := h ⟨false, false⟩ [[0xE2], [0x82, 0xAC]]
  rw [IndependentOfChunking, decode_eq, run_eq] at heuro
  have hwhole : textOf ⟨false, false⟩ [0xE2, 0x82, 0xAC] = [0x20AC] := by decide +kernel
  have hchunks : [[0xE2], [0x82, 0xAC]].flatMap (textOf ⟨false, false⟩) =
      [0xFFFD, 0xFFFD, 0xFFFD] := by decide +kernel
  have hemitted : [[0xE2], [0x82, 0xAC]].flatMap (textOf ⟨false, false⟩) =
      textOf ⟨false, false⟩ [0xE2, 0x82, 0xAC] := heuro.2
  rw [hwhole, hchunks] at hemitted
  cases hemitted

end QuickBeam.Text
