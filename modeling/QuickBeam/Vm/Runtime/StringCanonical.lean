import QuickBeam.Vm.Runtime.Utf16

/-!
# Equal strings and equal binaries

Strings are built by encoding code units, by concatenating binaries, by slicing and by indexing.
Encoding joins a high surrogate and the low one behind it; concatenation joins nothing.  So a
binary records, beside the code units, the seams where a concatenation came between the two
halves of a pair, and binaries are compared by both.
-/

namespace QuickBeam.Vm.Runtime.Utf16

open QuickBeam.Vm.Program

/-! ### Seams of pieces -/

namespace Piece

theorem not_isLow_of_isHigh {u : ℕ} (h : isHigh u = true) : isLow u = false := by
  simp only [isHigh, Bool.and_eq_true, decide_eq_true_eq] at h
  simp only [isLow, Bool.and_eq_false_iff, decide_eq_false_iff_not]
  omega

theorem seams_cons (pos : ℕ) (p : Piece) (rest : List Piece) :
    seams pos (p :: rest) =
      (if seam p rest then [pos] else []) ++ seams (pos + p.units.length) rest := rfl

theorem le_of_mem_seams {pos i : ℕ} {pieces : List Piece} (h : i ∈ seams pos pieces) :
    pos ≤ i := by
  induction pieces generalizing pos with
  | nil => cases h
  | cons p rest ih =>
    rcases List.mem_append.1 h with hi | hi
    · split at hi
      · exact Nat.le_of_eq (List.mem_singleton.1 hi).symm
      · cases hi
    · exact Nat.le_trans (Nat.le_add_right _ _) (ih hi)

variable {p : Piece} {rest : List Piece}

theorem mem_seams_first {pos : ℕ} (hp : 0 < p.units.length) :
    pos ∈ seams pos (p :: rest) ↔ seam p rest = true := by
  constructor
  · intro h
    rcases List.mem_append.1 h with hi | hi
    · split at hi
      · assumption
      · cases hi
    · have := le_of_mem_seams hi
      omega
  · intro h
    refine List.mem_append_left _ ?_
    rw [if_pos h]
    exact List.mem_singleton_self pos

theorem units_length_pos (p : Piece) : 0 < p.units.length := by
  cases p <;> exact Nat.succ_pos _

theorem seam_of_halves {high low : UInt16} (hh : isHigh high.toNat = true)
    (hl : isLow low.toNat = true) {ps qs : List Piece}
    (h : low :: allUnits ps = allUnits qs) : seam (unit high) qs = true := by
  cases qs with
  | nil => cases h
  | cons q qs =>
    cases q with
    | unit v =>
      obtain ⟨rfl, -⟩ := List.cons.inj h
      exact Bool.and_eq_true_iff.2 ⟨hh, hl⟩
    | pair high' low' hh' hl' =>
      obtain ⟨rfl, -⟩ := List.cons.inj h
      rw [not_isLow_of_isHigh hh'] at hl
      cases hl

/-- **The code units and the seams are all there is to a string.** -/
theorem eq_of_seams {pos : ℕ} {ps qs : List Piece} (hunits : allUnits ps = allUnits qs)
    (hseams : seams pos ps = seams pos qs) : ps = qs := by
  induction ps generalizing pos qs with
  | nil =>
    cases qs with
    | nil => rfl
    | cons q qs => cases q <;> cases hunits
  | cons p ps ih =>
    cases qs with
    | nil => cases p <;> cases hunits
    | cons q qs =>
      have hfirst : seam p ps = true ↔ seam q qs = true := by
        rw [← mem_seams_first p.units_length_pos, ← mem_seams_first q.units_length_pos, hseams]
      have hpq : p = q := by
        cases p with
        | unit u =>
          cases q with
          | unit v =>
            obtain ⟨rfl, -⟩ := List.cons.inj hunits
            rfl
          | pair high low hh hl =>
            -- the pair would have no seam, its two halves have one
            obtain ⟨rfl, hrest⟩ := List.cons.inj hunits
            cases hfirst.1 (seam_of_halves hh hl hrest.symm)
        | pair high low hh hl =>
          cases q with
          | unit v =>
            obtain ⟨rfl, hrest⟩ := List.cons.inj hunits
            cases hfirst.2 (seam_of_halves hh hl hrest)
          | pair high' low' hh' hl' =>
            obtain ⟨rfl, hrest⟩ := List.cons.inj hunits
            obtain ⟨rfl, -⟩ := List.cons.inj hrest
            rfl
      subst hpq
      have hrest : allUnits ps = allUnits qs := List.append_cancel_left hunits
      have htail : seams (pos + p.units.length) ps = seams (pos + p.units.length) qs := by
        have hsame : seam p ps = seam p qs := Bool.eq_iff_iff.2 hfirst
        unfold seams at hseams
        rw [hsame] at hseams
        exact List.append_cancel_left hseams
      rw [ih hrest htail]

/-- `xs` ends with the first half of a surrogate pair and `ys` begins with the second. -/
def splits (xs ys : List UInt16) : Bool :=
  match xs.getLast?, ys.head? with
  | some high, some low => isHigh high.toNat && isLow low.toNat
  | _, _ => false

theorem allUnits_ne_nil : allUnits (p :: rest) ≠ [] := by
  cases p <;> exact List.cons_ne_nil _ _

theorem seam_last (p : Piece) (qs : List Piece) : seam p qs = splits p.units (allUnits qs) := by
  cases p with
  | unit u =>
    cases qs with
    | nil => rfl
    | cons q qs =>
      cases q with
      | unit v => rfl
      | pair high low hh hl =>
        show false = (isHigh u.toNat && isLow high.toNat)
        rw [not_isLow_of_isHigh hh, Bool.and_false]
  | pair high low hh hl =>
    have hlow : isHigh low.toNat = false := by
      cases hb : isHigh low.toNat with
      | false => rfl
      | true =>
        rw [not_isLow_of_isHigh hb] at hl
        cases hl
    show false = splits [high, low] (allUnits qs)
    cases hq : (allUnits qs).head? with
    | none =>
      unfold splits
      rw [hq]
      rfl
    | some v =>
      unfold splits
      rw [hq]
      show false = (isHigh low.toNat && isLow v.toNat)
      rw [hlow, Bool.false_and]

theorem splits_append {us vs ws : List UInt16} (h : vs ≠ []) :
    splits (us ++ vs) ws = splits vs ws := by
  unfold splits
  rw [List.getLast?_append_of_ne_nil us h]

theorem seams_append (pos : ℕ) (ps qs : List Piece) :
    seams pos (ps ++ qs) = seams pos ps ++
      ((if splits (allUnits ps) (allUnits qs) then [pos + (allUnits ps).length - 1] else []) ++
        seams (pos + (allUnits ps).length) qs) := by
  induction ps generalizing pos with
  | nil => rfl
  | cons p rest ih =>
    cases rest with
    | nil =>
      rw [List.singleton_append, seams, seam_last, allUnits_cons, allUnits_nil, List.append_nil]
      have hnone : seam p [] = false := by cases p <;> rfl
      have hempty : seams pos [p] = [] := by
        unfold seams
        rw [hnone]
        rfl
      rw [hempty, List.nil_append]
      congr 1
      split
      · rename_i hs
        cases p with
        | unit u => rfl
        | pair high low hh hl =>
          rw [← seam_last] at hs
          cases hs
      · rfl
    | cons next rest =>
      have hseam : seam p (next :: rest ++ qs) = seam p (next :: rest) := by
        cases p <;> cases next <;> rfl
      have hlen : (allUnits (p :: next :: rest)).length =
          p.units.length + (allUnits (next :: rest)).length := by
        rw [allUnits_cons, List.length_append]
      rw [List.cons_append, seams_cons, hseam, ih, hlen, seams_cons pos p (next :: rest),
        List.append_assoc, allUnits_cons p (next :: rest), splits_append allUnits_ne_nil,
        Nat.add_assoc]

end Piece

/-! ### Building strings -/

variable [Value.Platform]

def addStrings (left right : Binary) : Binary :=
  match Value.add (.string left) (.string right) with
  | some (.string value) => value
  | _ => []

def concat (value : Binary) (arguments : List Value) : Binary :=
  value ++ arguments.flatMap Value.toStringValue

/-- `String.prototype.charAt`, with an integer index. -/
def charAt (value : Binary) (index : ℤ) : Binary := (at' value index).getD []

theorem addStrings_eq (left right : Binary) : addStrings left right = left ++ right := rfl

theorem concat_string (value argument : Binary) :
    concat value [.string argument] = value ++ argument :=
  congrArg (value ++ ·) (List.append_nil argument)

/-- How a string comes about. -/
inductive Expr where
  | fromUnits (us : List UInt16)
  | add (left right : Expr)
  | concat (receiver argument : Expr)
  | slice (receiver : Expr) (start length : ℕ)
  | charAt (receiver : Expr) (index : ℤ)

namespace Expr

def eval : Expr → Binary
  | fromUnits us => Utf16.fromUnits (us.map UInt16.toNat)
  | add left right => addStrings left.eval right.eval
  | concat receiver argument => Utf16.concat receiver.eval [.string argument.eval]
  | slice receiver start length => Utf16.slice receiver.eval start length
  | charAt receiver index => Utf16.charAt receiver.eval index

omit [Value.Platform]

def unitAt (us : List UInt16) (index : ℤ) : List UInt16 :=
  if index < 0 then [] else us[index.toNat]?.toList

/-- The code units that the language gives a string. -/
def units : Expr → List UInt16
  | fromUnits us => us
  | add left right => left.units ++ right.units
  | concat receiver argument => receiver.units ++ argument.units
  | slice receiver start length => (receiver.units.drop start).take length
  | charAt receiver index => unitAt receiver.units index

/-- Where a concatenation came between the halves of a surrogate pair that were not encoded
again since. -/
def seams : Expr → List ℕ
  | fromUnits _ | slice _ _ _ | charAt _ _ => []
  | add left right | concat left right =>
      left.seams ++
        ((if Piece.splits left.units right.units then [left.units.length - 1] else []) ++
          right.seams.map (· + left.units.length))

def pieces : Expr → List Piece
  | fromUnits us => Piece.join us
  | add left right | concat left right => left.pieces ++ right.pieces
  | slice receiver start length => Piece.join ((receiver.units.drop start).take length)
  | charAt receiver index => Piece.join (unitAt receiver.units index)

theorem allUnits_pieces (e : Expr) : Piece.allUnits e.pieces = e.units := by
  induction e with
  | fromUnits us => exact Piece.allUnits_join us
  | add left right ihl ihr => rw [pieces, Piece.allUnits_append, ihl, ihr, units]
  | concat left right ihl ihr => rw [pieces, Piece.allUnits_append, ihl, ihr, units]
  | slice receiver start length ih => exact Piece.allUnits_join _
  | charAt receiver index ih => exact Piece.allUnits_join _

theorem seams_shift (pos k : ℕ) (ps : List Piece) :
    Piece.seams (pos + k) ps = (Piece.seams pos ps).map (· + k) := by
  induction ps generalizing pos with
  | nil => rfl
  | cons p rest ih =>
    rw [Piece.seams_cons, Piece.seams_cons, List.map_append, ← ih,
      Nat.add_right_comm pos k p.units.length]
    split <;> rfl

theorem seams_pieces (e : Expr) : Piece.seams 0 e.pieces = e.seams := by
  induction e with
  | fromUnits us => exact Piece.seams_join 0 us
  | slice receiver start length ih => exact Piece.seams_join 0 _
  | charAt receiver index ih => exact Piece.seams_join 0 _
  | add left right ihl ihr | concat left right ihl ihr =>
    rw [pieces, Piece.seams_append, ihl, allUnits_pieces, allUnits_pieces, seams_shift, ihr,
      seams, Nat.zero_add]

end Expr

theorem Expr.eval_eq (e : Expr) : e.eval = Piece.allBytes e.pieces := by
  have hdecode {e : Expr} (ih : e.eval = Piece.allBytes e.pieces) :
      decode e.eval = e.units.map UInt16.toNat := by
    rw [ih, Piece.decode_allBytes, Expr.allUnits_pieces]
  induction e with
  | fromUnits us => exact Piece.fromUnits_eq us
  | add left right ihl ihr =>
    rw [eval, addStrings_eq, ihl, ihr, pieces, Piece.allBytes_append]
  | concat left right ihl ihr =>
    rw [eval, concat_string, ihl, ihr, pieces, Piece.allBytes_append]
  | slice receiver start length ih =>
    rw [eval, pieces, ← Piece.fromUnits_eq]
    unfold Utf16.slice Utf16.units
    rw [hdecode ih, List.map_take, List.map_drop]
    rfl
  | charAt receiver index ih =>
    rw [eval, pieces, ← Piece.fromUnits_eq]
    unfold Utf16.charAt at' Utf16.units unitAt
    rw [hdecode ih, List.getElem?_map]
    split
    · rfl
    · cases receiver.units[index.toNat]? <;> rfl

theorem Expr.units_eval (e : Expr) : Utf16.units e.eval = e.units.map UInt16.toNat := by
  unfold Utf16.units
  rw [e.eval_eq, Piece.decode_allBytes, allUnits_pieces]

theorem Expr.eval_eq_iff (a b : Expr) :
    a.eval = b.eval ↔ a.units = b.units ∧ a.seams = b.seams := by
  rw [a.eval_eq, b.eval_eq]
  constructor
  · intro h
    have hpieces := Piece.allBytes_injective h
    rw [← a.allUnits_pieces, ← b.allUnits_pieces, ← a.seams_pieces, ← b.seams_pieces, hpieces]
    exact ⟨rfl, rfl⟩
  · rintro ⟨hunits, hseams⟩
    rw [← a.allUnits_pieces, ← b.allUnits_pieces] at hunits
    rw [← a.seams_pieces, ← b.seams_pieces] at hseams
    rw [Piece.eq_of_seams hunits hseams]

/-! ### Which strings are canonical -/

omit [Value.Platform] in
theorem strictEqual_string (s t : Binary) :
    Value.strictEqual (.string s) (.string t) = true ↔ s = t := decide_eq_true_iff

/-- **Addition of encoded strings is the encoded string exactly when it joins no surrogate pair,
and equality of strings is equality of code units exactly when equal code units have equal
seams.** -/
theorem canonical_iff :
    (∀ xs ys : List UInt16,
      Value.add (.string (fromUnits (xs.map UInt16.toNat)))
          (.string (fromUnits (ys.map UInt16.toNat))) =
        some (.string (fromUnits ((xs ++ ys).map UInt16.toNat))) ↔
      Piece.splits xs ys = false) ∧
    ∀ a b : Expr,
      (Value.strictEqual (.string a.eval) (.string b.eval) = true ↔
        units a.eval = units b.eval) ↔
      (a.units = b.units → a.seams = b.seams) := by
  constructor
  · intro xs ys
    have hadd : Value.add (.string (fromUnits (xs.map UInt16.toNat)))
          (.string (fromUnits (ys.map UInt16.toNat))) =
        some (.string (Expr.add (.fromUnits xs) (.fromUnits ys)).eval) := rfl
    have hjoined : fromUnits ((xs ++ ys).map UInt16.toNat) =
        (Expr.fromUnits (xs ++ ys)).eval := rfl
    have hseams : (Expr.add (.fromUnits xs) (.fromUnits ys)).seams =
        if Piece.splits xs ys then [xs.length - 1] else [] := by
      show [] ++ ((if Piece.splits xs ys then _ else _) ++ _) = _
      rw [List.nil_append]
      exact List.append_nil _
    rw [hadd, hjoined, Option.some.injEq, Value.string.injEq, Expr.eval_eq_iff, hseams]
    cases Piece.splits xs ys with
    | false => exact ⟨fun _ => rfl, fun _ => ⟨rfl, rfl⟩⟩
    | true => exact ⟨fun h => (by cases h.2), fun h => (by cases h)⟩
  · intro a b
    have hinj : Function.Injective (List.map UInt16.toNat) :=
      List.map_injective_iff.2 fun _ _ => UInt16.toNat_inj.1
    rw [strictEqual_string, a.units_eval, b.units_eval, hinj.eq_iff, Expr.eval_eq_iff]
    exact ⟨fun h hunits => (h.2 hunits).2, fun h => ⟨And.left, fun hunits => ⟨hunits, h hunits⟩⟩⟩

omit [Value.Platform]

/-- The two halves of U+1F600, added: six bytes instead of four. -/
theorem add_halves_not_canonical :
    ¬ ∀ xs ys : List UInt16,
      @Value.add Value.noNumbers (.string (fromUnits (xs.map UInt16.toNat)))
          (.string (fromUnits (ys.map UInt16.toNat))) =
        some (.string (fromUnits ((xs ++ ys).map UInt16.toNat))) := by
  intro h
  have hbytes : fromUnits [0xD83D] ++ fromUnits [0xDE00] = fromUnits [0xD83D, 0xDE00] :=
    Value.string.inj (Option.some.inj (h [0xD83D] [0xDE00]))
  exact absurd hbytes (by decide)

end QuickBeam.Vm.Runtime.Utf16
