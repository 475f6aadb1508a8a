import QuickBeam.Lib.SelfSynchronizing
import QuickBeam.Vm.Runtime.StringCanonical

/-!
# The order of strings

The bytes of the pieces are a self-synchronizing code, and their order is that of the code points.
Code units are ordered otherwise: an astral character comes after every other one in code points,
and before the units from `0xE000` on.
-/

namespace QuickBeam.Vm.Runtime.Utf16

open QuickBeam.Lib QuickBeam.Vm.Program

namespace Piece

/-! ### Code points -/

def code : Piece → ℕ
  | unit u => u.toNat
  | pair high low _ _ => codepoint high.toNat low.toNat

/-- The bytes of a code point, as numbers. -/
def digits (c : ℕ) : List ℕ :=
  if c < 0x80 then [c]
  else if c < 0x800 then [192 + c / 64, 128 + c % 64]
  else if c < 0x10000 then [224 + c / 4096, 128 + c / 64 % 64, 128 + c % 64]
  else [240 + c / 262144, 128 + c / 4096 % 64, 128 + c / 64 % 64, 128 + c % 64]

variable {high low : UInt16}

theorem code_pair (hh : isHigh high.toNat = true) (hl : isLow low.toNat = true) :
    code (pair high low hh hl) =
      0x10000 + (high.toNat - 0xD800) * 1024 + (low.toNat - 0xDC00) := by
  show codepoint high.toNat low.toNat = _
  unfold codepoint
  rw [Nat.shiftLeft_eq]

theorem halves (hh : isHigh high.toNat = true) (hl : isLow low.toNat = true) :
    0xD800 ≤ high.toNat ∧ high.toNat ≤ 0xDBFF ∧ 0xDC00 ≤ low.toNat ∧ low.toNat ≤ 0xDFFF := by
  simp only [isHigh, isLow, Bool.and_eq_true, decide_eq_true_eq] at hh hl
  exact ⟨hh.1, hh.2, hl.1, hl.2⟩

theorem code_lt (p : Piece) : p.code < 0x110000 := by
  cases p with
  | unit u =>
    have hu : u.toNat < 0x10000 := u.toNat_lt
    show u.toNat < _
    omega
  | pair high low hh hl =>
    have hrange := halves hh hl
    rw [code_pair]
    omega

theorem bytes_eq_digits (p : Piece) : p.bytes.map UInt8.toNat = digits p.code := by
  cases p with
  | unit u =>
    have hu : u.toNat < 0x10000 := u.toNat_lt
    show (encodeUnit u.toNat).map UInt8.toNat = digits u.toNat
    unfold encodeUnit digits
    split
    · rw [List.map_singleton, toNat_ofNat_of_lt (by omega)]
    · split
      · rename_i h
        rw [List.map_cons, List.map_singleton, toNat_lead2 h, toNat_continuation]
      · rw [List.map_cons, List.map_cons, List.map_singleton, toNat_lead3 hu,
          toNat_continuation, toNat_continuation, Nat.shiftRight_eq_div_pow]
  | pair high low hh hl =>
    have hrange := halves hh hl
    have hlt := code_lt (pair high low hh hl)
    have hcode := code_pair hh hl
    show (encodeScalar (code (pair high low hh hl))).map UInt8.toNat = _
    generalize code (pair high low hh hl) = c at hlt hcode
    have hbig : 0x10000 ≤ c := by omega
    unfold encodeScalar digits
    rw [if_neg (by omega), if_neg (by omega), if_neg (by omega)]
    rw [List.map_cons, toNat_lead4 hlt]
    simp only [List.map_cons, List.map_nil, toNat_continuation, Nat.shiftRight_eq_div_pow]

/-- A byte that begins a piece. -/
def isLead (b : UInt8) : Bool := b.toNat < 128 || 192 ≤ b.toNat

theorem digits_shape (c : ℕ) : ∃ d rest, digits c = d :: rest ∧ (d < 128 ∨ 192 ≤ d) ∧
    ∀ e ∈ rest, 128 ≤ e ∧ e < 192 := by
  unfold digits
  split
  · exact ⟨_, _, rfl, .inl (by omega), by simp⟩
  · split
    · exact ⟨_, _, rfl, .inr (by omega), by simp; omega⟩
    · split
      · exact ⟨_, _, rfl, .inr (by omega), by simp; omega⟩
      · exact ⟨_, _, rfl, .inr (by omega), by simp; omega⟩

/-- **Pieces are written in a self-synchronizing code.** -/
theorem selfSynchronizing : SelfSynchronizing bytes isLead where
  shape p := by
    obtain ⟨first, rest, hp, -⟩ := p.length_bytes
    obtain ⟨d, others, hdigits, hd, hothers⟩ := digits_shape p.code
    have hmap := p.bytes_eq_digits
    rw [hp, hdigits, List.map_cons] at hmap
    obtain ⟨rfl, rfl⟩ := List.cons.inj hmap
    refine ⟨first, rest, hp, ?_, fun b hb => ?_⟩
    · rw [isLead, Bool.or_eq_true, decide_eq_true_eq, decide_eq_true_eq]
      exact hd
    · have hrange := hothers b.toNat (List.mem_map_of_mem hb)
      rw [isLead, Bool.or_eq_false_iff, decide_eq_false_iff_not, decide_eq_false_iff_not]
      omega
  prefixFree p q hpq := by
    obtain ⟨first, rest, hp, hplen⟩ := p.length_bytes
    obtain ⟨first', rest', hq, hqlen⟩ := q.length_bytes
    have hfirst : first = first' := by
      obtain ⟨post, hpost⟩ := hpq
      rw [hp, hq, List.cons_append] at hpost
      exact (List.cons.inj hpost).1
    have hbytes : p.bytes = q.bytes := hpq.eq_of_length (by rw [hplen, hqlen, hfirst])
    have hone : allBytes [p] = allBytes [q] := by
      rw [allBytes_cons, allBytes_cons, hbytes]
    exact (List.cons.inj (allBytes_injective hone)).1

/-! ### The order of bytes -/

theorem compare_toNat (x y : UInt8) : compare x y = compare x.toNat y.toNat := by
  show compareOfLessAndEq x y = compareOfLessAndEq x.toNat y.toNat
  unfold compareOfLessAndEq
  simp only [UInt8.lt_iff_toNat_lt, ← UInt8.toNat_inj]

theorem compare_unit_toNat (x y : UInt16) : compare x y = compare x.toNat y.toNat := by
  show compareOfLessAndEq x y = compareOfLessAndEq x.toNat y.toNat
  unfold compareOfLessAndEq
  simp only [UInt16.lt_iff_toNat_lt, ← UInt16.toNat_inj]

theorem compare_map_toNat (xs ys : List UInt8) :
    compare xs ys = compare (xs.map UInt8.toNat) (ys.map UInt8.toNat) := by
  induction xs generalizing ys with
  | nil => cases ys <;> rfl
  | cons x xs ih =>
    cases ys with
    | nil => rfl
    | cons y ys => rw [List.map_cons, List.map_cons, compare_cons, compare_cons, ih, compare_toNat]

theorem compare_cons_lt {x y : ℕ} (h : x < y) (xs ys : List ℕ) : compare (x :: xs) (y :: ys) = .lt := by
  rw [compare_cons, Nat.compare_eq_lt.2 h]
  rfl

theorem compare_cons_self (x : ℕ) (xs ys : List ℕ) : compare (x :: xs) (x :: ys) = compare xs ys :=
  compare_append_left [x] xs ys

theorem compare_digit {x y : ℕ} {xs ys : List ℕ} (hle : x ≤ y)
    (hrest : x = y → compare xs ys = .lt) : compare (x :: xs) (y :: ys) = .lt := by
  rcases Nat.lt_or_eq_of_le hle with hlt | rfl
  · exact compare_cons_lt hlt xs ys
  · rw [compare_cons_self]
    exact hrest rfl

theorem compare_digits_lt {c d : ℕ} (h : c < d) (hd : d < 0x110000) :
    compare (digits c) (digits d) = .lt := by
  unfold digits
  split
  · -- One number against one or more.
    split
    · exact compare_cons_lt h _ _
    · split
      · exact compare_cons_lt (by omega) _ _
      · split
        · exact compare_cons_lt (by omega) _ _
        · exact compare_cons_lt (by omega) _ _
  · rw [if_neg (by omega : ¬d < 0x80)]
    split
    · split
      · exact compare_digit (by omega) fun _ => compare_cons_lt (by omega) _ _
      · split
        · exact compare_cons_lt (by omega) _ _
        · exact compare_cons_lt (by omega) _ _
    · rw [if_neg (by omega : ¬d < 0x800)]
      split
      · split
        · exact compare_digit (by omega) fun _ => compare_digit (by omega) fun _ =>
            compare_cons_lt (by omega) _ _
        · exact compare_cons_lt (by omega) _ _
      · rw [if_neg (by omega : ¬d < 0x10000)]
        exact compare_digit (by omega) fun _ => compare_digit (by omega) fun _ =>
          compare_digit (by omega) fun _ => compare_cons_lt (by omega) _ _

theorem compare_swap_lt {xs ys : List ℕ} (h : compare ys xs = .lt) : compare xs ys = .gt := by
  have hswap := @Std.OrientedCmp.eq_swap _ compare _ xs ys
  rw [hswap, h]
  rfl

/-- **The order of the bytes of a piece** is that of its code point. -/
theorem compare_bytes (p q : Piece) : compare p.bytes q.bytes = compare p.code q.code := by
  rw [compare_map_toNat, bytes_eq_digits, bytes_eq_digits]
  rcases Nat.lt_trichotomy p.code q.code with hlt | heq | hgt
  · rw [compare_digits_lt hlt q.code_lt, Nat.compare_eq_lt.2 hlt]
  · rw [heq, Std.ReflOrd.compare_self, Std.ReflOrd.compare_self]
  · rw [compare_swap_lt (compare_digits_lt hgt p.code_lt), Nat.compare_eq_gt.2 hgt]

/-! ### The order of code units -/

/-- What begins with the code units is below a string that begins with the surrogate pair. -/
def BelowPair (high low : UInt16) (rest : List Piece) : List UInt16 → Prop
  | u :: v :: others => u < high ∨ u = high ∧ (v < low ∨ v = low ∧ compare others (allUnits rest) = .lt)
  | [u] => u ≤ high
  | [] => True

/-- If just one of two characters is astral, the string with the other one is below. -/
def DifferAbove (p : Piece) (ps : List Piece) (q : Piece) (qs : List Piece) : Prop :=
  match p, q with
  | pair high low _ _, unit _ => BelowPair high low ps (allUnits (q :: qs))
  | unit _, pair high low _ _ => BelowPair high low qs (allUnits (p :: ps))
  | _, _ => True

/-- Where two strings first differ in an astral character and another one, the string with the
other one is below. -/
def PairsAbove : List Piece → List Piece → Prop
  | p :: ps, q :: qs => if p = q then PairsAbove ps qs else DifferAbove p ps q qs
  | _, _ => True

theorem compare_unit_lt {x y : UInt16} : compare x y = .lt ↔ x < y := by
  rw [compare_unit_toNat, Nat.compare_eq_lt, UInt16.lt_iff_toNat_lt]

theorem below_pair_iff {rest : List Piece} (us : List UInt16) :
    compare us (high :: low :: allUnits rest) = .lt ↔ BelowPair high low rest us := by
  match us with
  | [] => exact ⟨fun _ => trivial, fun _ => compare_nil_of_ne (List.cons_ne_nil _ _)⟩
  | [u] =>
    rw [compare_cons, Ordering.then_eq_lt, compare_unit_lt, Std.LawfulEqOrd.compare_eq_iff_eq,
      compare_nil_of_ne (List.cons_ne_nil _ _)]
    show _ ↔ u ≤ high
    rw [UInt16.le_iff_lt_or_eq]
    simp
  | u :: v :: others =>
    rw [compare_cons, Ordering.then_eq_lt, compare_unit_lt, Std.LawfulEqOrd.compare_eq_iff_eq,
      compare_cons, Ordering.then_eq_lt, compare_unit_lt, Std.LawfulEqOrd.compare_eq_iff_eq]
    exact Iff.rfl

theorem not_prefix_bytes {p q : Piece} (h : p ≠ q) : ¬p.bytes <+: q.bytes :=
  fun hpq => h (selfSynchronizing.prefixFree p q hpq)

theorem compare_allBytes_of_ne {p q : Piece} (h : p ≠ q) (ps qs : List Piece) :
    compare (allBytes (p :: ps)) (allBytes (q :: qs)) = compare p.code q.code := by
  rw [allBytes_cons, allBytes_cons, compare_append (not_prefix_bytes h) (not_prefix_bytes h.symm),
    compare_bytes]

theorem compare_unit_unit {u v : UInt16} (h : u ≠ v) (x y : List UInt16) :
    compare (u :: x) (v :: y) = compare u.toNat v.toNat := by
  rw [compare_cons, compare_unit_toNat]
  have hne : compare u.toNat v.toNat ≠ .eq := fun heq =>
    h (UInt16.toNat_inj.1 (Nat.compare_eq_eq.1 heq))
  cases hcmp : compare u.toNat v.toNat with
  | eq => exact absurd hcmp hne
  | lt => rfl
  | gt => rfl

theorem compare_pair_pair {h l h' l' : UInt16} {hh : isHigh h.toNat = true}
    {hl : isLow l.toNat = true} {hh' : isHigh h'.toNat = true} {hl' : isLow l'.toNat = true}
    (hne : pair h l hh hl ≠ pair h' l' hh' hl') (x y : List UInt16) :
    compare (code (pair h l hh hl)) (code (pair h' l' hh' hl')) =
      compare (h :: l :: x) (h' :: l' :: y) := by
  have hrange := halves hh hl
  have hrange' := halves hh' hl'
  rw [code_pair, code_pair]
  by_cases hhigh : h = h'
  · subst hhigh
    have hlow : l ≠ l' := fun heq => hne (by subst heq; rfl)
    have hrest : compare (h :: l :: x) (h :: l' :: y) = compare (l :: x) (l' :: y) :=
      compare_append_left [h] _ _
    rw [hrest, compare_unit_unit hlow]
    rcases Nat.lt_trichotomy l.toNat l'.toNat with hlt | heq | hgt
    · rw [Nat.compare_eq_lt.2 hlt, Nat.compare_eq_lt.2 (by omega)]
    · exact absurd (UInt16.toNat_inj.1 heq) hlow
    · rw [Nat.compare_eq_gt.2 hgt, Nat.compare_eq_gt.2 (by omega)]
  · rw [compare_unit_unit hhigh]
    rcases Nat.lt_trichotomy h.toNat h'.toNat with hlt | heq | hgt
    · rw [Nat.compare_eq_lt.2 hlt, Nat.compare_eq_lt.2 (by omega)]
    · exact absurd (UInt16.toNat_inj.1 heq) hhigh
    · rw [Nat.compare_eq_gt.2 hgt, Nat.compare_eq_gt.2 (by omega)]

theorem unit_lt_pair {u high low : UInt16} (hh : isHigh high.toNat = true)
    (hl : isLow low.toNat = true) : code (unit u) < code (pair high low hh hl) := by
  have hu : u.toNat < 0x10000 := u.toNat_lt
  rw [code_pair]
  show u.toNat < _
  omega

theorem differAbove_iff {p q : Piece} (hpq : p ≠ q) (ps qs : List Piece) :
    compare p.code q.code = compare (allUnits (p :: ps)) (allUnits (q :: qs)) ↔
      DifferAbove p ps q qs := by
  cases p with
  | unit u =>
    cases q with
    | unit v =>
      have huv : u ≠ v := fun heq => hpq (by rw [heq])
      exact ⟨fun _ => trivial, fun _ => (compare_unit_unit huv _ _).symm⟩
    | pair high low hh hl =>
      rw [Nat.compare_eq_lt.2 (unit_lt_pair hh hl), eq_comm]
      exact below_pair_iff _
  | pair high low hh hl =>
    cases q with
    | unit v =>
      rw [Nat.compare_eq_gt.2 (unit_lt_pair hh hl), eq_comm, Std.OrientedCmp.gt_iff_lt]
      exact below_pair_iff _
    | pair high' low' hh' hl' => exact ⟨fun _ => trivial, fun _ => compare_pair_pair hpq _ _⟩

theorem bytes_ne_nil (p : Piece) (ps : List Piece) : allBytes (p :: ps) ≠ [] := by
  rw [allBytes_cons]
  exact fun h => selfSynchronizing.word_ne_nil p (List.append_eq_nil_iff.1 h).1

/-- **The order of two strings** is that of their code units exactly under `PairsAbove`. -/
theorem compare_eq_iff (s t : List Piece) :
    compare (allBytes s) (allBytes t) = compare (allUnits s) (allUnits t) ↔ PairsAbove s t := by
  induction s generalizing t with
  | nil =>
    cases t with
    | nil => exact ⟨fun _ => trivial, fun _ => rfl⟩
    | cons q qs =>
      refine ⟨fun _ => trivial, fun _ => ?_⟩
      rw [allBytes_nil, allUnits_nil, compare_nil_of_ne (bytes_ne_nil q qs),
        compare_nil_of_ne allUnits_ne_nil]
  | cons p ps ih =>
    cases t with
    | nil =>
      refine ⟨fun _ => trivial, fun _ => ?_⟩
      rw [allBytes_nil, allUnits_nil, compare_ne_nil (bytes_ne_nil p ps),
        compare_ne_nil allUnits_ne_nil]
    | cons q qs =>
      show _ ↔ if p = q then PairsAbove ps qs else DifferAbove p ps q qs
      by_cases hpq : p = q
      · subst hpq
        rw [if_pos rfl, allBytes_cons, allBytes_cons, allUnits_cons, allUnits_cons,
          compare_append_left, compare_append_left]
        exact ih qs
      · rw [if_neg hpq, compare_allBytes_of_ne hpq]
        exact differAbove_iff hpq ps qs

end Piece

end QuickBeam.Vm.Runtime.Utf16
