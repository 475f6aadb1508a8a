import QuickBeam.Vm.Runtime.StringOrder

/-!
# Searching in strings (`builtin/string.ex`)

`indexOf`, `includes`, `startsWith` and `endsWith` work on the bytes of a string and read no
position.  They are compared with the search in its code units.
-/

namespace QuickBeam.Vm.Runtime.Utf16

open QuickBeam.Lib QuickBeam.Vm.Program QuickBeam.Vm.Bytecode

/-! ### The functions -/

section Functions

variable [Value.Platform]

def searched (arguments : List Value) : Binary := (arguments.headD .undefined).toStringValue

/-- `String.prototype.endsWith`. -/
def endsWith (value : Binary) (arguments : List Value) : Bool := searched arguments <:+ value

/-- `String.prototype.includes`. -/
def includes (value : Binary) (arguments : List Value) : Bool := searched arguments <:+: value

/-- `String.prototype.startsWith`. -/
def startsWith (value : Binary) (arguments : List Value) : Bool := searched arguments <+: value

omit [Value.Platform] in
def firstMatch (pattern : Binary) : Binary → Option ℕ
  | [] => none
  | b :: rest => if pattern <+: b :: rest then some 0 else (firstMatch pattern rest).map (· + 1)

/-- `String.prototype.indexOf`; `:binary.match/2` raises on an empty pattern. -/
def indexOf (value : Binary) (arguments : List Value) : Option ℤ :=
  if searched arguments = [] then none
  else
    match firstMatch (searched arguments) value with
    | some index => some index
    | none => some (-1)

end Functions

/-! ### The search in code units -/

def Piece.isAscii : Piece → Bool
  | .unit u => u.toNat < 0x80
  | .pair .. => false

def OccursAt (needle us : List UInt16) (i : ℕ) : Prop := i ≤ us.length ∧ needle <+: us.drop i

def IsIndexOf (needle us : List UInt16) (start : ℕ) (index : ℤ) : Prop :=
  (∃ i : ℕ, index = i ∧ start ≤ i ∧ OccursAt needle us i ∧
    ∀ j, start ≤ j → j < i → ¬OccursAt needle us j) ∨
  index = -1 ∧ ∀ i, start ≤ i → ¬OccursAt needle us i

def relationalOps : List Op := [.lt, .lte, .gt, .gte]

/-- The relational operators order the two strings by their code units. -/
def Ordered [Value.Platform] (s t : List Piece) : Prop :=
  ∀ op ∈ relationalOps, Value.binary op (.string (Piece.allBytes s)) (.string (Piece.allBytes t)) =
    some (.bool (Value.compareOrder op (compare (Piece.allUnits s) (Piece.allUnits t))))

/-- The functions follow the code units of the strings at every position. -/
structure Follows [Value.Platform] (s t : List Piece) : Prop where
  indexOf : ∀ start : ℕ, ∃ index,
    indexOf (Piece.allBytes s) [.string (Piece.allBytes t), .int start] = some index ∧
      IsIndexOf (Piece.allUnits t) (Piece.allUnits s) start index
  includes : ∀ start : ℕ,
    includes (Piece.allBytes s) [.string (Piece.allBytes t), .int start] = true ↔
      ∃ i, start ≤ i ∧ OccursAt (Piece.allUnits t) (Piece.allUnits s) i
  startsWith : ∀ start : ℕ,
    startsWith (Piece.allBytes s) [.string (Piece.allBytes t), .int start] = true ↔
      Piece.allUnits t <+: (Piece.allUnits s).drop start
  endsWith : ∀ finish : ℕ,
    endsWith (Piece.allBytes s) [.string (Piece.allBytes t), .int finish] = true ↔
      Piece.allUnits t <:+ (Piece.allUnits s).take finish
  ordered : Ordered s t

/-- The functions follow the code units of the strings when no position is given. -/
structure FollowsWhole [Value.Platform] (s t : List Piece) : Prop where
  indexOf : ∃ index, indexOf (Piece.allBytes s) [.string (Piece.allBytes t)] = some index ∧
    IsIndexOf (Piece.allUnits t) (Piece.allUnits s) 0 index
  includes : includes (Piece.allBytes s) [.string (Piece.allBytes t)] = true ↔
    ∃ i, OccursAt (Piece.allUnits t) (Piece.allUnits s) i
  startsWith : startsWith (Piece.allBytes s) [.string (Piece.allBytes t)] = true ↔
    Piece.allUnits t <+: Piece.allUnits s
  endsWith : endsWith (Piece.allBytes s) [.string (Piece.allBytes t)] = true ↔
    Piece.allUnits t <:+ Piece.allUnits s
  ordered : Ordered s t

/-! ### Matches -/

theorem firstMatch_some {pattern value : Binary} {k : ℕ} (h : firstMatch pattern value = some k) :
    pattern <+: value.drop k ∧ ∀ j < k, ¬pattern <+: value.drop j := by
  induction value generalizing k with
  | nil => cases h
  | cons b rest ih =>
    rw [firstMatch] at h
    split at h
    · rename_i hstarts
      cases h
      exact ⟨hstarts, fun j hj => absurd hj (Nat.not_lt_zero j)⟩
    · rename_i hnot
      obtain ⟨k', hk', rfl⟩ := Option.map_eq_some_iff.1 h
      obtain ⟨hmatch, hfirst⟩ := ih hk'
      refine ⟨hmatch, fun j hj => ?_⟩
      cases j with
      | zero => exact hnot
      | succ j => exact hfirst j (by omega)

theorem firstMatch_none {pattern value : Binary} (hpattern : pattern ≠ [])
    (h : firstMatch pattern value = none) : ¬pattern <:+: value := by
  induction value with
  | nil => exact fun hoccurs => hpattern (List.infix_nil.1 hoccurs)
  | cons b rest ih =>
    rw [firstMatch] at h
    split at h
    · cases h
    · rename_i hnot
      intro hoccurs
      rcases List.infix_cons_iff.1 hoccurs with hstarts | hoccurs
      · exact hnot hstarts
      · exact ih (Option.map_eq_none_iff.1 h) hoccurs

theorem infix_of_occursAt {needle us : List UInt16} {i : ℕ} (h : OccursAt needle us i) :
    needle <:+: us :=
  h.2.isInfix.trans (List.drop_suffix i us).isInfix

theorem occursAt_append (x needle y : List UInt16) : OccursAt needle (x ++ needle ++ y) x.length := by
  refine ⟨?_, ?_⟩
  · rw [List.length_append, List.length_append]
    omega
  · rw [List.append_assoc, List.drop_left]
    exact List.prefix_append _ _

theorem exists_occursAt_iff {needle us : List UInt16} :
    (∃ i, OccursAt needle us i) ↔ needle <:+: us := by
  constructor
  · rintro ⟨i, h⟩
    exact infix_of_occursAt h
  · rintro ⟨x, y, rfl⟩
    exact ⟨_, occursAt_append x needle y⟩

/-! ### Pieces -/

open Piece

variable {s t : List Piece}

theorem bytes_infix_iff : allBytes t <:+: allBytes s ↔ t <:+: s :=
  selfSynchronizing.infix_iff

theorem bytes_prefix_iff : allBytes t <+: allBytes s ↔ t <+: s :=
  selfSynchronizing.prefix_iff

theorem bytes_suffix_iff : allBytes t <:+ allBytes s ↔ t <:+ s :=
  selfSynchronizing.suffix_iff

theorem occurs_allUnits (h : t <:+: s) : allUnits t <:+: allUnits s := by
  obtain ⟨x, y, rfl⟩ := h
  rw [allUnits_append, allUnits_append]
  exact List.infix_append _ _ _

theorem allBytes_eq_nil_iff : allBytes t = [] ↔ t = [] := by
  cases t with
  | nil => exact ⟨fun _ => rfl, fun _ => rfl⟩
  | cons p ps => exact ⟨fun h => absurd h (bytes_ne_nil p ps), fun h => (by cases h)⟩

section Search

variable [Value.Platform] {s t : List Piece}

theorem indexOf_string (value needle : Binary) (rest : List Value) :
    indexOf value (.string needle :: rest) = if needle = [] then none
      else match firstMatch needle value with
        | some index => some (index : ℤ)
        | none => some (-1) := rfl

/-! ### The relational operators -/

omit [Value.Platform] in
theorem compareOrder_eq_iff {a b : Ordering} :
    (∀ op ∈ relationalOps, Value.compareOrder op a = Value.compareOrder op b) ↔ a = b := by
  constructor
  · intro h
    have hlt := h .lt (by decide)
    have hgt := h .gt (by decide)
    cases a <;> cases b <;>
      first | rfl | exact absurd hlt (by decide) | exact absurd hgt (by decide)
  · rintro rfl _ _
    rfl

theorem binary_relational {op : Op} (hop : op ∈ relationalOps) (a b : Value) :
    Value.binary op a b = some (.bool (Value.compareValues a b op)) := by
  fin_cases hop <;> rfl

theorem ordered_iff : Ordered s t ↔ PairsAbove s t := by
  rw [← compare_eq_iff, ← compareOrder_eq_iff]
  refine forall_congr' fun op => forall_congr' fun hop => ?_
  rw [binary_relational hop]
  show some (Value.bool (Value.compareOrder op (compare (allBytes s) (allBytes t)))) = _ ↔ _
  rw [Option.some_inj, Value.bool.injEq]

/-! ### Every position -/

/-- **Searching at every position** follows the code units exactly if there is nothing to find. -/
theorem pieces_follow_iff : Follows s t ↔ ¬allUnits t <:+: allUnits s ∧ PairsAbove s t := by
  constructor
  · intro h
    refine ⟨fun hoccurs => ?_, ordered_iff.1 h.ordered⟩
    obtain ⟨i, hi⟩ := exists_occursAt_iff.2 hoccurs
    -- The same index would be given from the start and from behind the end.
    obtain ⟨index, hindex, hfirst⟩ := h.indexOf 0
    obtain ⟨index', hindex', hlast⟩ := h.indexOf ((allUnits s).length + 1)
    cases hindex.symm.trans hindex'
    rcases hlast with ⟨j, -, hj, hoccurs, -⟩ | ⟨rfl, -⟩
    · have hle := hoccurs.1
      omega
    · rcases hfirst with ⟨j, hj, -⟩ | ⟨-, hnone⟩
      · omega
      · exact hnone i (Nat.zero_le i) hi
  · rintro ⟨hnone, hordered⟩
    have hpieces : ¬t <:+: s := fun h => hnone (occurs_allUnits h)
    have hne : allBytes t ≠ [] := fun h => hpieces (allBytes_eq_nil_iff.1 h ▸ List.nil_infix)
    have hbytes : ¬allBytes t <:+: allBytes s := mt bytes_infix_iff.1 hpieces
    have hoccurs : ∀ i, ¬OccursAt (allUnits t) (allUnits s) i := fun i h =>
      hnone (infix_of_occursAt h)
    refine ⟨fun start => ⟨-1, ?_, .inr ⟨rfl, fun i _ => hoccurs i⟩⟩, fun start => ?_, fun start => ?_,
      fun finish => ?_, ordered_iff.2 hordered⟩
    · rw [indexOf_string, if_neg hne]
      cases hmatch : firstMatch (allBytes t) (allBytes s) with
      | none => rfl
      | some k =>
        have hstarts := (firstMatch_some hmatch).1
        exact absurd (hstarts.isInfix.trans (List.drop_suffix k _).isInfix) hbytes
    · exact ⟨fun h => absurd (of_decide_eq_true h) hbytes, fun ⟨i, _, h⟩ => absurd h (hoccurs i)⟩
    · exact ⟨fun h => absurd (of_decide_eq_true h : _ <+: _).isInfix hbytes,
        fun h => absurd (h.isInfix.trans (List.drop_suffix start _).isInfix) hnone⟩
    · exact ⟨fun h => absurd (of_decide_eq_true h : _ <:+ _).isInfix hbytes,
        fun h => absurd (h.isInfix.trans (List.take_prefix finish _).isInfix) hnone⟩

/-! ### No position -/

omit [Value.Platform] in
theorem length_bytes_cases (p : Piece) :
    p.isAscii = true ∧ p.bytes.length = 1 ∧ p.units.length = 1 ∨
      p.isAscii = false ∧ p.units.length < p.bytes.length := by
  have hlength : p.bytes.length = (digits p.code).length := by
    rw [← bytes_eq_digits, List.length_map]
  rw [hlength]
  cases p with
  | unit u =>
    show decide (u.toNat < 0x80) = true ∧ (digits u.toNat).length = 1 ∧ _ ∨
      decide (u.toNat < 0x80) = false ∧ 1 < (digits u.toNat).length
    unfold digits
    by_cases hascii : u.toNat < 0x80
    · rw [if_pos hascii]
      exact .inl ⟨decide_eq_true hascii, rfl, rfl⟩
    · rw [if_neg hascii]
      refine .inr ⟨decide_eq_false hascii, ?_⟩
      split
      · exact Nat.one_lt_two
      · split <;> simp
  | pair high low hh hl =>
    have hcode := code_pair hh hl
    refine .inr ⟨rfl, ?_⟩
    unfold digits
    rw [if_neg (by omega), if_neg (by omega), if_neg (by omega)]
    show 2 < 4
    decide

omit [Value.Platform] in
theorem length_units_le (ps : List Piece) : (allUnits ps).length ≤ (allBytes ps).length := by
  induction ps with
  | nil => exact le_rfl
  | cons p ps ih =>
    rw [allUnits_cons, allBytes_cons, List.length_append, List.length_append]
    rcases length_bytes_cases p with ⟨-, hb, hu⟩ | ⟨-, hlt⟩ <;> omega

omit [Value.Platform] in
theorem length_eq_iff (ps : List Piece) :
    (allBytes ps).length = (allUnits ps).length ↔ ∀ p ∈ ps, p.isAscii = true := by
  induction ps with
  | nil => exact ⟨fun _ p hp => (by cases hp), fun _ => rfl⟩
  | cons p ps ih =>
    have hle := length_units_le ps
    rw [allUnits_cons, allBytes_cons, List.length_append, List.length_append, List.forall_mem_cons,
      ← ih]
    rcases length_bytes_cases p with ⟨hascii, hb, hu⟩ | ⟨hascii, hlt⟩
    · rw [hascii]
      exact ⟨fun h => ⟨rfl, by omega⟩, fun h => by omega⟩
    · rw [hascii]
      exact ⟨fun h => by omega, fun h => (by cases h.1)⟩

/-- What is found first in the code units stands, as characters, behind nothing but ASCII. -/
def FirstAfterAscii (s t : List Piece) : Prop :=
  ∀ i, OccursAt (allUnits t) (allUnits s) i → (∀ j < i, ¬OccursAt (allUnits t) (allUnits s) j) →
    ∃ before after, s = before ++ t ++ after ∧ (∀ p ∈ before, p.isAscii = true) ∧
      (allUnits before).length = i

omit [Value.Platform] in
theorem occursAt_pieces (before after : List Piece) :
    OccursAt (allUnits t) (allUnits (before ++ t ++ after)) (allUnits before).length := by
  rw [allUnits_append, allUnits_append]
  exact occursAt_append _ _ _

omit [Value.Platform] in
theorem pieces_of_match (ht : t ≠ []) {k : ℕ} (h : allBytes t <+: (allBytes s).drop k) :
    ∃ before after, s = before ++ t ++ after ∧ (allBytes before).length = k := by
  obtain ⟨y, hy⟩ := h
  have hsplit : allBytes s = (allBytes s).take k ++ (allBytes t ++ y) := by
    rw [hy, List.take_append_drop]
  obtain ⟨before, after, hs, hbefore⟩ := selfSynchronizing.split_at_words ht hsplit
  refine ⟨before, after, hs, ?_⟩
  have hk : k ≤ (allBytes s).length := by
    by_contra hgt
    rw [List.drop_eq_nil_of_le (by omega)] at hy
    exact ht (allBytes_eq_nil_iff.1 (List.append_eq_nil_iff.1 hy).1)
  have hlength := congrArg List.length hbefore
  rw [List.length_take, Nat.min_eq_left hk] at hlength
  exact hlength.symm

omit [Value.Platform] in
theorem match_of_pieces (before after : List Piece) :
    allBytes t <+: (allBytes (before ++ t ++ after)).drop (allBytes before).length := by
  rw [allBytes_append, allBytes_append, List.append_assoc, List.drop_left]
  exact List.prefix_append _ _

omit [Value.Platform] in
theorem exists_first {needle us : List UInt16} {i : ℕ} (h : OccursAt needle us i) :
    ∃ j ≤ i, OccursAt needle us j ∧ ∀ j' < j, ¬OccursAt needle us j' := by
  classical
  have hex : ∃ i, OccursAt needle us i := ⟨i, h⟩
  exact ⟨Nat.find hex, Nat.find_min' hex h, Nat.find_spec hex, fun j' hj' => Nat.find_min hex hj'⟩

omit [Value.Platform] in
theorem isIndexOf_match_iff (ht : t ≠ []) {k : ℕ}
    (hmatch : firstMatch (allBytes t) (allBytes s) = some k) :
    IsIndexOf (allUnits t) (allUnits s) 0 k ↔ FirstAfterAscii s t := by
  obtain ⟨hat, hfirst⟩ := firstMatch_some hmatch
  obtain ⟨before, after, hs, hk⟩ := pieces_of_match ht hat
  have hoccurs : OccursAt (allUnits t) (allUnits s) (allUnits before).length := by
    rw [hs]
    exact occursAt_pieces before after
  have hle := length_units_le before
  constructor
  · rintro (⟨i, hi, -, hoccursAt, hleast⟩ | ⟨hneg, -⟩)
    · intro j hj hjleast
      obtain rfl : j = i := by
        rcases Nat.lt_trichotomy j i with hlt | heq | hgt
        · exact absurd hj (hleast j (Nat.zero_le j) hlt)
        · exact heq
        · exact absurd hoccursAt (hjleast i hgt)
      have hge : j ≤ (allUnits before).length := by
        by_contra hlt
        exact hjleast _ (by omega) hoccurs
      exact ⟨before, after, hs, (length_eq_iff before).1 (by omega), by omega⟩
    · omega
  · intro h
    obtain ⟨i, hi, hoccursAt, hleast⟩ := exists_first hoccurs
    obtain ⟨before', after', hs', hascii, hlength⟩ := h i hoccursAt hleast
    have hbytes := (length_eq_iff before').2 hascii
    have hat' : allBytes t <+: (allBytes s).drop i := by
      rw [← hlength, ← hbytes, hs']
      exact match_of_pieces before' after'
    have hki : k = i := by
      by_contra hne
      exact hfirst i (by omega) hat'
    subst hki
    exact .inl ⟨k, rfl, Nat.zero_le k, hoccursAt, fun j _ hj => hleast j hj⟩

theorem indexOf_whole_iff : (∃ index, indexOf (allBytes s) [.string (allBytes t)] = some index ∧
    IsIndexOf (allUnits t) (allUnits s) 0 index) ↔ t ≠ [] ∧ FirstAfterAscii s t := by
  rw [indexOf_string]
  by_cases ht : t = []
  · rw [if_pos (allBytes_eq_nil_iff.2 ht)]
    exact ⟨fun ⟨_, h, _⟩ => (by cases h), fun h => absurd ht h.1⟩
  rw [if_neg (mt allBytes_eq_nil_iff.1 ht), and_iff_right ht]
  cases hmatch : firstMatch (allBytes t) (allBytes s) with
  | some k =>
    rw [← isIndexOf_match_iff ht hmatch]
    exact ⟨fun ⟨_, h, hindex⟩ => by cases h; exact hindex, fun h => ⟨k, rfl, h⟩⟩
  | none =>
    have hnone := firstMatch_none (mt allBytes_eq_nil_iff.1 ht) hmatch
    constructor
    · rintro ⟨index, hindex, ⟨i, rfl, -⟩ | ⟨-, hnot⟩⟩
      · cases hindex
      · exact fun i hi => absurd hi (hnot i (Nat.zero_le i))
    · intro h
      refine ⟨-1, rfl, .inr ⟨rfl, fun i _ hi => ?_⟩⟩
      obtain ⟨j, -, hj, hleast⟩ := exists_first hi
      obtain ⟨before, after, rfl, -⟩ := h j hj hleast
      exact hnone (bytes_infix_iff.2 (List.infix_append _ _ _))

/-- **Searching without a position** follows the code units exactly if the needle is not empty,
what is found first stands behind ASCII only, and what ends the string does so as characters. -/
theorem followsWhole_iff : FollowsWhole s t ↔ t ≠ [] ∧ FirstAfterAscii s t ∧
    (allUnits t <:+ allUnits s → t <:+ s) ∧ PairsAbove s t := by
  constructor
  · intro h
    obtain ⟨hne, hfirst⟩ := indexOf_whole_iff.1 h.indexOf
    refine ⟨hne, hfirst, fun hsuffix => ?_, ordered_iff.1 h.ordered⟩
    exact bytes_suffix_iff.1 (of_decide_eq_true (h.endsWith.2 hsuffix))
  · rintro ⟨hne, hfirst, hsuffix, hordered⟩
    have hpieces : ∀ {i}, OccursAt (allUnits t) (allUnits s) i → t <:+: s := by
      intro i hi
      obtain ⟨j, -, hj, hleast⟩ := exists_first hi
      obtain ⟨before, after, rfl, -⟩ := hfirst j hj hleast
      exact List.infix_append _ _ _
    refine ⟨indexOf_whole_iff.2 ⟨hne, hfirst⟩, ?_, ?_, ?_, ordered_iff.2 hordered⟩
    · rw [exists_occursAt_iff]
      refine ⟨fun h => occurs_allUnits (bytes_infix_iff.1 (of_decide_eq_true h)), fun h => ?_⟩
      obtain ⟨i, hi⟩ := exists_occursAt_iff.2 h
      exact decide_eq_true (bytes_infix_iff.2 (hpieces hi))
    · constructor
      · intro h
        obtain ⟨after, rfl⟩ := bytes_prefix_iff.1 (of_decide_eq_true h)
        rw [allUnits_append]
        exact List.prefix_append _ _
      · intro h
        obtain ⟨before, after, rfl, -, hlength⟩ :=
          hfirst 0 ⟨Nat.zero_le _, h⟩ fun j hj => absurd hj (Nat.not_lt_zero j)
        have hbefore : before = [] := by
          cases before with
          | nil => rfl
          | cons p ps =>
            have hpos := units_length_pos p
            rw [allUnits_cons, List.length_append] at hlength
            omega
        subst hbefore
        refine decide_eq_true (bytes_prefix_iff.2 ?_)
        exact List.prefix_append _ _
    · constructor
      · intro h
        obtain ⟨before, rfl⟩ := bytes_suffix_iff.1 (of_decide_eq_true h)
        rw [allUnits_append]
        exact List.suffix_append _ _
      · exact fun h => decide_eq_true (bytes_suffix_iff.2 (hsuffix h))

/-- **Searching and ordering** strings follow their code units, at every position, exactly if there
is nothing to find and the strings do not first differ in an astral character that comes before the
other one; without a position, exactly under the conditions of `followsWhole_iff`. -/
theorem search_iff (s t : List Piece) :
    (Follows s t ↔ ¬allUnits t <:+: allUnits s ∧ PairsAbove s t) ∧
      (FollowsWhole s t ↔ t ≠ [] ∧ FirstAfterAscii s t ∧ (allUnits t <:+ allUnits s → t <:+ s) ∧
        PairsAbove s t) :=
  ⟨pieces_follow_iff, followsWhole_iff⟩

end Search

/-- `"éa".indexOf("a")` is 2 and not 1, `"aa".indexOf("a", 1)` is 0 and not 1, `"a".indexOf("")`
raises, and an astral character comes after `"\uE000"`, not before it. -/
theorem search_in_bytes :
    @indexOf Value.noNumbers (allBytes [unit 0xE9, unit 0x61]) [.string (allBytes [unit 0x61])] =
        some 2 ∧
      IsIndexOf [0x61] [0xE9, 0x61] 0 1 ∧
      @indexOf Value.noNumbers (allBytes [unit 0x61, unit 0x61])
        [.string (allBytes [unit 0x61]), .int 1] = some 0 ∧
      IsIndexOf [0x61] [0x61, 0x61] 1 1 ∧
      @indexOf Value.noNumbers (allBytes [unit 0x61]) [.string []] = none ∧
      @Value.binary Value.noNumbers .lt (.string (allBytes [pair 0xD83D 0xDE00 rfl rfl]))
        (.string (allBytes [unit 0xE000])) = some (.bool false) ∧
      compare ([0xD83D, 0xDE00] : List UInt16) [0xE000] = .lt ∧
      ¬@Follows Value.noNumbers [unit 0xE9, unit 0x61] [unit 0x61] := by
  refine ⟨by decide, .inl ⟨1, rfl, by decide, ⟨by decide, by decide⟩, fun j _ hj => ?_⟩, by decide,
    .inl ⟨1, rfl, by decide, ⟨by decide, by decide⟩, fun j hstart hj => by omega⟩, by decide, ?_,
    by decide, fun h => ?_⟩
  · obtain rfl : j = 0 := by omega
    exact fun h => absurd h.2 (by decide)
  · rfl
  · obtain ⟨index, hindex, ⟨i, rfl, -, hoccurs, -⟩ | ⟨rfl, -⟩⟩ :=
      @Follows.indexOf Value.noNumbers _ _ h 0
    · obtain rfl : i = 2 := by
        have htwo : ((2 : ℕ) : ℤ) = i := Option.some.inj hindex
        omega
      exact absurd hoccurs.2 (by decide)
    · cases hindex

end QuickBeam.Vm.Runtime.Utf16
