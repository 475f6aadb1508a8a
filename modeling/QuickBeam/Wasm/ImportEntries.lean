import QuickBeam.Wasm.ImportRewriter

/-!
# The coders of the import rewriter against the format

What the rewriter writes are numbers, limits, globals and sections of the format, and what it reads
of them is what the format says.  A global is cut off at the first `end` byte, so its immediate must
have none.
-/

namespace QuickBeam.Wasm.ImportRewriter

open QuickBeam.Lib QuickBeam.Lib.Leb128 QuickBeam.Lib.Wasm

/-! ### Numbers -/

theorem and_low (b : ℕ) : b &&& 0x7F = b % 128 := Nat.and_two_pow_sub_one_eq_mod b 7

variable {b : ℕ}

theorem and_high (h : b < 256) : b &&& 0x80 = 0 ↔ b < 128 := by
  have hall : ∀ b < 256, b &&& 0x80 = 0 ↔ b < 128 := by decide +kernel
  exact hall b h

theorem and_sign (h : b < 128) : b &&& 0x40 = 0 ↔ b < 64 := by
  have hall : ∀ b < 128, b &&& 0x40 = 0 ↔ b < 64 := by decide
  exact hall b h

theorem or_high (h : b < 128) : 0x80 ||| b = 128 + b :=
  (Nat.two_pow_add_eq_or_of_lt (i := 7) h 1).symm

theorem toNat_ofNat {n : ℕ} (h : n < 256) : (UInt8.ofNat n).toNat = n := by
  rw [UInt8.toNat_ofNat']
  exact Nat.mod_eq_of_lt h

/-- The groups of a number, on top of what was read. -/
theorem decodeU32From_append {bs : Bytes} {n : ℕ} (h : Unsigned bs n) {acc shift : ℕ}
    (hacc : acc < 2 ^ shift) (rest : Bytes) :
    decodeU32From acc shift (bs ++ rest) = .ok (acc + n * 2 ^ shift, rest) := by
  have hgroup : ∀ b : UInt8, acc ||| ((b.toNat &&& 0x7F) <<< shift) =
      acc + b.toNat % 128 * 2 ^ shift := by
    intro b
    rw [and_low, Nat.shiftLeft_eq, Nat.or_comm, Nat.mul_comm,
      ← Nat.two_pow_add_eq_or_of_lt hacc, Nat.add_comm]
  induction h generalizing acc shift with
  | last b hb =>
    rw [List.singleton_append, decodeU32From, hgroup, if_pos ((and_high b.toNat_lt).2 hb),
      Nat.mod_eq_of_lt hb]
  | @more b bs n hb hrest ih =>
    have hlow : b.toNat % 128 = b.toNat - 128 := by
      have hlt := b.toNat_lt
      omega
    have hlt : b.toNat < 256 := b.toNat_lt
    have hvalue : acc + (b.toNat - 128) * 2 ^ shift < 2 ^ (shift + 7) := by
      have hle : (b.toNat - 128) * 2 ^ shift ≤ 127 * 2 ^ shift :=
        Nat.mul_le_mul_right _ (by omega)
      rw [Nat.pow_add]
      omega
    rw [List.cons_append, decodeU32From, hgroup, hlow,
      if_neg (by rw [and_high hlt]; omega), ih hvalue]
    · congr 2
      rw [Nat.pow_add, Nat.add_mul, Nat.add_assoc, Nat.mul_comm (2 ^ shift), ← Nat.mul_assoc,
        Nat.mul_comm n]
    · intro c
      rw [and_low, Nat.shiftLeft_eq, Nat.or_comm, Nat.mul_comm,
        ← Nat.two_pow_add_eq_or_of_lt hvalue, Nat.add_comm]

variable {bs : Bytes}

theorem decodeU32_append {n : ℕ} (h : U32 bs n) (rest : Bytes) :
    decodeU32 (bs ++ rest) = .ok (n, rest) := by
  rw [decodeU32, decodeU32From_append h.unsigned (Nat.one_pos) rest, Nat.zero_add, Nat.pow_zero,
    Nat.mul_one]

theorem encodeUleb128_unsigned (value : ℕ) : Unsigned (encodeUleb128 value) value := by
  induction value using Nat.strongRecOn with
  | ind value ih =>
    rw [encodeUleb128]
    split
    · rename_i hlt
      have hbyte : (UInt8.ofNat value).toNat = value := toNat_ofNat (by omega)
      have hlast := Unsigned.last (UInt8.ofNat value) (by omega)
      rwa [hbyte] at hlast
    · rename_i hge
      have hbyte : (UInt8.ofNat (0x80 ||| (value &&& 0x7F))).toNat = 128 + value % 128 := by
        rw [and_low, or_high (Nat.mod_lt _ (by decide))]
        exact toNat_ofNat (by omega)
      have hnext : value >>> 7 = value / 128 := Nat.shiftRight_eq_div_pow value 7
      have hmore := Unsigned.more (UInt8.ofNat (0x80 ||| (value &&& 0x7F))) (by omega)
        (ih (value >>> 7) (by omega))
      have heq : 128 + value % 128 - 128 + 128 * (value >>> 7) = value := by omega
      rwa [hbyte, heq] at hmore

theorem length_encodeUleb128 {k value : ℕ} (h : value < 2 ^ (7 * (k + 1))) :
    (encodeUleb128 value).length ≤ k + 1 := by
  induction k generalizing value with
  | zero =>
    have hsmall : value < 0x80 := h
    rw [encodeUleb128, if_pos hsmall]
    exact le_refl 1
  | succ k ih =>
    rw [encodeUleb128]
    split
    · exact Nat.succ_pos _
    · have hnext : value >>> 7 < 2 ^ (7 * (k + 1)) := by
        have hpow : 2 ^ (7 * (k + 1 + 1)) = 2 ^ (7 * (k + 1)) * 2 ^ 7 := by
          rw [← Nat.pow_add]
          rfl
        rw [hpow] at h
        rw [Nat.shiftRight_eq_div_pow]
        exact Nat.div_lt_of_lt_mul (by rwa [Nat.mul_comm])
      exact Nat.succ_le_succ (ih hnext)

theorem encodeU32_u32 {value : ℕ} (h : value < 2 ^ 32) : U32 (encodeU32 value) value where
  unsigned := encodeUleb128_unsigned value
  length := length_encodeUleb128 (k := 4) (Nat.lt_trans h (by decide))
  lt := h

theorem encodeSleb128_signed (value : ℤ) : Signed (encodeSleb128 value) value := by
  induction h : value.natAbs using Nat.strongRecOn generalizing value with
  | ind n ih =>
    have hmod : 0 ≤ value % 128 := Int.emod_nonneg value (by decide)
    have hlt : value % 128 < 128 := Int.emod_lt_of_pos value (by decide)
    have hsign := and_sign (b := (value % 128).toNat) (by omega)
    rw [encodeSleb128]
    split
    · rename_i hdone
      have hbyte : (UInt8.ofNat (value % 128).toNat).toNat = (value % 128).toNat :=
        toNat_ofNat (by omega)
      rcases hdone with ⟨hnext, hbit⟩ | ⟨hnext, hbit⟩
      · have hlow := hsign.1 hbit
        have hlast := Signed.nonneg (UInt8.ofNat (value % 128).toNat) (by omega)
        have heq : ((value % 128).toNat : ℤ) = value := by omega
        rwa [hbyte, heq] at hlast
      · have hhigh : 64 ≤ (value % 128).toNat := by
          by_contra hlow
          exact hbit (hsign.2 (by omega))
        have hlast := Signed.neg (UInt8.ofNat (value % 128).toNat) (by omega) (by omega)
        have heq : ((value % 128).toNat : ℤ) - 128 = value := by omega
        rwa [hbyte, heq] at hlast
    · rename_i hmore
      have hbyte : (UInt8.ofNat ((value % 128).toNat ||| 0x80)).toNat =
          128 + (value % 128).toNat := by
        rw [Nat.or_comm, or_high (by omega)]
        exact toNat_ofNat (by omega)
      have hsmaller : (value / 128).natAbs < n := by
        by_contra hle
        have hvalue : value = 0 ∨ value = -1 := by omega
        rcases hvalue with rfl | rfl
        · exact hmore (.inl ⟨rfl, rfl⟩)
        · exact hmore (.inr ⟨rfl, by decide⟩)
      have hnext := Signed.more (UInt8.ofNat ((value % 128).toNat ||| 0x80)) (by omega)
        (ih _ hsmaller (value / 128) rfl)
      have heq : ((128 + (value % 128).toNat : ℕ) : ℤ) - 128 + 128 * (value / 128) = value := by
        omega
      rwa [hbyte, heq] at hnext

variable {value : ℤ}

theorem length_encodeSleb128 {k : ℕ} (hge : -(64 * 128 ^ k : ℤ) ≤ value)
    (hlt : value < 64 * 128 ^ k) : (encodeSleb128 value).length ≤ k + 1 := by
  induction k generalizing value with
  | zero =>
    have hdone : sleb128Done value := by
      have hsign := and_sign (b := (value % 128).toNat) (by omega)
      by_cases hneg : value < 0
      · refine .inr ⟨by omega, fun hbit => ?_⟩
        have hlow := hsign.1 hbit
        omega
      · exact .inl ⟨by omega, hsign.2 (by omega)⟩
    rw [encodeSleb128, if_pos hdone]
    exact le_refl 1
  | succ k ih =>
    rw [encodeSleb128]
    split
    · exact Nat.succ_pos _
    · rw [pow_succ] at hge hlt
      refine Nat.succ_le_succ (ih ?_ ?_)
      · omega
      · omega

theorem encodeSleb128_s32 (hge : -2 ^ 31 ≤ value) (hlt : value < 2 ^ 31) :
    S32 (encodeSleb128 value) value where
  signed := encodeSleb128_signed value
  length := length_encodeSleb128 (k := 4) (by omega) (by omega)
  ge := hge
  lt := hlt

theorem encodeSleb128_s64 (hge : -2 ^ 63 ≤ value) (hlt : value < 2 ^ 63) :
    S64 (encodeSleb128 value) value where
  signed := encodeSleb128_signed value
  length := length_encodeSleb128 (k := 9) (by omega) (by omega)
  ge := hge
  lt := hlt

/-! ### Raw entries -/

def Takes (decoder : Bytes → Except Failure (Bytes × Bytes)) (raw : Bytes) : Prop :=
  ∀ tail, decoder (raw ++ tail) = .ok (raw, tail)

theorem take_consumed (raw tail : Bytes) :
    ((raw ++ tail).take ((raw ++ tail).length - tail.length),
      (raw ++ tail).drop ((raw ++ tail).length - tail.length)) = (raw, tail) := by
  rw [List.length_append, Nat.add_sub_cancel, List.take_left, List.drop_left]

theorem takeLimitsRaw_takes {raw : Bytes} {limits : Limits} (h : IsLimits raw limits) :
    Takes takeLimitsRaw raw := by
  intro tail
  cases h with
  | @unbounded a n hmin =>
    have hdecode := decodeU32_append hmin tail
    show (decodeU32 (a ++ tail) >>= _) = _
    rw [hdecode]
    exact congrArg Except.ok (take_consumed (0x00 :: a) tail)
  | @bounded a b n m hmin hmax =>
    have hdecode := decodeU32_append hmin (b ++ tail)
    have hdecode' := decodeU32_append hmax tail
    show (decodeU32 (a ++ b ++ tail) >>= _) = _
    rw [List.append_assoc, hdecode]
    show (decodeU32 (b ++ tail) >>= _) = _
    rw [hdecode']
    exact congrArg Except.ok (take_consumed (0x01 :: (a ++ b)) tail)

theorem takeGlobalRaw_eq (g : Global) (tail : Bytes) : takeGlobalRaw (g.bytes ++ tail) =
    match (g.init.bytes ++ tail).findIdx? (· = 0x0B) with
    | some exprSize => .ok ((g.bytes ++ tail).take (2 + exprSize + 1),
        (g.bytes ++ tail).drop (2 + exprSize + 1))
    | none => raise := rfl

theorem takeGlobalRaw_takes {g : Global} (h : 0x0B ∉ g.init.immediate) :
    Takes takeGlobalRaw g.bytes := by
  intro tail
  have hopcode : g.init.instr.opcode ≠ 0x0B := by
    cases g.init.instr <;> simp [ConstInstr.opcode]
  have hfind : (g.init.bytes ++ tail).findIdx? (· = 0x0B) = some (1 + g.init.immediate.length) := by
    have hinit : g.init.bytes ++ tail =
        (g.init.instr.opcode :: g.init.immediate) ++ 0x0B :: tail := by
      simp [ConstExpr.bytes]
    have hnone : (g.init.instr.opcode :: g.init.immediate).findIdx? (· = 0x0B) = none := by
      refine List.findIdx?_eq_none_iff.2 ?_
      intro byte hin
      rcases List.mem_cons.1 hin with rfl | hin
      · exact decide_eq_false hopcode
      · exact decide_eq_false fun heq => h (heq ▸ hin)
    rw [hinit, List.findIdx?_append, hnone, List.findIdx?_cons, if_pos (decide_eq_true rfl)]
    simp [Nat.add_comm]
  have hsize : g.bytes.length = 2 + (1 + g.init.immediate.length) + 1 := by
    simp only [Global.bytes, ConstExpr.bytes, List.length_cons, List.length_append, List.length_nil]
    omega
  rw [takeGlobalRaw_eq, hfind]
  dsimp only
  rw [← hsize, List.take_left, List.drop_left]

variable {decoder : Bytes → Except Failure (Bytes × Bytes)} {items : List Bytes}

theorem decodeVecRawItems_append (h : ∀ item ∈ items, Takes decoder item) (tail : Bytes) :
    decodeVecRawItems decoder items.length (items.flatten ++ tail) = .ok (items, tail) := by
  induction items with
  | nil => rfl
  | cons item items ih =>
    have hitem := h item List.mem_cons_self (items.flatten ++ tail)
    have hitems := ih fun item hin => h item (List.mem_cons_of_mem _ hin)
    rw [List.length_cons, decodeVecRawItems, List.flatten_cons, List.append_assoc, hitem]
    show (decodeVecRawItems decoder items.length (items.flatten ++ tail) >>= _) = _
    rw [hitems]
    rfl

theorem decodeEntries_eq {count : Bytes} (hcount : U32 count items.length)
    (h : ∀ item ∈ items, Takes decoder item) :
    decodeEntries decoder (count ++ items.flatten) = .ok items := by
  have hitems := decodeVecRawItems_append h []
  rw [List.append_nil] at hitems
  rw [decodeEntries, decodeU32_append hcount]
  show (decodeVecRawItems decoder items.length items.flatten >>= _) = _
  rw [hitems]
  rfl

variable {β : Type}

theorem decodeEntries_isVec {item : Bytes → β → Prop} {payload : Bytes} {xs : List β}
    (h : IsVec item payload xs) (htakes : ∀ raw, ∀ x ∈ xs, item raw x → Takes decoder raw) :
    ∃ items, decodeEntries decoder payload = .ok items ∧ List.Forall₂ item items xs := by
  obtain ⟨count, items, rfl, hcount, hitems⟩ := h
  rw [← hitems.length_eq] at hcount
  refine ⟨items, decodeEntries_eq hcount ?_, hitems⟩
  intro raw hraw
  obtain ⟨i, hi, rfl⟩ := List.getElem_of_mem hraw
  have hi' : i < xs.length := by
    rw [← hitems.length_eq]
    exact hi
  exact htakes _ xs[i] (List.getElem_mem hi') (hitems.get hi hi')

theorem encodeVecRaw_isVec {item : Bytes → β → Prop} {xs : List β}
    (h : List.Forall₂ item items xs) (hlength : items.length < 2 ^ 32) :
    IsVec item (encodeVecRaw items) xs := by
  refine ⟨encodeU32 items.length, items, rfl, ?_, h⟩
  rw [← h.length_eq]
  exact encodeU32_u32 hlength

/-! ### Sections -/

variable {sections : List Section}

theorem parseSections_eq (h : IsSections bs sections) {fuel : ℕ} (hfuel : bs.length ≤ fuel) :
    parseSections fuel bs = .ok sections := by
  induction h generalizing fuel with
  | nil => cases fuel <;> rfl
  | @cons id size payload rest sections hsize hrest ih =>
    cases fuel with
    | zero => cases hfuel
    | succ fuel =>
      simp only [List.length_cons, List.length_append] at hfuel
      have hih := @ih fuel (by omega)
      rw [parseSections, decodeU32_append hsize]
      show (if payload.length ≤ (payload ++ rest).length then do
        let sections ← parseSections fuel ((payload ++ rest).drop payload.length)
        .ok (⟨id.toNat, (payload ++ rest).take payload.length⟩ :: sections)
        else fail "truncated WASM section") = _
      rw [if_pos (by rw [List.length_append]; omega), List.drop_left, List.take_left, hih]
      rfl

theorem splitSections_eq {body : Bytes} (h : IsSections body sections) :
    splitSections (magic ++ body) = .ok sections := by
  have hfront : magic.isPrefixOf (magic ++ body) = true :=
    List.isPrefixOf_iff_prefix.2 (List.prefix_append _ _)
  rw [splitSections, if_pos hfront, List.drop_left]
  exact parseSections_eq h (le_refl _)

theorem rebuild_isSections (hid : ∀ s ∈ sections, s.id < 256)
    (hsize : ∀ s ∈ sections, s.payload.length < 2 ^ 32) :
    IsSections (sections.flatMap encodeSection) sections := by
  induction sections with
  | nil => exact .nil
  | cons s sections ih =>
    have hrest := ih (fun t hin => hid t (List.mem_cons_of_mem _ hin))
      fun t hin => hsize t (List.mem_cons_of_mem _ hin)
    have hcons := IsSections.cons (UInt8.ofNat s.id)
      (encodeU32_u32 (hsize s List.mem_cons_self)) hrest
    rw [toNat_ofNat (hid s List.mem_cons_self)] at hcons
    rw [List.flatMap_cons, encodeSection, List.cons_append, List.append_assoc]
    exact hcons

end QuickBeam.Wasm.ImportRewriter
