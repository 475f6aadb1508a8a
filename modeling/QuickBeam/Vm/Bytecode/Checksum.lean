import Mathlib.Data.Nat.Bitwise
import Mathlib.Data.Nat.ModEq

/-!
# The checksum of a program (`bytecode/checksum.ex`, `Decoder.decode/1`)

The payload behind the version and the checksum is mixed in words of four bytes; what is left
at the end, fewer than four bytes, is mixed in as one more word.  A step of the mixing determines
the word and determines the sum before it (`mix_eq_iff`), so a changed byte is seen exactly if
it is in a word that is mixed in (`checksumWords_set_iff`).  The loop stops at the last four bytes,
and four bytes are no tail: a payload whose length is a multiple of four ends with a word that
is in no sum.
-/

namespace QuickBeam.Vm.Bytecode.Checksum

/-! ### The checksum -/

def factor : ℕ := 0x9E370001

def masked (value : ℕ) : ℕ := value &&& 0xFFFFFFFF

/-- A word is added, and the sum multiplied (the factor is on the left, where evaluation does not
take it apart). -/
def mix (checksum word : ℕ) : ℕ := masked (factor * masked (checksum + word))

/-- `<<word::little-unsigned-32>>`. -/
def word (a b c d : UInt8) : ℕ := a.toNat + 256 * (b.toNat + 256 * (c.toNat + 256 * d.toNat))

/-- The bytes behind the last word of the loop; four of them count as none. -/
def tail : List UInt8 → ℕ
  | [a] => a.toNat
  | [a, b] => a.toNat ||| b.toNat <<< 8
  | [a, b, c] => a.toNat ||| b.toNat <<< 8 ||| c.toNat <<< 16
  | _ => 0

def checksumWords : List UInt8 → ℕ → ℕ
  -- the guard `byte_size(rest) > 0`
  | a :: b :: c :: d :: e :: rest, checksum =>
      checksumWords (e :: rest) (mix checksum (word a b c d))
  | rest, checksum => mix checksum (tail rest)

def calculate (payload : List UInt8) : ℕ := checksumWords payload 0

inductive VerifyError where
  | unexpectedEnd
  | checksumMismatch
deriving DecidableEq

def verify : List UInt8 → Except VerifyError Unit
  | _version :: a :: b :: c :: d :: payload =>
      if calculate payload = word a b c d then .ok () else .error .checksumMismatch
  | _ => .error .unexpectedEnd

/-! ### The decoder up to the payload -/

variable {Program Malformed : Type}

/-- The errors of `Decoder.decode/1`; those of the atoms and of the root object are a parameter. -/
inductive DecodeError (Malformed : Type) where
  | limitExceeded (size : ℕ)
  | badVersion (version : UInt8)
  | envelope (error : VerifyError)
  | malformed (error : Malformed)

def maxInputBytes : ℕ := 16 * 1024 * 1024

/-- `Decoder.decode/1` for the version `bcVersion`.  `readPayload` reads the atoms and the root
object and makes sure that nothing is left. -/
def decode (bcVersion : UInt8) (readPayload : List UInt8 → Except Malformed Program)
    (data : List UInt8) : Except (DecodeError Malformed) Program :=
  if maxInputBytes < data.length then .error (.limitExceeded data.length)
  else
    match data with
    | [] => .error (.envelope .unexpectedEnd)
    | version :: rest =>
        if version ≠ bcVersion then .error (.badVersion version)
        else
          match verify (version :: rest) with
          | .error error => .error (.envelope error)
          | .ok () =>
              match readPayload (rest.drop 4) with
              | .error error => .error (.malformed error)
              | .ok program => .ok program

/-! ### One step of the mixing -/

theorem masked_eq (value : ℕ) : masked value = value % 2 ^ 32 :=
  Nat.and_two_pow_sub_one_eq_mod value 32

theorem masked_lt (value : ℕ) : masked value < 2 ^ 32 := by
  rw [masked_eq]
  exact Nat.mod_lt _ (by decide)

theorem factor_coprime : Nat.Coprime (2 ^ 32) factor := by decide

/-- **A step keeps sums apart.** -/
theorem mix_eq_iff {h w h' w' : ℕ} :
    mix h w = mix h' w' ↔ (h + w) % 2 ^ 32 = (h' + w') % 2 ^ 32 := by
  simp only [mix, masked_eq]
  constructor
  · intro heq
    have hmod := Nat.ModEq.cancel_left_of_coprime factor_coprime heq
    rwa [Nat.ModEq, Nat.mod_mod, Nat.mod_mod] at hmod
  · intro heq
    rw [heq]

theorem mix_eq_iff_sum {h h' w : ℕ} (hh : h < 2 ^ 32) (hh' : h' < 2 ^ 32) :
    mix h w = mix h' w ↔ h = h' := by
  rw [mix_eq_iff]
  omega

theorem mix_eq_iff_word {h w w' : ℕ} (hw : w < 2 ^ 32) (hw' : w' < 2 ^ 32) :
    mix h w = mix h w' ↔ w = w' := by
  rw [mix_eq_iff]
  omega

theorem mix_lt (h w : ℕ) : mix h w < 2 ^ 32 := masked_lt _

/-! ### Words and tails -/

theorem word_lt (a b c d : UInt8) : word a b c d < 2 ^ 32 := by
  have ha := a.toNat_lt
  have hb := b.toNat_lt
  have hc := c.toNat_lt
  have hd := d.toNat_lt
  unfold word
  omega

theorem tail_pair (a b : UInt8) : tail [a, b] = a.toNat + 256 * b.toNat := by
  show a.toNat ||| b.toNat <<< 8 = _
  rw [Nat.or_comm, ← Nat.shiftLeft_add_eq_or_of_lt (by simpa using a.toNat_lt), Nat.shiftLeft_eq]
  omega

theorem tail_triple (a b c : UInt8) :
    tail [a, b, c] = a.toNat + 256 * (b.toNat + 256 * c.toNat) := by
  have ha := a.toNat_lt
  have hb := b.toNat_lt
  show tail [a, b] ||| c.toNat <<< 16 = _
  rw [tail_pair, Nat.or_comm, ← Nat.shiftLeft_add_eq_or_of_lt (by omega), Nat.shiftLeft_eq]
  omega

theorem tail_lt (bytes : List UInt8) : tail bytes < 2 ^ 32 := by
  match bytes with
  | [] => decide
  | [a] =>
    have ha := a.toNat_lt
    show a.toNat < _
    omega
  | [a, b] =>
    have ha := a.toNat_lt
    have hb := b.toNat_lt
    rw [tail_pair]
    omega
  | [a, b, c] =>
    have ha := a.toNat_lt
    have hb := b.toNat_lt
    have hc := c.toNat_lt
    rw [tail_triple]
    omega
  | _ :: _ :: _ :: _ :: _ =>
    show 0 < 2 ^ 32
    decide

/-! ### One changed byte -/

theorem checksumWords_word (a b c d : UInt8) {rest : List UInt8} (hrest : rest ≠ [])
    (checksum : ℕ) : checksumWords (a :: b :: c :: d :: rest) checksum =
      checksumWords rest (mix checksum (word a b c d)) := by
  obtain ⟨e, rest, rfl⟩ := List.exists_cons_of_ne_nil hrest
  rfl

variable {bytes : List UInt8}

theorem checksumWords_tail (h : bytes.length ≤ 4) (checksum : ℕ) :
    checksumWords bytes checksum = mix checksum (tail bytes) := by
  match bytes with
  | [] => rfl
  | [a] => rfl
  | [a, b] => rfl
  | [a, b, c] => rfl
  | [a, b, c, d] => rfl
  | a :: b :: c :: d :: e :: rest =>
    simp only [List.length_cons] at h
    omega

theorem checksumWords_sum_iff (bytes : List UInt8) {h h' : ℕ} (hh : h < 2 ^ 32)
    (hh' : h' < 2 ^ 32) : checksumWords bytes h = checksumWords bytes h' ↔ h = h' := by
  induction bytes, h using checksumWords.induct generalizing h' with
  | case1 a b c d e rest h ih =>
    have hrest : e :: rest ≠ [] := List.cons_ne_nil e rest
    rw [checksumWords_word a b c d hrest, checksumWords_word a b c d hrest,
      ih (mix_lt _ _) (mix_lt _ _), mix_eq_iff_sum hh hh']
  | case2 bytes h hshort =>
    have hlength : bytes.length ≤ 4 := by
      match bytes, hshort with
      | [], _ => exact Nat.zero_le 4
      | [a], _ => exact Nat.le_add_left 1 3
      | [a, b], _ => exact Nat.le_add_left 2 2
      | [a, b, c], _ => exact Nat.le_add_left 3 1
      | [a, b, c, d], _ => exact le_refl 4
      | a :: b :: c :: d :: e :: rest, hshort => exact (hshort a b c d e rest rfl).elim
    rw [checksumWords_tail hlength, checksumWords_tail hlength, mix_eq_iff_sum hh hh']

/-- The byte at `i` of a payload of `length` bytes is in a word that is mixed in. -/
def MixedIn (length i : ℕ) : Prop := length % 4 ≠ 0 ∨ i + 4 < length

instance (length i : ℕ) : Decidable (MixedIn length i) := inferInstanceAs (Decidable (_ ∨ _))

theorem word_ne {a b c d a' b' c' d' : UInt8}
    (h : ¬ (a = a' ∧ b = b' ∧ c = c' ∧ d = d')) : word a b c d ≠ word a' b' c' d' := by
  intro heq
  have ha := a.toNat_lt
  have hb := b.toNat_lt
  have hc := c.toNat_lt
  have hd := d.toNat_lt
  have ha' := a'.toNat_lt
  have hb' := b'.toNat_lt
  have hc' := c'.toNat_lt
  have hd' := d'.toNat_lt
  unfold word at heq
  refine h ⟨UInt8.toNat_inj.1 ?_, UInt8.toNat_inj.1 ?_, UInt8.toNat_inj.1 ?_,
    UInt8.toNat_inj.1 ?_⟩ <;> omega

variable {b : UInt8}

theorem tail_set_iff {i : ℕ} (hlen : bytes.length ≤ 4) (hi : i < bytes.length) (hb : b ≠ bytes[i]) :
    tail (bytes.set i b) = tail bytes ↔ bytes.length = 4 := by
  have hbyte : b.toNat ≠ (bytes[i]).toNat := fun heq => hb (UInt8.toNat_inj.1 heq)
  match bytes, i with
  | [x], 0 =>
    show b.toNat = x.toNat ↔ _
    simpa using hbyte
  | [x, y], 0 =>
    have hx : b.toNat ≠ x.toNat := hbyte
    show tail [b, y] = tail [x, y] ↔ _
    rw [tail_pair, tail_pair]
    simpa using hx
  | [x, y], 1 =>
    have hy : b.toNat ≠ y.toNat := hbyte
    show tail [x, b] = tail [x, y] ↔ _
    rw [tail_pair, tail_pair]
    simpa using hy
  | [x, y, z], 0 =>
    have hx : b.toNat ≠ x.toNat := hbyte
    show tail [b, y, z] = tail [x, y, z] ↔ _
    rw [tail_triple, tail_triple]
    simpa using hx
  | [x, y, z], 1 =>
    have hy : b.toNat ≠ y.toNat := hbyte
    show tail [x, b, z] = tail [x, y, z] ↔ _
    rw [tail_triple, tail_triple]
    simpa using hy
  | [x, y, z], 2 =>
    have hz : b.toNat ≠ z.toNat := hbyte
    show tail [x, y, b] = tail [x, y, z] ↔ _
    rw [tail_triple, tail_triple]
    simpa using hz
  | [_, _, _, _], 0 | [_, _, _, _], 1 | [_, _, _, _], 2 | [_, _, _, _], 3 => exact iff_of_true rfl rfl

/-- **A changed byte is seen exactly if it is mixed in.**  Induction along the loop: the byte is
in the first word, in the words behind it, or in the tail. -/
theorem checksumWords_set_iff (bytes : List UInt8) (checksum : ℕ) {i : ℕ} (hi : i < bytes.length)
    (hb : b ≠ bytes[i]) : checksumWords (bytes.set i b) checksum = checksumWords bytes checksum ↔
      ¬ MixedIn bytes.length i := by
  induction bytes, checksum using checksumWords.induct generalizing i with
  | case1 w x y z e rest checksum ih =>
    have hne : e :: rest ≠ [] := List.cons_ne_nil _ _
    -- another first word gives another sum for the rest
    have hfirst : ∀ w' x' y' z' : UInt8, ¬ (w = w' ∧ x = x' ∧ y = y' ∧ z = z') → i < 4 →
        (checksumWords (w' :: x' :: y' :: z' :: e :: rest) checksum =
            checksumWords (w :: x :: y :: z :: e :: rest) checksum ↔
          ¬ MixedIn (w :: x :: y :: z :: e :: rest).length i) := by
      intro w' x' y' z' hword hlt
      rw [checksumWords_word _ _ _ _ hne, checksumWords_word _ _ _ _ hne,
        checksumWords_sum_iff _ (mix_lt _ _) (mix_lt _ _),
        mix_eq_iff_word (word_lt _ _ _ _) (word_lt _ _ _ _)]
      refine iff_of_false (word_ne hword).symm (not_not_intro ?_)
      simp only [MixedIn, List.length_cons]
      omega
    match i with
    | 0 => exact hfirst b x y z (fun h => hb h.1.symm) (by decide)
    | 1 => exact hfirst w b y z (fun h => hb h.2.1.symm) (by decide)
    | 2 => exact hfirst w x b z (fun h => hb h.2.2.1.symm) (by decide)
    | 3 => exact hfirst w x y b (fun h => hb h.2.2.2.symm) (by decide)
    | k + 4 =>
      have hk : k < (e :: rest).length := by
        simp only [List.length_cons] at hi ⊢
        omega
      have hset : (e :: rest).set k b ≠ [] := by
        rw [← List.length_pos_iff, List.length_set]
        exact Nat.zero_lt_of_lt hk
      show checksumWords (w :: x :: y :: z :: (e :: rest).set k b) checksum = _ ↔ _
      rw [checksumWords_word _ _ _ _ hset, checksumWords_word _ _ _ _ hne, ih hk hb]
      simp only [MixedIn, List.length_cons]
      omega
  | case2 bytes checksum hshort =>
    have hlen : bytes.length ≤ 4 := by
      match bytes, hshort with
      | [], _ | [_], _ | [_, _], _ | [_, _, _], _ | [_, _, _, _], _ => simp
      | w :: x :: y :: z :: e :: rest, hshort => exact (hshort w x y z e rest rfl).elim
    rw [checksumWords_tail (by rwa [List.length_set]), checksumWords_tail hlen,
      mix_eq_iff_word (tail_lt _) (tail_lt _), tail_set_iff hlen hi hb]
    simp only [MixedIn]
    omega

/-! ### The decoder -/

section

variable {bcVersion : UInt8} {readPayload : List UInt8 → Except Malformed Program}

variable {payload : List UInt8}

theorem decode_envelope {version a b c d : UInt8} (hsize : payload.length + 5 ≤ maxInputBytes) :
    decode bcVersion readPayload (version :: a :: b :: c :: d :: payload) =
      if version ≠ bcVersion then .error (.badVersion version)
      else if calculate payload = word a b c d then (readPayload payload).mapError .malformed
      else .error (.envelope .checksumMismatch) := by
  have hlt : ¬ maxInputBytes < (version :: a :: b :: c :: d :: payload).length := by
    simp only [List.length_cons]
    omega
  unfold decode
  rw [if_neg hlt]
  by_cases hv : version = bcVersion
  · by_cases hc : calculate payload = word a b c d
    · simp only [verify, hv, hc, if_true, ne_eq, not_true, if_false, List.drop_succ_cons,
        List.drop_zero]
      cases readPayload payload <;> rfl
    · simp [verify, hv, hc]
  · simp [hv]

/-- The version or the checksum gives the corruption away. -/
def Caught (result : Except (DecodeError Malformed) Program) : Prop :=
  (∃ version, result = .error (.badVersion version)) ∨
    result = .error (.envelope .checksumMismatch)

theorem decode_ok {version a b c d : UInt8} {program : Program}
    (h : decode bcVersion readPayload (version :: a :: b :: c :: d :: payload) = .ok program) :
    payload.length + 5 ≤ maxInputBytes ∧ version = bcVersion ∧
      calculate payload = word a b c d ∧ readPayload payload = .ok program := by
  have hsize : payload.length + 5 ≤ maxInputBytes := by
    by_contra hlt
    have hlong : maxInputBytes < (version :: a :: b :: c :: d :: payload).length := by
      simp only [List.length_cons]
      omega
    unfold decode at h
    rw [if_pos hlong] at h
    cases h
  rw [decode_envelope hsize] at h
  split at h
  case isTrue => cases h
  case isFalse hv =>
    split at h
    case isTrue hc =>
      refine ⟨hsize, not_not.1 hv, hc, ?_⟩
      cases hr : readPayload payload with
      | error e => rw [hr] at h; cases h
      | ok found => rw [hr] at h; cases h; rfl
    case isFalse => cases h

/-- **The checksum detects a corrupted byte of the payload exactly if the byte is mixed in**, and
then the decoder rejects the program; a corrupted byte before the payload it always rejects. -/
theorem detects_iff {payload : List UInt8} {i : ℕ} {x : UInt8} (hi : i < payload.length)
    (hx : x ≠ payload[i]) :
    (calculate (payload.set i x) ≠ calculate payload ↔ MixedIn payload.length i) ∧
    ∀ {version a b c d : UInt8} {program : Program},
      decode bcVersion readPayload (version :: a :: b :: c :: d :: payload) = .ok program →
        (Caught (decode bcVersion readPayload
            (version :: a :: b :: c :: d :: payload.set i x)) ↔ MixedIn payload.length i) ∧
        ∀ version' a' b' c' d',
          ¬ (version = version' ∧ a = a' ∧ b = b' ∧ c = c' ∧ d = d') →
          Caught (decode bcVersion readPayload (version' :: a' :: b' :: c' :: d' :: payload)) := by
  have hseen : calculate (payload.set i x) ≠ calculate payload ↔ MixedIn payload.length i := by
    rw [Ne, calculate, calculate, checksumWords_set_iff payload 0 hi hx, not_not]
  refine ⟨hseen, fun {version a b c d program} hdecode => ⟨?_, ?_⟩⟩
  · obtain ⟨hsize, hversion, hsum, hread⟩ := decode_ok hdecode
    rw [← hseen, decode_envelope (by rwa [List.length_set]), if_neg (not_not_intro hversion),
      ← hsum]
    by_cases heq : calculate (payload.set i x) = calculate payload
    · rw [if_pos heq]
      refine iff_of_false ?_ (not_not_intro heq)
      cases hr : readPayload (payload.set i x) <;> rintro (⟨_, h⟩ | h) <;> cases h
    · rw [if_neg heq]
      exact iff_of_true (.inr rfl) heq
  · intro version' a' b' c' d' hne
    obtain ⟨hsize, hversion, hsum, hread⟩ := decode_ok hdecode
    rw [decode_envelope hsize]
    by_cases hv : version' = bcVersion
    · have hword : word a b c d ≠ word a' b' c' d' :=
        word_ne fun h => hne ⟨hversion.trans hv.symm, h⟩
      rw [if_neg (not_not_intro hv), if_neg (hsum ▸ hword)]
      exact .inr rfl
    · rw [if_pos hv]
      exact .inl ⟨version', rfl⟩

end

/-- Five bytes, the first one of them changed. -/
theorem detects_iff_five :
    calculate [7, 2, 3, 4, 5] ≠ calculate [1, 2, 3, 4, 5] ∧
      Caught (decode 25 (fun payload => (.ok payload : Except Empty (List UInt8)))
        [25, 6, 2, 132, 51, 7, 2, 3, 4, 5]) := by
  obtain ⟨hseen, hdecoder⟩ := @detects_iff (List UInt8) Empty 25 (fun payload => .ok payload)
    [1, 2, 3, 4, 5] 0 7 (by decide) (by decide)
  have hmixed : MixedIn [1, 2, 3, 4, 5].length 0 := by decide
  have hdecode : decode 25 (fun payload => (.ok payload : Except Empty (List UInt8)))
      [25, 6, 2, 132, 51, 1, 2, 3, 4, 5] = .ok [1, 2, 3, 4, 5] := rfl
  exact ⟨hseen.2 hmixed, (hdecoder hdecode).1.2 hmixed⟩

/-- Four bytes are no tail: the change of the last one is not seen. -/
theorem last_word_not_mixed : ¬ ∀ (payload : List UInt8) (i : ℕ) (x : UInt8)
    (hi : i < payload.length), x ≠ payload[i] →
      calculate (payload.set i x) ≠ calculate payload := by
  intro h
  exact h [1, 2, 3, 4] 3 5 (by decide) (by decide) (by decide)

end QuickBeam.Vm.Bytecode.Checksum
