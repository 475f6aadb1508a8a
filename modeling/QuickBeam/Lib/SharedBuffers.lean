import Mathlib.Tactic

/-!
# Buffers and views on them

A memory holds buffers by address.  A view is a range of a buffer, and several views may share one.
`alloc` makes a new buffer at the next address, `write` changes one element of one buffer.

A view reads the same after an allocation, and after a write outside of it.
-/

namespace QuickBeam.Lib

abbrev Buffers (α : Type*) := List (List α)

namespace Buffers

variable {α : Type*} (m : Buffers α)

def contents (i : ℕ) : List α := m[i]?.getD []

def alloc (buffer : List α) : Buffers α := m ++ [buffer]

def write (i k : ℕ) (x : α) : Buffers α := m.modify i fun buffer => buffer.set k x

end Buffers

structure View where
  buffer : ℕ
  offset : ℕ
  length : ℕ
  deriving DecidableEq

namespace View

variable {α : Type*}

def elems (v : View) (m : Buffers α) : List α :=
  ((m.contents v.buffer).drop v.offset).take v.length

/-- The buffer exists and the range lies in it. -/
def Fits (v : View) (m : Buffers α) : Prop :=
  v.buffer < m.length ∧ v.offset + v.length ≤ (m.contents v.buffer).length

def whole (m : Buffers α) (i : ℕ) : View := ⟨i, 0, (m.contents i).length⟩

def Covers (v : View) (i k : ℕ) : Prop := v.buffer = i ∧ v.offset ≤ k ∧ k < v.offset + v.length

def IsWhole (v : View) (m : Buffers α) : Prop := v = whole m v.buffer

instance (v : View) (m : Buffers α) : Decidable (v.Fits m) := inferInstanceAs (Decidable (_ ∧ _))

instance (v : View) (i k : ℕ) : Decidable (v.Covers i k) :=
  inferInstanceAs (Decidable (_ ∧ _ ∧ _))

instance (v : View) (m : Buffers α) : Decidable (v.IsWhole m) := inferInstanceAs (Decidable (_ = _))

end View

variable {α : Type*} {m m' : Buffers α} {v : View} {buffer : List α} {i k : ℕ} {x : α}

namespace Buffers

@[simp] theorem length_alloc : (m.alloc buffer).length = m.length + 1 := by simp [alloc]

@[simp] theorem length_write : (m.write i k x).length = m.length := List.length_modify ..

theorem contents_extend (hm : m <+: m') (h : i < m.length) : m'.contents i = m.contents i := by
  obtain ⟨more, rfl⟩ := hm
  rw [contents, List.getElem?_append_left h]
  rfl

theorem prefix_alloc : m <+: m.alloc buffer := List.prefix_append m [buffer]

@[simp] theorem contents_alloc_length : (m.alloc buffer).contents m.length = buffer := by
  rw [contents, alloc, List.getElem?_concat_length]
  rfl

theorem contents_write (j : ℕ) :
    (m.write i k x).contents j = if i = j then (m.contents j).set k x else m.contents j := by
  unfold contents write
  rw [List.getElem?_modify]
  cases m[j]? with
  | none => split <;> simp
  | some b => split <;> simp [*]

@[simp] theorem length_contents_write (j : ℕ) :
    ((m.write i k x).contents j).length = (m.contents j).length := by
  rw [contents_write]
  split
  · exact List.length_set
  · rfl

end Buffers

namespace View

theorem length_elems (h : v.Fits m) : (v.elems m).length = v.length := by
  obtain ⟨-, h⟩ := h
  rw [elems, List.length_take, List.length_drop]
  omega

theorem Fits.extend (h : v.Fits m) (hm : m <+: m') : v.Fits m' := by
  refine ⟨h.1.trans_le hm.length_le, ?_⟩
  rw [Buffers.contents_extend hm h.1]
  exact h.2

theorem elems_extend (h : v.Fits m) (hm : m <+: m') : v.elems m' = v.elems m := by
  rw [elems, elems, Buffers.contents_extend hm h.1]

theorem Fits.write (h : v.Fits m) : v.Fits (m.write i k x) := by
  refine ⟨?_, ?_⟩
  · rw [Buffers.length_write]
    exact h.1
  · rw [Buffers.length_contents_write]
    exact h.2

theorem elems_write (h : ¬ v.Covers i k) : v.elems (m.write i k x) = v.elems m := by
  rw [elems, elems, Buffers.contents_write]
  split
  · rename_i hi
    have hout : k < v.offset ∨ v.offset + v.length ≤ k := by
      by_contra hin
      rw [not_or, not_lt, not_le] at hin
      exact h ⟨hi.symm, hin⟩
    apply List.ext_getElem?
    intro j
    rw [List.getElem?_take, List.getElem?_take]
    split
    · rw [List.getElem?_drop, List.getElem?_drop, List.getElem?_set_ne (by omega)]
    · rfl
  · rfl

@[simp] theorem elems_whole : (whole m i).elems m = m.contents i := by
  rw [elems, whole, List.drop_zero, List.take_length]

theorem fits_whole (h : i < m.length) : (whole m i).Fits m := ⟨h, (Nat.zero_add _).le⟩

theorem IsWhole.elems (h : v.IsWhole m) : v.elems m = m.contents v.buffer := by
  rw [h]
  exact elems_whole

theorem elems_alloc_fresh : (⟨m.length, 0, buffer.length⟩ : View).elems (m.alloc buffer) = buffer := by
  rw [View.elems, Buffers.contents_alloc_length, List.drop_zero, List.take_length]

theorem fits_alloc_fresh : (⟨m.length, 0, buffer.length⟩ : View).Fits (m.alloc buffer) := by
  refine ⟨?_, ?_⟩
  · rw [Buffers.length_alloc]
    exact Nat.lt_succ_self _
  · rw [Buffers.contents_alloc_length]
    exact (Nat.zero_add _).le

end View

end QuickBeam.Lib
