import Mathlib.Data.List.ReduceOption
import QuickBeam.Lib.StableSort
import QuickBeam.Vm.Runtime.HeapInvariant

/-!
# Sorting an array (`Array.prototype.sort` of `builtin/array.ex`)

The array is emptied and its present values are defined again in the order of their strings.  An
`undefined` is sorted as the string `"undefined"`, the holes are left out, so that the array gets
shorter, and a definition that the array refuses ends the evaluation instead of raising an error.
-/

namespace QuickBeam.Vm.Runtime

open QuickBeam.Lib QuickBeam.Vm.Program

/-! ### The call -/

namespace Heap

variable [Value.Platform]

end Heap

/-! ### What a sort should do -/

namespace Object

/-- `Heap.array_entries/1`; `none` for a hole. -/
def entries (object : Object) : List (Option Value) :=
  (List.range object.length).map fun i =>
    (object.properties.get? (.index i)).map fun stored => stored.descriptor.value

end Object

variable [Value.Platform]

namespace Heap

end Heap

/-! ### Emptying and filling -/

namespace Object

omit [Value.Platform]

/-- The array with one more element at its end. -/
def append (o : Object) (v : Value) : Object :=
  { o with
    properties := o.properties.put (.index o.length) (.default v)
    length := max o.length (o.length + 1) }

@[simp] theorem length_append (o : Object) (v : Value) : (o.append v).length = o.length + 1 := by
  show max o.length (o.length + 1) = _
  omega

end Object

namespace Heap

omit [Value.Platform]

variable {h : Heap} {id : ℕ} {o : Object}

variable {vs : List Value}

variable {v : Value}

end Heap

namespace Heap

variable {h : Heap} {id : ℕ} {o : Object}

variable {arguments : List Value} {this : Value}

omit [Value.Platform]

end Heap

end QuickBeam.Vm.Runtime
