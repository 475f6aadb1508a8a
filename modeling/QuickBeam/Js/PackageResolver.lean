import QuickBeam.Js.Exports
import QuickBeam.Js.FilePath

/-!
# Package resolution (`js/package_resolver.ex`)

A specifier is a builtin, an import of the own package, a path or the name of a package.  The
package of a name is looked for in every `node_modules` directory above the importer, and its
`exports`, its entry fields and its `index` are tried in turn, whatever the subpath is: a subpath
that the exports do not give, or that a package without exports names, ends at the `index` of the
package.  `follows_iff` says exactly where that agrees with Node.
-/

namespace QuickBeam.Js

open QuickBeam.Vm.Program

namespace PackageResolver

/-! ### Specifiers -/

def nodeBuiltins : List Binary :=
  ["assert", "async_hooks", "buffer", "child_process", "cluster", "console", "constants",
    "crypto", "dgram", "diagnostics_channel", "dns", "domain", "events", "fs", "http", "http2",
    "https", "inspector", "module", "net", "os", "path", "perf_hooks", "process", "punycode",
    "querystring", "readline", "repl", "stream", "string_decoder", "sys", "timers", "tls",
    "trace_events", "tty", "url", "util", "v8", "vm", "wasi", "worker_threads",
    "zlib"].map Binary.ofString

def nodeBuiltin (name : Binary) : Bool :=
  (Binary.ofString "node:").isPrefixOf name || nodeBuiltins.contains name

def isRelative (specifier : Binary) : Bool :=
  [46].isPrefixOf specifier || [slash].isPrefixOf specifier

/-- What `resolve/3` takes a specifier for. -/
inductive Class where
  | builtin | imports | relative | bare
deriving DecidableEq

/-- The cases of `resolve/3`. -/
def classify (specifier : Binary) : Class :=
  if nodeBuiltin specifier then .builtin
  else if [35].isPrefixOf specifier then .imports
  else if isRelative specifier then .relative
  else .bare

/-- The parts of a string before and behind its first slash. -/
def splitSlash (s : Binary) : Option (Binary × Binary) :=
  if slash ∈ s then
    some (s.takeWhile (· ≠ slash), (s.dropWhile (· ≠ slash)).drop 1)
  else none

/-- `split_specifier/1`: the name of the package, and the subpath unless it is the root. -/
def splitSpecifier (specifier : Binary) : Binary × Option Binary :=
  match splitSlash specifier with
  | none => (specifier, none)
  | some (first, rest) =>
      if [64].isPrefixOf specifier then
        match splitSlash rest with
        | some (name, subpath) =>
            (first ++ [slash] ++ name, some ([46, slash] ++ subpath))
        | none => (specifier, none)
      else (first, some ([46, slash] ++ rest))

/-! ### Files and packages -/

structure Options where
  conditions : List Binary
  extensions : List Binary

def defaultOptions : Options where
  conditions := ["import", "default"].map Binary.ofString
  extensions := [".js", ".mjs", ".cjs", ".json"].map Binary.ofString

def indexName : Binary := .ofString "index"

-- `Jason.decode/1`, and the file system.
variable (decode : Binary → Option Json) (root : Entry)

def tryExtensions (base : FilePath) (extensions : List Binary) : Option FilePath :=
  (extensions.map base.append).find? root.isRegular

/-- `try_resolve/2`: the file, the file with an extension, the index of the directory. -/
def tryResolve (base : FilePath) (extensions : List Binary) : Option FilePath :=
  if root.isRegular base then some base
  else
    match tryExtensions root base extensions with
    | some path => some path
    | none => if root.isDir base then tryExtensions root (base.join indexName) extensions else none

def expandTarget (dir : FilePath) (target : Binary) : FilePath :=
  if [46, slash].isPrefixOf target then dir.join (target.drop 2) else dir.join target

def readPackageJson (path : FilePath) : Option Json := (root.read path).bind decode

def packageJson (dir : FilePath) : FilePath := dir.join (.ofString "package.json")

/-- `nearest_package/1` of an expanded path with `levels` directories above it. -/
def nearestPackageFrom : ℕ → FilePath → Option (FilePath × Json)
  | levels, dir =>
      if root.isRegular (packageJson dir) then
        (readPackageJson decode root (packageJson dir)).map fun package => (dir, package)
      else
        match levels with
        | 0 => none
        | levels + 1 =>
            if dir.getLast?.map Subtype.val = some (.ofString "node_modules") then none
            else nearestPackageFrom levels dir.dirname

def nearestPackage (dir : FilePath) : Option (FilePath × Json) :=
  nearestPackageFrom decode root dir.expand.length dir.expand

/-- The directory of a package in the `node_modules` of a directory. -/
def packageDir (name : Binary) (dir : FilePath) : FilePath :=
  (dir.join (.ofString "node_modules")).join name

/-- `find_package_root/2` of a directory with `levels` directories above it. -/
def findPackageRoot (name : Binary) : ℕ → FilePath → Option FilePath
  | levels, dir =>
      if root.isDir (packageDir name dir) then some (packageDir name dir)
      else
        match levels with
        | 0 => none
        | levels + 1 => findPackageRoot name levels dir.dirname

def packageRoot (name : Binary) (fromDir : FilePath) : Option FilePath :=
  findPackageRoot root name fromDir.expand.length fromDir.expand

/-! ### Resolution -/

variable (opts : Options)

def resolvePackageImport (specifier : Binary) (fromDir : FilePath) :
    Except Raised (Option FilePath) :=
  match nearestPackage decode root fromDir with
  | some (dir, .object package) =>
      match package.lookup (.ofString "imports") with
      | some imports => do
          match ← Exports.resolve opts.conditions imports specifier with
          | some target => pure (tryResolve root (expandTarget dir target) opts.extensions)
          | none => pure none
      | none => .ok none
  | _ => .ok none

def ensureFile (dir : FilePath) (target : Binary) : Option FilePath :=
  tryResolve root (expandTarget dir target) [[]]

def resolveViaExports (pkg : Json) (dir : FilePath) (subpath : Binary) :
    Except Raised (Option FilePath) :=
  match Exports.parse pkg with
  | none => .ok none
  | some exportMap => do
      match ← Exports.resolve opts.conditions (.object exportMap) subpath with
      | some target => pure (ensureFile root dir target)
      | none => pure none

/-- The entry fields of a package, in the order in which they are tried. -/
def entryFields : List Binary :=
  if opts.conditions.contains (.ofString "browser") then
    ["browser", "module", "main"].map Binary.ofString
  else ["module", "main"].map Binary.ofString

def fieldEntry (pkg : List (Binary × Json)) (dir : FilePath) : Option FilePath :=
  (entryFields opts).findSome? fun field =>
    match Json.get pkg field with
    | .string target => tryResolve root (expandTarget dir target) opts.extensions
    | _ => none

def resolveViaFields (pkg : Json) (dir : FilePath) (subpath : Binary) :
    Except Raised (Option FilePath) :=
  if subpath ≠ [46] then .ok none
  else
    match pkg with
    | .object entries => .ok (fieldEntry root opts entries dir)
    | _ => .error .badMap

def indexEntry (dir : FilePath) : Option FilePath :=
  tryResolve root (dir.join indexName) opts.extensions

def resolveFromPkg (pkg : Json) (dir : FilePath) (subpath : Binary) :
    Except Raised (Option FilePath) := do
  match ← resolveViaExports root opts pkg dir subpath with
  | some path => pure (some path)
  | none =>
      match ← resolveViaFields root opts pkg dir subpath with
      | some path => pure (some path)
      | none => pure (indexEntry root opts dir)

def resolveEntry (dir : FilePath) (subpath : Binary) : Except Raised (Option FilePath) :=
  match readPackageJson decode root (packageJson dir) with
  | some pkg => resolveFromPkg root opts pkg dir subpath
  | none => .ok (indexEntry root opts dir)

def resolveBare (specifier : Binary) (fromDir : FilePath) : Except Raised (Option FilePath) :=
  match packageRoot root (splitSpecifier specifier).1 fromDir with
  | some dir => resolveEntry decode root opts dir ((splitSpecifier specifier).2.getD [46])
  | none => .ok none

def expandFrom (specifier : Binary) (fromDir : FilePath) : FilePath :=
  if [slash].isPrefixOf specifier then (FilePath.segments specifier).expand
  else (fromDir.join specifier).expand

inductive Resolution where
  | ok (path : FilePath)
  | builtin (name : Binary)
  | error
deriving DecidableEq

def Resolution.ofOption : Option FilePath → Resolution
  | some path => .ok path
  | none => .error

def resolve (specifier : Binary) (fromDir : FilePath) : Except Raised Resolution :=
  match classify specifier with
  | .builtin => .ok (.builtin specifier)
  | .imports => (resolvePackageImport decode root opts specifier fromDir).map .ofOption
  | .relative => .ok (.ofOption (tryResolve root (expandFrom specifier fromDir) opts.extensions))
  | .bare => (resolveBare decode root opts specifier fromDir).map .ofOption

end PackageResolver

end QuickBeam.Js
