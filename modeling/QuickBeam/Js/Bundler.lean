import QuickBeam.Js.PackageResolver
import QuickBeam.Lib.DepthFirst

/-!
# The bundler (`js/bundler.ex`)

The bundler walks the import graph from an entry, and hands every file it finds to the code
generator, labelled by its path from the project root.  A relative specifier stays as it is; any
other becomes the path of its file from the importer, both taken from the project root.
-/

namespace QuickBeam.Js

open QuickBeam.Vm.Program QuickBeam.Lib

structure Split where
  absolute : Bool
  segments : FilePath
deriving DecidableEq

namespace Split

def ofString (path : Binary) : Split := ⟨[slash].isPrefixOf path, FilePath.segments path⟩

def render (path : Split) : Binary :=
  if path.absolute then slash :: path.segments.render
  else if path.segments = [] then [46] else path.segments.render

def text (path : Split) : Binary :=
  if path.absolute ∧ path.segments ≠ [] then slash :: path.render else path.render

/-- The segments that two paths begin with. -/
def shared : FilePath → FilePath → FilePath
  | a :: as, b :: bs => if a = b then a :: shared as bs else []
  | _, _ => []

/-- `Path.relative_to/2`: of absolute paths without a way up, of relative paths (without `.` and
`..`) with one; an absolute and a relative path have none. -/
def relativeTo (path cwd : Split) : Split :=
  match path.absolute, cwd.absolute with
  | true, true =>
      if cwd.segments.expand <+: path.segments.expand then
        ⟨false, path.segments.expand.drop cwd.segments.expand.length⟩
      else ⟨true, path.segments.expand⟩
  | false, false =>
      let common := (shared path.segments cwd.segments).length
      ⟨false, List.replicate (cwd.segments.length - common) FilePath.dotdot ++
        path.segments.drop common⟩
  | _, _ => path

end Split

namespace PackageResolver

def ensureRelativePrefix (path : Binary) : Binary :=
  if [46, slash].isPrefixOf path || [46, 46, slash].isPrefixOf path then path
  else [46, slash] ++ path

def relativeImportPath (importerDir target projectRoot : FilePath) : Binary :=
  let importerDir := Split.relativeTo ⟨true, importerDir⟩ ⟨true, projectRoot⟩
  let targetLabel := Split.relativeTo ⟨true, target⟩ ⟨true, projectRoot⟩
  ensureRelativePrefix (targetLabel.relativeTo importerDir).render

/-- `find_node_modules/1` of a directory with `levels` directories above it. -/
def findNodeModules (root : Entry) : ℕ → FilePath → Option FilePath
  | levels, dir =>
      let candidate := dir.join (.ofString "node_modules")
      if root.isDir candidate then some candidate
      else
        match levels with
        | 0 => none
        | levels + 1 => findNodeModules root levels dir.dirname

end PackageResolver

namespace Bundler

open PackageResolver

def resolveOpts : Options where
  __ := defaultOptions
  extensions := [".ts", ".tsx", ".js", ".jsx", ".mjs", ".cjs", ".json"].map Binary.ofString

/-- The options of `bundle_file/2` that the bundler reads. -/
structure BundleOptions where
  nodeModules : Option Binary
  entry : Option Binary

/-- Why there is no bundle; the last two are raised. -/
inductive Failure where
  | fileReadError (path : FilePath)
  | parseError (importer : FilePath)
  | moduleNotFound (specifier : Binary)
  | raised (reason : Raised)
  | functionClause

inductive Decision where
  | keep
  | rewrite (specifier : Binary)

def Decision.apply (specifier : Binary) : Decision → Binary
  | .keep => specifier
  | .rewrite specifier' => specifier'

/-- A rewritten file: the path it was read from, its label, its source, and what becomes of each
specifier in it.  `OXC.bundle/2` is given the label and the rewritten source. -/
structure Module where
  absPath : FilePath
  label : Split
  source : Binary
  specifiers : List (Binary × Decision)

/-- What `OXC.bundle/2` is called with. -/
structure Bundle where
  files : List Module
  entry : Binary

def relativeLabel (path projectRoot : FilePath) : Split :=
  Split.relativeTo ⟨true, path⟩ ⟨true, projectRoot⟩

/-- `project_root/2`; a relative `node_modules` shares no segment with the entry, and joining none
is raised. -/
def projectRoot (entry : FilePath) : Option Split → Option FilePath
  | none => some entry.dirname
  | some nodeModules =>
      if nodeModules.absolute then some (Split.shared entry nodeModules.segments) else none

-- `Jason.decode/1`, the specifiers `OXC.rewrite_specifiers/3` finds in a source of a name, and the
-- file system.
variable (decode : Binary → Option Json) (specifiers : Binary → Binary → Option (List Binary))
  (root : Entry)

def resolveAndTrack (specifier : Binary) (fromDir projectRoot : FilePath) :
    Except Failure (Decision × Option FilePath) :=
  match resolve decode root resolveOpts specifier fromDir with
  | .ok (.builtin _) => .ok (.keep, none)
  | .ok (.ok path) =>
      .ok (if isRelative specifier then .keep
        else .rewrite (relativeImportPath fromDir path projectRoot), some path)
  | .ok .error => .error (.moduleNotFound specifier)
  | .error reason => .error (.raised reason)

/-- The callbacks of a source in turn: the decisions, and the paths tracked. -/
def rewriteAll (fromDir projectRoot : FilePath) :
    List Binary → Except Failure (List (Binary × Decision) × List FilePath)
  | [] => .ok ([], [])
  | specifier :: rest =>
      match resolveAndTrack decode root specifier fromDir projectRoot with
      | .error e => .error e
      | .ok (decision, tracked) =>
          match rewriteAll fromDir projectRoot rest with
          | .error e => .error e
          | .ok (decisions, paths) =>
              .ok ((specifier, decision) :: decisions, tracked.toList ++ paths)

def basename (path : FilePath) : Binary := (path.getLast?.map Subtype.val).getD []

def rewriteAndResolve (source : Binary) (importer projectRoot : FilePath) :
    Except Failure (List (Binary × Decision) × List FilePath) :=
  match specifiers source (basename importer) with
  | none => .error (.parseError importer)
  | some found => rewriteAll decode root importer.dirname projectRoot found

/-- A file of `do_collect/4` that has not been seen: the file for the bundle, and the paths it
resolves to. -/
def visit (projectRoot absPath : FilePath) : Except Failure (Module × List FilePath) :=
  match root.read absPath with
  | none => .error (.fileReadError absPath)
  | some source =>
      match rewriteAndResolve decode specifiers root source absPath projectRoot with
      | .error e => .error e
      | .ok (decisions, paths) =>
          .ok (⟨absPath, relativeLabel absPath projectRoot, source, decisions⟩, paths)

def doCollect (projectRoot : FilePath) :
    ℕ → FilePath → DepthFirst.Progress FilePath Module →
      Option (Except Failure (DepthFirst.Progress FilePath Module)) :=
  DepthFirst.collect (visit decode specifiers root projectRoot)

def collectModules (fuel : ℕ) (entryPath projectRoot : FilePath) :
    Option (Except Failure (List Module)) :=
  match doCollect decode specifiers root projectRoot fuel entryPath ⟨[], []⟩ with
  | none => none
  | some (.ok progress) => some (.ok progress.items.reverse)
  | some (.error e) => some (.error e)

def nodeModules (entryPath : FilePath) (opts : BundleOptions) : Option Split :=
  match opts.nodeModules with
  | some path => some (.ofString path)
  | none =>
      (findNodeModules root entryPath.dirname.length entryPath.dirname).map fun path => ⟨true, path⟩

/-- `bundle_file/2` up to the call of `OXC.bundle/2`, over at most `fuel` files one behind the
other. -/
def bundleFile (fuel : ℕ) (entryPath : FilePath) (opts : BundleOptions) :
    Option (Except Failure Bundle) :=
  let entryPath := entryPath.expand
  match projectRoot entryPath (nodeModules root entryPath opts) with
  | none => some (.error .functionClause)
  | some projectRoot =>
      match collectModules decode specifiers root fuel entryPath projectRoot with
      | none => none
      | some (.error e) => some (.error e)
      | some (.ok files) =>
          some (.ok ⟨files, opts.entry.getD (relativeLabel entryPath projectRoot).text⟩)

end Bundler

end QuickBeam.Js
