import QuickBeam.Js.Bundler

/-!
# The module graph

A file is an expanded path; the bundler walks the paths that the resolver gives, of which several
may name one file.  What a path imports depends on its file alone (`visit_ok`), so that the walk
ends on every file system (`doCollect_ends`) and finds the files that the entry reaches.
-/

namespace QuickBeam.Js

open Relation QuickBeam.Vm.Program QuickBeam.Lib

/-! ### Expanded paths -/

namespace FilePath

theorem expand_expand (path : FilePath) : path.expand.expand = path.expand :=
  expand_of_expanded (expanded_expand path)

theorem expand_append (dir path : FilePath) :
    (dir ++ path).expand = path.foldl expandStep dir.expand :=
  List.foldl_append

theorem expand_join (dir : FilePath) (path : Binary) :
    (dir.expand.join path).expand = (dir.join path).expand := by
  unfold join
  rw [expand_append, expand_append, expand_expand]

end FilePath

namespace Bundler

open PackageResolver

variable {decode : Binary → Option Json} {specifiers : Binary → Binary → Option (List Binary)}
  {root : Entry}

theorem resolve_expand (opts : Options) (specifier : Binary) (dir : FilePath) :
    resolve decode root opts specifier dir.expand = resolve decode root opts specifier dir := by
  unfold resolve resolvePackageImport resolveBare nearestPackage packageRoot expandFrom
  rw [FilePath.expand_expand, FilePath.expand_join]

theorem relativeImportPath_expand (dir target projectRoot : FilePath) :
    relativeImportPath dir.expand target projectRoot = relativeImportPath dir target projectRoot := by
  unfold relativeImportPath Split.relativeTo
  simp only [FilePath.expand_expand]

variable {path : FilePath} {source : Binary}

theorem concat_of_read (h : root.read path = some source) :
    path = [] ∨ ∃ (dir : FilePath) (segment : Segment), path = dir ++ [segment] ∧
      path.expand = dir.expand ++ [segment] := by
  rcases List.eq_nil_or_concat path with rfl | ⟨dir, segment, hpath⟩
  · exact .inl rfl
  · rw [List.concat_eq_append] at hpath
    rw [hpath, Entry.read_eq_some_iff] at h
    refine .inr ⟨dir, segment, hpath, ?_⟩
    rw [hpath]
    exact Entry.expand_concat_of_file h

theorem dirname_expand (h : root.read path = some source) :
    path.expand.dirname = path.dirname.expand := by
  rcases concat_of_read h with rfl | ⟨dir, segment, rfl, hexpand⟩
  · rfl
  · rw [hexpand]
    unfold FilePath.dirname
    rw [List.dropLast_concat, List.dropLast_concat]

theorem basename_expand (h : root.read path = some source) :
    basename path.expand = basename path := by
  rcases concat_of_read h with rfl | ⟨dir, segment, rfl, hexpand⟩
  · rfl
  · rw [hexpand]
    unfold basename
    rw [List.getLast?_concat, List.getLast?_concat]

/-! ### The resolver answers with files -/

variable {extensions : List Binary}

theorem tryExtensions_regular {base path : FilePath}
    (h : tryExtensions root base extensions = some path) : root.isRegular path = true :=
  List.find?_some h

theorem tryResolve_regular {base path : FilePath}
    (h : tryResolve root base extensions = some path) : root.isRegular path = true := by
  unfold tryResolve at h
  split at h
  · rename_i hregular
    exact Option.some.inj h ▸ hregular
  · split at h
    · rename_i hfound
      exact tryExtensions_regular (hfound.trans h)
    · split at h
      · exact tryExtensions_regular h
      · cases h

variable {opts : Options}

def GivesFile (root : Entry) (answer : Except Raised (Option FilePath)) : Prop :=
  ∀ path, answer = .ok (some path) → root.isRegular path = true

theorem givesFile_exports (pkg : Json) (dir : FilePath) (subpath : Binary) :
    GivesFile root (resolveViaExports root opts pkg dir subpath) := by
  intro path h
  unfold resolveViaExports at h
  cases hparse : Exports.parse pkg with
  | none =>
    rw [hparse] at h
    cases h
  | some exportMap =>
    rw [hparse] at h
    dsimp only at h
    cases hexports : Exports.resolve opts.conditions (.object exportMap) subpath with
    | error reason =>
      rw [hexports] at h
      cases h
    | ok target =>
      rw [hexports] at h
      cases target with
      | none => cases h
      | some target => exact tryResolve_regular (Except.ok.inj h)

theorem givesFile_fields (pkg : Json) (dir : FilePath) (subpath : Binary) :
    GivesFile root (resolveViaFields root opts pkg dir subpath) := by
  intro path h
  unfold resolveViaFields at h
  split at h
  · cases h
  · split at h
    · obtain ⟨field, -, hfield⟩ := List.exists_of_findSome?_eq_some (Except.ok.inj h)
      split at hfield
      · exact tryResolve_regular hfield
      · cases hfield
    · cases h

theorem givesFile_entry (dir : FilePath) (subpath : Binary) :
    GivesFile root (resolveEntry decode root opts dir subpath) := by
  intro path h
  unfold resolveEntry at h
  split at h
  · rename_i pkg _
    unfold resolveFromPkg at h
    cases hexports : resolveViaExports root opts pkg dir subpath with
    | error reason =>
      rw [hexports] at h
      cases h
    | ok found =>
      rw [hexports] at h
      cases found with
      | some path' => exact givesFile_exports pkg dir subpath path (hexports.trans h)
      | none =>
        cases hfields : resolveViaFields root opts pkg dir subpath with
        | error reason =>
          change (resolveViaFields root opts pkg dir subpath >>= _) = _ at h
          rw [hfields] at h
          cases h
        | ok found =>
          change (resolveViaFields root opts pkg dir subpath >>= _) = _ at h
          rw [hfields] at h
          cases found with
          | some path' => exact givesFile_fields pkg dir subpath path (hfields.trans h)
          | none => exact tryResolve_regular (Except.ok.inj h)
  · exact tryResolve_regular (Except.ok.inj h)

theorem givesFile_import (specifier : Binary) (dir : FilePath) :
    GivesFile root (resolvePackageImport decode root opts specifier dir) := by
  intro path h
  unfold resolvePackageImport at h
  split at h
  · split at h
    · rename_i imports _
      cases hexports : Exports.resolve opts.conditions imports specifier with
      | error reason =>
        rw [hexports] at h
        cases h
      | ok target =>
        rw [hexports] at h
        cases target with
        | none => cases h
        | some target => exact tryResolve_regular (Except.ok.inj h)
    · cases h
  · cases h

theorem givesFile_bare (specifier : Binary) (dir : FilePath) :
    GivesFile root (resolveBare decode root opts specifier dir) := by
  intro path h
  unfold resolveBare at h
  split at h
  · exact givesFile_entry _ _ path h
  · cases h

theorem eq_of_map_ofOption {answer : Except Raised (Option FilePath)}
    (h : answer.map Resolution.ofOption = .ok (.ok path)) : answer = .ok (some path) := by
  cases answer with
  | error reason => cases h
  | ok found =>
    cases found with
    | none => cases h
    | some path' =>
      cases h
      rfl

variable {dir : FilePath} {specifier : Binary}

/-- **A specifier resolves to a file.** -/
theorem resolve_regular (h : resolve decode root opts specifier dir = .ok (.ok path)) :
    root.isRegular path = true := by
  unfold resolve at h
  split at h
  · cases h
  · exact givesFile_import specifier dir path (eq_of_map_ofOption h)
  · cases hfound : tryResolve root (expandFrom specifier dir) opts.extensions with
    | none =>
      rw [hfound] at h
      cases h
    | some path' =>
      rw [hfound] at h
      cases h
      exact tryResolve_regular hfound
  · exact givesFile_bare specifier dir path (eq_of_map_ofOption h)

/-! ### Files and what they import -/

section Graph

variable (decode specifiers root)

def importsOf (file : FilePath) : Option (List Binary) :=
  (root.read file).bind fun source => specifiers source (basename file)

def Resolves (file : FilePath) (specifier : Binary) (path : FilePath) : Prop :=
  (∃ found, importsOf specifiers root file = some found ∧ specifier ∈ found) ∧
    resolve decode root resolveOpts specifier file.dirname = .ok (.ok path)

def Imports (file target : FilePath) : Prop :=
  ∃ specifier path, Resolves decode specifiers root file specifier path ∧ path.expand = target

def Reachable (entry : FilePath) : FilePath → Prop :=
  ReflTransGen (Imports decode specifiers root) entry

def AllResolve (entry : FilePath) : Prop :=
  ∀ file, Reachable decode specifiers root entry file →
    ∃ found, importsOf specifiers root file = some found ∧ ∀ specifier ∈ found,
      (∃ path, resolve decode root resolveOpts specifier file.dirname = .ok (.ok path)) ∨
        ∃ name, resolve decode root resolveOpts specifier file.dirname = .ok (.builtin name)

def Unresolved (entry : FilePath) (specifier : Binary) : Prop :=
  ∃ file found, Reachable decode specifiers root entry file ∧
    importsOf specifiers root file = some found ∧ specifier ∈ found ∧
    resolve decode root resolveOpts specifier file.dirname = .ok .error

def Spelling (entry path : FilePath) : Prop :=
  path = entry ∨ ∃ file specifier, Reachable decode specifiers root entry file ∧
    Resolves decode specifiers root file specifier path

end Graph

/-! ### What visiting a path gives -/

def Decided (decode : Binary → Option Json) (root : Entry) (projectRoot dir : FilePath)
    (specifier : Binary) (decision : Decision) : Prop :=
  ∀ path, resolve decode root resolveOpts specifier dir = .ok (.ok path) →
    decision = if isRelative specifier then .keep
      else .rewrite (relativeImportPath dir path projectRoot)

variable {projectRoot : FilePath}

theorem rewriteAll_ok : ∀ {found : List Binary}
    {decisions : List (Binary × Decision)} {paths : List FilePath},
    rewriteAll decode root dir projectRoot found = .ok (decisions, paths) →
    decisions.map Prod.fst = found ∧
      (∀ x ∈ decisions, Decided decode root projectRoot dir x.1 x.2) ∧
      (∀ path, path ∈ paths ↔ ∃ specifier ∈ found,
        resolve decode root resolveOpts specifier dir = .ok (.ok path)) ∧
      ∀ specifier ∈ found, resolve decode root resolveOpts specifier dir ≠ .ok .error := by
  intro found
  induction found with
  | nil =>
    intro decisions paths h
    cases h
    refine ⟨rfl, fun x hx => (by cases hx), fun path => ?_, fun s hs => (by cases hs)⟩
    exact iff_of_false (fun h => (by cases h)) fun ⟨s, hs, _⟩ => (by cases hs)
  | cons specifier found ih =>
    intro decisions paths h
    unfold rewriteAll resolveAndTrack at h
    cases hresolve : resolve decode root resolveOpts specifier dir with
    | error reason =>
      rw [hresolve] at h
      cases h
    | ok answer =>
      rw [hresolve] at h
      cases hrest : rewriteAll decode root dir projectRoot found with
      | error e =>
        rw [hrest] at h
        cases answer <;> cases h
      | ok rest =>
        obtain ⟨decisions', paths'⟩ := rest
        rw [hrest] at h
        obtain ⟨hfst, hdecided, hpaths, herror⟩ := ih hrest
        cases answer with
        | error => cases h
        | builtin name =>
          cases h
          refine ⟨congrArg (specifier :: ·) hfst, ?_, fun path => ?_, ?_⟩
          · intro x hx
            rcases List.mem_cons.1 hx with rfl | hx
            · intro path hpath
              rw [hresolve] at hpath
              cases hpath
            · exact hdecided x hx
          · refine (hpaths path).trans ⟨fun ⟨s, hs, hpath⟩ => ⟨s, .tail _ hs, hpath⟩, ?_⟩
            rintro ⟨s, hs, hpath⟩
            rcases List.mem_cons.1 hs with rfl | hs
            · rw [hresolve] at hpath
              cases hpath
            · exact ⟨s, hs, hpath⟩
          · intro s hs
            rcases List.mem_cons.1 hs with rfl | hs
            · rw [hresolve]
              exact fun h => (by cases h)
            · exact herror s hs
        | ok found' =>
          cases h
          refine ⟨congrArg (specifier :: ·) hfst, ?_, fun path => ?_, ?_⟩
          · intro x hx
            rcases List.mem_cons.1 hx with rfl | hx
            · intro path hpath
              rw [hresolve] at hpath
              cases hpath
              rfl
            · exact hdecided x hx
          · refine List.mem_cons.trans ⟨?_, ?_⟩
            · rintro (rfl | hpath)
              · exact ⟨specifier, List.mem_cons_self .., hresolve⟩
              · obtain ⟨s, hs, h⟩ := (hpaths path).1 hpath
                exact ⟨s, .tail _ hs, h⟩
            · rintro ⟨s, hs, hpath⟩
              rcases List.mem_cons.1 hs with rfl | hs
              · rw [hresolve] at hpath
                cases hpath
                exact .inl rfl
              · exact .inr ((hpaths path).2 ⟨s, hs, hpath⟩)
          · intro s hs
            rcases List.mem_cons.1 hs with rfl | hs
            · rw [hresolve]
              exact fun h => (by cases h)
            · exact herror s hs

def FailsAt (decode : Binary → Option Json) (specifiers : Binary → Binary → Option (List Binary))
    (root : Entry) (path : FilePath) : Failure → Prop
  | .fileReadError path' => path' = path ∧ root.read path = none
  | .parseError importer => importer = path ∧ importsOf specifiers root path.expand = none
  | .moduleNotFound specifier => ∃ found, importsOf specifiers root path.expand = some found ∧
      specifier ∈ found ∧
      resolve decode root resolveOpts specifier path.expand.dirname = .ok .error
  | .raised reason => ∃ found specifier, importsOf specifiers root path.expand = some found ∧
      specifier ∈ found ∧
      resolve decode root resolveOpts specifier path.expand.dirname = .error reason
  | .functionClause => False

variable {e : Failure}

theorem rewriteAll_error : ∀ {found : List Binary},
    rewriteAll decode root dir projectRoot found = .error e → ∃ specifier ∈ found,
      (resolve decode root resolveOpts specifier dir = .ok .error ∧ e = .moduleNotFound specifier) ∨
        ∃ reason, resolve decode root resolveOpts specifier dir = .error reason ∧
          e = .raised reason := by
  intro found
  induction found with
  | nil =>
    intro h
    cases h
  | cons specifier found ih =>
    intro h
    have hrest : rewriteAll decode root dir projectRoot found = .error e → _ := fun h =>
      Exists.imp (fun s hs => And.imp_left (List.mem_cons_of_mem specifier) hs) (ih h)
    unfold rewriteAll resolveAndTrack at h
    cases hresolve : resolve decode root resolveOpts specifier dir with
    | error reason =>
      rw [hresolve] at h
      cases h
      exact ⟨specifier, List.mem_cons_self .., .inr ⟨reason, hresolve, rfl⟩⟩
    | ok answer =>
      rw [hresolve] at h
      cases answer with
      | error =>
        cases h
        exact ⟨specifier, List.mem_cons_self .., .inl ⟨hresolve, rfl⟩⟩
      | builtin name =>
        cases hfound : rewriteAll decode root dir projectRoot found with
        | ok rest =>
          rw [hfound] at h
          cases h
        | error e' =>
          rw [hfound] at h
          cases h
          exact hrest hfound
      | ok path =>
        cases hfound : rewriteAll decode root dir projectRoot found with
        | ok rest =>
          rw [hfound] at h
          cases h
        | error e' =>
          rw [hfound] at h
          cases h
          exact hrest hfound

structure Visits (decode : Binary → Option Json)
    (specifiers : Binary → Binary → Option (List Binary)) (root : Entry)
    (projectRoot path : FilePath) (m : Module) (behind : List FilePath) : Prop where
  absPath : m.absPath = path
  label : m.label = relativeLabel path projectRoot
  content : root.read path = some m.source
  imports : importsOf specifiers root path.expand = some (m.specifiers.map Prod.fst)
  decided : ∀ x ∈ m.specifiers, Decided decode root projectRoot path.expand.dirname x.1 x.2
  behind : ∀ target, target ∈ behind ↔
    ∃ specifier, Resolves decode specifiers root path.expand specifier target
  resolved : ∀ specifier ∈ m.specifiers.map Prod.fst,
    resolve decode root resolveOpts specifier path.expand.dirname ≠ .ok .error

theorem importsOf_expand (h : root.read path = some source) :
    importsOf specifiers root path.expand = specifiers source (basename path) := by
  unfold importsOf
  rw [Entry.read_expand h, basename_expand h]
  rfl

theorem Decided.expand {decision : Decision}
    (h : Decided decode root projectRoot dir specifier decision) :
    Decided decode root projectRoot dir.expand specifier decision := by
  intro path hpath
  rw [resolve_expand] at hpath
  rw [h path hpath, relativeImportPath_expand]

theorem visit_ok {m : Module} {behind : List FilePath}
    (h : visit decode specifiers root projectRoot path = .ok (m, behind)) :
    Visits decode specifiers root projectRoot path m behind := by
  unfold visit at h
  cases hread : root.read path with
  | none =>
    rw [hread] at h
    cases h
  | some source =>
    rw [hread] at h
    dsimp only at h
    have himports : importsOf specifiers root path.expand = _ := importsOf_expand hread
    unfold rewriteAndResolve at h
    cases hfound : specifiers source (basename path) with
    | none =>
      rw [hfound] at h
      cases h
    | some found =>
      rw [hfound] at h himports
      dsimp only at h
      cases hall : rewriteAll decode root path.dirname projectRoot found with
      | error e =>
        rw [hall] at h
        cases h
      | ok result =>
        obtain ⟨decisions, paths⟩ := result
        rw [hall] at h
        cases h
        obtain ⟨hfst, hdecided, hpaths, herror⟩ := rewriteAll_ok hall
        have hresolve : ∀ s, resolve decode root resolveOpts s path.expand.dirname =
            resolve decode root resolveOpts s path.dirname := by
          intro s
          rw [dirname_expand hread, resolve_expand]
        refine ⟨rfl, rfl, hread, ?_, ?_, fun target => ?_, ?_⟩
        · rw [himports, ← hfst]
        · intro x hx
          rw [dirname_expand hread]
          exact (hdecided x hx).expand
        · refine (hpaths target).trans ⟨fun ⟨s, hs, h⟩ => ?_, fun ⟨s, ⟨found', hf, hs⟩, h⟩ => ?_⟩
          · exact ⟨s, ⟨found, himports, hs⟩, (hresolve s).trans h⟩
          · rw [himports] at hf
            rw [← Option.some.inj hf] at hs
            exact ⟨s, hs, (hresolve s).symm.trans h⟩
        · intro s hs
          rw [hresolve]
          exact herror s (hfst ▸ hs)

theorem visit_error (h : visit decode specifiers root projectRoot path = .error e) :
    FailsAt decode specifiers root path e := by
  unfold visit at h
  cases hread : root.read path with
  | none =>
    rw [hread] at h
    cases h
    exact ⟨rfl, hread⟩
  | some source =>
    rw [hread] at h
    dsimp only at h
    have himports : importsOf specifiers root path.expand = _ := importsOf_expand hread
    unfold rewriteAndResolve at h
    cases hfound : specifiers source (basename path) with
    | none =>
      rw [hfound] at h himports
      cases h
      exact ⟨rfl, himports⟩
    | some found =>
      rw [hfound] at h himports
      dsimp only at h
      cases hall : rewriteAll decode root path.dirname projectRoot found with
      | ok result =>
        rw [hall] at h
        cases h
      | error e' =>
        rw [hall] at h
        cases h
        obtain ⟨s, hs, hfails⟩ := rewriteAll_error hall
        rw [← resolve_expand, ← dirname_expand hread] at hfails
        rcases hfails with ⟨hresolve, rfl⟩ | ⟨reason, hresolve, rfl⟩
        · exact ⟨found, himports, hs, hresolve⟩
        · exact ⟨found, s, himports, hs, hresolve⟩

/-! ### The walk -/

section Walk

variable {projectRoot entry : FilePath}

theorem resolves_of_next {path target : FilePath}
    (h : DepthFirst.Next (visit decode specifiers root projectRoot) path target) :
    (∃ source, root.read path = some source) ∧
      ∃ specifier, Resolves decode specifiers root path.expand specifier target := by
  obtain ⟨m, behind, hvisit, hmem⟩ := h
  have hv := visit_ok hvisit
  exact ⟨⟨m.source, hv.content⟩, (hv.behind target).1 hmem⟩

variable {path : FilePath}

theorem spelling_of_reaches (hentry : entry.expand = entry)
    (h : DepthFirst.Reaches (visit decode specifiers root projectRoot) entry path) :
    Spelling decode specifiers root entry path ∧
      Reachable decode specifiers root entry path.expand := by
  induction h with
  | refl => exact ⟨.inl rfl, hentry.symm ▸ .refl⟩
  | tail _ hnext ih =>
    obtain ⟨-, specifier, hresolves⟩ := resolves_of_next hnext
    exact ⟨.inr ⟨_, specifier, ih.2, hresolves⟩, ih.2.tail ⟨specifier, _, hresolves, rfl⟩⟩

theorem reaches_of_reachable (hentry : entry.expand = entry)
    (hvisit : ∀ path, DepthFirst.Reaches (visit decode specifiers root projectRoot) entry path →
      ∃ result, visit decode specifiers root projectRoot path = .ok result) {file : FilePath}
    (h : Reachable decode specifiers root entry file) :
    ∃ path, DepthFirst.Reaches (visit decode specifiers root projectRoot) entry path ∧
      path.expand = file := by
  induction h with
  | refl => exact ⟨entry, .refl, hentry⟩
  | tail _ himports ih =>
    obtain ⟨path, hreach, rfl⟩ := ih
    obtain ⟨specifier, target, hresolves, rfl⟩ := himports
    obtain ⟨⟨m, behind⟩, hok⟩ := hvisit path hreach
    have hmem := ((visit_ok hok).behind target).2 ⟨specifier, hresolves⟩
    exact ⟨target, hreach.tail ⟨m, behind, hok, hmem⟩, rfl⟩

theorem reaches_of_spelling (hentry : entry.expand = entry)
    (hvisit : ∀ path, DepthFirst.Reaches (visit decode specifiers root projectRoot) entry path →
    ∃ result, visit decode specifiers root projectRoot path = .ok result)
    (h : Spelling decode specifiers root entry path) :
    DepthFirst.Reaches (visit decode specifiers root projectRoot) entry path := by
  rcases h with rfl | ⟨file, specifier, hfile, hresolves⟩
  · exact .refl
  · obtain ⟨importer, hreach, rfl⟩ := reaches_of_reachable hentry hvisit hfile
    obtain ⟨⟨m, behind⟩, hok⟩ := hvisit importer hreach
    exact hreach.tail ⟨m, behind, hok, ((visit_ok hok).behind path).2 ⟨specifier, hresolves⟩⟩

theorem finite_resolves (file : FilePath) :
    {path | ∃ specifier, Resolves decode specifiers root file specifier path}.Finite := by
  cases hfound : importsOf specifiers root file with
  | none =>
    refine Set.finite_empty.subset ?_
    rintro path ⟨specifier, ⟨found, h, -⟩, -⟩
    rw [hfound] at h
    cases h
  | some found =>
    have hone : ∀ specifier, {path | resolve decode root resolveOpts specifier file.dirname =
        .ok (.ok path)}.Finite := by
      intro specifier
      refine Set.Subsingleton.finite fun a ha b hb => ?_
      have h := ha.symm.trans hb
      cases h
      rfl
    refine ((List.finite_toSet found).biUnion fun s _ => hone s).subset ?_
    rintro path ⟨specifier, ⟨found', h, hmem⟩, hpath⟩
    rw [hfound] at h
    rw [← Option.some.inj h] at hmem
    exact Set.mem_biUnion hmem hpath

/-- **The walk ends**: a tree has finitely many files, and each imports finitely many paths. -/
theorem doCollect_ends (projectRoot entry : FilePath) :
    ∃ bound, ∀ fuel, bound ≤ fuel →
      doCollect decode specifiers root projectRoot fuel entry ⟨[], []⟩ ≠ none := by
  have hfinite : ({entry} ∪ ⋃ file ∈ {file | FilePath.Expanded file ∧ ∃ content,
      Entry.walk [] root file = some (.file content)},
      {path | ∃ specifier, Resolves decode specifiers root file specifier path}).Finite :=
    (Set.finite_singleton entry).union
      ((Entry.finite_files root []).biUnion fun file _ => finite_resolves file)
  refine ⟨hfinite.toFinset.card + 1, fun fuel hfuel => ?_⟩
  refine DepthFirst.collect_ends ?_ (hfinite.mem_toFinset.2 (.inl rfl)) hfuel
  intro a _ b hnext
  obtain ⟨⟨source, hread⟩, hresolves⟩ := resolves_of_next hnext
  refine hfinite.mem_toFinset.2 (.inr ?_)
  exact Set.mem_biUnion (x := a.expand) ⟨FilePath.expanded_expand a, source,
    Entry.read_eq_some_iff.1 (Entry.read_expand hread)⟩ hresolves

theorem visit_total (hentry : entry.expand = entry)
    (hall : AllResolve decode specifiers root entry)
    (h : DepthFirst.Reaches (visit decode specifiers root projectRoot) entry path) :
    ∃ result, visit decode specifiers root projectRoot path = .ok result := by
  obtain ⟨hspelling, hreachable⟩ := spelling_of_reaches hentry h
  obtain ⟨found, hfound, hresolve⟩ := hall _ hreachable
  have hresolves : ∀ found', importsOf specifiers root path.expand = some found' →
      ∀ specifier ∈ found', (∃ target, resolve decode root resolveOpts specifier
        path.expand.dirname = .ok (.ok target)) ∨ ∃ name, resolve decode root resolveOpts specifier
        path.expand.dirname = .ok (.builtin name) := by
    intro found' hfound'
    rw [hfound] at hfound'
    exact Option.some.inj hfound' ▸ hresolve
  cases hvisit : visit decode specifiers root projectRoot path with
  | ok result => exact ⟨result, rfl⟩
  | error e =>
    have hfails := visit_error hvisit
    cases e with
    | fileReadError path' =>
      have hnone := hfails.2
      rcases hspelling with rfl | ⟨file, specifier, -, hresolves⟩
      · unfold importsOf at hfound
        rw [hentry, hnone] at hfound
        cases hfound
      · obtain ⟨source, hread⟩ := Entry.isRegular_iff_read.1 (resolve_regular hresolves.2)
        rw [hnone] at hread
        cases hread
    | parseError importer =>
      rw [hfails.2] at hfound
      cases hfound
    | moduleNotFound specifier =>
      obtain ⟨found', hfound', hmem, herror⟩ := hfails
      rcases hresolves found' hfound' specifier hmem with ⟨target, h⟩ | ⟨name, h⟩
      · rw [herror] at h
        cases h
      · rw [herror] at h
        cases h
    | raised reason =>
      obtain ⟨found', specifier, hfound', hmem, herror⟩ := hfails
      rcases hresolves found' hfound' specifier hmem with ⟨target, h⟩ | ⟨name, h⟩
      · rw [herror] at h
        cases h
      · rw [herror] at h
        cases h
    | functionClause => exact hfails.elim

structure Collected (decode : Binary → Option Json)
    (specifiers : Binary → Binary → Option (List Binary)) (root : Entry)
    (projectRoot entry : FilePath) (files : List Module) : Prop where
  visits : ∀ m ∈ files, ∃ behind, Visits decode specifiers root projectRoot m.absPath m behind
  nodup : (files.map Module.absPath).Nodup
  spellings : ∀ path, path ∈ files.map Module.absPath ↔ Spelling decode specifiers root entry path
  reachable : ∀ file, Reachable decode specifiers root entry file ↔
    ∃ m ∈ files, m.absPath.expand = file

theorem map_absPath_of_gives {seen : List FilePath} {items : List Module}
    (h : List.Forall₂ (DepthFirst.Gives (visit decode specifiers root projectRoot)) seen items) :
    items.map Module.absPath = seen ∧
      (∀ path ∈ seen, ∃ result, visit decode specifiers root projectRoot path = .ok result) ∧
      ∀ m ∈ items, ∃ behind, Visits decode specifiers root projectRoot m.absPath m behind := by
  induction h with
  | nil => exact ⟨rfl, fun path hpath => (by cases hpath), fun m hm => (by cases hm)⟩
  | cons hgives _ ih =>
    obtain ⟨behind, hvisit⟩ := hgives
    have hv := visit_ok hvisit
    refine ⟨?_, fun path hpath => ?_, fun m hm => ?_⟩
    · rw [List.map_cons, hv.absPath, ih.1]
    · rcases List.mem_cons.1 hpath with rfl | hpath
      · exact ⟨_, hvisit⟩
      · exact ih.2.1 path hpath
    · rcases List.mem_cons.1 hm with rfl | hm
      · refine ⟨behind, ?_⟩
        rw [hv.absPath]
        exact hv
      · exact ih.2.2 m hm

/-- **A walk without a failure has collected the files that the entry reaches.** -/
theorem collected_of_ok (hentry : entry.expand = entry) {fuel : ℕ} {files : List Module}
    (h : collectModules decode specifiers root fuel entry projectRoot = some (.ok files)) :
    Collected decode specifiers root projectRoot entry files := by
  unfold collectModules at h
  cases hrun : doCollect decode specifiers root projectRoot fuel entry ⟨[], []⟩ with
  | none =>
    rw [hrun] at h
    cases h
  | some result =>
    rw [hrun] at h
    cases result with
    | error e => cases h
    | ok progress =>
      cases h
      obtain ⟨hgives, hnodup, hreaches⟩ := DepthFirst.collect_ok hrun
      obtain ⟨hpaths, hok, hvisits⟩ := map_absPath_of_gives hgives
      have hmem : ∀ path, path ∈ (progress.items.reverse).map Module.absPath ↔
          DepthFirst.Reaches (visit decode specifiers root projectRoot) entry path := by
        intro path
        rw [List.map_reverse, List.mem_reverse, hpaths]
        exact hreaches path
      have hvisit : ∀ path, DepthFirst.Reaches (visit decode specifiers root projectRoot) entry
          path → ∃ result, visit decode specifiers root projectRoot path = .ok result :=
        fun path hpath => hok path ((hreaches path).2 hpath)
      refine ⟨fun m hm => hvisits m (List.mem_reverse.1 hm), ?_, fun path => ?_, fun file => ?_⟩
      · rw [List.map_reverse, List.nodup_reverse, hpaths]
        exact hnodup
      · refine (hmem path).trans ⟨fun h => (spelling_of_reaches hentry h).1, fun h => ?_⟩
        exact reaches_of_spelling hentry hvisit h
      · refine ⟨fun h => ?_, fun ⟨m, hm, hfile⟩ => ?_⟩
        · obtain ⟨path, hpath, hfile⟩ := reaches_of_reachable hentry hvisit h
          obtain ⟨m, hm, rfl⟩ := List.mem_map.1 ((hmem path).2 hpath)
          exact ⟨m, hm, hfile⟩
        · have hreach := (hmem m.absPath).1 (List.mem_map_of_mem hm)
          exact hfile ▸ (spelling_of_reaches hentry hreach).2

theorem collectModules_ends (projectRoot entry : FilePath) : ∃ bound, ∀ fuel, bound ≤ fuel →
    (∃ files, collectModules decode specifiers root fuel entry projectRoot = some (.ok files)) ∨
      ∃ e path, collectModules decode specifiers root fuel entry projectRoot = some (.error e) ∧
        DepthFirst.Reaches (visit decode specifiers root projectRoot) entry path ∧
        visit decode specifiers root projectRoot path = .error e := by
  obtain ⟨bound, hends⟩ := @doCollect_ends decode specifiers root projectRoot entry
  refine ⟨bound, fun fuel hfuel => ?_⟩
  have hne := hends fuel hfuel
  unfold collectModules
  cases hrun : doCollect decode specifiers root projectRoot fuel entry ⟨[], []⟩ with
  | none => exact absurd hrun hne
  | some result =>
    cases result with
    | ok progress => exact .inl ⟨_, rfl⟩
    | error e =>
      obtain ⟨path, hreach, hvisit⟩ := DepthFirst.collect_error fuel entry _ hrun
      exact .inr ⟨e, path, rfl, hreach, hvisit⟩

/-- **Where everything resolves the walk collects the files that the entry reaches.** -/
theorem collects (hentry : entry.expand = entry) (hall : AllResolve decode specifiers root entry)
    (projectRoot : FilePath) : ∃ bound, ∀ fuel, bound ≤ fuel → ∃ files,
      collectModules decode specifiers root fuel entry projectRoot = some (.ok files) ∧
        Collected decode specifiers root projectRoot entry files := by
  obtain ⟨bound, hends⟩ := @collectModules_ends decode specifiers root projectRoot entry
  refine ⟨bound, fun fuel hfuel => ?_⟩
  rcases hends fuel hfuel with ⟨files, hrun⟩ | ⟨e, path, -, hreach, hvisit⟩
  · exact ⟨files, hrun, collected_of_ok hentry hrun⟩
  · obtain ⟨result, hok⟩ := visit_total hentry hall hreach
    rw [hvisit] at hok
    cases hok

/-- **Where a specifier does not resolve the walk fails**, with the failure of a path that the
entry reaches. -/
theorem fails (hentry : entry.expand = entry) {specifier : Binary}
    (hunresolved : Unresolved decode specifiers root entry specifier) (projectRoot : FilePath) :
    ∃ bound, ∀ fuel, bound ≤ fuel → ∃ e path,
      collectModules decode specifiers root fuel entry projectRoot = some (.error e) ∧
        Reachable decode specifiers root entry path.expand ∧
        FailsAt decode specifiers root path e := by
  obtain ⟨bound, hends⟩ := @collectModules_ends decode specifiers root projectRoot entry
  refine ⟨bound, fun fuel hfuel => ?_⟩
  rcases hends fuel hfuel with ⟨files, hrun⟩ | ⟨e, path, hrun, hreach, hvisit⟩
  · -- the importer has been visited, and its specifier with it
    have hcollected := collected_of_ok hentry hrun
    obtain ⟨file, found, hfile, hfound, hmem, herror⟩ := hunresolved
    obtain ⟨m, hm, rfl⟩ := (hcollected.reachable file).1 hfile
    obtain ⟨behind, hv⟩ := hcollected.visits m hm
    rw [hv.imports] at hfound
    rw [← Option.some.inj hfound] at hmem
    exact absurd herror (hv.resolved specifier hmem)
  · exact ⟨e, path, hrun, (spelling_of_reaches hentry hreach).2, visit_error hvisit⟩

end Walk

end Bundler

end QuickBeam.Js
