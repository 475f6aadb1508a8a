import QuickBeam.Js.ModuleGraph

/-!
# The labels of a bundle

In a bundle a file has no other name than its label, and a specifier is looked up from the label
of its importer.  `bundleFile_iff` says exactly when the labels stand for the files: when every
file is in the project root, under one path, and every relative specifier stays there.
-/

namespace QuickBeam.Js

open QuickBeam.Vm.Program QuickBeam.Lib

namespace Bundler

open PackageResolver

/-! ### What a specifier denotes -/

/-- The path from a directory, without a way out of the first one. -/
def climb : FilePath → FilePath → Option FilePath
  | dir, [] => some dir
  | dir, segment :: path =>
      if segment = FilePath.dot then climb dir path
      else if segment = FilePath.dotdot then
        if dir = [] then none else climb dir.dropLast path
      else climb (dir ++ [segment]) path

def withExtensions (base : FilePath) : List FilePath :=
  base :: resolveOpts.extensions.map base.append

def indexes (base : FilePath) : List FilePath :=
  resolveOpts.extensions.map (base.join indexName).append

/-- The files a base stands for, in turn; the top directory is no file. -/
def candidates (base : FilePath) : List FilePath :=
  (if base = [] then [] else withExtensions base) ++ indexes base

def denotes (labels : List Split) (importer : Split) (specifier : Binary) : Option Split :=
  if [slash].isPrefixOf specifier then none
  else
    match climb importer.segments.dropLast (FilePath.segments specifier) with
    | none => none
    | some base => ((candidates base).map (Split.mk importer.absolute)).find? (· ∈ labels)

variable {specifier : Binary}

theorem denotes_absolute {labels : List Split} {importer label : Split}
    (h : denotes labels importer specifier = some label) : label.absolute = importer.absolute := by
  unfold denotes at h
  split at h
  · cases h
  · split at h
    · cases h
    · obtain ⟨base, -, rfl⟩ := List.mem_map.1 (List.mem_of_find?_eq_some h)
      rfl

theorem foldl_of_climb (projectRoot : FilePath) : ∀ {path dir base : FilePath},
    climb dir path = some base →
      path.foldl FilePath.expandStep (projectRoot ++ dir) = projectRoot ++ base := by
  intro path
  induction path with
  | nil =>
    intro dir base h
    cases h
    rfl
  | cons segment path ih =>
    intro dir base h
    unfold climb at h
    rw [List.foldl_cons]
    unfold FilePath.expandStep
    split at h
    · rename_i hdot
      rw [if_pos hdot]
      exact ih h
    · rename_i hdot
      rw [if_neg hdot]
      split at h
      · rename_i hdotdot
        rw [if_pos hdotdot]
        split at h
        · cases h
        · rename_i hdir
          rw [List.dropLast_append_of_ne_nil hdir]
          exact ih h
      · rename_i hdotdot
        rw [if_neg hdotdot, List.append_assoc]
        exact ih h

variable {path : FilePath}

theorem climb_expanded (hpath : FilePath.Expanded path) (dir : FilePath) :
    climb dir path = some (dir ++ path) := by
  induction path generalizing dir with
  | nil => exact congrArg some (List.append_nil dir).symm
  | cons segment path ih =>
    obtain ⟨hdot, hdotdot⟩ := hpath segment (List.mem_cons_self ..)
    unfold climb
    rw [if_neg hdot, if_neg hdotdot, ih fun s hs => hpath s (List.mem_cons_of_mem _ hs),
      List.append_assoc]
    rfl

theorem climb_up (dir below path : FilePath) :
    climb (dir ++ below) (List.replicate below.length FilePath.dotdot ++ path) =
      climb dir path := by
  induction below using List.reverseRecOn with
  | nil => rw [List.append_nil]; rfl
  | append_singleton below segment ih =>
    rw [List.length_append, List.length_singleton, List.replicate_succ, List.cons_append]
    have hdot : FilePath.dotdot ≠ FilePath.dot := by decide
    have hne : dir ++ (below ++ [segment]) ≠ [] :=
      List.append_ne_nil_of_right_ne_nil _ (List.append_ne_nil_of_right_ne_nil _
        (List.cons_ne_nil _ _))
    rw [climb, if_neg hdot, if_pos rfl, if_neg hne, ← List.append_assoc, List.dropLast_concat]
    exact ih

/-! ### The candidates of the resolver -/

theorem slash_notMem_extension : ∀ extension ∈ resolveOpts.extensions, slash ∉ extension := by
  decide

theorem extension_ne_nil : ∀ extension ∈ resolveOpts.extensions, extension ≠ [] := by
  decide

theorem append_concat (dir : FilePath) (segment : Segment) {extension : Binary}
    (h : slash ∉ extension) : ∃ segment' : Segment,
      (dir ++ [segment]).append extension = dir ++ [segment'] ∧
        segment'.val = segment.val ++ extension := by
  have hsegment : segment.val ++ extension ≠ [] ∧ slash ∉ segment.val ++ extension := by
    refine ⟨List.append_ne_nil_of_left_ne_nil segment.2.1 _, fun hmem => ?_⟩
    rcases List.mem_append.1 hmem with hmem | hmem
    · exact segment.2.2 hmem
    · exact h hmem
  refine ⟨⟨_, hsegment⟩, ?_, rfl⟩
  unfold FilePath.append
  rw [List.getLast?_concat]
  dsimp only
  rw [List.dropLast_concat, FilePath.segments_val ⟨_, hsegment⟩]

theorem append_append (dir : FilePath) (hpath : path ≠ []) (extension : Binary) :
    (dir ++ path).append extension = dir ++ path.append extension := by
  obtain ⟨path, segment, rfl⟩ := (List.eq_nil_or_concat path).resolve_left hpath
  rw [List.concat_eq_append, ← List.append_assoc]
  unfold FilePath.append
  rw [List.getLast?_concat, List.getLast?_concat]
  dsimp only
  rw [List.dropLast_concat, List.dropLast_concat, List.append_assoc]

variable {base : FilePath}

theorem withExtensions_append (dir : FilePath) (hbase : base ≠ []) :
    withExtensions (dir ++ base) = (withExtensions base).map (dir ++ ·) := by
  unfold withExtensions
  rw [List.map_cons, List.map_map]
  exact congrArg _ (List.map_congr_left fun extension _ => append_append dir hbase extension)

theorem join_indexName (base : FilePath) : base.join indexName =
    base ++ [⟨indexName, by decide⟩] := by
  unfold FilePath.join
  rw [FilePath.segments_val ⟨indexName, by decide⟩]

theorem indexes_append (dir base : FilePath) :
    indexes (dir ++ base) = (indexes base).map (dir ++ ·) := by
  unfold indexes
  rw [List.map_map]
  refine List.map_congr_left fun extension _ => ?_
  rw [Function.comp_apply, join_indexName, join_indexName, List.append_assoc]
  exact append_append dir (List.append_ne_nil_of_right_ne_nil _ (List.cons_ne_nil _ _)) extension

theorem expand_of_regular {root : Entry} {dir : FilePath} (hdir : FilePath.Expanded dir)
    {segment : Segment} (h : root.isRegular (dir ++ [segment]) = true) :
    FilePath.expand (dir ++ [segment]) = dir ++ [segment] := by
  obtain ⟨content, hlookup⟩ := Entry.isRegular_iff.1 h
  rw [Entry.expand_concat_of_file hlookup, FilePath.expand_of_expanded hdir]

variable {dir : FilePath} {root : Entry}

theorem isDir_of_regular (hdir : FilePath.Expanded dir) {segment : Segment}
    (h : root.isRegular (dir ++ [segment]) = true) : root.isDir dir = true := by
  obtain ⟨content, hlookup⟩ := Entry.isRegular_iff.1 h
  obtain ⟨parents, hat⟩ := Entry.located_expand hlookup
  rw [expand_of_regular hdir h] at hat
  obtain ⟨entries, parents', hdirAt⟩ := hat.parent
  exact Entry.isDir_iff.2 ⟨entries, hdirAt.lookup⟩

theorem mem_indexes (h : path ∈ indexes base) : ∃ segment : Segment, path = base ++ [segment] ∧
      ∃ extension ∈ resolveOpts.extensions, segment.val = indexName ++ extension := by
  obtain ⟨extension, hext, rfl⟩ := List.mem_map.1 h
  rw [join_indexName]
  obtain ⟨segment, happend, hval⟩ := append_concat base ⟨indexName, by decide⟩
    (slash_notMem_extension extension hext)
  exact ⟨segment, happend, extension, hext, hval⟩

/-- **The resolver takes the first candidate that is a file.** -/
theorem tryResolve_eq (hbase : FilePath.Expanded base) :
    tryResolve root base resolveOpts.extensions =
      (withExtensions base ++ indexes base).find? root.isRegular := by
  unfold tryResolve
  rw [List.find?_append]
  unfold withExtensions
  rw [List.find?_cons]
  cases hregular : root.isRegular base with
  | true => rfl
  | false =>
    rw [if_neg Bool.false_ne_true]
    dsimp only
    unfold tryExtensions
    cases (resolveOpts.extensions.map base.append).find? root.isRegular with
    | some path => rfl
    | none =>
      dsimp only
      rw [Option.none_or]
      cases hdir : root.isDir base with
      | true => rfl
      | false =>
        rw [if_neg Bool.false_ne_true]
        refine (List.find?_eq_none.2 fun path hpath hfile => ?_).symm
        obtain ⟨segment, rfl, -⟩ := mem_indexes hpath
        rw [isDir_of_regular hbase hfile] at hdir
        cases hdir

theorem expand_of_candidate (hbase : FilePath.Expanded base)
    (h : path ∈ withExtensions base ++ indexes base) (hregular : root.isRegular path = true) :
    path.expand = path := by
  rcases List.mem_append.1 h with h | h
  · rcases List.mem_cons.1 h with rfl | h
    · exact FilePath.expand_of_expanded hbase
    · obtain ⟨extension, hext, rfl⟩ := List.mem_map.1 h
      rcases List.eq_nil_or_concat base with rfl | ⟨dir, segment, rfl⟩
      · have hsegments : FilePath.append [] extension = [⟨extension, extension_ne_nil _ hext,
            slash_notMem_extension _ hext⟩] :=
          FilePath.segments_val ⟨extension, extension_ne_nil _ hext, slash_notMem_extension _ hext⟩
        rw [hsegments] at hregular ⊢
        exact @expand_of_regular root [] hbase _ hregular
      · rw [List.concat_eq_append] at hbase hregular ⊢
        obtain ⟨segment', happend, -⟩ :=
          append_concat dir segment (slash_notMem_extension extension hext)
        rw [happend] at hregular ⊢
        exact expand_of_regular (fun s hs => hbase s (List.mem_append_left _ hs)) hregular
  · obtain ⟨segment, rfl, -⟩ := mem_indexes h
    exact expand_of_regular hbase hregular

theorem resolve_relative {decode : Binary → Option Json} (hrelative : isRelative specifier = true)
    (h : resolve decode root resolveOpts specifier dir = .ok (.ok path)) :
    tryResolve root (expandFrom specifier dir) resolveOpts.extensions = some path := by
  have hclass : classify specifier = .builtin ∨ classify specifier = .relative := by
    unfold classify
    split
    · exact .inl rfl
    · split
      · rename_i hhash
        obtain ⟨rest, rfl⟩ := List.isPrefixOf_iff_prefix.1 hhash
        cases hrelative
      · exact .inr rfl
  unfold resolve at h
  rcases hclass with hclass | hclass
  · rw [hclass] at h
    cases h
  · rw [hclass] at h
    dsimp only at h
    cases hfound : tryResolve root (expandFrom specifier dir) resolveOpts.extensions with
    | none =>
      rw [hfound] at h
      cases h
    | some path' =>
      rw [hfound] at h
      cases h
      rfl

/-! ### Labels -/

theorem shared_prefix_left : ∀ path dir : FilePath, Split.shared path dir <+: path
  | [], _ => List.nil_prefix
  | _ :: _, [] => List.nil_prefix
  | a :: path, b :: dir => by
      unfold Split.shared
      split
      · exact List.cons_prefix_cons.2 ⟨rfl, shared_prefix_left path dir⟩
      · exact List.nil_prefix

theorem shared_prefix_right : ∀ path dir : FilePath, Split.shared path dir <+: dir
  | [], _ => List.nil_prefix
  | _ :: _, [] => List.nil_prefix
  | a :: path, b :: dir => by
      unfold Split.shared
      split
      · rename_i hab
        exact List.cons_prefix_cons.2 ⟨hab, shared_prefix_right path dir⟩
      · exact List.nil_prefix

theorem relativeTo_inside {path dir : FilePath} (hdir : FilePath.Expanded dir)
    (h : dir <+: path.expand) :
    Split.relativeTo ⟨true, path⟩ ⟨true, dir⟩ = ⟨false, path.expand.drop dir.length⟩ := by
  unfold Split.relativeTo
  dsimp only
  rw [FilePath.expand_of_expanded hdir, if_pos h]

theorem relativeTo_outside (hdir : FilePath.Expanded dir) (h : ¬ dir <+: path.expand) :
    Split.relativeTo ⟨true, path⟩ ⟨true, dir⟩ = ⟨true, path.expand⟩ := by
  unfold Split.relativeTo
  dsimp only
  rw [FilePath.expand_of_expanded hdir, if_neg h]

theorem relativeLabel_expand (path projectRoot : FilePath) :
    relativeLabel path.expand projectRoot = relativeLabel path projectRoot := by
  unfold relativeLabel Split.relativeTo
  dsimp only
  rw [FilePath.expand_expand]

theorem segments_text (hpath : path ≠ []) :
    FilePath.segments (Split.text ⟨false, path⟩) = path := by
  unfold Split.text Split.render
  dsimp only
  rw [if_neg (fun h => (by cases h.1)), if_neg Bool.false_ne_true, if_neg hpath]
  exact FilePath.segments_render hpath

theorem render_cons (segment : Segment) (hpath : path ≠ []) :
    FilePath.render (segment :: path) = segment.val ++ slash :: path.render := by
  cases path with
  | nil => exact absurd rfl hpath
  | cons next path => rfl

theorem ensureRelativePrefix_render (path dir : FilePath) :
    [slash].isPrefixOf (ensureRelativePrefix (Split.render ⟨false, path⟩)) = false ∧
      climb dir (FilePath.segments (ensureRelativePrefix (Split.render ⟨false, path⟩))) =
        climb dir path := by
  by_cases hpath : path = []
  · subst hpath
    have hsegments : FilePath.segments (ensureRelativePrefix (Split.render ⟨false, []⟩)) =
        [FilePath.dot, FilePath.dot] := by
      decide
    rw [hsegments]
    exact ⟨rfl, rfl⟩
  · have hrender : Split.render ⟨false, path⟩ = path.render := by
      unfold Split.render
      dsimp only
      rw [if_neg Bool.false_ne_true, if_neg hpath]
    rw [hrender]
    unfold ensureRelativePrefix
    split
    · rename_i hfront
      rw [FilePath.segments_render hpath]
      refine ⟨?_, rfl⟩
      rcases Bool.or_eq_true_iff.1 hfront with h | h
      · obtain ⟨rest, hrest⟩ := List.isPrefixOf_iff_prefix.1 h
        rw [← hrest]
        rfl
      · obtain ⟨rest, hrest⟩ := List.isPrefixOf_iff_prefix.1 h
        rw [← hrest]
        rfl
    · refine ⟨rfl, ?_⟩
      have hcons : [46, slash] ++ path.render = FilePath.render (FilePath.dot :: path) :=
        (render_cons FilePath.dot hpath).symm
      rw [hcons, FilePath.segments_render (List.cons_ne_nil _ _), climb, if_pos rfl]

/-- **A rewritten specifier climbs from the importer to its file.** -/
theorem relativeImportPath_climb {projectRoot dir target : FilePath}
    (hroot : FilePath.Expanded projectRoot) (hdir : FilePath.Expanded dir)
    (hinside : projectRoot <+: dir) (htarget : projectRoot <+: target.expand) :
    [slash].isPrefixOf (relativeImportPath dir target projectRoot) = false ∧
      climb (dir.drop projectRoot.length)
          (FilePath.segments (relativeImportPath dir target projectRoot)) =
        some (target.expand.drop projectRoot.length) := by
  have hexpand := FilePath.expand_of_expanded hdir
  have hdirLabel : Split.relativeTo ⟨true, dir⟩ ⟨true, projectRoot⟩ =
      ⟨false, dir.drop projectRoot.length⟩ := by
    have hlabel := @relativeTo_inside dir projectRoot hroot (by rwa [hexpand])
    rwa [hexpand] at hlabel
  unfold relativeImportPath
  dsimp only
  rw [hdirLabel, relativeTo_inside hroot htarget]
  generalize htail : target.expand.drop projectRoot.length = tail
  generalize dir.drop projectRoot.length = below
  have hexpanded : FilePath.Expanded tail := by
    intro s hs
    rw [← htail] at hs
    exact FilePath.expanded_expand target s (List.mem_of_mem_drop hs)
  obtain ⟨rest, hrest⟩ := shared_prefix_left tail below
  obtain ⟨up, hup⟩ := shared_prefix_right tail below
  have hrel : Split.relativeTo ⟨false, tail⟩ ⟨false, below⟩ =
      ⟨false, List.replicate up.length FilePath.dotdot ++ rest⟩ := by
    unfold Split.relativeTo
    dsimp only
    generalize Split.shared tail below = common at hrest hup
    subst hrest hup
    rw [List.length_append, Nat.add_sub_cancel_left, List.drop_left]
  rw [hrel]
  obtain ⟨hfront, hclimb⟩ := ensureRelativePrefix_render
    (List.replicate up.length FilePath.dotdot ++ rest) below
  refine ⟨hfront, hclimb.trans ?_⟩
  rw [← hup, climb_up, climb_expanded, hrest]
  intro s hs
  refine hexpanded s ?_
  rw [← hrest]
  exact List.mem_append_right _ hs

/-! ### Bundles -/

section Bundles

variable (decode : Binary → Option Json) (specifiers : Binary → Binary → Option (List Binary))
  (root : Entry)

def Module.file (m : Module) : FilePath := m.absPath.expand

/-- **What a bundle is for**: every file that the entry reaches is in it once, under a label of its
own, and every specifier denotes the label of the file it resolves to. -/
structure Delivers (entry : FilePath) (bundle : Bundle) : Prop where
  once : (bundle.files.map Module.file).Nodup
  reachable : ∀ file, file ∈ bundle.files.map Module.file ↔
    Reachable decode specifiers root entry file
  content : ∀ m ∈ bundle.files, root.read m.file = some m.source ∧
    importsOf specifiers root m.file = some (m.specifiers.map Prod.fst)
  labels : (bundle.files.map fun m => m.label.text).Nodup
  entry : ∃ m ∈ bundle.files, m.file = entry ∧ bundle.entry = m.label.text
  specifiers : ∀ m ∈ bundle.files, ∀ x ∈ m.specifiers, ∀ path,
    resolve decode root resolveOpts x.1 m.file.dirname = .ok (.ok path) →
      ∃ m' ∈ bundle.files, m'.file = path.expand ∧
        denotes (bundle.files.map Module.label) m.label (x.2.apply x.1) = some m'.label

/-- A relative specifier of a file in the project stays there: it is not absolute, does not climb
out of the project, and does not name the root of the file system where a file of it is called as
an extension. -/
structure StaysIn (projectRoot file : FilePath) (specifier : Binary) : Prop where
  relative : [slash].isPrefixOf specifier = false
  climbs : ∃ base, climb (file.dirname.drop projectRoot.length) (FilePath.segments specifier) =
    some base ∧ (projectRoot ++ base = [] → tryExtensions root [] resolveOpts.extensions = none)

structure PlacedAt (entry : FilePath) (opts : BundleOptions) (projectRoot : FilePath) : Prop where
  inside : ∀ file, Reachable decode specifiers root entry file → projectRoot <+: file
  spelled : ∀ path path', Spelling decode specifiers root entry path →
    Spelling decode specifiers root entry path' → path.expand = path'.expand → path = path'
  stays : ∀ file, Reachable decode specifiers root entry file → ∀ specifier path,
    Resolves decode specifiers root file specifier path → isRelative specifier = true →
      StaysIn root projectRoot file specifier
  declared : ∀ label, opts.entry = some label → label = (relativeLabel entry projectRoot).text

def Placed (entry : FilePath) (opts : BundleOptions) : Prop :=
  ∃ project, projectRoot entry (nodeModules root entry opts) = some project ∧
    PlacedAt decode specifiers root entry opts project

end Bundles

/-! ### The labels stand for the files -/

section Labels

variable {decode : Binary → Option Json} {specifiers : Binary → Binary → Option (List Binary)}
  {root : Entry} {entry project : FilePath} {opts : BundleOptions} {files : List Module}

theorem projectRoot_prefix {nodeModules : Option Split}
    (h : projectRoot entry nodeModules = some project) : project <+: entry := by
  unfold projectRoot at h
  split at h
  · cases h
    exact List.dropLast_prefix entry
  · split at h
    · cases h
      exact shared_prefix_left _ _
    · cases h

theorem ne_of_regular {content content' : Binary} (hentry : entry.expand = entry)
    (hread : root.read entry = some content) (hfront : project <+: entry)
    (hne : project ≠ entry) {file : FilePath} (hfile : root.read file = some content') :
    file ≠ project := by
  rintro rfl
  obtain ⟨rest, rfl⟩ := hfront
  have hrest : rest ≠ [] := by
    rintro rfl
    exact hne (List.append_nil file).symm
  obtain ⟨parents, hat⟩ := Entry.located_expand (Entry.read_eq_some_iff.1 hread)
  rw [hentry] at hat
  obtain ⟨entries, parents', hdir⟩ := hat.ancestor hrest
  have hlookup := hdir.lookup
  rw [Entry.read_eq_some_iff.1 hfile] at hlookup
  cases hlookup

structure Inside (project : FilePath) (files : List Module) : Prop where
  expanded : FilePath.Expanded project
  inside : ∀ m ∈ files, project <+: m.file
  proper : ∀ m ∈ files, m.file ≠ project
  label : ∀ m ∈ files, m.label = ⟨false, m.file.drop project.length⟩

variable {m : Module}

theorem Inside.file_eq (h : Inside project files) (hm : m ∈ files) :
    m.file = project ++ m.label.segments := by
  obtain ⟨rest, hrest⟩ := h.inside m hm
  rw [h.label m hm, ← hrest, List.drop_left]

theorem Inside.segments_ne_nil (h : Inside project files) (hm : m ∈ files) :
    m.label.segments ≠ [] := by
  intro hnil
  have hfile := h.file_eq hm
  rw [hnil, List.append_nil] at hfile
  exact h.proper m hm hfile

theorem Inside.mem_labels_iff (h : Inside project files) (path : FilePath) :
    ⟨false, path⟩ ∈ files.map Module.label ↔ ∃ m ∈ files, m.file = project ++ path := by
  rw [List.mem_map]
  refine exists_congr fun m => and_congr_right fun hm => ⟨fun hlabel => ?_, fun hfile => ?_⟩
  · rw [h.file_eq hm, hlabel]
  · rw [h.label m hm, hfile, List.drop_left]

theorem Inside.dirname_eq (h : Inside project files) (hm : m ∈ files) :
    m.file.dirname = project ++ m.label.segments.dropLast := by
  rw [h.file_eq hm]
  exact List.dropLast_append_of_ne_nil (h.segments_ne_nil hm)

variable {m' : Module}

theorem Inside.file_eq_of_text (h : Inside project files) (hm : m ∈ files) (hm' : m' ∈ files)
    (htext : m.label.text = m'.label.text) : m.file = m'.file := by
  have hsegments := congrArg FilePath.segments htext
  have hlabel : m.label = ⟨false, m.label.segments⟩ := by rw [h.label m hm]
  have hlabel' : m'.label = ⟨false, m'.label.segments⟩ := by rw [h.label m' hm']
  rw [hlabel, hlabel', segments_text (h.segments_ne_nil hm),
    segments_text (h.segments_ne_nil hm')] at hsegments
  rw [h.file_eq hm, h.file_eq hm', hsegments]

variable {base : FilePath} {specifier : Binary}

theorem denotes_of_find {labels : List Split} {importer label : Split}
    (himporter : importer.absolute = false) (hlabel : label.absolute = false)
    (hrelative : [slash].isPrefixOf specifier = false)
    (hclimb : climb importer.segments.dropLast (FilePath.segments specifier) = some base)
    (hfind : (candidates base).find? (fun path => ⟨false, path⟩ ∈ labels) = some label.segments) :
    denotes labels importer specifier = some label := by
  unfold denotes
  rw [hrelative, if_neg Bool.false_ne_true, hclimb, himporter]
  dsimp only
  rw [List.find?_map]
  obtain ⟨absolute, segments⟩ := label
  cases hlabel
  exact congrArg (Option.map _) hfind

variable {path : FilePath}

/-- **A rewritten specifier denotes the label of its file.** -/
theorem Inside.denotes_rewritten (h : Inside project files) (hm : m ∈ files) (hm' : m' ∈ files)
    (hfile : m'.file = path.expand) :
    denotes (files.map Module.label) m.label (relativeImportPath m.file.dirname path project) =
      some m'.label := by
  have hdir : FilePath.Expanded m.file.dirname := (FilePath.expanded_expand m.absPath).dropLast
  obtain ⟨hrelative, hclimb⟩ := relativeImportPath_climb h.expanded hdir
    (by rw [h.dirname_eq hm]; exact List.prefix_append _ _) (hfile ▸ h.inside m' hm')
  rw [h.dirname_eq hm, List.drop_left, ← h.dirname_eq hm, ← hfile, h.file_eq hm',
    List.drop_left] at hclimb
  refine denotes_of_find (by rw [h.label m hm]) (by rw [h.label m' hm']) hrelative hclimb ?_
  have hmem : ⟨false, m'.label.segments⟩ ∈ files.map Module.label :=
    (h.mem_labels_iff _).2 ⟨m', hm', h.file_eq hm'⟩
  unfold candidates withExtensions
  rw [if_neg (h.segments_ne_nil hm'), List.cons_append, List.find?_cons, decide_eq_true hmem]

theorem find?_narrow {α : Type} {l : List α} {p q : α → Bool} {a : α} (h : l.find? p = some a)
    (himp : ∀ b, q b = true → p b = true) (ha : q a = true) : l.find? q = some a := by
  induction l with
  | nil => cases h
  | cons b l ih =>
    rw [List.find?_cons] at h ⊢
    cases hb : p b with
    | true =>
      rw [hb] at h
      cases h
      rw [ha]
    | false =>
      rw [hb] at h
      have hqb : q b = false := by
        cases hq : q b with
        | false => rfl
        | true => exact absurd (himp b hq) (by rw [hb]; exact Bool.false_ne_true)
      rw [hqb]
      exact ih h

theorem expandFrom_relative (h : [slash].isPrefixOf specifier = false) (dir : FilePath) :
    expandFrom specifier dir = (dir.join specifier).expand := by
  unfold expandFrom
  rw [h, if_neg Bool.false_ne_true]

theorem Inside.expandFrom_eq (h : Inside project files) (hm : m ∈ files)
    (hrelative : [slash].isPrefixOf specifier = false)
    (hclimb : climb m.label.segments.dropLast (FilePath.segments specifier) = some base) :
    expandFrom specifier m.file.dirname = project ++ base := by
  have hdir : FilePath.Expanded m.file.dirname := (FilePath.expanded_expand m.absPath).dropLast
  rw [expandFrom_relative hrelative]
  unfold FilePath.join
  rw [FilePath.expand_append, FilePath.expand_of_expanded hdir, h.dirname_eq hm]
  exact foldl_of_climb project hclimb

theorem find_candidates {base path tail : FilePath} (hroot : root.isRegular project = false)
    (hnamed : project ++ base = [] → tryExtensions root [] resolveOpts.extensions = none)
    (htail : tail ≠ []) (hpath : path = project ++ tail)
    (h : (withExtensions (project ++ base) ++ indexes (project ++ base)).find? root.isRegular =
      some path) :
    (candidates base).find? (fun c => root.isRegular (project ++ c)) = some tail := by
  have hmap : ((candidates base).map (project ++ ·)).find? root.isRegular = some path := by
    unfold candidates
    by_cases hbase : base = []
    · subst hbase
      rw [List.append_nil] at h hnamed
      rw [if_pos rfl, List.nil_append, ← indexes_append, List.append_nil]
      rw [List.find?_append] at h
      -- no file named like the project root with an extension is in the project
      cases hfirst : (withExtensions project).find? root.isRegular with
      | none =>
        rw [hfirst, Option.none_or] at h
        exact h
      | some found =>
        rw [hfirst, Option.some_or] at h
        cases h
        exfalso
        have hregular := List.find?_some hfirst
        rcases List.mem_cons.1 (List.mem_of_find?_eq_some hfirst) with rfl | hmem
        · rw [hroot] at hregular
          cases hregular
        · obtain ⟨extension, hext, rfl⟩ := List.mem_map.1 hmem
          rcases List.eq_nil_or_concat project with rfl | ⟨dir, segment, rfl⟩
          · exact List.find?_eq_none.1 (hnamed rfl) _ hmem hregular
          · rw [List.concat_eq_append] at hpath
            obtain ⟨segment', happend, -⟩ :=
              append_concat dir segment (slash_notMem_extension extension hext)
            rw [happend] at hpath
            have hlength := congrArg List.length hpath
            simp only [List.length_append, List.length_singleton] at hlength
            exact htail (List.length_eq_zero_iff.1 (by omega))
    · rw [if_neg hbase, List.map_append, ← withExtensions_append project hbase, ← indexes_append]
      exact h
  rw [List.find?_map] at hmap
  obtain ⟨c, hc, hcpath⟩ := Option.map_eq_some_iff.1 hmap
  rw [hpath] at hcpath
  rw [← List.append_cancel_left hcpath]
  exact hc

/-- **A kept specifier that stays in the project denotes the label of its file.** -/
theorem Inside.denotes_kept (h : Inside project files) (hroot : root.isRegular project = false)
    (hregular : ∀ m ∈ files, root.isRegular m.file = true) (hm : m ∈ files) (hm' : m' ∈ files)
    (hrelative : isRelative specifier = true)
    (hresolve : resolve decode root resolveOpts specifier m.file.dirname = .ok (.ok path))
    (hfile : m'.file = path.expand) (hstays : StaysIn root project m.file specifier) :
    denotes (files.map Module.label) m.label specifier = some m'.label := by
  obtain ⟨hnoslash, base, hclimb, hnamed⟩ := hstays
  rw [h.dirname_eq hm, List.drop_left] at hclimb
  have htry := resolve_relative hrelative hresolve
  have hbase := h.expandFrom_eq hm hnoslash hclimb
  have hexpanded : FilePath.Expanded (project ++ base) := by
    rw [← hbase, expandFrom_relative hnoslash]
    exact FilePath.expanded_expand _
  rw [hbase, tryResolve_eq hexpanded] at htry
  have hpath : path.expand = path :=
    expand_of_candidate hexpanded (List.mem_of_find?_eq_some htry) (List.find?_some htry)
  have htail : path = project ++ m'.label.segments := by
    rw [← hpath, ← hfile, ← h.file_eq hm']
  have hfind := find_candidates hroot hnamed (h.segments_ne_nil hm') htail htry
  refine denotes_of_find (by rw [h.label m hm]) (by rw [h.label m' hm']) hnoslash hclimb ?_
  refine find?_narrow hfind (fun c hc => ?_) ?_
  · obtain ⟨n, hn, hnfile⟩ := (h.mem_labels_iff c).1 (of_decide_eq_true hc)
    rw [← hnfile]
    exact hregular n hn
  · exact decide_eq_true ((h.mem_labels_iff _).2 ⟨m', hm', h.file_eq hm'⟩)

theorem extension_ne_index : ∀ extension ∈ resolveOpts.extensions,
    ∀ extension' ∈ resolveOpts.extensions, extension ≠ indexName ++ extension' := by
  decide

/-- **A kept specifier that denotes the label of its file stays in the project.** -/
theorem Inside.staysIn (h : Inside project files) (hroot : root.isRegular project = false)
    (hm : m ∈ files) (hm' : m' ∈ files) (hrelative : isRelative specifier = true)
    (hresolve : resolve decode root resolveOpts specifier m.file.dirname = .ok (.ok path))
    (hfile : m'.file = path.expand)
    (hdenotes : denotes (files.map Module.label) m.label specifier = some m'.label) :
    StaysIn root project m.file specifier := by
  have htry := resolve_relative hrelative hresolve
  unfold denotes at hdenotes
  cases hnoslash : [slash].isPrefixOf specifier with
  | true =>
    rw [hnoslash, if_pos rfl] at hdenotes
    cases hdenotes
  | false =>
    rw [hnoslash, if_neg Bool.false_ne_true] at hdenotes
    cases hclimb : climb m.label.segments.dropLast (FilePath.segments specifier) with
    | none =>
      rw [hclimb] at hdenotes
      cases hdenotes
    | some base =>
      rw [hclimb] at hdenotes
      refine ⟨hnoslash, base, ?_, fun hnil => ?_⟩
      · rw [h.dirname_eq hm, List.drop_left]
        exact hclimb
      · -- the root of the file system stands for its index alone
        obtain ⟨rfl, rfl⟩ := List.append_eq_nil_iff.1 hnil
        cases hfound : tryExtensions root [] resolveOpts.extensions with
        | none => rfl
        | some found =>
          exfalso
          rw [h.expandFrom_eq hm hnoslash hclimb] at htry
          unfold tryResolve at htry
          rw [List.append_nil, hroot, if_neg Bool.false_ne_true, hfound] at htry
          cases htry
          obtain ⟨extension, hext, hpath⟩ :=
            List.mem_map.1 (List.mem_of_find?_eq_some hfound)
          have hsegments : FilePath.append [] extension = [⟨extension, extension_ne_nil _ hext,
              slash_notMem_extension _ hext⟩] :=
            FilePath.segments_val ⟨extension, extension_ne_nil _ hext,
              slash_notMem_extension _ hext⟩
          rw [hsegments] at hpath
          subst hpath
          have hexpand := @expand_of_regular root [] (fun s hs => (by cases hs)) _
            (List.find?_some hfound)
          obtain ⟨index, hindex, hlabel⟩ :=
            List.mem_map.1 (List.mem_of_find?_eq_some hdenotes)
          obtain ⟨segment, rfl, extension', hext', hval⟩ := mem_indexes hindex
          have hsame := (h.file_eq hm').symm.trans (hfile.trans hexpand)
          rw [← hlabel, List.nil_append, List.nil_append, List.nil_append] at hsame
          cases hsame
          exact extension_ne_index extension hext extension' hext' hval

/-! ### A bundle delivers exactly when its files are placed -/

/-- What the results about a collection share. -/
structure CollectedAbove (decode : Binary → Option Json)
    (specifiers : Binary → Binary → Option (List Binary)) (root : Entry)
    (project entry : FilePath) (files : List Module) : Prop extends
    Collected decode specifiers root project entry files where
  isExpanded : entry.expand = entry
  isPrefix : project <+: entry
  isProper : project ≠ entry
  readEntry : ∃ content, root.read entry = some content

theorem CollectedAbove.expanded
    (h : CollectedAbove decode specifiers root project entry files) :
    FilePath.Expanded project := by
  intro s hs
  refine FilePath.expanded_expand entry s ?_
  rw [h.isExpanded]
  exact h.isPrefix.subset hs

theorem CollectedAbove.root_not_regular
    (h : CollectedAbove decode specifiers root project entry files) :
    root.isRegular project = false := by
  cases hregular : root.isRegular project with
  | false => rfl
  | true =>
    obtain ⟨content, hread⟩ := h.readEntry
    obtain ⟨content', hproject⟩ := Entry.isRegular_iff_read.1 hregular
    exact absurd rfl (ne_of_regular h.isExpanded hread h.isPrefix h.isProper hproject)

theorem CollectedAbove.read_file (h : CollectedAbove decode specifiers root project entry files)
    (hm : m ∈ files) : root.read m.file = some m.source := by
  obtain ⟨behind, hv⟩ := h.visits m hm
  exact Entry.read_expand hv.content

theorem CollectedAbove.inside
    (h : CollectedAbove decode specifiers root project entry files)
    (hinside : ∀ m ∈ files, project <+: m.file) : Inside project files := by
  obtain ⟨content, hread⟩ := h.readEntry
  refine ⟨h.expanded, hinside, fun m hm => ?_, fun m hm => ?_⟩
  · exact ne_of_regular h.isExpanded hread h.isPrefix h.isProper (h.read_file hm)
  · obtain ⟨behind, hv⟩ := h.visits m hm
    rw [hv.label]
    exact relativeTo_inside h.expanded (hinside m hm)

theorem CollectedAbove.file_of_resolve
    (h : CollectedAbove decode specifiers root project entry files) (hm : m ∈ files)
    (hspecifier : specifier ∈ m.specifiers.map Prod.fst)
    (hresolve : resolve decode root resolveOpts specifier m.file.dirname = .ok (.ok path)) :
    Resolves decode specifiers root m.file specifier path ∧
      ∃ m' ∈ files, m'.file = path.expand := by
  obtain ⟨behind, hv⟩ := h.visits m hm
  have hresolves : Resolves decode specifiers root m.file specifier path :=
    ⟨⟨_, hv.imports, hspecifier⟩, hresolve⟩
  have hreach := (h.reachable m.file).2 ⟨m, hm, rfl⟩
  exact ⟨hresolves, (h.reachable path.expand).1 (hreach.tail ⟨specifier, path, hresolves, rfl⟩)⟩

/-- **Where the files are placed the bundle delivers them.** -/
theorem CollectedAbove.delivers
    (h : CollectedAbove decode specifiers root project entry files)
    (hplaced : PlacedAt decode specifiers root entry opts project) :
    Delivers decode specifiers root entry
      ⟨files, opts.entry.getD (relativeLabel entry project).text⟩ := by
  have hinside : Inside project files := h.inside fun m hm =>
    hplaced.inside m.file ((h.reachable m.file).2 ⟨m, hm, rfl⟩)
  have hunique : ∀ m ∈ files, ∀ m' ∈ files, m.file = m'.file → m = m' := by
    intro m hm m' hm' hfile
    refine List.inj_on_of_nodup_map h.nodup hm hm' ?_
    exact hplaced.spelled _ _ ((h.spellings _).1 (List.mem_map_of_mem hm))
      ((h.spellings _).1 (List.mem_map_of_mem hm')) hfile
  refine ⟨h.nodup.of_map.map_on hunique, fun file => ?_, fun m hm => ?_, ?_, ?_, ?_⟩
  · exact List.mem_map.trans (h.reachable file).symm
  · obtain ⟨behind, hv⟩ := h.visits m hm
    exact ⟨h.read_file hm, hv.imports⟩
  · exact h.nodup.of_map.map_on fun m hm m' hm' htext =>
      hunique m hm m' hm' (hinside.file_eq_of_text hm hm' htext)
  · obtain ⟨m, hm, hfile⟩ := (h.reachable entry).1 .refl
    refine ⟨m, hm, hfile, ?_⟩
    obtain ⟨behind, hv⟩ := h.visits m hm
    have hlabel : m.label = relativeLabel entry project := by
      rw [hv.label, ← hfile, relativeLabel_expand]
    cases hdeclared : opts.entry with
    | none => rw [hlabel]; rfl
    | some label =>
      rw [hlabel, ← hplaced.declared label hdeclared]
      rfl
  · intro m hm x hx path hresolve
    obtain ⟨hresolves, m', hm', hfile⟩ :=
      h.file_of_resolve hm (List.mem_map_of_mem hx) hresolve
    obtain ⟨behind, hv⟩ := h.visits m hm
    refine ⟨m', hm', hfile, ?_⟩
    rw [hv.decided x hx path hresolve]
    cases hrelative : isRelative x.1 with
    | true =>
      refine hinside.denotes_kept h.root_not_regular (fun n hn => ?_) hm hm' hrelative hresolve
        hfile ?_
      · exact Entry.isRegular_iff_read.2 ⟨_, h.read_file hn⟩
      · exact hplaced.stays m.file ((h.reachable m.file).2 ⟨m, hm, rfl⟩) x.1 path hresolves
          hrelative
    | false => exact hinside.denotes_rewritten hm hm' hfile

/-- **Where the bundle delivers the files they are placed.** -/
theorem CollectedAbove.placed
    (h : CollectedAbove decode specifiers root project entry files)
    (hdelivers : Delivers decode specifiers root entry
      ⟨files, opts.entry.getD (relativeLabel entry project).text⟩) :
    PlacedAt decode specifiers root entry opts project := by
  have hallInside : ∀ file, Reachable decode specifiers root entry file → project <+: file := by
    intro file hfile
    induction hfile with
    | refl => exact h.isPrefix
    | tail hreach himports ih =>
      obtain ⟨specifier, path, hresolves, rfl⟩ := himports
      obtain ⟨m, hm, rfl⟩ := (h.reachable _).1 hreach
      obtain ⟨behind, hv⟩ := h.visits m hm
      by_contra houtside
      -- the label of the importer is relative, the one of the file is not
      obtain ⟨⟨found, hfound, hmem⟩, hresolve⟩ := hresolves
      rw [hv.imports] at hfound
      rw [← Option.some.inj hfound] at hmem
      obtain ⟨x, hx, rfl⟩ := List.mem_map.1 hmem
      obtain ⟨m', hm', hfile', hdenotes⟩ := hdelivers.specifiers m hm x hx path hresolve
      obtain ⟨behind', hv'⟩ := h.visits m' hm'
      have habsolute := denotes_absolute hdenotes
      have hlabel : m.label = ⟨false, _⟩ := hv.label.trans (relativeTo_inside h.expanded ih)
      have hlabel' : m'.label = ⟨true, m'.file⟩ := by
        refine hv'.label.trans (relativeTo_outside h.expanded ?_)
        have hpath : m'.absPath.expand = path.expand := hfile'
        rwa [hpath]
      rw [hlabel, hlabel'] at habsolute
      cases habsolute
  have hinside : Inside project files := h.inside fun m hm =>
    hallInside m.file ((h.reachable m.file).2 ⟨m, hm, rfl⟩)
  refine ⟨hallInside, fun path path' hpath hpath' hexpand => ?_, ?_, fun label hlabel => ?_⟩
  · obtain ⟨m, hm, rfl⟩ := List.mem_map.1 ((h.spellings path).2 hpath)
    obtain ⟨m', hm', rfl⟩ := List.mem_map.1 ((h.spellings path').2 hpath')
    have hsame : m = m' := by
      refine List.inj_on_of_nodup_map hdelivers.labels hm hm' ?_
      show m.label.text = m'.label.text
      rw [hinside.label m hm, hinside.label m' hm']
      unfold Module.file
      rw [hexpand]
    rw [hsame]
  · intro file hfile specifier path hresolves hrelative
    obtain ⟨m, hm, rfl⟩ := (h.reachable file).1 hfile
    obtain ⟨behind, hv⟩ := h.visits m hm
    obtain ⟨⟨found, hfound, hmem⟩, hresolve⟩ := hresolves
    rw [hv.imports] at hfound
    rw [← Option.some.inj hfound] at hmem
    obtain ⟨x, hx, rfl⟩ := List.mem_map.1 hmem
    obtain ⟨m', hm', hfile', hdenotes⟩ := hdelivers.specifiers m hm x hx path hresolve
    rw [hv.decided x hx path hresolve, hrelative] at hdenotes
    exact hinside.staysIn h.root_not_regular hm hm' hrelative hresolve hfile' hdenotes
  · obtain ⟨m, hm, hfile, hdeclared⟩ := hdelivers.entry
    obtain ⟨behind, hv⟩ := h.visits m hm
    rw [hlabel] at hdeclared
    refine hdeclared.trans ?_
    rw [hv.label, ← hfile]
    exact congrArg Split.text (relativeLabel_expand m.absPath project).symm

end Labels

/-! ### The bundler -/

section Run

variable (decode : Binary → Option Json) (specifiers : Binary → Binary → Option (List Binary))
  (root : Entry)

def Bundles (entryPath : FilePath) (opts : BundleOptions) : Prop :=
  ∃ bound, ∀ fuel, bound ≤ fuel → ∃ bundle,
    bundleFile decode specifiers root fuel entryPath opts = some (.ok bundle) ∧
      Delivers decode specifiers root entryPath.expand bundle

variable {decode specifiers root}

variable {entryPath : FilePath} {opts : BundleOptions}

theorem bundles_iff_placed
    (hne : projectRoot entryPath.expand (nodeModules root entryPath.expand opts) ≠ some
    entryPath.expand) (hall : AllResolve decode specifiers root entryPath.expand) :
    Bundles decode specifiers root entryPath opts ↔
      Placed decode specifiers root entryPath.expand opts := by
  have hentry : entryPath.expand.expand = entryPath.expand := FilePath.expand_expand entryPath
  have hread : ∃ content, root.read entryPath.expand = some content := by
    obtain ⟨found, hfound, -⟩ := hall entryPath.expand .refl
    obtain ⟨content, hread, -⟩ := Option.bind_eq_some_iff.1 hfound
    exact ⟨content, hread⟩
  unfold Bundles Placed bundleFile
  dsimp only
  cases hproject : projectRoot entryPath.expand (nodeModules root entryPath.expand opts) with
  | none =>
    refine iff_of_false (fun ⟨bound, hruns⟩ => ?_) fun ⟨project, h, _⟩ => (by cases h)
    obtain ⟨bundle, hrun, -⟩ := hruns bound le_rfl
    cases hrun
  | some project =>
    rw [hproject] at hne
    obtain ⟨bound, hcollects⟩ := collects hentry hall project
    have habove : ∀ {files : List Module},
        Collected decode specifiers root project entryPath.expand files →
        CollectedAbove decode specifiers root project entryPath.expand files := fun hcollected =>
      ⟨hcollected, hentry, projectRoot_prefix hproject, fun h => hne (congrArg some h), hread⟩
    constructor
    · rintro ⟨bound', hruns⟩
      obtain ⟨files, hfiles, hcollected⟩ := hcollects (max bound bound') (le_max_left _ _)
      obtain ⟨bundle, hrun, hdelivers⟩ := hruns (max bound bound') (le_max_right _ _)
      dsimp only at hrun
      rw [hfiles] at hrun
      cases hrun
      exact ⟨project, rfl, (habove hcollected).placed hdelivers⟩
    · rintro ⟨project', hproject', hplaced⟩
      cases hproject'
      refine ⟨bound, fun fuel hfuel => ?_⟩
      obtain ⟨files, hfiles, hcollected⟩ := hcollects fuel hfuel
      dsimp only
      rw [hfiles]
      exact ⟨_, rfl, (habove hcollected).delivers hplaced⟩

theorem fails_of_unresolved {specifier : Binary}
    (h : Unresolved decode specifiers root entryPath.expand specifier) :
    ∃ bound, ∀ fuel, bound ≤ fuel → ∃ e,
      bundleFile decode specifiers root fuel entryPath opts = some (.error e) ∧
        (e = .functionClause ∨ ∃ path, Reachable decode specifiers root entryPath.expand
          path.expand ∧ FailsAt decode specifiers root path e) := by
  unfold bundleFile
  dsimp only
  cases projectRoot entryPath.expand (nodeModules root entryPath.expand opts) with
  | none => exact ⟨0, fun fuel _ => ⟨.functionClause, rfl, .inl rfl⟩⟩
  | some project =>
    obtain ⟨bound, hfails⟩ := fails (FilePath.expand_expand entryPath) h project
    refine ⟨bound, fun fuel hfuel => ?_⟩
    obtain ⟨e, path, hrun, hreach, hat⟩ := hfails fuel hfuel
    dsimp only
    rw [hrun]
    exact ⟨e, rfl, .inr ⟨path, hreach, hat⟩⟩

/-- **The bundler**: where every specifier resolves it ends with a bundle that delivers the files of
the entry exactly if they are placed in the project root, and where one does not it ends with a
failure. -/
theorem bundleFile_iff (entryPath : FilePath) (opts : BundleOptions)
    (hne : projectRoot entryPath.expand (nodeModules root entryPath.expand opts) ≠
      some entryPath.expand) :
    (AllResolve decode specifiers root entryPath.expand →
      (Bundles decode specifiers root entryPath opts ↔
        Placed decode specifiers root entryPath.expand opts)) ∧
    ∀ specifier, Unresolved decode specifiers root entryPath.expand specifier →
      ∃ bound, ∀ fuel, bound ≤ fuel → ∃ e,
        bundleFile decode specifiers root fuel entryPath opts = some (.error e) ∧
          (e = .functionClause ∨ ∃ path, Reachable decode specifiers root entryPath.expand
            path.expand ∧ FailsAt decode specifiers root path e) :=
  ⟨bundles_iff_placed hne, fun _ => fails_of_unresolved⟩

end Run

/-! ### A package above the project -/

def packageP : Binary × Entry :=
  (.ofString "p", .dir [(.ofString "index.js", .file [])])

/-- An application with packages of its own, and packages above it. -/
def treeWith (own above : List (Binary × Entry)) : Entry :=
  .dir [(.ofString "app", .dir [(.ofString "main.js", .file [1]),
    (.ofString "node_modules", .dir own)]), (.ofString "node_modules", .dir above)]

def mainPath : FilePath := FilePath.segments (.ofString "/app/main.js")

def importP (source _name : Binary) : Option (List Binary) :=
  some (if source = [1] then [.ofString "p"] else [])

def noOptions : BundleOptions := ⟨none, none⟩

/-- The result for the application with its package in place. -/
theorem bundleFile_iff_own :
    projectRoot mainPath.expand (nodeModules (treeWith [packageP] []) mainPath.expand noOptions) ≠
      some mainPath.expand ∧
    (AllResolve (fun _ => none) importP (treeWith [packageP] []) mainPath.expand →
      (Bundles (fun _ => none) importP (treeWith [packageP] []) mainPath noOptions ↔
        Placed (fun _ => none) importP (treeWith [packageP] []) mainPath.expand noOptions)) := by
  have hne : projectRoot mainPath.expand
      (nodeModules (treeWith [packageP] []) mainPath.expand noOptions) ≠ some mainPath.expand := by
    decide
  exact ⟨hne, (bundleFile_iff mainPath noOptions hne).1⟩

theorem allResolve_above :
    AllResolve (fun _ => none) importP (treeWith [] [packageP]) mainPath.expand := by
  have hmain : importsOf importP (treeWith [] [packageP]) mainPath =
      some [.ofString "p"] := by rfl
  have hp : resolve (fun _ => none) (treeWith [] [packageP]) resolveOpts (.ofString "p")
      (FilePath.dirname mainPath) =
        .ok (.ok (FilePath.segments (.ofString "/node_modules/p/index.js"))) := by rfl
  have hindex : importsOf importP (treeWith [] [packageP])
      (FilePath.segments (.ofString "/node_modules/p/index.js")) = some [] := by rfl
  have hexpand : FilePath.expand mainPath = mainPath := by decide
  rw [hexpand]
  intro file hfile
  have hfiles : file = mainPath ∨
      file = FilePath.segments (.ofString "/node_modules/p/index.js") := by
    induction hfile with
    | refl => exact .inl rfl
    | tail _ himports ih =>
      obtain ⟨specifier, path, ⟨⟨found, hfound, hmem⟩, hresolve⟩, rfl⟩ := himports
      rcases ih with rfl | rfl
      · rw [hmain] at hfound
        cases hfound
        rw [List.mem_singleton.1 hmem, hp] at hresolve
        cases hresolve
        exact .inr (by decide)
      · rw [hindex] at hfound
        cases hfound
        cases hmem
  rcases hfiles with rfl | rfl
  · refine ⟨_, hmain, fun specifier hmem => ?_⟩
    rw [List.mem_singleton.1 hmem]
    exact .inl ⟨_, hp⟩
  · exact ⟨_, hindex, fun specifier hmem => (by cases hmem)⟩

/-- The package becomes `.//node_modules/p/index.js`, which denotes no label. -/
theorem package_above :
    ¬ ∀ (decode : Binary → Option Json) (specifiers : Binary → Binary → Option (List Binary))
      (root : Entry) (entryPath : FilePath) (opts : BundleOptions),
      AllResolve decode specifiers root entryPath.expand →
        Bundles decode specifiers root entryPath opts := by
  intro hall
  obtain ⟨bound, hruns⟩ := hall (fun _ => none) importP (treeWith [] [packageP]) mainPath noOptions
    allResolve_above
  obtain ⟨bundle, hrun, hdelivers⟩ := hruns (bound + 3) (Nat.le_add_right _ _)
  have hbundle : bundleFile (fun _ => none) importP (treeWith [] [packageP]) (bound + 3) mainPath
      noOptions = some (.ok ⟨[
        ⟨mainPath, ⟨false, FilePath.segments (.ofString "main.js")⟩, [1],
          [(.ofString "p", .rewrite (.ofString ".//node_modules/p/index.js"))]⟩,
        ⟨FilePath.segments (.ofString "/node_modules/p/index.js"),
          ⟨true, FilePath.segments (.ofString "/node_modules/p/index.js")⟩, [], []⟩],
        .ofString "main.js"⟩) := by
    rfl
  rw [hbundle] at hrun
  cases hrun
  obtain ⟨m', -, -, hdenotes⟩ := hdelivers.specifiers _ (List.mem_cons_self ..) _
    (List.mem_cons_self ..) (FilePath.segments (.ofString "/node_modules/p/index.js")) (by rfl)
  have hnone : denotes [⟨false, FilePath.segments (.ofString "main.js")⟩,
      ⟨true, FilePath.segments (.ofString "/node_modules/p/index.js")⟩]
      ⟨false, FilePath.segments (.ofString "main.js")⟩
      (.ofString ".//node_modules/p/index.js") = none := by
    decide
  have hcontra := hnone.symm.trans hdenotes
  cases hcontra

end Bundler

end QuickBeam.Js
