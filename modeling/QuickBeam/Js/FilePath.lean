import Mathlib.Data.Finite.Prod
import Mathlib.Data.List.Induction
import Mathlib.Data.Set.Finite.Lattice
import QuickBeam.Vm.Program.Function

/-!
# Absolute paths and file systems

An absolute path is the list of its segments, the root the empty list.  A segment may be `.` or
`..`: joining leaves them where they are, `Path.expand/1` takes them out, and the file system goes
by them when it looks a path up.
-/

namespace QuickBeam.Js

open QuickBeam.Vm.Program

def slash : UInt8 := 47

/-- A part of a path: a string that is not empty and has no slash. -/
abbrev Segment := { s : Binary // s ≠ [] ∧ slash ∉ s }

abbrev FilePath := List Segment

namespace FilePath

def dot : Segment := ⟨[46], by decide⟩

def dotdot : Segment := ⟨[46, 46], by decide⟩

/-- The segments of a string: `Path.split/1` without the root. -/
def segments (path : Binary) : FilePath :=
  (path.splitOn slash).filterMap fun s => if h : s ≠ [] ∧ slash ∉ s then some ⟨s, h⟩ else none

def render (path : FilePath) : Binary := [slash].intercalate (path.map Subtype.val)

def join (dir : FilePath) (path : Binary) : FilePath := dir ++ segments path

def dirname (path : FilePath) : FilePath := path.dropLast

def append (path : FilePath) (extension : Binary) : FilePath :=
  match path.getLast? with
  | some last => path.dropLast ++ segments (last.val ++ extension)
  | none => segments extension

variable {path : FilePath}

/-- **The segments of a rendered path.** -/
theorem segments_render (hpath : path ≠ []) : segments path.render = path := by
  have hsplit : path.render.splitOn slash = path.map Subtype.val := by
    refine List.splitOn_intercalate _ ?_ ?_
    · intro s hs
      obtain ⟨segment, -, rfl⟩ := List.mem_map.1 hs
      exact segment.2.2
    · exact fun h => hpath (List.map_eq_nil_iff.1 h)
  unfold segments
  rw [hsplit, List.filterMap_map]
  refine (List.filterMap_congr fun segment _ => ?_).trans List.filterMap_some
  exact dif_pos segment.2

theorem segments_val (segment : Segment) : segments segment.val = [segment] := by
  have h := segments_render (List.cons_ne_nil segment [])
  simpa [render, List.intercalate] using h

def expandStep (path : FilePath) (segment : Segment) : FilePath :=
  if segment = dot then path
  else if segment = dotdot then path.dropLast
  else path ++ [segment]

def expand (path : FilePath) : FilePath := path.foldl expandStep []

def Expanded (path : FilePath) : Prop := ∀ segment ∈ path, segment ≠ dot ∧ segment ≠ dotdot

theorem foldl_expandStep (hp : Expanded path) (start : FilePath) :
    path.foldl expandStep start = start ++ path := by
  induction path generalizing start with
  | nil => exact (List.append_nil start).symm
  | cons segment path ih =>
    obtain ⟨hdot, hdotdot⟩ := hp segment (List.mem_cons_self ..)
    have hstep : expandStep start segment = start ++ [segment] := by
      unfold expandStep
      rw [if_neg hdot, if_neg hdotdot]
    rw [List.foldl_cons, hstep, ih fun s hs => hp s (List.mem_cons_of_mem _ hs), List.append_assoc]
    rfl

theorem expand_of_expanded (hp : Expanded path) : expand path = path :=
  foldl_expandStep hp []

theorem Expanded.dropLast (hp : Expanded path) : Expanded path.dropLast :=
  fun s hs => hp s (List.dropLast_subset path hs)

theorem expanded_expandStep (hp : Expanded path) (segment : Segment) :
    Expanded (expandStep path segment) := by
  unfold expandStep
  split
  · exact hp
  · rename_i hdot
    split
    · exact hp.dropLast
    · rename_i hdotdot
      intro s hs
      rcases List.mem_append.1 hs with hs | hs
      · exact hp s hs
      · rw [List.mem_singleton.1 hs]
        exact ⟨hdot, hdotdot⟩

/-- **Expansion takes every `.` and `..` out.** -/
theorem expanded_expand (path : FilePath) : Expanded (expand path) := by
  have h : ∀ start, Expanded start → Expanded (path.foldl expandStep start) := by
    induction path with
    | nil => exact fun start hs => hs
    | cons segment path ih => exact fun start hs => ih _ (expanded_expandStep hs segment)
  exact h [] fun s hs => (by cases hs)

end FilePath

/-! ### File systems -/

/-- A finite tree of files and directories. -/
inductive Entry where
  | file (content : Binary)
  | dir (entries : List (Binary × Entry))

namespace Entry

def walk : List Entry → Entry → FilePath → Option Entry
  | _, entry, [] => some entry
  | _, .file _, _ :: _ => none
  | parents, .dir entries, segment :: path =>
      if segment = FilePath.dot then walk parents (.dir entries) path
      else if segment = FilePath.dotdot then
        match parents with
        | [] => walk [] (.dir entries) path
        | parent :: parents => walk parents parent path
      else
        match entries.lookup segment.val with
        | some entry => walk (.dir entries :: parents) entry path
        | none => none

def lookup (root : Entry) (path : FilePath) : Option Entry := walk [] root path

def isRegular (root : Entry) (path : FilePath) : Bool :=
  match root.lookup path with
  | some (.file _) => true
  | _ => false

def isDir (root : Entry) (path : FilePath) : Bool :=
  match root.lookup path with
  | some (.dir _) => true
  | _ => false

def read (root : Entry) (path : FilePath) : Option Binary :=
  match root.lookup path with
  | some (.file content) => some content
  | _ => none

/-! ### Where a path leads -/

/-- The entry at an expanded path, with the directories above it. -/
inductive Located (root : Entry) : List Entry → Entry → FilePath → Prop
  | top : Located root [] root []
  | child {parents entries path segment entry} : Located root parents (.dir entries) path →
      segment ≠ FilePath.dot → segment ≠ FilePath.dotdot →
      entries.lookup segment.val = some entry →
      Located root (.dir entries :: parents) entry (path ++ [segment])

variable {root : Entry}

variable {entry : Entry} {parents : List Entry} {path : FilePath}

theorem Located.walk_append (h : Located root parents entry path) (rest : FilePath) :
    walk [] root (path ++ rest) = walk parents entry rest := by
  induction h generalizing rest with
  | top => rfl
  | child hdir hdot hdotdot hlookup ih =>
    rw [List.append_assoc, List.singleton_append, ih]
    show (if _ then _ else if _ then _ else _) = _
    rw [if_neg hdot, if_neg hdotdot, hlookup]

theorem Located.lookup (h : Located root parents entry path) : root.lookup path = some entry := by
  have hwalk := h.walk_append []
  rw [List.append_nil] at hwalk
  unfold Entry.lookup
  rw [hwalk]
  cases entry <;> rfl

theorem located_walk {entry' : Entry} {rest : FilePath} :
    ∀ {parents : List Entry} {entry : Entry} {start : FilePath},
      Located root parents entry start → walk parents entry (path ++ rest) = some entry' →
      ∃ parents' middle, Located root parents' middle (path.foldl FilePath.expandStep start) ∧
        walk parents' middle rest = some entry' := by
  induction path with
  | nil => exact fun hstart hwalk => ⟨_, _, hstart, hwalk⟩
  | cons segment path ih =>
    intro parents entry start hstart hwalk
    rw [List.foldl_cons]
    cases entry with
    | file content => cases hwalk
    | dir entries =>
      rw [List.cons_append] at hwalk
      unfold walk at hwalk
      unfold FilePath.expandStep
      split at hwalk
      · rename_i hdot
        rw [if_pos hdot]
        exact ih hstart hwalk
      · rename_i hdot
        rw [if_neg hdot]
        split at hwalk
        · rename_i hdotdot
          rw [if_pos hdotdot]
          cases hstart with
          | top => exact ih .top hwalk
          | child hdir _ _ _ =>
            rw [List.dropLast_concat]
            exact ih hdir hwalk
        · rename_i hdotdot
          rw [if_neg hdotdot]
          cases hlookup : entries.lookup segment.val with
          | none =>
            rw [hlookup] at hwalk
            cases hwalk
          | some entry =>
            rw [hlookup] at hwalk
            exact ih (.child hstart hdot hdotdot hlookup) hwalk

/-- **A path that leads somewhere is expanded to a path that leads there.** -/
theorem located_expand (h : root.lookup path = some entry) :
    ∃ parents, Located root parents entry path.expand := by
  have hwalk : walk [] root (path ++ []) = some entry := by rwa [List.append_nil]
  obtain ⟨parents, middle, hat, hend⟩ := located_walk .top hwalk
  have hmiddle : middle = entry := by
    cases middle <;> exact Option.some.inj hend
  exact ⟨parents, hmiddle ▸ hat⟩

variable {segment : Segment}

theorem Located.parent (h : Located root parents entry (path ++ [segment])) :
    ∃ entries parents', Located root parents' (.dir entries) path := by
  generalize hpath : path ++ [segment] = full at h
  cases h with
  | top => exact absurd hpath (List.append_ne_nil_of_right_ne_nil _ (List.cons_ne_nil _ _))
  | child hdir _ _ _ =>
    rw [(List.append_inj_left' hpath rfl)]
    exact ⟨_, _, hdir⟩

theorem Located.ancestor : ∀ {rest : FilePath}, rest ≠ [] →
    ∀ {parents : List Entry} {entry : Entry}, Located root parents entry (path ++ rest) →
      ∃ entries parents', Located root parents' (.dir entries) path := by
  intro rest
  induction rest using List.reverseRecOn with
  | nil => exact fun h => absurd rfl h
  | append_singleton rest segment ih =>
    intro _ parents entry h
    rw [← List.append_assoc] at h
    obtain ⟨entries, parents', hdir⟩ := h.parent
    by_cases hrest : rest = []
    · subst hrest
      rw [List.append_nil] at hdir
      exact ⟨entries, parents', hdir⟩
    · exact ih hrest hdir

theorem isRegular_iff :
    root.isRegular path = true ↔ ∃ content, root.lookup path = some (.file content) := by
  unfold isRegular
  split
  · rename_i content h
    exact iff_of_true rfl ⟨content, h⟩
  · rename_i h
    exact iff_of_false Bool.false_ne_true fun ⟨content, hlookup⟩ => h content hlookup

theorem isDir_iff : root.isDir path = true ↔ ∃ entries, root.lookup path = some (.dir entries) := by
  unfold isDir
  split
  · rename_i entries h
    exact iff_of_true rfl ⟨entries, h⟩
  · rename_i h
    exact iff_of_false Bool.false_ne_true fun ⟨entries, hlookup⟩ => h entries hlookup

variable {content : Binary}

theorem read_eq_some_iff :
    root.read path = some content ↔ root.lookup path = some (.file content) := by
  unfold read
  split
  · rename_i content' h
    rw [h]
    exact ⟨fun he => by rw [Option.some.inj he], fun he => by cases he; rfl⟩
  · rename_i h
    exact iff_of_false (fun he => by cases he) fun he => h content he

theorem read_expand (h : root.read path = some content) : root.read path.expand = some content := by
  obtain ⟨parents, hat⟩ := located_expand (read_eq_some_iff.1 h)
  exact read_eq_some_iff.2 hat.lookup

theorem isRegular_iff_read :
    root.isRegular path = true ↔ ∃ content, root.read path = some content := by
  simp only [isRegular_iff, read_eq_some_iff]

theorem expand_concat_of_file {dir : FilePath}
    (h : root.lookup (dir ++ [segment]) = some (.file content)) :
    FilePath.expand (dir ++ [segment]) = dir.expand ++ [segment] := by
  obtain ⟨parents, middle, hat, hlast⟩ := located_walk .top h
  unfold FilePath.expand
  rw [List.foldl_append, List.foldl_cons, List.foldl_nil]
  unfold FilePath.expandStep
  -- `.` and `..` lead to directories
  have hdot : segment ≠ FilePath.dot ∧ segment ≠ FilePath.dotdot := by
    cases middle with
    | file _ => cases hlast
    | dir entries =>
      unfold walk at hlast
      split at hlast
      · cases hlast
      · rename_i hdot
        refine ⟨hdot, fun hdotdot => ?_⟩
        rw [if_pos hdotdot] at hlast
        generalize dir.foldl FilePath.expandStep [] = path at hat
        cases hat with
        | top => cases hlast
        | child _ _ _ _ => cases hlast
  rw [if_neg hdot.1, if_neg hdot.2]

/-- **A tree has finitely many files.** -/
theorem finite_files : ∀ (entry : Entry) (parents : List Entry),
    {path | FilePath.Expanded path ∧ ∃ content, walk parents entry path =
      some (.file content)}.Finite
  | .file _, parents => by
      refine (Set.finite_singleton ([] : FilePath)).subset ?_
      rintro path ⟨-, content, hwalk⟩
      cases path with
      | nil => rfl
      | cons segment path => cases hwalk
  | .dir entries, parents => by
      have hbelow : ∀ x ∈ entries, {path | FilePath.Expanded path ∧ ∃ content,
          walk (.dir entries :: parents) x.2 path = some (.file content)}.Finite :=
        fun x hx => finite_files x.2 (.dir entries :: parents)
      have hnames : ∀ name : Binary, {segment : Segment | segment.val = name}.Finite :=
        fun name => Set.Subsingleton.finite fun a ha b hb => Subtype.ext (ha.trans hb.symm)
      have hall : (⋃ x ∈ {x | x ∈ entries}, Set.image2 List.cons {segment | segment.val = x.1}
          {path | FilePath.Expanded path ∧ ∃ content,
            walk (.dir entries :: parents) x.2 path = some (.file content)}).Finite :=
        (List.finite_toSet entries).biUnion fun x hx => (hnames x.1).image2 _ (hbelow x hx)
      refine hall.subset ?_
      rintro path ⟨hpath, content, hwalk⟩
      cases path with
      | nil => cases hwalk
      | cons segment path =>
        obtain ⟨hdot, hdotdot⟩ := hpath segment (List.mem_cons_self ..)
        unfold walk at hwalk
        rw [if_neg hdot, if_neg hdotdot] at hwalk
        cases hlookup : entries.lookup segment.val with
        | none =>
          rw [hlookup] at hwalk
          cases hwalk
        | some entry =>
          rw [hlookup] at hwalk
          obtain ⟨before, after, hentries, -⟩ := List.lookup_eq_some_iff.1 hlookup
          refine Set.mem_biUnion (x := (segment.val, entry)) ?_ ?_
          · show _ ∈ entries
            rw [hentries]
            exact List.mem_append_right _ (List.mem_cons_self ..)
          · exact ⟨segment, rfl, path, ⟨fun s hs => hpath s (List.mem_cons_of_mem _ hs), content,
              hwalk⟩, rfl⟩
termination_by entry => sizeOf entry
decreasing_by
  have hmem := List.sizeOf_lt_of_mem hx
  have hsnd : sizeOf x.2 < sizeOf x := by
    cases x
    simp only [Prod.mk.sizeOf_spec]
    omega
  simp only [Entry.dir.sizeOf_spec]
  omega

end Entry

end QuickBeam.Js
