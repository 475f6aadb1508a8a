import Mathlib.Data.List.Induction
import Mathlib.Tactic.Common

/-!
# Paths of Node (`node-path.ts`)

A path is a string of code units.  `normalize` keeps a stack of segments, `resolve` puts paths
together from the right until one is absolute, and `relative` goes up to the common part and down
again.

What a path is for is finding a file: `walk` goes through its segments from a directory, where
every name is a directory.  Everything here is about the stack that a path leaves, which is the walk
itself when the path is absolute.
-/

namespace QuickBeam.Js.NodePath

def slash : ℕ := 0x2F

def dot : List ℕ := [0x2E]

def dotdot : List ℕ := [0x2E, 0x2E]

def isAbsolute (p : List ℕ) : Bool := p.head? == some slash

def joined (parts : List (List ℕ)) : List ℕ := [slash].intercalate parts

/-- One round of the loop of `normalize`. -/
def push (absolute : Bool) (stack : List (List ℕ)) (part : List ℕ) : List (List ℕ) :=
  if part = [] ∨ part = dot then stack
  else if part = dotdot then
    if stack ≠ [] ∧ stack.getLast? ≠ some dotdot then stack.dropLast
    else if absolute then stack else stack ++ [dotdot]
  else stack ++ [part]

def stackOf (p : List ℕ) : List (List ℕ) := (p.splitOn slash).foldl (push (isAbsolute p)) []

def render (absolute : Bool) (stack : List (List ℕ)) : List ℕ :=
  let result := if absolute then slash :: joined stack else joined stack
  if result ≠ [] then result else if absolute then [slash] else dot

def normalize (p : List ℕ) : List ℕ := if p = [] then dot else render (isAbsolute p) (stackOf p)

def resolveLoop (resolved : List ℕ) : List (List ℕ) → List ℕ
  | [] => resolved
  | p :: rest =>
    if p = [] then resolveLoop resolved rest
    else
      let resolved := if resolved ≠ [] then p ++ slash :: resolved else p
      if isAbsolute p then resolved else resolveLoop resolved rest

/-- `resolve`, where `process.cwd()` gives `cwd`. -/
def resolve (cwd : List ℕ) (parts : List (List ℕ)) : List ℕ :=
  let resolved := resolveLoop [] parts.reverse
  normalize (if isAbsolute resolved then resolved else cwd ++ slash :: resolved)

/-- How many segments two paths have in common at their start. -/
def common : List (List ℕ) → List (List ℕ) → ℕ
  | a :: as, b :: bs => if a = b then common as bs + 1 else 0
  | _, _ => 0

def segments (p : List ℕ) : List (List ℕ) := (p.splitOn slash).filter (· ≠ [])

def relative (cwd source target : List ℕ) : List ℕ :=
  let fromParts := segments (resolve cwd [source])
  let toParts := segments (resolve cwd [target])
  let i := common fromParts toParts
  let result := joined (List.replicate (fromParts.length - i) dotdot ++ toParts.drop i)
  if result ≠ [] then result else dot

/-! ### Files -/

/-- One step from a directory, where `..` leads out of it and every name into a directory. -/
def enter (dir : List (List ℕ)) (part : List ℕ) : List (List ℕ) :=
  if part = [] ∨ part = dot then dir
  else if part = dotdot then dir.dropLast
  else dir ++ [part]

def walk (dir : List (List ℕ)) (parts : List (List ℕ)) : List (List ℕ) := parts.foldl enter dir

/-- The file that a path denotes in a directory. -/
def denotes (dir : List (List ℕ)) (p : List ℕ) : List (List ℕ) :=
  walk (if isAbsolute p then [] else dir) (p.splitOn slash)

/-! ### Stacks -/

/-- A segment that is neither empty nor `.` nor `..`. -/
structure IsName (s : List ℕ) : Prop where
  ne_nil : s ≠ []
  ne_dot : s ≠ dot
  ne_dotdot : s ≠ dotdot
  no_slash : slash ∉ s

/-- Parent references stand before the names, and in absolute paths nowhere. -/
structure Normal (absolute : Bool) (stack : List (List ℕ)) : Prop where
  shape : ∃ n names, stack = List.replicate n dotdot ++ names ∧ (∀ s ∈ names, IsName s) ∧
    (absolute = true → n = 0)

theorem normal_nil (absolute : Bool) : Normal absolute [] :=
  ⟨0, [], rfl, fun _ h => absurd h List.not_mem_nil, fun _ => rfl⟩

theorem not_mem_splitOn {p part : List ℕ} (h : part ∈ p.splitOn slash) : slash ∉ part := by
  induction p generalizing part with
  | nil =>
    rw [List.splitOn_nil, List.mem_singleton] at h
    rw [h]
    exact List.not_mem_nil
  | cons c p ih =>
    rw [List.splitOn_cons_eq_if_modifyHead] at h
    split at h
    · rcases List.mem_cons.1 h with rfl | h
      · exact List.not_mem_nil
      · exact ih h
    · rename_i hc
      cases hparts : p.splitOn slash with
      | nil => exact absurd hparts (List.splitOn_ne_nil slash p)
      | cons first rest =>
        rw [hparts] at h ih
        rcases List.mem_cons.1 h with rfl | h
        · intro hmem
          rcases List.mem_cons.1 hmem with he | hmem
          · exact hc (by rw [he]; exact beq_self_eq_true c)
          · exact ih List.mem_cons_self hmem
        · exact ih (List.mem_cons_of_mem first h)

variable {absolute : Bool} {stack : List (List ℕ)}

theorem Normal.push (h : Normal absolute stack) {part : List ℕ} (hp : slash ∉ part) :
    Normal absolute (push absolute stack part) := by
  obtain ⟨n, names, rfl, hnames, habs⟩ := h.shape
  unfold NodePath.push
  split
  · exact h
  · rename_i hskip
    rw [not_or] at hskip
    split
    · rename_i hup
      cases names using List.reverseRecOn with
      | nil =>
        rw [List.append_nil] at h ⊢
        have hbottom : ¬(List.replicate n dotdot ≠ [] ∧ (List.replicate n dotdot).getLast? ≠ some dotdot) := by
          rintro ⟨hne, hlast⟩
          cases n with
          | zero => exact hne rfl
          | succ n => exact hlast (by rw [List.replicate_succ', List.getLast?_concat])
        rw [if_neg hbottom]
        cases absolute with
        | true => exact h
        | false =>
          refine ⟨n + 1, [], ?_, fun _ h => absurd h List.not_mem_nil, fun h => absurd h (by decide)⟩
          rw [List.append_nil, List.replicate_succ']
          rfl
      | append_singleton names s =>
        have hs := hnames s (by simp)
        have hpop : List.replicate n dotdot ++ (names ++ [s]) ≠ [] ∧
            (List.replicate n dotdot ++ (names ++ [s])).getLast? ≠ some dotdot := by
          rw [← List.append_assoc, List.getLast?_concat]
          exact ⟨by simp, fun he => hs.ne_dotdot (Option.some.inj he)⟩
        rw [if_pos hpop, ← List.append_assoc, List.dropLast_concat]
        exact ⟨n, names, rfl, fun t ht => hnames t (by simp [ht]), habs⟩
    · rename_i hup
      refine ⟨n, names ++ [part], (List.append_assoc ..), fun s hs => ?_, habs⟩
      rcases List.mem_append.1 hs with hs | hs
      · exact hnames s hs
      · rw [List.mem_singleton.1 hs]
        exact ⟨hskip.1, hskip.2, hup, hp⟩

variable {parts : List (List ℕ)}

theorem normal_foldl (h : Normal absolute stack) (hparts : ∀ part ∈ parts, slash ∉ part) :
    Normal absolute (parts.foldl (push absolute) stack) := by
  induction parts generalizing stack with
  | nil => exact h
  | cons part parts ih =>
    exact ih (h.push (hparts part List.mem_cons_self)) fun q hq => hparts q (List.mem_cons_of_mem part hq)

theorem normal_stackOf (p : List ℕ) : Normal (isAbsolute p) (stackOf p) :=
  normal_foldl (normal_nil _) fun _ => not_mem_splitOn

theorem Normal.mem (h : Normal absolute stack) {s : List ℕ} (hs : s ∈ stack) :
    s ≠ [] ∧ slash ∉ s ∧ s ≠ dot := by
  obtain ⟨n, names, rfl, hnames, -⟩ := h.shape
  rcases List.mem_append.1 hs with hs | hs
  · rw [List.eq_of_mem_replicate hs]
    decide
  · have hn := hnames s hs
    exact ⟨hn.ne_nil, hn.no_slash, hn.ne_dot⟩

theorem Normal.names (h : Normal true stack) : ∀ s ∈ stack, IsName s := by
  obtain ⟨n, names, rfl, hnames, habs⟩ := h.shape
  rw [habs rfl, List.replicate_zero, List.nil_append]
  exact hnames

variable {names : List (List ℕ)}

theorem foldl_push_names (h : ∀ s ∈ names, IsName s) (stack : List (List ℕ)) :
    names.foldl (push absolute) stack = stack ++ names := by
  induction names generalizing stack with
  | nil => exact (List.append_nil stack).symm
  | cons s names ih =>
    have hs := h s List.mem_cons_self
    have hpush : push absolute stack s = stack ++ [s] := by
      unfold push
      rw [if_neg (not_or.2 ⟨hs.ne_nil, hs.ne_dot⟩), if_neg hs.ne_dotdot]
    rw [List.foldl_cons, hpush, ih fun t ht => h t (List.mem_cons_of_mem s ht), List.append_assoc]
    rfl

theorem foldl_push_parents (n : ℕ) : (List.replicate n dotdot).foldl (push false) [] =
    List.replicate n dotdot := by
  induction n with
  | zero => rfl
  | succ n ih =>
    rw [List.replicate_succ', List.foldl_append, ih]
    show push false (List.replicate n dotdot) dotdot = _
    unfold push
    rw [if_neg (by decide), if_pos rfl, if_neg]
    · rfl
    · rintro ⟨hne, hlast⟩
      cases n with
      | zero => exact hne rfl
      | succ n => exact hlast (by rw [List.replicate_succ', List.getLast?_concat])

theorem Normal.foldl_eq (h : Normal absolute stack) :
    stack.foldl (NodePath.push absolute) [] = stack := by
  obtain ⟨n, names, rfl, hnames, habs⟩ := h.shape
  rw [List.foldl_append]
  cases absolute with
  | true =>
    rw [habs rfl]
    exact foldl_push_names hnames []
  | false => rw [foldl_push_parents, foldl_push_names hnames]

/-! ### Rendering -/

variable {p : List ℕ}

theorem isAbsolute_iff : isAbsolute p = true ↔ ∃ t, p = slash :: t := by
  unfold isAbsolute
  rw [beq_iff_eq, List.head?_eq_some_iff]

theorem splitOn_joined (hne : parts ≠ []) (h : ∀ s ∈ parts, slash ∉ s) :
    (joined parts).splitOn slash = parts := List.splitOn_intercalate slash h hne

theorem splitOn_slash (p : List ℕ) : (slash :: p).splitOn slash = [] :: p.splitOn slash :=
  List.splitOn_append_cons_self [] p

theorem not_isAbsolute_joined (h : ∀ s ∈ parts, s ≠ [] ∧ slash ∉ s) :
    isAbsolute (joined parts) = false := by
  cases parts with
  | nil => rfl
  | cons s parts =>
    obtain ⟨hne, hslash⟩ := h s List.mem_cons_self
    cases s with
    | nil => exact absurd rfl hne
    | cons c s =>
      have hc : c ≠ slash := fun he => hslash (he ▸ List.mem_cons_self)
      cases parts <;> simp [joined, isAbsolute, List.intercalate, hc]

theorem joined_eq_nil (h : ∀ s ∈ parts, s ≠ []) (he : joined parts = []) : parts = [] := by
  cases parts with
  | nil => rfl
  | cons s parts =>
    have hne := h s List.mem_cons_self
    cases parts with
    | nil => exact absurd (by simpa [joined, List.intercalate] using he) hne
    | cons t parts => simp [joined, List.intercalate] at he

theorem render_true (stack : List (List ℕ)) : render true stack = slash :: joined stack := rfl

theorem isAbsolute_render (h : Normal absolute stack) :
    isAbsolute (render absolute stack) = absolute := by
  cases absolute with
  | true =>
    rw [render_true]
    rfl
  | false =>
    show isAbsolute (if joined stack ≠ [] then joined stack else dot) = false
    split
    · exact not_isAbsolute_joined fun s hs => ⟨(h.mem hs).1, (h.mem hs).2.1⟩
    · rfl

theorem stackOf_render (h : Normal absolute stack) : stackOf (render absolute stack) = stack := by
  have hsplit : stack ≠ [] → (joined stack).splitOn slash = stack := fun hne =>
    splitOn_joined hne fun s hs => (h.mem hs).2.1
  unfold stackOf
  rw [isAbsolute_render h]
  cases absolute with
  | true =>
    rw [render_true, splitOn_slash]
    show ((joined stack).splitOn slash).foldl (push true) [] = stack
    by_cases hne : stack = []
    · rw [hne]
      rfl
    · rw [hsplit hne, h.foldl_eq]
  | false =>
    show ((if joined stack ≠ [] then joined stack else dot).splitOn slash).foldl (push false) [] = stack
    by_cases hne : stack = []
    · rw [hne]
      rfl
    · rw [if_pos fun he => hne (joined_eq_nil (fun s hs => (h.mem hs).1) he), hsplit hne, h.foldl_eq]

theorem normalize_eq (p : List ℕ) : normalize p = render (isAbsolute p) (stackOf p) := by
  unfold normalize
  split
  · rename_i he
    rw [he]
    rfl
  · rfl

theorem normalize_render (h : Normal absolute stack) :
    normalize (render absolute stack) = render absolute stack := by
  rw [normalize_eq, isAbsolute_render h, stackOf_render h]

/-! ### Walking a path -/

theorem walk_push {stack dir : List (List ℕ)} (h : Normal absolute stack) (part : List ℕ)
    (hroot : absolute = true → dir = []) :
    walk dir (push absolute stack part) = enter (walk dir stack) part := by
  have hnames : ∀ s, walk dir (stack ++ [s]) = enter (walk dir stack) s := fun s => List.foldl_append ..
  unfold push
  by_cases hskip : part = [] ∨ part = dot
  · rw [if_pos hskip, enter, if_pos hskip]
  · rw [if_neg hskip]
    by_cases hup : part = dotdot
    · rw [if_pos hup]
      split
      · -- a name is left again
        rename_i hpop
        obtain ⟨n, names, rfl, hn, -⟩ := h.shape
        cases names using List.reverseRecOn with
        | nil =>
          cases n with
          | zero => exact absurd rfl hpop.1
          | succ n => exact absurd (by rw [List.append_nil, List.replicate_succ', List.getLast?_concat]) hpop.2
        | append_singleton names s =>
          have hs := hn s (by simp)
          rw [← List.append_assoc, List.dropLast_concat]
          have hin : walk dir (List.replicate n dotdot ++ names ++ [s]) =
              walk dir (List.replicate n dotdot ++ names) ++ [s] := by
            rw [walk, List.foldl_append]
            show enter _ s = _
            rw [enter, if_neg (not_or.2 ⟨hs.ne_nil, hs.ne_dot⟩), if_neg hs.ne_dotdot]
            rfl
          rw [hin, enter, if_neg hskip, if_pos hup, List.dropLast_concat]
      · rename_i hbottom
        split
        · -- nothing is above the root
          rename_i habs
          obtain ⟨n, names, rfl, hn, hzero⟩ := h.shape
          rw [hzero habs, List.replicate_zero, List.nil_append] at hbottom ⊢
          cases names using List.reverseRecOn with
          | nil =>
            rw [hroot habs, enter, if_neg hskip, if_pos hup]
            rfl
          | append_singleton names s =>
            refine absurd ⟨by simp, ?_⟩ hbottom
            rw [List.getLast?_concat]
            exact fun he => (hn s (by simp)).ne_dotdot (Option.some.inj he)
        · rw [hup]
          exact hnames dotdot
    · rw [if_neg hup]
      exact hnames part

theorem walk_foldl {parts stack dir : List (List ℕ)} (h : Normal absolute stack)
    (hparts : ∀ part ∈ parts, slash ∉ part) (hroot : absolute = true → dir = []) :
    walk dir (parts.foldl (push absolute) stack) = walk (walk dir stack) parts := by
  induction parts generalizing stack with
  | nil => rfl
  | cons part parts ih =>
    rw [List.foldl_cons, ih (h.push (hparts part List.mem_cons_self)) fun q hq =>
      hparts q (List.mem_cons_of_mem part hq), walk_push h part hroot]
    rfl

theorem denotes_eq (dir : List (List ℕ)) (p : List ℕ) :
    denotes dir p = walk (if isAbsolute p then [] else dir) (stackOf p) := by
  refine (walk_foldl (normal_nil _) (fun _ => not_mem_splitOn) fun habs => ?_).symm
  exact if_pos habs

theorem walk_names (h : ∀ s ∈ names, IsName s) (dir : List (List ℕ)) :
    walk dir names = dir ++ names := by
  induction names generalizing dir with
  | nil => exact (List.append_nil dir).symm
  | cons s names ih =>
    have hs := h s List.mem_cons_self
    have henter : enter dir s = dir ++ [s] := by
      rw [enter, if_neg (not_or.2 ⟨hs.ne_nil, hs.ne_dot⟩), if_neg hs.ne_dotdot]
    show walk (enter dir s) names = _
    rw [henter, ih (fun t ht => h t (List.mem_cons_of_mem s ht)), List.append_assoc]
    rfl

theorem walk_parents (dir : List (List ℕ)) (n : ℕ) :
    walk dir (List.replicate n dotdot) = dir.take (dir.length - n) := by
  induction n generalizing dir with
  | zero => exact List.take_length.symm
  | succ n ih =>
    show walk dir.dropLast (List.replicate n dotdot) = _
    rw [ih, List.length_dropLast, List.dropLast_eq_take, List.take_take]
    congr 1
    omega

theorem walk_append (dir as bs : List (List ℕ)) : walk dir (as ++ bs) = walk (walk dir as) bs :=
  List.foldl_append

theorem stackOf_absolute (h : isAbsolute p) : stackOf p = walk [] (p.splitOn slash) := by
  have hnormal := normal_stackOf p
  have hwalk := denotes_eq [] p
  rw [h] at hnormal
  rw [denotes, if_pos h, walk_names hnormal.names] at hwalk
  exact hwalk.symm

/-! ### Resolving -/

theorem isAbsolute_append (q : List ℕ) (h : isAbsolute p) : isAbsolute (p ++ q) := by
  obtain ⟨t, rfl⟩ := isAbsolute_iff.1 h
  rfl

/-- The path that `resolve` normalizes. -/
def located (cwd : List ℕ) (parts : List (List ℕ)) : List ℕ :=
  let resolved := resolveLoop [] parts.reverse
  if isAbsolute resolved then resolved else cwd ++ slash :: resolved

variable {cwd : List ℕ}

theorem isAbsolute_located (hcwd : isAbsolute cwd) (parts : List (List ℕ)) :
    isAbsolute (located cwd parts) := by
  unfold located
  simp only
  split
  · assumption
  · exact isAbsolute_append _ hcwd

theorem resolve_eq (hcwd : isAbsolute cwd) (parts : List (List ℕ)) :
    resolve cwd parts = render true (walk [] ((located cwd parts).splitOn slash)) := by
  show normalize (located cwd parts) = _
  rw [normalize_eq, isAbsolute_located hcwd, stackOf_absolute (isAbsolute_located hcwd parts)]

theorem names_located (hcwd : isAbsolute cwd) (parts : List (List ℕ)) :
    ∀ s ∈ walk [] ((located cwd parts).splitOn slash), IsName s := by
  have h := normal_stackOf (located cwd parts)
  rw [isAbsolute_located hcwd, stackOf_absolute (isAbsolute_located hcwd parts)] at h
  exact h.names

theorem normal_of_names (h : ∀ s ∈ names, IsName s) :
    Normal absolute names := ⟨0, names, rfl, h, fun _ => rfl⟩

theorem segments_render (h : ∀ s ∈ names, IsName s) : segments (render true names) = names := by
  unfold segments
  rw [render_true, splitOn_slash, List.filter_cons_of_neg (by simp)]
  by_cases hne : names = []
  · rw [hne]
    rfl
  · rw [splitOn_joined hne fun s hs => (h s hs).no_slash]
    exact List.filter_eq_self.2 fun s hs => by simpa using (h s hs).ne_nil

theorem walk_located (source : List ℕ) {rel : List ℕ} (hne : rel ≠ [])
    (hrel : isAbsolute rel = false) : walk [] ((located cwd [source, rel]).splitOn slash) =
      walk (walk [] ((located cwd [source]).splitOn slash)) (rel.splitOn slash) := by
  have hloop : resolveLoop [] [rel, source] =
      if source = [] then rel else source ++ slash :: rel := by
    simp only [resolveLoop, hne, hrel]
    by_cases hs : source = []
    · simp [hs]
    · simp [hs, hne]
  have hsource : resolveLoop [] [source] = source := by
    by_cases hs : source = []
    · simp [resolveLoop, hs]
    · simp [resolveLoop, hs]
  unfold located
  simp only [List.reverse_cons, List.reverse_nil, List.nil_append, List.singleton_append, hloop, hsource]
  by_cases hs : source = []
  · rw [if_pos hs, hs, hrel]
    show walk [] ((cwd ++ slash :: rel).splitOn slash) = walk (walk [] ((cwd ++ slash :: []).splitOn slash)) _
    rw [List.splitOn_append_cons_self, List.splitOn_append_cons_self, walk_append, walk_append]
    rfl
  · rw [if_neg hs]
    by_cases habs : isAbsolute source
    · rw [if_pos (isAbsolute_append _ habs), if_pos habs, List.splitOn_append_cons_self, walk_append]
    · have hnot : ¬isAbsolute (source ++ slash :: rel) := by
        cases source with
        | nil => exact absurd rfl hs
        | cons c source => exact habs
      rw [if_neg hnot, if_neg habs, ← List.cons_append, ← List.append_assoc, List.splitOn_append_cons_self,
        walk_append]

/-! ### Relative paths -/

theorem take_common (as bs : List (List ℕ)) : as.take (common as bs) = bs.take (common as bs) := by
  induction as generalizing bs with
  | nil => cases bs <;> rfl
  | cons a as ih =>
    cases bs with
    | nil => rfl
    | cons b bs =>
      unfold common
      split
      · rename_i he
        rw [List.take_succ_cons, List.take_succ_cons, ih, he]
      · rfl

theorem common_le (as bs : List (List ℕ)) : common as bs ≤ as.length := by
  induction as generalizing bs with
  | nil => cases bs <;> exact Nat.le_refl 0
  | cons a as ih =>
    cases bs with
    | nil => exact Nat.zero_le _
    | cons b bs =>
      unfold common
      split
      · exact Nat.succ_le_succ (ih bs)
      · exact Nat.zero_le _

theorem walk_relative {source target : List (List ℕ)} (ht : ∀ s ∈ target, IsName s) :
    walk source (List.replicate (source.length - common source target) dotdot ++
      target.drop (common source target)) = target := by
  have hle := common_le source target
  rw [walk_append, walk_parents, Nat.sub_sub_self hle, take_common,
    walk_names fun s hs => ht s (List.mem_of_mem_drop hs), List.take_append_drop]

theorem resolve_relative (hcwd : isAbsolute cwd) (source target : List ℕ) :
    resolve cwd [source, relative cwd source target] = resolve cwd [target] := by
  let F := walk [] ((located cwd [source]).splitOn slash)
  let T := walk [] ((located cwd [target]).splitOn slash)
  have hF : ∀ s ∈ F, IsName s := names_located hcwd [source]
  have hT : ∀ s ∈ T, IsName s := names_located hcwd [target]
  let parts := List.replicate (F.length - common F T) dotdot ++ T.drop (common F T)
  have hparts : ∀ s ∈ parts, s ≠ [] ∧ slash ∉ s := by
    intro s hs
    rcases List.mem_append.1 hs with hs | hs
    · rw [List.eq_of_mem_replicate hs]
      decide
    · have hn := hT s (List.mem_of_mem_drop hs)
      exact ⟨hn.ne_nil, hn.no_slash⟩
  have hrel : relative cwd source target = if joined parts ≠ [] then joined parts else dot := by
    unfold relative
    simp only [resolve_eq hcwd, segments_render (names_located hcwd _)]
    rfl
  have hwalk : walk F ((relative cwd source target).splitOn slash) = T := by
    rw [hrel]
    by_cases hne : joined parts = []
    · have hnil : parts = [] := joined_eq_nil (fun s hs => (hparts s hs).1) hne
      have hT' : walk F parts = T := walk_relative hT
      rw [hnil] at hT'
      rw [if_neg fun hn => hn hne, ← hT']
      rfl
    · have hparts' : parts ≠ [] := by
        intro hnil
        rw [hnil] at hne
        exact hne rfl
      rw [if_pos hne, splitOn_joined hparts' fun s hs => (hparts s hs).2]
      exact walk_relative hT
  have hne : relative cwd source target ≠ [] := by
    rw [hrel]
    split
    · assumption
    · decide
  have habs : isAbsolute (relative cwd source target) = false := by
    rw [hrel]
    split
    · exact not_isAbsolute_joined hparts
    · rfl
  rw [resolve_eq hcwd, resolve_eq hcwd, walk_located source hne habs, hwalk]

/-! ### The laws -/

/-- The laws of `normalize`, `resolve` and `relative` in a working directory. -/
structure PathAlgebra (cwd : List ℕ) : Prop where
  normalize_normalize : ∀ p, normalize (normalize p) = normalize p
  normalize_absolute : ∀ p, isAbsolute p →
    ∃ names, normalize p = slash :: joined names ∧ ∀ s ∈ names, IsName s
  /-- Parent references stand at the start. -/
  normalize_relative : ∀ p, isAbsolute p = false → isAbsolute (normalize p) = false ∧
    ∃ n rest, (normalize p).splitOn slash = List.replicate n dotdot ++ rest ∧ dotdot ∉ rest
  denotes_normalize : ∀ dir p, denotes dir (normalize p) = denotes dir p
  resolve_normal : ∀ parts, isAbsolute (resolve cwd parts) ∧
    normalize (resolve cwd parts) = resolve cwd parts
  resolve_relative : ∀ source target,
    resolve cwd [source, relative cwd source target] = resolve cwd [target]

theorem path_algebra {cwd : List ℕ} (hcwd : isAbsolute cwd) : PathAlgebra cwd where
  normalize_normalize p := by rw [normalize_eq p, normalize_render (normal_stackOf p)]
  normalize_absolute p h := by
    have hnormal := normal_stackOf p
    rw [h] at hnormal
    refine ⟨stackOf p, ?_, hnormal.names⟩
    rw [normalize_eq, h, render_true]
  normalize_relative p h := by
    have hnormal := normal_stackOf p
    rw [normalize_eq, h] at *
    refine ⟨isAbsolute_render hnormal, ?_⟩
    by_cases hne : stackOf p = []
    · rw [hne]
      exact ⟨0, [dot], by decide, by decide⟩
    · obtain ⟨n, names, hshape, hnames, -⟩ := hnormal.shape
      have htext : render false (stackOf p) = joined (stackOf p) :=
        if_pos fun he => hne (joined_eq_nil (fun s hs => (hnormal.mem hs).1) he)
      refine ⟨n, names, ?_, fun hmem => (hnames _ hmem).ne_dotdot rfl⟩
      rw [htext, splitOn_joined hne fun s hs => (hnormal.mem hs).2.1, hshape]
  denotes_normalize dir p := by
    rw [denotes_eq, denotes_eq, normalize_eq, isAbsolute_render (normal_stackOf p),
      stackOf_render (normal_stackOf p)]
  resolve_normal parts := by
    have hnormal : Normal true (walk [] ((located cwd parts).splitOn slash)) :=
      normal_of_names (names_located hcwd parts)
    rw [resolve_eq hcwd]
    exact ⟨isAbsolute_render hnormal, normalize_render hnormal⟩
  resolve_relative := resolve_relative hcwd

theorem path_algebra_root : PathAlgebra [slash] := path_algebra (by decide)

end QuickBeam.Js.NodePath
