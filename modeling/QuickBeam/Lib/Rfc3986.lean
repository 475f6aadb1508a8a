import Mathlib
import QuickBeam.Lib.FirstMark

/-!
# URIs

The syntax of URIs: the parts, the text they are written as, and the parser.  A text is parsed by
cutting it at its marks, from the fragment inwards, and then looking whether every part is written
in the characters it may have.  What may stand between brackets as an address is a parameter.

`parse_text` and `text_parse` say that the parser and the writer are inverse to each other.
-/

namespace QuickBeam.Lib.Rfc3986

open FirstMark

/-! ### Characters -/

def unreserved (c : Char) : Bool := c.isAlphanum || c ∈ ['-', '.', '_', '~']

def subDelims (c : Char) : Bool :=
  c ∈ ['!', '$', '&', '\x27', '(', ')', '*', '+', ',', ';', '=']

def hexDigit (c : Char) : Bool :=
  c.isDigit || c ∈ ['a', 'b', 'c', 'd', 'e', 'f', 'A', 'B', 'C', 'D', 'E', 'F']

def schemeChar (c : Char) : Bool := c.isAlphanum || c ∈ ['+', '-', '.']

def regNameChar (c : Char) : Bool := unreserved c || subDelims c

/-- The characters of user information, and of the address of a host. -/
def userinfoChar (c : Char) : Bool := regNameChar c || c == ':'

def pathChar (c : Char) : Bool := userinfoChar c || c ∈ ['@', '/']

/-- The characters of queries and fragments. -/
def queryChar (c : Char) : Bool := pathChar c || c == '?'

/-- The printable ASCII characters without the space. -/
def visible (c : Char) : Bool := 0x20 < c.toNat && c.toNat < 0x7F

/-- The text is written in characters of `p` and percent-encoded octets, after `k` more digits of
an octet. -/
def escapedFrom (p : Char → Bool) : ℕ → List Char → Bool
  | k, [] => k == 0
  | 0, c :: t => if c = '%' then escapedFrom p 2 t else p c && escapedFrom p 0 t
  | k + 1, c :: t => hexDigit c && escapedFrom p k t

abbrev escaped (p : Char → Bool) (t : List Char) : Bool := escapedFrom p 0 t

section

variable {c : Char} {p : Char → Bool} {k : ℕ} {t : List Char}

theorem alpha_or_digit (h : c.isAlphanum) : c.isAlpha ∨ c.isDigit := by
  simpa [Char.isAlphanum] using h

theorem visible_of_alphanum (h : c.isAlphanum) : visible c := by
  have h' := alpha_or_digit h
  simp only [Char.isAlpha, Char.isUpper, Char.isLower, Char.isDigit, Bool.or_eq_true, Bool.and_eq_true,
    decide_eq_true_eq, ge_iff_le, UInt32.le_iff_toNat_le, Char.toNat_val] at h'
  simp at h'
  simp only [visible, Bool.and_eq_true, decide_eq_true_eq]
  omega

theorem visible_of_unreserved (h : unreserved c) : visible c := by
  unfold unreserved at h
  rw [Bool.or_eq_true, decide_eq_true_eq] at h
  rcases h with h | h
  · exact visible_of_alphanum h
  · simp only [List.mem_cons, List.not_mem_nil, or_false] at h
    rcases h with rfl | rfl | rfl | rfl <;> decide

theorem visible_of_regName (h : regNameChar c) : visible c := by
  unfold regNameChar at h
  rw [Bool.or_eq_true] at h
  rcases h with h | h
  · exact visible_of_unreserved h
  · unfold subDelims at h
    simp only [decide_eq_true_eq, List.mem_cons, List.not_mem_nil, or_false] at h
    rcases h with rfl | rfl | rfl | rfl | rfl | rfl | rfl | rfl | rfl | rfl | rfl <;> decide

theorem visible_of_userinfo (h : userinfoChar c) : visible c := by
  unfold userinfoChar at h
  rw [Bool.or_eq_true, beq_iff_eq] at h
  rcases h with h | rfl
  · exact visible_of_regName h
  · decide

theorem visible_of_path (h : pathChar c) : visible c := by
  unfold pathChar at h
  rw [Bool.or_eq_true, decide_eq_true_eq] at h
  rcases h with h | h
  · exact visible_of_userinfo h
  · simp only [List.mem_cons, List.not_mem_nil, or_false] at h
    rcases h with rfl | rfl <;> decide

theorem visible_of_query (h : queryChar c) : visible c := by
  unfold queryChar at h
  rw [Bool.or_eq_true, beq_iff_eq] at h
  rcases h with h | rfl
  · exact visible_of_path h
  · decide

theorem visible_of_scheme (h : schemeChar c) : visible c := by
  unfold schemeChar at h
  rw [Bool.or_eq_true, decide_eq_true_eq] at h
  rcases h with h | h
  · exact visible_of_alphanum h
  · simp only [List.mem_cons, List.not_mem_nil, or_false] at h
    rcases h with rfl | rfl | rfl <;> decide

theorem regName_of_hexDigit (h : hexDigit c) : regNameChar c := by
  unfold hexDigit at h
  rw [Bool.or_eq_true, decide_eq_true_eq] at h
  rcases h with h | h
  · simp [regNameChar, unreserved, Char.isAlphanum, h]
  · simp only [List.mem_cons, List.not_mem_nil, or_false] at h
    rcases h with rfl | rfl | rfl | rfl | rfl | rfl | rfl | rfl | rfl | rfl | rfl | rfl <;> decide

/-! ### Lowering -/

theorem toLower_of_not_alpha (h : c.isAlpha = false) : c.toLower = c := by
  apply Char.toLower_eq_of_not_isUpper
  unfold Char.isAlpha at h
  rw [Bool.or_eq_false_iff] at h
  simp [h.1]

theorem schemeChar_toLower (h : schemeChar c) : schemeChar c.toLower := by
  cases ha : c.isAlpha with
  | true => simp [schemeChar, Char.isAlphanum, ha]
  | false => rwa [toLower_of_not_alpha ha]

theorem regNameChar_toLower (h : regNameChar c) : regNameChar c.toLower := by
  cases ha : c.isAlpha with
  | true => simp [regNameChar, unreserved, Char.isAlphanum, ha]
  | false => rwa [toLower_of_not_alpha ha]

theorem hexDigit_toLower (h : hexDigit c) : hexDigit c.toLower := by
  unfold hexDigit at h
  rw [Bool.or_eq_true, decide_eq_true_eq] at h
  rcases h with h | h
  · have ha : c.isAlpha = false := by
      simp only [Char.isDigit, Bool.and_eq_true, decide_eq_true_eq, ge_iff_le, UInt32.le_iff_toNat_le,
        Char.toNat_val] at h
      simp at h
      simp [Char.isAlpha, Char.isUpper, Char.isLower, UInt32.le_iff_toNat_le]
      omega
    rw [toLower_of_not_alpha ha]
    simp [hexDigit, h]
  · simp only [List.mem_cons, List.not_mem_nil, or_false] at h
    rcases h with rfl | rfl | rfl | rfl | rfl | rfl | rfl | rfl | rfl | rfl | rfl | rfl <;> decide

theorem toLower_eq_percent (h : c.toLower = '%') : c = '%' := by
  cases ha : c.isAlpha with
  | true =>
    have hl : c.toLower.isAlpha = true := by rw [Char.isAlpha_toLower_eq_isAlpha, ha]
    rw [h] at hl
    exact absurd hl (by decide)
  | false => rwa [toLower_of_not_alpha ha] at h

/-! ### Percent-encoded texts -/

theorem mem_escapedFrom (hp : ∀ c, regNameChar c → p c) (h : escapedFrom p k t) (hc : c ∈ t) :
    p c ∨ c = '%' := by
  induction t generalizing k with
  | nil => cases hc
  | cons d t ih =>
    cases k with
    | zero =>
      unfold escapedFrom at h
      split at h
      · rcases List.mem_cons.1 hc with rfl | hc
        · exact .inr ‹_›
        · exact ih h hc
      · rw [Bool.and_eq_true] at h
        rcases List.mem_cons.1 hc with rfl | hc
        · exact .inl h.1
        · exact ih h.2 hc
    | succ k =>
      unfold escapedFrom at h
      rw [Bool.and_eq_true] at h
      rcases List.mem_cons.1 hc with rfl | hc
      · exact .inl (hp c (regName_of_hexDigit h.1))
      · exact ih h.2 hc

theorem escapedFrom_lower (hp : ∀ c, p c → p c.toLower) (h : escapedFrom p k t) :
    escapedFrom p k (t.map Char.toLower) := by
  induction t generalizing k with
  | nil => exact h
  | cons d t ih =>
    rw [List.map_cons]
    cases k with
    | zero =>
      unfold escapedFrom at h ⊢
      split at h
      · rename_i hd
        rw [hd, if_pos (by decide)]
        exact ih h
      · rename_i hd
        rw [Bool.and_eq_true] at h
        rw [if_neg fun he => hd (toLower_eq_percent he), hp d h.1, ih h.2]
        rfl
    | succ k =>
      unfold escapedFrom at h ⊢
      rw [Bool.and_eq_true] at h
      rw [hexDigit_toLower h.1, ih h.2]
      rfl

theorem escapedFrom_append {d : Char} {s : List Char} (hd : hexDigit d = false)
    (h : escapedFrom p k (t ++ d :: s)) : escapedFrom p k t := by
  induction t generalizing k with
  | nil =>
    cases k with
    | zero => rfl
    | succ k =>
      simp [escapedFrom, hd] at h
  | cons c t ih =>
    rw [List.cons_append] at h
    cases k with
    | zero =>
      unfold escapedFrom at h ⊢
      split
      · rw [if_pos ‹_›] at h
        exact ih h
      · rw [if_neg ‹_›, Bool.and_eq_true] at h
        rw [h.1, ih h.2]
        rfl
    | succ k =>
      unfold escapedFrom at h ⊢
      rw [Bool.and_eq_true] at h
      rw [h.1, ih h.2]
      rfl

end

/-! ### Parts of a URI -/

/-- The addresses that may stand in brackets. -/
structure IpSyntax where
  accepts : List Char → Bool
  userinfoChar_of_accepts : ∀ t, accepts t → ∀ c ∈ t, userinfoChar c
  accepts_lower : ∀ t, accepts t → accepts (t.map Char.toLower)

def isScheme : List Char → Bool
  | [] => false
  | c :: t => c.isAlpha && t.all schemeChar

/-- A host is an address in brackets or a registered name. -/
def isHost (ip : IpSyntax) (host : List Char) : Bool :=
  escaped regNameChar host ||
    (host == '[' :: (host.tail.dropLast ++ [']']) && ip.accepts host.tail.dropLast)

def rooted (path : List Char) : Bool := path.head?.all (· == '/')

structure Authority where
  userinfo : Option (List Char)
  host : List Char
  port : Option (List Char)
  deriving DecidableEq

structure Uri where
  scheme : List Char
  authority : Option Authority
  path : List Char
  query : Option (List Char)
  fragment : Option (List Char)
  deriving DecidableEq

/-- The parts are written in the characters they may have. -/
def Authority.isValid (ip : IpSyntax) (a : Authority) : Bool :=
  a.userinfo.all (escaped userinfoChar) && isHost ip a.host && a.port.all (·.all Char.isDigit)

/-- Without an authority the path must not look like one. -/
def Uri.isValid (ip : IpSyntax) (u : Uri) : Bool :=
  isScheme u.scheme && u.authority.all (·.isValid ip) && escaped pathChar u.path &&
    (if u.authority.isSome then rooted u.path else !List.isPrefixOf ['/', '/'] u.path) &&
    u.query.all (escaped queryChar) && u.fragment.all (escaped queryChar)

/-! ### Writing and parsing -/

def userinfoText : Option (List Char) → List Char
  | none => []
  | some t => t ++ ['@']

def Authority.text (a : Authority) : List Char := userinfoText a.userinfo ++ (a.host ++ marked ':' a.port)

def hierText (u : Uri) : List Char :=
  match u.authority with
  | none => u.path
  | some a => '/' :: '/' :: (a.text ++ u.path)

def Uri.text (u : Uri) : List Char :=
  u.scheme ++ ':' :: hierText u ++ marked '?' u.query ++ marked '#' u.fragment

/-- An address in brackets may have colons in it. -/
def splitPort (t : List Char) : List Char × Option (List Char) :=
  if t.head? = some '[' then
    match splitFirst ']' t with
    | (host, none) => (host, none)
    | (host, some rest) => (host ++ ']' :: (splitFirst ':' rest).1, (splitFirst ':' rest).2)
  else splitFirst ':' t

def splitAuthority (t : List Char) : Authority :=
  match splitFirst '@' t with
  | (rest, none) => ⟨none, (splitPort rest).1, (splitPort rest).2⟩
  | (userinfo, some rest) => ⟨some userinfo, (splitPort rest).1, (splitPort rest).2⟩

def splitHier : List Char → Option Authority × List Char
  | '/' :: '/' :: t => (some (splitAuthority (t.takeWhile (· ≠ '/'))), t.dropWhile (· ≠ '/'))
  | t => (none, t)

def split (t : List Char) : Option Uri :=
  let (body, fragment) := splitFirst '#' t
  let (body, query) := splitFirst '?' body
  match splitFirst ':' body with
  | (_, none) => none
  | (scheme, some hier) => some ⟨scheme, (splitHier hier).1, (splitHier hier).2, query, fragment⟩

def parse (ip : IpSyntax) (t : List Char) : Option Uri := (split t).filter (·.isValid ip)

section

variable {ip : IpSyntax} {c : Char} {t host : List Char} {port : Option (List Char)} {a : Authority}
  {u : Uri}

/-! ### The characters of the parts -/

def hostChar (c : Char) : Bool := userinfoChar c || c ∈ ['[', ']', '%']

def hierChar (c : Char) : Bool := hostChar c || c ∈ ['@', '/']

theorem hostChar_of_userinfo (h : userinfoChar c) : hostChar c := by
  unfold hostChar
  rw [h]
  rfl

theorem userinfo_of_regName (h : regNameChar c) : userinfoChar c := by
  unfold userinfoChar
  rw [h]
  rfl

theorem path_of_regName (h : regNameChar c) : pathChar c := by
  unfold pathChar
  rw [userinfo_of_regName h]
  rfl

theorem query_of_regName (h : regNameChar c) : queryChar c := by
  unfold queryChar
  rw [path_of_regName h]
  rfl

theorem userinfo_of_digit (h : c.isDigit) : userinfoChar c :=
  userinfo_of_regName (regName_of_hexDigit (by simp [hexDigit, h]))

theorem mem_scheme (h : isScheme t) (hc : c ∈ t) : schemeChar c := by
  cases t with
  | nil => cases hc
  | cons d t =>
    unfold isScheme at h
    rw [Bool.and_eq_true, List.all_eq_true] at h
    rcases List.mem_cons.1 hc with rfl | hc
    · simp [schemeChar, Char.isAlphanum, h.1]
    · exact h.2 c hc

theorem mem_userinfo (h : escaped userinfoChar t) (hc : c ∈ t) : hostChar c := by
  rcases mem_escapedFrom (fun _ => userinfo_of_regName) h hc with hc | rfl
  · exact hostChar_of_userinfo hc
  · decide

theorem mem_regName (h : escaped regNameChar t) (hc : c ∈ t) : regNameChar c ∨ c = '%' :=
  mem_escapedFrom (fun _ => id) h hc

theorem isHost_iff : isHost ip host ↔
    escaped regNameChar host ∨ ∃ t, host = '[' :: (t ++ [']']) ∧ ip.accepts t := by
  unfold isHost
  rw [Bool.or_eq_true, Bool.and_eq_true, beq_iff_eq]
  refine or_congr_right ⟨fun ⟨he, ha⟩ => ⟨_, he, ha⟩, ?_⟩
  rintro ⟨t, rfl, ha⟩
  rw [List.tail_cons, List.dropLast_concat]
  exact ⟨rfl, ha⟩

theorem mem_host (h : isHost ip host) (hc : c ∈ host) : hostChar c := by
  rcases isHost_iff.1 h with h | ⟨t, rfl, ha⟩
  · rcases mem_regName h hc with hc | rfl
    · exact hostChar_of_userinfo (userinfo_of_regName hc)
    · decide
  · simp only [List.mem_cons, List.mem_append, List.not_mem_nil, or_false] at hc
    rcases hc with rfl | hc | rfl
    · decide
    · exact hostChar_of_userinfo (ip.userinfoChar_of_accepts t ha c hc)
    · decide

variable {d : Char}

theorem mem_marked {t : Option (List Char)} (hc : c ∈ marked d t) :
    c = d ∨ ∃ s, t = some s ∧ c ∈ s := by
  cases t with
  | none => cases hc
  | some s =>
    rcases List.mem_cons.1 hc with rfl | hc
    · exact .inl rfl
    · exact .inr ⟨s, rfl, hc⟩

theorem mem_hostPort (hh : isHost ip host) (hp : port.all (·.all Char.isDigit))
    (hc : c ∈ host ++ marked ':' port) : hostChar c := by
  rcases List.mem_append.1 hc with hc | hc
  · exact mem_host hh hc
  · rcases mem_marked hc with rfl | ⟨s, rfl, hs⟩
    · decide
    · exact hostChar_of_userinfo (userinfo_of_digit (List.all_eq_true.1 hp c hs))

theorem hierChar_of_host (h : hostChar c) : hierChar c := by
  unfold hierChar
  rw [h]
  rfl

theorem Authority.valid_iff : a.isValid ip ↔ a.userinfo.all (escaped userinfoChar) ∧
    isHost ip a.host ∧ a.port.all (·.all Char.isDigit) := by
  unfold Authority.isValid
  rw [Bool.and_eq_true, Bool.and_eq_true, and_assoc]

theorem mem_authority (h : a.isValid ip) (hc : c ∈ a.text) : hostChar c ∨ c = '@' := by
  obtain ⟨hu, hh, hp⟩ := Authority.valid_iff.1 h
  rcases List.mem_append.1 hc with hc | hc
  · cases he : a.userinfo with
    | none =>
      rw [he] at hc
      cases hc
    | some s =>
      rw [he] at hc hu
      rcases List.mem_append.1 hc with hc | hc
      · exact .inl (mem_userinfo hu hc)
      · exact .inr (List.mem_singleton.1 hc)
  · exact .inl (mem_hostPort hh hp hc)

theorem mem_path (h : escaped pathChar t) (hc : c ∈ t) : hierChar c := by
  rcases mem_escapedFrom (fun _ => path_of_regName) h hc with hc | rfl
  · unfold pathChar at hc
    rw [Bool.or_eq_true] at hc
    unfold hierChar
    rw [Bool.or_eq_true]
    exact hc.imp hostChar_of_userinfo id
  · decide

theorem mem_query (h : escaped queryChar t) (hc : c ∈ t) : queryChar c ∨ c = '%' :=
  mem_escapedFrom (fun _ => query_of_regName) h hc

theorem Uri.valid_iff : u.isValid ip ↔ isScheme u.scheme ∧ u.authority.all (·.isValid ip) ∧
    escaped pathChar u.path ∧
    (if u.authority.isSome then rooted u.path else !List.isPrefixOf ['/', '/'] u.path) ∧
    u.query.all (escaped queryChar) ∧ u.fragment.all (escaped queryChar) := by
  unfold Uri.isValid
  simp only [Bool.and_eq_true, and_assoc]

theorem mem_hier (h : u.isValid ip) (hc : c ∈ hierText u) : hierChar c := by
  obtain ⟨-, ha, hp, -⟩ := Uri.valid_iff.1 h
  unfold hierText at hc
  split at hc
  · exact mem_path hp hc
  · rename_i a he
    rw [he] at ha
    simp only [List.mem_cons, List.mem_append] at hc
    rcases hc with rfl | rfl | hc | hc
    · decide
    · decide
    · rcases mem_authority ha hc with hc | rfl
      · exact hierChar_of_host hc
      · decide
    · exact mem_path hp hc

theorem visible_of_host (h : hostChar c) : visible c := by
  unfold hostChar at h
  rw [Bool.or_eq_true, decide_eq_true_eq] at h
  rcases h with h | h
  · exact visible_of_userinfo h
  · simp only [List.mem_cons, List.not_mem_nil, or_false] at h
    rcases h with rfl | rfl | rfl <;> decide

theorem visible_of_hier (h : hierChar c) : visible c := by
  unfold hierChar at h
  rw [Bool.or_eq_true, decide_eq_true_eq] at h
  rcases h with h | h
  · exact visible_of_host h
  · simp only [List.mem_cons, List.not_mem_nil, or_false] at h
    rcases h with rfl | rfl <;> decide

theorem visible_of_mem_query {q : Option (List Char)} (hd : visible d)
    (h : q.all (escaped queryChar)) (hc : c ∈ marked d q) : visible c := by
  rcases mem_marked hc with rfl | ⟨s, rfl, hs⟩
  · exact hd
  · rcases mem_query h hs with hc | rfl
    · exact visible_of_query hc
    · decide

theorem visible_text (h : u.isValid ip) (hc : c ∈ u.text) : visible c := by
  obtain ⟨hs, -, -, -, hq, hf⟩ := Uri.valid_iff.1 h
  unfold Uri.text at hc
  simp only [List.mem_append, List.mem_cons] at hc
  rcases hc with ((hc | rfl | hc) | hc) | hc
  · exact visible_of_scheme (mem_scheme hs hc)
  · decide
  · exact visible_of_hier (mem_hier h hc)
  · exact visible_of_mem_query (by decide) hq hc
  · exact visible_of_mem_query (by decide) hf hc

end

/-! ### Parts in lower case -/

def lower (t : List Char) : List Char := t.map Char.toLower

theorem lower_lower (t : List Char) : lower (lower t) = lower t := by
  unfold lower
  rw [List.map_map]
  exact List.map_congr_left fun c _ => Char.toLower_toLower_eq_toLower c

theorem isScheme_lower {t : List Char} (h : isScheme t) : isScheme (lower t) := by
  cases t with
  | nil => exact h
  | cons c t =>
    unfold isScheme at h
    rw [Bool.and_eq_true, List.all_eq_true] at h
    show (c.toLower.isAlpha && (t.map Char.toLower).all schemeChar) = true
    rw [Bool.and_eq_true, List.all_map, List.all_eq_true, Char.isAlpha_toLower_eq_isAlpha]
    exact ⟨h.1, fun d hd => schemeChar_toLower (h.2 d hd)⟩

theorem isHost_lower {ip : IpSyntax} {host : List Char} (h : isHost ip host) : isHost ip (lower host) := by
  rcases isHost_iff.1 h with h | ⟨t, rfl, ha⟩
  · exact isHost_iff.2 (.inl (escapedFrom_lower (fun _ => regNameChar_toLower) h))
  · refine isHost_iff.2 (.inr ⟨t.map Char.toLower, ?_, ip.accepts_lower t ha⟩)
    simp [lower]

/-! ### The round trip -/

section

variable {ip : IpSyntax} {t host : List Char} {port : Option (List Char)} {a : Authority} {u : Uri}

theorem splitPort_join (t : List Char) : (splitPort t).1 ++ marked ':' (splitPort t).2 = t := by
  unfold splitPort
  split
  · have hjoin := splitFirst_join ']' t
    rcases hs : splitFirst ']' t with ⟨inside, _ | rest⟩
    · rw [hs] at hjoin
      exact hjoin
    · rw [hs] at hjoin
      show (inside ++ ']' :: (splitFirst ':' rest).1) ++ marked ':' (splitFirst ':' rest).2 = t
      rw [List.append_assoc, List.cons_append, splitFirst_join]
      exact hjoin
  · exact splitFirst_join ':' t

theorem splitPort_hostPort (hh : isHost ip host) : splitPort (host ++ marked ':' port) = (host, port) := by
  unfold splitPort
  rcases isHost_iff.1 hh with hr | ⟨t, rfl, ha⟩
  · -- a registered name has neither a bracket nor a colon in it
    have hnot : ∀ d ∈ host, regNameChar d ∨ d = '%' := fun d => mem_regName hr
    rw [if_neg, splitFirst_append fun hmem => absurd (hnot _ hmem) (by decide)]
    intro he
    cases host with
    | nil => cases port <;> simp [marked] at he
    | cons c host =>
      cases he
      exact absurd (hnot _ List.mem_cons_self) (by decide)
  · have hclose : ']' ∉ '[' :: t := by
      intro hmem
      rcases List.mem_cons.1 hmem with he | hmem
      · exact absurd he (by decide)
      · exact absurd (ip.userinfoChar_of_accepts t ha _ hmem) (by decide)
    have hs : splitFirst ']' ('[' :: (t ++ [']']) ++ marked ':' port) = ('[' :: t, some (marked ':' port)) := by
      have h := splitFirst_append hclose (some (marked ':' port))
      simpa [marked] using h
    have hhead : ('[' :: (t ++ [']']) ++ marked ':' port).head? = some '[' := rfl
    rw [if_pos hhead, hs]
    show ('[' :: t ++ ']' :: (splitFirst ':' (marked ':' port)).1, (splitFirst ':' (marked ':' port)).2) = _
    rw [show splitFirst ':' (marked ':' port) = ([], port) from splitFirst_append List.not_mem_nil port]
    rfl

theorem text_splitAuthority (t : List Char) : (splitAuthority t).text = t := by
  have hjoin := splitFirst_join '@' t
  unfold splitAuthority
  rcases hs : splitFirst '@' t with ⟨before, _ | rest⟩
  · rw [hs] at hjoin
    show [] ++ ((splitPort before).1 ++ marked ':' (splitPort before).2) = t
    rw [splitPort_join, List.nil_append]
    exact (List.append_nil before).symm.trans hjoin
  · rw [hs] at hjoin
    show (before ++ ['@']) ++ ((splitPort rest).1 ++ marked ':' (splitPort rest).2) = t
    rw [splitPort_join, List.append_assoc, List.singleton_append]
    exact hjoin

theorem splitAuthority_text (h : a.isValid ip) : splitAuthority a.text = a := by
  obtain ⟨hu, hh, hp⟩ := Authority.valid_iff.1 h
  rcases a with ⟨_ | userinfo, host, port⟩
  · have hnot : '@' ∉ host ++ marked ':' port := fun hmem => absurd (mem_hostPort hh hp hmem) (by decide)
    unfold splitAuthority
    show (match splitFirst '@' (host ++ marked ':' port) with | (rest, none) => _ | (_, some _) => _) = _
    rw [splitFirst_none hnot]
    show Authority.mk none (splitPort (host ++ marked ':' port)).1 (splitPort (host ++ marked ':' port)).2 = _
    rw [splitPort_hostPort hh]
  · have hnot : '@' ∉ userinfo := fun hmem => absurd (mem_userinfo hu hmem) (by decide)
    have hs : splitFirst '@' (userinfo ++ ['@'] ++ (host ++ marked ':' port)) =
        (userinfo, some (host ++ marked ':' port)) := by
      have h := splitFirst_append hnot (some (host ++ marked ':' port))
      simpa [marked] using h
    unfold splitAuthority
    show (match splitFirst '@' (userinfo ++ ['@'] ++ (host ++ marked ':' port)) with
      | (rest, none) => _ | (_, some _) => _) = _
    rw [hs]
    show Authority.mk (some userinfo) (splitPort (host ++ marked ':' port)).1
      (splitPort (host ++ marked ':' port)).2 = _
    rw [splitPort_hostPort hh]

theorem hierText_splitHier (scheme t : List Char) (query fragment : Option (List Char)) :
    hierText ⟨scheme, (splitHier t).1, (splitHier t).2, query, fragment⟩ = t := by
  unfold splitHier
  split
  · rename_i t
    show '/' :: '/' :: ((splitAuthority (t.takeWhile (· ≠ '/'))).text ++ t.dropWhile (· ≠ '/')) = _
    rw [text_splitAuthority, List.takeWhile_append_dropWhile]
  · rfl

theorem splitHier_hierText (h : u.isValid ip) : splitHier (hierText u) = (u.authority, u.path) := by
  obtain ⟨-, ha, -, hroot, -⟩ := Uri.valid_iff.1 h
  unfold hierText
  cases he : u.authority with
  | none =>
    rw [he, if_neg (by decide)] at hroot
    show splitHier u.path = _
    unfold splitHier
    split
    · rename_i t heq
      rw [heq] at hroot
      exact absurd hroot (by simp [List.isPrefixOf])
    · rfl
  | some a =>
    rw [he] at ha hroot
    have hslash : ∀ c ∈ a.text, decide (c ≠ '/') = true := by
      intro c hc
      rw [decide_eq_true_eq]
      rintro rfl
      rcases mem_authority ha hc with hc | hc
      · exact absurd hc (by decide)
      · exact absurd hc (by decide)
    have hpath : u.path.takeWhile (· ≠ '/') = [] ∧ u.path.dropWhile (· ≠ '/') = u.path := by
      replace hroot : rooted u.path := hroot
      cases hp : u.path with
      | nil => exact ⟨rfl, rfl⟩
      | cons c path =>
        rw [hp] at hroot
        have hc : c = '/' := by simpa [rooted] using hroot
        rw [hc]
        exact ⟨rfl, rfl⟩
    show (some (splitAuthority ((a.text ++ u.path).takeWhile (· ≠ '/'))),
      (a.text ++ u.path).dropWhile (· ≠ '/')) = _
    rw [List.takeWhile_append_of_pos hslash, List.dropWhile_append_of_pos hslash, hpath.1, hpath.2,
      List.append_nil, splitAuthority_text ha]

/-- What is parsed is written back as it was. -/
theorem text_split (h : split t = some u) : u.text = t := by
  have hf := splitFirst_join '#' t
  have hq := splitFirst_join '?' (splitFirst '#' t).1
  have hs := splitFirst_join ':' (splitFirst '?' (splitFirst '#' t).1).1
  unfold split at h
  revert h
  rcases hc : splitFirst ':' (splitFirst '?' (splitFirst '#' t).1).1 with ⟨scheme, _ | hier⟩
  · simp [hc]
  · rw [hc] at hs
    simp only [hc, Option.some.injEq]
    rintro rfl
    show scheme ++ ':' :: hierText _ ++ marked '?' _ ++ marked '#' _ = t
    replace hs : scheme ++ ':' :: hier = (splitFirst '?' (splitFirst '#' t).1).1 := hs
    rw [hierText_splitHier, hs]
    show (splitFirst '?' (splitFirst '#' t).1).1 ++ marked '?' (splitFirst '?' (splitFirst '#' t).1).2 ++
      marked '#' (splitFirst '#' t).2 = t
    rw [hq, hf]

theorem split_text (h : u.isValid ip) : split u.text = some u := by
  have hscheme : ∀ c ∈ u.scheme, schemeChar c := fun c => mem_scheme (Uri.valid_iff.1 h).1
  have hquery := (Uri.valid_iff.1 h).2.2.2.2.1
  have hcolon : ':' ∉ u.scheme := fun hmem => absurd (hscheme _ hmem) (by decide)
  have hmark : '?' ∉ u.scheme ++ ':' :: hierText u := by
    intro hmem
    simp only [List.mem_append, List.mem_cons] at hmem
    rcases hmem with hmem | hmem | hmem
    · exact absurd (hscheme _ hmem) (by decide)
    · exact absurd hmem (by decide)
    · exact absurd (mem_hier h hmem) (by decide)
  have hhash : '#' ∉ u.scheme ++ ':' :: hierText u ++ marked '?' u.query := by
    intro hmem
    simp only [List.mem_append, List.mem_cons] at hmem
    rcases hmem with (hmem | hmem | hmem) | hmem
    · exact absurd (hscheme _ hmem) (by decide)
    · exact absurd hmem (by decide)
    · exact absurd (mem_hier h hmem) (by decide)
    · rcases mem_marked hmem with he | ⟨s, he, hs⟩
      · exact absurd he (by decide)
      · rw [he] at hquery
        exact absurd (mem_query hquery hs) (by decide)
  have hs : splitFirst ':' (u.scheme ++ ':' :: hierText u) = (u.scheme, some (hierText u)) :=
    splitFirst_append hcolon (some (hierText u))
  unfold split Uri.text
  simp only [splitFirst_append hhash, splitFirst_append hmark, hs, splitHier_hierText h]

theorem parse_text (h : u.isValid ip) : parse ip u.text = some u := by
  unfold parse
  rw [split_text h]
  exact if_pos h

theorem text_parse (h : parse ip t = some u) : u.isValid ip ∧ u.text = t := by
  obtain ⟨hs, hv⟩ := Option.filter_eq_some_iff.1 h
  exact ⟨hv, text_split hs⟩

end

end QuickBeam.Lib.Rfc3986
