import QuickBeam.Web.Url

/-!
# Stability of URLs

The `href` of a URL spells a URI again, `spelled`, with an authority in every case, the scheme and
the host in lower case, and neither a default port nor an empty part.  When this URI is valid it is
what `href` parses to and what `recompose` writes, so it remains to compare its components with
those of the URI that was given.
-/

set_option linter.dupNamespace false

namespace QuickBeam.Web.Url

open QuickBeam.Lib QuickBeam.Lib.FirstMark QuickBeam.Lib.Rfc3986

/-! ### The URI that is spelled -/

def hostOf (u : Uri) : List Char := (u.authority.map (·.host)).getD []

def userOf (u : Uri) : List Char × List Char := splitUserinfo ((u.authority.bind (·.userinfo)).getD [])

def portOf (u : Uri) : Option ℕ := u.authority.bind fun a => portNumber a.port

/-- The URI with its parts spelled out, where `host` is what stands for the host. -/
def spelledAs (host : List Char) (u : Uri) : Uri where
  scheme := lower u.scheme
  authority := some {
    userinfo := unlessEmpty (buildUserinfo (userOf u).1 (userOf u).2)
    host := host
    port := unlessEmpty (formatPort ((portOf u).map Int.ofNat) (lower u.scheme)) }
  path := if hostOf u ≠ [] ∧ u.path = [] then ['/'] else u.path
  query := u.query.filter (· ≠ [])
  fragment := u.fragment.filter (· ≠ [])

def spelled (u : Uri) : Uri := spelledAs (lower (hostOf u)) u

/-- The URI is one whose `href` means the same. -/
structure SpellsOut (uri : UriString) (u : Uri) : Prop where
  /-- Without a host the path could be taken for one. -/
  rooted_of_hostless : hostOf u = [] → rooted u.path
  /-- A password stands behind a user name. -/
  password_of_nameless : (userOf u).1 = [] → (userOf u).2 = []
  /-- The host is presented as it is written. -/
  presented : lower (uri.present (hostOf u)) = lower (hostOf u)

/-- What `parse` gives is given for its `href` too, and `recompose` writes this `href`. -/
structure Stable (uri : UriString) (c : Components) : Prop where
  parses : parse uri c.href none = .ok c
  recomposes : recompose uri c = some c.href

def accepted (uri : UriString) (input : List Char) : Option (List Char) → Option Uri
  | none => Rfc3986.parse uri.ip (trim input)
  | some base => do
    let _ ← Rfc3986.parse uri.ip base
    let resolved ← uri.resolve (trim input) base
    Rfc3986.parse uri.ip resolved

/-! ### Pieces of text -/

theorem marked_unlessEmpty (mark : Char) (t : List Char) :
    marked mark (unlessEmpty t) = if t ≠ [] then mark :: t else [] := by
  unfold unlessEmpty
  split
  · rename_i h
    rw [if_neg fun hne => hne h]
    rfl
  · rfl

theorem marked_filter (mark : Char) (t : Option (List Char)) :
    marked mark (t.filter (· ≠ [])) = prefixIfPresent mark t := by
  rcases t with _ | _ | ⟨c, t⟩ <;> rfl

theorem prefixIfPresent_filter (mark : Char) (t : Option (List Char)) :
    prefixIfPresent mark (t.filter (· ≠ [])) = prefixIfPresent mark t := by
  rcases t with _ | _ | ⟨c, t⟩ <;> rfl

theorem userinfoText_unlessEmpty (username password : List Char) :
    userinfoText (unlessEmpty (buildUserinfo username password)) =
      buildUserinfoPrefix username password := by
  rcases username with _ | ⟨c, username⟩
  · rfl
  · rcases password with _ | ⟨d, password⟩
    · rfl
    · rfl

/-- The user name has no colon in it, so the two are told apart again. -/
theorem splitUserinfo_buildUserinfo {username password : List Char} (hc : ':' ∉ username)
    (hp : username = [] → password = []) :
    splitUserinfo ((unlessEmpty (buildUserinfo username password)).getD []) = (username, password) := by
  rcases username with _ | ⟨c, username⟩
  · rw [hp rfl]
    rfl
  · rcases password with _ | ⟨d, password⟩
    · show ((splitFirst ':' (c :: username)).1, (splitFirst ':' (c :: username)).2.getD []) = _
      rw [splitFirst_none hc]
      rfl
    · show ((splitFirst ':' (c :: username ++ marked ':' (some (d :: password)))).1,
        (splitFirst ':' (c :: username ++ marked ':' (some (d :: password)))).2.getD []) = _
      rw [splitFirst_append hc]
      rfl

theorem colon_not_mem_splitUserinfo (userinfo : List Char) : ':' ∉ (splitUserinfo userinfo).1 := by
  unfold splitUserinfo
  split
  · exact List.not_mem_nil
  · exact not_mem_splitFirst ':' userinfo

/-! ### Ports -/

def writtenPort (scheme : List Char) (n : Option ℕ) : Option ℕ :=
  n.filter fun n => !isDefaultPort scheme (Int.ofNat n)

theorem formatPort_eq (n : Option ℕ) (scheme : List Char) :
    formatPort (n.map Int.ofNat) scheme = ((writtenPort scheme n).map (Nat.toDigits 10)).getD [] := by
  cases n with
  | none => rfl
  | some n =>
    show (if isDefaultPort scheme (Int.ofNat n) then [] else Nat.toDigits 10 n) = _
    cases h : isDefaultPort scheme (Int.ofNat n) with
    | true =>
      rw [writtenPort, Option.filter_some_neg (by rw [h]; decide)]
      rfl
    | false =>
      rw [writtenPort, Option.filter_some_pos (by rw [h]; rfl)]
      rfl

theorem formatPort_writtenPort (n : Option ℕ) (scheme : List Char) :
    formatPort ((writtenPort scheme n).map Int.ofNat) scheme = formatPort (n.map Int.ofNat) scheme := by
  rw [formatPort_eq, formatPort_eq, writtenPort, writtenPort, Option.filter_filter]
  simp

theorem writtenPort_or (n : Option ℕ) (scheme : List Char) :
    ((writtenPort scheme n).map Int.ofNat).or ((defaultPorts.lookup scheme).map Int.ofNat) =
      (n.map Int.ofNat).or ((defaultPorts.lookup scheme).map Int.ofNat) := by
  cases n with
  | none => rfl
  | some n =>
    cases h : isDefaultPort scheme (Int.ofNat n) with
    | true =>
      rw [writtenPort, Option.filter_some_neg (by rw [h]; decide)]
      exact beq_iff_eq.1 h
    | false =>
      rw [writtenPort, Option.filter_some_pos (by rw [h]; rfl)]

theorem unlessEmpty_formatPort (n : Option ℕ) (scheme : List Char) :
    unlessEmpty (formatPort (n.map Int.ofNat) scheme) = (writtenPort scheme n).map (Nat.toDigits 10) := by
  rw [formatPort_eq]
  cases writtenPort scheme n with
  | none => rfl
  | some n => exact if_neg Nat.toDigits_ne_nil

theorem portNumber_toDigits (n : Option ℕ) : portNumber (n.map (Nat.toDigits 10)) = n := by
  cases n with
  | none => rfl
  | some n =>
    unfold portNumber
    rw [Option.map_some, Option.filter_some_pos (by simp), Option.map_some, Nat.ofDigitChars_ten_toDigits]

theorem toInteger_toDigits (n : ℕ) : toInteger (Nat.toDigits 10 n) = some (Int.ofNat n) := by
  have hdigit : ∀ c ∈ Nat.toDigits 10 n, c.isDigit = true := fun c hc =>
    Nat.isDigit_of_mem_toDigits (by decide) (by decide) hc
  unfold toInteger
  simp only
  split
  · rename_i t he
    rw [he] at hdigit
    exact absurd (hdigit '-' List.mem_cons_self) (by decide)
  · rename_i t he
    rw [he] at hdigit
    exact absurd (hdigit '+' List.mem_cons_self) (by decide)
  · rw [if_pos ⟨Nat.toDigits_ne_nil, List.all_eq_true.2 hdigit⟩, Nat.ofDigitChars_ten_toDigits]
    rfl

theorem putPort_formatPort (n : Option ℕ) (scheme : List Char) :
    putPort (formatPort (n.map Int.ofNat) scheme) = some ((writtenPort scheme n).map Int.ofNat) := by
  rw [formatPort_eq]
  cases writtenPort scheme n with
  | none => rfl
  | some n =>
    show (if Nat.toDigits 10 n = [] then some none else (toInteger (Nat.toDigits 10 n)).map some) = _
    rw [if_neg Nat.toDigits_ne_nil, toInteger_toDigits]
    rfl

/-! ### Components of a URI -/

section

variable {uri : UriString} {u : Uri}

theorem present_nil (uri : UriString) : uri.present [] = [] := uri.present_name [] rfl

theorem present_injective {host host' : List Char} (hh : isHost uri.ip host) (hh' : isHost uri.ip host')
    (he : uri.present host = uri.present host') : host = host' := by
  let at' (host : List Char) : Uri := ⟨['a'], some ⟨none, host, none⟩, [], none, none⟩
  have hvalid : ∀ host, isHost uri.ip host → (at' host).isValid uri.ip := by
    intro host hh
    refine Uri.valid_iff.2 ⟨rfl, Authority.valid_iff.2 ⟨rfl, hh, rfl⟩, rfl, rfl, rfl, rfl⟩
  have hport : ∀ host, PortWritten (at' host) := by
    intro host a ha
    cases ha
    rfl
  have hmap : mapOf uri.present (at' host) = mapOf uri.present (at' host') := by
    show UriMap.mk _ _ (some (uri.present host)) _ _ _ _ = UriMap.mk _ _ (some (uri.present host')) _ _ _ _
    rw [he]
    rfl
  have htext : (at' host).text = (at' host').text := by
    apply Option.some.inj
    rw [← uri.recompose_mapOf _ (hvalid host hh) (hport host), hmap,
      uri.recompose_mapOf _ (hvalid host' hh') (hport host')]
  simpa [at', Uri.text, hierText, Authority.text, userinfoText, marked] using htext

theorem isHost_nil (ip : IpSyntax) : isHost ip [] := isHost_iff.2 (.inl rfl)

theorem isHost_hostOf (hv : u.isValid uri.ip) : isHost uri.ip (hostOf u) := by
  have ha := (Uri.valid_iff.1 hv).2.1
  unfold hostOf
  cases he : u.authority with
  | none => exact isHost_nil uri.ip
  | some a =>
    rw [he] at ha
    exact (Authority.valid_iff.1 ha).2.1

theorem present_eq_nil (hv : u.isValid uri.ip) : uri.present (hostOf u) = [] ↔ hostOf u = [] := by
  constructor
  · intro he
    exact present_injective (isHost_hostOf hv) (isHost_nil uri.ip) (he.trans (present_nil uri).symm)
  · intro he
    rw [he, present_nil]

theorem mapOf_host (uri : UriString) (u : Uri) :
    (mapOf uri.present u).host.getD [] = uri.present (hostOf u) := by
  unfold mapOf hostOf
  cases u.authority with
  | none => exact (present_nil uri).symm
  | some a => rfl

theorem text_spelledAs (host : List Char) (u : Uri) : (spelledAs host u).text =
    lower u.scheme ++ [':', '/', '/'] ++ buildUserinfoPrefix (userOf u).1 (userOf u).2 ++ host ++
      (if formatPort ((portOf u).map Int.ofNat) (lower u.scheme) ≠ [] then
        ':' :: formatPort ((portOf u).map Int.ofNat) (lower u.scheme) else []) ++
      (spelledAs host u).path ++ prefixIfPresent '?' u.query ++ prefixIfPresent '#' u.fragment := by
  rw [← marked_unlessEmpty, ← userinfoText_unlessEmpty, ← marked_filter '?', ← marked_filter '#']
  simp [Uri.text, hierText, Authority.text, spelledAs]

theorem buildComponents_mapOf (hv : u.isValid uri.ip) : buildComponents (mapOf uri.present u) =
    { protocol := lower u.scheme ++ [':']
      hostname := lower (uri.present (hostOf u))
      port := formatPort ((portOf u).map Int.ofNat) (lower u.scheme)
      pathname := (spelled u).path
      search := prefixIfPresent '?' u.query
      hash := prefixIfPresent '#' u.fragment
      username := (userOf u).1
      password := (userOf u).2
      origin := buildOrigin (lower u.scheme) (uri.present (hostOf u))
        (formatPort ((portOf u).map Int.ofNat) (lower u.scheme))
      href := (spelledAs (lower (uri.present (hostOf u))) u).text
      _port := ((portOf u).map Int.ofNat).or ((defaultPorts.lookup (lower u.scheme)).map Int.ofNat) } := by
  have hpath : (if uri.present (hostOf u) ≠ [] ∧ u.path = [] then ['/'] else u.path) = (spelled u).path := by
    unfold spelled spelledAs
    simp only [ne_eq, present_eq_nil hv]
  unfold buildComponents
  simp only [mapOf_host]
  rw [text_spelledAs, show (spelledAs (lower (uri.present (hostOf u))) u).path = (spelled u).path from rfl,
    ← hpath]
  rfl

end

/-! ### The spelled URI -/

section

variable {uri : UriString} {u : Uri}

theorem escaped_buildUserinfo {t : List Char} (h : escaped userinfoChar t) :
    escaped userinfoChar (buildUserinfo (splitUserinfo t).1 (splitUserinfo t).2) := by
  unfold splitUserinfo
  split
  · rfl
  · have hjoin := splitFirst_join ':' t
    rcases hs : splitFirst ':' t with ⟨_ | ⟨c, username⟩, _ | _ | ⟨d, password⟩⟩
    · rfl
    · rfl
    · rfl
    · rw [hs] at hjoin
      rw [← hjoin] at h
      show escaped userinfoChar (c :: username) = true
      simpa [marked] using h
    · -- the colon of an empty password is not written
      show escaped userinfoChar (c :: username) = true
      rw [hs] at hjoin
      rw [← hjoin] at h
      exact escapedFrom_append (by decide) h
    · rw [hs] at hjoin
      rw [← hjoin] at h
      exact h

theorem rooted_spelled (hv : u.isValid uri.ip) (hroot : hostOf u = [] → rooted u.path) :
    rooted (spelled u).path := by
  show rooted (if hostOf u ≠ [] ∧ u.path = [] then ['/'] else u.path) = true
  split
  · rfl
  · cases he : u.authority with
    | none => exact hroot (by rw [hostOf, he]; rfl)
    | some a =>
      have hpath := (Uri.valid_iff.1 hv).2.2.2.1
      rw [he] at hpath
      exact hpath

theorem isValid_spelled (hv : u.isValid uri.ip) (hroot : hostOf u = [] → rooted u.path) :
    (spelled u).isValid uri.ip := by
  obtain ⟨hs, ha, hp, -, hq, hf⟩ := Uri.valid_iff.1 hv
  have huser : escaped userinfoChar ((u.authority.bind (·.userinfo)).getD []) := by
    cases he : u.authority with
    | none => rfl
    | some a =>
      rw [he] at ha
      have hu := (Authority.valid_iff.1 ha).1
      show escaped userinfoChar (a.userinfo.getD []) = true
      cases hi : a.userinfo with
      | none => rfl
      | some t =>
        rw [hi] at hu
        exact hu
  have hfilter : ∀ t : Option (List Char), t.all (escaped queryChar) →
      (t.filter (· ≠ [])).all (escaped queryChar) := by
    intro t ht
    rcases t with _ | _ | ⟨c, t⟩
    · rfl
    · rfl
    · exact ht
  refine Uri.valid_iff.2 ⟨isScheme_lower hs, Authority.valid_iff.2 ⟨?_, ?_, ?_⟩, ?_,
    rooted_spelled hv hroot, hfilter _ hq, hfilter _ hf⟩
  · show (unlessEmpty (buildUserinfo (userOf u).1 (userOf u).2)).all (escaped userinfoChar) = true
    unfold unlessEmpty
    split
    · rfl
    · exact escaped_buildUserinfo huser
  · exact isHost_lower (isHost_hostOf hv)
  · show (unlessEmpty (formatPort ((portOf u).map Int.ofNat) (lower u.scheme))).all (·.all Char.isDigit) = true
    rw [unlessEmpty_formatPort]
    cases writtenPort (lower u.scheme) (portOf u) with
    | none => rfl
    | some n => exact List.all_eq_true.2 fun c hc => Nat.isDigit_of_mem_toDigits (by decide) (by decide) hc
  · show escaped pathChar (if hostOf u ≠ [] ∧ u.path = [] then ['/'] else u.path) = true
    split
    · rfl
    · exact hp

theorem portOf_spelled (u : Uri) : portOf (spelled u) = writtenPort (lower u.scheme) (portOf u) := by
  show portNumber (unlessEmpty (formatPort ((portOf u).map Int.ofNat) (lower u.scheme))) = _
  rw [unlessEmpty_formatPort, portNumber_toDigits]

theorem portWritten_spelled (u : Uri) : PortWritten (spelled u) := by
  intro a ha
  cases ha
  show unlessEmpty (formatPort _ _) = (portNumber (unlessEmpty (formatPort _ _))).map (Nat.toDigits 10)
  rw [unlessEmpty_formatPort, portNumber_toDigits]

theorem unlessEmpty_stripPrefix (uri : UriString) {mark : Char} {t : Option (List Char)} (hm : visible mark)
    (ht : t.all (escaped queryChar)) :
    unlessEmpty (stripPrefix uri mark (prefixIfPresent mark t)) = t.filter (· ≠ []) := by
  rcases t with _ | _ | ⟨c, t⟩
  · rfl
  · rfl
  · have hc : visible c := by
      rcases mem_query ht List.mem_cons_self with hc | rfl
      · exact visible_of_query hc
      · decide
    show unlessEmpty (if (mark :: c :: t).head? = some mark then
      (mark :: c :: t).drop (uri.grapheme (mark :: c :: t)) else mark :: c :: t) = _
    rw [List.head?_cons, if_pos rfl, uri.grapheme_visible mark (c :: t) hm hc]
    rfl

theorem recomposeMap_spelled (hv : u.isValid uri.ip) :
    recomposeMap uri (buildComponents (mapOf uri.present u)) = some (mapOf uri.present (spelled u)) := by
  obtain ⟨hs, -, -, -, hq, hf⟩ := Uri.valid_iff.1 hv
  have hscheme : (lower u.scheme ++ [':']).rdropWhile (· == ':') = lower u.scheme := by
    rw [List.rdropWhile_concat_pos _ _ _ (by rfl), List.rdropWhile_eq_self_iff]
    intro hne he
    have hmem := mem_scheme (isScheme_lower hs) (List.getLast_mem hne)
    rw [beq_iff_eq.1 he] at hmem
    exact absurd hmem (by decide)
  rw [buildComponents_mapOf hv]
  unfold recomposeMap
  simp only [putPort_formatPort, hscheme, unlessEmpty_stripPrefix uri (show visible '?' by decide) hq,
    unlessEmpty_stripPrefix uri (show visible '#' by decide) hf]
  rw [← uri.present_lower _ (isHost_hostOf hv), ← portOf_spelled]
  rfl

theorem recompose_buildComponents (hv : u.isValid uri.ip) (hroot : hostOf u = [] → rooted u.path) :
    recompose uri (buildComponents (mapOf uri.present u)) = some (spelled u).text := by
  unfold recompose
  rw [recomposeMap_spelled hv]
  exact uri.recompose_mapOf _ (isValid_spelled hv hroot) (portWritten_spelled u)

theorem buildComponents_spelled (hv : u.isValid uri.ip) (h : SpellsOut uri u) :
    buildComponents (mapOf uri.present (spelled u)) = buildComponents (mapOf uri.present u) := by
  have hhost : lower (uri.present (hostOf (spelled u))) = lower (uri.present (hostOf u)) := by
    show lower (uri.present (lower (hostOf u))) = _
    rw [uri.present_lower _ (isHost_hostOf hv), lower_lower]
  have hscheme : lower (spelled u).scheme = lower u.scheme := lower_lower u.scheme
  have huser : userOf (spelled u) = userOf u :=
    splitUserinfo_buildUserinfo (colon_not_mem_splitUserinfo _) h.password_of_nameless
  have hpath : (spelled (spelled u)).path = (spelled u).path := by
    show (if lower (hostOf u) ≠ [] ∧ (spelled u).path = [] then ['/'] else (spelled u).path) = _
    rw [if_neg]
    rintro ⟨hne, he⟩
    replace hne : hostOf u ≠ [] := fun he => hne (by rw [he]; rfl)
    rw [show (spelled u).path = if hostOf u ≠ [] ∧ u.path = [] then ['/'] else u.path from rfl] at he
    split at he
    · cases he
    · rename_i hnot
      exact hnot ⟨hne, he⟩
  have hport : formatPort ((portOf (spelled u)).map Int.ofNat) (lower u.scheme) =
      formatPort ((portOf u).map Int.ofNat) (lower u.scheme) := by
    rw [portOf_spelled, formatPort_writtenPort]
  have hquery : prefixIfPresent '?' (spelled u).query = prefixIfPresent '?' u.query :=
    prefixIfPresent_filter '?' u.query
  have hfragment : prefixIfPresent '#' (spelled u).fragment = prefixIfPresent '#' u.fragment :=
    prefixIfPresent_filter '#' u.fragment
  have horigin : ∀ port, buildOrigin (lower u.scheme) (uri.present (hostOf (spelled u))) port =
      buildOrigin (lower u.scheme) (uri.present (hostOf u)) port := by
    intro port
    unfold buildOrigin
    rw [hhost]
  have htext : ∀ host, (spelledAs host (spelled u)).text = (spelledAs host u).text := by
    intro host
    rw [text_spelledAs, text_spelledAs, hscheme, huser, hport, hquery, hfragment,
      show (spelledAs host (spelled u)).path = (spelled (spelled u)).path from rfl, hpath]
    rfl
  rw [buildComponents_mapOf hv, buildComponents_mapOf (isValid_spelled hv h.rooted_of_hostless)]
  rw [hhost, hscheme, huser, hpath, hport, hquery, hfragment, horigin, htext, portOf_spelled, writtenPort_or]

end

/-! ### Stability -/

section

variable {uri : UriString} {u : Uri}

theorem not_isSpace_of_visible {c : Char} (h : visible c) : isSpace c = false := by
  simp only [visible, Bool.and_eq_true, decide_eq_true_eq] at h
  simp only [isSpace, Bool.or_eq_false_iff, Bool.and_eq_false_iff, decide_eq_false_iff_not, List.mem_cons,
    List.not_mem_nil, or_false, not_or]
  omega

variable {t : List Char}

theorem trim_of_visible (h : ∀ c ∈ t, visible c) : trim t = t := by
  have hleft : t.dropWhile isSpace = t := by
    cases t with
    | nil => rfl
    | cons c t => exact List.dropWhile_cons_of_neg (by rw [not_isSpace_of_visible (h c List.mem_cons_self)]; decide)
  unfold trim
  rw [hleft, List.rdropWhile_eq_self_iff]
  intro hne
  rw [not_isSpace_of_visible (h _ (List.getLast_mem hne))]
  decide

variable {c : Components}

theorem parseAbsolute_eq_ok : parseAbsolute uri t = .ok c ↔
    ∃ u, Rfc3986.parse uri.ip t = some u ∧ buildComponents (mapOf uri.present u) = c := by
  unfold parseAbsolute
  cases Rfc3986.parse uri.ip t with
  | none => simp
  | some u => simp

variable {base : Option (List Char)} {input : List Char}

theorem parse_eq_ok : parse uri input base = .ok c ↔
      ∃ u, accepted uri input base = some u ∧ buildComponents (mapOf uri.present u) = c := by
  unfold parse
  cases base with
  | none => exact parseAbsolute_eq_ok
  | some base =>
    unfold resolveAndParse accepted parseAbsolute
    simp only
    cases Rfc3986.parse uri.ip base with
    | none => simp
    | some b =>
      cases uri.resolve (trim input) base with
      | none => simp
      | some resolved => exact parseAbsolute_eq_ok

theorem isValid_of_accepted (h : accepted uri input base = some u) : u.isValid uri.ip := by
  cases base with
  | none => exact (text_parse h).1
  | some base =>
    obtain ⟨_, -, h⟩ := Option.bind_eq_some_iff.1 h
    obtain ⟨_, -, h⟩ := Option.bind_eq_some_iff.1 h
    exact (text_parse h).1

theorem href_buildComponents (hv : u.isValid uri.ip) : (buildComponents (mapOf uri.present u)).href =
    (spelledAs (lower (uri.present (hostOf u))) u).text := by
  rw [buildComponents_mapOf hv]

/-- The `href` of a valid spelled URI parses to it. -/
theorem parse_spelled (hv : (spelled u).isValid uri.ip) : parse uri (spelled u).text none =
    .ok (buildComponents (mapOf uri.present (spelled u))) := by
  unfold parse
  rw [trim_of_visible fun c => visible_text hv]
  exact parseAbsolute_eq_ok.2 ⟨spelled u, parse_text hv, rfl⟩

theorem stable_of_spellsOut (hv : u.isValid uri.ip) (h : SpellsOut uri u) :
    Stable uri (buildComponents (mapOf uri.present u)) := by
  have hhref : (buildComponents (mapOf uri.present u)).href = (spelled u).text := by
    rw [href_buildComponents hv, h.presented]
    rfl
  constructor
  · rw [hhref, parse_spelled (isValid_spelled hv h.rooted_of_hostless), buildComponents_spelled hv h]
  · rw [hhref]
    exact recompose_buildComponents hv h.rooted_of_hostless

theorem text_spelled_hostless (hhost : hostOf u = []) :
    ∃ before behind, ∀ path, (spelled { u with path := path }).text = before ++ path ++ behind := by
  let port := formatPort ((portOf u).map Int.ofNat) (lower u.scheme)
  refine ⟨lower u.scheme ++ [':', '/', '/'] ++ buildUserinfoPrefix (userOf u).1 (userOf u).2 ++
    lower (hostOf u) ++ (if port ≠ [] then ':' :: port else []),
    prefixIfPresent '?' u.query ++ prefixIfPresent '#' u.fragment, fun path => ?_⟩
  have hpath : (if hostOf u ≠ [] ∧ path = [] then ['/'] else path) = path := if_neg fun hne => hne.1 hhost
  rw [spelled, text_spelledAs, List.append_assoc _ (prefixIfPresent '?' _)]
  show _ ++ (if hostOf u ≠ [] ∧ path = [] then ['/'] else path) ++ _ = _
  rw [hpath]
  rfl

/-- Where `href` has neither host nor rooted path, its characters still are those of a URI. -/
theorem visible_spelled (hv : u.isValid uri.ip) (hhost : hostOf u = []) :
    ∀ c ∈ (spelled u).text, visible c := by
  by_cases hroot : rooted u.path
  · exact fun c => visible_text (isValid_spelled hv fun _ => hroot)
  · -- with a slash before its path the URI is a valid one
    obtain ⟨hs, ha, hp, hpath, hq, hf⟩ := Uri.valid_iff.1 hv
    have hnone : u.authority = none := by
      cases he : u.authority with
      | none => rfl
      | some a =>
        rw [he] at hpath
        exact absurd hpath hroot
    have hslash : ({ u with path := '/' :: u.path } : Uri).isValid uri.ip := by
      refine Uri.valid_iff.2 ⟨hs, ha, hp, ?_, hq, hf⟩
      show (if u.authority.isSome then _ else !List.isPrefixOf ['/', '/'] ('/' :: u.path)) = true
      rw [hnone]
      cases he : u.path with
      | nil => rfl
      | cons c path =>
        have hc : c ≠ '/' := by
          rintro rfl
          rw [he] at hroot
          exact hroot rfl
        simpa [List.isPrefixOf] using hc.symm
    obtain ⟨before, behind, htext⟩ := text_spelled_hostless hhost
    intro c hc
    refine visible_text (isValid_spelled hslash fun _ => rfl) ?_
    rw [show u = { u with path := u.path } from rfl, htext] at hc
    rw [htext, List.mem_append, List.mem_append, List.mem_cons]
    rw [List.mem_append, List.mem_append] at hc
    exact hc.imp_left (Or.imp_right Or.inr)

theorem rooted_of_stable (hv : u.isValid uri.ip) (h : Stable uri (buildComponents (mapOf uri.present u)))
    (hhost : hostOf u = []) : rooted u.path := by
  have hparse := h.parses
  rw [href_buildComponents hv, hhost, present_nil, show spelledAs (lower []) u = spelled u by
    rw [spelled, hhost]] at hparse
  unfold parse at hparse
  rw [trim_of_visible (visible_spelled hv hhost)] at hparse
  obtain ⟨u', hu', hc⟩ := parseAbsolute_eq_ok.1 hparse
  obtain ⟨hv', htext⟩ := text_parse hu'
  rw [buildComponents_mapOf hv', buildComponents_mapOf hv, Components.mk.injEq] at hc
  obtain ⟨hprotocol, -, -, hpath, -⟩ := hc
  replace hpath : (if hostOf u' ≠ [] ∧ u'.path = [] then ['/'] else u'.path) = u.path := by
    refine hpath.trans ?_
    exact if_neg fun hne => hne.1 hhost
  split at hpath
  · rw [← hpath]
    rfl
  · rw [← hpath]
    have hlength : u'.scheme.length = (lower u.scheme).length := by
      have := congrArg List.length hprotocol
      simpa [lower] using this
    have hroot := (Uri.valid_iff.1 hv').2.2.2.1
    cases ha : u'.authority with
    | some a =>
      rw [ha] at hroot
      exact hroot
    | none =>
      have hslash : u'.scheme ++ ':' :: (u'.path ++ marked '?' u'.query ++ marked '#' u'.fragment) =
          lower u.scheme ++ ':' :: '/' :: '/' :: (((spelled u).authority.map (·.text)).getD [] ++
            (spelled u).path ++ marked '?' (spelled u).query ++ marked '#' (spelled u).fragment) := by
        have hhier : hierText u' = u'.path := by
          unfold hierText
          rw [ha]
        unfold Uri.text at htext
        rw [hhier] at htext
        simpa [hierText, spelled, spelledAs] using htext
      have htail := List.append_inj_right hslash hlength
      cases hp : u'.path with
      | nil => rfl
      | cons c path =>
        rw [hp] at htail
        have hc : c = '/' := (List.cons.inj (List.cons.inj htail).2).1
        rw [hc]
        rfl

end

section

variable {uri : UriString} {u : Uri}

theorem presented_of_stable (hv : u.isValid uri.ip) (h : Stable uri (buildComponents (mapOf uri.present u)))
    (hroot : hostOf u = [] → rooted u.path) : lower (uri.present (hostOf u)) = lower (hostOf u) := by
  have htext : (spelled u).text = (spelledAs (lower (uri.present (hostOf u))) u).text := by
    apply Option.some.inj
    rw [← recompose_buildComponents hv hroot, h.recomposes, href_buildComponents hv]
  rw [spelled, text_spelledAs, text_spelledAs] at htext
  have hpath : ∀ host, (spelledAs host u).path = (spelled u).path := fun _ => rfl
  simp only [hpath, List.append_assoc, List.append_cancel_left_eq] at htext
  simp only [← List.append_assoc, List.append_cancel_right_eq] at htext
  exact htext.symm

theorem spellsOut_of_stable (hv : u.isValid uri.ip)
    (h : Stable uri (buildComponents (mapOf uri.present u))) : SpellsOut uri u := by
  have hroot : hostOf u = [] → rooted u.path := rooted_of_stable hv h
  have hpresented := presented_of_stable hv h hroot
  refine ⟨hroot, fun hname => ?_, hpresented⟩
  have hparse := h.parses
  rw [href_buildComponents hv, hpresented, show spelledAs (lower (hostOf u)) u = spelled u from rfl,
    parse_spelled (isValid_spelled hv hroot)] at hparse
  have hpassword := congrArg Components.password (Except.ok.inj hparse)
  rw [buildComponents_mapOf hv, buildComponents_mapOf (isValid_spelled hv hroot)] at hpassword
  replace hpassword : (userOf (spelled u)).2 = (userOf u).2 := hpassword
  -- the user information is left out where the name is empty
  rw [← hpassword]
  show (splitUserinfo ((unlessEmpty (buildUserinfo (userOf u).1 (userOf u).2)).getD [])).2 = []
  rw [hname]
  rfl

/-- Parsing is stable at the URIs that spell themselves out, and only there. -/
theorem stable_iff_spellsOut (uri : UriString) (input : List Char) (base : Option (List Char)) :
    (∀ c, parse uri input base = .ok c → Stable uri c) ↔
      ∀ u, accepted uri input base = some u → SpellsOut uri u := by
  constructor
  · intro h u hu
    exact spellsOut_of_stable (isValid_of_accepted hu) (h _ (parse_eq_ok.2 ⟨u, hu, rfl⟩))
  · intro h c hc
    obtain ⟨u, hu, rfl⟩ := parse_eq_ok.1 hc
    exact stable_of_spellsOut (isValid_of_accepted hu) (h u hu)

end

/-! ### A library that takes the brackets off -/

def addresses : IpSyntax where
  accepts t := t.contains ':' && t.all fun c => hexDigit c || c == ':'
  userinfoChar_of_accepts := by
    intro t ht c hc
    rw [Bool.and_eq_true, List.all_eq_true] at ht
    have h := ht.2 c hc
    rw [Bool.or_eq_true, beq_iff_eq] at h
    rcases h with h | rfl
    · exact userinfo_of_regName (regName_of_hexDigit h)
    · decide
  accepts_lower := by
    intro t ht
    rw [Bool.and_eq_true, List.all_eq_true, List.contains_iff_mem] at ht ⊢
    refine ⟨List.mem_map.2 ⟨':', ht.1, by decide⟩, fun c hc => ?_⟩
    obtain ⟨d, hd, rfl⟩ := List.mem_map.1 hc
    have h := ht.2 d hd
    rw [Bool.or_eq_true, beq_iff_eq] at h ⊢
    rcases h with h | rfl
    · exact .inl (hexDigit_toLower h)
    · exact .inr (by decide)

def unbracketed (host : List Char) : List Char :=
  if host.head? = some '[' then host.tail.dropLast else host

def bracketed (host : List Char) : List Char := if ':' ∈ host then '[' :: (host ++ [']']) else host

variable {host : List Char}

theorem unbracketed_name (h : escaped regNameChar host) : unbracketed host = host := by
  unfold unbracketed
  rw [if_neg]
  intro he
  cases host with
  | nil => cases he
  | cons c host =>
    cases he
    exact absurd (mem_regName h List.mem_cons_self) (by decide)

theorem unbracketed_address (t : List Char) : unbracketed ('[' :: (t ++ [']'])) = t := by
  show (t ++ [']']).dropLast = t
  exact List.dropLast_concat

theorem bracketed_unbracketed (h : isHost addresses host) :
    bracketed (unbracketed host) = host := by
  rcases isHost_iff.1 h with h | ⟨t, rfl, ha⟩
  · rw [unbracketed_name h]
    exact if_neg fun hc => absurd (mem_regName h hc) (by decide)
  · rw [unbracketed_address]
    have ha : (t.contains ':' && _) = true := ha
    rw [Bool.and_eq_true, List.contains_iff_mem] at ha
    exact if_pos ha.1

def mapText (m : UriMap) : List Char :=
  Uri.text {
    scheme := m.scheme
    authority := m.host.map fun host => ⟨m.userinfo, bracketed host, m.port.map toText⟩
    path := m.path
    query := m.query
    fragment := m.fragment }

/-- `:uri_string` with these addresses, where only references that are URIs themselves are resolved. -/
def unbracketing : UriString where
  ip := addresses
  present := unbracketed
  resolve reference _ := (split reference).map fun _ => reference
  recompose m := some (mapText m)
  grapheme _ := 1
  present_name _ := unbracketed_name
  present_lower := by
    intro host h
    rcases isHost_iff.1 h with h | ⟨t, rfl, -⟩
    · rw [unbracketed_name h]
      exact unbracketed_name (escapedFrom_lower (fun _ => regNameChar_toLower) h)
    · rw [unbracketed_address, show lower ('[' :: (t ++ [']'])) = '[' :: (lower t ++ [']']) by
        simp [lower], unbracketed_address]
  recompose_mapOf := by
    intro u hv hport
    have ha := (Uri.valid_iff.1 hv).2.1
    rcases u with ⟨scheme, _ | a, path, query, fragment⟩
    · rfl
    · have hp : ((portNumber a.port).map Int.ofNat).map toText = a.port := by
        rw [Option.map_map]
        exact (hport a rfl).symm
      show some (Uri.text ⟨scheme, some ⟨a.userinfo, bracketed (unbracketed a.host),
        ((portNumber a.port).map Int.ofNat).map toText⟩, path, query, fragment⟩) = _
      rw [bracketed_unbracketed (Authority.valid_iff.1 ha).2.1, hp]
  grapheme_visible _ _ _ _ := rfl

def Unstable (uri : UriString) (input : List Char) : Prop :=
  ∃ c, parse uri input none = .ok c ∧ ¬Stable uri c

instance (uri : UriString) (c : Components) : Decidable (Stable uri c) :=
  decidable_of_iff (parse uri c.href none = .ok c ∧ recompose uri c = some c.href)
    ⟨fun h => ⟨h.1, h.2⟩, fun h => ⟨h.parses, h.recomposes⟩⟩

instance (uri : UriString) (input : List Char) : Decidable (Unstable uri input) :=
  match h : parse uri input none with
  | .ok c => decidable_of_iff (¬Stable uri c)
    ⟨fun hc => ⟨c, h, hc⟩, fun ⟨_, he, hc⟩ => Except.ok.inj (h.symm.trans he) ▸ hc⟩
  | .error _ => .isFalse fun ⟨_, he, _⟩ => nomatch h.symm.trans he

theorem not_stable : Unstable unbracketing "mailto:x@y".toList ∧
    Unstable unbracketing "http://:pw@h/".toList ∧ Unstable unbracketing "http://[::1]/".toList := by
  decide +kernel

example : ¬Unstable unbracketing "HTTP://U:p@EX:8080?b#".toList := by decide +kernel

end QuickBeam.Web.Url
