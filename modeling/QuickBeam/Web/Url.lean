import Mathlib.Data.List.DropRight
import QuickBeam.Lib.Rfc3986

/-!
# URLs (`url.ex`)

`parse` takes a URL apart and writes its `href`, and `recompose` writes a URL from its components.
The library that both are built on, `:uri_string`, is a parameter: it parses and writes by the
syntax of URIs, it may take the brackets off an address when it presents a host, and how it resolves
a reference is left open.

`parse` is stable at a URI just where the URI has a host or a rooted path, a user name if it has a
password, and a host that is presented as it is written.
-/

set_option linter.dupNamespace false

namespace QuickBeam.Web.Url

open QuickBeam.Lib QuickBeam.Lib.FirstMark QuickBeam.Lib.Rfc3986

/-! ### The library -/

/-- The map that `:uri_string` parses to and recomposes from. -/
structure UriMap where
  scheme : List Char
  userinfo : Option (List Char)
  host : Option (List Char)
  port : Option ℤ
  path : List Char
  query : Option (List Char)
  fragment : Option (List Char)
  deriving DecidableEq

/-- The port of an authority; an empty one is `:undefined`. -/
def portNumber (port : Option (List Char)) : Option ℕ :=
  (port.filter (· ≠ [])).map fun digits => Nat.ofDigitChars 10 digits 0

def mapOf (present : List Char → List Char) (u : Uri) : UriMap where
  scheme := u.scheme
  userinfo := u.authority.bind (·.userinfo)
  host := u.authority.map fun a => present a.host
  port := (u.authority.bind fun a => portNumber a.port).map Int.ofNat
  path := u.path
  query := u.query
  fragment := u.fragment

def PortWritten (u : Uri) : Prop :=
  ∀ a ∈ u.authority, a.port = (portNumber a.port).map (Nat.toDigits 10)

structure UriString where
  ip : IpSyntax
  present : List Char → List Char
  resolve : List Char → List Char → Option (List Char)
  recompose : UriMap → Option (List Char)
  /-- How many characters the first grapheme has. -/
  grapheme : List Char → ℕ
  present_name : ∀ host, escaped regNameChar host → present host = host
  present_lower : ∀ host, isHost ip host → present (lower host) = lower (present host)
  recompose_mapOf : ∀ u, u.isValid ip → PortWritten u → recompose (mapOf present u) = some u.text
  grapheme_visible : ∀ c t, visible c → t.head?.all visible → grapheme (c :: t) = 1

/-! ### The code -/

def defaultPorts : List (List Char × ℕ) :=
  [(['h', 't', 't', 'p'], 80), (['h', 't', 't', 'p', 's'], 443), (['f', 't', 'p'], 21),
    (['w', 's'], 80), (['w', 's', 's'], 443)]

def specialSchemes : List (List Char) :=
  [['h', 't', 't', 'p'], ['h', 't', 't', 'p', 's'], ['f', 't', 'p'], ['w', 's'], ['w', 's', 's'],
    ['f', 'i', 'l', 'e']]

structure Components where
  protocol : List Char
  hostname : List Char
  port : List Char
  pathname : List Char
  search : List Char
  hash : List Char
  username : List Char
  password : List Char
  origin : List Char
  href : List Char
  _port : Option ℤ
  deriving DecidableEq

def isDefaultPort (scheme : List Char) (port : ℤ) : Bool :=
  (defaultPorts.lookup scheme).map Int.ofNat == some port

/-- `Integer.to_string`. -/
def toText : ℤ → List Char
  | .ofNat n => Nat.toDigits 10 n
  | .negSucc n => '-' :: Nat.toDigits 10 (n + 1)

def formatPort (port : Option ℤ) (scheme : List Char) : List Char :=
  match port with
  | none => []
  | some port => if isDefaultPort scheme port then [] else toText port

def prefixIfPresent (mark : Char) : Option (List Char) → List Char
  | none => []
  | some [] => []
  | some value => mark :: value

/-- `String.split(userinfo, ":", parts: 2)`, with an empty password where there is none. -/
def splitUserinfo (userinfo : List Char) : List Char × List Char :=
  if userinfo = [] then ([], [])
  else ((splitFirst ':' userinfo).1, (splitFirst ':' userinfo).2.getD [])

def buildOrigin (scheme host port : List Char) : List Char :=
  if scheme ∈ specialSchemes then
    scheme ++ [':', '/', '/'] ++ lower host ++ (if port ≠ [] then ':' :: port else [])
  else ['n', 'u', 'l', 'l']

def buildUserinfoPrefix (username password : List Char) : List Char :=
  match username, password with
  | [], _ => []
  | username, [] => username ++ ['@']
  | username, password => username ++ ':' :: password ++ ['@']

def buildHref (scheme username password host port path : List Char)
    (query fragment : Option (List Char)) : List Char :=
  scheme ++ [':', '/', '/'] ++ buildUserinfoPrefix username password ++ lower host ++
    (if port ≠ [] then ':' :: port else []) ++ path ++ prefixIfPresent '?' query ++
    prefixIfPresent '#' fragment

def buildComponents (parsed : UriMap) : Components :=
  let host := parsed.host.getD []
  let (username, password) := splitUserinfo (parsed.userinfo.getD [])
  let scheme := lower parsed.scheme
  let port := formatPort parsed.port scheme
  let path := if host ≠ [] ∧ parsed.path = [] then ['/'] else parsed.path
  { protocol := scheme ++ [':']
    hostname := lower host
    port := port
    pathname := path
    search := prefixIfPresent '?' parsed.query
    hash := prefixIfPresent '#' parsed.fragment
    username := username
    password := password
    origin := buildOrigin scheme host port
    href := buildHref scheme username password host port path parsed.query parsed.fragment
    _port := parsed.port.or ((defaultPorts.lookup scheme).map Int.ofNat) }

/-- `String.to_integer`, which raises at other texts. -/
def toInteger (text : List Char) : Option ℤ :=
  let digits (t : List Char) : Option ℕ :=
    if t ≠ [] ∧ t.all Char.isDigit then some (Nat.ofDigitChars 10 t 0) else none
  match text with
  | '-' :: t => (digits t).map fun n => -(n : ℤ)
  | '+' :: t => (digits t).map Int.ofNat
  | t => (digits t).map Int.ofNat

def buildUserinfo (username password : List Char) : List Char :=
  match username, password with
  | [], _ => []
  | username, [] => username
  | username, password => username ++ ':' :: password

def putPort (port : List Char) : Option (Option ℤ) :=
  if port = [] then some none else (toInteger port).map some

/-- `put_unless_empty` of a text. -/
def unlessEmpty (value : List Char) : Option (List Char) := if value = [] then none else some value

section

variable (uri : UriString)

/-- `String.slice(value, 1..-1//1)` behind the mark. -/
def stripPrefix (mark : Char) (value : List Char) : List Char :=
  if value.head? = some mark then value.drop (uri.grapheme value) else value

/-- The map that `do_recompose` makes, where the port is a number. -/
def recomposeMap (c : Components) : Option UriMap :=
  (putPort c.port).map fun port => {
    scheme := c.protocol.rdropWhile (· == ':')
    userinfo := unlessEmpty (buildUserinfo c.username c.password)
    host := some c.hostname
    port := port
    path := c.pathname
    query := unlessEmpty (stripPrefix uri '?' c.search)
    fragment := unlessEmpty (stripPrefix uri '#' c.hash) }

def recompose (c : Components) : Option (List Char) := (recomposeMap uri c).bind uri.recompose

/-- A reference without a scheme is refused like a text that does not parse. -/
def parseAbsolute (input : List Char) : Except String Components :=
  match Rfc3986.parse uri.ip input with
  | some u => .ok (buildComponents (mapOf uri.present u))
  | none => .error "Invalid URL"

def resolveAndParse (input : List Char) : Option (List Char) → Except String Components
  | none => parseAbsolute uri input
  | some base =>
    match parseAbsolute uri base with
    | .ok _ =>
      match uri.resolve input base with
      | some resolved => parseAbsolute uri resolved
      | none => .error "Invalid URL"
    | .error _ => .error "Invalid base URL"

/-- The white space that `String.trim` takes off. -/
def isSpace (c : Char) : Bool :=
  (9 ≤ c.toNat && c.toNat ≤ 13) || (0x2000 ≤ c.toNat && c.toNat ≤ 0x200A) ||
    c.toNat ∈ [0x20, 0x85, 0xA0, 0x1680, 0x2028, 0x2029, 0x202F, 0x205F, 0x3000]

def trim (t : List Char) : List Char := (t.dropWhile isSpace).rdropWhile isSpace

def parse (input : List Char) (base : Option (List Char)) : Except String Components :=
  resolveAndParse uri (trim input) base

end

end QuickBeam.Web.Url
