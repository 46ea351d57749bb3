import CWebServer.Uri.Coding

/-!
# Uri — Model

`uri_parse_cstr_len` and `uri_append_to_string`. The parser walks over the
input with one index: each part of it below is a section of the C function
and takes and gives back that index. Reading past the end of `input` gives 0,
as the terminator does. A separator that was not found is `none` instead of
`(size_t)-1`.
-/

namespace CWebServer

open Strings

/-- `uri`. -/
structure Uri where
  hasScheme : Bool
  scheme : Bytes
  hasAuthority : Bool
  authority : Bytes
  hasUserinfo : Bool
  userinfo : Bytes
  hasHost : Bool
  host : Bytes
  hasPort : Bool
  portStr : Bytes
  port : Int
  hasPath : Bool
  path : Bytes
  hasQuery : Bool
  query : Bytes
  hasFragment : Bool
  fragment : Bytes
deriving DecidableEq, Repr

namespace Uri

/-- `uri_init`, which is also what the parser starts from. -/
def uriInit : Uri :=
  { hasScheme := false, scheme := [], hasAuthority := false, authority := [],
    hasUserinfo := false, userinfo := [], hasHost := false, host := [],
    hasPort := false, portStr := [], port := 0, hasPath := false, path := [],
    hasQuery := false, query := [], hasFragment := false, fragment := [] }

/-! ## Reading the input -/

/-- `input[i]`. The list is the memory behind the pointer: a 0 behind its end is
what stands there. -/
def charAt (input : Bytes) (i : Nat) : UInt8 :=
  input.getD i 0

/-- The `len` bytes from `input + start` on. -/
def bytesAt (input : Bytes) (start len : Nat) : Bytes :=
  (input.drop start).take len

/-- `for (; i < n; i++)` up to a character that ends it, with the `n - i`
rounds that are left. -/
def scanLoop (stop : UInt8 → Bool) (input : Bytes) : (rounds i : Nat) → Nat
  | 0, i => i
  | rounds + 1, i =>
      if stop (charAt input i) then i else scanLoop stop input rounds (i + 1)

/-! ## Scheme -/

def isSchemeChar (c : UInt8) : Bool :=
  isLetter c || c = 43 || c = 45 || c = 46

/-- The loop over the scheme: the index behind its `:` or `://`. -/
def schemeLoop (input : Bytes) (n : Nat) : (rounds i : Nat) → Option Nat
  | 0, _ => none
  | rounds + 1, i =>
      let c := charAt input i
      if isSchemeChar c then schemeLoop input n rounds (i + 1)
      else if c = 58 then
        let i := i + 1
        if i + 2 ≤ n ∧ charAt input i = 47 ∧ charAt input (i + 1) = 47 then some (i + 2)
        else some i
      else none

def parseScheme (input : Bytes) (n : Nat) (u : Uri) : Nat × Uri :=
  if isLetter (charAt input 0) then
    match schemeLoop input n (n - 1) 1 with
    | some i =>
        (i, { u with hasScheme := true, scheme := stringTolower (bytesAt input 0 i) })
    | none => (0, u)
  else (0, u)

/-! ## Authority -/

/-- `/`, `?` and `#`. -/
def endsAuthority (c : UInt8) : Bool :=
  c = 47 || c = 63 || c = 35

/-- The loop over the authority: the index behind it, the first `@` and the
last `:`. -/
def authorityLoop (input : Bytes) :
    (rounds i : Nat) → (userInfoSeparator portSeparator : Option Nat) →
      Nat × Option Nat × Option Nat
  | 0, i, user, port => (i, user, port)
  | rounds + 1, i, user, port =>
      let c := charAt input i
      if c = 64 ∧ user = none then authorityLoop input rounds (i + 1) (some i) port
      else if c = 58 then authorityLoop input rounds (i + 1) user (some i)
      else if endsAuthority c then (i, user, port)
      else authorityLoop input rounds (i + 1) user port

/-- The two special cases behind the loop. -/
def portSeparator (user port : Option Nat) : Option Nat :=
  match port with
  | none => none
  | some p =>
      match user with
      | none => if p = 0 then none else some p
      | some q => if p < q then none else if p = 0 ∨ p = q + 1 then none else some p

/-- The condition on `sscanf(port_str, "%i%n", &port, &n)`, and the port. -/
def scanPort (portStr : Bytes) : Option Int :=
  match sscanfI portStr with
  | none => none
  | some (port, n) =>
      if 0 ≤ port ∧ port < 65536 ∧ n = portStr.length then some port else none

/-- The host, from `start` to the port separator or to the end `i` of the
authority. -/
def parseHost (input : Bytes) (start stop : Nat) (u : Uri) : Uri :=
  let host := stringTolower (bytesAt input start (stop - start))
  let host := stringTrimAnyOfCstr host (ascii " \t")
  if host.length = 0 then { u with hasHost := false, host := [] }
  else { u with hasHost := true, host }

/-- The port, behind the separator at `p`. Where it is no number the host is
the whole text, neither cut nor trimmed. -/
def parsePort (input : Bytes) (start i p : Nat) (u : Uri) : Uri :=
  let portStr := bytesAt input (p + 1) (i - p - 1)
  match scanPort portStr with
  | some port => { u with hasPort := true, portStr, port }
  | none =>
      { u with host := stringTolower (bytesAt input start (i - start)), portStr := [], port := 0 }

/-- The host from `start` on, and the port if the authority, which ends at
`i`, has a separator. -/
def parseHostAndPort (input : Bytes) (start i : Nat) (port : Option Nat) (u : Uri) : Uri :=
  match port with
  | none => parseHost input start i u
  | some p =>
      let u := parseHost input start p u
      if u.hasHost ∧ 1 ≤ i - p then parsePort input start i p u else u

/-- The part under `authority_len > 0`. -/
def parseAuthorityParts (input : Bytes) (start i : Nat) (user port : Option Nat) (u : Uri) : Uri :=
  if 0 < i - start then
    let u := { u with hasAuthority := true, authority := bytesAt input start (i - start) }
    match user with
    | none => parseHostAndPort input start i port u
    | some q =>
        let u := { u with hasUserinfo := true, userinfo := bytesAt input start (q - start) }
        parseHostAndPort input (q + 1) i port u
  else u

def parseAuthority (input : Bytes) (n i : Nat) (u : Uri) : Nat × Uri :=
  let start :=
    if i + 1 < n ∧ charAt input i = 47 ∧ charAt input (i + 1) = 47 then i + 2 else i
  match authorityLoop input (n - start) start none none with
  | (i, user, port) =>
      (i, parseAuthorityParts input start i user (portSeparator user port) u)

/-! ## Path, query and fragment -/

/-- `?` and `#`. -/
def endsPath (c : UInt8) : Bool :=
  c = 63 || c = 35

def parsePath (input : Bytes) (n i : Nat) (u : Uri) : Nat × Uri :=
  if charAt input i = 47 then
    let start := i
    let i := scanLoop endsPath input (n - (i + 1)) (i + 1)
    let len := i - start
    if 1 ≤ len then
      (i, { u with
        hasPath := true,
        path := uriAppendDecodedCstrLen u.path (bytesAt input start len) })
    else (i, u)
  else (i, u)

def endsQuery (c : UInt8) : Bool :=
  c = 35

/-- The byte behind the `?` is part of the query, whatever it is. -/
def parseQuery (input : Bytes) (n i : Nat) (u : Uri) : Nat × Uri :=
  if charAt input i = 63 then
    let start := i + 1
    let i := scanLoop endsQuery input (n - (start + 1)) (start + 1)
    let len := i - start
    if 1 ≤ len then
      (i, { u with
        hasQuery := true,
        query := uriAppendDecodedCstrLen u.query (bytesAt input start len) })
    else (i, u)
  else (i, u)

def parseFragment (input : Bytes) (n i : Nat) (u : Uri) : Nat × Uri :=
  if charAt input i = 35 ∧ i + 1 < n then
    let start := i + 1
    let len := n - start
    if 1 ≤ len then
      (n, { u with
        hasFragment := true,
        fragment := uriAppendDecodedCstrLen u.fragment (bytesAt input start len) })
    else (n, u)
  else (i, u)

/-! ## The functions -/

/-- The two checks at the end: something was parsed, and nothing is left. -/
def checkParsed (n i : Nat) (u : Uri) : Nat × Uri :=
  if !u.hasScheme && !u.hasHost && !u.hasPath && !u.hasQuery && !u.hasFragment then (1, u)
  else if i ≠ n then (1, u)
  else (0, u)

/-- `uri_parse_cstr_len`: the code it returns, and the `uri`. -/
def uriParseCstrLen (input : Bytes) (n : Nat) : Nat × Uri :=
  let (i, u) := parseScheme input n uriInit
  let (i, u) := parseAuthority input n i u
  let (i, u) := parsePath input n i u
  let (i, u) := parseQuery input n i u
  let (i, u) := parseFragment input n i u
  checkParsed n i u

/-- `uri_parse_cstr`. -/
def uriParseCstr (input : Bytes) : Nat × Uri :=
  uriParseCstrLen (cstr input ++ [0]) (cstr input).length

/-- `uri_append_to_string`. A port is written with `%d`, and is not negative. -/
def uriAppendToString (u : Uri) (s : Bytes) : Bytes :=
  let s := if u.hasScheme then s ++ u.scheme else s
  let s := if u.hasUserinfo then s ++ u.userinfo ++ ascii "@" else s
  let s := if u.hasHost then s ++ u.host else s
  let s := if u.hasPort then s ++ ascii ":" ++ decimal u.port.toNat else s
  let s := if u.hasPath then uriAppendEncodedCstrLen s u.path else s
  let s := if u.hasQuery then uriAppendEncodedCstrLen (s ++ ascii "?") u.query else s
  if u.hasFragment then uriAppendEncodedCstrLen (s ++ ascii "#") u.fragment else s

/-! ## Components -/

def uriGetScheme (u : Uri) : Option Bytes :=
  if u.hasScheme then some u.scheme else none

def uriGetUserinfo (u : Uri) : Option Bytes :=
  if u.hasUserinfo then some u.userinfo else none

def uriGetHost (u : Uri) : Option Bytes :=
  if u.hasHost then some u.host else none

def uriGetPortStr (u : Uri) : Option Bytes :=
  if u.hasPort then some u.portStr else none

def uriGetPort (u : Uri) : Int :=
  if u.hasPort then u.port else 0

def uriGetPath (u : Uri) : Option Bytes :=
  if u.hasPath then some u.path else none

def uriGetQuery (u : Uri) : Option Bytes :=
  if u.hasQuery then some u.query else none

def uriGetFragment (u : Uri) : Option Bytes :=
  if u.hasFragment then some u.fragment else none

end Uri

end CWebServer
