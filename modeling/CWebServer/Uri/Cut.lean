import CWebServer.Lib.Delimiters
import CWebServer.Strings.Scan
import CWebServer.Uri.Model

/-!
# Uri — Cut

Where the parser cuts its input, and what it makes of the pieces. Here a
piece is a function of the text that is left; that the loops of the parser
find the same pieces is shown in `Uri.Parse`.
-/

namespace CWebServer.Uri

open CWebServer.Strings CWebServer.Lib

/-! ## The pieces -/

/-- What ends a scheme at the start of this text: `://`, `:` or nothing. -/
def schemeDelimiter (s : Bytes) : Bytes :=
  if ascii "://" <+: s then ascii "://" else if ascii ":" <+: s then ascii ":" else []

/-- The scheme with its delimiter; empty where the text starts with none. -/
def schemeText : Bytes → Bytes
  | [] => []
  | c :: s =>
      let delimiter := schemeDelimiter (s.dropWhile isSchemeChar)
      if isLetter c ∧ delimiter ≠ [] then c :: s.takeWhile isSchemeChar ++ delimiter else []

/-- A `//` that belongs to no scheme. -/
def slashesText (s : Bytes) : Bytes :=
  if ascii "//" <+: s then ascii "//" else []

def authorityText (s : Bytes) : Bytes :=
  s.takeWhile fun c => !endsAuthority c

def pathText (s : Bytes) : Bytes :=
  if s.head? = some 47 then s.takeWhile fun c => !endsPath c else []

/-- The text behind a `?`. Its first byte is never a delimiter. -/
def queryText (s : Bytes) : Option Bytes :=
  if s.head? = some 63 then
    some ((s.drop 1).take 1 ++ (s.drop 2).takeWhile fun c => !endsQuery c)
  else none

def fragmentText (s : Bytes) : Option Bytes :=
  if s.head? = some 35 then some (s.drop 1) else none

/-- A piece with the mark in front of it. -/
def marked (mark : UInt8) : Option Bytes → Bytes
  | none => []
  | some s => mark :: s

structure Cut where
  scheme : Bytes
  slashes : Bytes
  authority : Bytes
  path : Bytes
  query : Option Bytes
  fragment : Option Bytes
deriving DecidableEq, Repr

/-- The text that the pieces make up. -/
def Cut.text (c : Cut) : Bytes :=
  c.scheme ++ c.slashes ++ c.authority ++ c.path ++ marked 63 c.query ++ marked 35 c.fragment

/-- The query and the fragment are not just their marks. -/
def Cut.Complete (c : Cut) : Prop :=
  c.query ≠ some [] ∧ c.fragment ≠ some []

instance (c : Cut) : Decidable c.Complete :=
  inferInstanceAs (Decidable (_ ∧ _))

/-- The pieces behind the authority. -/
def cutTail (scheme slashes authority s : Bytes) : Cut :=
  let path := pathText s
  let s := s.drop path.length
  let query := queryText s
  { scheme, slashes, authority, path, query,
    fragment := fragmentText (s.drop (marked 63 query).length) }

theorem cutTail_path (scheme slashes authority s : Bytes) :
    (cutTail scheme slashes authority s).path = pathText s :=
  rfl

theorem cutTail_query (scheme slashes authority s : Bytes) :
    (cutTail scheme slashes authority s).query = queryText (s.drop (pathText s).length) :=
  rfl

/-- The pieces of an input. -/
def cut (x : Bytes) : Cut :=
  let scheme := schemeText x
  let s := x.drop scheme.length
  let slashes := slashesText s
  let s := s.drop slashes.length
  let authority := authorityText s
  cutTail scheme slashes authority (s.drop authority.length)

/-- The input from the first `/`, `?` or `#` on behind the start of its
authority. -/
def afterAuthority (x : Bytes) : Bytes :=
  let s := x.drop (schemeText x).length
  (s.drop (slashesText s).length).dropWhile fun c => !endsAuthority c

/-! ## Host and port -/

/-- The part of the authority before its first `@`. -/
def userinfoText (authority : Bytes) : Option Bytes :=
  (splitFirst 64 authority).map (·.1)

/-- A userinfo with its `@`. -/
def userinfoMark : Option Bytes → Bytes
  | none => []
  | some s => s ++ [64]

/-- The part behind the userinfo. -/
def hostPortText (authority : Bytes) : Bytes :=
  match splitFirst 64 authority with
  | some (_, w) => w
  | none => authority

/-- The last `:` cuts off the port, but not where the host is empty behind a
userinfo or at the start of the input: this is `anchored`. -/
def portCut (anchored : Bool) (w : Bytes) : Option (Bytes × Bytes) :=
  match splitLast 58 w with
  | none => none
  | some (host, port) => if anchored ∧ host = [] then none else some (host, port)

/-- A host in lower case and without blanks round it, if anything is left. -/
def trimmedHost (host : Bytes) : Option Bytes :=
  let host := stringTrimAnyOfCstr (stringTolower host) (ascii " \t")
  if host = [] then none else some host

/-- The host, and the port with its text. -/
def hostPort (anchored : Bool) (w : Bytes) : Option Bytes × Option (Bytes × Int) :=
  match portCut anchored w with
  | none => (trimmedHost w, none)
  | some (host, portStr) =>
      match trimmedHost host with
      | none => (none, none)
      | some host =>
          match scanPort portStr with
          | some port => (some host, some (portStr, port))
          | none => (some (stringTolower w), none)

/-- Whether the host starts behind a userinfo or where the input does. -/
def Cut.anchored (c : Cut) : Bool :=
  (userinfoText c.authority).isSome || c.scheme ++ c.slashes = []

def Cut.host (c : Cut) : Option Bytes :=
  (hostPort c.anchored (hostPortText c.authority)).1

def Cut.port (c : Cut) : Option (Bytes × Int) :=
  (hostPort c.anchored (hostPortText c.authority)).2

/-- What the parser makes of the pieces. -/
def Cut.uri (c : Cut) : Uri :=
  { hasScheme := c.scheme ≠ [],
    scheme := stringTolower c.scheme,
    hasAuthority := c.authority ≠ [],
    authority := c.authority,
    hasUserinfo := (userinfoText c.authority).isSome,
    userinfo := (userinfoText c.authority).getD [],
    hasHost := c.host.isSome,
    host := c.host.getD [],
    hasPort := c.port.isSome,
    portStr := (c.port.map (·.1)).getD [],
    port := (c.port.map (·.2)).getD 0,
    hasPath := c.path ≠ [],
    path := decode c.path,
    hasQuery := c.query.isSome,
    query := decode (c.query.getD []),
    hasFragment := c.fragment.isSome,
    fragment := decode (c.fragment.getD []) }

/-! ## The pieces are in the text -/

theorem schemeDelimiter_isPrefix (s : Bytes) : schemeDelimiter s <+: s := by
  unfold schemeDelimiter
  split
  · assumption
  · split
    · assumption
    · exact List.nil_prefix

theorem schemeText_isPrefix (x : Bytes) : schemeText x <+: x := by
  cases x with
  | nil => exact List.nil_prefix
  | cons c s =>
      rw [schemeText]
      split
      · apply List.cons_prefix_cons.mpr
        refine ⟨rfl, ?_⟩
        have hdelimiter := schemeDelimiter_isPrefix (s.dropWhile isSchemeChar)
        conv => rhs; rw [← List.takeWhile_append_dropWhile (p := isSchemeChar) (l := s)]
        exact (List.prefix_append_right_inj _).mpr hdelimiter
      · exact List.nil_prefix

theorem slashesText_isPrefix (s : Bytes) : slashesText s <+: s := by
  unfold slashesText
  split
  · assumption
  · exact List.nil_prefix

theorem authorityText_isPrefix (s : Bytes) : authorityText s <+: s :=
  List.takeWhile_prefix _

theorem zero_notMem_cut {x : Bytes} (h : 0 ∉ x) :
    0 ∉ (cut x).scheme ∧ 0 ∉ (cut x).authority := by
  constructor
  · exact fun hmem => h ((schemeText_isPrefix x).subset hmem)
  · intro hmem
    exact h (List.mem_of_mem_drop (List.mem_of_mem_drop ((authorityText_isPrefix _).subset hmem)))

theorem pathText_isPrefix (s : Bytes) : pathText s <+: s := by
  unfold pathText
  split
  · exact List.takeWhile_prefix _
  · exact List.nil_prefix

theorem queryText_isPrefix (s : Bytes) : marked 63 (queryText s) <+: s := by
  unfold queryText
  split
  · rename_i hhead
    cases s with
    | nil => cases hhead
    | cons a s =>
        obtain rfl : a = 63 := Option.some.inj hhead
        apply List.cons_prefix_cons.mpr
        refine ⟨rfl, ?_⟩
        conv => rhs; rw [← List.take_append_drop 1 s]
        exact (List.prefix_append_right_inj _).mpr (List.takeWhile_prefix _)
  · exact List.nil_prefix

/-! ## What stands behind a piece -/

theorem head_path {s : Bytes} (hs : ∀ c, s.head? = some c → endsAuthority c = true) {c : UInt8}
    (h : (s.drop (pathText s).length).head? = some c) : endsPath c = true := by
  by_cases hhead : s.head? = some 47
  · rw [pathText, if_pos hhead] at h
    simpa using head_drop_takeWhile h
  · rw [pathText, if_neg hhead] at h
    have hc : c ≠ 47 := by
      rintro rfl
      exact hhead h
    simpa [endsAuthority, endsPath, hc] using hs c h

theorem head_query {s : Bytes} (hs : ∀ c, s.head? = some c → endsPath c = true) {c : UInt8}
    (h : (s.drop (marked 63 (queryText s)).length).head? = some c) : c = 35 := by
  by_cases hhead : s.head? = some 63
  · obtain ⟨t, rfl⟩ := List.head?_eq_some_iff.mp hhead
    cases t with
    | nil => cases h
    | cons b t =>
        have hdrop : (t.drop (t.takeWhile fun c => !endsQuery c).length).head? = some c := h
        simpa [endsQuery] using head_drop_takeWhile hdrop
  · rw [queryText, if_neg hhead] at h
    have hc : c ≠ 63 := by
      rintro rfl
      exact hhead h
    simpa [endsPath, hc] using hs c h

/-! ## Userinfo, host and port -/

theorem authority_eq (a : Bytes) : a = userinfoMark (userinfoText a) ++ hostPortText a := by
  unfold userinfoText hostPortText
  cases hsplit : splitFirst 64 a with
  | none => rfl
  | some p =>
      obtain ⟨ha, -⟩ := splitFirst_some hsplit
      rw [ha]
      simp [userinfoMark]

theorem hostPortText_subset (a : Bytes) : hostPortText a ⊆ a := by
  intro c hc
  rw [authority_eq a]
  exact List.mem_append_right _ hc

theorem portCut_some {anchored : Bool} {w host port : Bytes}
    (h : portCut anchored w = some (host, port)) : w = host ++ 58 :: port ∧ 58 ∉ port := by
  unfold portCut at h
  cases hsplit : splitLast 58 w with
  | none => simp [hsplit] at h
  | some p =>
      simp only [hsplit] at h
      split at h
      · cases h
      · cases h
        exact splitLast_some hsplit

end CWebServer.Uri
