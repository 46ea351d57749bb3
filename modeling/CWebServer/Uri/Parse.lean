import CWebServer.Uri.Cut

/-!
# Uri — Parse

The sections of `uri_parse_cstr_len` find the pieces of `Uri.Cut`. In each
lemma the input is `pre ++ s ++ post`: `pre` has been read, `s` is left of the
`n` bytes of the input, and `post` is what lies behind them. Nothing but its
first byte is ever looked at, and that one matters only if it is a delimiter.
-/

namespace CWebServer.Uri

open CWebServer.Strings CWebServer.Lib

/-! ## Reading -/

theorem charAt_append (pre : Bytes) (c : UInt8) (s : Bytes) :
    charAt (pre ++ c :: s) pre.length = c := by
  simp [charAt]

/-- The next byte counted as read. -/
theorem shift_eq (pre : Bytes) (c : UInt8) (s post : Bytes) :
    pre ++ c :: s ++ post = pre ++ [c] ++ s ++ post := by
  simp

theorem bytesAt_append (pre s post : Bytes) :
    bytesAt (pre ++ s ++ post) pre.length s.length = s := by
  rw [bytesAt, List.append_assoc, List.drop_left, List.take_left]

theorem bytesAt_isPrefix {p s : Bytes} (hp : p <+: s) (pre post : Bytes) :
    bytesAt (pre ++ s ++ post) pre.length p.length = p := by
  obtain ⟨t, rfl⟩ := hp
  rw [← List.append_assoc, List.append_assoc (pre ++ p)]
  exact bytesAt_append pre p (t ++ post)

/-- The next character. At the end of the input it is what lies behind. -/
theorem charAt_eq_iff (pre : Bytes) {s post : Bytes} {d : UInt8}
    (hpost : s = [] → charAt post 0 ≠ d) :
    charAt (pre ++ s ++ post) pre.length = d ↔ s.head? = some d := by
  cases s with
  | nil =>
      have hnext : charAt (pre ++ [] ++ post) pre.length = charAt post 0 := by
        simp [charAt, List.getElem?_append_right]
      rw [hnext]
      simp [hpost rfl]
  | cons c s =>
      rw [List.append_assoc, List.cons_append, charAt_append]
      simp

/-- Two characters, where the code makes sure that the input has them. -/
theorem twoChars_iff (pre s post : Bytes) (a b : UInt8) :
    (pre.length + 1 < (pre ++ s).length ∧ charAt (pre ++ s ++ post) pre.length = a
        ∧ charAt (pre ++ s ++ post) (pre.length + 1) = b) ↔ [a, b] <+: s := by
  rcases s with _ | ⟨c, _ | ⟨d, s⟩⟩
  · simp only [List.append_nil]
    constructor
    · intro h
      omega
    · intro h
      cases List.prefix_nil.mp h
  · simp
  · simp [charAt, eq_comm]

theorem scanLoop_eq (stop : UInt8 → Bool) (pre s post : Bytes) :
    scanLoop stop (pre ++ s ++ post) s.length pre.length
      = pre.length + (s.takeWhile fun c => !stop c).length := by
  induction s generalizing pre with
  | nil => rfl
  | cons c s ih =>
      have hchar : charAt (pre ++ c :: s ++ post) pre.length = c := by
        rw [List.append_assoc, List.cons_append, charAt_append]
      have hnext := ih (pre ++ [c])
      rw [← shift_eq, List.length_append, List.length_singleton] at hnext
      rw [List.length_cons, scanLoop, hchar]
      by_cases hc : stop c
      · rw [if_pos hc, List.takeWhile_cons_of_neg (by simp [hc])]
        rfl
      · rw [if_neg hc, hnext, List.takeWhile_cons_of_pos (by simp [hc]), List.length_cons]
        omega

/-! ## Scheme -/

theorem schemeDelimiter_cons {c : UInt8} (hc : c ≠ 58) (s : Bytes) :
    schemeDelimiter (c :: s) = [] := by
  have hno : ∀ t, ¬ 58 :: t <+: c :: s := by
    intro t h
    exact hc (List.cons_prefix_cons.mp h).1.symm
  have hlong : ¬ ascii "://" <+: c :: s := hno [47, 47]
  have hshort : ¬ ascii ":" <+: c :: s := hno []
  rw [schemeDelimiter, if_neg hlong, if_neg hshort]

theorem schemeDelimiter_colon (s : Bytes) :
    schemeDelimiter (58 :: s) = if ascii "//" <+: s then ascii "://" else ascii ":" := by
  have hcolon : ascii ":" <+: 58 :: s := List.prefix_append [58] s
  have hslashes : 58 :: [47, 47] <+: 58 :: s ↔ [47, 47] <+: s :=
    List.cons_prefix_cons.trans (and_iff_right rfl)
  change ascii "://" <+: 58 :: s ↔ ascii "//" <+: s at hslashes
  rw [schemeDelimiter, if_pos hcolon]
  simp only [hslashes]

theorem schemeDelimiter_eq_nil {s : Bytes} : schemeDelimiter s = [] ↔ s.head? ≠ some 58 := by
  cases s with
  | nil => simp [schemeDelimiter, ascii]
  | cons c s =>
      by_cases hc : c = 58
      · subst hc
        rw [schemeDelimiter_colon]
        split <;> simp [ascii]
      · simp [schemeDelimiter_cons hc, hc]

/-- Text behind a scheme decides only whether slashes belong to it. -/
theorem schemeText_eq {c : UInt8} {w : Bytes} (hc : isLetter c = true)
    (hw : ∀ b ∈ w, isSchemeChar b = true) (r : Bytes) :
    schemeText (c :: w ++ 58 :: r)
      = c :: w ++ (if ascii "//" <+: r then ascii "://" else ascii ":") := by
  obtain ⟨htake, hdrop⟩ :=
    takeWhile_append_stop (s := 58 :: r) hw (by simp [isSchemeChar, isLetter])
  have hdelimiter : schemeDelimiter (58 :: r) ≠ [] := by simp [schemeDelimiter_eq_nil]
  rw [List.cons_append, schemeText, htake, hdrop, if_pos ⟨hc, hdelimiter⟩,
    schemeDelimiter_colon, List.cons_append]

theorem schemeLoop_eq (pre s post : Bytes) :
    schemeLoop (pre ++ s ++ post) (pre ++ s).length s.length pre.length =
      if schemeDelimiter (s.dropWhile isSchemeChar) = [] then none
      else some (pre.length + (s.takeWhile isSchemeChar).length
        + (schemeDelimiter (s.dropWhile isSchemeChar)).length) := by
  induction s generalizing pre with
  | nil => rfl
  | cons c s ih =>
      have hchar : charAt (pre ++ c :: s ++ post) pre.length = c := by
        rw [List.append_assoc, List.cons_append, charAt_append]
      have hshift : pre ++ c :: s = (pre ++ [c]) ++ s := by simp
      have hlength : (pre ++ [c]).length = pre.length + 1 := List.length_append
      rw [List.length_cons, schemeLoop, hchar]
      by_cases hc : isSchemeChar c
      · have hnext := ih (pre ++ [c])
        rw [hlength] at hnext
        rw [if_pos hc, hshift, hnext, List.dropWhile_cons_of_pos hc, List.takeWhile_cons_of_pos hc]
        simp only [List.length_cons, Nat.add_assoc, Nat.add_comm 1]
      · rw [if_neg hc, List.dropWhile_cons_of_neg hc, List.takeWhile_cons_of_neg hc]
        by_cases hcolon : c = 58
        · subst hcolon
          have htwo := twoChars_iff (pre ++ [58]) s post 47 47
          rw [hlength, ← hshift] at htwo
          have hslashes : (pre.length + 1 + 2 ≤ (pre ++ 58 :: s).length
              ∧ charAt (pre ++ 58 :: s ++ post) (pre.length + 1) = 47
              ∧ charAt (pre ++ 58 :: s ++ post) (pre.length + 1 + 1) = 47)
              ↔ ascii "//" <+: s := htwo
          rw [if_pos rfl, schemeDelimiter_colon]
          simp only [hslashes]
          by_cases h : ascii "//" <+: s
          · rw [if_pos h, if_pos h]
            rfl
          · rw [if_neg h, if_neg h]
            rfl
        · rw [if_neg hcolon, schemeDelimiter_cons hcolon, if_pos rfl]

/-- A `uri` with this scheme and nothing else. -/
def schemeUri (scheme : Bytes) : Uri :=
  { uriInit with hasScheme := scheme ≠ [], scheme := stringTolower scheme }

theorem parseScheme_eq (x post : Bytes) :
    parseScheme (x ++ post) x.length uriInit =
      ((schemeText x).length, schemeUri (schemeText x)) := by
  cases x with
  | nil =>
      unfold parseScheme
      split <;> rfl
  | cons c s =>
      have hchar : charAt (c :: s ++ post) 0 = c := rfl
      have hloop : schemeLoop (c :: s ++ post) (c :: s).length ((c :: s).length - 1) 1 = _ :=
        schemeLoop_eq [c] s post
      have hbytes := bytesAt_isPrefix (schemeText_isPrefix (c :: s)) [] post
      rw [parseScheme, hchar, hloop]
      by_cases hc : isLetter c
      · by_cases hdelimiter : schemeDelimiter (s.dropWhile isSchemeChar) = []
        · rw [if_pos hc, if_pos hdelimiter, schemeText, if_neg (fun h => h.2 hdelimiter)]
          rfl
        · rw [if_pos hc, if_neg hdelimiter]
          rw [schemeText, if_pos ⟨hc, hdelimiter⟩] at hbytes ⊢
          have hlength : [c].length + (s.takeWhile isSchemeChar).length
                + (schemeDelimiter (s.dropWhile isSchemeChar)).length
              = (c :: s.takeWhile isSchemeChar
                ++ schemeDelimiter (s.dropWhile isSchemeChar)).length := by
            simp only [List.length_append, List.length_cons, List.length_nil]
            omega
          have hne : c :: s.takeWhile isSchemeChar
              ++ schemeDelimiter (s.dropWhile isSchemeChar) ≠ [] := by simp
          rw [hlength]
          generalize c :: s.takeWhile isSchemeChar
            ++ schemeDelimiter (s.dropWhile isSchemeChar) = t at hbytes hne ⊢
          have htext : bytesAt (c :: s ++ post) 0 t.length = t := hbytes
          simp only [htext, schemeUri, ne_eq, hne, not_false_eq_true, decide_true]
      · rw [if_neg hc, schemeText, if_neg (fun h => hc h.1)]
        rfl

/-! ## Authority -/

theorem authorityText_cons {c : UInt8} (hc : endsAuthority c = false) (s : Bytes) :
    authorityText (c :: s) = c :: authorityText s :=
  List.takeWhile_cons_of_pos (by simp [hc])

theorem authorityLoop_eq (pre s post : Bytes) (user port : Option Nat) :
    authorityLoop (pre ++ s ++ post) s.length pre.length user port =
      (pre.length + (authorityText s).length,
        user.or ((splitFirst 64 (authorityText s)).map fun p => pre.length + p.1.length),
        ((splitLast 58 (authorityText s)).map fun p => pre.length + p.1.length).or port) := by
  induction s generalizing pre user port with
  | nil => simp [authorityLoop, authorityText, splitFirst, splitLast]
  | cons c s ih =>
      have hchar : charAt (pre ++ c :: s ++ post) pre.length = c := by
        rw [List.append_assoc, List.cons_append, charAt_append]
      have hnext := ih (pre ++ [c])
      rw [← shift_eq, List.length_append, List.length_singleton] at hnext
      rw [List.length_cons, authorityLoop, hchar]
      by_cases huser : c = 64 ∧ user = none
      · obtain ⟨rfl, rfl⟩ := huser
        rw [if_pos ⟨rfl, rfl⟩, hnext, authorityText_cons (by decide), splitFirst, if_pos rfl,
          splitLast_cons_of_ne (by decide)]
        simp [Function.comp_def, Nat.add_assoc, Nat.add_comm 1]
      rw [if_neg huser]
      by_cases hcolon : c = 58
      · subst hcolon
        rw [if_pos rfl, hnext, authorityText_cons (by decide), splitFirst_cons_of_ne (by decide),
          splitLast]
        cases splitLast 58 (authorityText s) <;>
          simp [Function.comp_def, Nat.add_assoc, Nat.add_comm 1]
      rw [if_neg hcolon]
      by_cases hend : endsAuthority c
      · have hnil : authorityText (c :: s) = [] := List.takeWhile_cons_of_neg (by simp [hend])
        rw [if_pos hend, hnil]
        simp [splitFirst, splitLast]
      · rw [if_neg hend, hnext, authorityText_cons (by simpa using hend),
          splitLast_cons_of_ne hcolon]
        by_cases hat : c = 64
        · -- a second `@` is a character like any other
          cases user with
          | none => exact absurd ⟨hat, rfl⟩ huser
          | some q => simp [Function.comp_def, Nat.add_assoc, Nat.add_comm 1]
        · rw [splitFirst_cons_of_ne hat]
          simp [Function.comp_def, Nat.add_assoc, Nat.add_comm 1]

/-- The special cases leave the separator that cuts off the port. -/
theorem portSeparator_eq (start : Nat) (a : Bytes) :
    portSeparator ((splitFirst 64 a).map fun p => start + p.1.length)
        ((splitLast 58 a).map fun p => start + p.1.length)
      = (portCut ((userinfoText a).isSome || start = 0) (hostPortText a)).map fun p =>
          start + (userinfoMark (userinfoText a)).length + p.1.length := by
  cases hfirst : splitFirst 64 a with
  | none =>
      have htext : userinfoText a = none ∧ hostPortText a = a := by
        simp [userinfoText, hostPortText, hfirst]
      rw [htext.1, htext.2, portCut]
      cases hlast : splitLast 58 a with
      | none => rfl
      | some p =>
          obtain ⟨host, port⟩ := p
          by_cases hzero : start = 0 ∧ host = []
          · simp [portSeparator, hzero.1, hzero.2]
          · simp [portSeparator, hzero, userinfoMark]
  | some p =>
      obtain ⟨user, w⟩ := p
      have htext : userinfoText a = some user ∧ hostPortText a = w := by
        simp [userinfoText, hostPortText, hfirst]
      obtain ⟨ha, -⟩ := splitFirst_some hfirst
      rw [htext.1, htext.2, portCut]
      cases hlast : splitLast 58 w with
      | none =>
          -- the last `:` stands in the userinfo
          have hat : (58 : UInt8) ∉ 64 :: w := by
            simpa using splitLast_eq_none.mp hlast
          rw [ha, splitLast_append_right hat]
          cases huser : splitLast 58 user with
          | none => rfl
          | some q =>
              obtain ⟨hq, -⟩ := splitLast_some huser
              have hlt : q.1.length < user.length := by
                rw [hq]
                simp
              simp [portSeparator, hlt]
      | some q =>
          obtain ⟨host, port⟩ := q
          obtain ⟨hw, hport⟩ := splitLast_some hlast
          have hsplit : splitLast 58 a = some (user ++ 64 :: host, port) := by
            rw [ha, hw, ← List.cons_append, ← List.append_assoc, splitLast_append hport]
          rw [hsplit]
          by_cases hhost : host = []
          · simp [portSeparator, hhost, Nat.add_assoc]
          · have hlength := List.length_pos_iff.mpr hhost
            simp [portSeparator, hhost, userinfoMark]
            omega

theorem parseHost_eq (pre host post : Bytes) (u : Uri) :
    parseHost (pre ++ host ++ post) pre.length (pre.length + host.length) u =
      { u with hasHost := (trimmedHost host).isSome, host := (trimmedHost host).getD [] } := by
  have hbytes := bytesAt_append pre host post
  unfold parseHost trimmedHost
  rw [Nat.add_sub_cancel_left, hbytes]
  by_cases hnil : stringTrimAnyOfCstr (stringTolower host) (ascii " \t") = []
  · simp [hnil]
  · simp [hnil]

/-- A `uri` without a port. -/
def NoPort (u : Uri) : Prop :=
  u.hasPort = false ∧ u.portStr = [] ∧ u.port = 0

/-- The host and port that the parser finds in `w`. -/
def withHostPort (anchored : Bool) (w : Bytes) (u : Uri) : Uri :=
  let host := (hostPort anchored w).1
  let port := (hostPort anchored w).2
  { u with
    hasHost := host.isSome, host := host.getD [], hasPort := port.isSome,
    portStr := (port.map (·.1)).getD [], port := (port.map (·.2)).getD 0 }

theorem parseHostAndPort_eq (anchored : Bool) (pre w post : Bytes) {u : Uri} (hu : NoPort u) :
    parseHostAndPort (pre ++ w ++ post) pre.length (pre.length + w.length)
        ((portCut anchored w).map fun p => pre.length + p.1.length) u
      = withHostPort anchored w u := by
  obtain ⟨hhas, hstr, hport⟩ := hu
  unfold parseHostAndPort withHostPort hostPort
  cases hcut : portCut anchored w with
  | none =>
      show parseHost _ _ _ u = _
      rw [parseHost_eq]
      simp [hhas, hstr, hport]
  | some p =>
      obtain ⟨host, portStr⟩ := p
      obtain ⟨hw, -⟩ := portCut_some hcut
      have hlength : w.length = host.length + 1 + portStr.length := by
        rw [hw, List.length_append, List.length_cons]
        omega
      have hhost : parseHost (pre ++ w ++ post) pre.length (pre.length + host.length) u =
          { u with hasHost := (trimmedHost host).isSome, host := (trimmedHost host).getD [] } := by
        rw [hw, ← List.append_assoc pre, List.append_assoc (pre ++ host)]
        exact parseHost_eq pre host (58 :: portStr ++ post) u
      have hport' : bytesAt (pre ++ w ++ post) (pre.length + host.length + 1)
          (pre.length + w.length - (pre.length + host.length) - 1) = portStr := by
        have hbytes := bytesAt_append (pre ++ host ++ [58]) portStr post
        have hcount : pre.length + w.length - (pre.length + host.length) - 1 = portStr.length := by
          omega
        rw [hcount]
        simpa [hw, Nat.add_assoc] using hbytes
      have hwhole : bytesAt (pre ++ w ++ post) pre.length (pre.length + w.length - pre.length)
          = w := by
        rw [Nat.add_sub_cancel_left]
        exact bytesAt_append pre w post
      have hseparator : 1 ≤ pre.length + w.length - (pre.length + host.length) := by omega
      simp only [Option.map_some, hhost]
      cases htrimmed : trimmedHost host with
      | none => simp [hhas, hstr, hport]
      | some trimmed =>
          rw [if_pos ⟨rfl, hseparator⟩, parsePort, hport', hwhole]
          cases scanPort portStr with
          | none => simp [hhas]
          | some port => simp

/-- The `uri` behind the authority. -/
def authorityUri (anchored : Bool) (a : Bytes) (u : Uri) : Uri :=
  withHostPort anchored (hostPortText a)
    { u with
      hasAuthority := a ≠ [], authority := a,
      hasUserinfo := (userinfoText a).isSome, userinfo := (userinfoText a).getD [] }

theorem parseAuthorityParts_eq (pre a post scheme : Bytes) :
    parseAuthorityParts (pre ++ a ++ post) pre.length (pre.length + a.length)
        ((splitFirst 64 a).map fun p => pre.length + p.1.length)
        ((portCut ((userinfoText a).isSome || pre.length = 0) (hostPortText a)).map fun p =>
          pre.length + (userinfoMark (userinfoText a)).length + p.1.length) (schemeUri scheme)
      = authorityUri ((userinfoText a).isSome || pre.length = 0) a (schemeUri scheme) := by
  by_cases hnil : a = []
  · subst hnil
    rw [parseAuthorityParts, if_neg (by simp)]
    rfl
  have hlength := List.length_pos_iff.mpr hnil
  have hwhole := bytesAt_append pre a post
  have hfresh : NoPort (schemeUri scheme) := ⟨rfl, rfl, rfl⟩
  generalize ((userinfoText a).isSome || decide (pre.length = 0)) = anchored
  rw [parseAuthorityParts, if_pos (by omega), Nat.add_sub_cancel_left, hwhole]
  unfold authorityUri
  cases hfirst : splitFirst 64 a with
  | none =>
      have htext : userinfoText a = none ∧ hostPortText a = a := by
        simp [userinfoText, hostPortText, hfirst]
      rw [htext.1, htext.2, decide_eq_true hnil]
      apply parseHostAndPort_eq anchored pre a post
      exact hfresh
  | some p =>
      obtain ⟨user, w⟩ := p
      have htext : userinfoText a = some user ∧ hostPortText a = w := by
        simp [userinfoText, hostPortText, hfirst]
      obtain ⟨ha, -⟩ := splitFirst_some hfirst
      have huser : bytesAt (pre ++ a ++ post) pre.length (pre.length + user.length - pre.length)
          = user := by
        rw [Nat.add_sub_cancel_left]
        exact bytesAt_isPrefix (by simp [ha]) pre post
      have hinput : pre ++ a ++ post = pre ++ (user ++ [64]) ++ w ++ post := by simp [ha]
      have hstart : pre.length + user.length + 1 = (pre ++ (user ++ [64])).length := by
        simp [Nat.add_assoc]
      have hstop : pre.length + a.length = (pre ++ (user ++ [64])).length + w.length := by
        simp [ha]
        omega
      have hmark :
          pre.length + (userinfoMark (some user)).length = (pre ++ (user ++ [64])).length :=
        List.length_append.symm
      rw [htext.1, htext.2, decide_eq_true hnil]
      simp only [Option.map_some, huser, hmark]
      rw [hstart, hstop, hinput]
      apply parseHostAndPort_eq anchored _ w post
      exact hfresh

theorem slashes_index (pre s post : Bytes) :
    (if pre.length + 1 < (pre ++ s).length ∧ charAt (pre ++ s ++ post) pre.length = 47
        ∧ charAt (pre ++ s ++ post) (pre.length + 1) = 47 then pre.length + 2 else pre.length)
      = (pre ++ slashesText s).length := by
  have htwo : (pre.length + 1 < (pre ++ s).length ∧ charAt (pre ++ s ++ post) pre.length = 47
      ∧ charAt (pre ++ s ++ post) (pre.length + 1) = 47) ↔ ascii "//" <+: s :=
    twoChars_iff pre s post 47 47
  by_cases h : ascii "//" <+: s
  · rw [if_pos (htwo.mpr h), slashesText, if_pos h, List.length_append]
    rfl
  · rw [if_neg (fun hchars => h (htwo.mp hchars)), slashesText, if_neg h, List.append_nil]

theorem parseAuthority_eq (pre s post scheme : Bytes) {slashes a : Bytes}
    (hslashes : slashesText s = slashes) (ha : authorityText (s.drop slashes.length) = a) :
    parseAuthority (pre ++ s ++ post) (pre ++ s).length pre.length (schemeUri scheme) =
      ((pre ++ slashes ++ a).length,
        authorityUri ((userinfoText a).isSome || (pre ++ slashes).length = 0) a
          (schemeUri scheme)) := by
  have hs := List.prefix_iff_eq_append.mp (slashesText_isPrefix s)
  have hstart := slashes_index pre s post
  rw [parseAuthority, hstart]
  rw [hslashes] at hs ⊢
  generalize s.drop slashes.length = t at ha hs ⊢
  have hinput : pre ++ s = pre ++ slashes ++ t := by rw [List.append_assoc, hs]
  rw [hinput]
  generalize pre ++ slashes = pre
  have hrounds : (pre ++ t).length - pre.length = t.length := by simp
  have ht := List.prefix_iff_eq_append.mp (authorityText_isPrefix t)
  rw [ha] at ht
  rw [hrounds, authorityLoop_eq, ha]
  simp only [Option.none_or, Option.or_none, portSeparator_eq, List.length_append]
  rw [← ht, ← List.append_assoc, List.append_assoc (pre ++ a), parseAuthorityParts_eq]

/-! ## Path, query and fragment -/

def withPath (path : Bytes) (u : Uri) : Uri :=
  { u with hasPath := path ≠ [], path := decode path }

def withQuery (query : Option Bytes) (u : Uri) : Uri :=
  { u with hasQuery := query.isSome, query := decode (query.getD []) }

def withFragment (fragment : Option Bytes) (u : Uri) : Uri :=
  { u with hasFragment := fragment.isSome, fragment := decode (fragment.getD []) }

theorem withPath_nil {u : Uri} (hhas : u.hasPath = false) (hpath : u.path = []) :
    withPath [] u = u := by
  cases u
  cases hhas
  cases hpath
  rfl

theorem withQuery_none {u : Uri} (hhas : u.hasQuery = false) (hquery : u.query = []) :
    withQuery none u = u := by
  cases u
  cases hhas
  cases hquery
  rfl

theorem withFragment_none {u : Uri} (hhas : u.hasFragment = false) (hfragment : u.fragment = []) :
    withFragment none u = u := by
  cases u
  cases hhas
  cases hfragment
  rfl

theorem parsePath_eq (pre : Bytes) {s post : Bytes}
    (hpost : s = [] → charAt post 0 ≠ 47) {u : Uri} (hhas : u.hasPath = false)
    (hpath : u.path = []) :
    parsePath (pre ++ s ++ post) (pre ++ s).length pre.length u =
      ((pre ++ pathText s).length, withPath (pathText s) u) := by
  unfold parsePath
  simp only [charAt_eq_iff pre hpost]
  by_cases hhead : s.head? = some 47
  · obtain ⟨t, rfl⟩ := List.head?_eq_some_iff.mp hhead
    have htext : pathText (47 :: t) = 47 :: t.takeWhile fun c => !endsPath c := by
      rw [pathText, if_pos hhead, List.takeWhile_cons_of_pos (by decide)]
    have hrounds : (pre ++ 47 :: t).length - (pre.length + 1) = t.length := by
      simp only [List.length_append, List.length_cons]
      omega
    have hscan := scanLoop_eq endsPath (pre ++ [47]) t post
    have hindex : scanLoop endsPath (pre ++ 47 :: t ++ post) t.length (pre.length + 1)
        = pre.length + (pathText (47 :: t)).length := by
      rw [← shift_eq, List.length_append, List.length_singleton] at hscan
      rw [hscan, htext, List.length_cons]
      omega
    have hbytes := bytesAt_isPrefix (pathText_isPrefix (47 :: t)) pre post
    have hne : pathText (47 :: t) ≠ [] := by simp [htext]
    have hpos : 1 ≤ (pathText (47 :: t)).length := List.length_pos_iff.mpr hne
    rw [if_pos hhead, hrounds, hindex, Nat.add_sub_cancel_left, if_pos hpos, hbytes, hpath,
      List.length_append, withPath, decide_eq_true hne]
    rfl
  · have htext : pathText s = [] := by rw [pathText, if_neg hhead]
    rw [if_neg hhead, htext, List.append_nil, withPath_nil hhas hpath]

theorem parseQuery_eq (pre : Bytes) {s post : Bytes} (hpost : s = [] → charAt post 0 ≠ 63)
    {u : Uri} (hhas : u.hasQuery = false) (hquery : u.query = []) (hs : queryText s ≠ some []) :
    parseQuery (pre ++ s ++ post) (pre ++ s).length pre.length u =
      ((pre ++ marked 63 (queryText s)).length, withQuery (queryText s) u) := by
  unfold parseQuery
  simp only [charAt_eq_iff pre hpost]
  by_cases hhead : s.head? = some 63
  · obtain ⟨t, rfl⟩ := List.head?_eq_some_iff.mp hhead
    cases t with
    | nil => exact absurd rfl hs
    | cons b t =>
        have htext : queryText (63 :: b :: t) = some (b :: t.takeWhile fun c => !endsQuery c) := rfl
        have hrounds : (pre ++ 63 :: b :: t).length - (pre.length + 1 + 1) = t.length := by
          simp only [List.length_append, List.length_cons]
          omega
        have hinput : pre ++ 63 :: b :: t ++ post = pre ++ [63] ++ [b] ++ t ++ post := by simp
        have hprefix : b :: t.takeWhile (fun c => !endsQuery c) <+: b :: t :=
          List.cons_prefix_cons.mpr ⟨rfl, List.takeWhile_prefix _⟩
        have hbytes := bytesAt_isPrefix hprefix (pre ++ [63]) post
        have hscan := scanLoop_eq endsQuery (pre ++ [63] ++ [b]) t post
        rw [← shift_eq, List.length_append, List.length_singleton] at hbytes
        rw [← hinput, List.length_append, List.length_append, List.length_singleton,
          List.length_singleton] at hscan
        rw [if_pos hhead, hrounds, hscan, htext]
        generalize t.takeWhile (fun c => !endsQuery c) = q at hbytes ⊢
        have hlen : pre.length + 1 + 1 + q.length - (pre.length + 1) = (b :: q).length := by
          rw [List.length_cons]
          omega
        have hindex :
            pre.length + 1 + 1 + q.length = (pre ++ marked 63 (some (b :: q))).length := by
          simp only [marked, List.length_append, List.length_cons]
          omega
        rw [hlen, hbytes, hindex, hquery, if_pos (by simp)]
        rfl
  · have htext : queryText s = none := by rw [queryText, if_neg hhead]
    rw [if_neg hhead, htext, withQuery_none hhas hquery, marked, List.append_nil]

/-- A `?` at the end of the input: the index runs past it. -/
theorem parseQuery_mark (pre s post : Bytes) (u : Uri) (hs : queryText s = some []) :
    (parseQuery (pre ++ s ++ post) (pre ++ s).length pre.length u).1 = (pre ++ s).length + 1 := by
  have hs' : s = [63] := by
    unfold queryText at hs
    split at hs
    · rename_i hhead
      obtain ⟨t, rfl⟩ := List.head?_eq_some_iff.mp hhead
      cases t with
      | nil => rfl
      | cons b t => cases hs
    · cases hs
  subst hs'
  have hchar : charAt (pre ++ [63] ++ post) pre.length = 63 := by
    rw [List.append_assoc, List.singleton_append, charAt_append]
  have hrounds : (pre ++ [63]).length - (pre.length + 1 + 1) = 0 := by
    rw [List.length_append, List.length_singleton]
    omega
  dsimp only [parseQuery]
  rw [if_pos hchar, hrounds, scanLoop, if_pos (by omega), List.length_append]
  rfl

theorem parseFragment_eq (pre s post : Bytes) {u : Uri} (hhas : u.hasFragment = false)
    (hfragment : u.fragment = []) (hs : fragmentText s ≠ some [])
    (hhead : ∀ c, s.head? = some c → c = 35) :
    parseFragment (pre ++ s ++ post) (pre ++ s).length pre.length u =
      ((pre ++ s).length, withFragment (fragmentText s) u) := by
  rcases s with _ | ⟨c, _ | ⟨b, s⟩⟩
  · have hend : ¬ (charAt (pre ++ [] ++ post) pre.length = 35
        ∧ pre.length + 1 < (pre ++ []).length) := by simp
    rw [parseFragment, if_neg hend, List.append_nil]
    exact congrArg _ (withFragment_none hhas hfragment).symm
  · obtain rfl := hhead c rfl
    exact absurd rfl hs
  · obtain rfl := hhead c rfl
    have hchar : charAt (pre ++ 35 :: b :: s ++ post) pre.length = 35 := by
      rw [List.append_assoc, List.cons_append, charAt_append]
    have hlt : pre.length + 1 < (pre ++ 35 :: b :: s).length := by simp
    have hlen : (pre ++ 35 :: b :: s).length - (pre.length + 1) = (b :: s).length := by
      simp only [List.length_append, List.length_cons]
      omega
    have hbytes := bytesAt_append (pre ++ [35]) (b :: s) post
    rw [← shift_eq, List.length_append, List.length_singleton] at hbytes
    dsimp only [parseFragment]
    rw [if_pos ⟨hchar, hlt⟩, hlen, if_pos (by simp), hbytes, hfragment]
    rfl

/-- A `#` at the end of the input is not read. -/
theorem parseFragment_mark (pre s post : Bytes) (u : Uri) (hs : fragmentText s = some []) :
    (parseFragment (pre ++ s ++ post) (pre ++ s).length pre.length u).1 ≠ (pre ++ s).length := by
  have hs' : s = [35] := by
    unfold fragmentText at hs
    split at hs
    · rename_i hhead
      obtain ⟨t, rfl⟩ := List.head?_eq_some_iff.mp hhead
      rw [show t = [] from Option.some.inj hs]
    · cases hs
  subst hs'
  have hend : ¬ (charAt (pre ++ [35] ++ post) pre.length = 35
      ∧ pre.length + 1 < (pre ++ [35]).length) := by simp
  rw [parseFragment, if_neg hend, List.length_append]
  simp

/-! ## The function -/

/-- Something was parsed. -/
def Present (u : Uri) : Prop :=
  u.hasScheme ∨ u.hasHost ∨ u.hasPath ∨ u.hasQuery ∨ u.hasFragment

instance (u : Uri) : Decidable u.Present :=
  inferInstanceAs (Decidable (_ ∨ _))

theorem checkParsed_eq (n i : Nat) (u : Uri) :
    checkParsed n i u = (if u.Present ∧ i = n then 0 else 1, u) := by
  have hpresent : (!u.hasScheme && !u.hasHost && !u.hasPath && !u.hasQuery && !u.hasFragment) = true
      ↔ ¬ u.Present := by
    simp [Present, and_assoc]
  unfold checkParsed
  by_cases hu : u.Present
  · rw [if_neg (fun h => hpresent.mp h hu)]
    by_cases hi : i = n
    · rw [if_neg (not_not.mpr hi), if_pos ⟨hu, hi⟩]
    · rw [if_pos hi, if_neg fun h => hi h.2]
  · rw [if_pos (hpresent.mpr hu), if_neg fun h => hu h.1]

/-- What the parser has made of the pieces in front of the path. -/
def Cut.frontUri (c : Cut) : Uri :=
  authorityUri c.anchored c.authority (schemeUri c.scheme)

/-- What the parser has made of the pieces up to the path. -/
def Cut.headUri (c : Cut) : Uri :=
  withPath c.path (authorityUri c.anchored c.authority (schemeUri c.scheme))

theorem Cut.uri_eq (c : Cut) : c.uri = withFragment c.fragment (withQuery c.query c.headUri) :=
  rfl

/-- The sections behind the authority. -/
def parseTail (input : Bytes) (n i : Nat) (u : Uri) : Nat × Uri :=
  let (i, u) := parsePath input n i u
  let (i, u) := parseQuery input n i u
  let (i, u) := parseFragment input n i u
  checkParsed n i u

theorem cut_eq (x : Bytes) :
    (cut x).path = pathText (afterAuthority x)
      ∧ (cut x).query = queryText ((afterAuthority x).drop (pathText (afterAuthority x)).length)
      ∧ (cut x).fragment = fragmentText (((afterAuthority x).drop
          (pathText (afterAuthority x)).length).drop (marked 63 (queryText
            ((afterAuthority x).drop (pathText (afterAuthority x)).length))).length) := by
  have hafter : ∀ s : Bytes,
      s.drop (authorityText s).length = s.dropWhile fun c => !endsAuthority c :=
    drop_takeWhile _
  simp only [cut, cutTail, hafter]
  exact ⟨rfl, rfl, rfl⟩

theorem head_afterAuthority {x : Bytes} {c : UInt8} (h : (afterAuthority x).head? = some c) :
    endsAuthority c = true := by
  unfold afterAuthority at h
  have hhead := List.head?_dropWhile_not (fun c => !endsAuthority c)
    ((x.drop (schemeText x).length).drop (slashesText (x.drop (schemeText x).length)).length)
  simp only [h] at hhead
  simpa using hhead

/-- The first two sections, and what they leave. Nothing behind the input
matters to them. -/
theorem parseFront_eq (x : Bytes) :
    ∃ pre, x = pre ++ afterAuthority x
      ∧ ∀ post, uriParseCstrLen (x ++ post) x.length
          = parseTail (x ++ post) x.length pre.length (cut x).frontUri := by
  have hx := List.prefix_iff_eq_append.mp (schemeText_isPrefix x)
  obtain ⟨scheme, hscheme⟩ : ∃ t, schemeText x = t := ⟨_, rfl⟩
  rw [hscheme] at hx
  obtain ⟨s₁, hs₁⟩ : ∃ t, x.drop scheme.length = t := ⟨_, rfl⟩
  rw [hs₁] at hx
  have hslashesEq := List.prefix_iff_eq_append.mp (slashesText_isPrefix s₁)
  obtain ⟨slashes, hslashes⟩ : ∃ t, slashesText s₁ = t := ⟨_, rfl⟩
  rw [hslashes] at hslashesEq
  obtain ⟨s₂, hs₂⟩ : ∃ t, s₁.drop slashes.length = t := ⟨_, rfl⟩
  rw [hs₂] at hslashesEq
  obtain ⟨a, ha⟩ : ∃ t, authorityText s₂ = t := ⟨_, rfl⟩
  have hafter : afterAuthority x = s₂.dropWhile fun c => !endsAuthority c := by
    simp only [afterAuthority, hscheme, hs₁, hslashes, hs₂]
  have haEq : a ++ afterAuthority x = s₂ := by
    rw [hafter, ← ha]
    exact List.takeWhile_append_dropWhile
  have hpre : scheme ++ slashes ++ a ++ afterAuthority x = x := by
    rw [List.append_assoc, haEq, List.append_assoc, hslashesEq, hx]
  have hfront : (cut x).frontUri = authorityUri
      ((userinfoText a).isSome || (scheme ++ slashes).length = 0) a (schemeUri scheme) := by
    simp [Cut.frontUri, Cut.anchored, cut, cutTail, hscheme, hs₁, hslashes, hs₂, ha]
  refine ⟨scheme ++ slashes ++ a, hpre.symm, ?_⟩
  intro post
  have hschemeEq := parseScheme_eq x post
  have hauthorityEq := parseAuthority_eq scheme s₁ post scheme hslashes (by rw [hs₂, ha])
  rw [hscheme] at hschemeEq
  rw [hx] at hauthorityEq
  rw [uriParseCstrLen, hschemeEq]
  simp only [hauthorityEq, hfront]
  rfl

/-- The first three sections, and what they leave. -/
theorem parseHead_eq (x : Bytes) {post : Bytes} (hpost : endsAuthority (charAt post 0) = false) :
    ∃ pre s, x = pre ++ s ∧ (∀ c, s.head? = some c → endsPath c = true)
      ∧ (cut x).query = queryText s
      ∧ (cut x).fragment = fragmentText (s.drop (marked 63 (queryText s)).length)
      ∧ uriParseCstrLen (x ++ post) x.length =
        (let (i, u) := parseQuery (x ++ post) x.length pre.length (cut x).headUri
         let (i, u) := parseFragment (x ++ post) x.length i u
         checkParsed x.length i u) := by
  have hslash : charAt post 0 ≠ 47 := by
    intro h
    rw [h] at hpost
    cases hpost
  obtain ⟨pre, hx, hparse⟩ := parseFront_eq x
  obtain ⟨hpath, hquery, hfragment⟩ := cut_eq x
  have hpathEq := parsePath_eq pre (s := afterAuthority x) (fun _ => hslash)
    (u := (cut x).frontUri) rfl rfl
  rw [← hx] at hpathEq
  refine ⟨pre ++ pathText (afterAuthority x),
    (afterAuthority x).drop (pathText (afterAuthority x)).length, ?_, ?_, hquery, hfragment, ?_⟩
  · rw [List.append_assoc, List.prefix_iff_eq_append.mp (pathText_isPrefix _), ← hx]
  · exact fun c hc => head_path (fun _ => head_afterAuthority) hc
  · rw [hparse, parseTail, hpathEq]
    simp only [Cut.headUri, Cut.frontUri, hpath]

/-- **The parser finds the pieces of its input.** -/
theorem uriParseCstrLen_eq (x : Bytes) {post : Bytes}
    (hpost : endsAuthority (charAt post 0) = false) (hx : (cut x).Complete) :
    uriParseCstrLen (x ++ post) x.length
      = (if (cut x).uri.Present then 0 else 1, (cut x).uri) := by
  obtain ⟨pre, s, hs, hhead, hquery, hfragment, hparse⟩ := parseHead_eq x hpost
  obtain ⟨hcompleteQuery, hcompleteFragment⟩ := hx
  have hmark : charAt post 0 ≠ 63 := by
    intro h
    rw [h] at hpost
    cases hpost
  have hq := List.prefix_iff_eq_append.mp (queryText_isPrefix s)
  rw [hquery] at hcompleteQuery
  rw [hfragment] at hcompleteFragment
  have hqueryEq := parseQuery_eq pre (fun _ => hmark) (u := (cut x).headUri) rfl rfl
    hcompleteQuery
  have hfragmentEq := parseFragment_eq (pre ++ marked 63 (queryText s))
    (s.drop (marked 63 (queryText s)).length) post
    (u := withQuery (queryText s) (cut x).headUri) rfl rfl hcompleteFragment
    fun c hc => head_query hhead hc
  rw [List.append_assoc pre, hq] at hfragmentEq
  rw [hparse]
  subst hs
  rw [hqueryEq]
  simp only [hfragmentEq]
  rw [checkParsed_eq, Cut.uri_eq, hquery, hfragment]
  simp only [and_true]

theorem uriParseCstrLen_incomplete (x : Bytes) {post : Bytes}
    (hpost : endsAuthority (charAt post 0) = false) (hx : ¬ (cut x).Complete) :
    (uriParseCstrLen (x ++ post) x.length).1 = 1 := by
  obtain ⟨pre, s, hs, hhead, hquery, hfragment, hparse⟩ := parseHead_eq x hpost
  have hmark : charAt post 0 ≠ 63 := by
    intro h
    rw [h] at hpost
    cases hpost
  have hq := List.prefix_iff_eq_append.mp (queryText_isPrefix s)
  have hcheck : ∀ i u, i ≠ x.length → (checkParsed x.length i u).1 = 1 := by
    intro i u hi
    rw [checkParsed_eq, if_neg fun h => hi h.2]
  rw [hparse]
  subst hs
  by_cases hempty : queryText s = some []
  · -- the index is past the end, where no fragment begins
    have hindex := parseQuery_mark pre s post (cut (pre ++ s)).headUri hempty
    have hend : ∀ u, parseFragment (pre ++ s ++ post) (pre ++ s).length ((pre ++ s).length + 1) u
        = ((pre ++ s).length + 1, u) := by
      intro u
      rw [parseFragment, if_neg fun h => by omega]
    generalize parseQuery (pre ++ s ++ post) (pre ++ s).length pre.length
      (cut (pre ++ s)).headUri = parsed at hindex ⊢
    obtain ⟨i, u⟩ := parsed
    obtain rfl : i = (pre ++ s).length + 1 := hindex
    simp only [hend]
    exact hcheck _ _ (Nat.succ_ne_self _)
  · have hmarkFragment : fragmentText (s.drop (marked 63 (queryText s)).length) = some [] := by
      by_contra hcomplete
      exact hx ⟨hquery ▸ hempty, hfragment ▸ hcomplete⟩
    have hqueryEq := parseQuery_eq pre (fun _ => hmark) (u := (cut (pre ++ s)).headUri) rfl rfl
      hempty
    have hindex := parseFragment_mark (pre ++ marked 63 (queryText s))
      (s.drop (marked 63 (queryText s)).length) post
      (withQuery (queryText s) (cut (pre ++ s)).headUri) hmarkFragment
    rw [List.append_assoc pre, hq] at hindex
    rw [hqueryEq]
    exact hcheck _ _ hindex

/-! ## Parsing a text without a 0 -/

theorem uriParseCstr_eq {x : Bytes} (hzero : 0 ∉ x) :
    uriParseCstr x = uriParseCstrLen (x ++ [0]) x.length := by
  rw [uriParseCstr, cstr_eq_self hzero]

/-- An accepted input is complete, and its components are those of its
pieces. -/
theorem accepted_iff {x : Bytes} (hzero : 0 ∉ x) :
    (uriParseCstr x).1 = 0 ↔ (cut x).Complete ∧ (cut x).uri.Present := by
  have hpost : endsAuthority (charAt [0] 0) = false := by decide
  rw [uriParseCstr_eq hzero]
  by_cases hx : (cut x).Complete
  · rw [uriParseCstrLen_eq x hpost hx]
    by_cases hp : (cut x).uri.Present
    · simp [hx, hp]
    · simp [hp]
  · simp [uriParseCstrLen_incomplete x hpost hx, hx]

theorem uriParseCstr_uri {x : Bytes} (hzero : 0 ∉ x) (hx : (cut x).Complete) :
    (uriParseCstr x).2 = (cut x).uri := by
  rw [uriParseCstr_eq hzero, uriParseCstrLen_eq x (by decide) hx]

/-! ## Any input -/

/-- The components in front of the query. -/
def withoutTail (u : Uri) : Uri :=
  { u with hasQuery := false, query := [], hasFragment := false, fragment := [] }

theorem withoutTail_parseQuery (input : Bytes) (n i : Nat) (u : Uri) :
    (parseQuery input n i u).2.withoutTail = u.withoutTail := by
  unfold parseQuery
  split
  · dsimp only
    split <;> rfl
  · rfl

theorem withoutTail_parseFragment (input : Bytes) (n i : Nat) (u : Uri) :
    (parseFragment input n i u).2.withoutTail = u.withoutTail := by
  unfold parseFragment
  split
  · dsimp only
    split <;> rfl
  · rfl

/-- Accepted or not, the components in front of the query are those of the
pieces. -/
theorem uriParseCstr_front {x : Bytes} (hzero : 0 ∉ x) :
    (uriParseCstr x).2.withoutTail = (cut x).uri.withoutTail := by
  obtain ⟨pre, s, -, -, -, -, hparse⟩ := @parseHead_eq x [0] (by decide)
  rw [uriParseCstr_eq hzero, hparse]
  dsimp only
  rw [checkParsed_eq, withoutTail_parseFragment, withoutTail_parseQuery]
  generalize cut x = c
  rfl

end CWebServer.Uri
