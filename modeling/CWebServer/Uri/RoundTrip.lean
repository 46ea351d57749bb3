import CWebServer.Uri.Authority
import CWebServer.Uri.Shown

/-!
# Uri — RoundTrip

Which inputs are read back from the text that is printed for them. The
encoder leaves delimiters alone, so a path that was escaped may be printed
with a `?`; and the `//` in front of an authority is not printed at all.
-/

namespace CWebServer.Uri

open CWebServer.Strings CWebServer.Lib

/-! ## The property -/

/-- The same components are present, with the same contents; the port is
compared as a number. -/
structure SameComponents (u v : Uri) : Prop where
  scheme : uriGetScheme u = uriGetScheme v
  userinfo : uriGetUserinfo u = uriGetUserinfo v
  host : uriGetHost u = uriGetHost v
  hasPort : u.hasPort = v.hasPort
  port : uriGetPort u = uriGetPort v
  path : uriGetPath u = uriGetPath v
  query : uriGetQuery u = uriGetQuery v
  fragment : uriGetFragment u = uriGetFragment v

/-- The port is compared as a text, too. -/
structure SameTexts (u v : Uri) : Prop extends SameComponents u v where
  portStr : uriGetPortStr u = uriGetPortStr v

/-- What is printed for the input is accepted, with the same components. -/
def RoundTrips (same : Uri → Uri → Prop) (x : Bytes) : Prop :=
  (uriParseCstr (uriAppendToString (uriParseCstr x).2 [])).1 = 0
    ∧ same (uriParseCstr x).2 (uriParseCstr (uriAppendToString (uriParseCstr x).2 [])).2

/-- No component is printed as text that the parser cuts differently. -/
structure Cut.Printable (c : Cut) : Prop extends c.HeadPrintable where
  path : 63 ∉ decode c.path ∧ 35 ∉ decode c.path
  query : ∀ q, c.query = some q → 35 ∉ (decode q).drop 1

/-- The port, if any, is written as `%d` writes it. -/
def Cut.DecimalPort (c : Cut) : Prop :=
  ∀ t n, c.port = some (t, n) → t = decimal n.toNat

/-! ## The printed text -/

theorem zero_notMem_shown {x : Bytes} (hzero : 0 ∉ x) : 0 ∉ (cut x).shown := by
  obtain ⟨hscheme, hauthority⟩ := zero_notMem_cut hzero
  have hmarked : ∀ (mark : UInt8) (q : Option Bytes), mark ≠ 0 →
      0 ∉ marked mark (q.map fun q => encode (decode q)) := by
    intro mark q hmark
    cases q with
    | none => simp [marked]
    | some q => simp [marked, hmark.symm, zero_notMem_encode]
  unfold Cut.shown Cut.shownTail
  simp only [List.mem_append, not_or]
  exact ⟨fun h => hscheme ((mem_stringTolower (by decide) _).mp h),
    zero_notMem_shownAuthority hauthority, zero_notMem_encode _, hmarked 63 _ (by decide),
    hmarked 35 _ (by decide)⟩

/-! ## The components of the pieces -/

theorem uriGetScheme_uri (c : Cut) :
    uriGetScheme c.uri = if c.scheme = [] then none else some (stringTolower c.scheme) := by
  by_cases h : c.scheme = [] <;> simp [uriGetScheme, Cut.uri, h]

theorem uriGetPort_uri (c : Cut) : uriGetPort c.uri = (c.port.map (·.2)).getD 0 := by
  cases h : c.port <;> simp [uriGetPort, Cut.uri, h]

theorem uriGetPath_uri (c : Cut) :
    uriGetPath c.uri = if c.path = [] then none else some (decode c.path) := by
  by_cases h : c.path = [] <;> simp [uriGetPath, Cut.uri, h]

theorem uriGetQuery_uri (c : Cut) : uriGetQuery c.uri = c.query.map decode := by
  cases h : c.query <;> simp [uriGetQuery, Cut.uri, h]

theorem uriGetFragment_uri (c : Cut) : uriGetFragment c.uri = c.fragment.map decode := by
  cases h : c.fragment <;> simp [uriGetFragment, Cut.uri, h]

/-! ## Enough -/

/-- The pieces of the text that is printed. -/
def Cut.shownCut (c : Cut) : Cut :=
  { scheme := stringTolower c.scheme, slashes := [], authority := c.shownAuthority,
    path := encode (decode c.path), query := c.query.map fun q => encode (decode q),
    fragment := c.fragment.map fun f => encode (decode f) }

theorem path_head {x : Bytes} : ∀ b, (decode (cut x).path).head? = some b → b = 47 :=
  fun _ => decode_head fun _ => cut_path_head

/-- **Printable pieces are found again.** -/
theorem cut_shown_printable {x : Bytes} (hzero : 0 ∉ x) (hcomplete : (cut x).Complete)
    (hx : (cut x).Printable) : cut (cut x).shown = (cut x).shownCut := by
  have hpath : pathText (decode (cut x).path) = decode (cut x).path :=
    (pathText_eq_self path_head).mpr hx.path
  have hpathEq : pathText (cut x).shownTail = encode (decode (cut x).path) := by
    rw [pathText_shown, hpath]
  have hquery : (cut x).query.map (fun q => encode (queryKept (decode q)))
      = (cut x).query.map fun q => encode (decode q) := by
    cases h : (cut x).query with
    | none => rfl
    | some q => rw [Option.map_some, Option.map_some, queryKept_eq_self.mpr (hx.query q h)]
  have hqueryEq := queryText_shown hcomplete.1 hpath
  rw [hquery, hpathEq, Cut.shownTail, List.drop_left] at hqueryEq
  rw [cut_shown hzero hx.toHeadPrintable, cutTail]
  simp only [hpathEq]
  rw [Cut.shownTail, List.drop_left, hqueryEq, List.drop_left, fragmentText_marked]
  rfl

theorem encode_decode_eq_nil {s : Bytes} : encode (decode s) = [] ↔ s = [] := by
  rw [encode_eq_nil]
  constructor
  · intro h
    by_contra hne
    exact decode_ne_nil hne h
  · rintro rfl
    rfl

theorem shownCut_complete {c : Cut} (hc : c.Complete) : c.shownCut.Complete := by
  have hsome : ∀ q : Option Bytes, q ≠ some [] →
      (q.map fun q => encode (decode q)) ≠ some [] := by
    intro q hq h
    obtain ⟨s, rfl, hs⟩ := Option.map_eq_some_iff.mp h
    exact hq (by rw [encode_decode_eq_nil.mp hs])
  exact ⟨hsome _ hc.1, hsome _ hc.2⟩

/-- Host and port of the printed authority. -/
theorem hostPort_shownCut {c : Cut} (hzero : 0 ∉ c.authority) :
    c.shownCut.host = c.host ∧ c.shownCut.port = inDecimal c.port := by
  obtain ⟨huser, hhost⟩ := shownAuthority_split hzero
  have hlower : stringTolower c.scheme = [] ↔ c.scheme = [] := List.map_eq_nil_iff
  have hanchored : c.anchored = true → c.shownCut.anchored = true := by
    unfold Cut.anchored Cut.shownCut
    rw [huser]
    simp only [Bool.or_eq_true, decide_eq_true_eq, List.append_eq_nil_iff, hlower]
    tauto
  have hshown := hostPort_shown hanchored (zero_notMem_hostPortText hzero)
  have heq : hostPort c.shownCut.anchored (hostPortText c.shownCut.authority)
      = (c.host, inDecimal c.port) := by
    show hostPort _ (hostPortText c.shownAuthority) = _
    rw [hhost]
    exact hshown
  constructor
  · show (hostPort c.shownCut.anchored (hostPortText c.shownCut.authority)).1 = _
    rw [heq]
  · show (hostPort c.shownCut.anchored (hostPortText c.shownCut.authority)).2 = _
    rw [heq]

/-- The pieces of the printed text stand for the same components. -/
theorem shownCut_uri {c : Cut} (hzero : 0 ∉ c.authority) :
    SameComponents c.uri c.shownCut.uri := by
  obtain ⟨hhost, hport⟩ := hostPort_shownCut hzero
  have hscheme : stringTolower c.scheme = [] ↔ c.scheme = [] := List.map_eq_nil_iff
  have hdecode : decode ∘ (fun q => encode (decode q)) = decode := by
    funext q
    exact decode_encode (decode q)
  constructor
  · rw [uriGetScheme_uri, uriGetScheme_uri]
    simp [Cut.shownCut, hscheme]
  · rw [Cut.uri_userinfo, Cut.uri_userinfo]
    exact (shownAuthority_split hzero).1.symm
  · rw [Cut.uri_host, Cut.uri_host, hhost]
  · show c.port.isSome = c.shownCut.port.isSome
    rw [hport, inDecimal, Option.isSome_map]
  · rw [uriGetPort_uri, uriGetPort_uri, hport]
    cases c.port <;> rfl
  · rw [uriGetPath_uri, uriGetPath_uri]
    simp [Cut.shownCut, encode_decode_eq_nil]
  · rw [uriGetQuery_uri, uriGetQuery_uri]
    simp [Cut.shownCut, hdecode]
  · rw [uriGetFragment_uri, uriGetFragment_uri]
    simp [Cut.shownCut, hdecode]

/-- The same components are present. -/
theorem SameComponents.present {u v : Uri} (h : SameComponents u v) (hu : u.Present) :
    v.Present := by
  have hflags : ∀ w : Uri, w.Present ↔ (uriGetScheme w).isSome ∨ (uriGetHost w).isSome
      ∨ (uriGetPath w).isSome ∨ (uriGetQuery w).isSome ∨ (uriGetFragment w).isSome := by
    intro w
    simp [Present, uriGetScheme, uriGetHost, uriGetPath, uriGetQuery, uriGetFragment]
  rw [hflags] at hu ⊢
  rwa [← h.scheme, ← h.host, ← h.path, ← h.query, ← h.fragment]

/-! ## Necessary -/

/-- A scheme that was not there. -/
theorem noScheme_of_same {x : Bytes} (h : SameComponents (cut x).uri (cut (cut x).shown).uri) :
    (cut x).scheme = [] → schemeText (cut x).shownAuthority = [] := by
  intro hnone
  have hscheme := h.scheme
  rw [uriGetScheme_uri, uriGetScheme_uri, if_pos hnone] at hscheme
  split at hscheme
  · rename_i hshown
    have htext : schemeText (cut x).shown = [] := hshown
    rw [Cut.shown, hnone] at htext
    exact schemeText_shownRest.mp htext
  · cases hscheme

/-- A path that became an authority. -/
theorem noSlashes_of_same {x : Bytes}
    (h : SameComponents (cut x).uri (cut (cut x).shown).uri) :
    (cut x).shownAuthority = [] → ¬ ascii "//" <+: decode (cut x).path := by
  intro hnone hslashes
  have hscheme : schemeText (cut x).shown = stringTolower (cut x).scheme := by
    by_cases hs : (cut x).scheme = []
    · rw [Cut.shown, hs]
      exact schemeText_shownRest.mpr (by rw [hnone]; rfl)
    · rcases schemeText_shown hs ((cut x).shownAuthority ++ (cut x).shownTail) with
        heq | ⟨-, heq⟩
      · exact heq
      · -- the slashes of the path became part of the scheme
        have hlower : (cut (cut x).shown).scheme = stringTolower (cut x).scheme ++ ascii "//" := heq
        have hsame := h.scheme
        rw [uriGetScheme_uri, uriGetScheme_uri, if_neg hs, hlower,
          if_neg (by simp [ascii])] at hsame
        have hlength := congrArg List.length (Option.some.inj hsame)
        simp [stringTolower, ascii] at hlength
  -- the path is cut behind an authority that it begins with
  obtain ⟨p, hp⟩ := hslashes
  obtain ⟨marks, hmarks, htail⟩ : ∃ marks : Bytes,
      (∀ b, marks.head? = some b → endsPath b = true)
        ∧ (cut x).shownTail = encode (decode (cut x).path) ++ marks :=
    ⟨_, fun _ => head_marks, rfl⟩
  have hends : ∀ b, marks.head? = some b → endsAuthority b = true := fun b hb =>
    endsAuthority_of_endsPath (hmarks b hb)
  have hrest : (cut x).shown.drop (stringTolower (cut x).scheme).length
      = ascii "//" ++ (encode p ++ marks) := by
    have hslash : encode (ascii "//") = ascii "//" := by decide
    rw [Cut.shown, List.drop_left, hnone, List.nil_append, htail, ← hp, encode_append, hslash,
      List.append_assoc]
  have hslashesText : slashesText (ascii "//" ++ (encode p ++ marks)) = ascii "//" := by
    rw [slashesText, if_pos (List.prefix_append _ _)]
  have hauthority := (takeWhile_encode kept_endsAuthority hends p).2
  rw [← drop_takeWhile] at hauthority
  have hpath : (cut (cut x).shown).path
      = encode (pathText (p.dropWhile fun c => !endsAuthority c)) := by
    rw [cut, hscheme, hrest, hslashesText, List.drop_left]
    show pathText ((encode p ++ marks).drop ((encode p ++ marks).takeWhile _).length) = _
    rw [hauthority, pathText_encode hmarks]
  have hne : (cut x).path ≠ [] := by
    intro hnil
    rw [hnil] at hp
    cases hp
  have hsame := h.path
  rw [uriGetPath_uri, uriGetPath_uri, if_neg hne, hpath] at hsame
  split at hsame
  · cases hsame
  · rw [decode_encode, ← hp] at hsame
    have hlength := congrArg List.length (Option.some.inj hsame)
    have hle := (pathText_isPrefix (p.dropWhile fun c => !endsAuthority c)).length_le
    have hle' := (List.dropWhile_suffix (p := fun c => !endsAuthority c) (l := p)).length_le
    rw [List.length_append] at hlength
    simp [ascii] at hlength
    omega

theorem headPrintable_of_same {x : Bytes}
    (h : SameComponents (cut x).uri (cut (cut x).shown).uri) : (cut x).HeadPrintable :=
  ⟨noScheme_of_same h, noSlashes_of_same h⟩

/-- **Necessity**: what is read back was printable. -/
theorem printable_of_same {x : Bytes} (hzero : 0 ∉ x) (hcomplete : (cut x).Complete)
    (h : SameComponents (cut x).uri (cut (cut x).shown).uri) : (cut x).Printable := by
  have hhead := headPrintable_of_same h
  have hcut := cut_shown hzero hhead
  have hpath : pathText (decode (cut x).path) = decode (cut x).path := by
    have hsame := h.path
    have hshown : (cut (cut x).shown).path = encode (pathText (decode (cut x).path)) := by
      rw [hcut, cutTail_path, pathText_shown]
    rw [uriGetPath_uri, uriGetPath_uri, hshown] at hsame
    by_cases hnil : (cut x).path = []
    · rw [hnil]
      rfl
    · rw [if_neg hnil] at hsame
      split at hsame
      · cases hsame
      · rw [decode_encode] at hsame
        exact (Option.some.inj hsame).symm
  have hquery : ∀ q, (cut x).query = some q → queryKept (decode q) = decode q := by
    intro q hq
    have hsame := h.query
    have hshown : (cut (cut x).shown).query
        = (cut x).query.map fun q => encode (queryKept (decode q)) := by
      rw [hcut, cutTail_query, queryText_shown hcomplete.1 hpath]
    rw [uriGetQuery_uri, uriGetQuery_uri, hshown, hq] at hsame
    simpa using hsame.symm
  exact ⟨hhead, (pathText_eq_self path_head).mp hpath,
    fun q hq => queryKept_eq_self.mp (hquery q hq)⟩

/-! ## The round trip -/

/-- The round trip in terms of the two cuts. -/
theorem roundTrips_cut {x : Bytes} (hzero : 0 ∉ x) (haccepted : (uriParseCstr x).1 = 0)
    (same : Uri → Uri → Prop) :
    RoundTrips same x ↔ ((cut (cut x).shown).Complete ∧ (cut (cut x).shown).uri.Present)
      ∧ same (cut x).uri (cut (cut x).shown).uri := by
  obtain ⟨hcomplete, -⟩ := (accepted_iff hzero).mp haccepted
  have hshown := zero_notMem_shown hzero
  rw [RoundTrips, uriParseCstr_uri hzero hcomplete, uriAppendToString_eq, accepted_iff hshown]
  apply and_congr_right
  intro h
  rw [uriParseCstr_uri hshown h.1]

/-- **URI round trip**: an accepted input is read back from what is printed
for it if and only if each of its pieces is printable; the text of its port
comes back if it was decimal. -/
theorem roundTrips_iff {x : Bytes} (hzero : 0 ∉ x) (haccepted : (uriParseCstr x).1 = 0) :
    (RoundTrips SameComponents x ↔ (cut x).Printable)
      ∧ (RoundTrips SameTexts x ↔ (cut x).Printable ∧ (cut x).DecimalPort) := by
  obtain ⟨hcomplete, hpresent⟩ := (accepted_iff hzero).mp haccepted
  obtain ⟨-, hauthority⟩ := zero_notMem_cut hzero
  have hsame := shownCut_uri hauthority
  have hport : uriGetPortStr (cut x).uri = uriGetPortStr (cut x).shownCut.uri
      ↔ (cut x).DecimalPort := by
    rw [Cut.uri_portStr, Cut.uri_portStr, (hostPort_shownCut hauthority).2]
    unfold inDecimal Cut.DecimalPort
    cases (cut x).port with
    | none => simp
    | some p =>
        obtain ⟨t, n⟩ := p
        simp
  have hback : (cut x).Printable → ((cut (cut x).shown).Complete
      ∧ (cut (cut x).shown).uri.Present)
        ∧ SameComponents (cut x).uri (cut (cut x).shown).uri := by
    intro h
    rw [cut_shown_printable hzero hcomplete h]
    exact ⟨⟨shownCut_complete hcomplete, hsame.present hpresent⟩, hsame⟩
  rw [roundTrips_cut hzero haccepted, roundTrips_cut hzero haccepted]
  constructor
  · exact ⟨fun h => printable_of_same hzero hcomplete h.2, hback⟩
  · constructor
    · rintro ⟨-, h⟩
      have hprintable := printable_of_same hzero hcomplete h.toSameComponents
      have hstr := h.portStr
      rw [cut_shown_printable hzero hcomplete hprintable] at hstr
      exact ⟨hprintable, hport.mp hstr⟩
    · rintro ⟨hprintable, hdecimal⟩
      obtain ⟨haccept, h⟩ := hback hprintable
      refine ⟨haccept, h, ?_⟩
      rw [cut_shown_printable hzero hcomplete hprintable]
      exact hport.mpr hdecimal

theorem roundTrips_iff_allParts : RoundTrips SameTexts (ascii "http://u@h:80/a?b#c") := by
  apply (roundTrips_iff (by decide) (by decide)).2.mpr
  refine ⟨⟨⟨by decide, by decide⟩, by decide, ?_⟩, ?_⟩
  · rintro q hq
    cases hq
    decide
  · rintro t n hport
    cases hport
    decide

/-- A `?` that was escaped in the path is printed as it is, and then ends the
path. -/
theorem not_roundTrips_escapedMark :
    0 ∉ ascii "/%3F" ∧ (uriParseCstr (ascii "/%3F")).1 = 0
      ∧ ¬ RoundTrips SameComponents (ascii "/%3F") := by
  refine ⟨by decide, by decide, ?_⟩
  rintro ⟨-, h⟩
  exact absurd h.path (by decide)

end CWebServer.Uri
