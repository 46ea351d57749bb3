import CWebServer.Uri.HostPort

/-!
# Uri — Shown

Where the parser cuts the text that is printed for the pieces of an input.
Two things can go wrong before the path: without a scheme, the authority may
begin like one; without an authority, a path may begin like one.
-/

namespace CWebServer.Uri

open CWebServer.Strings CWebServer.Lib

/-! ## Schemes -/

theorem schemeText_cases (x : Bytes) :
    schemeText x = [] ∨ ∃ c w d, isLetter c = true ∧ (∀ b ∈ w, isSchemeChar b = true)
      ∧ (d = [58] ∨ d = [58, 47, 47]) ∧ schemeText x = c :: w ++ d := by
  cases x with
  | nil => exact .inl rfl
  | cons c s =>
      rw [schemeText]
      split
      · rename_i h
        refine .inr ⟨c, _, _, h.1, fun b hb => List.mem_takeWhile_imp hb, ?_, rfl⟩
        have hne := h.2
        unfold schemeDelimiter at hne ⊢
        split
        · exact .inr rfl
        · split
          · exact .inl rfl
          · rename_i hlong hshort
            rw [if_neg hlong, if_neg hshort] at hne
            exact absurd rfl hne
      · exact .inl rfl

theorem isSchemeChar_tolower (c : UInt8) : isSchemeChar (tolower c) = isSchemeChar c :=
  forall_byte (p := fun c => isSchemeChar (tolower c) = isSchemeChar c) (by decide) c

/-- A printed scheme is found again, unless slashes follow on its colon. -/
theorem schemeText_shown {x : Bytes} (hx : schemeText x ≠ []) (r : Bytes) :
    schemeText (stringTolower (schemeText x) ++ r) = stringTolower (schemeText x)
      ∨ ascii "//" <+: r
        ∧ schemeText (stringTolower (schemeText x) ++ r)
          = stringTolower (schemeText x) ++ ascii "//" := by
  rcases schemeText_cases x with hnil | ⟨c, w, d, hc, hw, hd, heq⟩
  · exact absurd hnil hx
  have hc' : isLetter (tolower c) = true := by rwa [isLetter_tolower]
  have hw' : ∀ b ∈ stringTolower w, isSchemeChar b = true := by
    intro b hb
    obtain ⟨a, ha, rfl⟩ := List.mem_map.mp hb
    rw [isSchemeChar_tolower]
    exact hw a ha
  rcases hd with rfl | rfl
  · have hlower : stringTolower (schemeText x) = tolower c :: stringTolower w ++ [58] := by
      rw [heq]
      simp [stringTolower, show tolower 58 = 58 from rfl]
    have htext : stringTolower (schemeText x) ++ r = tolower c :: stringTolower w ++ 58 :: r := by
      simp [hlower]
    rw [htext, schemeText_eq hc' hw', hlower]
    by_cases hr : ascii "//" <+: r
    · rw [if_pos hr]
      exact .inr ⟨hr, by simp [ascii]⟩
    · rw [if_neg hr]
      exact .inl rfl
  · have hlower : stringTolower (schemeText x) = tolower c :: stringTolower w ++ [58, 47, 47] := by
      rw [heq]
      simp [stringTolower, show tolower 58 = 58 from rfl, show tolower 47 = 47 from rfl]
    have htext : stringTolower (schemeText x) ++ r
        = tolower c :: stringTolower w ++ 58 :: 47 :: 47 :: r := by
      simp [hlower]
    have hslashes : ascii "//" <+: 47 :: 47 :: r := List.prefix_append [47, 47] r
    rw [htext, schemeText_eq hc' hw', hlower, if_pos hslashes]
    exact .inl rfl

/-- What follows on the authority makes no scheme of it. -/
theorem schemeText_append {r : Bytes} (hr : ∀ c, r.head? = some c → endsAuthority c = true)
    (a : Bytes) : schemeText (a ++ r) = [] ↔ schemeText a = [] := by
  have hend : ∀ c, endsAuthority c = true →
    isSchemeChar c = false ∧ isLetter c = false ∧ c ≠ 58 :=
    forall_byte (by decide)
  have hdrop : r.dropWhile isSchemeChar = r := by
    have hstop := takeWhile_append_stop (p := isSchemeChar) (w := []) (s := r) (by simp)
      fun c hc => (hend c (hr c hc)).1
    simpa using hstop.2
  have hhead : r.head? ≠ some 58 := fun h => (hend 58 (hr 58 h)).2.2 rfl
  cases a with
  | nil =>
      cases r with
      | nil => simp
      | cons c r =>
          have hc := (hend c (hr c rfl)).2.1
          simp [schemeText, hc]
  | cons c a =>
      have hdelimiter : schemeDelimiter ((a ++ r).dropWhile isSchemeChar) = []
          ↔ schemeDelimiter (a.dropWhile isSchemeChar) = [] := by
        rw [schemeDelimiter_eq_nil, schemeDelimiter_eq_nil, List.dropWhile_append, hdrop]
        cases ha : a.dropWhile isSchemeChar with
        | nil => simpa using hhead
        | cons b t => simp
      simp only [List.cons_append, schemeText]
      by_cases hc : isLetter c = true ∧ schemeDelimiter (a.dropWhile isSchemeChar) ≠ []
      · rw [if_pos hc, if_pos ⟨hc.1, fun h => hc.2 (hdelimiter.mp h)⟩]
        simp
      · rw [if_neg hc, if_neg fun h => hc ⟨h.1, fun h' => h.2 (hdelimiter.mpr h')⟩]

/-! ## Pieces of an input -/

theorem cut_path_head {x : Bytes} {b : UInt8} (h : (cut x).path.head? = some b) : b = 47 := by
  have hpath : ∀ s, (pathText s).head? = some b → b = 47 := by
    intro s hs
    unfold pathText at hs
    split at hs
    · rename_i hhead
      obtain ⟨t, rfl⟩ := List.head?_eq_some_iff.mp hhead
      rw [List.takeWhile_cons_of_pos (by decide)] at hs
      exact (Option.some.inj hs).symm
    · cases hs
  exact hpath _ h

theorem endsAuthority_cut {x : Bytes} {b : UInt8} (h : b ∈ (cut x).authority) :
    endsAuthority b = false := by
  simpa using List.mem_takeWhile_imp h

/-! ## The printed authority -/

theorem userinfoText_some {a u : Bytes} (h : userinfoText a = some u) : 64 ∉ u := by
  obtain ⟨⟨u', w⟩, hsplit, rfl⟩ := Option.map_eq_some_iff.mp h
  exact (splitFirst_some hsplit).2

theorem userinfoText_none {a : Bytes} (h : userinfoText a = none) : 64 ∉ a :=
  splitFirst_eq_none.mp (Option.map_eq_none_iff.mp h)

theorem zero_notMem_hostPortText {a : Bytes} (h : 0 ∉ a) : 0 ∉ hostPortText a := by
  intro hmem
  apply h
  rw [authority_eq a]
  exact List.mem_append_right _ hmem

theorem mem_shownAuthority {c : Cut} (hzero : 0 ∉ c.authority) {b : UInt8}
    (hb : b ∈ c.shownAuthority) :
    b ∈ c.authority ∨ b ∈ stringTolower c.authority ∨ b = 58 ∨ isdigit b = true := by
  have hmem := authority_eq c.authority
  rcases List.mem_append.mp hb with hb | hb
  · left
    rw [hmem]
    exact List.mem_append_left _ hb
  · right
    rcases mem_shownHostPort (zero_notMem_hostPortText hzero) hb with hb | hb | hb
    · left
      rw [hmem, stringTolower, List.map_append]
      exact List.mem_append_right _ hb
    · exact .inr (.inl hb)
    · exact .inr (.inr hb)

theorem endsAuthority_shown {c : Cut} (hzero : 0 ∉ c.authority)
    (hends : ∀ b ∈ c.authority, endsAuthority b = false) {b : UInt8}
    (hb : b ∈ c.shownAuthority) : endsAuthority b = false := by
  have hlower : ∀ b, endsAuthority (tolower b) = endsAuthority b := forall_byte (by decide)
  have hdigit : ∀ b, isdigit b = true → endsAuthority b = false := forall_byte (by decide)
  rcases mem_shownAuthority hzero hb with hb | hb | rfl | hb
  · exact hends b hb
  · obtain ⟨a, ha, rfl⟩ := List.mem_map.mp hb
    rw [hlower]
    exact hends a ha
  · rfl
  · exact hdigit b hb

theorem zero_notMem_shownAuthority {c : Cut} (hzero : 0 ∉ c.authority) :
    0 ∉ c.shownAuthority := by
  intro hb
  rcases mem_shownAuthority hzero hb with hb | hb | hb | hb
  · exact hzero hb
  · exact hzero ((mem_stringTolower (by decide) _).mp hb)
  · cases hb
  · cases hb

/-- The printed authority has the userinfo of the authority itself. -/
theorem shownAuthority_split {c : Cut} (hzero : 0 ∉ c.authority) :
    userinfoText c.shownAuthority = userinfoText c.authority
      ∧ hostPortText c.shownAuthority = shownHostPort (c.host, c.port) := by
  unfold Cut.shownAuthority
  cases huser : userinfoText c.authority with
  | some u =>
      have hsplit := splitFirst_append (userinfoText_some huser) (shownHostPort (c.host, c.port))
      have htext : userinfoMark (some u) ++ shownHostPort (c.host, c.port)
          = u ++ 64 :: shownHostPort (c.host, c.port) := by simp [userinfoMark]
      rw [htext]
      simp [userinfoText, hostPortText, hsplit]
  | none =>
      have hat : 64 ∉ shownHostPort (c.host, c.port) := by
        intro hmem
        have hnot := userinfoText_none huser
        rcases mem_shownHostPort (zero_notMem_hostPortText hzero) hmem with hb | hb | hb
        · have hw := (mem_stringTolower (by decide) _).mp hb
          rw [authority_eq c.authority] at hnot
          exact hnot (List.mem_append_right _ hw)
        · cases hb
        · cases hb
      have hsplit := splitFirst_eq_none.mpr hat
      simp [userinfoMark, userinfoText, hostPortText, hsplit]

/-! ## The printed path -/

theorem decode_head {s : Bytes} (hs : ∀ b, s.head? = some b → b = 47) {b : UInt8}
    (h : (decode s).head? = some b) : b = 47 := by
  cases s with
  | nil => cases h
  | cons a s =>
      obtain rfl := hs a rfl
      rw [decode_cons (by decide)] at h
      exact (Option.some.inj h).symm

theorem encode_cons_slash (s : Bytes) : encode (47 :: s) = 47 :: encode s := by
  rw [encode_cons]
  rfl

theorem head_marks {q f : Option Bytes} {b : UInt8}
    (h : (marked 63 q ++ marked 35 f).head? = some b) : endsPath b = true := by
  cases q with
  | some q => cases h; rfl
  | none =>
      cases f with
      | some f => cases h; rfl
      | none => cases h

/-- A printed path, then a query or a fragment. -/
theorem head_shownTail {x : Bytes} {b : UInt8} (h : (cut x).shownTail.head? = some b) :
    endsAuthority b = true := by
  have hpath : ∀ b, (decode (cut x).path).head? = some b → b = 47 := fun b =>
    decode_head fun b => cut_path_head
  unfold Cut.shownTail at h
  cases hdecode : decode (cut x).path with
  | nil =>
      rw [hdecode, encode_nil, List.nil_append] at h
      exact endsAuthority_of_endsPath (head_marks h)
  | cons a s =>
      obtain rfl := hpath a (by rw [hdecode]; rfl)
      rw [hdecode, encode_cons_slash] at h
      cases h
      rfl

/-- Only a path with two slashes is printed so. -/
theorem slashes_shownTail {x : Bytes} :
    ascii "//" <+: (cut x).shownTail ↔ ascii "//" <+: decode (cut x).path := by
  have hpath : ∀ b, (decode (cut x).path).head? = some b → b = 47 := fun b =>
    decode_head fun b => cut_path_head
  have hmarks : (marked 63 ((cut x).query.map fun q => encode (decode q))
      ++ marked 35 ((cut x).fragment.map fun f => encode (decode f))).head? ≠ some 47 := by
    intro h
    exact absurd (head_marks h) (by decide)
  have hslashes : ∀ s, ascii "//" <+: s → s.head? = some 47 := by
    intro s h
    exact List.singleton_prefix_iff_head?_eq_some.mp ((List.prefix_append [47] [47]).trans h)
  have hcons : ∀ s : Bytes, 47 :: [47] <+: 47 :: s ↔ s.head? = some 47 := fun s =>
    List.cons_prefix_cons.trans
      ((and_iff_right rfl).trans List.singleton_prefix_iff_head?_eq_some)
  change ∀ s, ascii "//" <+: 47 :: s ↔ s.head? = some 47 at hcons
  unfold Cut.shownTail
  cases hdecode : decode (cut x).path with
  | nil =>
      rw [encode_nil, List.nil_append]
      exact ⟨fun h => absurd (hslashes _ h) hmarks, fun h => by cases hslashes _ h⟩
  | cons a s =>
      obtain rfl := hpath a (by rw [hdecode]; rfl)
      rw [encode_cons_slash, List.cons_append, hcons, hcons]
      cases s with
      | nil =>
          rw [encode_nil, List.nil_append]
          exact ⟨fun h => absurd h hmarks, fun h => by cases h⟩
      | cons b s =>
          have hne : encode (b :: s) ≠ [] := fun h => by cases encode_eq_nil.mp h
          rw [List.head?_append_of_ne_nil _ hne, head_encode]

/-! ## The first cuts -/

/-- No component before the path is printed as text that the parser cuts
differently. -/
structure Cut.HeadPrintable (c : Cut) : Prop where
  noScheme : c.scheme = [] → schemeText c.shownAuthority = []
  noSlashes : c.shownAuthority = [] → ¬ ascii "//" <+: decode c.path

theorem schemeText_shownRest {x : Bytes} :
    schemeText ((cut x).shownAuthority ++ (cut x).shownTail) = []
      ↔ schemeText (cut x).shownAuthority = [] :=
  schemeText_append (fun _ => head_shownTail) _

theorem slashes_shownRest {x : Bytes} (hzero : 0 ∉ x) :
    ascii "//" <+: (cut x).shownAuthority ++ (cut x).shownTail
      ↔ (cut x).shownAuthority = [] ∧ ascii "//" <+: decode (cut x).path := by
  cases ha : (cut x).shownAuthority with
  | nil => simp [slashes_shownTail]
  | cons a s =>
      have hends := endsAuthority_shown (zero_notMem_cut hzero).2 (fun _ => endsAuthority_cut)
        (b := a) (by rw [ha]; simp)
      have hne : ¬ ascii "//" <+: a :: s ++ (cut x).shownTail := by
        intro h
        obtain rfl : 47 = a := (List.cons_prefix_cons.mp h).1
        cases hends
      exact ⟨fun h => absurd h hne, fun h => by cases h.1⟩

/-- **The printed text is cut at the same places**, up to the path. -/
theorem cut_shown {x : Bytes} (hzero : 0 ∉ x) (hx : (cut x).HeadPrintable) :
    cut (cut x).shown
      = cutTail (stringTolower (cut x).scheme) [] (cut x).shownAuthority (cut x).shownTail := by
  have hslashes : ¬ ascii "//" <+: (cut x).shownAuthority ++ (cut x).shownTail := fun h =>
    hx.noSlashes ((slashes_shownRest hzero).mp h).1 ((slashes_shownRest hzero).mp h).2
  have hscheme : schemeText (cut x).shown = stringTolower (cut x).scheme := by
    by_cases h : (cut x).scheme = []
    · have hnone := schemeText_shownRest.mpr (hx.noScheme h)
      rw [Cut.shown, h]
      exact hnone
    · exact (schemeText_shown h _).resolve_right fun hmore => hslashes hmore.1
  have hrest : (cut x).shown.drop (stringTolower (cut x).scheme).length
      = (cut x).shownAuthority ++ (cut x).shownTail := List.drop_left
  have hnoSlashes : slashesText ((cut x).shownAuthority ++ (cut x).shownTail) = [] := by
    rw [slashesText, if_neg hslashes]
  have hauthority : authorityText ((cut x).shownAuthority ++ (cut x).shownTail)
      = (cut x).shownAuthority := by
    have hstop := takeWhile_append_stop (p := fun c => !endsAuthority c)
      (w := (cut x).shownAuthority) (s := (cut x).shownTail)
      (fun b hb => by simp [endsAuthority_shown (zero_notMem_cut hzero).2
        (fun _ => endsAuthority_cut) hb])
      (fun b hb => by simp [head_shownTail hb])
    exact hstop.1
  rw [cut, hscheme, hrest, hnoSlashes, List.length_nil, List.drop_zero, hauthority, List.drop_left]

/-! ## The cuts behind the authority -/

/-- An encoded text is cut behind the path that the text itself begins with. -/
theorem pathText_encode {r : Bytes} (hr : ∀ b, r.head? = some b → endsPath b = true)
    (s : Bytes) :
    pathText (encode s ++ r) = encode (pathText s) := by
  have hhead : (encode s ++ r).head? = some 47 ↔ s.head? = some 47 := by
    rw [← head_encode (s := s)]
    cases hs : encode s with
    | nil =>
        rw [List.nil_append]
        exact ⟨fun h => absurd (hr 47 h) (by decide), fun h => by cases h⟩
    | cons a t => simp
  unfold pathText
  by_cases h : s.head? = some 47
  · rw [if_pos (hhead.mpr h), if_pos h, (takeWhile_encode kept_endsPath hr s).1]
  · rw [if_neg fun h' => h (hhead.mp h'), if_neg h, encode_nil]

/-- What a printed query is read as. -/
def queryKept (s : Bytes) : Bytes :=
  s.take 1 ++ (s.drop 1).takeWhile fun c => !endsQuery c

theorem queryText_encode {q : Option Bytes} (hq : q ≠ some []) (f : Option Bytes) :
    queryText (marked 63 (q.map encode) ++ marked 35 f) = q.map fun s => encode (queryKept s) := by
  have hends : ∀ b, (marked 35 f).head? = some b → endsQuery b = true := by
    intro b hb
    cases f with
    | none => cases hb
    | some f => cases hb; rfl
  rcases q with _ | _ | ⟨b, s⟩
  · cases f <;> rfl
  · exact absurd rfl hq
  · obtain ⟨a, e, hbyte⟩ := List.exists_cons_of_ne_nil (encodeByte_ne_nil b)
    have hcut := (takeWhile_encode kept_endsQuery hends s).1
    have hnot : ∀ c ∈ e, (!endsQuery c) = true := by
      intro c hc
      rcases encodeByte_cases b with ⟨-, heq⟩ | ⟨-, h, l, heq, hh, hl⟩
      · rw [hbyte] at heq
        rw [(List.cons.inj heq).2] at hc
        cases hc
      · rw [hbyte] at heq
        rw [(List.cons.inj heq).2] at hc
        have hdigit : isUpperHexDigit c = true := by
          rcases List.mem_cons.mp hc with rfl | hc
          · exact hh
          · rwa [List.mem_singleton.mp hc]
        have hnoAuthority := endsAuthority_hexDigit hdigit
        simp only [endsAuthority, Bool.or_eq_false_iff, decide_eq_false_iff_not] at hnoAuthority
        simp [endsQuery, hnoAuthority.2]
    have htext : marked 63 ((some (b :: s)).map encode) ++ marked 35 f
        = 63 :: a :: (e ++ (encode s ++ marked 35 f)) := by
      simp [marked, hbyte]
    have hkept : queryKept (b :: s) = b :: s.takeWhile fun c => !endsQuery c := rfl
    rw [htext]
    show some (a :: (e ++ (encode s ++ marked 35 f)).takeWhile _) = _
    rw [List.takeWhile_append_of_pos hnot, hcut, Option.map_some, hkept, encode_cons, hbyte]
    rfl

theorem fragmentText_marked (f : Option Bytes) : fragmentText (marked 35 f) = f := by
  cases f <;> rfl

theorem pathText_shown (x : Bytes) :
    pathText (cut x).shownTail = encode (pathText (decode (cut x).path)) :=
  pathText_encode (fun _ => head_marks) _

/-- Where the path is not cut, the query is what follows. -/
theorem queryText_shown {x : Bytes} (hq : (cut x).query ≠ some [])
    (hpath : pathText (decode (cut x).path) = decode (cut x).path) :
    queryText ((cut x).shownTail.drop (pathText (cut x).shownTail).length)
      = (cut x).query.map fun q => encode (queryKept (decode q)) := by
  have hdecoded : (cut x).query.map decode ≠ some [] := by
    cases hquery : (cut x).query with
    | none => simp
    | some q =>
        have hne : q ≠ [] := fun h => hq (by rw [hquery, h])
        simpa using decode_ne_nil hne
  have htext := queryText_encode hdecoded
    ((cut x).fragment.map fun f => encode (decode f))
  simp only [Option.map_map, Function.comp_def] at htext
  rw [pathText_shown, hpath, Cut.shownTail, List.drop_left, htext]

theorem pathText_eq_self {s : Bytes} (hs : ∀ b, s.head? = some b → b = 47) :
    pathText s = s ↔ 63 ∉ s ∧ 35 ∉ s := by
  have hends : (∀ b ∈ s, (!endsPath b) = true) ↔ 63 ∉ s ∧ 35 ∉ s := by
    simp only [endsPath, Bool.not_eq_true', Bool.or_eq_false_iff, decide_eq_false_iff_not]
    constructor
    · exact fun h => ⟨fun hb => (h 63 hb).1 rfl, fun hb => (h 35 hb).2 rfl⟩
    · rintro ⟨hmark, hhash⟩ b hb
      exact ⟨fun h => hmark (h ▸ hb), fun h => hhash (h ▸ hb)⟩
  rw [← hends, ← List.takeWhile_eq_self_iff]
  cases s with
  | nil => rfl
  | cons b s =>
      obtain rfl := hs b rfl
      rw [pathText, if_pos List.head?_cons]

theorem queryKept_eq_self {s : Bytes} : queryKept s = s ↔ 35 ∉ s.drop 1 := by
  have hends : (∀ b ∈ s.drop 1, (!endsQuery b) = true) ↔ 35 ∉ s.drop 1 := by
    simp only [endsQuery, Bool.not_eq_true', decide_eq_false_iff_not]
    exact ⟨fun h hb => h 35 hb rfl, fun h b hb heq => h (heq ▸ hb)⟩
  rw [← hends, ← List.takeWhile_eq_self_iff, queryKept]
  conv => lhs; rhs; rw [← List.take_append_drop 1 s]
  exact List.append_right_inj (s.take 1)

end CWebServer.Uri
