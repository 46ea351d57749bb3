import CWebServer.Uri.Parse

/-!
# Uri — Components

What path, query and fragment of an accepted input are, told from the text
behind its authority. The byte behind a `?` is taken for the query unread, so
a `#` that stands there does not start the fragment.
-/

namespace CWebServer.Uri

open CWebServer.Strings CWebServer.Lib

/-- The part of it behind the path. -/
def afterPath (x : Bytes) : Bytes :=
  (afterAuthority x).dropWhile fun c => !endsPath c

/-- Path, query and fragment of `u` are those of the text `r`. -/
structure ComponentsOf (u : Uri) (r : Bytes) : Prop where
  hasPath : u.hasPath = true ↔ r.head? = some 47
  path : u.hasPath = true → u.path = decode (r.takeWhile fun c => !endsPath c)
  /-- The text from the first `?` in front of any `#` up to the next `#`. -/
  query : u.hasQuery = true → 63 ∈ r.takeWhile (· ≠ 35)
    ∧ u.query = decode (((r.takeWhile (· ≠ 35)).dropWhile (· ≠ 63)).drop 1)
  fragment : u.hasFragment = true → 35 ∈ r
    ∧ u.fragment = decode ((r.dropWhile (· ≠ 35)).drop 1)

/-- So are those of an accepted input. -/
def ComponentsRule (x : Bytes) : Prop :=
  (uriParseCstr x).1 = 0 → ComponentsOf (uriParseCstr x).2 (afterAuthority x)

/-! ## The pieces -/

namespace Cut

variable (c : Cut)

theorem uri_path : c.uri.path = decode c.path ∧ c.uri.hasPath = decide (c.path ≠ []) :=
  ⟨rfl, rfl⟩

theorem uri_query : c.uri.query = decode (c.query.getD []) ∧ c.uri.hasQuery = c.query.isSome :=
  ⟨rfl, rfl⟩

theorem uri_fragment :
    c.uri.fragment = decode (c.fragment.getD []) ∧ c.uri.hasFragment = c.fragment.isSome :=
  ⟨rfl, rfl⟩

end Cut

section

variable {x : Bytes}

/-- The path and what stands behind it. -/
theorem pathText_afterAuthority (x : Bytes) :
    pathText (afterAuthority x) = (afterAuthority x).takeWhile (fun c => !endsPath c)
      ∧ (afterAuthority x).drop (pathText (afterAuthority x)).length = afterPath x := by
  have hpath : pathText (afterAuthority x)
      = (afterAuthority x).takeWhile fun c => !endsPath c := by
    unfold pathText
    split
    · rfl
    · rename_i hslash
      cases hr : afterAuthority x with
      | nil => rfl
      | cons c r =>
          rw [hr, List.head?_cons] at hslash
          have hc : endsAuthority c = true := head_afterAuthority (by rw [hr]; rfl)
          have hne : c ≠ 47 := fun he => hslash (by rw [he])
          have hend : endsPath c = true := by simpa [endsAuthority, endsPath, hne] using hc
          exact (List.takeWhile_cons_of_neg (by simp [hend])).symm
  refine ⟨hpath, ?_⟩
  rw [hpath, afterPath, drop_takeWhile]

theorem head_afterPath {c : UInt8} (h : (afterPath x).head? = some c) : endsPath c = true := by
  unfold afterPath at h
  have hhead := List.head?_dropWhile_not (fun c => !endsPath c) (afterAuthority x)
  simp only [h] at hhead
  simpa using hhead

/-- Neither mark stands in the path. -/
theorem ne_of_mem_pathText {c d : UInt8} (hc : endsPath c = true)
    (hd : d ∈ pathText (afterAuthority x)) : decide (d ≠ c) = true := by
  rw [(pathText_afterAuthority x).1] at hd
  have hpath := List.mem_takeWhile_imp hd
  rw [decide_eq_true_iff]
  rintro rfl
  simp [hc] at hpath

/-- The text up to the first `#`, and from there on. -/
theorem upToHash (x : Bytes) :
    (afterAuthority x).takeWhile (· ≠ 35)
        = pathText (afterAuthority x) ++ (afterPath x).takeWhile (· ≠ 35)
      ∧ (afterAuthority x).dropWhile (· ≠ 35) = (afterPath x).dropWhile (· ≠ 35) := by
  have hnot : ∀ c ∈ pathText (afterAuthority x), decide (c ≠ 35) = true :=
    fun c hc => ne_of_mem_pathText rfl hc
  have hsplit : afterAuthority x = pathText (afterAuthority x) ++ afterPath x := by
    rw [(pathText_afterAuthority x).1]
    exact List.takeWhile_append_dropWhile.symm
  constructor
  · conv_lhs => rw [hsplit]
    exact List.takeWhile_append_of_pos hnot
  · conv_lhs => rw [hsplit]
    exact List.dropWhile_append_of_pos hnot

/-! ## Query and fragment -/

theorem queryText_hash (t : Bytes) : queryText (35 :: t) = none := rfl

/-- The byte behind the `?` and those up to the next `#`. -/
theorem queryText_mark (b : UInt8) (t : Bytes) :
    queryText (63 :: b :: t) = some (b :: t.takeWhile (· ≠ 35))
      ∧ (63 :: b :: t).drop (marked 63 (queryText (63 :: b :: t))).length
        = t.dropWhile (· ≠ 35) := by
  have hends : (fun c => !endsQuery c) = fun c : UInt8 => decide (c ≠ 35) := by
    funext c
    simp [endsQuery]
  have hquery : queryText (63 :: b :: t) = some (b :: t.takeWhile (· ≠ 35)) := by
    have hhead : (63 :: b :: t).head? = some 63 := rfl
    rw [queryText, if_pos hhead, hends]
    rfl
  refine ⟨hquery, ?_⟩
  rw [hquery]
  exact drop_takeWhile _ t

theorem fragmentText_some {s q : Bytes} (h : fragmentText s = some q) : s = 35 :: q := by
  unfold fragmentText at h
  split at h
  · rename_i hhead
    obtain ⟨t, rfl⟩ := List.head?_eq_some_iff.mp hhead
    rw [← Option.some.inj h]
    rfl
  · cases h

/-- The query and the fragment of the input are those of this text. -/
theorem cut_afterPath (x : Bytes) :
    (cut x).query = queryText (afterPath x)
      ∧ (cut x).fragment
        = fragmentText ((afterPath x).drop (marked 63 (queryText (afterPath x))).length) := by
  obtain ⟨-, hquery, hfragment⟩ := cut_eq x
  rw [(pathText_afterAuthority x).2] at hquery hfragment
  exact ⟨hquery, hfragment⟩

/-- A `#` directly behind the `?` ends the path of an accepted input: the
next `#`, if any, is not its last byte. -/
def MarksTouch (x : Bytes) : Prop :=
  ∃ t, afterPath x = 63 :: 35 :: t ∧ t.dropWhile (· ≠ 35) ≠ [35]

/-- Such an input is accepted, with a `#` in its query. -/
theorem MarksTouch.accepted (h : MarksTouch x) :
    (cut x).Complete ∧ (cut x).uri.Present ∧ ∃ q, (cut x).query = some (35 :: q) := by
  obtain ⟨t, ht, hlast⟩ := h
  obtain ⟨hquery, hfragment⟩ := cut_afterPath x
  obtain ⟨hmark, hdrop⟩ := queryText_mark 35 t
  rw [ht, hmark] at hquery
  rw [ht, hdrop] at hfragment
  refine ⟨⟨?_, ?_⟩, ?_, _, hquery⟩
  · rw [hquery]
    exact fun he => nomatch he
  · intro he
    rw [he] at hfragment
    exact hlast (fragmentText_some hfragment.symm)
  · have hhas : (cut x).uri.hasQuery = true := by
      show (cut x).query.isSome = true
      rw [hquery]
      rfl
    exact .inr (.inr (.inr (.inl hhas)))

/-- What stands behind the path of any other accepted input. -/
theorem afterPath_cases (hcomplete : (cut x).Complete) (htouch : ¬MarksTouch x) :
    afterPath x = [] ∨ (∃ t, afterPath x = 35 :: t)
      ∨ ∃ b t, afterPath x = 63 :: b :: t ∧ b ≠ 35 := by
  obtain ⟨hquery, hfragment⟩ := cut_afterPath x
  cases hpath : afterPath x with
  | nil => exact .inl rfl
  | cons c t =>
      have hc : endsPath c = true := head_afterPath (by rw [hpath]; rfl)
      by_cases hhash : c = 35
      · exact .inr (.inl ⟨t, by rw [hhash]⟩)
      · obtain rfl : c = 63 := by simpa [endsPath, hhash] using hc
        cases t with
        | nil =>
            rw [hpath] at hquery
            exact absurd hquery hcomplete.1
        | cons b t =>
            refine .inr (.inr ⟨b, t, rfl, ?_⟩)
            rintro rfl
            apply htouch
            refine ⟨t, hpath, fun hlast => ?_⟩
            rw [hpath, (queryText_mark 35 t).2, hlast] at hfragment
            exact hcomplete.2 hfragment

theorem hasPath_iff : (cut x).uri.hasPath = true ↔ (afterAuthority x).head? = some 47 := by
  rw [(cut x).uri_path.2, decide_eq_true_iff, (cut_eq x).1, pathText]
  cases hr : afterAuthority x with
  | nil => simp
  | cons c r =>
      by_cases hc : c = 47
      · simp [hc, endsPath]
      · simp [hc]

/-- A query that is there, and a fragment. -/
theorem exists_query (h : (cut x).uri.hasQuery = true) :
    ∃ q, queryText (afterPath x) = some q ∧ (cut x).uri.query = decode q := by
  rw [(cut x).uri_query.2] at h
  obtain ⟨q, hq⟩ := Option.isSome_iff_exists.mp h
  refine ⟨q, (cut_afterPath x).1.symm.trans hq, ?_⟩
  rw [(cut x).uri_query.1, hq, Option.getD_some]

theorem exists_fragment (h : (cut x).uri.hasFragment = true) :
    ∃ q, (afterPath x).drop (marked 63 (queryText (afterPath x))).length = 35 :: q
      ∧ (cut x).uri.fragment = decode q := by
  rw [(cut x).uri_fragment.2] at h
  obtain ⟨q, hq⟩ := Option.isSome_iff_exists.mp h
  refine ⟨q, fragmentText_some ((cut_afterPath x).2.symm.trans hq), ?_⟩
  rw [(cut x).uri_fragment.1, hq, Option.getD_some]

/-- The components of an input whose marks do not touch. -/
theorem componentsOf_cut (hcomplete : (cut x).Complete) (htouch : ¬MarksTouch x) :
    ComponentsOf (cut x).uri (afterAuthority x) := by
  obtain ⟨hbefore, hbehind⟩ := upToHash x
  have hnomark : ∀ c ∈ pathText (afterAuthority x), decide (c ≠ 63) = true :=
    fun c hc => ne_of_mem_pathText rfl hc
  refine ⟨hasPath_iff, ?_, ?_, ?_⟩
  · intro _
    rw [(cut x).uri_path.1, (cut_eq x).1, (pathText_afterAuthority x).1]
  · intro hhas
    obtain ⟨q, hq, hdecode⟩ := exists_query hhas
    rw [hdecode, hbefore, List.dropWhile_append_of_pos hnomark]
    rcases afterPath_cases hcomplete htouch with hnil | ⟨t, ht⟩ | ⟨b, t, ht, hb⟩
    · rw [hnil] at hq
      cases hq
    · rw [ht, queryText_hash] at hq
      cases hq
    · rw [ht, (queryText_mark b t).1] at hq
      have htake : (63 :: b :: t).takeWhile (· ≠ 35) = 63 :: b :: t.takeWhile (· ≠ 35) := by
        rw [List.takeWhile_cons_of_pos (by decide), List.takeWhile_cons_of_pos (by simpa using hb)]
      rw [ht, htake, List.dropWhile_cons_of_neg (by decide), ← Option.some.inj hq]
      exact ⟨by simp, rfl⟩
  · intro hhas
    obtain ⟨q, hq, hdecode⟩ := exists_fragment hhas
    have hdrop : (afterAuthority x).dropWhile (· ≠ 35) = 35 :: q := by
      rw [hbehind]
      rcases afterPath_cases hcomplete htouch with hnil | ⟨t, ht⟩ | ⟨b, t, ht, hb⟩
      · rw [hnil] at hq
        cases hq
      · rw [ht, List.dropWhile_cons_of_neg (by decide), ← hq, ht]
        rfl
      · rw [ht, (queryText_mark b t).2] at hq
        rw [ht, List.dropWhile_cons_of_pos (by decide),
          List.dropWhile_cons_of_pos (by simpa using hb), hq]
    refine ⟨?_, by rw [hdrop]; exact hdecode⟩
    have hmem : 35 ∈ (afterAuthority x).dropWhile (· ≠ 35) := by
      rw [hdrop]
      exact List.mem_cons_self
    exact (List.dropWhile_suffix _).subset hmem

/-- **Path, query and fragment** are the texts between the marks exactly if
the input is not accepted with a `#` directly behind the `?`. -/
theorem componentsRule_iff (hzero : 0 ∉ x) : ComponentsRule x ↔ ¬MarksTouch x := by
  constructor
  · intro hrule htouch
    obtain ⟨hcomplete, hpresent, q, hq⟩ := htouch.accepted
    have hcomponents := hrule ((accepted_iff hzero).mpr ⟨hcomplete, hpresent⟩)
    rw [uriParseCstr_uri hzero hcomplete] at hcomponents
    have hhas : (cut x).uri.hasQuery = true := by
      rw [(cut x).uri_query.2, hq]
      rfl
    obtain ⟨-, hquery⟩ := hcomponents.query hhas
    obtain ⟨t, ht, -⟩ := htouch
    -- between the marks there is nothing
    have hbetween : ((afterAuthority x).takeWhile (· ≠ 35)).dropWhile (· ≠ 63) = [63] := by
      have hnomark : ∀ c ∈ pathText (afterAuthority x), decide (c ≠ 63) = true :=
        fun c hc => ne_of_mem_pathText rfl hc
      rw [(upToHash x).1, List.dropWhile_append_of_pos hnomark, ht]
      rfl
    have hdecode : (cut x).uri.query = decode (35 :: q) := by
      rw [(cut x).uri_query.1, hq, Option.getD_some]
    rw [hbetween, hdecode, decode_cons (by decide)] at hquery
    cases hquery
  · intro htouch haccepted
    have hcomplete := ((accepted_iff hzero).mp haccepted).1
    rw [uriParseCstr_uri hzero hcomplete]
    exact componentsOf_cut hcomplete htouch

end

theorem componentsRule_iff_accepted :
    ComponentsRule (ascii "http://h/p?q#f") ↔ ¬MarksTouch (ascii "http://h/p?q#f") :=
  componentsRule_iff (by decide)

/-- Of `/a?#b` the query is `#b`, and there is no fragment. -/
theorem not_componentsRule :
    (uriParseCstr (ascii "/a?#b")).1 = 0
      ∧ uriGetQuery (uriParseCstr (ascii "/a?#b")).2 = some (ascii "#b")
      ∧ uriGetFragment (uriParseCstr (ascii "/a?#b")).2 = none
      ∧ ¬ComponentsRule (ascii "/a?#b") := by
  have haccepted : (uriParseCstr (ascii "/a?#b")).1 = 0 := by decide
  have hquery : (uriParseCstr (ascii "/a?#b")).2.query = ascii "#b" := by decide
  refine ⟨haccepted, by decide, by decide, ?_⟩
  intro hrule
  have htext := ((hrule haccepted).query (by decide)).2
  rw [hquery] at htext
  exact absurd htext (by decide)

end CWebServer.Uri
