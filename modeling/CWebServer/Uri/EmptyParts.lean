import CWebServer.Uri.Components

/-!
# Uri — EmptyParts

An input that ends in `?` or `#`. The parser takes the byte behind a `?`
unread and wants one behind a `#`, so neither mark may be the last byte, while
of `?#` the second byte is the query.
-/

namespace CWebServer.Uri

open CWebServer.Strings CWebServer.Lib

/-- An empty query, an empty fragment, and both. -/
def emptyParts : List Bytes :=
  [ascii "?", ascii "#", ascii "?#"]

/-- Scheme, authority and path are the same. -/
def SameFront (u v : Uri) : Prop :=
  uriGetScheme u = uriGetScheme v ∧ u.hasAuthority = v.hasAuthority
    ∧ u.authority = v.authority ∧ uriGetPath u = uriGetPath v

/-- With `m` behind it `x` is accepted too, and its front is what it was. -/
def AcceptedWith (x m : Bytes) : Prop :=
  (uriParseCstr (x ++ m)).1 = 0 ∧ SameFront (uriParseCstr (x ++ m)).2 (uriParseCstr x).2

/-- The same with every empty query and fragment. -/
def AcceptsEmptyParts (x : Bytes) : Prop :=
  ∀ m ∈ emptyParts, AcceptedWith x m

theorem Cut.uri_sameFront {c d : Cut} (hscheme : c.scheme = d.scheme)
    (hauthority : c.authority = d.authority) (hpath : c.path = d.path) :
    SameFront c.uri d.uri := by
  cases c
  cases d
  subst hscheme hauthority hpath
  exact ⟨rfl, rfl, rfl, rfl⟩

/-! ## A text in front of a mark -/

theorem mark_cases {c : UInt8} (hc : endsPath c = true) : c = 63 ∨ c = 35 := by
  simpa [endsPath] using hc

section

variable {c : UInt8} (hc : endsPath c = true) (s t : Bytes)
include hc

theorem schemeDelimiter_append : schemeDelimiter (s ++ c :: t) = schemeDelimiter s := by
  have hlong : ascii "://" <+: s ++ c :: t ↔ ascii "://" <+: s := by
    apply prefix_append_mark
    rcases mark_cases hc with rfl | rfl <;> decide
  have hshort : ascii ":" <+: s ++ c :: t ↔ ascii ":" <+: s := by
    apply prefix_append_mark
    rcases mark_cases hc with rfl | rfl <;> decide
  simp only [schemeDelimiter, hlong, hshort]

theorem schemeText_append_mark : schemeText (s ++ c :: t) = schemeText s := by
  have hletter : isLetter c = false ∧ isSchemeChar c = false := by
    rcases mark_cases hc with rfl | rfl <;> decide
  cases s with
  | nil => simp [schemeText, hletter.1]
  | cons a s =>
      obtain ⟨htake, hdrop⟩ := takeWhile_append_mark hletter.2 s t
      rw [List.cons_append, schemeText, schemeText, htake, hdrop, schemeDelimiter_append hc]

theorem slashesText_append : slashesText (s ++ c :: t) = slashesText s := by
  have hslashes : ascii "//" <+: s ++ c :: t ↔ ascii "//" <+: s := by
    apply prefix_append_mark
    rcases mark_cases hc with rfl | rfl <;> decide
  simp only [slashesText, hslashes]

theorem authorityText_append : authorityText (s ++ c :: t) = authorityText s := by
  have hend : (!endsAuthority c) = false := by
    rcases mark_cases hc with rfl | rfl <;> decide
  exact (takeWhile_append_mark (p := fun c => !endsAuthority c) hend s t).1

/-- The text in which the authority is looked for. -/
theorem drop_front_append :
    ((s ++ c :: t).drop (schemeText (s ++ c :: t)).length).drop
        (slashesText ((s ++ c :: t).drop (schemeText (s ++ c :: t)).length)).length
      = (s.drop (schemeText s).length).drop (slashesText (s.drop (schemeText s).length)).length
        ++ c :: t := by
  have hscheme := (schemeText_isPrefix s).length_le
  have hslashes := (slashesText_isPrefix (s.drop (schemeText s).length)).length_le
  rw [schemeText_append_mark hc, List.drop_append_of_le_length hscheme, slashesText_append hc,
    List.drop_append_of_le_length hslashes]

theorem afterAuthority_append : afterAuthority (s ++ c :: t) = afterAuthority s ++ c :: t := by
  have hend : (!endsAuthority c) = false := by
    rcases mark_cases hc with rfl | rfl <;> decide
  have hfront := drop_front_append hc s t
  simp only [afterAuthority, hfront]
  exact (takeWhile_append_mark (p := fun c => !endsAuthority c) hend _ t).2

theorem afterPath_append : afterPath (s ++ c :: t) = afterPath s ++ c :: t := by
  have hend : (!endsPath c) = false := by simp [hc]
  unfold afterPath
  rw [afterAuthority_append hc]
  exact (takeWhile_append_mark (p := fun c => !endsPath c) hend _ t).2

/-- The front of the input is cut as before. -/
theorem cut_front_append :
    (cut (s ++ c :: t)).scheme = (cut s).scheme
      ∧ (cut (s ++ c :: t)).authority = (cut s).authority
      ∧ (cut (s ++ c :: t)).path = (cut s).path := by
  have hend : (!endsPath c) = false := by simp [hc]
  refine ⟨schemeText_append_mark hc s t, ?_, ?_⟩
  · show authorityText _ = authorityText _
    rw [drop_front_append hc, authorityText_append hc]
  · rw [(cut_eq (s ++ c :: t)).1, (cut_eq s).1, (pathText_afterAuthority (s ++ c :: t)).1,
      (pathText_afterAuthority s).1, afterAuthority_append hc]
    exact (takeWhile_append_mark (p := fun c => !endsPath c) hend _ t).1

end

/-- Without marks there is nothing behind the path. -/
theorem afterPath_eq_nil {x : Bytes} (hx : ∀ c ∈ x, endsPath c = false) : afterPath x = [] := by
  have hsuffix : afterPath x <:+ x :=
    (List.dropWhile_suffix _).trans ((List.dropWhile_suffix _).trans
      ((List.drop_suffix _ _).trans (List.drop_suffix _ _)))
  cases hpath : afterPath x with
  | nil => rfl
  | cons c t =>
      have hmem : c ∈ x := hsuffix.subset (by rw [hpath]; exact List.mem_cons_self)
      have hmark := head_afterPath (x := x) (c := c) (by rw [hpath]; rfl)
      rw [hx c hmem] at hmark
      cases hmark

/-! ## The marks as the last bytes -/

section

variable {x : Bytes} (hzero : 0 ∉ x) (hmarks : ∀ c ∈ x, endsPath c = false)

include hmarks in
/-- The query and the fragment are those of the marks alone. -/
theorem cut_tail_append {c : UInt8} (hc : endsPath c = true) (t : Bytes) :
    (cut (x ++ c :: t)).query = queryText (c :: t)
      ∧ (cut (x ++ c :: t)).fragment
        = fragmentText ((c :: t).drop (marked 63 (queryText (c :: t))).length) := by
  obtain ⟨hquery, hfragment⟩ := cut_afterPath (x ++ c :: t)
  rw [afterPath_append hc, afterPath_eq_nil hmarks, List.nil_append] at hquery hfragment
  exact ⟨hquery, hfragment⟩

include hzero hmarks in
/-- **A mark may not be the last byte**, but `?#` may end the input. -/
theorem acceptedWith_iff (haccepted : (uriParseCstr x).1 = 0) {m : Bytes} (hm : m ∈ emptyParts) :
    AcceptedWith x m ↔ m = ascii "?#" := by
  have hcomplete := ((accepted_iff hzero).mp haccepted).1
  have hzero' : ∀ m ∈ emptyParts, 0 ∉ x ++ m := by
    intro m hm hmem
    have hno : ∀ m ∈ emptyParts, 0 ∉ m := by decide
    exact (List.mem_append.mp hmem).elim hzero (hno m hm)
  have hrejected : ∀ m ∈ emptyParts, ¬(cut (x ++ m)).Complete → ¬AcceptedWith x m := by
    intro m hm hincomplete h
    exact hincomplete ((accepted_iff (hzero' m hm)).mp h.1).1
  simp only [emptyParts, List.mem_cons, List.not_mem_nil, or_false] at hm
  rcases hm with rfl | rfl | rfl
  · have hquery := (cut_tail_append hmarks (c := 63) rfl []).1
    constructor
    · intro h
      exact absurd h (hrejected _ (by decide) fun hc => hc.1 hquery)
    · intro h
      cases h
  · have hfragment := (cut_tail_append hmarks (c := 35) rfl []).2
    constructor
    · intro h
      exact absurd h (hrejected _ (by decide) fun hc => hc.2 hfragment)
    · intro h
      cases h
  · obtain ⟨hquery, hfragment⟩ := cut_tail_append hmarks (c := 63) rfl [35]
    obtain ⟨hscheme, hauthority, hpath⟩ := cut_front_append (c := 63) rfl x [35]
    change (cut (x ++ ascii "?#")).query = some [35] at hquery
    change (cut (x ++ ascii "?#")).fragment = none at hfragment
    have hzeroMarks := hzero' (ascii "?#") (by decide)
    have hboth : (cut (x ++ ascii "?#")).Complete := by
      rw [Cut.Complete, hquery, hfragment]
      decide
    have hpresent : (cut (x ++ ascii "?#")).uri.Present := by
      have hhas : (cut (x ++ ascii "?#")).uri.hasQuery = true := by
        rw [(cut _).uri_query.2, hquery]
        rfl
      exact .inr (.inr (.inr (.inl hhas)))
    refine iff_of_true ⟨(accepted_iff hzeroMarks).mpr ⟨hboth, hpresent⟩, ?_⟩ rfl
    rw [uriParseCstr_uri hzeroMarks hboth, uriParseCstr_uri hzero hcomplete]
    exact Cut.uri_sameFront hscheme hauthority hpath

end

/-- **No input is accepted with every empty query and fragment**: with `?` or
`#` alone it never is, with `?#` it always is. -/
theorem not_acceptsEmptyParts {x : Bytes} (hzero : 0 ∉ x)
    (hmarks : ∀ c ∈ x, endsPath c = false) (haccepted : (uriParseCstr x).1 = 0) :
    ¬AcceptsEmptyParts x ∧ ∀ m ∈ emptyParts, (AcceptedWith x m ↔ m = ascii "?#") := by
  have hiff : ∀ m ∈ emptyParts, (AcceptedWith x m ↔ m = ascii "?#") :=
    fun m hm => acceptedWith_iff hzero hmarks haccepted hm
  refine ⟨?_, hiff⟩
  intro hall
  have hmark : ascii "?" ∈ emptyParts := by decide
  have heq := (hiff _ hmark).mp (hall _ hmark)
  exact absurd heq (by decide)

theorem not_acceptsEmptyParts_path :
    ¬AcceptsEmptyParts (ascii "http://h/p")
      ∧ ∀ m ∈ emptyParts, (AcceptedWith (ascii "http://h/p") m ↔ m = ascii "?#") := by
  have hmarks : (ascii "http://h/p").all (fun c => endsPath c = false) = true := by decide
  rw [List.all_eq_true] at hmarks
  exact not_acceptsEmptyParts (by decide) (fun c hc => of_decide_eq_true (hmarks c hc)) (by decide)

/-- `/p` is accepted, and neither `/p?` nor `/p#` is. -/
theorem emptyParts_rejected :
    (uriParseCstr (ascii "/p")).1 = 0 ∧ (uriParseCstr (ascii "/p?")).1 = 1
      ∧ (uriParseCstr (ascii "/p#")).1 = 1 ∧ ¬AcceptsEmptyParts (ascii "/p") := by
  have hquery : (uriParseCstr (ascii "/p?")).1 = 1 := by decide
  refine ⟨by decide, hquery, by decide, ?_⟩
  intro hall
  have hcode : (uriParseCstr (ascii "/p?")).1 = 0 := (hall (ascii "?") (by decide)).1
  rw [hquery] at hcode
  cases hcode

end CWebServer.Uri
