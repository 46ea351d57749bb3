import CWebServer.Uri.Parse

/-!
# Uri — Scheme

Which schemes the parser finds. RFC 3986 has digits in a scheme; the loop of
the parser stops at one, and then there is no scheme at all.
-/

namespace CWebServer.Uri

open CWebServer.Strings CWebServer.Lib

/-- Letters, digits, `+`, `-` and `.`. -/
def isRfcSchemeChar (c : UInt8) : Bool :=
  isSchemeChar c || isdigit c

/-- A letter, and any number of these behind it. -/
def isRfcScheme : Bytes → Bool
  | [] => false
  | c :: s => isLetter c && s.all isRfcSchemeChar

/-- What ends a scheme in front of `rest`. -/
def schemeEnd (rest : Bytes) : Bytes :=
  if ascii "//" <+: rest then ascii "://" else ascii ":"

/-- The scheme of an input by RFC 3986. -/
structure SchemeRule (x : Bytes) : Prop where
  hasScheme : (uriParseCstr x).2.hasScheme = true
    ↔ ∃ t rest, isRfcScheme t = true ∧ x = t ++ 58 :: rest
  scheme : ∀ t rest, isRfcScheme t = true → x = t ++ 58 :: rest →
    (uriParseCstr x).2.scheme = stringTolower (t ++ schemeEnd rest)
  /-- The authority is looked for from the first byte on. -/
  restart : (uriParseCstr x).2.hasScheme = false →
    parseScheme (x ++ [0]) x.length uriInit = (0, uriInit)

/-- The input starts with a scheme that has a digit. -/
def DigitInScheme (x : Bytes) : Prop :=
  ∃ t rest, isRfcScheme t = true ∧ x = t ++ 58 :: rest ∧ ∃ d ∈ t, isdigit d = true

/-! ## Schemes in the input -/

theorem isRfcScheme_colon {t : Bytes} (h : isRfcScheme t = true) : 58 ∉ t := by
  cases t with
  | nil => cases h
  | cons c s =>
      rw [isRfcScheme, Bool.and_eq_true, List.all_eq_true] at h
      intro hmem
      rcases List.mem_cons.mp hmem with rfl | hmem
      · exact absurd h.1 (by decide)
      · exact absurd (h.2 58 hmem) (by decide)

/-- The text in front of the `:` is known from the input. -/
theorem scheme_unique {t t' rest rest' : Bytes} (ht : isRfcScheme t = true)
    (ht' : isRfcScheme t' = true) (h : t ++ 58 :: rest = t' ++ 58 :: rest') :
    t = t' ∧ rest = rest' := by
  have hsplit := splitFirst_append (isRfcScheme_colon ht) rest
  have hsplit' := splitFirst_append (isRfcScheme_colon ht') rest'
  rw [h, hsplit', Option.some.injEq, Prod.mk.injEq] at hsplit
  exact ⟨hsplit.1.symm, hsplit.2.symm⟩

/-- Without a digit the parser finds it. -/
theorem schemeText_of_scheme {t : Bytes} (h : isRfcScheme t = true)
    (hdigit : ∀ d ∈ t, isdigit d = false) (rest : Bytes) :
    schemeText (t ++ 58 :: rest) = t ++ schemeEnd rest := by
  cases t with
  | nil => cases h
  | cons c s =>
      rw [isRfcScheme, Bool.and_eq_true, List.all_eq_true] at h
      obtain ⟨hletter, hall⟩ := h
      have hchars : ∀ d ∈ s, isSchemeChar d = true := by
        intro d hd
        have hd' := hall d hd
        simpa [isRfcSchemeChar, hdigit d (List.mem_cons_of_mem c hd)] using hd'
      exact schemeText_eq hletter hchars rest

/-- What the parser finds is a scheme without a digit. -/
theorem exists_of_schemeText {x : Bytes} (h : schemeText x ≠ []) :
    ∃ t rest, isRfcScheme t = true ∧ (∀ d ∈ t, isdigit d = false)
      ∧ x = t ++ 58 :: rest := by
  have hletters : ∀ c, isLetter c = true → isdigit c = false :=
    forall_byte (p := fun c => isLetter c = true → isdigit c = false) (by decide)
  have hchars : ∀ c, isSchemeChar c = true → isdigit c = false :=
    forall_byte (p := fun c => isSchemeChar c = true → isdigit c = false) (by decide)
  cases x with
  | nil => exact absurd rfl h
  | cons c s =>
      rw [schemeText] at h
      split at h
      · rename_i hscheme
        obtain ⟨hletter, hdelimiter⟩ := hscheme
        have hall : ∀ d ∈ s.takeWhile isSchemeChar, isSchemeChar d = true :=
          fun d hd => List.mem_takeWhile_imp hd
        have hsplit := List.takeWhile_append_dropWhile (p := isSchemeChar) (l := s)
        generalize s.takeWhile isSchemeChar = w at hall hsplit
        cases hrest : s.dropWhile isSchemeChar with
        | nil =>
            rw [hrest] at hdelimiter
            exact absurd rfl hdelimiter
        | cons d rest =>
            obtain rfl : d = 58 := by
              by_contra hd
              rw [hrest, schemeDelimiter_cons hd] at hdelimiter
              exact hdelimiter rfl
            refine ⟨c :: w, rest, ?_, ?_, ?_⟩
            · rw [isRfcScheme, Bool.and_eq_true, List.all_eq_true]
              exact ⟨hletter, fun d hd => by simp [isRfcSchemeChar, hall d hd]⟩
            · intro d hd
              rcases List.mem_cons.mp hd with rfl | hd
              · exact hletters _ hletter
              · exact hchars d (hall d hd)
            · rw [hrest] at hsplit
              rw [← hsplit]
              rfl
      · exact absurd rfl h

/-! ## The rule -/

section

variable {x : Bytes} (hzero : 0 ∉ x)
include hzero

theorem uriParseCstr_scheme :
    (uriParseCstr x).2.hasScheme = decide (schemeText x ≠ [])
      ∧ (uriParseCstr x).2.scheme = stringTolower (schemeText x) := by
  have hfront := uriParseCstr_front hzero
  -- so that no field is looked for in the code of the parser
  generalize (uriParseCstr x).2 = u at hfront ⊢
  exact ⟨congrArg Uri.hasScheme hfront, congrArg Uri.scheme hfront⟩

/-- **The scheme is that of RFC 3986** exactly if it has no digit. -/
theorem schemeRule_iff : SchemeRule x ↔ ¬DigitInScheme x := by
  obtain ⟨hhas, hscheme⟩ := uriParseCstr_scheme hzero
  have hfound : (uriParseCstr x).2.hasScheme = true ↔ schemeText x ≠ [] := by
    rw [hhas, decide_eq_true_iff]
  constructor
  · rintro hrule ⟨t, rest, ht, hx, d, hd, hdigit⟩
    have hne := hfound.mp (hrule.hasScheme.mpr ⟨t, rest, ht, hx⟩)
    obtain ⟨t', rest', ht', hno, hx'⟩ := exists_of_schemeText hne
    obtain ⟨rfl, -⟩ := scheme_unique ht ht' (hx.symm.trans hx')
    rw [hno d hd] at hdigit
    cases hdigit
  · intro hdigit
    have hno : ∀ t rest, isRfcScheme t = true → x = t ++ 58 :: rest →
        ∀ d ∈ t, isdigit d = false := by
      intro t rest ht hx d hd
      cases hd' : isdigit d with
      | false => rfl
      | true => exact absurd ⟨t, rest, ht, hx, d, hd, hd'⟩ hdigit
    have htext : ∀ t rest, isRfcScheme t = true → x = t ++ 58 :: rest →
        schemeText x = t ++ schemeEnd rest := by
      intro t rest ht hx
      rw [hx]
      exact schemeText_of_scheme ht (hno t rest ht hx) rest
    refine ⟨?_, ?_, ?_⟩
    · rw [hfound]
      constructor
      · intro hne
        obtain ⟨t, rest, ht, -, hx⟩ := exists_of_schemeText hne
        exact ⟨t, rest, ht, hx⟩
      · rintro ⟨t, rest, ht, hx⟩
        rw [htext t rest ht hx]
        cases t with
        | nil => cases ht
        | cons c s => exact List.cons_ne_nil _ _
    · intro t rest ht hx
      rw [hscheme, htext t rest ht hx]
    · intro hnone
      have hnil : schemeText x = [] := by
        by_contra hne
        rw [hfound.mpr hne] at hnone
        cases hnone
      rw [parseScheme_eq, hnil]
      rfl

end

theorem schemeRule_iff_http :
    SchemeRule (ascii "http://h/p") ↔ ¬DigitInScheme (ascii "http://h/p") :=
  schemeRule_iff (by decide)

/-- Of `h2://x` the scheme is not found, and `h2:` becomes the authority. -/
theorem not_schemeRule :
    (uriParseCstr (ascii "h2://x")).2.hasScheme = false
      ∧ (uriParseCstr (ascii "h2://x")).2.authority = ascii "h2:"
      ∧ (uriParseCstr (ascii "h2://x")).2.path = ascii "//x"
      ∧ ¬SchemeRule (ascii "h2://x") := by
  have hnone : (uriParseCstr (ascii "h2://x")).2.hasScheme = false := by decide
  refine ⟨hnone, by decide, by decide, ?_⟩
  intro hrule
  have hscheme := hrule.hasScheme.mpr ⟨ascii "h2", ascii "//x", by decide, by decide⟩
  rw [hnone] at hscheme
  cases hscheme

end CWebServer.Uri
