import CWebServer.Http.Serialize
import Mathlib.Algebra.GroupWithZero.Nat

/-!
# Http — The Log Text

`http_headers_to_string` against the text it is meant to append: every name
and every value as it is. The values are printed as formats, so a `%%` in
them loses a byte and another `%` has no defined effect.
-/

namespace CWebServer.Http

open CWebServer.Strings

/-- The line for one field. -/
def verbatimLine (indent : Bytes) (f : Bytes × List Bytes) : Bytes :=
  indent ++ indent ++ f.1 ++ ascii ": " ++ (f.2.intersperse (ascii ",")).flatten ++ ascii "\n"

/-- The text with every name and every value in it as it is. -/
def verbatimText (indent : Bytes) (fs : Fields) : Bytes :=
  indent ++ ascii "headers, len=" ++ decimal fs.length ++ ascii "\n"
    ++ fs.flatMap (verbatimLine indent)

/-! ## Formats -/

/-- Each pair of `%` is printed as one byte. -/
theorem vsnprintfNoArgs_length {v w : Bytes} (h0 : 0 ∉ v) (h : vsnprintfNoArgs v = some w) :
    2 * w.length + v.count 37 = 2 * v.length := by
  fun_induction vsnprintfNoArgs v generalizing w with
  | case1 f ih =>
      obtain ⟨w', hw, rfl⟩ := Option.map_eq_some_iff.mp h
      have hrest := ih (by simp_all) hw
      simp only [List.length_cons, List.count_cons_self]
      omega
  | case2 f hnot => cases h
  | case3 f => simp at h0
  | case4 c f hnot h37 h0' ih =>
      obtain ⟨w', hw, rfl⟩ := Option.map_eq_some_iff.mp h
      have hrest := ih (by simp_all) hw
      rw [List.count_cons_of_ne fun he => h37 he]
      simp only [List.length_cons]
      omega
  | case5 =>
      cases h
      rfl

theorem vsnprintfNoArgs_eq_self {v : Bytes} (h0 : 0 ∉ v) (h37 : 37 ∉ v) :
    vsnprintfNoArgs v = some v := by
  induction v with
  | nil => rfl
  | cons c v ih =>
      rw [List.mem_cons, not_or] at h0 h37
      rw [vsnprintfNoArgs_char (Ne.symm h37.1) (Ne.symm h0.1), ih h0.2 h37.2]
      rfl

/-! ## Lengths -/

section

variable {α : Type} {g : α → Option Bytes} {l : List α}

/-- The lengths of texts that fall short of a measure, and of all of them. -/
theorem mapM_length {ts : List Bytes} (short measure : α → Nat)
    (hg : ∀ a ∈ l, ∀ t, g a = some t → 2 * t.length + short a = 2 * measure a)
    (h : l.mapM g = some ts) :
    2 * ts.flatten.length + (l.map short).sum = 2 * (l.map measure).sum
      ∧ ts.length = l.length := by
  induction l generalizing ts with
  | nil =>
      cases h
      exact ⟨rfl, rfl⟩
  | cons a l ih =>
      rw [List.mapM_cons] at h
      obtain ⟨t, ht, h⟩ := Option.bind_eq_some_iff.mp h
      obtain ⟨us, hus, h⟩ := Option.bind_eq_some_iff.mp h
      cases h
      have hfirst := hg a List.mem_cons_self t ht
      obtain ⟨hrest, hlength⟩ := ih (fun b hb => hg b (List.mem_cons_of_mem a hb)) hus
      simp only [List.flatten_cons, List.length_append, List.map_cons, List.sum_cons,
        List.length_cons]
      omega

theorem mapM_eq_map {k : α → Bytes} (hg : ∀ a ∈ l, g a = some (k a)) :
    l.mapM g = some (l.map k) := by
  induction l with
  | nil => rfl
  | cons a l ih =>
      rw [List.mapM_cons, hg a List.mem_cons_self,
        ih fun b hb => hg b (List.mem_cons_of_mem a hb)]
      rfl

end

theorem length_flatten_intersperse (sep : Bytes) (l : List Bytes) :
    (l.intersperse sep).flatten.length = l.flatten.length + (l.length - 1) * sep.length := by
  induction l with
  | nil => simp
  | cons a l ih =>
      cases l with
      | nil => simp
      | cons b l =>
          rw [List.intersperse_cons_cons]
          simp only [List.flatten_cons, List.length_append, List.length_cons] at ih ⊢
          have hsep : (l.length + 1 + 1 - 1) * sep.length
              = sep.length + (l.length + 1 - 1) * sep.length := by
            rw [Nat.add_sub_cancel, Nat.add_sub_cancel, Nat.succ_mul, Nat.add_comm]
          omega

/-! ## The text -/

section

variable {fs : Fields} {indent : Bytes}

/-- How often `%` stands in the values of a field. -/
def percents (f : Bytes × List Bytes) : Nat := (f.2.map (·.count 37)).sum

/-- The texts have no 0 in them. -/
def NoZero (fs : Fields) : Prop := ∀ f ∈ fs, 0 ∉ f.1 ∧ ∀ v ∈ f.2, 0 ∉ v

theorem fieldToString_length {f : Bytes × List Bytes} {t : Bytes}
    (hf : 0 ∉ f.1 ∧ ∀ v ∈ f.2, 0 ∉ v) (h : fieldToString indent f = some t) :
    2 * t.length + percents f = 2 * (verbatimLine indent f).length := by
  obtain ⟨values, hvalues, rfl⟩ := Option.map_eq_some_iff.mp h
  obtain ⟨hsum, hlength⟩ := mapM_length (·.count 37) List.length
    (fun v hv _ hw => vsnprintfNoArgs_length (hf.2 v hv) hw) hvalues
  have hjoined := length_flatten_intersperse (ascii ",") values
  have hjoined' := length_flatten_intersperse (ascii ",") f.2
  have hshort : 2 * values.flatten.length + percents f = 2 * f.2.flatten.length := by
    rw [List.length_flatten (L := f.2)]
    exact hsum
  have hcomma : (ascii ",").length = 1 := rfl
  rw [hcomma, Nat.mul_one] at hjoined hjoined'
  simp only [verbatimLine, List.length_append, cstr_eq_self hf.1]
  omega

theorem fieldToString_verbatim {f : Bytes × List Bytes} (hf : 0 ∉ f.1 ∧ ∀ v ∈ f.2, 0 ∉ v)
    (hplain : ∀ v ∈ f.2, 37 ∉ v) : fieldToString indent f = some (verbatimLine indent f) := by
  have hvalues : f.2.mapM vsnprintfNoArgs = some f.2 := by
    have := mapM_eq_map (k := id) fun v hv => vsnprintfNoArgs_eq_self (hf.2 v hv) (hplain v hv)
    rwa [List.map_id] at this
  rw [fieldToString, hvalues, Option.map_some, cstr_eq_self hf.1]
  rfl

/-- **The log text of a header collection** has every name and every value in
it as it is exactly if no value contains a `%`. -/
theorem httpHeadersToString_verbatim_iff (hs : HttpHeaders) (indent : Bytes)
    (hzero : NoZero hs.toList) :
    httpHeadersToString hs indent = some (verbatimText indent hs.toList)
      ↔ ∀ f ∈ hs.toList, ∀ v ∈ f.2, 37 ∉ v := by
  rw [httpHeadersToString_eq]
  constructor
  · intro h
    obtain ⟨texts, htexts, heq⟩ := Option.map_eq_some_iff.mp h
    obtain ⟨hsum, -⟩ := mapM_length percents
      (fun f => (verbatimLine indent f).length)
      (fun f hf _ ht => fieldToString_length (hzero f hf) ht) htexts
    have hflatten : texts.flatten = hs.toList.flatMap (verbatimLine indent) :=
      List.append_cancel_left heq
    -- nothing is missing from the text, so there are no percents
    have hnone : (hs.toList.map percents).sum = 0 := by
      rw [hflatten, List.length_flatMap] at hsum
      omega
    intro f hf v hv
    have hfield := List.sum_eq_zero_iff_forall_eq_nat.mp hnone _ (List.mem_map_of_mem hf)
    have hvalue := List.sum_eq_zero_iff_forall_eq_nat.mp hfield _ (List.mem_map_of_mem hv)
    exact List.count_eq_zero.mp hvalue
  · intro hplain
    have htexts : hs.toList.mapM (fieldToString indent)
        = some (hs.toList.map (verbatimLine indent)) :=
      mapM_eq_map fun f hf => fieldToString_verbatim (hzero f hf) (hplain f hf)
    rw [htexts, Option.map_some, verbatimText, List.flatMap]

end

/-- A collection with a header that has one value. -/
def oneHeader (name : Bytes) (value : Bytes) : HttpHeaders :=
  (HttpHeaders.init.create name).modify 0 (·.appendValue value)

theorem httpHeadersToString_verbatim_accept :
    httpHeadersToString (oneHeader (ascii "Accept") (ascii "x")) (ascii "    ")
        = some (verbatimText (ascii "    ") (oneHeader (ascii "Accept") (ascii "x")).toList)
      ↔ ∀ f ∈ (oneHeader (ascii "Accept") (ascii "x")).toList, ∀ v ∈ f.2, 37 ∉ v := by
  apply httpHeadersToString_verbatim_iff
  intro f hf
  obtain rfl : f = (ascii "Accept", [ascii "x"]) := List.mem_singleton.mp hf
  exact ⟨by decide, by simp [ascii]⟩

/-- Of `50%%` the text has `50%`, and `50%d` prints an argument that is not
there. -/
theorem not_httpHeadersToString_verbatim :
    NoZero (oneHeader (ascii "A") (ascii "50%%")).toList
      ∧ httpHeadersToString (oneHeader (ascii "A") (ascii "50%%")) []
        = some (ascii "headers, len=1\nA: 50%\n")
      ∧ verbatimText [] (oneHeader (ascii "A") (ascii "50%%")).toList
        = ascii "headers, len=1\nA: 50%%\n"
      ∧ NoZero (oneHeader (ascii "A") (ascii "50%d")).toList
      ∧ httpHeadersToString (oneHeader (ascii "A") (ascii "50%d")) [] = none := by
  have hzero : ∀ value : Bytes, 0 ∉ value → NoZero (oneHeader (ascii "A") value).toList := by
    intro value hvalue f hf
    obtain rfl : f = (ascii "A", [value]) := List.mem_singleton.mp hf
    exact ⟨by simp [ascii], by simpa using hvalue⟩
  exact ⟨hzero _ (by decide), rfl, rfl, hzero _ (by decide), rfl⟩

end CWebServer.Http
