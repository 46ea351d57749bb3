import CWebServer.Http.NonInterference
import CWebServer.Http.RoundTrip

/-!
# Http — The Length of a Response

The `Content-Length` that `http_response_write` sends. Whatever the handler
had set before, there is one such header with one value; but a value that
`sscanf` reads as the length of the body is left as it is.
-/

namespace CWebServer.Http

open CWebServer.Strings CWebServer.Lib

/-- A text that needs no care on a header line or as a format. -/
def CleanText (s : Bytes) : Prop := ∀ c ∈ s, c ≠ 13 ∧ c ≠ 10 ∧ c ≠ 0 ∧ c ≠ 37

instance (s : Bytes) : Decidable (CleanText s) :=
  List.decidableBAll (fun c => c ≠ 13 ∧ c ≠ 10 ∧ c ≠ 0 ∧ c ≠ 37) s

/-- The collections that a handler's calls lead to. `setValues` is a change to
the values of one header through its pointer. -/
inductive ReachableHeaders : HttpHeaders → Prop
  | init : ReachableHeaders .init
  | getCstr {hs : HttpHeaders} (name : Bytes) (createIfMissing : Bool) :
      ReachableHeaders hs → ReachableHeaders (hs.getCstr name createIfMissing).2
  | getCstrLen {hs : HttpHeaders} (name : Bytes) (createIfMissing : Bool) :
      ReachableHeaders hs → ReachableHeaders (hs.getCstrLen name createIfMissing).2
  | setValues {hs : HttpHeaders} (slot : Nat) {f : HttpHeader → HttpHeader} :
      (∀ h, (f h).name = h.name) → ReachableHeaders hs → ReachableHeaders (hs.modify slot f)
  | clear {hs : HttpHeaders} : ReachableHeaders hs → ReachableHeaders hs.clear

/-- A response as a handler leaves it: its headers come from calls, and their
texts are clean. -/
structure Handled (r : HttpResponse) : Prop where
  reachable : ReachableHeaders r.headers
  clean : ∀ f ∈ r.headers.toList, CleanText f.1 ∧ ∀ v ∈ f.2, CleanText v

/-- The destination accepts all bytes. -/
def TakesAll (d : Destination) : Prop := ∀ i b, d.accepts i b = some b.length

/-- The bytes accepted are those of the response `r'` that the call leaves,
and of its headers exactly one is a `Content-Length`, with the length of the
body as its only value. -/
structure DeclaresLength (r r' : HttpResponse) (accepted : Bytes) : Prop where
  accepted : accepted
    = statusLine r ++ headerBlock r'.headers.toList ++ ascii "\r\n" ++ r.bodyBuffer
  single : ∃ name,
    r'.headers.toList.filter (fun f => headerKey f.1 = headerKey (ascii "Content-Length"))
      = [(name, [decimal r.bodyBuffer.length])]

/-- So is every response that is reported as written. With a text that
`printf` cannot format the writes come to no end. -/
def LengthRule (r : HttpResponse) (d : Destination) : Prop :=
  ∀ r' accepted, r.fixed.Formattable → httpResponseWrite r d = .returned 0 r' accepted →
    DeclaresLength r r' accepted

/-- The only value of `Content-Length` is read as the length of the body, but
is not how that is printed. -/
def Misread (r : HttpResponse) : Prop :=
  ∃ v, lookup (ascii "Content-Length") r.headers.toList = some [v]
    ∧ sscanfZu v = some r.bodyBuffer.length ∧ v ≠ decimal r.bodyBuffer.length

/-! ## The header of that name -/

section

variable {name : Bytes} {g : List Bytes → List Bytes}

/-- Where no two fields have the name, the changed list has one that does. -/
theorem filter_updateField (hself : sameName name name = true) {fs : Fields}
    (h : fs.Pairwise fun a b => ¬(sameName a.1 name = true ∧ sameName b.1 name = true)) :
    ∃ spelled, (updateField name g fs).filter (fun f => sameName f.1 name)
      = [(spelled, g ((lookup name fs).getD []))] := by
  induction fs with
  | nil => exact ⟨name, by rw [updateField, List.filter_cons_of_pos (by exact hself)]; rfl⟩
  | cons f fs ih =>
      obtain ⟨hfirst, hrest⟩ := List.pairwise_cons.mp h
      rw [updateField, lookup]
      by_cases hsame : sameName f.1 name = true
      · have hnone : fs.filter (fun f => sameName f.1 name) = [] := by
          rw [List.filter_eq_nil_iff]
          exact fun e he hname => hfirst e he ⟨hsame, hname⟩
        refine ⟨f.1, ?_⟩
        rw [if_pos hsame, List.filter_cons_of_pos (by exact hsame), hnone,
          List.find?_cons_of_pos (by exact hsame)]
        rfl
      · rw [if_neg hsame, List.filter_cons_of_neg (by exact hsame),
          List.find?_cons_of_neg (by exact hsame)]
        exact ih hrest

end

/-- The names of the changed list are the old ones and the one looked for. -/
theorem mem_updateField {name : Bytes} {g : List Bytes → List Bytes} {fs : Fields}
    {f : Bytes × List Bytes} (h : f ∈ updateField name g fs) :
    f ∈ fs ∨ ((∃ e ∈ fs, f = (e.1, g e.2)) ∨ f = (name, g [])) := by
  induction fs with
  | nil => exact .inr (.inr (List.mem_singleton.mp h))
  | cons e fs ih =>
      rw [updateField] at h
      split at h
      · rcases List.mem_cons.mp h with rfl | h
        · exact .inr (.inl ⟨e, List.mem_cons_self, rfl⟩)
        · exact .inl (List.mem_cons_of_mem e h)
      · rcases List.mem_cons.mp h with rfl | h
        · exact .inl List.mem_cons_self
        · rcases ih h with h | ⟨e', he', heq⟩ | heq
          · exact .inl (List.mem_cons_of_mem e h)
          · exact .inr (.inl ⟨e', List.mem_cons_of_mem e he', heq⟩)
          · exact .inr (.inr heq)

theorem mem_names_updateField {name n : Bytes} {g : List Bytes → List Bytes} {fs : Fields}
    (h : n ∈ fs.map Prod.fst) : n ∈ (updateField name g fs).map Prod.fst := by
  induction fs with
  | nil => cases h
  | cons f fs ih =>
      rw [updateField]
      split
      · exact h
      · rcases List.mem_cons.mp h with rfl | h
        · exact List.mem_cons_self
        · exact List.mem_cons_of_mem _ (ih h)

theorem fixValues_eq_decimal_iff (n : Nat) (vs : List Bytes) :
    fixValues n vs = [decimal n]
      ↔ ¬∃ v, vs = [v] ∧ sscanfZu v = some n ∧ v ≠ decimal n := by
  rcases fixValues_eq n vs with ⟨heq, v, rfl, hv⟩ | heq
  · rw [heq]
    simp [hv]
  · refine iff_of_true heq ?_
    rintro ⟨v, rfl, hv, hne⟩
    rw [fixValues, if_pos hv] at heq
    exact hne (List.cons.inj heq).1

section

variable {hs : HttpHeaders}

theorem distinctNames_getCstrLen (h : DistinctNames (hs.toList.map Prod.fst)) (name : Bytes)
    (createIfMissing : Bool) :
    DistinctNames ((hs.getCstrLen name createIfMissing).2.toList.map Prod.fst) := by
  unfold HttpHeaders.getCstrLen
  cases hfind : hs.find name with
  | some i => exact h
  | none =>
      cases createIfMissing with
      | false => exact h
      | true =>
          obtain ⟨header, hlive, hname, -⟩ := live_create hs name
          have hnames : (hs.create name).toList.map Prod.fst
              = hs.toList.map Prod.fst ++ [name] := by
            simp [HttpHeaders.toList, hlive, hname]
          show DistinctNames ((hs.create name).toList.map Prod.fst)
          rw [hnames, DistinctNames, List.pairwise_append]
          refine ⟨h, List.pairwise_singleton _ _, ?_⟩
          intro a ha b hb
          obtain rfl := List.mem_singleton.mp hb
          obtain ⟨header', hheader', rfl⟩ : ∃ header' ∈ hs.live, header'.name = a := by
            simpa [HttpHeaders.toList] using ha
          exact List.findIdx?_eq_none_iff.mp hfind header' hheader'

/-- No two names of such a collection compare equal. -/
theorem ReachableHeaders.distinctNames (h : ReachableHeaders hs) :
    DistinctNames (hs.toList.map Prod.fst) := by
  induction h with
  | init => exact .nil
  | getCstr name createIfMissing _ ih => exact distinctNames_getCstrLen ih _ createIfMissing
  | getCstrLen name createIfMissing _ ih => exact distinctNames_getCstrLen ih name createIfMissing
  | @setValues hs slot f hname _ ih =>
      have hnames : (hs.modify slot f).toList.map Prod.fst = hs.toList.map Prod.fst := by
        simp only [HttpHeaders.toList, live_modify, List.map_map]
        exact map_modify_eq hname _ _
      rwa [hnames]
  | clear => exact .nil

variable {r : HttpResponse}

/-- A name is formatted with what stands behind it. -/
theorem Handled.name_lt (h : Handled r) (hformat : r.fixed.Formattable) {f : Bytes × List Bytes}
    (hf : f ∈ r.headers.toList) : f.1.length < 2 ^ 31 := by
  have hmem : f.1 ∈ (fixFields r.bodyBuffer.length r.headers.toList).map Prod.fst :=
    mem_names_updateField (List.mem_map_of_mem hf)
  obtain ⟨e, he, hname⟩ := List.mem_map.mp hmem
  have hzero : 0 ∉ e.1 := fun hz => ((h.clean f hf).1 0 (hname ▸ hz)).2.2.1 rfl
  have hwritten : cstr e.1 ++ ascii ": " ∈ statusLine r
      :: ((shown (fixFields r.bodyBuffer.length r.headers.toList)).flatMap fieldWrites
        ++ [ascii "\r\n"]) := by
    refine List.mem_cons_of_mem _ (List.mem_append_left _ (List.mem_flatMap.mpr ?_))
    refine ⟨(cstr e.1, e.2.map cstr), List.mem_map_of_mem he, ?_⟩
    rw [fieldWrites, cstr_cstr]
    exact List.mem_cons_self
  have hlt := (formattable_fixed r).mp hformat _ hwritten
  rw [List.length_append, cstr_eq_self hzero, hname] at hlt
  omega

/-- So the comparison finds the fields of that name. -/
theorem Handled.sameName_iff (h : Handled r) (hformat : r.fixed.Formattable)
    {f : Bytes × List Bytes} (hf : f ∈ r.headers.toList) :
    sameName f.1 (ascii "Content-Length") = true
      ↔ headerKey f.1 = headerKey (ascii "Content-Length") :=
  Http.sameName_iff (h.name_lt hformat hf) (by decide)

/-- **The fixed headers** have one `Content-Length` then. -/
theorem Handled.filter_fixed (h : Handled r) (hformat : r.fixed.Formattable) :
    ∃ name, (fixFields r.bodyBuffer.length r.headers.toList).filter
        (fun f => headerKey f.1 = headerKey (ascii "Content-Length"))
      = [(name, fixValues r.bodyBuffer.length
          ((lookup (ascii "Content-Length") r.headers.toList).getD []))] := by
  have hpairwise : r.headers.toList.Pairwise fun a b =>
      ¬(sameName a.1 (ascii "Content-Length") = true
        ∧ sameName b.1 (ascii "Content-Length") = true) := by
    have hdistinct := List.pairwise_map.mp h.reachable.distinctNames
    refine hdistinct.imp_of_mem ?_
    rintro a b ha hb hne ⟨hsame, hsame'⟩
    rw [h.sameName_iff hformat ha] at hsame
    rw [h.sameName_iff hformat hb] at hsame'
    rw [sameName_of_headerKey (hsame.trans hsame'.symm)] at hne
    cases hne
  have hkey : ∀ f ∈ fixFields r.bodyBuffer.length r.headers.toList,
      decide (headerKey f.1 = headerKey (ascii "Content-Length"))
        = sameName f.1 (ascii "Content-Length") := by
    intro f hf
    rw [Bool.eq_iff_iff, decide_eq_true_iff]
    rcases mem_updateField hf with hf | ⟨e, he, rfl⟩ | rfl
    · exact (h.sameName_iff hformat hf).symm
    · exact (h.sameName_iff hformat he).symm
    · exact iff_of_true rfl (sameName_of_headerKey rfl)
  rw [List.filter_congr hkey]
  exact filter_updateField (by decide) hpairwise

/-- Clean texts are printed as they are. -/
theorem vsnprintfNoArgs_isSome {v : Bytes} (h : 37 ∉ v) : (vsnprintfNoArgs v).isSome = true := by
  induction v with
  | nil => rfl
  | cons c v ih =>
      rw [List.mem_cons, not_or] at h
      by_cases hzero : c = 0
      · rw [hzero, vsnprintfNoArgs]
        rfl
      · rw [vsnprintfNoArgs_char (Ne.symm h.1) hzero, Option.isSome_map]
        exact ih h.2

theorem percent_not_mem_decimal (n : Nat) : 37 ∉ decimal n :=
  fun hmem => absurd (isdigit_decimal hmem) (by decide)

theorem Handled.plainFormats (h : Handled r) :
    PlainFormats (fixFields r.bodyBuffer.length r.headers.toList) := by
  have hvalues : ∀ vs, (∀ v ∈ vs, 37 ∉ v) →
    ∀ v ∈ fixValues r.bodyBuffer.length vs, 37 ∉ v := by
    intro vs hvs
    rcases fixValues_eq r.bodyBuffer.length vs with ⟨heq, -⟩ | heq
    · rwa [heq]
    · rw [heq]
      intro v hv
      rw [List.mem_singleton.mp hv]
      exact percent_not_mem_decimal _
  have hclean : ∀ f ∈ r.headers.toList, ∀ v ∈ f.2, 37 ∉ v :=
    fun f hf v hv hmem => ((h.clean f hf).2 v hv 37 hmem).2.2.2 rfl
  intro f hf v hv
  apply vsnprintfNoArgs_isSome
  rcases mem_updateField hf with hf | ⟨e, he, rfl⟩ | rfl
  · exact hclean f hf v hv
  · exact hvalues e.2 (hclean e he) v hv
  · exact hvalues [] (by simp) v hv

/-! ## The rule -/

variable {d : Destination}

/-- A call changes the headers and the scratch string only. -/
theorem httpResponseWrite_left {r' : HttpResponse} {code : Nat} {accepted : Bytes}
    (h : httpResponseWrite r d = .returned code r' accepted) :
    ∃ text, r' = { r.fixed with scratch := text } := by
  have hfixed : { r with headers := r.fixHeaders } = r.fixed := rfl
  rw [httpResponseWrite, hfixed] at h
  cases htext : responseToString r.fixed with
  | none =>
      rw [htext] at h
      cases h
  | some text =>
      rw [htext] at h
      obtain ⟨-, hresponse, -⟩ := WriteOutcome.returned.inj h
      exact ⟨text, hresponse.symm⟩

/-- What a call leaves and what has been accepted, if the destination accepts
all. -/
theorem httpResponseWrite_takesAll (hd : TakesAll d) {r' : HttpResponse} {accepted : Bytes}
    (h : httpResponseWrite r d = .returned 0 r' accepted) :
    r'.headers.toList = fixFields r.bodyBuffer.length r.headers.toList
      ∧ accepted = serialization r ∧ NoFailure d 0 r.fixed.writes := by
  obtain ⟨-, hwrites⟩ := httpResponseWrite_returned.mp ⟨r', h⟩
  have hfail : NoFailure d 0 r.fixed.writes := by
    rw [← writeAll_code, hwrites]
  have hall := (writeAll_complete hfail).mpr fun j b _ => hd (0 + j) b
  rw [hwrites, flatten_writes] at hall
  obtain ⟨text, rfl⟩ := httpResponseWrite_left h
  exact ⟨toList_fixHeaders r, hall, hfail⟩

/-- When the fixed headers have the one `Content-Length` that is declared. -/
theorem Handled.single_iff (h : Handled r) (hformat : r.fixed.Formattable) :
    (∃ name, (fixFields r.bodyBuffer.length r.headers.toList).filter
        (fun f => headerKey f.1 = headerKey (ascii "Content-Length"))
      = [(name, [decimal r.bodyBuffer.length])]) ↔ ¬Misread r := by
  obtain ⟨name, hfilter⟩ := h.filter_fixed hformat
  rw [hfilter]
  constructor
  · rintro ⟨name', hsingle⟩ ⟨v, hlookup, hv, hne⟩
    rw [hlookup, Option.getD_some, fixValues, if_pos hv] at hsingle
    have hvalues := (Prod.ext_iff.mp (List.cons.inj hsingle).1).2
    exact hne (List.cons.inj hvalues).1
  · intro hnot
    refine ⟨name, ?_⟩
    rw [(fixValues_eq_decimal_iff _ _).mpr]
    rintro ⟨v, hvalues, hv, hne⟩
    cases hlookup : lookup (ascii "Content-Length") r.headers.toList with
    | none =>
        rw [hlookup] at hvalues
        cases hvalues
    | some values =>
        rw [hlookup, Option.getD_some] at hvalues
        exact hnot ⟨v, by rw [hlookup, hvalues], hv, hne⟩

/-- **The declared length** is the printed length of the body exactly if the
handler has set no other value that is read as it, or the call fails or comes
to no end because of a length that no `int` can tell. -/
theorem lengthRule_iff (h : Handled r) (hd : TakesAll d) :
    LengthRule r d
      ↔ ¬(Misread r ∧ r.fixed.Formattable ∧ NoFailure d 0 r.fixed.writes) := by
  constructor
  · rintro hrule ⟨hwrong, hformat, hfail⟩
    have hsome := (responseToString_isSome r).mpr h.plainFormats
    have hwritten : writeAll d 0 r.fixed.writes = (0, (writeAll d 0 r.fixed.writes).2) :=
      Prod.ext ((writeAll_code 0 _).mpr hfail) rfl
    obtain ⟨r', hcall⟩ := httpResponseWrite_returned.mpr ⟨hsome, hwritten⟩
    have hsingle := (hrule r' _ hformat hcall).single
    rw [(httpResponseWrite_takesAll hd hcall).1] at hsingle
    exact (h.single_iff hformat).mp hsingle hwrong
  · intro hnot r' accepted hformat hcall
    obtain ⟨hfields, haccepted, hfail⟩ := httpResponseWrite_takesAll hd hcall
    refine ⟨by rw [hfields, haccepted, serialization], ?_⟩
    rw [hfields]
    exact (h.single_iff hformat).mpr fun hwrong =>
      hnot ⟨hwrong, hformat, hfail⟩

end

/-! ## Two responses -/

/-- A response with this `Content-Length` and this body. -/
def lengthResponse (value body : Bytes) : HttpResponse :=
  { HttpResponse.init.writeBody body with
    headers := (HttpHeaders.init.getCstr (ascii "Content-Length") true).2.modify 0
      (·.appendValue value) }

theorem handled_lengthResponse {value : Bytes} (h : CleanText value) (body : Bytes) :
    Handled (lengthResponse value body) := by
  refine ⟨.setValues 0 (fun _ => HttpHeader.name_appendValue _ _) (.getCstr _ true .init), ?_⟩
  intro f hf
  obtain rfl : f = (ascii "Content-Length", [value]) := List.mem_singleton.mp hf
  have hname : CleanText (ascii "Content-Length") := by decide
  refine ⟨hname, fun v hv => ?_⟩
  rwa [List.mem_singleton.mp hv]

theorem lengthRule_five :
    LengthRule (lengthResponse (ascii "5") (ascii "hello")) takesAll
      ↔ ¬(Misread (lengthResponse (ascii "5") (ascii "hello"))
        ∧ (lengthResponse (ascii "5") (ascii "hello")).fixed.Formattable
        ∧ NoFailure takesAll 0 (lengthResponse (ascii "5") (ascii "hello")).fixed.writes) :=
  lengthRule_iff (handled_lengthResponse (by decide) _) fun _ _ => rfl

/-- With the value `5abc` the call sends `5abc` as the length of `hello`. -/
theorem not_lengthRule :
    Handled (lengthResponse (ascii "5abc") (ascii "hello")) ∧ TakesAll takesAll
      ∧ (∃ r', httpResponseWrite (lengthResponse (ascii "5abc") (ascii "hello")) takesAll
        = .returned 0 r' (ascii "HTTP/1.1 200 OK\r\nContent-Length: 5abc\r\n\r\nhello"))
      ∧ ¬LengthRule (lengthResponse (ascii "5abc") (ascii "hello")) takesAll := by
  have hclean : CleanText (ascii "5abc") := by decide
  have htakes : TakesAll takesAll := fun _ _ => rfl
  obtain ⟨r', hcall⟩ : ∃ r', httpResponseWrite (lengthResponse (ascii "5abc") (ascii "hello"))
      takesAll = .returned 0 r' (ascii "HTTP/1.1 200 OK\r\nContent-Length: 5abc\r\n\r\nhello") :=
    ⟨_, rfl⟩
  refine ⟨handled_lengthResponse hclean _, htakes, ⟨r', hcall⟩, ?_⟩
  intro hrule
  have hformat : (lengthResponse (ascii "5abc") (ascii "hello")).fixed.Formattable := by decide
  obtain ⟨name, hsingle⟩ := (hrule r' _ hformat hcall).single
  rw [(httpResponseWrite_takesAll htakes hcall).1] at hsingle
  have hvalues := congrArg (List.map Prod.snd) hsingle
  change _ = [[decimal (lengthResponse (ascii "5abc") (ascii "hello")).bodyBuffer.length]]
    at hvalues
  exact absurd hvalues (by decide)

end CWebServer.Http
