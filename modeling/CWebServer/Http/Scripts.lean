import CWebServer.Http.Serialize

/-!
# Http — Handler Scripts

What a handler does to a response, call by call. A value string that
`http_header_append_value` returns still has the contents that its slot had
before, so what `string_append_*` makes of it depends on them. `plan` is what
a script asks for, and `realize` what becomes of it if every recycled string
has the same contents.
-/

namespace CWebServer.Http

open CWebServer.Strings CWebServer.Lib

/-! ## Scripts -/

/-- A call on the string that `http_header_append_value` returned: one of the
`string_set_*` that replace the text, one of the `string_append_*`, or
`string_set_length`. -/
inductive StringEdit
  | set (text : Bytes)
  | append (text : Bytes)
  | setLength (length : Nat) (fill : UInt8)
deriving DecidableEq, Repr

def StringEdit.apply (s : Bytes) : StringEdit → Bytes
  | .set text => text
  | .append text => s ++ text
  | .setLength length fill => s.take length ++ List.replicate (length - s.length) fill

def editString (s : Bytes) (edits : List StringEdit) : Bytes :=
  edits.foldl StringEdit.apply s

/-- What the string that `http_header_append_value` returns holds. -/
def HttpHeader.recycled (h : HttpHeader) : Bytes :=
  (h.values[h.valuesLength]?).getD []

/-- `http_header_append_value` followed by calls on the string. -/
def HttpHeader.appendEdited (h : HttpHeader) (edits : List StringEdit) : HttpHeader :=
  h.appendValue (editString h.recycled edits)

/-- A call of a handler. The header that a value is appended to is one that
`http_headers_get_cstr` returned, named by its slot; a handler asks again when
a creation has moved the array, as the old pointer cannot be used then
(`header_pointer_usable_iff`). -/
inductive ScriptCall
  | setStatusCode (statusCode : Int)
  | getCstr (name : Bytes)
  | appendValue (slot : Nat) (edits : List StringEdit)
  | writeBody (src : Bytes)

def HttpResponse.call (r : HttpResponse) : ScriptCall → HttpResponse
  | .setStatusCode statusCode => r.setStatusCode statusCode
  | .getCstr name => { r with headers := (r.headers.getCstr name true).2 }
  | .appendValue slot edits =>
      if slot < r.headers.headersLength then
        { r with headers := r.headers.modify slot (·.appendEdited edits) }
      else r
  | .writeBody src => r.writeBody src

abbrev Script := List ScriptCall

def runScript (script : Script) (r : HttpResponse) : HttpResponse :=
  script.foldl HttpResponse.call r

@[simp] theorem runScript_cons (c : ScriptCall) (script : Script) (r : HttpResponse) :
    runScript (c :: script) r = runScript script (r.call c) := rfl

@[simp] theorem runScript_append (script script' : Script) (r : HttpResponse) :
    runScript (script ++ script') r = runScript script' (runScript script r) :=
  List.foldl_append

/-- The states that a response gets into. -/
inductive ReachableResponse : HttpResponse → Prop
  | init : ReachableResponse .init
  | call {r : HttpResponse} (c : ScriptCall) : ReachableResponse r → ReachableResponse (r.call c)
  | clear {r : HttpResponse} : ReachableResponse r → ReachableResponse r.clear
  | write {r r' : HttpResponse} {d : Destination} {code : Nat} {accepted : Bytes} :
      ReachableResponse r → httpResponseWrite r d = .returned code r' accepted →
        ReachableResponse r'

/-! ## Plans -/

/-- The headers that a script asks for, each with the edits of its values. -/
abbrev Plan := List (Bytes × List (List StringEdit))

def Plan.call (plan : Plan) : ScriptCall → Plan
  | .getCstr name =>
      if plan.any fun p => sameName p.1 (cstr name) then plan else plan ++ [(cstr name, [])]
  | .appendValue slot edits => plan.modify slot fun p => (p.1, p.2 ++ [edits])
  | _ => plan

def Script.plan (script : Script) : Plan := script.foldl Plan.call []

/-- The fields of a plan if every recycled string holds `s`. -/
def Plan.realize (s : Bytes) (plan : Plan) : Fields :=
  plan.map fun p => (p.1, p.2.map (editString s))

/-- The fields of a plan if every recycled string satisfies `P`. -/
def Plan.RealizedBy (P : Bytes → Prop) (plan : Plan) (fs : Fields) : Prop :=
  List.Forall₂ (fun p f => p.1 = f.1
    ∧ List.Forall₂ (fun edits v => ∃ s, P s ∧ v = editString s edits) p.2 f.2) plan fs

theorem ReachableResponse.run {r : HttpResponse} (h : ReachableResponse r) (script : Script) :
    ReachableResponse (runScript script r) := by
  induction script generalizing r with
  | nil => exact h
  | cons c script ih => exact ih (h.call c)

/-! ## The calls on the fields -/

section

variable {hs : HttpHeaders}

/-- The contents of the string that an append to this slot returns. -/
def HttpHeaders.recycledAt (hs : HttpHeaders) (slot : Nat) : Bytes :=
  (hs.headers[slot]?.map HttpHeader.recycled).getD []

theorem modify_appendEdited (slot : Nat) (edits : List StringEdit) :
    hs.modify slot (·.appendEdited edits)
      = hs.modify slot (·.appendValue (editString (hs.recycledAt slot) edits)) := by
  have hheaders : hs.headers.modify slot (·.appendEdited edits)
      = hs.headers.modify slot (·.appendValue (editString (hs.recycledAt slot) edits)) := by
    apply List.ext_getElem?
    intro i
    rw [List.getElem?_modify, List.getElem?_modify]
    by_cases hi : slot = i
    · subst hi
      cases hslot : hs.headers[slot]? with
      | none => rfl
      | some h => simp [HttpHeaders.recycledAt, hslot, HttpHeader.appendEdited]
    · simp [hi]
  simp only [HttpHeaders.modify, hheaders]

theorem toList_appendValue (slot : Nat) (value : Bytes) :
    (hs.modify slot (·.appendValue value)).toList
      = hs.toList.modify slot fun f => (f.1, f.2 ++ [value]) := by
  rw [HttpHeaders.toList, live_modify, HttpHeaders.toList]
  apply map_modify_comm
  intro h
  rw [h.name_appendValue, h.live_appendValue]

theorem toList_getCstr (name : Bytes) :
    (hs.getCstr name true).2.toList
      = if hs.toList.any fun f => sameName f.1 (cstr name) then hs.toList
        else hs.toList ++ [(cstr name, [])] := by
  have hany : (hs.toList.any fun f => sameName f.1 (cstr name)) = (hs.find (cstr name)).isSome := by
    rw [HttpHeaders.find, List.findIdx?_isSome, HttpHeaders.toList, List.any_map]
    rfl
  rw [hany, HttpHeaders.getCstr, HttpHeaders.getCstrLen]
  cases hs.find (cstr name) with
  | some i => rfl
  | none =>
      obtain ⟨h, hlive, hname, hempty⟩ := live_create hs (cstr name)
      simp [HttpHeaders.toList, hlive, hname, hempty]

end

/-! ## Realizing a plan -/

section

variable {α β : Type} {R : α → β → Prop}

theorem forall₂_modify {f : α → α} {g : β → β} (hfg : ∀ a b, R a b → R (f a) (g b))
    {l : List α} {l' : List β} (h : List.Forall₂ R l l') (i : Nat) :
    List.Forall₂ R (l.modify i f) (l'.modify i g) := by
  induction h generalizing i with
  | nil => simp
  | cons hab hrest ih =>
      cases i with
      | zero => exact .cons (hfg _ _ hab) hrest
      | succ i => exact .cons hab (ih i)

theorem forall₂_any {p : α → Bool} {q : β → Bool} (hpq : ∀ a b, R a b → p a = q b)
    {l : List α} {l' : List β} (h : List.Forall₂ R l l') : l.any p = l'.any q := by
  induction h with
  | nil => rfl
  | cons hab hrest ih => rw [List.any_cons, List.any_cons, hpq _ _ hab, ih]

end

/-- **One call**: the collection realizes what the plan becomes, if the string
that an append returns satisfies `P`. -/
theorem Plan.RealizedBy.call {P : Bytes → Prop} {r : HttpResponse} {plan : Plan}
    (h : plan.RealizedBy P r.headers.toList) (c : ScriptCall)
    (hrecycled : ∀ slot edits, c = .appendValue slot edits → slot < r.headers.headersLength →
      P (r.headers.recycledAt slot)) :
    (plan.call c).RealizedBy P (r.call c).headers.toList := by
  cases c with
  | setStatusCode statusCode => exact h
  | writeBody src => exact h
  | getCstr name =>
      show (if _ then _ else _ : Plan).RealizedBy P (r.headers.getCstr name true).2.toList
      rw [toList_getCstr, forall₂_any (fun p f hpf => by rw [hpf.1]) h]
      split
      · exact h
      · exact List.rel_append h (.cons ⟨rfl, .nil⟩ .nil)
  | appendValue slot edits =>
      by_cases hslot : slot < r.headers.headersLength
      · simp only [HttpResponse.call, if_pos hslot, modify_appendEdited, toList_appendValue]
        apply forall₂_modify _ h
        rintro p f ⟨hname, hvalues⟩
        refine ⟨hname, List.rel_append hvalues (.cons ⟨_, ?_, rfl⟩ .nil)⟩
        exact hrecycled slot edits rfl hslot
      · have hlength : plan.length ≤ slot := by
          rw [List.Forall₂.length_eq h, HttpHeaders.toList, List.length_map, length_live]
          exact Nat.le_of_not_lt hslot
        simp only [HttpResponse.call, if_neg hslot, Plan.call]
        rw [List.modify_eq_self hlength]
        exact h

/-- **A script** realizes its plan, whatever the strings that it gets hold. -/
theorem realizedBy_run (script : Script) (r : HttpResponse) :
    script.plan.RealizedBy (fun _ => True) (runScript script r.clear).headers.toList := by
  have hrun : ∀ (script : Script) (plan : Plan) (r : HttpResponse),
      plan.RealizedBy (fun _ => True) r.headers.toList →
        (script.foldl Plan.call plan).RealizedBy (fun _ => True)
          (runScript script r).headers.toList := by
    intro script
    induction script with
    | nil => exact fun _ _ h => h
    | cons c script ih => exact fun plan r h => ih _ _ (h.call c fun _ _ _ _ => trivial)
  exact hrun script [] r.clear .nil

end CWebServer.Http
