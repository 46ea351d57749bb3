import CWebServer.Http.Stale
import CWebServer.Strings.Decimal

/-!
# Http — Recycling of Responses

When a handler's script produces the same bytes on a cleared response as on a
new one. Stale text is what a value string is appended to, so it shows unless
every value that is printed was overwritten; only the value of
`Content-Length` may be replaced before it is printed.
-/

namespace CWebServer.Http

open CWebServer.Strings CWebServer.Lib

/-! ## Edits -/

/-- Calls after which nothing is left of what the string held. -/
def StringEdit.overwrites : StringEdit → Bool
  | .set _ => true
  | .append _ => false
  | .setLength length _ => length = 0

/-- One of the calls overwrites the string. -/
def Overwritten (edits : List StringEdit) : Prop := edits.any StringEdit.overwrites = true

theorem editString_overwritten {edits : List StringEdit} (h : Overwritten edits) (s s' : Bytes) :
    editString s edits = editString s' edits := by
  induction edits generalizing s s' with
  | nil => exact absurd h (by simp [Overwritten])
  | cons e edits ih =>
      show editString (e.apply s) edits = editString (e.apply s') edits
      cases e with
      | set text => rfl
      | append text => exact ih h _ _
      | setLength length fill =>
          by_cases hzero : length = 0
          · subst hzero
            simp [StringEdit.apply]
          · apply ih
            simpa [Overwritten, StringEdit.overwrites, hzero] using h

/-- A text that begins with a letter is not read as a number. -/
theorem sscanfZu_letter (w : Bytes) : sscanfZu (97 :: w) = none ∧ sscanfZu (98 :: w) = none := by
  constructor <;> rfl

/-- The first byte stays where it is if no call overwrites the string. -/
theorem editString_kept {edits : List StringEdit} (h : ¬Overwritten edits) (u : Bytes) :
    ∃ w, ∀ c, editString (c :: u) edits = c :: w := by
  induction edits generalizing u with
  | nil => exact ⟨u, fun _ => rfl⟩
  | cons e edits ih =>
      have hrest : ¬Overwritten edits := by
        intro hrest
        apply h
        simp only [Overwritten, List.any_cons, Bool.or_eq_true] at hrest ⊢
        exact .inr hrest
      cases e with
      | set text => exact absurd (by simp [Overwritten, StringEdit.overwrites]) h
      | append text => exact ih hrest (u ++ text)
      | setLength length fill =>
          cases length with
          | zero => exact absurd (by simp [Overwritten, StringEdit.overwrites]) h
          | succ length =>
              obtain ⟨w, hw⟩ :=
                ih hrest (u.take length ++ List.replicate (length - u.length) fill)
              refine ⟨w, ?_⟩
              intro c
              rw [← hw c]
              show editString (StringEdit.apply (c :: u) (.setLength (length + 1) fill)) edits = _
              simp [StringEdit.apply]

/-! ## What a plan prints -/

/-- The name of the header that `http_response_write` looks for. -/
def isContentLength (name : Bytes) : Bool := sameName name (ascii "Content-Length")

/-- The values that are printed as the script left them are overwritten. -/
def Plan.PrintsOverwritten : Plan → Prop
  | [] => True
  | p :: ps =>
      if isContentLength p.1 then ∀ q ∈ ps, ∀ edits ∈ q.2, Overwritten edits
      else (∀ edits ∈ p.2, Overwritten edits) ∧ Plan.PrintsOverwritten ps

/-- The edits of the value of `Content-Length`, if it has one value. -/
def Plan.contentLength (plan : Plan) : Option (List StringEdit) :=
  match plan.find? fun p => isContentLength p.1 with
  | some (_, [edits]) => some edits
  | _ => none

/-- What these edits leave of a `Content-Length` does not depend on what the
string held: either it is overwritten, or it is replaced unless it is the
decimal length anyway. -/
def KeepsContentLength (bodyLength : Nat) (edits : List StringEdit) : Prop :=
  Overwritten edits ∨ ∀ s, sscanfZu (editString s edits) = some bodyLength →
    cstr (editString s edits) = decimal bodyLength

section

variable {P Q : Bytes → Prop} {bodyLength : Nat}

/-- Values that are overwritten do not depend on what the strings held. -/
theorem values_overwritten {plans : List (List StringEdit)} {vs ws : List Bytes}
    (hv : List.Forall₂ (fun edits v => ∃ s, P s ∧ v = editString s edits) plans vs)
    (hw : List.Forall₂ (fun edits w => ∃ s, Q s ∧ w = editString s edits) plans ws)
    (h : ∀ edits ∈ plans, Overwritten edits) : vs = ws := by
  induction hv generalizing ws with
  | nil =>
      cases hw
      rfl
  | cons hfirst hrest ih =>
      cases hw with
      | cons hfirst' hrest' =>
          obtain ⟨s, -, rfl⟩ := hfirst
          obtain ⟨s', -, rfl⟩ := hfirst'
          rw [List.forall_mem_cons] at h
          rw [editString_overwritten h.1 s s', ih hrest' h.2]

theorem fields_overwritten {plan : Plan} {fs gs : Fields}
    (hf : plan.RealizedBy P fs) (hg : plan.RealizedBy Q gs)
    (h : ∀ p ∈ plan, ∀ edits ∈ p.2, Overwritten edits) : fs = gs := by
  induction plan generalizing fs gs with
  | nil =>
      cases hf
      cases hg
      rfl
  | cons p plan ih =>
      cases hf with
      | cons hfirst hrest =>
          cases hg with
          | cons hfirst' hrest' =>
              rw [List.forall_mem_cons] at h
              have hvalues := values_overwritten hfirst.2 hfirst'.2 h.1
              rw [ih hrest hrest' h.2]
              congr 1
              exact Prod.ext (hfirst.1.symm.trans hfirst'.1) hvalues

theorem updateField_cons_contentLength {g : List Bytes → List Bytes} {f : Bytes × List Bytes}
    (h : isContentLength f.1) (fs : Fields) :
    updateField (ascii "Content-Length") g (f :: fs) = (f.1, g f.2) :: fs :=
  if_pos h

theorem updateField_cons_other {g : List Bytes → List Bytes} {f : Bytes × List Bytes}
    (h : ¬isContentLength f.1) (fs : Fields) :
    updateField (ascii "Content-Length") g (f :: fs)
      = f :: updateField (ascii "Content-Length") g fs :=
  if_neg h

theorem contentLength_cons {p : Bytes × List (List StringEdit)} {edits : List StringEdit}
    {plan : Plan} (hp : isContentLength p.1) :
    Plan.contentLength (p :: plan) = some edits ↔ p.2 = [edits] := by
  obtain ⟨name, plans⟩ := p
  have hfind : List.find? (fun p => isContentLength p.1) ((name, plans) :: plan)
      = some (name, plans) := List.find?_cons_of_pos hp
  unfold Plan.contentLength
  rw [hfind]
  rcases plans with _ | ⟨edits', _ | ⟨edits'', plans⟩⟩ <;> simp

theorem contentLength_cons_other {p : Bytes × List (List StringEdit)} {plan : Plan}
    (hp : ¬isContentLength p.1) : Plan.contentLength (p :: plan) = plan.contentLength := by
  have hfind : List.find? (fun p => isContentLength p.1) (p :: plan)
      = plan.find? fun p => isContentLength p.1 := List.find?_cons_of_neg hp
  unfold Plan.contentLength
  rw [hfind]

/-! ### The value of `Content-Length` -/

/-- The one value that is printed. -/
theorem fixValues_single (bodyLength : Nat) (v : Bytes) :
    fixValues bodyLength [v]
      = [if sscanfZu v = some bodyLength then v else decimal bodyLength] := by
  show (if _ then _ else _ : List Bytes) = _
  split <;> rfl

/-- A value that is only kept if it is the decimal length. -/
theorem fixValues_decimal {v : Bytes}
    (h : sscanfZu v = some bodyLength → cstr v = decimal bodyLength) :
    (fixValues bodyLength [v]).map cstr = [decimal bodyLength] := by
  rw [fixValues_single]
  split
  · rename_i hreads
    rw [List.map_singleton, h hreads]
  · rw [List.map_singleton, cstr_decimal]

theorem fixValues_keeps {plans : List (List StringEdit)} {vs ws : List Bytes}
    (hv : List.Forall₂ (fun edits v => ∃ s, P s ∧ v = editString s edits) plans vs)
    (hw : List.Forall₂ (fun edits w => ∃ s, Q s ∧ w = editString s edits) plans ws)
    (h : ∀ edits, plans = [edits] → KeepsContentLength bodyLength edits) :
    (fixValues bodyLength vs).map cstr = (fixValues bodyLength ws).map cstr := by
  cases hv with
  | nil =>
      cases hw
      rfl
  | cons hfirst hrest =>
      cases hw with
      | cons hfirst' hrest' =>
          cases hrest with
          | cons _ _ =>
              -- several values are replaced
              cases hrest'
              rfl
          | nil =>
              cases hrest'
              obtain ⟨s, -, rfl⟩ := hfirst
              obtain ⟨s', -, rfl⟩ := hfirst'
              rcases h _ rfl with hover | hdecimal
              · rw [editString_overwritten hover s s']
              · rw [fixValues_decimal (hdecimal s), fixValues_decimal (hdecimal s')]

/-- **Sufficient**: what is printed does not depend on what the strings held.
-/
theorem shown_fixFields {plan : Plan} {fs gs : Fields}
    (hf : plan.RealizedBy P fs) (hg : plan.RealizedBy Q gs) (h : plan.PrintsOverwritten)
    (hlength : ∀ edits, plan.contentLength = some edits → KeepsContentLength bodyLength edits) :
    shown (fixFields bodyLength fs) = shown (fixFields bodyLength gs) := by
  induction plan generalizing fs gs with
  | nil =>
      cases hf
      cases hg
      rfl
  | cons p plan ih =>
      cases hf with
      | @cons _ f _ fs hfirst hrest =>
          cases hg with
          | @cons _ g _ gs hfirst' hrest' =>
              obtain ⟨hname, hvalues⟩ := hfirst
              obtain ⟨hname', hvalues'⟩ := hfirst'
              unfold fixFields
              by_cases hp : isContentLength p.1
              · rw [Plan.PrintsOverwritten, if_pos hp] at h
                rw [updateField_cons_contentLength (hname ▸ hp),
                  updateField_cons_contentLength (hname' ▸ hp), fields_overwritten hrest hrest' h]
                have hprinted := fixValues_keeps hvalues hvalues' fun edits hedits =>
                  hlength edits ((contentLength_cons hp).mpr hedits)
                simp only [shown, List.map_cons, ← hname, ← hname', hprinted]
              · rw [Plan.PrintsOverwritten, if_neg hp] at h
                rw [updateField_cons_other (hname ▸ hp), updateField_cons_other (hname' ▸ hp)]
                have hvs := values_overwritten hvalues hvalues' h.1
                have hfields := ih hrest hrest' h.2 fun edits hedits =>
                  hlength edits ((contentLength_cons_other hp).trans hedits)
                simp only [fixFields] at hfields
                simp only [shown, List.map_cons, ← hname, ← hname', hvs] at hfields ⊢
                rw [hfields]

end

/-! ## Telling stale texts apart

A value that is not overwritten still begins with what its string held. With
strings that hold `a` or `b`, the lines are as long and differ there.
-/

section

variable {bodyLength : Nat}

theorem realizedBy_eq {s : Bytes} {plan : Plan} {fs : Fields} (h : plan.RealizedBy (· = s) fs) :
    fs = plan.realize s := by
  have hvalues : ∀ {plans : List (List StringEdit)} {vs : List Bytes},
      List.Forall₂ (fun edits v => ∃ t, t = s ∧ v = editString t edits) plans vs →
        vs = plans.map (editString s) := by
    intro plans vs hvs
    induction hvs with
    | nil => rfl
    | cons hfirst hrest ih =>
        obtain ⟨t, rfl, rfl⟩ := hfirst
        rw [ih, List.map_cons]
  induction h with
  | nil => rfl
  | cons hfirst hrest ih =>
      rw [ih]
      show _ = _ :: Plan.realize s _
      congr 1
      exact Prod.ext hfirst.1.symm (hvalues hfirst.2)

/-- The two values are equally long, and equal only if they are overwritten. -/
theorem cstr_editString_marked (edits : List StringEdit) :
    (cstr (editString [97] edits)).length = (cstr (editString [98] edits)).length
      ∧ (cstr (editString [97] edits) = cstr (editString [98] edits) → Overwritten edits) := by
  by_cases h : Overwritten edits
  · rw [editString_overwritten h [97] [98]]
    exact ⟨rfl, fun _ => h⟩
  · obtain ⟨w, hw⟩ := editString_kept h []
    rw [hw, hw, cstr_cons (by decide), cstr_cons (by decide)]
    refine ⟨rfl, ?_⟩
    intro heq
    exact absurd (List.cons.inj heq).1 (by decide)

/-- A value that begins with a letter is not a number. -/
theorem fixValues_marked (bodyLength : Nat) (plans : List (List StringEdit)) :
    fixValues bodyLength (plans.map (editString [97]))
      = fixValues bodyLength (plans.map (editString [98])) := by
  rcases plans with _ | ⟨edits, _ | ⟨edits', plans⟩⟩
  · rfl
  · by_cases h : Overwritten edits
    · rw [List.map_singleton, editString_overwritten h [97] [98], List.map_singleton]
    · obtain ⟨w, hw⟩ := editString_kept h []
      rw [List.map_singleton, List.map_singleton, hw, hw, fixValues_single, fixValues_single,
        if_neg (by simp [sscanfZu_letter]), if_neg (by simp [sscanfZu_letter])]
  · rfl

theorem length_joinValues_marked (plans : List (List StringEdit)) :
    (joinValues (plans.map (editString [97]))).length
      = (joinValues (plans.map (editString [98]))).length := by
  induction plans with
  | nil => rfl
  | cons edits plans ih =>
      have hlength := (cstr_editString_marked edits).1
      cases plans with
      | nil =>
          simp only [List.map_singleton, joinValues_singleton]
          exact hlength
      | cons edits' plans =>
          simp only [List.map_cons, joinValues_cons_cons, List.length_append] at ih ⊢
          omega

/-- Value lists that are printed the same are overwritten. -/
theorem overwritten_of_joinValues {plans : List (List StringEdit)}
    (h : joinValues (plans.map (editString [97])) = joinValues (plans.map (editString [98]))) :
    ∀ edits ∈ plans, Overwritten edits := by
  induction plans with
  | nil => simp
  | cons edits plans ih =>
      obtain ⟨hlength, hover⟩ := cstr_editString_marked edits
      rw [List.forall_mem_cons]
      cases plans with
      | nil =>
          simp only [List.map_singleton, joinValues_singleton] at h
          exact ⟨hover h, by simp⟩
      | cons edits' plans =>
          simp only [List.map_cons, joinValues_cons_cons, List.append_assoc] at h ih
          obtain ⟨hfirst, hrest⟩ := List.append_inj h hlength
          exact ⟨hover hfirst, ih (List.append_cancel_left hrest)⟩

theorem length_headerLine_marked (name : Bytes) (plans : List (List StringEdit)) :
    (headerLine (name, plans.map (editString [97]))).length
      = (headerLine (name, plans.map (editString [98]))).length := by
  simp only [headerLine, List.length_append, length_joinValues_marked]

/-- Fields that are printed the same are overwritten. -/
theorem overwritten_of_headerBlock {plan : Plan}
    (h : headerBlock (plan.realize [97]) = headerBlock (plan.realize [98])) :
    ∀ p ∈ plan, ∀ edits ∈ p.2, Overwritten edits := by
  induction plan with
  | nil => simp
  | cons p plan ih =>
      rw [List.forall_mem_cons]
      simp only [headerBlock, Plan.realize, List.map_cons, List.flatMap_cons] at h ih
      obtain ⟨hfirst, hrest⟩ := List.append_inj h (length_headerLine_marked p.1 p.2)
      refine ⟨overwritten_of_joinValues ?_, ih hrest⟩
      simpa [headerLine] using hfirst

/-- **Necessary**: responses with different stale texts that are printed the
same print overwritten values only. -/
theorem printsOverwritten_of_headerBlock {plan : Plan}
    (h : headerBlock (fixFields bodyLength (plan.realize [97]))
      = headerBlock (fixFields bodyLength (plan.realize [98]))) : plan.PrintsOverwritten := by
  induction plan with
  | nil => trivial
  | cons p plan ih =>
      have hrealize : ∀ s, Plan.realize s (p :: plan)
          = (p.1, p.2.map (editString s)) :: Plan.realize s plan := fun _ => rfl
      unfold fixFields at h ih
      rw [hrealize, hrealize] at h
      unfold Plan.PrintsOverwritten
      by_cases hp : isContentLength p.1
      · rw [updateField_cons_contentLength hp, updateField_cons_contentLength hp,
          fixValues_marked] at h
        rw [if_pos hp]
        exact overwritten_of_headerBlock (List.append_cancel_left h)
      · rw [updateField_cons_other hp, updateField_cons_other hp] at h
        rw [if_neg hp]
        obtain ⟨hfirst, hrest⟩ := List.append_inj h (length_headerLine_marked p.1 p.2)
        refine ⟨overwritten_of_joinValues ?_, ih hrest⟩
        simpa [headerLine] using hfirst

theorem realize_overwritten {plan : Plan} (h : ∀ p ∈ plan, ∀ edits ∈ p.2, Overwritten edits)
    (s t : Bytes) : plan.realize s = plan.realize t := by
  apply List.map_congr_left
  intro p hp
  congr 1
  apply List.map_congr_left
  intro edits hedits
  exact editString_overwritten (h p hp edits hedits) s t

/-- A value that is printed the same whatever its string held is kept. -/
theorem keeps_of_fixValues {edits : List StringEdit}
    (h : ∀ s, joinValues (fixValues bodyLength [editString s edits])
      = joinValues (fixValues bodyLength [editString [] edits])) :
    KeepsContentLength bodyLength edits := by
  unfold KeepsContentLength
  by_cases hover : Overwritten edits
  · exact .inl hover
  · apply Or.inr
    intro s hreads
    obtain ⟨w, hw⟩ := editString_kept hover []
    have hsame := (h s).trans (h [97]).symm
    rw [hw, fixValues_single, fixValues_single, if_pos hreads, if_neg (by simp [sscanfZu_letter]),
      joinValues_singleton, joinValues_singleton, cstr_decimal] at hsame
    exact hsame

/-- **Necessary**: a length that is printed the same whatever its string held
is kept. -/
theorem keeps_of_headerBlock {plan : Plan} (hplan : plan.PrintsOverwritten)
    (h : ∀ s, headerBlock (fixFields bodyLength (plan.realize s))
      = headerBlock (fixFields bodyLength (plan.realize [])))
    {edits : List StringEdit} (hedits : plan.contentLength = some edits) :
    KeepsContentLength bodyLength edits := by
  induction plan with
  | nil => exact absurd hedits (by simp [Plan.contentLength])
  | cons p plan ih =>
      unfold Plan.PrintsOverwritten at hplan
      by_cases hp : isContentLength p.1
      · rw [if_pos hp] at hplan
        rw [contentLength_cons hp] at hedits
        have hfix : ∀ s, fixFields bodyLength (Plan.realize s (p :: plan))
            = (p.1, fixValues bodyLength [editString s edits]) :: Plan.realize s plan := by
          intro s
          show updateField _ _ ((p.1, p.2.map (editString s)) :: Plan.realize s plan) = _
          rw [hedits]
          exact updateField_cons_contentLength hp _
        apply keeps_of_fixValues
        intro s
        have hs := h s
        rw [hfix, hfix, realize_overwritten hplan s []] at hs
        simpa [headerBlock, headerLine] using hs
      · rw [if_neg hp] at hplan
        rw [contentLength_cons_other hp] at hedits
        have hfix : ∀ s, fixFields bodyLength (Plan.realize s (p :: plan))
            = (p.1, p.2.map (editString [])) :: fixFields bodyLength (Plan.realize s plan) := by
          intro s
          have hvalues : p.2.map (editString s) = p.2.map (editString []) :=
            List.map_congr_left fun edits hmem =>
              editString_overwritten (hplan.1 edits hmem) s []
          rw [← hvalues]
          exact if_neg hp
        refine ih hplan.2 ?_ hedits
        intro s
        have hs := h s
        rw [hfix, hfix] at hs
        exact List.append_cancel_left hs

end

end CWebServer.Http
