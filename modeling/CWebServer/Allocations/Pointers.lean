import CWebServer.Allocations.Writing

/-!
# Allocations — Pointers

A pointer that `http_headers_get_cstr` returned, used again after other calls
on the collection: that is defined exactly as long as none of them has moved
the array.
-/

namespace CWebServer.Allocations

open CWebServer.Lib CWebServer.Strings CWebServer.Http

/-! ## Calls -/

/-- A call on a collection. The header that a value is appended to is asked for
again. -/
inductive ArrayCall
  | clear
  | getCstrLen (name : Bytes) (createIfMissing : Bool)
  | appendValue (slot : Nat) (edits : List StringEdit)

def arrayCall (hs : HttpHeaders) : ArrayCall → HttpHeaders
  | .clear => hs.clear
  | .getCstrLen name createIfMissing => (hs.getCstrLen name createIfMissing).2
  | .appendValue slot edits =>
      if slot < hs.headersLength then hs.modify slot (·.appendEdited edits) else hs

def arrayCalls (cs : List ArrayCall) (hs : HttpHeaders) : HttpHeaders :=
  cs.foldl arrayCall hs

/-- The call moves the array. -/
def CallMoves (hs : HttpHeaders) : ArrayCall → Prop
  | .getCstrLen name createIfMissing => HeapHeaders.Moves hs name createIfMissing
  | _ => False

/-- One of the calls moves the array. -/
def Moved : List ArrayCall → HttpHeaders → Prop
  | [], _ => False
  | c :: cs, hs => CallMoves hs c ∨ Moved cs (arrayCall hs c)

/-- No call gives slots back. -/
theorem length_arrayCall (hs : HttpHeaders) (c : ArrayCall) :
    hs.headers.length ≤ (arrayCall hs c).headers.length := by
  cases c with
  | clear => exact Nat.le_refl _
  | getCstrLen name createIfMissing =>
      simp only [arrayCall, HttpHeaders.getCstrLen]
      cases hs.find name with
      | some i => exact Nat.le_refl _
      | none =>
          cases createIfMissing with
          | false => exact Nat.le_refl _
          | true =>
              simp only [if_true, HttpHeaders.create]
              split <;> simp
  | appendValue slot edits =>
      simp only [arrayCall]
      split
      · simp [HttpHeaders.modify]
      · exact Nat.le_refl _

theorem length_arrayCalls (cs : List ArrayCall) (hs : HttpHeaders) :
    hs.headers.length ≤ (arrayCalls cs hs).headers.length := by
  induction cs generalizing hs with
  | nil => exact Nat.le_refl _
  | cons c cs ih => exact Nat.le_trans (length_arrayCall hs c) (ih (arrayCall hs c))

namespace HeapHeaders

def call (hs : HeapHeaders) : ArrayCall → Alloc HeapHeaders
  | .clear => pure hs.clear
  | .getCstrLen name createIfMissing => do
      let found ← hs.getCstrLen name createIfMissing
      pure found.2
  | .appendValue slot edits => hs.appendEdited slot edits

def calls : List ArrayCall → HeapHeaders → Alloc HeapHeaders
  | [], hs => pure hs
  | c :: cs, hs => do
      let hs ← hs.call c
      calls cs hs

variable (hs : HeapHeaders)

theorem call_spec (c : ArrayCall) :
    Spec hs.blocks (hs.call c) blocks fun hs' => hs'.erase = arrayCall hs.erase c
      ∧ (¬CallMoves hs.erase c → hs'.headers.data = hs.headers.data) := by
  cases c with
  | clear => exact Spec.pure rfl ⟨rfl, fun _ => rfl⟩
  | getCstrLen name createIfMissing =>
      exact (hs.getCstrLen_spec name createIfMissing).bind fun found hfound =>
        Spec.pure rfl ⟨hfound.1, hfound.2.2.2⟩
  | appendValue slot edits =>
      exact (hs.appendEdited_spec slot edits).mono fun hs' h => ⟨h.1, fun _ => h.2⟩

theorem calls_spec (cs : List ArrayCall) :
    Spec hs.blocks (calls cs hs) blocks fun hs' => hs'.erase = arrayCalls cs hs.erase
      ∧ (¬Moved cs hs.erase → hs'.headers.data = hs.headers.data) := by
  induction cs generalizing hs with
  | nil => exact Spec.pure rfl ⟨rfl, fun _ => rfl⟩
  | cons c cs ih =>
      refine (hs.call_spec c).bind fun hs₁ h₁ => (ih hs₁).mono fun hs₂ h₂ => ?_
      obtain ⟨herase₁, hdata₁⟩ := h₁
      obtain ⟨herase₂, hdata₂⟩ := h₂
      refine ⟨?_, fun hstays => ?_⟩
      · rw [herase₂, herase₁]
        rfl
      · rw [Moved, not_or, ← herase₁] at hstays
        rw [hdata₂ hstays.2, hdata₁ hstays.1]

variable {hs}

theorem call_frees {q : Nat} (hq : hs.headers.data = some q) {c : ArrayCall}
    (hmoves : CallMoves hs.erase c) : Frees q hs.blocks (hs.call c) blocks fun _ => True := by
  cases c with
  | clear => exact hmoves.elim
  | getCstrLen name createIfMissing =>
      exact (hs.getCstrLen_frees hq hmoves).bind fun _ _ => Spec.pure rfl trivial
  | appendValue slot edits => exact hmoves.elim

/-- The array is freed by the first call that moves it. -/
theorem calls_frees {q : Nat} (hq : hs.headers.data = some q) {cs : List ArrayCall}
    (hmoved : Moved cs hs.erase) : Frees q hs.blocks (calls cs hs) blocks fun _ => True := by
  induction cs generalizing hs with
  | nil => exact hmoved.elim
  | cons c cs ih =>
      -- the array is freed here, or it is the same one for the calls that follow
      by_cases hmoves : CallMoves hs.erase c
      · exact (call_frees hq hmoves).bind fun hs₁ _ =>
          (hs₁.calls_spec cs).mono fun _ _ => trivial
      · refine (hs.call_spec c).bind_frees fun hs₁ h₁ => ?_
        obtain ⟨herase, hdata⟩ := h₁
        refine ih ((hdata hmoves).trans hq) ?_
        rw [herase]
        exact hmoved.resolve_left hmoves

/-- A pointer stays one if the array is not moved. -/
theorem PointsTo.stays {hs' : HeapHeaders} {i : Nat} {p : HeaderPointer} (hp : hs.PointsTo i p)
    (hdata : hs'.headers.data = hs.headers.data)
    (hlength : hs.erase.headers.length ≤ hs'.erase.headers.length) : hs'.PointsTo i p := by
  obtain ⟨hpointer, hi⟩ := hp
  simp only [erase, List.length_map] at hlength
  refine ⟨?_, by omega⟩
  rw [pointer, hdata]
  exact hpointer

/-- A new collection, some calls on it, and a call of `http_headers_get_cstr_len`
for a header that is made if it is missing. -/
def lookup (before : List ArrayCall) (name : Bytes) :
    Alloc (Option HeaderPointer × HeapHeaders) := do
  let hs ← calls before init
  hs.getCstrLen name true

theorem lookup_spec (before : List ArrayCall) (name : Bytes) :
    Spec 0 (lookup before name) (fun r => r.2.blocks) fun r =>
      r.2.erase = ((arrayCalls before .init).getCstrLen name true).2
        ∧ ∃ i p, r.1 = some p ∧ r.2.PointsTo i p := by
  refine (calls_spec init before).bind fun hs hcalls => ?_
  refine (hs.getCstrLen_true_spec name).mono fun found hfound => ?_
  obtain ⟨herase, i, p, -, hp, hpoints⟩ := hfound
  rw [hcalls.1, erase_init] at herase
  exact ⟨herase, i, p, hp, hpoints⟩

end HeapHeaders

/-! ## The pointer -/

/-- **A header pointer can be used exactly as long as the array has not been
moved**: until a header is made that finds no room. -/
theorem header_pointer_usable_iff (before between : List ArrayCall) (name : Bytes)
    (edits : List StringEdit) (heap : Heap) :
    ∃ p hs heap' hs' heap'', HeapHeaders.lookup before name heap = some ((some p, hs), heap')
      ∧ HeapHeaders.calls between hs heap' = some (hs', heap'')
      ∧ ((hs'.onHeader p (·.appendEdited edits) heap'').isSome = true
        ↔ ¬Moved between ((arrayCalls before .init).getCstrLen name true).2) := by
  obtain ⟨r, heap', hrun, hlive, ⟨herase, i, p, hp, hpoints⟩, -⟩ :=
    HeapHeaders.lookup_spec before name heap heap.live (zero_add _).symm
  obtain ⟨_, hs⟩ := r
  obtain rfl : _ = some p := hp
  dsimp only at herase hlive hpoints
  rw [← herase]
  by_cases hmoved : Moved between hs.erase
  · obtain ⟨hs', heap'', hrun', -, -, hgone⟩ :=
      HeapHeaders.calls_frees hpoints.access.2.1 hmoved heap' heap.live hlive
    refine ⟨p, hs, heap', hs', heap'', hrun, hrun', ?_⟩
    -- the first thing done with a pointer is a read of the array it points into
    have hundefined : hs'.onHeader p (·.appendEdited edits) heap'' = none := by
      change (access p.array p.index 1 heap'').bind _ = none
      rw [hgone.access]
      rfl
    simp [hundefined, hmoved]
  · obtain ⟨hs', heap'', hrun', hlive', ⟨herase', hdata⟩, -⟩ :=
      hs.calls_spec between heap' heap.live hlive
    refine ⟨p, hs, heap', hs', heap'', hrun, hrun', ?_⟩
    have hlength := length_arrayCalls between hs.erase
    rw [← herase'] at hlength
    have huse := HeapHeaders.onHeader_spec (hpoints.stays (hdata hmoved) hlength)
      (·.appendEdited edits) 0 fun h => h.appendEdited_spec edits
    obtain ⟨hs'', heap₃, hrun'', -⟩ := huse heap'' heap.live (by rw [hlive', add_zero])
    simp [hrun'', hmoved]

end CWebServer.Allocations
