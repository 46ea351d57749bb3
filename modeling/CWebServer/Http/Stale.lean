import CWebServer.Http.Scripts

/-!
# Http — Stale Strings

For every string there are reachable responses whose recycled value slots all
hold it, as many as a script can use. What a script leaves on such a response
shows where its values keep what they find.
-/

namespace CWebServer.Http

open CWebServer.Strings CWebServer.Lib

/-! ## The next slots -/

/-- The next `n` strings that appends to this header return hold `s`. -/
def HttpHeader.Recycles (s : Bytes) (n : Nat) (h : HttpHeader) : Prop :=
  ∀ k < n, (h.values[h.valuesLength + k]?).getD [] = s

/-- For `n` more calls, every append returns a string that holds `s`. -/
structure HttpHeaders.Recycles (s : Bytes) (n : Nat) (hs : HttpHeaders) : Prop where
  used : ∀ h ∈ hs.live, h.Recycles s n
  unused : ∀ i < n, ∀ j < n,
    ((hs.headers[hs.headersLength + i]?.bind fun h => h.values[j]?).getD []) = s

section

variable {s : Bytes} {n : Nat}

theorem HttpHeader.Recycles.weaken {h : HttpHeader} (hr : h.Recycles s (n + 1)) :
    h.Recycles s n :=
  fun k hk => hr k (Nat.lt_succ_of_lt hk)

/-- An append takes the next slot. -/
theorem HttpHeader.Recycles.appendValue {h : HttpHeader} (hr : h.Recycles s (n + 1))
    (value : Bytes) : (h.appendValue value).Recycles s n := by
  intro k hk
  have hnext := hr (k + 1) (Nat.succ_lt_succ hk)
  unfold HttpHeader.appendValue
  split
  · rename_i hfull
    rw [List.getElem?_eq_none (by omega)] at hnext
    rw [List.getElem?_eq_none (by simp only [List.length_append, List.length_singleton]; omega)]
    exact hnext
  · show ((h.values.set h.valuesLength value)[h.valuesLength + 1 + k]?).getD [] = s
    rw [List.getElem?_set_ne (by omega), Nat.add_assoc, Nat.add_comm 1 k]
    exact hnext

theorem HttpHeaders.Recycles.weaken {hs : HttpHeaders} (hr : hs.Recycles s (n + 1)) :
    hs.Recycles s n :=
  ⟨fun h hh => (hr.used h hh).weaken,
    fun i hi j hj => hr.unused i (Nat.lt_succ_of_lt hi) j (Nat.lt_succ_of_lt hj)⟩

theorem mem_live {hs : HttpHeaders} {h : HttpHeader} :
    h ∈ hs.live ↔ ∃ i < hs.headersLength, hs.headers[i]? = some h := by
  rw [HttpHeaders.live, List.mem_iff_getElem?]
  constructor
  · rintro ⟨i, hi⟩
    rw [List.getElem?_take] at hi
    split at hi
    · rename_i hlt
      exact ⟨i, hlt, hi⟩
    · exact absurd hi (by simp)
  · rintro ⟨i, hlt, hi⟩
    exact ⟨i, by rw [List.getElem?_take, if_pos hlt, hi]⟩

/-- The slots after a creation: the next one is cleared and named. -/
theorem create_slots (hs : HttpHeaders) (name : Bytes) :
    (hs.create name).headersLength = hs.headersLength + 1
      ∧ ∀ i, (hs.create name).headers[i]?
        = if i = hs.headersLength then
            some { (hs.headers[i]?.getD .init).clear with name := name }
          else hs.headers[i]? := by
  unfold HttpHeaders.create
  split
  · rename_i hfull
    refine ⟨rfl, ?_⟩
    intro i
    dsimp only
    rcases Nat.lt_trichotomy i hs.headers.length with hi | rfl | hi
    · rw [List.getElem?_append_left hi, if_neg (by omega)]
    · rw [List.getElem?_append_right (Nat.le_refl _), Nat.sub_self, if_pos hfull.symm,
        List.getElem?_eq_none (Nat.le_refl _)]
      rfl
    · rw [if_neg (by omega), List.getElem?_eq_none (l := hs.headers) (by omega),
        List.getElem?_eq_none]
      simp only [List.length_append, List.length_singleton]
      omega
  · rename_i hfull
    refine ⟨rfl, ?_⟩
    intro i
    dsimp only
    have hlt : hs.headersLength < hs.headers.length := Nat.lt_of_le_of_ne hs.headersLength_le hfull
    by_cases hi : i = hs.headersLength
    · subst hi
      rw [List.getElem?_modify_eq, if_pos rfl, List.getElem?_eq_getElem hlt]
      rfl
    · rw [List.getElem?_modify_ne _ _ (Ne.symm hi), if_neg hi]

/-- A creation takes the next header. -/
theorem HttpHeaders.Recycles.create {hs : HttpHeaders} (hr : hs.Recycles s (n + 1))
    (name : Bytes) : (hs.create name).Recycles s n := by
  obtain ⟨hlength, hslots⟩ := create_slots hs name
  constructor
  · intro h hh
    obtain ⟨i, hi, hslot⟩ := mem_live.mp hh
    rw [hslots] at hslot
    split at hslot
    · rename_i heq
      cases hslot
      intro k hk
      have hk' := hr.unused 0 (Nat.succ_pos n) k (Nat.lt_succ_of_lt hk)
      rw [Nat.add_zero, ← heq] at hk'
      show ((hs.headers[i]?.getD .init).values[0 + k]?).getD [] = s
      rw [← hk', Nat.zero_add]
      cases hs.headers[i]? <;> rfl
    · exact (hr.used h (mem_live.mpr ⟨i, by omega, hslot⟩)).weaken
  · intro i hi j hj
    have hnext := hr.unused (i + 1) (Nat.succ_lt_succ hi) j (Nat.lt_succ_of_lt hj)
    rw [hlength, hslots, if_neg (by omega), Nat.add_assoc, Nat.add_comm 1 i]
    exact hnext

theorem HttpHeaders.Recycles.modify {hs : HttpHeaders} (hr : hs.Recycles s (n + 1))
    {slot : Nat} (hslot : slot < hs.headersLength) (value : Bytes) :
    (hs.modify slot (·.appendValue value)).Recycles s n := by
  constructor
  · intro h hh
    obtain ⟨i, hi, hget⟩ := mem_live.mp hh
    have hget' : (hs.headers.modify slot (·.appendValue value))[i]? = some h := hget
    by_cases heq : slot = i
    · subst heq
      rw [List.getElem?_modify_eq] at hget'
      obtain ⟨h₀, hget₀, rfl⟩ := Option.map_eq_some_iff.mp hget'
      exact (hr.used h₀ (mem_live.mpr ⟨slot, hi, hget₀⟩)).appendValue value
    · rw [List.getElem?_modify_ne _ _ heq] at hget'
      exact (hr.used h (mem_live.mpr ⟨i, hi, hget'⟩)).weaken
  · intro i hi j hj
    show (((hs.headers.modify slot _)[hs.headersLength + i]?).bind _).getD [] = s
    rw [List.getElem?_modify_ne _ _ (by omega)]
    exact hr.unused i (Nat.lt_succ_of_lt hi) j (Nat.lt_succ_of_lt hj)

theorem HttpHeaders.Recycles.recycledAt {hs : HttpHeaders} (hr : hs.Recycles s (n + 1))
    {slot : Nat} (hslot : slot < hs.headersLength) : hs.recycledAt slot = s := by
  have hlt := Nat.lt_of_lt_of_le hslot hs.headersLength_le
  have hget := List.getElem?_eq_getElem hlt
  rw [HttpHeaders.recycledAt, hget]
  exact hr.used _ (mem_live.mpr ⟨slot, hslot, hget⟩) 0 (Nat.succ_pos n)

/-! ## Running a script -/

/-- **One call** on a response whose next slots all hold `s`. -/
theorem HttpHeaders.Recycles.call {r : HttpResponse} (hr : r.headers.Recycles s (n + 1))
    (c : ScriptCall) : (r.call c).headers.Recycles s n := by
  cases c with
  | setStatusCode statusCode => exact hr.weaken
  | writeBody src => exact hr.weaken
  | getCstr name =>
      show (r.headers.getCstr name true).2.Recycles s n
      unfold HttpHeaders.getCstr HttpHeaders.getCstrLen
      cases r.headers.find (cstr name) with
      | some i => exact hr.weaken
      | none => exact hr.create (cstr name)
  | appendValue slot edits =>
      by_cases hslot : slot < r.headers.headersLength
      · simp only [HttpResponse.call, if_pos hslot, modify_appendEdited]
        exact hr.modify hslot _
      · simp only [HttpResponse.call, if_neg hslot]
        exact hr.weaken

/-- **A script** on such a response leaves its plan, realized with `s`. -/
theorem run_realize (script : Script) {r : HttpResponse} (hempty : r.headers.toList = [])
    (hr : r.headers.Recycles s script.length) :
    script.plan.RealizedBy (· = s) (runScript script r).headers.toList := by
  have hrun : ∀ (script : Script) (plan : Plan) (r : HttpResponse),
      plan.RealizedBy (· = s) r.headers.toList → r.headers.Recycles s script.length →
        (script.foldl Plan.call plan).RealizedBy (· = s) (runScript script r).headers.toList := by
    intro script
    induction script with
    | nil => exact fun _ _ h _ => h
    | cons c script ih =>
        intro plan r h hr
        exact ih _ _ (h.call c fun slot _ _ hslot => hr.recycledAt hslot) (hr.call c)
  exact hrun script [] r (hempty ▸ .nil) hr

end

/-! ## Filling a response -/

/-- Names that are pairwise different up to case. -/
def fillName (i : Nat) : Bytes := List.replicate i 97 ++ [98]

/-- A header all of whose `n` values are `s`. -/
def filledHeader (n : Nat) (s : Bytes) (i : Nat) : HttpHeader :=
  ⟨fillName i, List.replicate n s, n, by simp⟩

/-- `k` headers with `n` values each. -/
def fillScript (n : Nat) (s : Bytes) (k : Nat) : Script :=
  (List.range k).flatMap fun i =>
    .getCstr (fillName i) :: List.replicate n (.appendValue i [.set s])

theorem sameName_fillName {i j : Nat} (h : i ≠ j) :
    sameName (fillName i) (fillName j) = false := by
  have hcompare : ∀ i j, i ≠ j →
      stringCompareCstrLen .caseInsensitive (fillName i) (fillName j) ≠ 0 := by
    intro i
    induction i with
    | zero =>
        intro j hj
        cases j with
        | zero => exact absurd rfl hj
        | succ j => exact of_decide_eq_true rfl
    | succ i ih =>
        intro j hj
        cases j with
        | zero => exact of_decide_eq_true rfl
        | succ j => exact ih j (fun heq => hj (congrArg (· + 1) heq))
  simpa [sameName] using hcompare i j h

theorem cstr_fillName (i : Nat) : cstr (fillName i) = fillName i := by
  have hcstr : ∀ i, cstr (fillName i) = fillName i := by
    intro i
    induction i with
    | zero => rfl
    | succ i ih => exact congrArg (97 :: ·) ih
  exact hcstr i

theorem appendEdited_filledHeader (n : Nat) (s : Bytes) (i : Nat) :
    (filledHeader n s i).appendEdited [.set s] = filledHeader (n + 1) s i := by
  have hfull : (filledHeader n s i).valuesLength = (filledHeader n s i).values.length := by
    simp [filledHeader]
  unfold HttpHeader.appendEdited HttpHeader.appendValue
  rw [dif_pos hfull]
  simp [filledHeader, editString, StringEdit.apply, List.replicate_succ']

section

variable {s : Bytes} {r : HttpResponse}

theorem modify_append_last {α : Type} (l : List α) (a : α) (f : α → α) :
    (l ++ [a]).modify l.length f = l ++ [f a] := by
  induction l with
  | nil => rfl
  | cons b l ih => exact congrArg (b :: ·) ih

/-- Appends to the last header of all. -/
theorem run_appends (m : Nat) {hs : List HttpHeader} {l : Nat}
    (hheaders : r.headers.headers = hs ++ [filledHeader l s hs.length])
    (hlength : r.headers.headersLength = hs.length + 1) :
    (runScript (List.replicate m (.appendValue hs.length [.set s])) r).headers.headers
        = hs ++ [filledHeader (l + m) s hs.length]
      ∧ (runScript (List.replicate m (.appendValue hs.length [.set s])) r).headers.headersLength
        = hs.length + 1 := by
  induction m generalizing r l with
  | zero => exact ⟨hheaders, hlength⟩
  | succ m ih =>
      have hslot : hs.length < r.headers.headersLength := by omega
      rw [List.replicate_succ, runScript_cons]
      have hcall : (r.call (.appendValue hs.length [.set s])).headers.headers
          = hs ++ [filledHeader (l + 1) s hs.length] := by
        simp only [HttpResponse.call, if_pos hslot, HttpHeaders.modify, hheaders]
        rw [modify_append_last, appendEdited_filledHeader]
      have hnext := ih hcall
        (by simpa only [HttpResponse.call, if_pos hslot, HttpHeaders.modify] using hlength)
      rwa [show l + 1 + m = l + (m + 1) by omega] at hnext

/-- What the filling leaves: `k` filled headers and no free slots. -/
theorem run_fill (n k : Nat) :
    (runScript (fillScript n s k) .init).headers.headers = (List.range k).map (filledHeader n s)
      ∧ (runScript (fillScript n s k) .init).headers.headersLength = k := by
  induction k with
  | zero => exact ⟨rfl, rfl⟩
  | succ k ih =>
      obtain ⟨hheaders, hlength⟩ := ih
      have hscript : fillScript n s (k + 1) = fillScript n s k
          ++ .getCstr (fillName k) :: List.replicate n (.appendValue k [.set s]) := by
        simp [fillScript, List.range_succ]
      rw [hscript, runScript_append, runScript_cons]
      generalize runScript (fillScript n s k) .init = r at hheaders hlength ⊢
      have hk : ((List.range k).map (filledHeader n s)).length = k := by simp
      have hmissing : r.headers.find (fillName k) = none := by
        apply List.findIdx?_eq_none_iff.mpr
        intro h hh
        rw [HttpHeaders.live, hheaders] at hh
        obtain ⟨i, hi, rfl⟩ := List.mem_map.mp (List.mem_of_mem_take hh)
        exact sameName_fillName (Nat.ne_of_lt (List.mem_range.mp hi))
      have hfull : r.headers.headersLength = r.headers.headers.length := by
        rw [hheaders, hk, hlength]
      have hcreate : (r.call (.getCstr (fillName k))).headers = r.headers.create (fillName k) := by
        simp only [HttpResponse.call, HttpHeaders.getCstr, HttpHeaders.getCstrLen, cstr_fillName,
          hmissing, if_true]
      have hnew : (r.headers.create (fillName k)).headers
          = (List.range k).map (filledHeader n s)
            ++ [filledHeader 0 s ((List.range k).map (filledHeader n s)).length] := by
        unfold HttpHeaders.create
        rw [dif_pos hfull, hk]
        simp only [hheaders]
        rfl
      have happends := run_appends (s := s) (r := r.call (.getCstr (fillName k))) n
        (hcreate ▸ hnew) (by rw [hcreate, (create_slots _ _).1, hlength, hk])
      rw [hk, Nat.zero_add] at happends
      refine ⟨happends.1.trans ?_, happends.2⟩
      rw [List.range_succ, List.map_append]
      rfl

end

/-- **Stale strings are reachable**: there is a response whose next slots all
hold `s`, for scripts of any length. -/
theorem exists_recycles (n : Nat) (s : Bytes) :
    ∃ r, ReachableResponse r ∧ r.clear.headers.Recycles s n := by
  refine ⟨runScript (fillScript n s n) .init, ReachableResponse.init.run _, ?_⟩
  obtain ⟨hheaders, -⟩ := run_fill (s := s) n n
  constructor
  · intro h hh
    exact absurd hh List.not_mem_nil
  · intro i hi j hj
    have hslots : (runScript (fillScript n s n) .init).clear.headers.headers
        = (List.range n).map (filledHeader n s) := hheaders
    have hzero : (runScript (fillScript n s n) .init).clear.headers.headersLength = 0 := rfl
    rw [hslots, hzero, Nat.zero_add]
    simp [filledHeader, hi, hj]

end CWebServer.Http
