import CWebServer.Http.Parse
import CWebServer.Lib.Loops
import CWebServer.Strings.Split

/-!
# Http — Values

The `while (1)` loop of `http_request_parse` over the values of a header
line. The loop stands at a piece of the text that no round has appended yet;
each round takes one value off it.
-/

namespace CWebServer.Http

open CWebServer.Strings CWebServer.Lib

/-- What the last `string_split` gave, and the header. -/
abbrev ValueLoop := (Nat × List (Nat × Nat)) × HttpHeader

/-- One round. -/
def valueRound (scratch : Bytes) : ValueLoop → ValueLoop ⊕ HttpHeader
  | ((numValueSplits, (start, stop) :: more), header) =>
      let header := header.appendValue (stringSetSubstr scratch start stop)
      match numValueSplits, more with
      | 2, (next, _) :: _ => .inl (stringSplit scratch next (ascii ",") 2 2, header)
      | _, _ => .inr header
  | ((_, []), header) => .inr header

/-- What the loop starts with behind the first `n` bytes. -/
def valueSplit (scratch : Bytes) (n : Nat) : Nat × List (Nat × Nat) :=
  stringSplit scratch n (ascii ",") 2 2

/-! ## The function of the model -/

/-- What the loop leaves with is what `appendValues` gives. -/
theorem appendValues_of_rounds {scratch : Bytes} {n fuel : Nat} {s : ValueLoop} {h : HttpHeader}
    (hrounds : Rounds (valueRound scratch) n s h) (hn : n ≤ fuel + 1) :
    appendValues scratch fuel s.1 s.2 = h := by
  induction hrounds generalizing fuel with
  | @leave s h hbody =>
      obtain ⟨⟨splits, _ | ⟨⟨start, stop⟩, more⟩⟩, header⟩ := s
      · cases hbody
        rw [appendValues]
      · unfold valueRound at hbody
        dsimp only at hbody
        split at hbody
        · cases hbody
        · rename_i hlast
          cases hbody
          rw [appendValues]
          intro _ next x more' hfuel hsplits hmore
          exact hlast next x more' hsplits hmore
  | @again n s s' h hbody hrest ih =>
      obtain ⟨⟨splits, _ | ⟨⟨start, stop⟩, more⟩⟩, header⟩ := s
      · cases hbody
      · unfold valueRound at hbody
        dsimp only at hbody
        split at hbody
        · cases hbody
          cases fuel with
          | zero =>
              -- there is a round more than these
              cases hrest <;> omega
          | succ fuel => exact ih (by omega)
        · cases hbody

/-! ## The values -/

section

variable {scratch : Bytes}

theorem stringSetSubstr_middle (x w t : Bytes) :
    stringSetSubstr (x ++ w ++ t) x.length (x ++ w).length = w := by
  cases w with
  | nil => simp [stringSetSubstr, stringAppendSubstr]
  | cons a w => simp [stringSetSubstr, stringAppendSubstr]

/-- A round takes off the text up to the next comma, or all that is left. -/
theorem valueRound_eq {x t : Bytes} (hs : scratch = x ++ t) (h : HttpHeader) :
    valueRound scratch (valueSplit scratch x.length, h)
      = (cutAt 44 t).elim (.inr (h.appendValue t)) fun p =>
        .inl (valueSplit scratch (x ++ p.1 ++ [44]).length, h.appendValue p.1) := by
  have hcomma : ascii "," = [44] := rfl
  rw [valueSplit, hcomma, stringSplit_cutAt 44 hs]
  cases hcut : cutAt 44 t with
  | none =>
      have hvalue : stringSetSubstr scratch x.length scratch.length = t := by
        have hmiddle := stringSetSubstr_middle x t []
        rw [List.append_nil, ← hs] at hmiddle
        exact hmiddle
      simp only [valueRound, hvalue]
      rfl
  | some p =>
      obtain ⟨w, u⟩ := p
      obtain ⟨ht, -, -⟩ := cutAt_some hcut
      have hvalue : stringSetSubstr scratch x.length (x ++ w).length = w := by
        rw [hs, ht, ← List.append_assoc]
        exact stringSetSubstr_middle x w (44 :: u)
      have hnext : (x ++ w).length + 1 = (x ++ w ++ [44]).length := by simp [Nat.add_assoc]
      simp only [valueRound, hvalue, hnext]
      rfl

/-- The header `h₀` has the values in front of the text `t`, which is left. -/
structure InValues (scratch : Bytes) (h₀ : HttpHeader) (s : ValueLoop) (x t : Bytes) : Prop where
  split : scratch = x ++ t
  splits : s.1 = valueSplit scratch x.length
  values : s.2.live ++ cutAll 44 t = h₀.live ++ cutAll 44 scratch
  name : s.2.name = h₀.name

theorem InValues.step {h₀ : HttpHeader} {s s' : ValueLoop} {x t : Bytes}
    (h : InValues scratch h₀ s x t) (hbody : valueRound scratch s = .inl s') :
    ∃ x' t', InValues scratch h₀ s' x' t' ∧ t'.length < t.length := by
  obtain ⟨splits, header⟩ := s
  obtain rfl : splits = valueSplit scratch x.length := h.splits
  have hround := valueRound_eq h.split header
  rw [hround] at hbody
  cases hcut : cutAt 44 t with
  | none =>
      rw [hcut] at hbody
      cases hbody
  | some p =>
      obtain ⟨w, u⟩ := p
      obtain ⟨ht, -, -⟩ := cutAt_some hcut
      rw [hcut] at hbody
      cases hbody
      refine ⟨x ++ w ++ [44], u, ?_, ?_⟩
      · exact
          { split := by rw [h.split, ht]; simp
            splits := rfl
            values := by
              have hvalues := h.values
              rw [cutAll_eq, hcut] at hvalues
              rw [HttpHeader.live_appendValue, ← hvalues, List.append_assoc]
              rfl
            name := (HttpHeader.name_appendValue _ _).trans h.name }
      · rw [ht, List.length_append, List.length_cons]
        omega

/-- What stands behind the first index of the last split. -/
def ValueLoop.left (scratch : Bytes) : ValueLoop → Nat
  | ((_, (start, _) :: _), _) => scratch.length - start
  | ((_, []), _) => 0

theorem InValues.left {h₀ : HttpHeader} {s : ValueLoop} {x t : Bytes}
    (h : InValues scratch h₀ s x t) : s.left scratch = t.length := by
  obtain ⟨splits, header⟩ := s
  obtain rfl : splits = valueSplit scratch x.length := h.splits
  have hlength : scratch.length - x.length = t.length := by
    rw [h.split, List.length_append, Nat.add_sub_cancel_left]
  have hcomma : ascii "," = [44] := rfl
  rw [valueSplit, hcomma, stringSplit_cutAt 44 h.split]
  cases cutAt 44 t <;> exact hlength

/-- **The loop over the values** ends, and appends all pieces of the text. -/
theorem exists_rounds_values (scratch : Bytes) (h₀ : HttpHeader) :
    ∃ n h, n ≤ scratch.length + 1
      ∧ Rounds (valueRound scratch) n (valueSplit scratch 0, h₀) h
      ∧ h.live = h₀.live ++ cutAll 44 scratch ∧ h.name = h₀.name := by
  have hstart : InValues scratch h₀ (valueSplit scratch 0, h₀) [] scratch :=
    ⟨rfl, rfl, rfl, rfl⟩
  let I : ValueLoop → Prop := fun s => ∃ x t, InValues scratch h₀ s x t
  have hstep : ∀ s s', I s → valueRound scratch s = .inl s' →
      I s' ∧ s'.left scratch < s.left scratch := by
    rintro s s' ⟨x, t, hs⟩ hbody
    obtain ⟨x', t', hs', hlt⟩ := hs.step hbody
    exact ⟨⟨x', t', hs'⟩, by rwa [hs.left, hs'.left]⟩
  obtain ⟨n, h, hn, hrounds⟩ :=
    exists_rounds (ValueLoop.left scratch) hstep ⟨[], scratch, hstart⟩
  rw [hstart.left] at hn
  obtain ⟨⟨splits, header⟩, ⟨x, t, hlast⟩, hbody⟩ :=
    hrounds.result ⟨[], scratch, hstart⟩ fun s s' hs hbody => (hstep s s' hs hbody).1
  refine ⟨n, h, hn, hrounds, ?_⟩
  obtain rfl : splits = valueSplit scratch x.length := hlast.splits
  rw [valueRound_eq hlast.split] at hbody
  cases hcut : cutAt 44 t with
  | some p =>
      rw [hcut] at hbody
      cases hbody
  | none =>
      rw [hcut] at hbody
      cases hbody
      have hvalues := hlast.values
      rw [cutAll_eq, hcut] at hvalues
      exact ⟨(HttpHeader.live_appendValue _ _).trans hvalues,
        (HttpHeader.name_appendValue _ _).trans hlast.name⟩

/-- The same of the function of the model. -/
theorem appendValues_cutAll (scratch : Bytes) (h : HttpHeader) :
    (appendValues scratch scratch.length (valueSplit scratch 0) h).live
        = h.live ++ cutAll 44 scratch
      ∧ (appendValues scratch scratch.length (valueSplit scratch 0) h).name = h.name := by
  obtain ⟨n, h', hn, hrounds, hlive, hname⟩ := exists_rounds_values scratch h
  have happend : appendValues scratch scratch.length (valueSplit scratch 0) h = h' :=
    appendValues_of_rounds hrounds hn
  rw [happend]
  exact ⟨hlive, hname⟩

end

/-- Joined with the delimiter, the pieces are the text again. -/
theorem intersperse_cutAll (c : UInt8) (s : Bytes) :
    ((cutAll c s).intersperse [c]).flatten = s := by
  fun_induction cutAll c s with
  | case1 => rfl
  | case2 a => rfl
  | case3 b s ih =>
      obtain ⟨w, ws, hpieces⟩ := List.exists_cons_of_ne_nil (cutAll_ne_nil c (b :: s))
      rw [hpieces] at ih ⊢
      rw [List.intersperse_cons_cons, List.flatten_cons, List.flatten_cons, ih]
      rfl
  | case4 a b s hac hnil ih => exact absurd hnil (cutAll_ne_nil c (b :: s))
  | case5 a b s hac w ws hpieces ih =>
      rw [hpieces] at ih
      cases ws with
      | nil =>
          have hw : w = b :: s := by simpa using ih
          simp [hw]
      | cons w' ws =>
          rw [List.intersperse_cons_cons, List.flatten_cons] at ih ⊢
          rw [List.cons_append, ih]

end CWebServer.Http
