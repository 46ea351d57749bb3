import CWebServer.Http.Parse
import CWebServer.Lib.Tokens

/-!
# Http — RequestLine

What `http_request_parse` makes of the first line. `Scanned p st` describes
the flags and positions after the prefix `p`, one constructor for each of the
six stages of the scan; the loop follows it byte by byte.
-/

namespace CWebServer.Http

open CWebServer.Strings CWebServer.Lib

/-- A run of spaces. -/
def Spaces (s : Bytes) : Prop := ∀ c ∈ s, c = 32

/-- A run of bytes that are no spaces, at least one. -/
def Word (s : Bytes) : Prop := s ≠ [] ∧ ∀ c ∈ s, c ≠ 32

theorem Spaces.snoc {s : Bytes} (h : Spaces s) : Spaces (s ++ [32]) := by
  intro c hc
  rcases List.mem_append.mp hc with hc | hc
  · exact h c hc
  · exact List.mem_singleton.mp hc

theorem spaces_singleton : Spaces [32] := fun _ hc => List.mem_singleton.mp hc

theorem Word.snoc {s : Bytes} {c : UInt8} (h : Word s) (hc : c ≠ 32) : Word (s ++ [c]) := by
  refine ⟨by simp, ?_⟩
  intro x hx
  rcases List.mem_append.mp hx with hx | hx
  · exact h.2 x hx
  · exact List.mem_singleton.mp hx ▸ hc

theorem word_singleton {c : UInt8} (hc : c ≠ 32) : Word [c] :=
  ⟨by simp, fun _ hx => List.mem_singleton.mp hx ▸ hc⟩

theorem Spaces.separators {s : Bytes} (h : Spaces s) : ∀ c ∈ s, decide (c = 32) = true :=
  fun c hc => by simp [h c hc]

theorem Word.not_separators {s : Bytes} (h : Word s) : ∀ c ∈ s, decide (c = 32) = false :=
  fun c hc => by simp [h.2 c hc]

theorem Spaces.tokens {s : Bytes} (h : Spaces s) : tokens (· = 32) s = [] := by
  have htokens := tokens_separators h.separators []
  rwa [List.append_nil] at htokens

/-- The tokens up to the end of the third. -/
theorem tokens_three {sp m sp₁ u sp₂ v : Bytes} (hsp : Spaces sp) (hm : Word m)
    (hsp₁ : Spaces sp₁) (hne₁ : sp₁ ≠ []) (hu : Word u) (hsp₂ : Spaces sp₂)
    (hne₂ : sp₂ ≠ []) (hv : Word v) :
    Lib.tokens (· = 32) (sp ++ m ++ sp₁ ++ u ++ sp₂ ++ v) = [m, u, v] := by
  simp only [List.append_assoc]
  rw [tokens_separators hsp.separators,
    tokens_word_separators hm.1 hm.not_separators hne₁ hsp₁.separators,
    tokens_word_separators hu.1 hu.not_separators hne₂ hsp₂.separators,
    tokens_word_end hv.1 hv.not_separators]

/-- The scan's state after the bytes `p`, as long as it goes on. -/
inductive Scanned : Bytes → RequestLine → Prop
  | beforeMethod {sp} : Spaces sp → Scanned sp {}
  | inMethod {sp m} : Spaces sp → Word m →
      Scanned (sp ++ m) { foundStartOfMethod := true, methodStart := sp.length }
  | beforeUri {sp m sp₁} : Spaces sp → Word m → Spaces sp₁ → sp₁ ≠ [] →
      Scanned (sp ++ m ++ sp₁)
        { foundStartOfMethod := true, methodStart := sp.length
          foundEndOfMethod := true, methodEnd := (sp ++ m).length }
  | inUri {sp m sp₁ u} : Spaces sp → Word m → Spaces sp₁ → sp₁ ≠ [] → Word u →
      Scanned (sp ++ m ++ sp₁ ++ u)
        { foundStartOfMethod := true, methodStart := sp.length
          foundEndOfMethod := true, methodEnd := (sp ++ m).length
          foundStartOfUri := true, uriStart := (sp ++ m ++ sp₁).length }
  | beforeProtocol {sp m sp₁ u sp₂} :
      Spaces sp → Word m → Spaces sp₁ → sp₁ ≠ [] → Word u →
      Spaces sp₂ → sp₂ ≠ [] →
      Scanned (sp ++ m ++ sp₁ ++ u ++ sp₂)
        { foundStartOfMethod := true, methodStart := sp.length
          foundEndOfMethod := true, methodEnd := (sp ++ m).length
          foundStartOfUri := true, uriStart := (sp ++ m ++ sp₁).length
          foundEndOfUri := true, uriEnd := (sp ++ m ++ sp₁ ++ u).length }
  | inProtocol {sp m sp₁ u sp₂ v} :
      Spaces sp → Word m → Spaces sp₁ → sp₁ ≠ [] → Word u →
      Spaces sp₂ → sp₂ ≠ [] → Word v →
      Scanned (sp ++ m ++ sp₁ ++ u ++ sp₂ ++ v)
        { foundStartOfMethod := true, methodStart := sp.length
          foundEndOfMethod := true, methodEnd := (sp ++ m).length
          foundStartOfUri := true, uriStart := (sp ++ m ++ sp₁).length
          foundEndOfUri := true, uriEnd := (sp ++ m ++ sp₁ ++ u).length
          foundStartOfProtocolVersion := true
          protocolVersionStart := (sp ++ m ++ sp₁ ++ u ++ sp₂).length }

theorem Scanned.notFound {p : Bytes} {st : RequestLine} (h : Scanned p st) :
    st.foundEndOfProtocolVersion = false := by
  cases h <;> rfl

/-- The tokens of a line on which the scan finds all it looks for. -/
structure Tokenized (line : Bytes) (st : RequestLine) : Prop where
  bounds : st.methodEnd ≤ line.length ∧ st.uriEnd ≤ line.length
  tokens : ∃ more, tokens (· = 32) line
    = slice line st.methodStart st.methodEnd :: slice line st.uriStart st.uriEnd :: more

theorem slice_middle (x y z : Bytes) : slice (x ++ y ++ z) x.length (x ++ y).length = y := by
  simp [slice]

/-- The positions noted so far name the first two tokens, whatever follows. -/
theorem Scanned.tokenized {sp m sp₁ u sp₂ v : Bytes} (hsp : Spaces sp) (hm : Word m)
    (hsp₁ : Spaces sp₁) (hne₁ : sp₁ ≠ []) (hu : Word u) (hsp₂ : Spaces sp₂)
    (hne₂ : sp₂ ≠ []) {st : RequestLine} (hms : st.methodStart = sp.length)
    (hme : st.methodEnd = (sp ++ m).length) (hus : st.uriStart = (sp ++ m ++ sp₁).length)
    (hue : st.uriEnd = (sp ++ m ++ sp₁ ++ u).length) :
    Tokenized (sp ++ m ++ sp₁ ++ u ++ sp₂ ++ v) st := by
  have hmethod : slice (sp ++ m ++ sp₁ ++ u ++ sp₂ ++ v) sp.length (sp ++ m).length = m := by
    have := slice_middle sp m (sp₁ ++ u ++ sp₂ ++ v)
    simpa only [List.append_assoc] using this
  have huri : slice (sp ++ m ++ sp₁ ++ u ++ sp₂ ++ v) (sp ++ m ++ sp₁).length
      (sp ++ m ++ sp₁ ++ u).length = u := by
    have := slice_middle (sp ++ m ++ sp₁) u (sp₂ ++ v)
    simpa only [List.append_assoc] using this
  refine ⟨?_, tokens (· = 32) v, ?_⟩
  · rw [hme, hue]
    simp only [List.length_append]
    omega
  · rw [hms, hme, hus, hue, hmethod, huri]
    simp only [List.append_assoc]
    rw [tokens_separators hsp.separators,
      tokens_word_separators hm.1 hm.not_separators hne₁ hsp₁.separators,
      tokens_word_separators hu.1 hu.not_separators hne₂ hsp₂.separators]

/-- The scan is in the third token. -/
theorem Scanned.inThird {p : Bytes} {st : RequestLine} (h : Scanned p st)
    (hst : st.foundStartOfProtocolVersion = true) :
    ∃ m u v, Word v ∧ (∀ c, c ≠ 32 → tokens (· = 32) (p ++ [c]) = [m, u, v ++ [c]])
      ∧ (∀ s, tokens (· = 32) (p ++ 32 :: s) = m :: u :: v :: tokens (· = 32) s)
      ∧ ∀ s st', st'.methodStart = st.methodStart → st'.methodEnd = st.methodEnd →
        st'.uriStart = st.uriStart → st'.uriEnd = st.uriEnd → Tokenized (p ++ s) st' := by
  cases h with
  | beforeMethod _ | inMethod _ _ | beforeUri _ _ _ _ | inUri _ _ _ _ _
  | beforeProtocol _ _ _ _ _ _ _ => cases hst
  | @inProtocol sp m sp₁ u sp₂ v hsp hm hsp₁ hne₁ hu hsp₂ hne₂ hv =>
      have hall := tokens_three hsp hm hsp₁ hne₁ hu hsp₂ hne₂ hv
      refine ⟨m, u, v, hv, ?_, ?_, ?_⟩
      · intro c hc
        rw [List.append_assoc]
        exact tokens_three hsp hm hsp₁ hne₁ hu hsp₂ hne₂ (hv.snoc hc)
      · intro s
        rw [tokens_append_cons _ (by simp), hall]
        rfl
      · intro s st' hms hme hus hue
        have htok :=
          Scanned.tokenized (v := v ++ s) hsp hm hsp₁ hne₁ hu hsp₂ hne₂ hms hme hus hue
        simpa only [List.append_assoc] using htok

/-- Before that there are fewer than three tokens. -/
theorem Scanned.length_tokens {p : Bytes} {st : RequestLine} (h : Scanned p st)
    (hst : st.foundStartOfProtocolVersion = false) : (tokens (· = 32) p).length < 3 := by
  have hnil : Lib.tokens (· = 32) ([] : Bytes) = [] := rfl
  cases h with
  | beforeMethod hsp =>
      rw [hsp.tokens]
      decide
  | inMethod hsp hm =>
      rw [tokens_separators hsp.separators, tokens_word_end hm.1 hm.not_separators]
      simp
  | @beforeUri sp m sp₁ hsp hm hsp₁ hne₁ =>
      have hmethod := tokens_word_separators hm.1 hm.not_separators hne₁ hsp₁.separators []
      rw [List.append_nil, hnil] at hmethod
      rw [List.append_assoc, tokens_separators hsp.separators, hmethod]
      simp
  | @inUri sp m sp₁ u hsp hm hsp₁ hne₁ hu =>
      simp only [List.append_assoc]
      rw [tokens_separators hsp.separators,
        tokens_word_separators hm.1 hm.not_separators hne₁ hsp₁.separators,
        tokens_word_end hu.1 hu.not_separators]
      simp
  | @beforeProtocol sp m sp₁ u sp₂ hsp hm hsp₁ hne₁ hu hsp₂ hne₂ =>
      have huri := tokens_word_separators hu.1 hu.not_separators hne₂ hsp₂.separators []
      rw [List.append_nil, hnil] at huri
      simp only [List.append_assoc]
      rw [tokens_separators hsp.separators,
        tokens_word_separators hm.1 hm.not_separators hne₁ hsp₁.separators, huri]
      simp
  | inProtocol _ _ _ _ _ _ _ _ => cases hst

/-- The third token of the line is its last byte. -/
def LoneLastByte (line : Bytes) : Prop :=
  ∃ m u c, tokens (· = 32) line = [m, u, [c]] ∧ line.getLast? = some c

/-- **One byte of the scan**: it is the end of the third token, or it belongs
to the next stage. -/
theorem Scanned.step {p : Bytes} {st : RequestLine} (h : Scanned p st) (e : Nat) (c : UInt8)
    (s : Bytes) :
    if st.foundStartOfProtocolVersion = true ∧ (c = 32 ∨ p.length = e - 1) then
      ∃ stop, scanRequestLine e (c :: s) p.length st
        = { st with foundEndOfProtocolVersion := true, protocolVersionEnd := stop }
    else ∃ st', Scanned (p ++ [c]) st'
      ∧ scanRequestLine e (c :: s) p.length st = scanRequestLine e s (p ++ [c]).length st'
      ∧ (st'.foundStartOfProtocolVersion = true → st.foundStartOfProtocolVersion = true
        ∨ LoneLastByte (p ++ [c])) := by
  rw [List.length_append, List.length_singleton]
  cases h with
  | beforeMethod hsp =>
      rw [if_neg (by simp)]
      by_cases hc : c = 32
      · subst hc
        exact ⟨_, .beforeMethod hsp.snoc, by simp [scanRequestLine], by simp⟩
      · exact ⟨_, .inMethod hsp (word_singleton hc), by simp [scanRequestLine, hc], by simp⟩
  | @inMethod sp m hsp hm =>
      rw [if_neg (by simp)]
      by_cases hc : c = 32
      · subst hc
        exact ⟨_, .beforeUri hsp hm spaces_singleton (by simp),
          by simp [scanRequestLine], by simp⟩
      · have h' := Scanned.inMethod hsp (hm.snoc hc)
        rw [← List.append_assoc] at h'
        exact ⟨_, h', by simp [scanRequestLine, hc], by simp⟩
  | @beforeUri sp m sp₁ hsp hm hsp₁ hne₁ =>
      rw [if_neg (by simp)]
      by_cases hc : c = 32
      · subst hc
        have h' := Scanned.beforeUri hsp hm hsp₁.snoc (by simp)
        rw [← List.append_assoc] at h'
        exact ⟨_, h', by simp [scanRequestLine], by simp⟩
      · exact ⟨_, .inUri hsp hm hsp₁ hne₁ (word_singleton hc), by simp [scanRequestLine, hc],
          by simp⟩
  | @inUri sp m sp₁ u hsp hm hsp₁ hne₁ hu =>
      rw [if_neg (by simp)]
      by_cases hc : c = 32
      · subst hc
        exact ⟨_, .beforeProtocol hsp hm hsp₁ hne₁ hu spaces_singleton (by simp),
          by simp [scanRequestLine], by simp⟩
      · have h' := Scanned.inUri hsp hm hsp₁ hne₁ (hu.snoc hc)
        rw [← List.append_assoc] at h'
        exact ⟨_, h', by simp [scanRequestLine, hc], by simp⟩
  | @beforeProtocol sp m sp₁ u sp₂ hsp hm hsp₁ hne₁ hu hsp₂ hne₂ =>
      rw [if_neg (by simp)]
      by_cases hc : c = 32
      · subst hc
        have h' := Scanned.beforeProtocol hsp hm hsp₁ hne₁ hu hsp₂.snoc (by simp)
        rw [← List.append_assoc] at h'
        exact ⟨_, h', by simp [scanRequestLine], by simp⟩
      · have h' := Scanned.inProtocol hsp hm hsp₁ hne₁ hu hsp₂ hne₂ (word_singleton hc)
        have hthree := tokens_three hsp hm hsp₁ hne₁ hu hsp₂ hne₂ (word_singleton hc)
        exact ⟨_, h', by simp [scanRequestLine, hc],
          fun _ => .inr ⟨m, u, c, hthree, List.getLast?_concat⟩⟩
  | @inProtocol sp m sp₁ u sp₂ v hsp hm hsp₁ hne₁ hu hsp₂ hne₂ hv =>
      by_cases hc : c = 32
      · subst hc
        rw [if_pos ⟨rfl, .inl rfl⟩]
        exact ⟨_, by simp [scanRequestLine]; rfl⟩
      · by_cases he : (sp ++ m ++ sp₁ ++ u ++ sp₂ ++ v).length = e - 1
        · rw [if_pos ⟨rfl, .inr he⟩]
          refine ⟨e - 1 + 1, ?_⟩
          simp only [scanRequestLine, hc, he, Bool.not_true, Bool.not_false, Bool.false_eq_true,
            decide_false, if_true, if_false]
        · rw [if_neg (by simp only [hc, he]; simp)]
          have h' := Scanned.inProtocol hsp hm hsp₁ hne₁ hu hsp₂ hne₂ (hv.snoc hc)
          rw [← List.append_assoc] at h'
          refine ⟨_, h', ?_, fun _ => .inl rfl⟩
          rw [scanRequestLine]
          simp only [hc, if_neg he, Bool.not_true, Bool.not_false, Bool.false_eq_true,
            decide_false, if_true, if_false]

/-- **The scan of the request line**: what it finds are tokens of the line. -/
theorem scanRequestLine_tokenized (e : Nat) {s p : Bytes} {st : RequestLine} (h : Scanned p st)
    (hfound : (scanRequestLine e s p.length st).foundEndOfProtocolVersion = true) :
    Tokenized (p ++ s) (scanRequestLine e s p.length st) := by
  induction s generalizing p st with
  | nil =>
      rw [scanRequestLine, h.notFound] at hfound
      cases hfound
  | cons c s ih =>
      have hstep := h.step e c s
      split at hstep
      · rename_i hstop
        obtain ⟨stop, heq⟩ := hstep
        obtain ⟨_, _, _, -, -, -, htokenized⟩ := h.inThird hstop.1
        rw [heq]
        exact htokenized (c :: s) _ rfl rfl rfl rfl
      · obtain ⟨st', h', heq, -⟩ := hstep
        rw [heq] at hfound ⊢
        have hrest := ih h' hfound
        rwa [List.append_assoc, List.singleton_append] at hrest

/-- **When the scan succeeds**: there is a third token, and it is not the last
byte of the line alone. -/
theorem scanRequestLine_found_iff {s p : Bytes} {st : RequestLine} (h : Scanned p st)
    (hend : s = [] → st.foundStartOfProtocolVersion = true → LoneLastByte p) :
    (scanRequestLine (p ++ s).length s p.length st).foundEndOfProtocolVersion = true
      ↔ 3 ≤ (tokens (· = 32) (p ++ s)).length ∧ ¬LoneLastByte (p ++ s) := by
  induction s generalizing p st with
  | nil =>
      rw [scanRequestLine, h.notFound, List.append_nil]
      constructor
      · exact fun hfound => nomatch hfound
      · rintro ⟨hthree, hlone⟩
        cases hst : st.foundStartOfProtocolVersion with
        | false => exact absurd (h.length_tokens hst) (Nat.not_lt.mpr hthree)
        | true => exact absurd (hend rfl hst) hlone
  | cons c s ih =>
      have hstep := h.step (p ++ c :: s).length c s
      split at hstep
      · rename_i hstop
        obtain ⟨hst, hwhere⟩ := hstop
        obtain ⟨stop, heq⟩ := hstep
        obtain ⟨m, u, v, hv, hbyte, hbehind, -⟩ := h.inThird hst
        rw [heq]
        refine iff_of_true rfl ?_
        by_cases hc : c = 32
        · subst hc
          rw [hbehind]
          refine ⟨by simp, ?_⟩
          rintro ⟨m', u', y, hlone, hlast⟩
          rw [hbehind] at hlone
          -- nothing but spaces is left, but the line ends in the third token
          obtain ⟨hvy, hrest⟩ : v = [y] ∧ tokens (· = 32) s = [] :=
            List.cons.inj (List.cons.inj (List.cons.inj hlone).2).2
          have hspaces : Spaces (32 :: s) := by
            intro z hz
            rcases List.mem_cons.mp hz with rfl | hz
            · rfl
            · simpa using separators_of_tokens_nil hrest z hz
          have hy : y = 32 := by
            apply hspaces y
            rw [List.getLast?_append_of_ne_nil _ (by simp)] at hlast
            exact List.mem_of_getLast? hlast
          exact hv.2 y (by simp [hvy]) hy
        · -- the last byte, with others of the token before it
          have hs : s = [] := by
            have hlen := hwhere.resolve_left hc
            rw [List.length_append, List.length_cons] at hlen
            exact List.eq_nil_of_length_eq_zero (by omega)
          subst hs
          rw [hbyte c hc]
          refine ⟨by simp, ?_⟩
          rintro ⟨m', u', y, hlone, -⟩
          rw [hbyte c hc] at hlone
          obtain ⟨hvy, -⟩ := List.cons.inj (List.cons.inj (List.cons.inj hlone).2).2
          have hlen := congrArg List.length hvy
          have hpos := List.length_pos_iff.mpr hv.1
          rw [List.length_append, List.length_singleton, List.length_singleton] at hlen
          omega
      · rename_i hstop
        obtain ⟨st', h', heq, hnew⟩ := hstep
        rw [heq]
        have hrest := ih h' (by
          rintro rfl hst'
          refine (hnew hst').resolve_left fun hst => hstop ⟨hst, .inr ?_⟩
          rw [List.length_append]
          rfl)
        rwa [List.append_assoc, List.singleton_append] at hrest

theorem tokenized_of_found {line : Bytes}
    (hfound : (scanRequestLine line.length line 0 {}).foundEndOfProtocolVersion = true) :
    Tokenized line (scanRequestLine line.length line 0 {}) :=
  scanRequestLine_tokenized line.length (p := []) (.beforeMethod (by simp [Spaces])) hfound

/-- The method and the URI of a line on which the scan succeeds. -/
def requestLine (line : Bytes) : Option (Bytes × Bytes) :=
  let st := scanRequestLine line.length line 0 {}
  if st.foundEndOfProtocolVersion then
    some (slice line st.methodStart st.methodEnd, slice line st.uriStart st.uriEnd)
  else none

/-- They are its first two tokens. -/
theorem requestLine_tokens {line method uri : Bytes} (h : requestLine line = some (method, uri)) :
    ∃ more, tokens (· = 32) line = method :: uri :: more := by
  simp only [requestLine] at h
  split at h
  · rename_i hfound
    cases h
    exact (tokenized_of_found hfound).tokens
  · cases h

theorem requestLine_isSome_iff (line : Bytes) :
    (requestLine line).isSome = true
      ↔ 3 ≤ (tokens (· = 32) line).length ∧ ¬LoneLastByte line := by
  have hbegin : Scanned [] {} := .beforeMethod (by simp [Spaces])
  have hfound := scanRequestLine_found_iff (s := line) hbegin (fun _ hst => nomatch hst)
  rw [List.nil_append, List.length_nil] at hfound
  rw [← hfound, requestLine]
  cases (scanRequestLine line.length line 0 {}).foundEndOfProtocolVersion <;> simp

theorem slice_append_left {x : Bytes} {start stop : Nat} (h : stop ≤ x.length) (y : Bytes) :
    slice (x ++ y) start stop = slice x start stop := by
  by_cases hs : start ≤ x.length
  · rw [slice, slice, List.drop_append_of_le_length hs, List.take_append_of_le_length]
    simp only [List.length_drop]
    omega
  · have hempty : stop - start = 0 := by omega
    simp [slice, hempty]

/-- `parseRequestLine` looks at nothing behind the line. -/
theorem parseRequestLine_eq {r : HttpRequest} {line rest : Bytes}
    (hbuf : r.readBuf = line ++ rest) :
    parseRequestLine r line.length =
      match requestLine line with
      | some (method, uri) => .ok { r with method := method, uri := uri }
      | none => .error { r with scratch := line } := by
  have hline : r.readBuf.take line.length = line := by rw [hbuf, List.take_left']; rfl
  simp only [parseRequestLine, requestLine, hline]
  by_cases hfound : (scanRequestLine line.length line 0 {}).foundEndOfProtocolVersion = true
  · have hb := (tokenized_of_found hfound).bounds
    simp only [hfound, if_true]
    rw [hbuf, slice_append_left hb.1, slice_append_left hb.2]
  · simp [hfound]

end CWebServer.Http
