import CWebServer.Uri.Parse

/-!
# Uri — Print

What `uri_append_to_string` writes for the pieces of an input, and where the
parser cuts that text.
-/

namespace CWebServer.Uri

open CWebServer.Strings CWebServer.Lib

/-! ## The text -/

/-- A host and a port as they are printed: the port in decimal. -/
def shownHostPort (p : Option Bytes × Option (Bytes × Int)) : Bytes :=
  p.1.getD [] ++ marked 58 (p.2.map fun q => decimal q.2.toNat)

/-- The authority as it is printed. -/
def Cut.shownAuthority (c : Cut) : Bytes :=
  userinfoMark (userinfoText c.authority) ++ shownHostPort (c.host, c.port)

/-- What is printed behind the authority. -/
def Cut.shownTail (c : Cut) : Bytes :=
  encode (decode c.path) ++ (marked 63 (c.query.map fun q => encode (decode q))
    ++ marked 35 (c.fragment.map fun f => encode (decode f)))

def Cut.shown (c : Cut) : Bytes :=
  stringTolower c.scheme ++ (c.shownAuthority ++ c.shownTail)

theorem uriAppendToString_eq (c : Cut) : uriAppendToString c.uri [] = c.shown := by
  have hcolon : ascii ":" = [58] := rfl
  have hat : ascii "@" = [64] := rfl
  have hmark : ascii "?" = [63] := rfl
  have hhash : ascii "#" = [35] := rfl
  have hscheme : (if c.scheme ≠ [] then [] ++ stringTolower c.scheme else [])
      = stringTolower c.scheme := by
    by_cases h : c.scheme = []
    · simp [h, stringTolower]
    · simp [h]
  have hpath : ∀ s, (if c.path ≠ [] then s ++ encode (decode c.path) else s)
      = s ++ encode (decode c.path) := by
    intro s
    by_cases h : c.path = []
    · simp [h]
    · simp [h]
  unfold uriAppendToString Cut.shown Cut.shownAuthority Cut.shownTail shownHostPort
  simp only [Cut.uri, uriAppendEncodedCstrLen_eq, ← encode_eq, decide_eq_true_eq, hscheme, hpath,
    hcolon, hat, hmark, hhash]
  cases userinfoText c.authority <;> cases c.host <;> cases c.port <;> cases c.query <;>
    cases c.fragment <;> simp [userinfoMark, marked]

/-! ## Encoded text -/

/-- What is written for a byte: the byte itself, or a `%` and digits. -/
theorem encodeByte_cases (c : UInt8) :
    isPlain c = true ∧ encodeByte c = [c]
      ∨ isPlain c = false ∧ ∃ h l, encodeByte c = [37, h, l]
        ∧ isUpperHexDigit h = true ∧ isUpperHexDigit l = true := by
  obtain ⟨hhigh, hlow, -⟩ := nibbles c
  unfold encodeByte
  cases hc : isPlain c with
  | true => exact .inl ⟨rfl, rfl⟩
  | false => exact .inr ⟨rfl, _, _, rfl, (hexDigit_spec hhigh).1, (hexDigit_spec hlow).1⟩

theorem encodeByte_ne_nil (c : UInt8) : encodeByte c ≠ [] := by
  rcases encodeByte_cases c with ⟨-, h⟩ | ⟨-, _, _, h, -, -⟩ <;> simp [h]

theorem endsAuthority_cases {c : UInt8} (h : endsAuthority c = true) :
    c = 47 ∨ c = 63 ∨ c = 35 := by
  simpa [endsAuthority, or_assoc] using h

theorem endsAuthority_hexDigit {c : UInt8} (h : isUpperHexDigit c = true) :
    endsAuthority c = false := by
  cases hc : endsAuthority c with
  | false => rfl
  | true => rcases endsAuthority_cases hc with rfl | rfl | rfl <;> cases h

/-- The encoder leaves this class of delimiters alone, and writes none of it
for other characters. -/
def Kept (stop : UInt8 → Bool) : Prop :=
  ∀ c, (stop c = true → encodeByte c = [c])
    ∧ (stop c = false → ∀ b ∈ encodeByte c, stop b = false)

/-- The delimiters of a URI are plain characters. -/
theorem kept_of_endsAuthority {stop : UInt8 → Bool}
    (hstop : ∀ c, stop c = true → endsAuthority c = true) : Kept stop := by
  have hescape : ∀ b, b = 37 ∨ isUpperHexDigit b = true → stop b = false := by
    intro b hb
    cases hs : stop b with
    | false => rfl
    | true =>
        have hends := hstop b hs
        rcases hb with rfl | hb
        · cases hends
        · rw [endsAuthority_hexDigit hb] at hends
          cases hends
  intro c
  rcases encodeByte_cases c with ⟨-, heq⟩ | ⟨hplain, h, l, heq, hh, hl⟩
  · rw [heq]
    exact ⟨fun _ => rfl, fun hc b hb => by rwa [List.mem_singleton.mp hb]⟩
  · constructor
    · intro hc
      rcases endsAuthority_cases (hstop c hc) with rfl | rfl | rfl <;> cases hplain
    · rw [heq]
      simp [hescape 37 (.inl rfl), hescape h (.inr hh), hescape l (.inr hl)]

theorem endsAuthority_of_endsPath {c : UInt8} (h : endsPath c = true) : endsAuthority c = true := by
  simp only [endsPath, endsAuthority, Bool.or_eq_true, decide_eq_true_eq] at h ⊢
  tauto

theorem endsPath_of_endsQuery {c : UInt8} (h : endsQuery c = true) : endsPath c = true := by
  simp only [endsQuery, endsPath, Bool.or_eq_true, decide_eq_true_eq] at h ⊢
  exact .inr h

theorem kept_endsAuthority : Kept endsAuthority :=
  kept_of_endsAuthority fun _ h => h

theorem kept_endsPath : Kept endsPath :=
  kept_of_endsAuthority fun _ => endsAuthority_of_endsPath

theorem kept_endsQuery : Kept endsQuery :=
  kept_of_endsAuthority fun _ h => endsAuthority_of_endsPath (endsPath_of_endsQuery h)

/-- Encoded text is cut where the text itself is. -/
theorem takeWhile_encode {stop : UInt8 → Bool} (hstop : Kept stop) {r : Bytes}
    (hr : ∀ c, r.head? = some c → stop c = true) (s : Bytes) :
    (encode s ++ r).takeWhile (fun c => !stop c) = encode (s.takeWhile fun c => !stop c)
      ∧ (encode s ++ r).dropWhile (fun c => !stop c)
        = encode (s.dropWhile fun c => !stop c) ++ r := by
  induction s with
  | nil =>
      have hnone := takeWhile_append_stop (p := fun c => !stop c) (w := []) (s := r) (by simp)
        (by simpa using hr)
      simpa using hnone
  | cons c s ih =>
      rw [encode_cons, List.append_assoc]
      cases hc : stop c with
      | true =>
          rw [(hstop c).1 hc, List.singleton_append, List.takeWhile_cons_of_neg (by simp [hc]),
            List.dropWhile_cons_of_neg (by simp [hc]), List.takeWhile_cons_of_neg (by simp [hc]),
            List.dropWhile_cons_of_neg (by simp [hc]), encode_cons, (hstop c).1 hc]
          simp
      | false =>
          have hnot : ∀ b ∈ encodeByte c, (!stop b) = true := by
            intro b hb
            simp [(hstop c).2 hc b hb]
          rw [List.takeWhile_append_of_pos hnot, List.dropWhile_append_of_pos hnot, ih.1, ih.2,
            List.takeWhile_cons_of_pos (by simp [hc]), List.dropWhile_cons_of_pos (by simp [hc]),
            encode_cons]
          simp

theorem encode_eq_nil {s : Bytes} : encode s = [] ↔ s = [] := by
  cases s with
  | nil => simp
  | cons c s => simp [encodeByte_ne_nil]

theorem zero_notMem_encode (s : Bytes) : 0 ∉ encode s := by
  rw [encode_eq, List.mem_flatMap]
  rintro ⟨c, -, hc⟩
  rcases encodeByte_cases c with ⟨hplain, heq⟩ | ⟨-, h, l, heq, hh, hl⟩
  · rw [heq, List.mem_singleton] at hc
    subst hc
    cases hplain
  · rw [heq] at hc
    rcases List.mem_cons.mp hc with hc | hc
    · cases hc
    rcases List.mem_cons.mp hc with rfl | hc
    · cases hh
    · rw [← List.mem_singleton.mp hc] at hl
      cases hl

/-- The first byte of an encoded text is a slash where that of the text is. -/
theorem head_encode {s : Bytes} : (encode s).head? = some 47 ↔ s.head? = some 47 := by
  cases s with
  | nil => simp
  | cons b s =>
      rw [encode_cons, List.head?_append_of_ne_nil _ (encodeByte_ne_nil b), List.head?_cons]
      rcases encodeByte_cases b with ⟨-, heq⟩ | ⟨hplain, h, l, heq, -, -⟩
      · rw [heq]
        rfl
      · rw [heq]
        constructor
        · intro hslash
          cases hslash
        · intro hslash
          rw [Option.some.inj hslash] at hplain
          cases hplain

theorem decode_ne_nil {s : Bytes} (h : s ≠ []) : decode s ≠ [] := by
  rcases s with _ | ⟨a, _ | ⟨b, _ | ⟨c, s⟩⟩⟩
  · exact absurd rfl h
  · exact List.cons_ne_nil _ _
  · exact List.cons_ne_nil _ _
  · rw [decode, uriAppendDecodedCstrLen]
    split
    · split <;> simp [uriAppendDecodedCstrLen_eq]
    · simp [uriAppendDecodedCstrLen_eq]

end CWebServer.Uri
