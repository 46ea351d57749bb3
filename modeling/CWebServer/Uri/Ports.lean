import CWebServer.Strings.Integers
import CWebServer.Uri.HostPort

/-!
# Uri — Ports

What the parser takes for a port. It reads the text behind the last `:` with
`%i`, which has white space, signs, and octal and hexadecimal numbers besides
the decimal digits of RFC 3986, and cuts the number down to an `int`.
-/

namespace CWebServer.Uri

open CWebServer.Strings CWebServer.Lib

/-- Decimal digits whose value is a port. -/
def DecimalPort (t : Bytes) : Prop :=
  t ≠ [] ∧ (∀ c ∈ t, isdigit c = true) ∧ decimalValue t ≤ 65535

/-- A byte that is neither a space nor a tab. -/
def NonBlank (host : Bytes) : Prop :=
  ∃ c ∈ host, c ≠ 32 ∧ c ≠ 9

/-- The port of an input by RFC 3986: the digits behind the last `:`. -/
structure PortRule (x : Bytes) : Prop where
  hasHost : (uriParseCstr x).2.hasPort = true → (uriParseCstr x).2.hasHost = true
  decimal : (uriParseCstr x).2.hasPort = true → DecimalPort (uriParseCstr x).2.portStr
    ∧ (uriParseCstr x).2.port = decimalValue (uriParseCstr x).2.portStr
  hasPort : ∀ host t, hostPortText (uriParseCstr x).2.authority = host ++ 58 :: t →
    NonBlank host → DecimalPort t →
      (uriParseCstr x).2.hasPort = true ∧ (uriParseCstr x).2.portStr = t
        ∧ (uriParseCstr x).2.port = decimalValue t

/-- `t` stands behind the last `:` of the authority, and a host in front. -/
def PortText (x t : Bytes) : Prop :=
  ∃ host, hostPortText (cut x).authority = host ++ 58 :: t ∧ 58 ∉ t ∧ NonBlank host

/-- A number in C that is a port once it is an `int`. -/
def CPort (t : Bytes) (port : Int) : Prop :=
  t.length < 2 ^ 31 ∧ ∃ z, CInteger t z ∧ port = toInt (clampLong z) ∧ 0 ≤ port
    ∧ port < 65536

/-- Decimal digits of a port do not begin with 0, unless they make up a number
below 8, and no other text is a number in C that becomes a port. -/
def PlainPort (t : Bytes) : Prop :=
  (DecimalPort t → t.length < 2 ^ 31 ∧ (t.head? = some 48 → decimalValue t < 8))
    ∧ (¬DecimalPort t → ∀ port, ¬CPort t port)

/-! ## The number -/

theorem scanPort_iff {t : Bytes} (hzero : 0 ∉ t) (port : Int) :
    scanPort t = some port ↔ CPort t port := by
  have hwhole := sscanfI_whole hzero
  unfold scanPort CPort
  constructor
  · intro h
    cases hscan : sscanfI t with
    | none =>
        rw [hscan] at h
        cases h
    | some p =>
        obtain ⟨v, n⟩ := p
        rw [hscan] at h
        dsimp only at h
        split at h
        · rename_i hport
          obtain ⟨hlow, hhigh, rfl⟩ := hport
          cases h
          obtain ⟨hlength, z, hz, hv⟩ := (hwhole _).mp hscan
          exact ⟨hlength, z, hz, hv, hlow, hhigh⟩
        · cases h
  · rintro ⟨hlength, z, hz, hport, hlow, hhigh⟩
    rw [(hwhole port).mpr ⟨hlength, z, hz, hport⟩]
    dsimp only
    rw [if_pos ⟨hlow, hhigh, rfl⟩]

/-- A number that fits is not changed. -/
theorem toInt_clampLong {n : Nat} (h : n ≤ 65535) : toInt (clampLong (n : Int)) = n := by
  rw [clampLong_of_lt (by omega), toInt_of_lt (by omega)]

/-- **Decimal digits are read as such** exactly if they are not octal. -/
theorem cPort_decimal {t : Bytes} (h : DecimalPort t) :
    CPort t (decimalValue t)
      ↔ t.length < 2 ^ 31 ∧ (t.head? = some 48 → decimalValue t < 8) := by
  obtain ⟨hne, hdigits, hvalue⟩ := h
  have hten := numberValue_ten hdigits
  constructor
  · rintro ⟨hlength, z, hz, hport, -⟩
    refine ⟨hlength, ?_⟩
    intro hhead
    obtain ⟨s, rfl⟩ := List.head?_eq_some_iff.mp hhead
    obtain ⟨n, hn, rfl⟩ := hz.digits hdigits
    obtain ⟨hoctal, rfl⟩ :=
      hn.octal_of_digits fun c hc => hdigits c (List.mem_cons_of_mem 48 hc)
    rw [numberValue_zero] at hten
    by_contra hlarge
    have hlt := octal_lt (s := s) (by omega) hoctal
    rw [toInt_clampLong (by omega)] at hport
    omega
  · rintro ⟨hlength, hsmall⟩
    refine ⟨hlength, (decimalValue t : Nat), .plain ?_, (toInt_clampLong hvalue).symm, by omega,
      by omega⟩
    by_cases hhead : t.head? = some 48
    · have hlt := hsmall hhead
      obtain ⟨s, rfl⟩ := List.head?_eq_some_iff.mp hhead
      rw [numberValue_zero] at hten
      obtain ⟨hoctal, heq⟩ := octal_eq (s := s) (by omega)
        fun c hc => hdigits c (List.mem_cons_of_mem 48 hc)
      rw [← hten, ← heq]
      exact .octal hoctal
    · rw [← hten]
      exact .decimal hne hhead hdigits

/-- There is no other port in decimal digits of a port. -/
theorem cPort_unique {t : Bytes} {port port' : Int} (h : CPort t port) (h' : CPort t port') :
    port = port' := by
  obtain ⟨-, z, hz, rfl, -⟩ := h
  obtain ⟨-, z', hz', rfl, -⟩ := h'
  obtain ⟨n, hn, rfl⟩ := cInteger_iff.mp hz
  obtain ⟨n', hn', rfl⟩ := cInteger_iff.mp hz'
  have hnumber := (numeral_iff.mp hn).2.2.trans (numeral_iff.mp hn').2.2.symm
  rw [hnumber]

/-- A text is plain if it is a port in both notations or in neither. -/
theorem plainPort_iff (t : Bytes) :
    PlainPort t ↔ ∀ port, CPort t port ↔ DecimalPort t ∧ port = decimalValue t := by
  by_cases hdecimal : DecimalPort t
  · have hiff := cPort_decimal hdecimal
    constructor
    · intro hplain port
      have hport := hiff.mpr (hplain.1 hdecimal)
      constructor
      · exact fun h => ⟨hdecimal, cPort_unique h hport⟩
      · rintro ⟨-, rfl⟩
        exact hport
    · intro hall
      exact ⟨fun _ => hiff.mp ((hall _).mpr ⟨hdecimal, rfl⟩),
        fun hno => absurd hdecimal hno⟩
  · constructor
    · intro hplain port
      exact iff_of_false (hplain.2 hdecimal port) fun h => hdecimal h.1
    · intro hall
      exact ⟨fun h => absurd h hdecimal, fun _ port h => hdecimal ((hall port).mp h).1⟩

/-! ## The host in front -/

theorem trimmedHost_isSome {host : Bytes} (hzero : 0 ∉ host) :
    (trimmedHost host).isSome = true ↔ NonBlank host := by
  have hblank : ∀ c, tolower c ∈ ascii " \t" ↔ c = 32 ∨ c = 9 :=
    forall_byte (p := fun c => tolower c ∈ ascii " \t" ↔ c = 32 ∨ c = 9) (by decide)
  have hnil : trim (ascii " \t") (stringTolower host) = [] ↔ ¬NonBlank host := by
    rw [trim_eq_nil, stringTolower, List.forall_mem_map]
    simp only [hblank, NonBlank, not_exists, not_and, not_not]
    constructor
    · intro h c hc h32
      exact (h c hc).resolve_left h32
    · intro h c hc
      by_cases h32 : c = 32
      · exact .inl h32
      · exact .inr (h c hc h32)
  rw [trimmedHost_eq hzero]
  split
  · rename_i hempty
    exact iff_of_false (by simp) (hnil.mp hempty)
  · rename_i hne
    exact iff_of_true rfl (not_not.mp fun h => hne (hnil.mpr h))

/-- The port is what `%i` makes of the text behind the last `:`. -/
theorem hostPort_nonBlank (anchored : Bool) {host t : Bytes} (hzero : 0 ∉ host) (ht : 58 ∉ t)
    (hhost : NonBlank host) :
    (hostPort anchored (host ++ 58 :: t)).1.isSome = true
      ∧ (hostPort anchored (host ++ 58 :: t)).2 = (scanPort t).map fun port => (t, port) := by
  have hne : host ≠ [] := by
    rintro rfl
    obtain ⟨c, hc, -⟩ := hhost
    cases hc
  obtain ⟨h, htrimmed⟩ := Option.isSome_iff_exists.mp ((trimmedHost_isSome hzero).mpr hhost)
  rw [hostPort, portCut_eq hne ht]
  simp only [htrimmed]
  cases scanPort t with
  | none => exact ⟨rfl, rfl⟩
  | some port => exact ⟨rfl, rfl⟩

/-- Where there is a port, there is a host in front of it. -/
theorem exists_of_hostPort {anchored : Bool} {w : Bytes} (hzero : 0 ∉ w)
    (h : (hostPort anchored w).2.isSome = true) :
    ∃ host t, w = host ++ 58 :: t ∧ 58 ∉ t ∧ NonBlank host := by
  unfold hostPort at h
  cases hcut : portCut anchored w with
  | none =>
      rw [hcut] at h
      cases h
  | some p =>
      obtain ⟨host, t⟩ := p
      obtain ⟨hw, ht⟩ := portCut_some hcut
      refine ⟨host, t, hw, ht, (trimmedHost_isSome ?_).mp ?_⟩
      · exact fun hmem => hzero (hw ▸ List.mem_append_left _ hmem)
      · simp only [hcut] at h
        cases htrimmed : trimmedHost host with
        | none =>
            simp only [htrimmed] at h
            cases h
        | some host => rfl

/-! ## The rule -/

section

variable {x : Bytes} (hzero : 0 ∉ x)
include hzero

theorem uriParseCstr_hostPort :
    (uriParseCstr x).2.authority = (cut x).authority
      ∧ (uriParseCstr x).2.hasHost = (cut x).host.isSome
      ∧ (uriParseCstr x).2.hasPort = (cut x).port.isSome
      ∧ (uriParseCstr x).2.portStr = ((cut x).port.map (·.1)).getD []
      ∧ (uriParseCstr x).2.port = ((cut x).port.map (·.2)).getD 0 := by
  have hfront := uriParseCstr_front hzero
  -- so that no field is looked for in the code of the parser
  generalize (uriParseCstr x).2 = u at hfront ⊢
  exact ⟨congrArg Uri.authority hfront, congrArg Uri.hasHost hfront, congrArg Uri.hasPort hfront,
    congrArg Uri.portStr hfront, congrArg Uri.port hfront⟩

/-- The components are those that RFC 3986 has where the text is read the same
way in both notations. -/
theorem portText_iff {host t : Bytes} (hw : hostPortText (cut x).authority = host ++ 58 :: t)
    (ht : 58 ∉ t) (hhost : NonBlank host) : PortRule x ↔ PlainPort t := by
  obtain ⟨hauthority, hhas, hasPort, hstr, hport⟩ := uriParseCstr_hostPort hzero
  have hzeros : 0 ∉ hostPortText (cut x).authority :=
    fun h => (zero_notMem_cut hzero).2 (hostPortText_subset _ h)
  rw [hw] at hzeros
  have hzeroHost : 0 ∉ host := fun h => hzeros (List.mem_append_left _ h)
  have hzeroText : 0 ∉ t := fun h => hzeros (List.mem_append_right _ (List.mem_cons_of_mem _ h))
  obtain ⟨hsome, hscan⟩ := hostPort_nonBlank (cut x).anchored hzeroHost ht hhost
  rw [← hw] at hsome hscan
  change (cut x).host.isSome = true at hsome
  change (cut x).port = _ at hscan
  rw [hscan] at hasPort hstr hport
  rw [plainPort_iff]
  simp only [← scanPort_iff hzeroText]
  constructor
  · intro hrule port
    constructor
    · intro hp
      have hdecimal := hrule.decimal (by rw [hasPort, hp]; rfl)
      rw [hstr, hport, hp] at hdecimal
      exact hdecimal
    · rintro ⟨hdecimal, rfl⟩
      obtain ⟨hyes, -, hvalue⟩ := hrule.hasPort host t (by rw [hauthority, hw]) hhost hdecimal
      rw [hasPort] at hyes
      cases hp : scanPort t with
      | none =>
          rw [hp] at hyes
          cases hyes
      | some port =>
          rw [hport, hp] at hvalue
          exact congrArg some hvalue
  · intro hall
    refine ⟨fun _ => hhas.trans hsome, ?_, ?_⟩
    · intro hyes
      cases hp : scanPort t with
      | none =>
          rw [hasPort, hp] at hyes
          cases hyes
      | some port =>
          rw [hstr, hport, hp]
          exact (hall port).mp hp
    · intro host' t' hw' _ hdecimal
      have hcolon : 58 ∉ t' := fun h => absurd (hdecimal.2.1 58 h) (by decide)
      have hsplit := splitLast_append hcolon host'
      rw [← hw', hauthority, hw, splitLast_append ht host] at hsplit
      cases hsplit
      have hp := (hall _).mpr ⟨hdecimal, rfl⟩
      rw [hasPort, hstr, hport, hp]
      exact ⟨rfl, rfl, rfl⟩

/-- **The port is that of RFC 3986** exactly if the text behind the last `:`
is no number in another notation. -/
theorem portRule_iff : PortRule x ↔ ∀ t, PortText x t → PlainPort t := by
  constructor
  · rintro hrule t ⟨host, hw, ht, hhost⟩
    exact (portText_iff hzero hw ht hhost).mp hrule
  · intro hplain
    by_cases htext : ∃ t, PortText x t
    · obtain ⟨t, ht⟩ := htext
      obtain ⟨host, hw, hcolon, hhost⟩ := ht
      exact (portText_iff hzero hw hcolon hhost).mpr (hplain t ⟨host, hw, hcolon, hhost⟩)
    · -- without a host in front of a `:` there is no port either way
      obtain ⟨hauthority, -, hasPort, -⟩ := uriParseCstr_hostPort hzero
      have hnone : (uriParseCstr x).2.hasPort = false := by
        rw [hasPort, ← Bool.not_eq_true]
        intro hyes
        obtain ⟨host, t, hw, ht, hhost⟩ := exists_of_hostPort
          (fun h => (zero_notMem_cut hzero).2 (hostPortText_subset _ h)) hyes
        exact htext ⟨t, host, hw, ht, hhost⟩
      refine ⟨?_, ?_, ?_⟩
      · intro hyes
        rw [hnone] at hyes
        cases hyes
      · intro hyes
        rw [hnone] at hyes
        cases hyes
      · intro host t hw hhost hdecimal
        rw [hauthority] at hw
        have hcolon : 58 ∉ t := fun h => absurd (hdecimal.2.1 58 h) (by decide)
        exact absurd ⟨t, host, hw, hcolon, hhost⟩ htext

end

theorem portRule_iff_telnet :
    PortRule (ascii "telnet://192.0.2.16:80/")
      ↔ ∀ t, PortText (ascii "telnet://192.0.2.16:80/") t → PlainPort t :=
  portRule_iff (by decide)

/-- The port `010` is 8. -/
theorem not_portRule :
    (uriParseCstr (ascii "http://h:010/")).1 = 0
      ∧ (uriParseCstr (ascii "http://h:010/")).2.portStr = ascii "010"
      ∧ (uriParseCstr (ascii "http://h:010/")).2.port = 8
      ∧ ¬PortRule (ascii "http://h:010/") := by
  have hport : (uriParseCstr (ascii "http://h:010/")).2.port = 8 := by decide
  have hstr : (uriParseCstr (ascii "http://h:010/")).2.portStr = ascii "010" := by decide
  refine ⟨by decide, hstr, hport, ?_⟩
  intro hrule
  have hvalue := (hrule.decimal (by decide)).2
  rw [hport, hstr] at hvalue
  exact absurd hvalue (by decide)

end CWebServer.Uri
