import CWebServer.Uri.HostPort

/-!
# Uri — Authority

The authority is put together again from its components. The special case
for a port without a host looks for its `:` at the start of the input instead
of the start of the authority, so behind a scheme or `//` such a port is cut
off and then dropped.
-/

namespace CWebServer.Uri

open CWebServer.Strings CWebServer.Lib

/-- The authority of `u` is made up of its components; the host may be in
upper case there. -/
def Recombines (u : Uri) : Prop :=
  ∃ host, stringTolower host = (uriGetHost u).getD []
    ∧ u.authority = userinfoMark (uriGetUserinfo u) ++ host ++ marked 58 (uriGetPortStr u)

/-- Behind a scheme or `//` the authority is a `:` and a port. -/
def PortWithoutHost (x : Bytes) : Prop :=
  (cut x).scheme ++ (cut x).slashes ≠ []
    ∧ ∃ port, (cut x).authority = 58 :: port ∧ 58 ∉ port ∧ 64 ∉ port

/-! ## Hosts without blanks -/

theorem trimmedHost_of_noBlank {host : Bytes} (hzero : 0 ∉ host) (h32 : 32 ∉ host)
    (h9 : 9 ∉ host) :
    trimmedHost host = if host = [] then none else some (stringTolower host) := by
  have htrim : trim (ascii " \t") (stringTolower host) = stringTolower host := by
    apply trim_eq_self
    intro c hc hblank
    have hblanks : c = 32 ∨ c = 9 := by simpa [ascii, bytesOf] using hblank
    rcases hblanks with rfl | rfl
    · exact h32 ((mem_stringTolower (by decide) host).mp hc)
    · exact h9 ((mem_stringTolower (by decide) host).mp hc)
  have hnil : stringTolower host = [] ↔ host = [] := List.map_eq_nil_iff
  rw [trimmedHost_eq hzero, htrim]
  simp only [hnil]

/-- Host and port make up `w`, unless it is a port whose `:` was taken for a
separator. -/
theorem hostPort_recombines (anchored : Bool) {w : Bytes} (hzero : 0 ∉ w) (h32 : 32 ∉ w)
    (h9 : 9 ∉ w) :
    (∃ host, stringTolower host = (hostPort anchored w).1.getD []
        ∧ w = host ++ marked 58 ((hostPort anchored w).2.map (·.1)))
      ↔ ¬(anchored = false ∧ ∃ port, w = 58 :: port ∧ 58 ∉ port) := by
  have hlast : ∀ port, w = 58 :: port ∧ 58 ∉ port → splitLast 58 w = some ([], port) := by
    rintro port ⟨rfl, hport⟩
    exact splitLast_append hport []
  cases hcut : portCut anchored w with
  | none =>
      have hwhole : hostPort anchored w = (trimmedHost w, none) := by rw [hostPort, hcut]
      rw [hwhole, trimmedHost_of_noBlank hzero h32 h9]
      apply iff_of_true
      · refine ⟨w, ?_, (List.append_nil w).symm⟩
        by_cases hw : w = []
        · simp [hw, stringTolower]
        · simp [hw]
      · rintro ⟨hanchored, port, hport⟩
        rw [portCut, hlast port hport] at hcut
        simp [hanchored] at hcut
  | some p =>
      obtain ⟨host, port⟩ := p
      obtain ⟨hw, hport⟩ := portCut_some hcut
      have hsplit := splitLast_append hport host
      rw [← hw] at hsplit
      have hsub : ∀ c ∈ host, c ∈ w := fun c hc => hw ▸ List.mem_append_left _ hc
      have htrimmed := trimmedHost_of_noBlank (fun h => hzero (hsub 0 h)) (fun h => h32 (hsub 32 h))
        fun h => h9 (hsub 9 h)
      by_cases hhost : host = []
      · -- the text in front of the port separator is no host
        subst hhost
        have hnone : hostPort anchored w = (none, none) := by simp [hostPort, hcut]
        have hanchored : anchored = false := by
          rw [portCut, hsplit] at hcut
          simpa using hcut
        rw [hnone]
        apply iff_of_false
        · rintro ⟨host, hlower, hhost⟩
          have hempty : host = [] := List.map_eq_nil_iff.mp hlower
          rw [hempty] at hhost
          rw [hhost] at hw
          cases hw
        · exact not_not.mpr ⟨hanchored, port, hw, hport⟩
      · rw [if_neg hhost] at htrimmed
        apply iff_of_true
        · cases hscan : scanPort port with
          | some n =>
              have hboth : hostPort anchored w = (some (stringTolower host), some (port, n)) := by
                simp [hostPort, hcut, htrimmed, hscan]
              rw [hboth]
              exact ⟨host, rfl, hw⟩
          | none =>
              have hwhole : hostPort anchored w = (some (stringTolower w), none) := by
                simp [hostPort, hcut, htrimmed, hscan]
              rw [hwhole]
              exact ⟨w, rfl, (List.append_nil w).symm⟩
        · rintro ⟨-, port', hport'⟩
          rw [hlast port' hport'] at hsplit
          cases hsplit
          exact hhost rfl

/-! ## The authority -/

namespace Cut

variable (c : Cut)

theorem uri_userinfo : uriGetUserinfo c.uri = userinfoText c.authority := by
  cases h : userinfoText c.authority <;> simp [uriGetUserinfo, Cut.uri, h]

theorem uri_host : uriGetHost c.uri = c.host := by
  cases h : c.host <;> simp [uriGetHost, Cut.uri, h]

theorem uri_portStr : uriGetPortStr c.uri = c.port.map (·.1) := by
  cases h : c.port <;> simp [uriGetPortStr, Cut.uri, h]

end Cut

theorem portWithoutHost_iff (x : Bytes) :
    PortWithoutHost x ↔ (cut x).anchored = false
      ∧ ∃ port, hostPortText (cut x).authority = 58 :: port ∧ 58 ∉ port := by
  unfold PortWithoutHost Cut.anchored userinfoText hostPortText
  cases hfirst : splitFirst 64 (cut x).authority with
  | none =>
      have hat : 64 ∉ (cut x).authority := splitFirst_eq_none.mp hfirst
      simp only [Option.map_none, Option.isSome_none, Bool.false_or, decide_eq_false_iff_not]
      constructor
      · rintro ⟨hfront, port, ha, hcolon, -⟩
        exact ⟨hfront, port, ha, hcolon⟩
      · rintro ⟨hfront, port, ha, hcolon⟩
        refine ⟨hfront, port, ha, hcolon, fun hmem => hat ?_⟩
        rw [ha]
        exact List.mem_cons_of_mem 58 hmem
  | some p =>
      obtain ⟨ha, -⟩ := splitFirst_some hfirst
      simp only [Option.map_some, Option.isSome_some, Bool.true_or, Bool.true_eq_false, false_and,
        iff_false]
      rintro ⟨-, port, hport, -, hat⟩
      have hmem : 64 ∈ (cut x).authority := by simp [ha]
      rw [hport] at hmem
      exact hat ((List.mem_cons.mp hmem).resolve_left (by decide))

/-- **No byte of the authority is dropped**, exactly if it is not a port
without a host behind a scheme or `//`. -/
theorem recombines_iff {x : Bytes} (hzero : 0 ∉ x) (haccepted : (uriParseCstr x).1 = 0)
    (hblank : 32 ∉ (uriParseCstr x).2.authority ∧ 9 ∉ (uriParseCstr x).2.authority) :
    Recombines (uriParseCstr x).2 ↔ ¬PortWithoutHost x := by
  have hcomplete := ((accepted_iff hzero).mp haccepted).1
  have huri := uriParseCstr_uri hzero hcomplete
  rw [huri] at hblank ⊢
  obtain ⟨h32, h9⟩ := hblank
  change 32 ∉ (cut x).authority at h32
  change 9 ∉ (cut x).authority at h9
  have hparts := authority_eq (cut x).authority
  have hsub := hostPortText_subset (cut x).authority
  rw [portWithoutHost_iff, ← hostPort_recombines _ (fun h => (zero_notMem_cut hzero).2 (hsub h))
    (fun h => h32 (hsub h)) fun h => h9 (hsub h)]
  unfold Recombines
  rw [Cut.uri_userinfo, Cut.uri_host, Cut.uri_portStr]
  change (∃ host, _ ∧ (cut x).authority = _) ↔ _
  constructor
  · rintro ⟨host, hlower, ha⟩
    rw [List.append_assoc] at ha
    refine ⟨host, hlower, List.append_cancel_left (hparts.symm.trans ha)⟩
  · rintro ⟨host, hlower, hw⟩
    refine ⟨host, hlower, ?_⟩
    rw [List.append_assoc]
    exact hparts.trans (congrArg _ hw)

theorem recombines_iff_userinfo :
    Recombines (uriParseCstr (ascii "http://u:p@Host:80/")).2
      ↔ ¬PortWithoutHost (ascii "http://u:p@Host:80/") :=
  recombines_iff (by decide) (by decide) (by decide)

/-- Of `http://:80` neither a host nor a port is left. -/
theorem not_recombines :
    (uriParseCstr (ascii "http://:80")).1 = 0
      ∧ (uriParseCstr (ascii "http://:80")).2.hasAuthority = true
      ∧ (uriParseCstr (ascii "http://:80")).2.authority = ascii ":80"
      ∧ uriGetHost (uriParseCstr (ascii "http://:80")).2 = none
      ∧ uriGetPortStr (uriParseCstr (ascii "http://:80")).2 = none
      ∧ ¬Recombines (uriParseCstr (ascii "http://:80")).2 := by
  have hauthority : (uriParseCstr (ascii "http://:80")).2.authority = ascii ":80" := by decide
  have hhost : uriGetHost (uriParseCstr (ascii "http://:80")).2 = none := by decide
  have hport : uriGetPortStr (uriParseCstr (ascii "http://:80")).2 = none := by decide
  have huser : uriGetUserinfo (uriParseCstr (ascii "http://:80")).2 = none := by decide
  refine ⟨by decide, by decide, hauthority, hhost, hport, ?_⟩
  rintro ⟨host, hlower, ha⟩
  rw [hhost] at hlower
  have hempty : host = [] := List.map_eq_nil_iff.mp hlower
  rw [hauthority, huser, hport, hempty] at ha
  exact absurd ha (by decide)

end CWebServer.Uri
