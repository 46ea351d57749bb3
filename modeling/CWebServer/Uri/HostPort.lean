import CWebServer.Strings.Any
import CWebServer.Uri.Print

/-!
# Uri — HostPort

The host and the port are read back from the text that is printed for them.
-/

namespace CWebServer.Uri

open CWebServer.Strings CWebServer.Lib

/-- The port with the text that is printed for it. -/
def inDecimal (p : Option (Bytes × Int)) : Option (Bytes × Int) :=
  p.map fun q => (decimal q.2.toNat, q.2)

/-! ## Hosts -/

@[simp] theorem trimmedHost_nil : trimmedHost [] = none := rfl

theorem trimmedHost_eq {host : Bytes} (h : 0 ∉ host) :
    trimmedHost host =
      if trim (ascii " \t") (stringTolower host) = [] then none
      else some (trim (ascii " \t") (stringTolower host)) := by
  unfold trimmedHost
  rw [stringTrimAnyOfCstr_eq fun hmem => h ((mem_stringTolower (by decide) host).mp hmem)]

theorem trimmedHost_some {host t : Bytes} (hzero : 0 ∉ host) (h : trimmedHost host = some t) :
    t = trim (ascii " \t") (stringTolower host) ∧ t ≠ [] := by
  rw [trimmedHost_eq hzero] at h
  split at h
  · cases h
  · rename_i hne
    cases h
    exact ⟨rfl, hne⟩

/-- A host that was trimmed is left alone. -/
theorem trimmedHost_trimmed {host t : Bytes} (hzero : 0 ∉ host) (h : trimmedHost host = some t) :
    stringTolower t = t ∧ trimmedHost t = some t := by
  obtain ⟨ht, hne⟩ := trimmedHost_some hzero h
  have hlower : stringTolower t = t := by
    have hid : t.map tolower = t.map id := by
      apply List.map_congr_left
      intro c hc
      rw [ht] at hc
      obtain ⟨b, -, rfl⟩ := List.mem_map.mp (mem_trim hc)
      exact tolower_tolower b
    rw [stringTolower, hid, List.map_id]
  have hzero' : 0 ∉ t := by
    intro hmem
    rw [ht] at hmem
    exact hzero ((mem_stringTolower (by decide) host).mp (mem_trim hmem))
  refine ⟨hlower, ?_⟩
  have htrim : trim (ascii " \t") t = t := by
    conv => lhs; rw [ht]
    rw [trim_trim, ← ht]
  rw [trimmedHost_eq hzero', hlower, htrim, if_neg hne]

theorem trimmedHost_stringTolower (host : Bytes) :
    trimmedHost (stringTolower host) = trimmedHost host := by
  unfold trimmedHost
  rw [stringTolower_stringTolower]

/-! ## Ports -/

theorem scanPort_stringTolower (s : Bytes) : scanPort (stringTolower s) = scanPort s := by
  unfold scanPort
  rw [sscanfI_stringTolower]
  simp [stringTolower]

theorem scanPort_some {s : Bytes} {port : Int} (h : scanPort s = some port) :
    0 ≤ port ∧ port < 65536 := by
  unfold scanPort at h
  split at h
  · cases h
  · split at h
    · rename_i hport
      cases h
      exact ⟨hport.1, hport.2.1⟩
    · cases h

/-- A port is read back from its decimal digits. -/
theorem scanPort_decimal {port : Int} (h : 0 ≤ port ∧ port < 65536) :
    scanPort (decimal port.toNat) = some port := by
  have hscan := sscanfI_decimal (n := port.toNat) (by omega)
  have hport : ((port.toNat : Nat) : Int) = port := Int.toNat_of_nonneg h.1
  unfold scanPort
  rw [hscan]
  simp [hport, h]

/-! ## Both -/

/-- Where the bytes of the host come from. -/
theorem mem_hostPort {anchored : Bool} {w t : Bytes} (hzero : 0 ∉ w)
    (h : (hostPort anchored w).1 = some t) {b : UInt8} (hb : b ∈ t) : b ∈ stringTolower w := by
  unfold hostPort at h
  split at h
  · obtain ⟨rfl, -⟩ := trimmedHost_some hzero h
    exact mem_trim hb
  · rename_i host portStr hcut
    obtain ⟨hw, -⟩ := portCut_some hcut
    split at h
    · cases h
    · rename_i trimmed ht
      have hzero' : 0 ∉ host := fun h => hzero (hw ▸ List.mem_append_left _ h)
      split at h
      · cases h
        obtain ⟨rfl, -⟩ := trimmedHost_some hzero' ht
        rw [hw, stringTolower, List.map_append]
        exact List.mem_append_left _ (mem_trim hb)
      · cases h
        exact hb

theorem mem_shownHostPort {anchored : Bool} {w : Bytes} (hzero : 0 ∉ w) {b : UInt8}
    (hb : b ∈ shownHostPort (hostPort anchored w)) :
    b ∈ stringTolower w ∨ b = 58 ∨ isdigit b = true := by
  rcases List.mem_append.mp hb with hb | hb
  · cases hhost : (hostPort anchored w).1 with
    | none =>
        rw [hhost] at hb
        cases hb
    | some t =>
        rw [hhost] at hb
        exact .inl (mem_hostPort hzero hhost hb)
  · cases hport : (hostPort anchored w).2 with
    | none =>
        rw [hport] at hb
        cases hb
    | some q =>
        rw [hport] at hb
        rcases List.mem_cons.mp hb with hb | hb
        · exact .inr (.inl hb)
        · exact .inr (.inr (isdigit_decimal hb))

theorem portCut_eq {host port : Bytes} (hhost : host ≠ []) (hport : 58 ∉ port)
    (anchored : Bool) :
    portCut anchored (host ++ 58 :: port) = some (host, port) := by
  simp [portCut, splitLast_append hport, hhost]

/-- Without a port, neither has the host that is printed. -/
theorem portCut_trimmed {anchored anchored' : Bool} (ha : anchored = true → anchored' = true)
    {w t : Bytes} (hzero : 0 ∉ w) (hcut : portCut anchored w = none)
    (ht : trimmedHost w = some t) : portCut anchored' t = none := by
  obtain ⟨rfl, -⟩ := trimmedHost_some hzero ht
  unfold portCut at hcut
  cases hsplit : splitLast 58 w with
  | none =>
      have hnot : 58 ∉ trim (ascii " \t") (stringTolower w) := fun h =>
        splitLast_eq_none.mp hsplit ((mem_stringTolower (by decide) w).mp (mem_trim h))
      rw [portCut, splitLast_eq_none.mpr hnot]
  | some p =>
      -- the host begins with the only `:`
      obtain ⟨host, port⟩ := p
      obtain ⟨hw, hport⟩ := splitLast_some hsplit
      simp only [hsplit] at hcut
      split at hcut
      · rename_i hanchored
        obtain ⟨hanchored, rfl⟩ := hanchored
        have hlower : stringTolower w = 58 :: stringTolower port := by
          rw [hw]
          rfl
        have hnot : 58 ∉ (stringTolower port).rdropWhile (· ∈ ascii " \t") := fun h =>
          hport ((mem_stringTolower (by decide) port).mp
            ((List.rdropWhile_prefix _ _).subset h))
        have hagain := splitLast_append hnot []
        rw [List.nil_append] at hagain
        rw [hlower, trim_cons (by decide), portCut, hagain]
        simp [ha hanchored]
      · cases hcut

/-- **Host and port are read back**: the port with its value, and the host as
it was stored. -/
theorem hostPort_shown {anchored anchored' : Bool} (ha : anchored = true → anchored' = true)
    {w : Bytes} (hzero : 0 ∉ w) :
    hostPort anchored' (shownHostPort (hostPort anchored w))
      = ((hostPort anchored w).1, inDecimal (hostPort anchored w).2) := by
  have hempty : hostPort anchored' [] = (none, none) := rfl
  unfold shownHostPort
  cases hcut : portCut anchored w with
  | none =>
      have heq : hostPort anchored w = (trimmedHost w, none) := by rw [hostPort, hcut]
      rw [heq]
      cases ht : trimmedHost w with
      | none => exact hempty
      | some t =>
          obtain ⟨-, hagain⟩ := trimmedHost_trimmed hzero ht
          have hnone := portCut_trimmed ha hzero hcut ht
          simp [hostPort, hnone, hagain, marked, inDecimal]
  | some p =>
      obtain ⟨host, portStr⟩ := p
      obtain ⟨hw, hcolon⟩ := portCut_some hcut
      have hzero' : 0 ∉ host := fun h => hzero (hw ▸ List.mem_append_left _ h)
      cases ht : trimmedHost host with
      | none =>
          have heq : hostPort anchored w = (none, none) := by simp [hostPort, hcut, ht]
          rw [heq]
          exact hempty
      | some t =>
          obtain ⟨-, hagain⟩ := trimmedHost_trimmed hzero' ht
          obtain ⟨-, hne⟩ := trimmedHost_some hzero' ht
          cases hscan : scanPort portStr with
          | some port =>
              have heq : hostPort anchored w = (some t, some (portStr, port)) := by
                simp [hostPort, hcut, ht, hscan]
              have hdigits : 58 ∉ decimal port.toNat := fun h =>
                absurd (isdigit_decimal h) (by decide)
              have hport := scanPort_decimal (scanPort_some hscan)
              rw [heq]
              show hostPort anchored' (t ++ 58 :: decimal port.toNat) = _
              simp [hostPort, portCut_eq hne hdigits, hagain, hport, inDecimal]
          | none =>
              have heq : hostPort anchored w = (some (stringTolower w), none) := by
                simp [hostPort, hcut, ht, hscan]
              have hhost : stringTolower host ≠ [] := by
                intro h
                rw [List.map_eq_nil_iff.mp h] at ht
                cases ht
              have hlower : stringTolower w
                  = stringTolower host ++ 58 :: stringTolower portStr := by
                rw [hw]
                simp [stringTolower, show tolower 58 = 58 from rfl]
              have hcolon' : 58 ∉ stringTolower portStr := fun h =>
                hcolon ((mem_stringTolower (by decide) portStr).mp h)
              have hcut' := portCut_eq hhost hcolon' anchored'
              rw [← hlower] at hcut'
              rw [heq]
              simp [hostPort, hcut', trimmedHost_stringTolower, ht, scanPort_stringTolower, hscan,
                marked, inDecimal]

end CWebServer.Uri
