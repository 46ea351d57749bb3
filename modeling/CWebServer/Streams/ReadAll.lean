import CWebServer.Lib.Loops
import CWebServer.Streams.Sources

/-!
# Streams — ReadAll

`stream_read_all_into_buffer` copies a source up to its end or up to `max`,
however the source cuts what it gives, unless a sum with the block size
wraps: then it asks for bytes beyond `max`, or for less memory than it fills.
What carries the loop is that the first `total` bytes of the source are behind
the old contents of `dst` and the others are still to come, and that what is
allocated is enough for all of them.
-/

namespace CWebServer.Streams

open CWebServer.Strings CWebServer.Lib

/-! ## Requests -/

/-- How many bytes are to be read where `length` are left. -/
def readCount (max length : Nat) : Nat :=
  if max = 0 then length else min max length

theorem readCount_le (max length : Nat) :
    readCount max length ≤ length ∧ (max = 0 ∨ readCount max length ≤ max) := by
  unfold readCount
  split <;> omega

theorem readCount_eq {max length total : Nat} (hle : total ≤ readCount max length)
    (hdone : length ≤ total ∨ 0 < max ∧ max ≤ total) : readCount max length = total := by
  have hcount := readCount_le max length
  omega

/-- What `max` leaves of a block, unless the sum of `total` and the block size
wraps. -/
theorem nextRead_eq {max blockSize total : Nat} (htotal : max = 0 ∨ total ≤ max)
    (hmax : max < 2 ^ 64) (hblock : blockSize < 2 ^ 64) :
    nextRead max blockSize total
      = if max = 0 ∨ 2 ^ 64 ≤ total + blockSize then blockSize
        else min blockSize (max - total) := by
  unfold nextRead
  rcases Nat.eq_zero_or_pos max with hzero | hpos
  · rw [if_neg (by omega), if_pos (.inl hzero)]
  · have hsub : sizeSub max total = max - total := if_pos (by omega)
    rw [hsub]
    by_cases hwrap : 2 ^ 64 ≤ total + blockSize
    · have hadd : sizeAdd total blockSize = total + blockSize - 2 ^ 64 := by
        rw [sizeAdd]
        omega
      rw [hadd, if_neg (by omega), if_pos]
      exact .inr hwrap
    · have hadd : sizeAdd total blockSize = total + blockSize :=
        Nat.mod_eq_of_lt (Nat.lt_of_not_le hwrap)
      have hnone : ¬(max = 0 ∨ 2 ^ 64 ≤ total + blockSize) := by omega
      rw [hadd, if_neg hnone]
      split <;> omega

theorem eq_max_of_nextRead {max blockSize total : Nat} (htotal : max = 0 ∨ total ≤ max)
    (hmax : max < 2 ^ 64) (hblock : 1 ≤ blockSize ∧ blockSize < 2 ^ 64)
    (hnone : nextRead max blockSize total = 0) : 0 < max ∧ total = max := by
  rw [nextRead_eq htotal hmax hblock.2] at hnone
  split at hnone <;> omega

/-- No sum wraps that keeps the bytes beyond `max` in the source. -/
def KeepsMax (max blockSize length : Nat) : Prop :=
  max = 0 ∨ length ≤ max ∨ max + blockSize < 2 ^ 64

/-- The buffer has the memory: nothing is to be stored, or every request can
be allocated, or no request is allocated because each sum wraps and the
capacity is enough without that. -/
def KeepsMemory (dst : SizedBuffer) (max blockSize length : Nat) : Prop :=
  dst.length + length = 0
    ∨ dst.length + readCount max (readCount max length + blockSize) < 2 ^ 63
    ∨ 2 ^ 64 ≤ dst.length + readCount max blockSize
      ∧ dst.length + readCount max length ≤ dst.capacity

/-! ## Rounds -/

section

variable {σ : Type} (src : PromptSource σ) (max blockSize : Nat)

/-- What a round does with a request of `n` bytes. -/
theorem readAllRound_cases (total : Nat) (d : SizedBuffer) (t : σ) {n : Nat}
    (hn : nextRead max blockSize total = n) :
    n = 0 ∧ readAllRound src.read max blockSize (total, d, t) = .inr (some (toInt total, d, t))
      ∨ n ≠ 0 ∧ (d.reserve n).room < d.length + (src.read t n).bytes.length
        ∧ readAllRound src.read max blockSize (total, d, t) = .inr none
      ∨ n ≠ 0 ∧ d.length + (src.read t n).bytes.length ≤ (d.reserve n).room
        ∧ ((src.read t n).bytes = [] ∨ 0 < max ∧ max ≤ total)
        ∧ readAllRound src.read max blockSize (total, d, t)
          = .inr (some (toInt total, readInto src.read t d n, (src.read t n).stream))
      ∨ n ≠ 0 ∧ d.length + (src.read t n).bytes.length ≤ (d.reserve n).room
        ∧ (src.read t n).bytes ≠ [] ∧ ¬(0 < max ∧ max ≤ total)
        ∧ readAllRound src.read max blockSize (total, d, t)
          = .inl (sizeAdd total (sizeOfInt (src.read t n).bytes.length),
            readInto src.read t d n, (src.read t n).stream) := by
  have hread := streamReadSizedBuffer_eq src.read t d n (src.result_eq_length t n)
  have hempty : ((src.read t n).bytes.length : Int) = 0 ↔ (src.read t n).bytes = [] := by
    rw [Int.natCast_eq_zero, List.length_eq_zero_iff]
  by_cases hzero : n = 0
  · refine .inl ⟨hzero, ?_⟩
    simp only [readAllRound, hn, if_pos hzero]
  by_cases hfits : (d.reserve n).room < d.length + (src.read t n).bytes.length
  · refine .inr (.inl ⟨hzero, hfits, ?_⟩)
    simp only [readAllRound, hn, if_neg hzero, hread, if_pos hfits]
  have hsome : streamReadSizedBuffer src.read t d n
      = some (((src.read t n).bytes.length : Int), readInto src.read t d n,
        (src.read t n).stream) := by
    rw [hread, if_neg hfits]
  have hnonneg : ¬((src.read t n).bytes.length : Int) < 0 := by omega
  by_cases hlast : (src.read t n).bytes = [] ∨ 0 < max ∧ max ≤ total
  · refine .inr (.inr (.inl ⟨hzero, Nat.le_of_not_lt hfits, hlast, ?_⟩))
    simp only [readAllRound, hn, if_neg hzero, hsome, if_neg hnonneg, hempty, if_pos hlast]
  · obtain ⟨hbytes, hmore⟩ := not_or.mp hlast
    refine .inr (.inr (.inr ⟨hzero, Nat.le_of_not_lt hfits, hbytes, hmore, ?_⟩))
    simp only [readAllRound, hn, if_neg hzero, hsome, if_neg hnonneg, hempty, if_neg hlast]

/-- What the call is to do: it ends, gives the first bytes of the source up to
its end or up to `max`, and leaves the others in it. -/
def ReadsAll (dst : SizedBuffer) (s : σ) : Prop :=
  ∃ rounds dst' s', rounds ≤ (src.rest s).length + 1
    ∧ Rounds (readAllRound src.read max blockSize) rounds (0, dst, s)
      (some ((readCount max (src.rest s).length : Nat), dst', s'))
    ∧ dst'.contents = dst.contents ++ (src.rest s).take (readCount max (src.rest s).length)
    ∧ src.rest s' = (src.rest s).drop (readCount max (src.rest s).length)

/-- `total` bytes of what `s` has to give were read behind `dst`. -/
structure Copied (dst : SizedBuffer) (s : σ) (total : Nat) (d : SizedBuffer) (t : σ) : Prop where
  le : total ≤ readCount max (src.rest s).length
  contents : d.contents = dst.contents ++ (src.rest s).take total
  rest : src.rest t = (src.rest s).drop total

variable {src max blockSize} {dst d : SizedBuffer} {s t : σ} {total n : Nat}

theorem Copied.start (dst : SizedBuffer) (s : σ) : Copied src max dst s 0 dst s :=
  ⟨Nat.zero_le _, (List.append_nil _).symm, rfl⟩

section

variable (h : Copied src max dst s total d t)
include h

theorem Copied.le_length : total ≤ (src.rest s).length :=
  Nat.le_trans h.le (readCount_le max _).1

theorem Copied.le_max : max = 0 ∨ total ≤ max :=
  (readCount_le max _).2.imp_right (Nat.le_trans h.le)

theorem Copied.length_eq : d.length = dst.length + total := by
  have hlength := congrArg List.length h.contents
  rw [List.length_append, Buffer.length_contents, Buffer.length_contents,
    List.length_take_of_le h.le_length] at hlength
  exact hlength

/-- A request that keeps to `max` keeps it. -/
theorem Copied.read
    (hle : total + (src.read t n).bytes.length ≤ readCount max (src.rest s).length) :
    Copied src max dst s (total + (src.read t n).bytes.length) (readInto src.read t d n)
      (src.read t n).stream := by
  obtain ⟨-, hread, -, -⟩ :=
    streamReadBuffer_eq src.read t d.toBuffer n (src.result_eq_length t n)
  refine ⟨hle, ?_, ?_⟩
  · show (streamReadBuffer src.read t d.toBuffer n).2.1.contents = _
    rw [hread, h.contents, List.take_add, List.append_assoc, ← h.rest, ← src.bytes_eq_take]
  · rw [src.rest_eq_drop, h.rest, List.drop_drop]

/-- The requests do, as long as no sum wraps that counts. -/
theorem Copied.bytes_le (hkeeps : KeepsMax max blockSize (src.rest s).length)
    (hmax : max < 2 ^ 64) (hblock : blockSize < 2 ^ 64) :
    total + (src.read t (nextRead max blockSize total)).bytes.length
      ≤ readCount max (src.rest s).length := by
  have htotal := h.le_length
  have hle := h.le_max
  have hasked := src.length_le t (nextRead max blockSize total)
  have hlength := src.length_bytes_le t (nextRead max blockSize total)
  rw [h.rest, List.length_drop] at hlength
  unfold readCount
  rcases hkeeps with hzero | hall | hsum
  · rw [if_pos hzero]
    omega
  · split <;> omega
  · have hrequest : max = 0 ∨ nextRead max blockSize total ≤ max - total := by
      rw [nextRead_eq hle hmax hblock]
      split <;> omega
    split <;> omega

/-- A prompt source gives nothing at its end only. -/
theorem Copied.all (hsome : n ≠ 0) (hempty : (src.read t n).bytes = []) :
    (src.rest s).length = total := by
  have hrest : src.rest t = [] := by
    by_contra hne
    exact src.prompt t n (Nat.pos_of_ne_zero hsome) hne hempty
  have hdrop := List.drop_eq_nil_iff.mp (h.rest.symm.trans hrest)
  exact Nat.le_antisymm hdrop h.le_length

end

end

/-! ## Memory -/

/-- What is allocated where `total` bytes were read. -/
structure Reserved (dst : SizedBuffer) (max blockSize total capacity : Nat) : Prop where
  lt : capacity < 2 ^ 63
  le : dst.length + total ≤ capacity
  grows : dst.capacity ≤ capacity
  block : total = 0 ∨ dst.length + readCount max blockSize ≤ capacity
    ∨ 2 ^ 64 ≤ dst.length + readCount max blockSize

theorem Reserved.start {dst : SizedBuffer} (h : dst.Sound) (max blockSize : Nat) :
    Reserved dst max blockSize 0 dst.capacity :=
  ⟨h.capacity_lt, h.length_le, Nat.le_refl _, .inl rfl⟩

section

variable {dst : SizedBuffer} {max blockSize length total capacity k : Nat}

/-- A request of which `k` bytes come has the memory for them. -/
theorem Reserved.request (h : Reserved dst max blockSize total capacity)
    (hmemory : dst.length + readCount max (readCount max length + blockSize) < 2 ^ 63
      ∨ 2 ^ 64 ≤ dst.length + readCount max blockSize
        ∧ dst.length + readCount max length ≤ dst.capacity)
    (hmax : max < 2 ^ 64) (hblock : blockSize < 2 ^ 64) (hcount : readCount max length < 2 ^ 31)
    (hle : total + k ≤ readCount max length) (hk : k ≤ nextRead max blockSize total) :
    Reserved dst max blockSize (total + k)
      (Max.max capacity (sizeAdd (dst.length + total) (nextRead max blockSize total))) := by
  obtain ⟨hlt, hfits, hgrows, hreserved⟩ := h
  have htotal : max = 0 ∨ total ≤ max :=
    (readCount_le max length).2.imp_right (Nat.le_trans (by omega))
  have hrequest := nextRead_eq htotal hmax hblock
  have hround : readCount max length ≤ max ∨ max = 0 := (readCount_le max length).2.symm
  generalize readCount max length = count at *
  generalize nextRead max blockSize total = n at *
  have hlast : max = 0 ∧ readCount max (count + blockSize) = count + blockSize
      ∨ 0 < max ∧ readCount max (count + blockSize) = min max (count + blockSize) := by
    unfold readCount
    split <;> omega
  have hfirst : max = 0 ∧ readCount max blockSize = blockSize
      ∨ 0 < max ∧ readCount max blockSize = min max blockSize := by
    unfold readCount
    split <;> omega
  have hadd : sizeAdd (dst.length + total) n = (dst.length + total + n) % 2 ^ 64 := rfl
  split at hrequest
  · refine ⟨?_, ?_, ?_, ?_⟩ <;> omega
  · refine ⟨?_, ?_, ?_, ?_⟩ <;> omega

end

/-! ## Runs -/

section

variable {σ : Type} {src : PromptSource σ} {max blockSize : Nat} {dst : SizedBuffer} {s : σ}

/-- What the rounds keep, unless there is nothing to store. -/
def Going (src : PromptSource σ) (max blockSize : Nat) (dst : SizedBuffer) (s : σ)
    (state : Nat × SizedBuffer × σ) : Prop :=
  Copied src max dst s state.1 state.2.1 state.2.2
    ∧ (dst.length + (src.rest s).length = 0
      ∨ Reserved dst max blockSize state.1 state.2.1.capacity)

variable (hmax : max < 2 ^ 64) (hblock : 1 ≤ blockSize ∧ blockSize < 2 ^ 64)
  (hcount : readCount max (src.rest s).length < 2 ^ 31)
include hmax hblock hcount

section

variable (hkeeps : KeepsMax max blockSize (src.rest s).length)
  (hmemory : KeepsMemory dst max blockSize (src.rest s).length)
include hkeeps hmemory

/-- What comes fits. -/
theorem Going.fits {total : Nat} {d : SizedBuffer} {t : σ} {n : Nat}
    (h : Going src max blockSize dst s (total, d, t)) (hn : nextRead max blockSize total = n) :
    d.length + (src.read t n).bytes.length ≤ (d.reserve n).room
      ∧ Going src max blockSize dst s (total + (src.read t n).bytes.length,
        readInto src.read t d n, (src.read t n).stream) := by
  have hcopied : Copied src max dst s total d t := h.1
  have hle := hcopied.bytes_le hkeeps hmax hblock.2
  have hlength : d.length = dst.length + total := hcopied.length_eq
  rw [hn] at hle
  have hall := (readCount_le max (src.rest s).length).1
  have hnext := hcopied.read hle
  rcases Nat.eq_zero_or_pos (dst.length + (src.rest s).length) with hnone | hsome
  · exact ⟨by omega, hnext, .inl hnone⟩
  · have hnone : ¬dst.length + (src.rest s).length = 0 := by omega
    have hrequest := (h.2.resolve_left hnone).request (hmemory.resolve_left hnone) hmax
      hblock.2 hcount hle (hn ▸ src.length_le t n)
    have hcapacity : (d.reserve n).capacity
        = Max.max d.capacity (sizeAdd (dst.length + total) (nextRead max blockSize total)) := by
      rw [SizedBuffer.reserve, SizedBuffer.capacity_ensureCapacity, hlength, hn]
    rw [← hcapacity] at hrequest
    have hroom : (d.reserve n).room = (d.reserve n).capacity := if_pos hrequest.lt
    have hfits := hrequest.le
    exact ⟨by omega, hnext, .inr hrequest⟩

/-- A round reads some bytes more, or leaves when all of them were read. -/
theorem Going.round {total : Nat} {d : SizedBuffer} {t : σ}
    (h : Going src max blockSize dst s (total, d, t)) :
    (∃ next, readAllRound src.read max blockSize (total, d, t) = .inl next
        ∧ Going src max blockSize dst s next ∧ total < next.1)
      ∨ ∃ d' t', readAllRound src.read max blockSize (total, d, t)
          = .inr (some ((readCount max (src.rest s).length : Nat), d', t'))
        ∧ Copied src max dst s (readCount max (src.rest s).length) d' t' := by
  have hcopied : Copied src max dst s total d t := h.1
  have htotal := hcopied.le
  obtain ⟨hfits, hnext⟩ := h.fits hmax hblock hcount hkeeps hmemory rfl
  have hle := hnext.1.le
  dsimp only at hle
  rcases readAllRound_cases src max blockSize total d t rfl with
    ⟨hnone, hround⟩ | ⟨-, hover, -⟩ | ⟨hsome, -, hlast, hround⟩
      | ⟨-, -, hbytes, -, hround⟩
  · have hdone := eq_max_of_nextRead hcopied.le_max hmax hblock hnone
    have hall := readCount_eq htotal (.inr ⟨hdone.1, Nat.le_of_eq hdone.2.symm⟩)
    rw [toInt_of_lt (by omega)] at hround
    right
    rw [hall]
    exact ⟨d, t, hround, hcopied⟩
  · omega
  · have hempty : (src.read t (nextRead max blockSize total)).bytes = [] := by
      rcases hlast with hempty | hover
      · exact hempty
      · have hcopied := readCount_eq htotal (.inr hover)
        exact List.length_eq_zero_iff.mp (by omega)
    have hall := readCount_eq htotal (.inl (Nat.le_of_eq (hcopied.all hsome hempty)))
    have hcopied := hnext.1
    rw [toInt_of_lt (by omega)] at hround
    simp only [hempty, List.length_nil, Nat.add_zero] at hcopied
    right
    rw [hall]
    exact ⟨_, _, hround, hcopied⟩
  · have hpos := List.length_pos_iff.mpr hbytes
    rw [sizeAdd_sizeOfInt (by omega)] at hround
    exact .inl ⟨_, hround, hnext, Nat.lt_add_of_pos_right hpos⟩

/-- The rounds end where everything that was wanted is copied. -/
theorem exists_copied (hdst : dst.Sound) :
    ∃ rounds dst' s', rounds ≤ (src.rest s).length + 1
      ∧ Rounds (readAllRound src.read max blockSize) rounds (0, dst, s)
        (some ((readCount max (src.rest s).length : Nat), dst', s'))
      ∧ Copied src max dst s (readCount max (src.rest s).length) dst' s' := by
  have hstart : Going src max blockSize dst s (0, dst, s) :=
    ⟨.start dst s, .inr (.start hdst max blockSize)⟩
  have hstep : ∀ state next, Going src max blockSize dst s state →
      readAllRound src.read max blockSize state = .inl next →
        Going src max blockSize dst s next
          ∧ (src.rest s).length - next.1 < (src.rest s).length - state.1 := by
    rintro ⟨total, d, t⟩ next h hround
    rcases h.round hmax hblock hcount hkeeps hmemory with
      ⟨next', hround', hnext, hlt⟩ | ⟨d', t', hround', -⟩
    · obtain rfl : next' = next := Sum.inl.inj (hround'.symm.trans hround)
      have hle := hnext.1.le_length
      refine ⟨hnext, ?_⟩
      show _ < (src.rest s).length - total
      omega
    · rw [hround'] at hround
      cases hround
  obtain ⟨rounds, result, hrounds, hrun⟩ :=
    exists_rounds (fun state => (src.rest s).length - state.1) hstep hstart
  obtain ⟨⟨total, d, t⟩, hlast, hleave⟩ := hrun.result hstart fun state next h hround =>
    (hstep state next h hround).1
  rcases hlast.round hmax hblock hcount hkeeps hmemory with
    ⟨next, hround, -⟩ | ⟨d', t', hround, hdone⟩
  · rw [hround] at hleave
    cases hleave
  · rw [hround] at hleave
    cases hleave
    exact ⟨rounds, d', t', hrounds, hrun, hdone⟩

theorem readsAll_of_keeps (hdst : dst.Sound) : ReadsAll src max blockSize dst s := by
  obtain ⟨rounds, dst', s', hrounds, hrun, hdone⟩ :=
    exists_copied hmax hblock hcount hkeeps hmemory hdst
  exact ⟨rounds, dst', s', hrounds, hrun, hdone.contents, hdone.rest⟩

end

end

/-! ## Runs that fail -/

section

variable {σ : Type} {src : PromptSource σ} {max blockSize : Nat} {dst : SizedBuffer} {s : σ}

theorem length_rest_read (src : PromptSource σ) (t : σ) (n : Nat) :
    (src.rest (src.read t n).stream).length + (src.read t n).bytes.length
      = (src.rest t).length := by
  have hlength := congrArg List.length (src.append_rest t n)
  rw [List.length_append] at hlength
  omega

/-- The rounds have counted what they took, or have taken bytes beyond `max`. -/
def Counted (src : PromptSource σ) (max : Nat) (s : σ)
    (state : Nat × SizedBuffer × σ) : Prop :=
  state.1 ≤ max ∧ state.1 + (src.rest state.2.2).length = (src.rest s).length
    ∨ (src.rest state.2.2).length + max < (src.rest s).length

theorem Counted.next (hmax : max < 2 ^ 64) {state next : Nat × SizedBuffer × σ}
    (h : Counted src max s state)
    (hround : readAllRound src.read max blockSize state = .inl next) :
    Counted src max s next := by
  obtain ⟨total, d, t⟩ := state
  rcases readAllRound_cases src max blockSize total d t rfl with
    ⟨-, hleave⟩ | ⟨-, -, hleave⟩ | ⟨-, -, -, hleave⟩ | ⟨-, -, -, -, hagain⟩
  · cases hleave.symm.trans hround
  · cases hleave.symm.trans hround
  · cases hleave.symm.trans hround
  · cases hagain.symm.trans hround
    have hrest := length_rest_read src t (nextRead max blockSize total)
    unfold Counted at h ⊢
    rw [sizeAdd, sizeOfInt]
    dsimp only at h ⊢
    omega

/-- **A wrapped limit** takes bytes beyond `max`: where `max` bytes were read
the request is a whole block. -/
theorem keepsMax_of_readsAll (hmax : max < 2 ^ 64) (hblock : 1 ≤ blockSize ∧ blockSize < 2 ^ 64)
    (hcount : readCount max (src.rest s).length < 2 ^ 31) (h : ReadsAll src max blockSize dst s) :
    KeepsMax max blockSize (src.rest s).length := by
  by_contra hbroken
  simp only [KeepsMax, not_or] at hbroken
  obtain ⟨hpos, hmore, hwrap⟩ := hbroken
  have hall : readCount max (src.rest s).length = max := by
    unfold readCount
    rw [if_neg hpos]
    omega
  obtain ⟨rounds, dst', s', -, hrun, -, hrest⟩ := h
  rw [hall] at hcount hrun hrest
  have hleft := congrArg List.length hrest
  rw [List.length_drop] at hleft
  have hstart : Counted src max s (0, dst, s) := .inl ⟨Nat.zero_le _, Nat.zero_add _⟩
  obtain ⟨⟨total, d, t⟩, hlast, hleave⟩ :=
    hrun.result hstart fun state next hstate hround => hstate.next hmax hround
  have hgiven := length_rest_read src t (nextRead max blockSize total)
  unfold Counted at hlast
  dsimp only at hlast
  rcases readAllRound_cases src max blockSize total d t rfl with
    ⟨hnone, hround⟩ | ⟨-, -, hround⟩ | ⟨hsome, -, -, hround⟩ | ⟨-, -, -, -, hround⟩
  · obtain ⟨hresult, rfl, rfl⟩ : toInt total = max ∧ d = dst' ∧ t = s' := by
      simpa using hround.symm.trans hleave
    have hle : total ≤ max := by omega
    rw [toInt_of_lt (by omega)] at hresult
    rw [nextRead_eq (.inr hle) hmax hblock.2, if_pos (by omega)] at hnone
    omega
  · cases hround.symm.trans hleave
  · obtain ⟨hresult, rfl, rfl⟩ : toInt total = max ∧ _ = dst' ∧ _ = s' := by
      simpa using hround.symm.trans hleave
    have hle : total ≤ max := by omega
    rw [toInt_of_lt (by omega)] at hresult
    have hrest : src.rest t ≠ [] := by
      rw [← List.length_pos_iff]
      omega
    have hbytes := src.prompt t _ (Nat.pos_of_ne_zero hsome) hrest
    have hgave := List.length_pos_iff.mpr hbytes
    omega
  · cases hround.symm.trans hleave

/-- Sums that wrap allocate nothing. -/
theorem sizeAdd_nextRead_lt {total : Nat} (hlength : dst.length + total < 2 ^ 63)
    (htotal : max = 0 ∨ total ≤ max) (hmax : max < 2 ^ 64) (hblock : blockSize < 2 ^ 64)
    (hfirst : 2 ^ 64 ≤ dst.length + readCount max blockSize) :
    sizeAdd (dst.length + total) (nextRead max blockSize total) < dst.length + total := by
  rw [nextRead_eq htotal hmax hblock, sizeAdd]
  unfold readCount at hfirst
  split <;> split at hfirst <;> omega

/-- The last request, or the first one, asks for more than any object has. -/
theorem le_sizeAdd_nextRead {total : Nat} (htotal : max = 0 ∨ total ≤ max) (hmax : max < 2 ^ 64)
    (hblock : blockSize < 2 ^ 64) (hsmall : total < 2 ^ 31)
    (hfirst : dst.length + readCount max blockSize < 2 ^ 63
      ∨ total = 0 ∧ dst.length + readCount max blockSize < 2 ^ 64)
    (hlast : 2 ^ 63 ≤ dst.length + readCount max (total + blockSize)) :
    2 ^ 63 ≤ sizeAdd (dst.length + total) (nextRead max blockSize total) := by
  rw [nextRead_eq htotal hmax hblock, sizeAdd]
  unfold readCount at hfirst hlast
  split <;> split at hfirst <;> split at hlast <;> omega

/-- What the rounds keep in a buffer that has not the memory. -/
structure Short (src : PromptSource σ) (max blockSize : Nat) (dst : SizedBuffer) (s : σ)
    (state : Nat × SizedBuffer × σ) : Prop where
  copied : Copied src max dst s state.1 state.2.1 state.2.2
  length_le : state.2.1.length ≤ state.2.1.room
  capacity : 2 ^ 64 ≤ dst.length + readCount max blockSize → state.2.1.capacity = dst.capacity
  first : state.1 = 0 ∨ dst.length + readCount max blockSize < 2 ^ 63
    ∨ 2 ^ 64 ≤ dst.length + readCount max blockSize

end

section

variable {σ : Type} {src : PromptSource σ} {max blockSize : Nat} {dst : SizedBuffer} {s : σ}

theorem Short.start (hdst : dst.Sound) : Short src max blockSize dst s (0, dst, s) where
  copied := .start dst s
  length_le := Nat.le_trans hdst.length_le (Nat.le_of_eq hdst.room_eq.symm)
  capacity := fun _ => rfl
  first := .inl rfl

variable (hmax : max < 2 ^ 64) (hblock : 1 ≤ blockSize ∧ blockSize < 2 ^ 64)
  (hcount : readCount max (src.rest s).length < 2 ^ 31)
  (hkeeps : KeepsMax max blockSize (src.rest s).length)
include hmax hblock hcount hkeeps

theorem Short.next {state next : Nat × SizedBuffer × σ}
    (h : Short src max blockSize dst s state)
    (hround : readAllRound src.read max blockSize state = .inl next) :
    Short src max blockSize dst s next := by
  obtain ⟨total, d, t⟩ := state
  have hcopied : Copied src max dst s total d t := h.copied
  have hlength : d.length = dst.length + total := hcopied.length_eq
  have hroom : d.length ≤ d.room := h.length_le
  have hlt := d.room_lt
  have hcapacity := d.room_le
  have hle := hcopied.bytes_le hkeeps hmax hblock.2
  rcases readAllRound_cases src max blockSize total d t rfl with
    ⟨-, hleave⟩ | ⟨-, -, hleave⟩ | ⟨-, -, -, hleave⟩ | ⟨-, hfits, hbytes, -, hagain⟩
  · cases hleave.symm.trans hround
  · cases hleave.symm.trans hround
  · cases hleave.symm.trans hround
  · cases hagain.symm.trans hround
    have hpos := List.length_pos_iff.mpr hbytes
    rw [sizeAdd_sizeOfInt (by omega)]
    have hnext := hcopied.read hle
    have hgrown := hnext.length_eq
    refine ⟨hnext, ?_, ?_, ?_⟩
    · show _ ≤ (d.reserve (nextRead max blockSize total)).room
      dsimp only
      omega
    · intro hfirst
      have hwrap := sizeAdd_nextRead_lt (hlength ▸ Nat.lt_of_le_of_lt hroom hlt)
        hcopied.le_max hmax hblock.2 hfirst
      show (d.reserve (nextRead max blockSize total)).capacity = _
      rw [← h.capacity hfirst, SizedBuffer.reserve, SizedBuffer.capacity_ensureCapacity, hlength]
      exact Nat.max_eq_left (by omega)
    · right
      by_contra hbetween
      obtain ⟨hlow, hhigh⟩ := not_or.mp hbetween
      have hzero : total = 0 := h.first.resolve_right hbetween
      have hrefused := le_sizeAdd_nextRead hcopied.le_max hmax hblock.2 (by omega)
        (.inr ⟨hzero, Nat.lt_of_not_le hhigh⟩)
        (by rw [hzero, Nat.zero_add]; exact Nat.le_of_not_lt hlow)
      rw [SizedBuffer.room_reserve_eq_zero (hlength ▸ hrefused)] at hfits
      omega

/-- **Too little memory**: the first or the last request is refused, or the
sums wrap and what is read goes behind the capacity. -/
theorem keepsMemory_of_readsAll (hdst : dst.Sound) (h : ReadsAll src max blockSize dst s) :
    KeepsMemory dst max blockSize (src.rest s).length := by
  by_contra hbroken
  simp only [KeepsMemory, not_or, not_and, Nat.not_lt, Nat.not_le] at hbroken
  obtain ⟨hsome, hlast, hbehind⟩ := hbroken
  obtain ⟨rounds, dst', s', -, hrun, -, -⟩ := h
  have hstart : Short src max blockSize dst s (0, dst, s) := .start hdst
  obtain ⟨⟨total, d, t⟩, hshort, hleave⟩ := hrun.result hstart fun state next h hround =>
    h.next hmax hblock hcount hkeeps hround
  have hcopied : Copied src max dst s total d t := hshort.copied
  have hlength : d.length = dst.length + total := hcopied.length_eq
  have hroom : d.length ≤ d.room := hshort.length_le
  have hcapacity := d.room_le
  have hlt := d.room_lt
  have htotal := hcopied.le
  have hle := hcopied.bytes_le hkeeps hmax hblock.2
  rcases readAllRound_cases src max blockSize total d t rfl with
    ⟨hnone, hround⟩ | ⟨-, -, hround⟩ | ⟨hwanted, hfits, hlastRound, hround⟩
      | ⟨-, -, -, -, hround⟩
  · have hdone := eq_max_of_nextRead hcopied.le_max hmax hblock hnone
    have hall := readCount_eq htotal (.inr ⟨hdone.1, Nat.le_of_eq hdone.2.symm⟩)
    have hlimit := (readCount_le max (readCount max (src.rest s).length + blockSize)).2
    omega
  · cases hround.symm.trans hleave
  · have hempty : (src.read t (nextRead max blockSize total)).bytes = [] := by
      rcases hlastRound with hempty | hover
      · exact hempty
      · have hall := readCount_eq htotal (.inr hover)
        exact List.length_eq_zero_iff.mp (by omega)
    have hall := hcopied.all hwanted hempty
    have hcountEq := readCount_eq htotal (.inl (Nat.le_of_eq hall))
    rw [hcountEq] at hlast hbehind hcount
    have hfilled : dst.length + total ≤ (d.reserve (nextRead max blockSize total)).room := by
      omega
    by_cases hfirst : 2 ^ 64 ≤ dst.length + readCount max blockSize
    · have hwrap := sizeAdd_nextRead_lt (by omega) hcopied.le_max hmax hblock.2 hfirst
      have hsame : d.capacity = dst.capacity := hshort.capacity hfirst
      have hover := hbehind hfirst
      omega
    · have hrefused := le_sizeAdd_nextRead hcopied.le_max hmax hblock.2 hcount
        (by have := hshort.first; dsimp only at this; omega) hlast
      rw [SizedBuffer.room_reserve_eq_zero (hlength ▸ hrefused)] at hfilled
      omega
  · cases hround.symm.trans hleave

end

/-- **Reading all** does what it is to do exactly if no sum with the block
size wraps that keeps the bytes beyond `max` in the source, and the buffer has
the memory. -/
theorem readsAll_iff {σ : Type} (src : PromptSource σ) {max blockSize : Nat} {dst : SizedBuffer}
    (s : σ) (hdst : dst.Sound) (hmax : max < 2 ^ 64)
    (hblock : 1 ≤ blockSize ∧ blockSize < 2 ^ 64)
    (hcount : readCount max (src.rest s).length < 2 ^ 31) :
    ReadsAll src max blockSize dst s
      ↔ KeepsMax max blockSize (src.rest s).length
        ∧ KeepsMemory dst max blockSize (src.rest s).length := by
  constructor
  · intro h
    have hkeeps := keepsMax_of_readsAll hmax hblock hcount h
    exact ⟨hkeeps, keepsMemory_of_readsAll hmax hblock hcount hkeeps hdst h⟩
  · rintro ⟨hkeeps, hmemory⟩
    exact readsAll_of_keeps hmax hblock hcount hkeeps hmemory hdst

/-- 3 of 5 bytes, in blocks of 2, of which the source cuts the first to 1. -/
theorem readsAll_three :
    ReadsAll scripted 3 2 ⟨.ofBytes (ascii ">") 0, 1⟩ ⟨ascii "Hello", [0]⟩ :=
  (readsAll_iff scripted ⟨ascii "Hello", [0]⟩ ⟨by decide, by decide⟩ (by decide) (by decide)
    (by decide)).mpr ⟨.inr (.inr (by decide)), .inr (.inl (by decide))⟩

/-- 3 of 5 bytes, in blocks of 2^64 - 1: behind the 3 the request is a whole
block, and takes the other 2. -/
theorem not_readsAll :
    SizedBuffer.Sound ⟨.ofBytes [] 0, 16⟩
      ∧ readCount 3 (scripted.rest ⟨ascii "Hello", []⟩).length = 3
      ∧ ¬ReadsAll scripted 3 (2 ^ 64 - 1) ⟨.ofBytes [] 0, 16⟩ ⟨ascii "Hello", []⟩ := by
  refine ⟨⟨by decide, by decide⟩, rfl, ?_⟩
  intro h
  rcases keepsMax_of_readsAll (by decide) (by decide) (by decide) h with h | h | h
  · cases h
  · exact absurd h (by decide)
  · exact absurd h (by decide)

/-! ## From a buffer stream -/

section

variable {σ τ : Type} {read : StreamFuncRead σ} {read' : StreamFuncRead τ} {f : σ → τ}
  (hread : ∀ s n, read' (f s) n
    = { result := (read s n).result, bytes := (read s n).bytes, stream := f (read s n).stream })
include hread

theorem streamReadSizedBuffer_map (s : σ) (dst : SizedBuffer) (n : Nat) :
    streamReadSizedBuffer read' (f s) dst n
      = (streamReadSizedBuffer read s dst n).map fun r => (r.1, r.2.1, f r.2.2) := by
  simp only [streamReadSizedBuffer, hread]
  split <;> rfl

/-- A round looks at a stream by reading it only. -/
theorem readAllRound_map (max blockSize : Nat) (state : Nat × SizedBuffer × σ) :
    readAllRound read' max blockSize (state.1, state.2.1, f state.2.2)
      = (readAllRound read max blockSize state).map
        (fun state => (state.1, state.2.1, f state.2.2))
        (Option.map fun left => (left.1, left.2.1, f left.2.2)) := by
  obtain ⟨total, dst, s⟩ := state
  simp only [readAllRound, streamReadSizedBuffer_map hread]
  split
  · rfl
  · cases streamReadSizedBuffer read s dst (nextRead max blockSize total) with
    | none => rfl
    | some r =>
        dsimp only [Option.map_some]
        split
        · rfl
        · split <;> rfl

end

/-- **Reading all of a buffer stream** gives what its buffer has behind the
position, whatever calls came before. -/
theorem BufferStream.After.readAll {b : Buffer} {s : BufferStream}
    (h : BufferStream.After BufferStream.SizeFits b s) (hb : b.length < 2 ^ 31)
    {max blockSize : Nat} {dst : SizedBuffer} (hdst : dst.Sound) (hmax : max < 2 ^ 64)
    (hblock : 1 ≤ blockSize ∧ blockSize < 2 ^ 64)
    (hkeeps : KeepsMax max blockSize (s.buffer.length - s.position))
    (hmemory : KeepsMemory dst max blockSize (s.buffer.length - s.position)) :
    ∃ rounds count dst' s', count = readCount max (s.buffer.length - s.position)
      ∧ Rounds (readAllRound BufferStream.read max blockSize) rounds (0, dst, s)
        (some ((count : Nat), dst', s'))
      ∧ dst'.contents = dst.contents ++ (s.buffer.contents.drop s.position).take count
      ∧ s'.buffer.contents.drop s'.position
        = (s.buffer.contents.drop s.position).drop count := by
  obtain ⟨r, rfl⟩ := h.readable hb
  have hlength : r.file.rest.length = r.stream.buffer.length - r.stream.position := by
    rw [r.rest_eq, List.length_drop, Buffer.length_contents]
  have hle := (readCount_le max r.file.rest.length).1
  have hlt := h.length_lt hb
  rw [← hlength] at hkeeps hmemory ⊢
  have htotal : readCount max (ReadableBuffer.source.rest r).length < 2 ^ 31 := by
    show readCount max r.file.rest.length < _
    omega
  obtain ⟨rounds, dst', r', -, hrun, hdone⟩ :=
    exists_copied hmax hblock htotal hkeeps hmemory hdst
  refine ⟨rounds, _, dst', r'.stream, rfl,
    hrun.map (readAllRound_map ReadableBuffer.read_stream max blockSize), ?_, ?_⟩
  · rw [← r.rest_eq]
    exact hdone.contents
  · rw [← r.rest_eq, ← r'.rest_eq]
    exact hdone.rest

end CWebServer.Streams
