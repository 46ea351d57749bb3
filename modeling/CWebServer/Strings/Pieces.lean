import CWebServer.Lib.Memory
import CWebServer.Lib.Pieces
import CWebServer.Strings.Model

/-!
# Strings — Pieces

What `string_split` gives for every delimiter, limit and capacity. Its loop
stops at `len - delim_len`, so a delimiter that ends the text is not cut at;
apart from that it cuts at the first delimiter again and again. The limit is
tested behind a cut only, which makes 1 the limit that is not kept.
-/

namespace CWebServer.Strings

open CWebServer.Lib

/-! ## The array of results -/

/-- `results[k * 2 + 0] = start; results[k * 2 + 1] = stop`. -/
def storePair (results : Nat → Nat) (k start stop : Nat) : Nat → Nat :=
  store results (k * 2) [start, stop]

/-- The `for` loop of `string_split` with the array it writes to. -/
def stringSplitIntoLoop (s delim : Bytes) (capacity maxResults : Nat) :
    (fuel i start count : Nat) → (Nat → Nat) → Nat × Nat × (Nat → Nat)
  | 0, _, start, count, results => (start, count, results)
  | fuel + 1, i, start, count, results =>
      if i < s.length - delim.length then
        if (s.drop i).take delim.length = delim then
          let results := if count < capacity then storePair results count start i else results
          if maxResults ≤ count + 1 + 1 then (i + delim.length, count + 1, results)
          else
            stringSplitIntoLoop s delim capacity maxResults fuel (i + delim.length)
              (i + delim.length) (count + 1) results
        else stringSplitIntoLoop s delim capacity maxResults fuel (i + 1) start count results
      else (start, count, results)

/-- `string_split`: the value it returns, and the array it leaves. -/
def stringSplitInto (s : Bytes) (start : Nat) (delim : Bytes) (results : Nat → Nat)
    (capacity maxResults : Nat) : Nat × (Nat → Nat) :=
  let maxResults := if maxResults = 0 then sizeMax else maxResults
  if s.length - start < delim.length then
    (1, if 1 ≤ capacity then storePair results 0 start s.length else results)
  else
    match stringSplitIntoLoop s delim capacity maxResults s.length start start 0 results with
    | (start, count, results) =>
        if start < s.length then
          (count + 1,
            if count < capacity ∧ count < maxResults then storePair results count start s.length
            else results)
        else (count, results)

/-- Pairs as they stand in the array. -/
def flatPairs (pairs : List (Nat × Nat)) : List Nat :=
  pairs.flatMap fun p => [p.1, p.2]

@[simp] theorem length_flatPairs (pairs : List (Nat × Nat)) :
    (flatPairs pairs).length = pairs.length * 2 := by
  induction pairs with
  | nil => rfl
  | cons p pairs ih =>
      have hcons : flatPairs (p :: pairs) = p.1 :: p.2 :: flatPairs pairs := rfl
      rw [hcons, List.length_cons, List.length_cons, ih, List.length_cons]
      omega

/-- The next pair goes behind the pairs that are there. -/
theorem storePair_flatPairs (results : Nat → Nat) (pairs : List (Nat × Nat)) (p : Nat × Nat) :
    storePair (store results 0 (flatPairs pairs)) pairs.length p.1 p.2
      = store results 0 (flatPairs (pairs ++ [p])) := by
  have hflat : flatPairs (pairs ++ [p]) = flatPairs pairs ++ [p.1, p.2] := by simp [flatPairs]
  have hnext := store_append results 0 (flatPairs pairs) [p.1, p.2]
  rw [Nat.zero_add] at hnext
  rw [hflat, storePair, ← length_flatPairs, hnext]

/-- A pair more, as long as there is room. -/
theorem take_append_singleton {α : Type*} (l : List α) (a : α) (n : Nat) :
    (l ++ [a]).take n = if l.length < n then l.take n ++ [a] else l.take n := by
  split
  · rename_i hlt
    rw [List.take_of_length_le (by simp; omega), List.take_of_length_le (by omega)]
  · rename_i hge
    rw [List.take_append_of_le_length (by omega)]

theorem take_singleton {α : Type*} (a : α) (n : Nat) :
    [a].take n = if 1 ≤ n then [a] else [] := by
  rw [← List.nil_append [a], take_append_singleton, List.take_nil]
  rfl

/-- The array holds the pairs that the list has. -/
theorem stringSplitIntoLoop_eq (s delim : Bytes) (capacity maxResults : Nat) {fuel i start : Nat}
    {pairs : List (Nat × Nat)} {count : Nat} (results : Nat → Nat)
    (hpairs : pairs.length = min count capacity) :
    let r := stringSplitLoop s delim capacity maxResults fuel i start count pairs
    stringSplitIntoLoop s delim capacity maxResults fuel i start count
        (store results 0 (flatPairs pairs))
      = (r.1, r.2.1, store results 0 (flatPairs r.2.2))
      ∧ r.2.2.length = min r.2.1 capacity := by
  induction fuel generalizing i start count pairs with
  | zero => exact ⟨rfl, hpairs⟩
  | succ fuel ih =>
      rw [stringSplitIntoLoop, stringSplitLoop]
      by_cases hi : i < s.length - delim.length
      · rw [if_pos hi, if_pos hi]
        by_cases hfound : (s.drop i).take delim.length = delim
        · rw [if_pos hfound, if_pos hfound]
          have hwritten : (if count < capacity then
              storePair (store results 0 (flatPairs pairs)) count start i
              else store results 0 (flatPairs pairs))
              = store results 0 (flatPairs
                  (if count < capacity then pairs ++ [(start, i)] else pairs)) := by
            split
            · have hcount : pairs.length = count := by omega
              rw [← hcount]
              exact storePair_flatPairs results pairs (start, i)
            · rfl
          have hlength : (if count < capacity then pairs ++ [(start, i)] else pairs).length
              = min (count + 1) capacity := by
            split
            · rw [List.length_append, List.length_singleton]
              omega
            · omega
          simp only [hwritten]
          by_cases hmax : maxResults ≤ count + 1 + 1
          · rw [if_pos hmax, if_pos hmax]
            exact ⟨rfl, hlength⟩
          · rw [if_neg hmax, if_neg hmax]
            exact ih hlength
        · rw [if_neg hfound, if_neg hfound]
          exact ih hpairs
      · rw [if_neg hi, if_neg hi]
        exact ⟨rfl, hpairs⟩

/-- **`string_split` and its array**: the pairs from the front, and nothing
else. -/
theorem stringSplitInto_eq (s : Bytes) (start : Nat) (delim : Bytes) (results : Nat → Nat)
    (capacity maxResults : Nat) :
    stringSplitInto s start delim results capacity maxResults
      = ((stringSplit s start delim capacity maxResults).1,
          store results 0 (flatPairs (stringSplit s start delim capacity maxResults).2)) := by
  have hstore : store results 0 (flatPairs []) = results := store_nil results 0
  have hnone : ([] : List (Nat × Nat)).length = min 0 capacity := by simp
  unfold stringSplitInto stringSplit
  by_cases hshort : s.length - start < delim.length
  · simp only [if_pos hshort]
    by_cases hcap : 1 ≤ capacity
    · rw [if_pos hcap, if_pos hcap]
      rfl
    · rw [if_neg hcap, if_neg hcap, hstore]
  · simp only [if_neg hshort]
    generalize (if maxResults = 0 then sizeMax else maxResults) = limit
    have hloop := @stringSplitIntoLoop_eq s delim capacity limit s.length start start [] 0 results
      hnone
    rw [hstore] at hloop
    obtain ⟨hinto, hlength⟩ := hloop
    rw [hinto]
    generalize stringSplitLoop s delim capacity limit s.length start start 0 [] = r at hlength ⊢
    obtain ⟨tail, count, pairs⟩ := r
    by_cases htail : tail < s.length
    · simp only [if_pos htail]
      by_cases hroom : count < capacity ∧ count < limit
      · have hcount : pairs.length = count := by
          have hmin : pairs.length = min count capacity := hlength
          omega
        rw [if_pos hroom, if_pos hroom, ← hcount]
        exact congrArg (pairs.length + 1, ·)
          (storePair_flatPairs results pairs (tail, s.length))
      · rw [if_neg hroom, if_neg hroom]
    · simp only [if_neg htail]

/-! ## The loop -/

theorem add_length_drop {s : Bytes} {start : Nat} (h : start ≤ s.length) :
    start + (s.drop start).length = s.length := by
  rw [List.length_drop]
  omega

/-- The comparison finds a delimiter. -/
theorem take_eq_iff_isPrefix (s delim : Bytes) (i : Nat) :
    (s.drop i).take delim.length = delim ↔ delim <+: s.drop i :=
  eq_comm.trans List.prefix_iff_eq_take.symm

/-- From `i` on there is nothing to cut. -/
theorem stringSplitLoop_none {s delim : Bytes} (capacity maxResults : Nat)
    {fuel i start count : Nat} {pairs : List (Nat × Nat)}
    (hcut : cutInside delim (s.drop i) = none) :
    stringSplitLoop s delim capacity maxResults fuel i start count pairs
      = (start, count, pairs) := by
  induction fuel generalizing i with
  | zero => rfl
  | succ fuel ih =>
      rw [stringSplitLoop]
      split
      · rename_i hlt
        have hcons := List.drop_eq_getElem_cons (show i < s.length by omega)
        have hfound : ¬ delim <+: s.drop i := by
          intro hfound
          have hlength : (s.drop i).length = s.length - i := List.length_drop
          rw [hcons] at hfound hcut hlength
          rw [cutInside_of_isPrefix hfound, if_pos (by omega)] at hcut
          cases hcut
        rw [if_neg (mt (take_eq_iff_isPrefix s delim i).mp hfound)]
        rw [hcons] at hfound hcut
        rw [cutInside_cons hfound, Option.map_eq_none_iff] at hcut
        exact ih hcut
      · rfl

/-- **The next cut**: the pair for the text before it, and the loop from
behind it unless the limit is reached. -/
theorem stringSplitLoop_some {s delim w u : Bytes} (hd : delim ≠ []) (capacity maxResults : Nat)
    {fuel i start count : Nat} {pairs : List (Nat × Nat)} (hfuel : s.length - i ≤ fuel)
    (hcut : cutInside delim (s.drop i) = some (w, u)) :
    let pairs' := if count < capacity then pairs ++ [(start, i + w.length)] else pairs
    let next := i + w.length + delim.length
    ∃ fuel', s.length - next ≤ fuel' ∧
      stringSplitLoop s delim capacity maxResults fuel i start count pairs
        = if maxResults ≤ count + 1 + 1 then (next, count + 1, pairs')
          else stringSplitLoop s delim capacity maxResults fuel' next next (count + 1) pairs' := by
  have hpos := List.length_pos_of_ne_nil hd
  induction fuel generalizing i w with
  | zero =>
      rw [List.drop_of_length_le (by omega)] at hcut
      cases hcut
  | succ fuel ih =>
      have hlength := (cutsAt_cutInside delim).length hcut
      have hu := List.length_pos_of_ne_nil (cutInside_eq_some.mp hcut).2
      rw [List.length_drop] at hlength
      have hi : i < s.length := by omega
      have hcons := List.drop_eq_getElem_cons hi
      have hlt : i < s.length - delim.length := by omega
      rw [stringSplitLoop, if_pos hlt]
      by_cases hfound : delim <+: s.drop i
      · rw [if_pos ((take_eq_iff_isPrefix s delim i).mpr hfound)]
        have hw : w = [] := by
          rw [hcons] at hfound hcut
          rw [cutInside_of_isPrefix hfound] at hcut
          split at hcut
          · exact (Prod.mk.inj (Option.some.inj hcut)).1.symm
          · cases hcut
        subst hw
        exact ⟨fuel, by simp only [List.length_nil]; omega, rfl⟩
      · rw [if_neg (mt (take_eq_iff_isPrefix s delim i).mp hfound)]
        rw [hcons] at hfound hcut
        rw [cutInside_cons hfound] at hcut
        obtain ⟨⟨w', u'⟩, hcut', heq⟩ := Option.map_eq_some_iff.mp hcut
        obtain ⟨hw, hu'⟩ := Prod.mk.inj heq
        have hw' : s[i] :: w' = w := hw
        have hu'' : u' = u := hu'
        subst hw' hu''
        have hstep : i + (s[i] :: w').length = i + 1 + w'.length := by
          rw [List.length_cons]
          omega
        rw [hstep]
        exact ih (by omega) hcut'

/-- **The loop**: all pairs but the last one of a text with at most `n + 1`
cuts, and where the last one begins. -/
theorem stringSplitLoop_spans {s delim t : Bytes} (hd : delim ≠ []) (capacity n : Nat)
    {fuel i : Nat} {written : List (Nat × Nat)} (hi : i < s.length)
    (hfuel : s.length - i ≤ fuel) (ht : s.drop i = t) :
    ∃ init last, last < s.length ∧
      spans delim.length i (piecesUpTo (cutInside delim) (n + 1) t)
        = init ++ [(last, s.length)] ∧
      stringSplitLoop s delim capacity (written.length + n + 2) fuel i i written.length
          (written.take capacity)
        = (last, written.length + init.length, (written ++ init).take capacity) := by
  induction t using (cutsAt_cutInside delim).induction hd generalizing i n fuel written with
  | hnone t h =>
      subst ht
      have hend := add_length_drop (Nat.le_of_lt hi)
      refine ⟨[], i, hi, ?_, ?_⟩
      · rw [piecesUpTo_none h, spans, spans, hend, List.nil_append]
      · rw [stringSplitLoop_none _ _ h, List.append_nil]
        rfl
  | hsome t w u h ih =>
      subst ht
      have hlength := (cutsAt_cutInside delim).length h
      have hu := List.length_pos_of_ne_nil (cutInside_eq_some.mp h).2
      rw [List.length_drop] at hlength
      have hrest : s.drop (i + w.length + delim.length) = u := by
        rw [← List.drop_drop, ← List.drop_drop, cutsAt_cutInside delim _ w u h,
          List.append_assoc, List.drop_left, List.drop_left]
      have hnext : i + w.length + delim.length < s.length := by omega
      obtain ⟨fuel', hfuel', hloop⟩ := @stringSplitLoop_some s delim w u hd capacity
        (written.length + n + 2) fuel i i written.length (written.take capacity) hfuel h
      rw [← take_append_singleton] at hloop
      rw [hloop, piecesUpTo_some h, spans]
      cases n with
      | zero =>
          have hend : i + w.length + delim.length + u.length = s.length := by omega
          rw [if_pos (by omega)]
          refine ⟨[(i, i + w.length)], i + w.length + delim.length, hnext, ?_, rfl⟩
          rw [piecesUpTo, spans, spans, hend]
          rfl
      | succ n =>
          have hcount : (written ++ [(i, i + w.length)]).length = written.length + 1 :=
            List.length_append
          obtain ⟨init, last, hlast, hspans, hpairs⟩ :=
            @ih n fuel' (i + w.length + delim.length) (written ++ [(i, i + w.length)]) hnext hfuel'
              hrest
          rw [hcount] at hpairs
          have hmax : written.length + (n + 1) + 2 = written.length + 1 + n + 2 := by omega
          rw [if_neg (by omega), hmax, hpairs, hspans]
          refine ⟨(i, i + w.length) :: init, last, hlast, rfl, ?_⟩
          rw [List.append_assoc, List.length_cons, Nat.add_assoc, Nat.add_comm 1]
          rfl

/-- **A limit from 2 on is kept**: `string_split` gives the pieces after one
cut less than the limit. -/
theorem stringSplit_spans {s delim : Bytes} {start : Nat} (hd : delim ≠ [])
    (hstart : start ≤ s.length) (capacity n : Nat) {maxResults : Nat}
    (hmax : (if maxResults = 0 then sizeMax else maxResults) = n + 2) :
    let all := spans delim.length start (piecesUpTo (cutInside delim) (n + 1) (s.drop start))
    stringSplit s start delim capacity maxResults = (all.length, all.take capacity) := by
  have hpos := List.length_pos_of_ne_nil hd
  unfold stringSplit
  rw [hmax]
  by_cases hshort : s.length - start < delim.length
  · have hcut : cutInside delim (s.drop start) = none := by
      cases h : cutInside delim (s.drop start) with
      | none => rfl
      | some p =>
          have hlength := (cutsAt_cutInside delim).length h
          rw [List.length_drop] at hlength
          omega
    simp only [if_pos hshort]
    rw [piecesUpTo_none hcut, spans, spans, add_length_drop hstart, take_singleton]
    rfl
  · obtain ⟨init, last, hlast, hspans, hloop⟩ :=
      @stringSplitLoop_spans s delim (s.drop start) hd capacity n s.length start []
        (by omega) (by omega) rfl
    have hloop' : stringSplitLoop s delim capacity (n + 2) s.length start start 0 []
        = (last, init.length, init.take capacity) := by
      simpa using hloop
    have hlength := congrArg List.length hspans
    rw [length_spans, List.length_append, List.length_singleton] at hlength
    have hcuts := length_piecesUpTo_le_succ (cutInside delim) (n + 1) (s.drop start)
    have hroom : (init.length < capacity ∧ init.length < n + 2) = (init.length < capacity) :=
      propext ⟨And.left, fun h => ⟨h, by omega⟩⟩
    simp only [if_neg hshort, hloop', if_pos hlast, hroom]
    rw [hspans, take_append_singleton, List.length_append, List.length_singleton]

/-! ## No limit -/

/-- Without a limit: every piece, but for a delimiter at the end. A `size_t`
holds the length of a `string` and its terminator. -/
theorem stringSplit_unlimited {s delim : Bytes} {start : Nat} (hlen : s.length < sizeMax)
    (hd : delim ≠ []) (hstart : start ≤ s.length) (capacity : Nat) :
    let all := spans delim.length start (innerPieces delim (s.drop start))
    stringSplit s start delim capacity 0 = (all.length, all.take capacity) := by
  have hmax : (if 0 = 0 then sizeMax else 0) = sizeMax - 2 + 2 := by decide
  have hsplit := stringSplit_spans hd hstart capacity (sizeMax - 2) hmax
  have hrest : (s.drop start).length ≤ s.length := by
    rw [List.length_drop]
    omega
  have hall : piecesUpTo (cutInside delim) (sizeMax - 2 + 1) (s.drop start)
      = innerPieces delim (s.drop start) :=
    piecesUpTo_eq_of_le hd (cutsAt_cutInside delim) (by omega) (Nat.le_refl _)
  rw [hall] at hsplit
  exact hsplit

/-- A value of `string_split` that is the split of `s` from `start` on: the
segments between the delimiters, where they stand and what they are. -/
structure ReferenceSplit (s : Bytes) (start : Nat) (delim : Bytes)
    (r : Nat × List (Nat × Nat)) : Prop where
  count : r.1 = (pieces delim (s.drop start)).length
  spans : r.2 = spans delim.length start (pieces delim (s.drop start))
  texts : r.2.map (slice s) = pieces delim (s.drop start)
  free : ∀ span ∈ r.2, ¬ delim <:+: slice s span
  joined : delim.intercalate (r.2.map (slice s)) = s.drop start

/-- The texts at the spans of the pieces of a suffix. -/
theorem map_slice_pieces (s delim : Bytes) {start : Nat} (hstart : start ≤ s.length) :
    (spans delim.length start (pieces delim (s.drop start))).map (slice s)
      = pieces delim (s.drop start) := by
  have hslices := map_slice_spans (d := delim) (s.take start) (pieces delim (s.drop start))
  rw [intercalate_pieces, List.take_append_drop, List.length_take_of_le hstart] at hslices
  exact hslices

theorem ReferenceSplit.of_eq {s delim : Bytes} {start : Nat} (hd : delim ≠ [])
    (hstart : start ≤ s.length) :
    ReferenceSplit s start delim ((pieces delim (s.drop start)).length,
      Lib.spans delim.length start (pieces delim (s.drop start))) where
  count := rfl
  spans := rfl
  texts := map_slice_pieces s delim hstart
  free := by
    intro span hspan
    apply not_infix_of_mem_pieces hd (s := s.drop start)
    rw [← map_slice_pieces s delim hstart]
    exact List.mem_map_of_mem hspan
  joined := by
    rw [map_slice_pieces s delim hstart]
    exact intercalate_pieces delim _

/-- **The split is the reference split** exactly where no cut from left to
right is at the very end of the text. -/
theorem referenceSplit_iff {s delim : Bytes} {start capacity : Nat} (hlen : s.length < sizeMax)
    (hd : delim ≠ []) (hstart : start ≤ s.length)
    (hcap : (pieces delim (s.drop start)).length ≤ capacity) :
    ReferenceSplit s start delim (stringSplit s start delim capacity 0)
      ↔ ¬ EndsInCut delim (s.drop start) := by
  rw [stringSplit_unlimited hlen hd hstart]
  cases pieces_cases hd (s.drop start) with
  | inl hends =>
      constructor
      · intro h
        have hcount := h.count
        rw [length_spans] at hcount
        omega
      · exact fun h => absurd hends.1 h
  | inr hends =>
      have htake : (spans delim.length start (innerPieces delim (s.drop start))).take capacity
          = spans delim.length start (innerPieces delim (s.drop start)) :=
        List.take_of_length_le (by rwa [length_spans, ← hends.2])
      rw [htake, length_spans, ← hends.2]
      exact iff_of_true (ReferenceSplit.of_eq hd hstart) hends.1

theorem referenceSplit_cookies :
    ReferenceSplit (ascii "a=1; b=2") 0 (ascii "; ")
      (stringSplit (ascii "a=1; b=2") 0 (ascii "; ") 5 0) :=
  (referenceSplit_iff (by decide) (by decide) (by decide) (by decide)).mpr
    (mt EndsInCut.isSuffix (by decide))

/-- A list with a separator behind its last element: one piece instead of two. -/
theorem not_referenceSplit_trailing :
    ¬ ReferenceSplit (ascii "a,") 0 (ascii ",") (stringSplit (ascii "a,") 0 (ascii ",") 2 0) :=
  fun h => absurd h.count (by decide)

/-! ## Limits -/

/-- The spans for at most `m` pieces, out of all spans `u` of a text that ends
at `stop`: the first ones, and one more from the start of the next one to the
end. -/
def limitSpans (u : List (Nat × Nat)) (m stop : Nat) : List (Nat × Nat) :=
  let few := min m u.length - 1
  u.take few ++ ((u.drop few).take 1).map fun span => (span.1, stop)

/-- The value without a limit, with room for every pair. -/
def unlimitedSplit (s : Bytes) (start : Nat) (delim : Bytes) : Nat × List (Nat × Nat) :=
  stringSplit s start delim (s.length + 1) 0

/-- What `string_split` is to do with the limit `m`: its value is the number
of pieces that the limit leaves, and of the array the pairs that fit change
and nothing else does. -/
def LimitedSplit (s : Bytes) (start : Nat) (delim : Bytes) (capacity m : Nat) : Prop :=
  ∀ results : Nat → Nat,
    let u := unlimitedSplit s start delim
    let count := min m u.1
    stringSplitInto s start delim results capacity m
      = (count, store results 0 (flatPairs ((limitSpans u.2 m s.length).take (min capacity count))))

theorem unlimitedSplit_eq {s delim : Bytes} {start : Nat} (hlen : s.length < sizeMax)
    (hd : delim ≠ []) (hstart : start ≤ s.length) :
    let all := spans delim.length start (innerPieces delim (s.drop start))
    unlimitedSplit s start delim = (all.length, all) := by
  have hroom := length_piecesUpTo_le hd (cutsAt_cutInside delim) (s.drop start).length
    (s.drop start)
  have hrest : (s.drop start).length ≤ s.length := by
    rw [List.length_drop]
    omega
  rw [unlimitedSplit, stringSplit_unlimited hlen hd hstart, List.take_of_length_le]
  rw [length_spans]
  exact hroom.trans (Nat.succ_le_succ hrest)

/-- A limit from 2 on is a limit on the spans. -/
theorem limitSpans_eq {s delim : Bytes} {start : Nat} (n : Nat) (hd : delim ≠ [])
    (hstart : start ≤ s.length) :
    spans delim.length start (piecesUpTo (cutInside delim) (n + 1) (s.drop start))
      = limitSpans (spans delim.length start (innerPieces delim (s.drop start))) (n + 2)
          s.length := by
  have hcut := cutsAt_cutInside delim
  have hend := add_length_drop hstart
  have hall : piecesUpTo (cutInside delim) (max (n + 1) (s.drop start).length) (s.drop start)
      = innerPieces delim (s.drop start) :=
    piecesUpTo_eq_of_le hd hcut (Nat.le_max_right _ _) (Nat.le_refl _)
  have hfewer := spans_piecesUpTo hcut (Nat.le_max_left (n + 1) (s.drop start).length) start
    (s.drop start)
  rw [hall, hend] at hfewer
  have hpos := List.length_pos_of_ne_nil (piecesUpTo_ne_nil (cutInside delim)
    (s.drop start).length (s.drop start))
  have hfew : min (n + 2) (innerPieces delim (s.drop start)).length - 1
      = min (n + 1) ((innerPieces delim (s.drop start)).length - 1) := by
    unfold innerPieces
    omega
  rw [limitSpans, length_spans, hfew]
  simp only [length_spans] at hfewer
  exact hfewer

/-- As many spans as the limit allows. -/
theorem length_limitSpans (u : List (Nat × Nat)) {m : Nat} (hm : 1 ≤ m) (stop : Nat) :
    (limitSpans u m stop).length = min m u.length := by
  rw [limitSpans, List.length_append, List.length_map, List.length_take, List.length_take,
    List.length_drop]
  omega

/-- The limit 1 where nothing is cut. -/
theorem stringSplit_one_none {s delim : Bytes} {start : Nat} (hd : delim ≠ [])
    (hstart : start ≤ s.length) (capacity : Nat)
    (hcut : cutInside delim (s.drop start) = none) :
    stringSplit s start delim capacity 1 = (1, [(start, s.length)].take capacity) := by
  have hpos := List.length_pos_of_ne_nil hd
  have hone : ¬ 1 = 0 := Nat.one_ne_zero
  have htake := (take_singleton (start, s.length) capacity).symm
  unfold stringSplit
  simp only [if_neg hone]
  by_cases hshort : s.length - start < delim.length
  · rw [if_pos hshort, htake]
  · have hlt : start < s.length := by omega
    have hroom : (0 < capacity ∧ 0 < 1) = (1 ≤ capacity) :=
      propext ⟨And.left, fun h => ⟨h, Nat.one_pos⟩⟩
    rw [if_neg hshort, stringSplitLoop_none _ _ hcut]
    simp only [if_pos hlt, hroom, List.nil_append, htake]

/-- The limit 1 where something is cut: the text behind the cut counts. -/
theorem stringSplit_one_some {s delim w u : Bytes} {start : Nat} (hd : delim ≠ [])
    (capacity : Nat) (hcut : cutInside delim (s.drop start) = some (w, u)) :
    (stringSplit s start delim capacity 1).1 = 2 := by
  have hlength := (cutsAt_cutInside delim).length hcut
  have hu := List.length_pos_of_ne_nil (cutInside_eq_some.mp hcut).2
  rw [List.length_drop] at hlength
  have hone : ¬ 1 = 0 := Nat.one_ne_zero
  have hlong : ¬ s.length - start < delim.length := by omega
  have hnext : start + w.length + delim.length < s.length := by omega
  obtain ⟨fuel, -, hloop⟩ :=
    @stringSplitLoop_some s delim w u hd capacity 1 s.length start start 0 [] (by omega) hcut
  rw [if_pos (show 1 ≤ 0 + 1 + 1 by omega)] at hloop
  unfold stringSplit
  simp only [if_neg hone]
  rw [if_neg hlong, hloop]
  simp only [if_pos hnext]

/-- Nothing is cut from `start` on. -/
theorem cutInside_drop_eq_none {s delim : Bytes} {start : Nat} (hd : delim ≠ []) :
    cutInside delim (s.drop start) = none
      ↔ ∀ i, start ≤ i → i < s.length - delim.length → ¬ delim <+: s.drop i := by
  rw [cutInside_eq_none_iff hd, List.length_drop]
  constructor
  · intro h i hi hlt
    have hfree := h (i - start) (by omega)
    rwa [List.drop_drop, Nat.add_sub_cancel' hi] at hfree
  · intro h i hlt
    rw [List.drop_drop]
    exact h (start + i) (Nat.le_add_right start i) (by omega)

/-- What the limit leaves of the spans is what `string_split` writes. -/
theorem limitedSplit_of_spans {s delim : Bytes} {start capacity m : Nat}
    (hlen : s.length < sizeMax) (hd : delim ≠ []) (hstart : start ≤ s.length) (hm : 1 ≤ m)
    (h : let few := limitSpans (spans delim.length start (innerPieces delim (s.drop start))) m
            s.length
      stringSplit s start delim capacity m = (few.length, few.take capacity)) :
    LimitedSplit s start delim capacity m := by
  intro results
  have hcount := length_limitSpans (spans delim.length start
    (innerPieces delim (s.drop start))) hm s.length
  rw [unlimitedSplit_eq hlen hd hstart, stringSplitInto_eq, h]
  simp only [← hcount, ← List.take_eq_take_min]

/-- **The limit is kept** exactly if it is 2 or more, or no delimiter is found
before the end of the text. -/
theorem limitedSplit_iff {s delim : Bytes} {start capacity m : Nat} (hlen : s.length < sizeMax)
    (hd : delim ≠ []) (hstart : start ≤ s.length) (hm : 1 ≤ m) :
    LimitedSplit s start delim capacity m
      ↔ 2 ≤ m ∨ ∀ i, start ≤ i → i < s.length - delim.length →
        ¬ delim <+: s.drop i := by
  rw [← cutInside_drop_eq_none hd]
  by_cases htwo : 2 ≤ m
  · obtain ⟨n, rfl⟩ := Nat.exists_eq_add_of_le' htwo
    apply iff_of_true _ (.inl htwo)
    apply limitedSplit_of_spans hlen hd hstart hm
    rw [← limitSpans_eq n hd hstart]
    exact stringSplit_spans hd hstart capacity n (if_neg (by omega))
  · have hone : m = 1 := by omega
    subst hone
    cases hcut : cutInside delim (s.drop start) with
    | none =>
        apply iff_of_true _ (.inr rfl)
        apply limitedSplit_of_spans hlen hd hstart hm
        rw [innerPieces_none hcut, spans, spans, add_length_drop hstart]
        exact stringSplit_one_none hd hstart capacity hcut
    | some p =>
        apply iff_of_false
        · intro h
          have hcount := congrArg Prod.fst (h fun _ => 0)
          rw [stringSplitInto_eq, stringSplit_one_some hd capacity hcut] at hcount
          omega
        · simp

theorem limitedSplit_digits :
    LimitedSplit (ascii "01-23-45-67-89") 0 (ascii "-") 2 3 :=
  (limitedSplit_iff (by decide) (by decide) (by decide) (by decide)).mpr (.inl (by decide))

/-- The limit 1: two pieces, and the second one is not written. -/
theorem not_limitedSplit_one : ¬ LimitedSplit (ascii "a,b") 0 (ascii ",") 2 1 := by
  intro h
  have hcount : (stringSplitInto (ascii "a,b") 0 (ascii ",") (fun _ => 0) 2 1).1 ≤ 1 := by
    rw [h]
    exact Nat.min_le_left 1 _
  exact absurd hcount (by decide)

end CWebServer.Strings
