import CWebServer.Uri.Components

/-!
# Uri — Bounds

What the parser reads behind the `n` bytes it was given, whatever the memory
has there; a buffer of exactly `n` bytes would be overread. The sections of the
path and the query begin with the byte at the index without a look at `n`, and
the query takes the byte behind its `?`.
-/

namespace CWebServer.Uri

open CWebServer.Strings CWebServer.Lib

/-- The bytes behind the end that are taken for a query: a `?` and the next
one. -/
def queryBehind (post : Bytes) : Bytes :=
  if charAt post 0 = 63 then 63 :: (post.drop 1).take 1 else []

/-- The bytes that are taken for a path and a query. -/
def pathBehind (post : Bytes) : Bytes :=
  if charAt post 0 = 47 then 47 :: queryBehind (post.drop 1) else queryBehind post

/-- The bytes of `post`, behind the input `x`, that become components. It is
told from what `x` has behind its authority: nothing, a path, or a path and a
`?` at the end. -/
def takenBehind (x post : Bytes) : Bytes :=
  if afterAuthority x = [] then pathBehind post
  else if afterPath x = [] then queryBehind post
  else if afterPath x = [63] then post.take 1
  else []

/-! ## The sections at the end of the input -/

/-- Query and fragment. -/
def parseQueryTail (input : Bytes) (n i : Nat) (u : Uri) : Nat × Uri :=
  let (i, u) := parseQuery input n i u
  let (i, u) := parseFragment input n i u
  checkParsed n i u

theorem parseTail_eq (input : Bytes) (n i : Nat) (u : Uri) :
    parseTail input n i u
      = parseQueryTail input n (parsePath input n i u).1 (parsePath input n i u).2 :=
  rfl

theorem charAt_drop (input : Bytes) (i : Nat) : charAt (input.drop i) 0 = charAt input i := by
  simp [charAt]

theorem decode_take_one (s : Bytes) : decode (s.take 1) = s.take 1 := by
  cases s <;> rfl

section

variable {input : Bytes} {n i : Nat} {u : Uri}

theorem parsePath_end (hi : n ≤ i + 1) (hu : u.path = []) :
    parsePath input n i u =
      if charAt input i = 47 then (i + 1, withPath [47] u) else (i, u) := by
  unfold parsePath
  by_cases hchar : charAt input i = 47
  · have hrounds : n - (i + 1) = 0 := by omega
    have hbytes : bytesAt input i 1 = [47] := by
      have hget := charAt_drop input i
      rw [hchar] at hget
      rw [bytesAt]
      cases hdrop : input.drop i with
      | nil =>
          rw [hdrop] at hget
          cases hget
      | cons c s =>
          rw [hdrop] at hget
          rw [← hget]
          rfl
    rw [if_pos hchar, if_pos hchar, hrounds, scanLoop, if_pos (by omega), Nat.add_sub_cancel_left,
      hbytes, hu]
    rfl
  · rw [if_neg hchar, if_neg hchar]

theorem parseQuery_end (hi : n ≤ i + 2) (hu : u.query = []) :
    parseQuery input n i u =
      if charAt input i = 63 then (i + 2, withQuery (some (bytesAt input (i + 1) 1)) u)
      else (i, u) := by
  dsimp only [parseQuery]
  by_cases hchar : charAt input i = 63
  · have hrounds : n - (i + 1 + 1) = 0 := by omega
    rw [if_pos hchar, if_pos hchar, hrounds, scanLoop, if_pos (by omega), Nat.add_sub_cancel_left,
      hu]
    rfl
  · rw [if_neg hchar, if_neg hchar]

theorem parseFragment_end (hi : n ≤ i + 1) : parseFragment input n i u = (i, u) := by
  rw [parseFragment, if_neg (by omega)]

theorem checkParsed_of_ne (hi : i ≠ n) : checkParsed n i u = (1, u) := by
  rw [checkParsed_eq, if_neg fun h => hi h.2]

/-- The query at the end of the input or behind it. -/
theorem parseQueryTail_end (hi : n ≤ i) (hu : u.query = []) :
    parseQueryTail input n i u =
      if charAt input i = 63 then (1, withQuery (some (bytesAt input (i + 1) 1)) u)
      else checkParsed n i u := by
  unfold parseQueryTail
  rw [parseQuery_end (by omega) hu]
  by_cases hchar : charAt input i = 63
  · rw [if_pos hchar, if_pos hchar]
    dsimp only
    rw [parseFragment_end (by omega)]
    exact checkParsed_of_ne (by omega)
  · rw [if_neg hchar, if_neg hchar]
    dsimp only
    rw [parseFragment_end (by omega)]

end

/-! ## Two inputs -/

section

variable {p q : Bytes} {n i : Nat} {u : Uri}

/-- The text of a query is known from the result. -/
theorem withQuery_inj {s t : Bytes} :
    withQuery (some (s.take 1)) u = withQuery (some (t.take 1)) u ↔ s.take 1 = t.take 1 := by
  constructor
  · intro h
    have hquery : decode (s.take 1) = decode (t.take 1) := congrArg Uri.query h
    rwa [decode_take_one, decode_take_one] at hquery
  · intro h
    rw [h]

theorem queryTail_agree (hi : n ≤ i) (hhas : u.hasQuery = false) (hu : u.query = []) :
    parseQueryTail p n i u = parseQueryTail q n i u
      ↔ queryBehind (p.drop i) = queryBehind (q.drop i) := by
  have hno : ∀ s, (1, withQuery (some s) u) ≠ checkParsed n i u := by
    intro s h
    have hquery : true = u.hasQuery := by
      have hsame := congrArg (fun r => r.2.hasQuery) h
      rwa [checkParsed_eq] at hsame
    rw [hhas] at hquery
    cases hquery
  have hbytes : ∀ s : Bytes, bytesAt s (i + 1) 1 = ((s.drop i).drop 1).take 1 := by
    intro s
    rw [bytesAt, List.drop_drop]
  rw [parseQueryTail_end hi hu, parseQueryTail_end hi hu]
  unfold queryBehind
  rw [charAt_drop, charAt_drop, hbytes, hbytes]
  by_cases hp : charAt p i = 63
  · by_cases hq : charAt q i = 63
    · rw [if_pos hp, if_pos hq, if_pos hp, if_pos hq, Prod.mk.injEq, withQuery_inj,
        List.cons.injEq, and_iff_right rfl, and_iff_right rfl]
    · rw [if_pos hp, if_neg hq, if_pos hp, if_neg hq]
      exact iff_of_false (hno _) (List.cons_ne_nil _ _)
  · by_cases hq : charAt q i = 63
    · rw [if_neg hp, if_pos hq, if_neg hp, if_pos hq]
      exact iff_of_false (hno _).symm (List.cons_ne_nil _ _).symm
    · rw [if_neg hp, if_neg hq, if_neg hp, if_neg hq]
      exact iff_of_true rfl rfl

theorem hasPath_parseQueryTail (input : Bytes) (n i : Nat) (u : Uri) :
    (parseQueryTail input n i u).2.hasPath = u.hasPath := by
  have hfront : (parseQueryTail input n i u).2.withoutTail = u.withoutTail := by
    unfold parseQueryTail
    dsimp only
    rw [checkParsed_eq, withoutTail_parseFragment, withoutTail_parseQuery]
  have hpath : (parseQueryTail input n i u).2.withoutTail.hasPath = u.withoutTail.hasPath := by
    rw [hfront]
  exact hpath

theorem tail_agree (hu : u.hasPath = false ∧ u.path = [])
    (hquery : u.hasQuery = false ∧ u.query = []) :
    parseTail p n n u = parseTail q n n u ↔ pathBehind (p.drop n) = pathBehind (q.drop n) := by
  have hend : ∀ input, parseTail input n n u =
      if charAt input n = 47 then parseQueryTail input n (n + 1) (withPath [47] u)
      else parseQueryTail input n n u := by
    intro input
    rw [parseTail_eq, parsePath_end (by omega) hu.2]
    split <;> rfl
  have hno : ∀ p q : Bytes,
      parseQueryTail p n (n + 1) (withPath [47] u) ≠ parseQueryTail q n n u := by
    intro p q h
    have hpath : (parseQueryTail p n (n + 1) (withPath [47] u)).2.hasPath
        = (parseQueryTail q n n u).2.hasPath := by rw [h]
    rw [hasPath_parseQueryTail, hasPath_parseQueryTail, hu.1] at hpath
    cases hpath
  have hhead : ∀ s t : Bytes, 47 :: s ≠ queryBehind t := by
    intro s t h
    unfold queryBehind at h
    split at h <;> cases h
  have hdrop : ∀ s : Bytes, (s.drop n).drop 1 = s.drop (n + 1) := by
    intro s
    rw [List.drop_drop]
  rw [hend, hend]
  unfold pathBehind
  rw [charAt_drop, charAt_drop, hdrop, hdrop]
  by_cases hp : charAt p n = 47
  · by_cases hq : charAt q n = 47
    · rw [if_pos hp, if_pos hq, if_pos hp, if_pos hq, List.cons.injEq, and_iff_right rfl]
      exact queryTail_agree (by omega) hquery.1 hquery.2
    · rw [if_pos hp, if_neg hq, if_pos hp, if_neg hq]
      exact iff_of_false (hno p q) (hhead _ _)
  · by_cases hq : charAt q n = 47
    · rw [if_neg hp, if_pos hq, if_neg hp, if_pos hq]
      exact iff_of_false (hno q p).symm (hhead _ _).symm
    · rw [if_neg hp, if_neg hq, if_neg hp, if_neg hq]
      exact queryTail_agree (Nat.le_refl n) hquery.1 hquery.2

end

/-! ## The input and what lies behind it -/

theorem bytesAt_input {x : Bytes} {start len : Nat} (h : start + len ≤ x.length) (post : Bytes) :
    bytesAt (x ++ post) start len = bytesAt x start len := by
  have hlength : len ≤ (x.drop start).length := by
    rw [List.length_drop]
    omega
  rw [bytesAt, List.drop_append_of_le_length (by omega), List.take_append_of_le_length hlength]
  rfl

theorem charAt_input {x : Bytes} {i : Nat} (h : i < x.length) (post : Bytes) :
    charAt (x ++ post) i = charAt x i := by
  rw [charAt, charAt, List.getD_eq_getElem?_getD, List.getD_eq_getElem?_getD,
    List.getElem?_append_left h]

/-- A fragment is read up to the end. -/
theorem parseFragment_input (x post : Bytes) (i : Nat) (u : Uri) :
    parseFragment (x ++ post) x.length i u = parseFragment x x.length i u := by
  by_cases hi : i + 1 < x.length
  · have hbytes : bytesAt (x ++ post) (i + 1) (x.length - (i + 1))
        = bytesAt x (i + 1) (x.length - (i + 1)) := bytesAt_input (by omega) post
    simp only [parseFragment, charAt_input (x := x) (i := i) (by omega), hbytes]
  · rw [parseFragment_end (by omega), parseFragment_end (by omega)]

section

variable (x : Bytes)

/-- Behind an input that ends with its authority, a path may begin. -/
theorem parse_agree_authority (hauthority : afterAuthority x = []) (post post' : Bytes) :
    uriParseCstrLen (x ++ post) x.length = uriParseCstrLen (x ++ post') x.length
      ↔ pathBehind post = pathBehind post' := by
  obtain ⟨pre, hx, hparse⟩ := parseFront_eq x
  have hpre : pre = x := by
    rw [hauthority, List.append_nil] at hx
    exact hx.symm
  rw [hparse, hparse, hpre, tail_agree ⟨rfl, rfl⟩ ⟨rfl, rfl⟩, List.drop_left,
    List.drop_left]

/-- Of any other input the path is found. -/
theorem parse_behind_path (hauthority : afterAuthority x ≠ []) :
    ∃ front, front ++ afterPath x = x ∧ ∀ post, uriParseCstrLen (x ++ post) x.length
      = parseQueryTail (x ++ post) x.length front.length (cut x).headUri := by
  obtain ⟨pre, hx, hparse⟩ := parseFront_eq x
  refine ⟨pre ++ pathText (afterAuthority x), ?_, ?_⟩
  · rw [List.append_assoc, ← (pathText_afterAuthority x).2,
      List.prefix_iff_eq_append.mp (pathText_isPrefix _), ← hx]
  · intro post
    have hpath := @parsePath_eq pre (afterAuthority x) post (fun h => absurd h hauthority)
      (cut x).frontUri rfl rfl
    rw [← hx] at hpath
    rw [hparse, parseTail_eq, hpath, ← (cut_eq x).1]
    rfl

theorem queryText_afterPath (hmark : afterPath x ≠ [63]) :
    queryText (afterPath x) ≠ some [] := by
  intro h
  unfold queryText at h
  split at h
  · rename_i hhead
    obtain ⟨t, ht⟩ := List.head?_eq_some_iff.mp hhead
    cases t with
    | nil => exact hmark ht
    | cons b t =>
        rw [ht] at h
        cases h
  · cases h

variable {x} {front : Bytes} (hfront : front ++ afterPath x = x) (u : Uri)
include hfront

/-- A `?` at the end takes the byte behind it for its query. -/
theorem parseQueryTail_mark (hmark : afterPath x = [63]) (post : Bytes) (hu : u.query = []) :
    parseQueryTail (x ++ post) x.length front.length u
      = (1, withQuery (some (post.take 1)) u) := by
  rw [hmark] at hfront
  have hlength : x.length = front.length + 1 := by
    rw [← hfront, List.length_append]
    rfl
  have hchar : charAt (x ++ post) front.length = 63 := by
    rw [← hfront, List.append_assoc, List.singleton_append, charAt_append]
  have hbytes : bytesAt (x ++ post) (front.length + 1) 1 = post.take 1 := by
    rw [bytesAt, ← hlength, List.drop_left]
  unfold parseQueryTail
  rw [parseQuery_end (by omega) hu, if_pos hchar, hbytes]
  dsimp only
  rw [parseFragment_end (by omega)]
  exact checkParsed_of_ne (by omega)

/-- Otherwise a byte of the input follows the `?`, or there is none. -/
theorem parseQueryTail_input (hnil : afterPath x ≠ []) (hmark : afterPath x ≠ [63])
    (post : Bytes) (hhas : u.hasQuery = false) (hu : u.query = []) :
    parseQueryTail (x ++ post) x.length front.length u
      = (let (i, u) := parseFragment x x.length
          (front ++ marked 63 (queryText (afterPath x))).length
          (withQuery (queryText (afterPath x)) u)
        checkParsed x.length i u) := by
  have hquery := @parseQuery_eq front (afterPath x) post (fun h => absurd h hnil) u hhas hu
    (queryText_afterPath x hmark)
  rw [hfront] at hquery
  unfold parseQueryTail
  rw [hquery]
  dsimp only
  rw [parseFragment_input]

end

/-- What becomes of the text behind the authority depends on the bytes taken
from behind the input, and on nothing else there. -/
theorem parse_agree (x post post' : Bytes) :
    uriParseCstrLen (x ++ post) x.length = uriParseCstrLen (x ++ post') x.length
      ↔ takenBehind x post = takenBehind x post' := by
  unfold takenBehind
  by_cases hauthority : afterAuthority x = []
  · rw [if_pos hauthority, if_pos hauthority]
    exact parse_agree_authority x hauthority post post'
  rw [if_neg hauthority, if_neg hauthority]
  obtain ⟨front, hfront, hparse⟩ := parse_behind_path x hauthority
  rw [hparse, hparse]
  by_cases hnil : afterPath x = []
  · have hlength : front = x := by
      rw [hnil, List.append_nil] at hfront
      exact hfront
    rw [if_pos hnil, if_pos hnil, hlength, queryTail_agree (Nat.le_refl _) rfl rfl,
      List.drop_left, List.drop_left]
  rw [if_neg hnil, if_neg hnil]
  by_cases hmark : afterPath x = [63]
  · rw [if_pos hmark, if_pos hmark, parseQueryTail_mark hfront _ hmark post rfl,
      parseQueryTail_mark hfront _ hmark post' rfl, Prod.mk.injEq, and_iff_right rfl,
      withQuery_inj]
  · rw [if_neg hmark, if_neg hmark, parseQueryTail_input hfront _ hnil hmark post rfl rfl,
      parseQueryTail_input hfront _ hnil hmark post' rfl rfl]
    exact iff_of_true rfl rfl

/-- **No byte behind the input matters** exactly if those that are taken for
components are the same in both buffers. -/
theorem uriParseCstrLen_agree (a b : Bytes) (n : Nat) (h : a.take n = b.take n) :
    uriParseCstrLen a n = uriParseCstrLen b n
      ↔ takenBehind (a.take n) (a.drop n) = takenBehind (a.take n) (b.drop n) := by
  by_cases hn : n ≤ a.length
  · have hlength : (a.take n).length = n := by rw [List.length_take, Nat.min_eq_left hn]
    have hagree := parse_agree (a.take n) (a.drop n) (b.drop n)
    rw [List.take_append_drop, h, List.take_append_drop, ← h, hlength] at hagree
    exact hagree
  · -- buffers with less than `n` bytes are equal
    have hlengths := congrArg List.length h
    rw [List.length_take, List.length_take] at hlengths
    rw [List.take_of_length_le (by omega), List.take_of_length_le (by omega)] at h
    rw [h]
    exact iff_of_true rfl rfl

theorem uriParseCstrLen_agree_slash :
    uriParseCstrLen (ascii "h/pq") 3 = uriParseCstrLen (ascii "h/p" ++ [0]) 3
      ↔ takenBehind (ascii "h/p") (ascii "q") = takenBehind (ascii "h/p") [0] :=
  uriParseCstrLen_agree (ascii "h/pq") (ascii "h/p" ++ [0]) 3 (by decide)

/-- `h` is accepted with a 0 behind it, and not with a `/`. -/
theorem not_uriParseCstrLen_agree :
    (ascii "h/p").take 1 = (ascii "h" ++ [0]).take 1
      ∧ (uriParseCstrLen (ascii "h/p") 1).1 = 1
      ∧ uriGetPath (uriParseCstrLen (ascii "h/p") 1).2 = some (ascii "/")
      ∧ (uriParseCstrLen (ascii "h" ++ [0]) 1).1 = 0
      ∧ uriGetPath (uriParseCstrLen (ascii "h" ++ [0]) 1).2 = none
      ∧ uriParseCstrLen (ascii "h/p") 1 ≠ uriParseCstrLen (ascii "h" ++ [0]) 1 := by
  decide

end CWebServer.Uri
