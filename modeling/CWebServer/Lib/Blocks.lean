import Mathlib.Algebra.BigOperators.Group.Multiset.Basic
import Mathlib.Data.Multiset.Filter
import Mathlib.Tactic.Abel

/-!
# Lib — Blocks

Programs that allocate memory, and what they own. A heap knows the blocks
that are allocated and not freed; a program that frees one which is not, or
touches what lies outside of one, has no result. `Spec own x own' post` is the
triple of such a program: of the blocks there are it needs `own`, gives back
`own'`, which it had or allocated itself, and leaves all the others alone,
whatever they are.
-/

namespace CWebServer.Lib

/-! ## Heaps -/

/-- An allocated block: its name and how many elements it has room for. -/
structure Block where
  name : Nat
  size : Nat
deriving DecidableEq, Repr

/-- The blocks allocated and not freed, and how many were ever allocated. No
name is given twice. -/
structure Heap where
  live : Multiset Block
  allocated : Nat
  nodup : (live.map Block.name).Nodup
  lt : ∀ b ∈ live, b.name < allocated

/-- Nothing was allocated yet. -/
def Heap.empty : Heap where
  live := 0
  allocated := 0
  nodup := Multiset.nodup_zero
  lt := by simp

/-- A program over a heap; `none` is undefined behaviour. -/
abbrev Alloc := StateT Heap Option

/-- `malloc`, which is taken not to fail. -/
def malloc (size : Nat) : Alloc Nat := fun h =>
  some (h.allocated,
    { live := ⟨h.allocated, size⟩ ::ₘ h.live
      allocated := h.allocated + 1
      nodup := by
        rw [Multiset.map_cons, Multiset.nodup_cons]
        refine ⟨fun hmem => ?_, h.nodup⟩
        obtain ⟨b, hb, hname⟩ := Multiset.mem_map.mp hmem
        exact absurd (h.lt b hb) (Nat.not_lt.mpr (Nat.le_of_eq hname.symm))
      lt := by
        intro b hb
        rcases Multiset.mem_cons.mp hb with rfl | hb
        · exact Nat.lt_succ_self _
        · exact Nat.lt_succ_of_lt (h.lt b hb) })

/-- `free` of a pointer that is not `NULL`. -/
def free (p : Nat) : Alloc Unit := fun h =>
  if p ∈ h.live.map Block.name then
    some ((),
      { live := h.live.filter (·.name ≠ p)
        allocated := h.allocated
        nodup := Multiset.nodup_of_le (Multiset.map_le_map (Multiset.filter_le _ _)) h.nodup
        lt := fun b hb => h.lt b (Multiset.mem_of_mem_filter hb) })
  else none

/-- A read or a write of `count` elements from `start` on. -/
def access (p start count : Nat) : Alloc Unit := fun h =>
  if p ∈ (h.live.filter fun b => start + count ≤ b.size).map Block.name then some ((), h)
  else none

/-- `free`, which leaves `NULL` alone. -/
def freePointer : Option Nat → Alloc Unit
  | none => pure ()
  | some p => free p

/-- `realloc`. The old pointer is not to be used any more, even if the block
did not move. -/
def realloc (p : Option Nat) (size : Nat) : Alloc Nat := do
  freePointer p
  malloc size

/-- An access through a pointer that may be `NULL`. -/
def accessPointer : Option Nat → Nat → Nat → Alloc Unit
  | none, _, _ => failure
  | some p, start, count => access p start count

/-! ## Triples -/

def Spec {α : Type} (own : Multiset Block) (x : Alloc α) (own' : α → Multiset Block)
    (post : α → Prop) : Prop :=
  ∀ (h : Heap) (rest : Multiset Block), h.live = own + rest →
    ∃ a h', x h = some (a, h') ∧ h'.live = own' a + rest ∧ post a
      ∧ h.allocated ≤ h'.allocated ∧ ∀ b ∈ own' a, b ∈ own ∨ h.allocated ≤ b.name

section
variable {α β : Type} {own own₁ : Multiset Block} {own' own₂ : α → Multiset Block}
  {own₃ : β → Multiset Block} {post : α → Prop} {post₂ : β → Prop} {x : Alloc α}
  {f : α → Alloc β}

theorem Spec.pure {a : α} (hown : own = own' a) (h : post a) : Spec own (pure a) own' post :=
  fun heap _ hlive =>
    ⟨a, heap, rfl, hown ▸ hlive, h, Nat.le_refl _, fun _ hb => .inl (hown ▸ hb)⟩

theorem Spec.bind (hx : Spec own x own' post)
    (hf : ∀ a, post a → Spec (own' a) (f a) own₃ post₂) :
    Spec own (x >>= f) own₃ post₂ := by
  intro h rest hlive
  obtain ⟨a, h', hrun, hlive', ha, hle, hnew⟩ := hx h rest hlive
  obtain ⟨b, h'', hrun', hlive'', hb, hle', hnew'⟩ := hf a ha h' rest hlive'
  refine ⟨b, h'', ?_, hlive'', hb, Nat.le_trans hle hle', ?_⟩
  · change (x h).bind _ = _
    rw [hrun]
    exact hrun'
  · intro block hblock
    rcases hnew' block hblock with hmem | hlt
    · exact hnew block hmem
    · exact .inr (Nat.le_trans hle hlt)

theorem Spec.map {g : α → β} (hx : Spec own x (fun a => own₃ (g a)) fun a => post₂ (g a)) :
    Spec own (g <$> x) own₃ post₂ := by
  rw [map_eq_pure_bind]
  exact hx.bind fun a ha => Spec.pure rfl ha

theorem Spec.frame (hx : Spec own x own' post) (fr : Multiset Block) :
    Spec (own + fr) x (fun a => own' a + fr) post := by
  intro h rest hlive
  obtain ⟨a, h', hrun, hlive', ha, hle, hnew⟩ := hx h (fr + rest) (by rw [hlive, add_assoc])
  refine ⟨a, h', hrun, by rw [hlive', add_assoc], ha, hle, ?_⟩
  intro block hblock
  rcases Multiset.mem_add.mp hblock with hmem | hmem
  · exact (hnew block hmem).imp_left fun hown => Multiset.mem_add.mpr (.inl hown)
  · exact .inl (Multiset.mem_add.mpr (.inr hmem))

/-- The blocks in another order, and less said about the result. -/
theorem Spec.consequence (hx : Spec own x own' post) (hown : own₁ = own)
    (hown' : ∀ a, post a → own₂ a = own' a) {post' : α → Prop}
    (hpost : ∀ a, post a → post' a) :
    Spec own₁ x own₂ post' := by
  subst hown
  intro h rest hlive
  obtain ⟨a, h', hrun, hlive', ha, hle, hnew⟩ := hx h rest hlive
  exact ⟨a, h', hrun, by rw [hlive', hown' a ha], hpost a ha, hle, hown' a ha ▸ hnew⟩

theorem Spec.mono (hx : Spec own x own' post) {post' : α → Prop}
    (hpost : ∀ a, post a → post' a) :
    Spec own x own' post' :=
  hx.consequence rfl (fun _ _ => rfl) hpost

/-- A program that leaves the blocks as they are, run with more of them. -/
theorem Spec.within (hx : Spec own x (fun _ => own) post) (hle : own ≤ own₁) :
    Spec own₁ x (fun _ => own₁) post := by
  obtain ⟨fr, rfl⟩ := Multiset.le_iff_exists_add.mp hle
  exact hx.frame fr

/-- A call that takes some of the blocks, and what comes after it. -/
theorem Spec.call (hx : Spec own x own' post) (fr : Multiset Block) (hown : own₁ = own + fr)
    (hf : ∀ a, post a → Spec (own' a + fr) (f a) own₃ post₂) :
    Spec own₁ (x >>= f) own₃ post₂ := by
  subst hown
  exact (hx.frame fr).bind hf

/-- What is left of the blocks may depend on a result on the way. -/
theorem Spec.leaves {left : α → Multiset Block} (hx : Spec own x own' post)
    (hf : ∀ a, post a → Spec (own' a) (f a) (fun _ => left a) post₂) {h : Heap}
    {rest : Multiset Block} (hlive : h.live = own + rest) :
    ∃ a b h', (x >>= f) h = some (b, h') ∧ post a ∧ post₂ b ∧ h'.live = left a + rest
      ∧ ∀ block ∈ left a, block ∈ own ∨ h.allocated ≤ block.name := by
  obtain ⟨a, h', hrun, hlive', ha, hle, hnew⟩ := hx h rest hlive
  obtain ⟨b, h'', hrun', hlive'', hb, -, hnew'⟩ := hf a ha h' rest hlive'
  refine ⟨a, b, h'', ?_, ha, hb, hlive'', ?_⟩
  · change (x h).bind _ = _
    rw [hrun]
    exact hrun'
  · intro block hblock
    rcases hnew' block hblock with hmem | hlt
    · exact hnew block hmem
    · exact .inr (Nat.le_trans hle hlt)

/-- A call at the end of a program. -/
theorem Spec.last (hx : Spec own x own' post) (fr : Multiset Block) (hown : own₁ = own + fr)
    (hown' : ∀ a, post a → own₂ a = own' a + fr) {post' : α → Prop}
    (hpost : ∀ a, post a → post' a) : Spec own₁ x own₂ post' :=
  (hx.frame fr).consequence hown hown' hpost

end

/-! ## Blocks that are gone -/

/-- No block is called `q`, and none will be. -/
def Gone (q : Nat) (h : Heap) : Prop := q < h.allocated ∧ q ∉ h.live.map Block.name

/-- The triple of a program that frees the block `q`. -/
def Frees {α : Type} (q : Nat) (own : Multiset Block) (x : Alloc α) (own' : α → Multiset Block)
    (post : α → Prop) : Prop :=
  ∀ (h : Heap) (rest : Multiset Block), h.live = own + rest →
    ∃ a h', x h = some (a, h') ∧ h'.live = own' a + rest ∧ post a ∧ Gone q h'

section
variable {α β : Type} {q : Nat} {own own₁ : Multiset Block} {own' : α → Multiset Block}
  {own₃ : β → Multiset Block} {post : α → Prop} {post₂ : β → Prop} {x : Alloc α}
  {f : α → Alloc β}

theorem Spec.bind_frees (hx : Spec own x own' post)
    (hf : ∀ a, post a → Frees q (own' a) (f a) own₃ post₂) :
    Frees q own (x >>= f) own₃ post₂ := by
  intro h rest hlive
  obtain ⟨a, h', hrun, hlive', ha, -⟩ := hx h rest hlive
  obtain ⟨b, h'', hrun', hlive'', hb, hgone⟩ := hf a ha h' rest hlive'
  refine ⟨b, h'', ?_, hlive'', hb, hgone⟩
  change (x h).bind _ = _
  rw [hrun]
  exact hrun'

/-- A block that is gone does not come back. -/
theorem Frees.bind (hx : Frees q own x own' post)
    (hf : ∀ a, post a → Spec (own' a) (f a) own₃ post₂) :
    Frees q own (x >>= f) own₃ post₂ := by
  intro h rest hlive
  obtain ⟨a, h', hrun, hlive', ha, hlt, hgone⟩ := hx h rest hlive
  obtain ⟨b, h'', hrun', hlive'', hb, hle, hnew⟩ := hf a ha h' rest hlive'
  refine ⟨b, h'', ?_, hlive'', hb, Nat.lt_of_lt_of_le hlt hle, ?_⟩
  · change (x h).bind _ = _
    rw [hrun]
    exact hrun'
  · intro hmem
    obtain ⟨block, hblock, rfl⟩ := Multiset.mem_map.mp hmem
    rw [hlive''] at hblock
    have hold (hin : block ∈ h'.live) : False := hgone (Multiset.mem_map_of_mem Block.name hin)
    rcases Multiset.mem_add.mp hblock with hin | hin
    · rcases hnew block hin with hin | hle'
      · exact hold (hlive' ▸ Multiset.mem_add.mpr (.inl hin))
      · omega
    · exact hold (hlive' ▸ Multiset.mem_add.mpr (.inr hin))

end

/-- Memory that is gone cannot be touched. -/
theorem Gone.access {q start count : Nat} {h : Heap} (hgone : Gone q h) :
    access q start count h = none := by
  refine if_neg fun hmem => hgone.2 ?_
  exact Multiset.mem_of_le (Multiset.map_le_map (Multiset.filter_le _ _)) hmem

/-! ## The operations -/

theorem malloc_spec (size : Nat) :
    Spec 0 (malloc size) (fun p => {⟨p, size⟩}) fun _ => True := by
  intro h rest hlive
  refine ⟨h.allocated, _, rfl, ?_, trivial, Nat.le_succ _, ?_⟩
  · rw [zero_add] at hlive
    rw [Multiset.singleton_add, ← hlive]
  · intro b hb
    rw [Multiset.mem_singleton.mp hb]
    exact .inr (Nat.le_refl _)

theorem free_spec {b : Block} : Spec {b} (free b.name) (fun _ => 0) fun _ => True := by
  intro h rest hlive
  have hnodup := h.nodup
  rw [hlive, Multiset.singleton_add] at hnodup
  rw [Multiset.map_cons, Multiset.nodup_cons] at hnodup
  have hmem : b.name ∈ h.live.map Block.name := by
    rw [hlive, Multiset.singleton_add]
    exact Multiset.mem_map_of_mem _ (Multiset.mem_cons_self b rest)
  refine ⟨(), _, if_pos hmem, ?_, trivial, Nat.le_refl _, by simp⟩
  have hrest : rest.filter (·.name ≠ b.name) = rest := by
    rw [Multiset.filter_eq_self]
    intro b' hb' hname
    exact hnodup.1 (Multiset.mem_map.mpr ⟨b', hb', hname⟩)
  simp only [hlive, Multiset.filter_add, hrest]
  rw [Multiset.filter_singleton, if_neg (not_not.mpr rfl)]
  rfl

/-- Blocks that are owned can be read and written. -/
theorem access_spec {own : Multiset Block} {p size start count : Nat} (hmem : ⟨p, size⟩ ∈ own)
    (hle : start + count ≤ size) :
    Spec own (access p start count) (fun _ => own) fun _ => True := by
  intro h rest hlive
  have hlive' : p ∈ (h.live.filter fun b => start + count ≤ b.size).map Block.name := by
    rw [hlive]
    exact Multiset.mem_map_of_mem Block.name
      (Multiset.mem_filter.mpr ⟨Multiset.mem_add.mpr (.inl hmem), hle⟩)
  exact ⟨(), h, if_pos hlive', hlive, trivial, Nat.le_refl _, fun _ hb => .inl hb⟩

/-- The block behind a pointer; there is none behind `NULL`. -/
def blockOf (p : Option Nat) (size : Nat) : Multiset Block :=
  match p with
  | none => 0
  | some name => {⟨name, size⟩}

@[simp] theorem blockOf_none (size : Nat) : blockOf none size = 0 := rfl

@[simp] theorem blockOf_some (name size : Nat) :
    blockOf (some name) size = {⟨name, size⟩} := rfl

theorem freePointer_spec (p : Option Nat) (size : Nat) :
    Spec (blockOf p size) (freePointer p) (fun _ => 0) fun _ => True := by
  cases p with
  | none => exact Spec.pure rfl trivial
  | some name => exact free_spec

theorem realloc_spec (p : Option Nat) (size size' : Nat) :
    Spec (blockOf p size) (realloc p size') (fun p' => {⟨p', size'⟩}) fun _ => True :=
  (freePointer_spec p size).bind fun _ _ => malloc_spec size'

/-! ## Arrays

An array that is given one more element by `realloc` each time it is full.
Its elements own blocks themselves. -/

/-- The elements stand in one block; without any there is no block. -/
structure HeapArray (β : Type) where
  data : Option Nat
  slots : List β
  data_eq_none : data = none ↔ slots = []

namespace HeapArray

variable {β : Type}

def empty : HeapArray β := ⟨none, [], Iff.intro (fun _ => rfl) fun _ => rfl⟩

def blocks (own : β → Multiset Block) (a : HeapArray β) : Multiset Block :=
  blockOf a.data a.slots.length + (a.slots.map own).sum

/-- A block for one more element. -/
def growBlock (a : HeapArray β) : Alloc Nat :=
  if a.slots.length = 0 then malloc 1 else realloc a.data (a.slots.length + 1)

/-- The new element, made in its place. -/
def addSlot (a : HeapArray β) (p : Nat) (new : Alloc β) :
    Alloc { a' : HeapArray β // a'.slots.length = a.slots.length + 1 } := do
  access p a.slots.length 1
  let b ← new
  pure ⟨⟨some p, a.slots ++ [b], by simp⟩, by simp⟩

/-- One more element. -/
def grow (a : HeapArray β) (new : Alloc β) :
    Alloc { a' : HeapArray β // a'.slots.length = a.slots.length + 1 } := do
  let p ← a.growBlock
  a.addSlot p new

/-- A change of one element in its place. -/
def onSlot (a : HeapArray β) (i : Nat) (f : β → Alloc β) :
    Alloc { a' : HeapArray β // a'.data = a.data ∧ a'.slots.length = a.slots.length } := do
  accessPointer a.data i 1
  match a.slots[i]? with
  | none => failure
  | some b => do
      let b' ← f b
      pure ⟨⟨a.data, a.slots.set i b', by simp [a.data_eq_none]⟩, rfl, by simp⟩

/-- A loop over elements from `i` on. -/
def forLoop (data : Option Nat) (f : β → Alloc Unit) : Nat → List β → Alloc Unit
  | _, [] => pure ()
  | i, b :: rest => do
      accessPointer data i 1
      f b
      forLoop data f (i + 1) rest

/-- Each element is deallocated, then the array. -/
def dealloc (a : HeapArray β) (f : β → Alloc Unit) : Alloc Unit :=
  if 0 < a.slots.length then do
    forLoop a.data f 0 a.slots
    freePointer a.data
  else pure ()

section
variable {own : β → Multiset Block} {a : HeapArray β}

@[simp] theorem blocks_empty : (empty : HeapArray β).blocks own = 0 := rfl

theorem sum_eq {l : List β} {i : Nat} {b : β} (h : l[i]? = some b) :
    (l.map own).sum = own b + ((l.eraseIdx i).map own).sum := by
  induction l generalizing i with
  | nil => simp at h
  | cons c l ih =>
      cases i with
      | zero =>
          obtain rfl : c = b := by simpa using h
          simp
      | succ i =>
          rw [List.getElem?_cons_succ] at h
          rw [List.map_cons, List.sum_cons, ih h, List.eraseIdx_cons_succ, List.map_cons,
            List.sum_cons]
          abel

theorem sum_set {l : List β} {i : Nat} (h : i < l.length) (b : β) :
    ((l.set i b).map own).sum = own b + ((l.eraseIdx i).map own).sum := by
  have hb : (l.set i b)[i]? = some b := by simp [h]
  rw [sum_eq hb]
  congr 3
  exact List.eraseIdx_set_eq

theorem own_le {i : Nat} {b : β} (h : a.slots[i]? = some b) : own b ≤ a.blocks own := by
  rw [blocks, sum_eq h, add_left_comm]
  exact Multiset.le_add_right _ _

/-- An element is inside of the array. -/
theorem accessPointer_spec {i : Nat} (hi : i < a.slots.length) {owned : Multiset Block}
    (hle : blockOf a.data a.slots.length ≤ owned) :
    Spec owned (accessPointer a.data i 1) (fun _ => owned) fun _ => True := by
  cases hdata : a.data with
  | none =>
      rw [a.data_eq_none.mp hdata] at hi
      exact absurd hi (Nat.not_lt_zero i)
  | some p =>
      rw [hdata] at hle
      exact access_spec (Multiset.mem_of_le hle (Multiset.mem_singleton_self _)) hi

theorem accessSlot_spec {i : Nat} {b : β} (h : a.slots[i]? = some b) {owned : Multiset Block}
    (hle : a.blocks own ≤ owned) :
    Spec owned (accessPointer a.data i 1) (fun _ => owned) fun _ => True := by
  obtain ⟨hi, -⟩ := List.getElem?_eq_some_iff.mp h
  exact accessPointer_spec hi ((Multiset.le_add_right _ _).trans hle)

/-- The elements from `i` on begin with these: what a loop over the array has
before it. -/
def HasAt (a : HeapArray β) (i : Nat) (l : List β) : Prop :=
  ∀ k b, l[k]? = some b → a.slots[i + k]? = some b

theorem HasAt.head {i : Nat} {b : β} {l : List β} (h : a.HasAt i (b :: l)) :
    a.slots[i]? = some b :=
  h 0 b rfl

theorem HasAt.tail {i : Nat} {b : β} {l : List β} (h : a.HasAt i (b :: l)) :
    a.HasAt (i + 1) l := by
  intro k c hk
  rw [Nat.add_right_comm]
  exact h (k + 1) c hk

theorem hasAt_take (a : HeapArray β) (n : Nat) : a.HasAt 0 (a.slots.take n) := by
  intro k b hk
  rw [List.getElem?_take] at hk
  split at hk
  · rwa [Nat.zero_add]
  · cases hk

theorem growBlock_spec : Spec (blockOf a.data a.slots.length) a.growBlock
    (fun p => {⟨p, a.slots.length + 1⟩}) fun _ => True := by
  unfold growBlock
  split
  · rename_i hzero
    rw [a.data_eq_none.mpr (List.length_eq_zero_iff.mp hzero), hzero]
    exact malloc_spec 1
  · exact realloc_spec a.data a.slots.length _

theorem addSlot_spec {p : Nat} {new : Alloc β} {post : β → Prop} (hnew : Spec 0 new own post) :
    Spec ({⟨p, a.slots.length + 1⟩} + (a.slots.map own).sum) (a.addSlot p new)
      (fun a' => a'.1.blocks own) fun a' => ∃ b, post b ∧ a'.1.slots = a.slots ++ [b] := by
  have hnewest : (⟨p, a.slots.length + 1⟩ : Block)
      ∈ {⟨p, a.slots.length + 1⟩} + (a.slots.map own).sum :=
    Multiset.mem_add.mpr (.inl (Multiset.mem_singleton_self _))
  refine (access_spec hnewest (Nat.le_refl _)).bind fun _ _ => ?_
  refine hnew.call _ (zero_add _).symm fun b hb => ?_
  refine Spec.pure ?_ ⟨b, hb, rfl⟩
  simp only [blocks, List.length_append, List.length_singleton, List.map_append, List.map_cons,
    List.map_nil, List.sum_append, List.sum_singleton, blockOf_some]
  abel

theorem grow_spec {new : Alloc β} {post : β → Prop} (hnew : Spec 0 new own post) :
    Spec (a.blocks own) (a.grow new) (fun a' => a'.1.blocks own)
      fun a' => ∃ b, post b ∧ a'.1.slots = a.slots ++ [b] :=
  growBlock_spec.call (a.slots.map own).sum rfl fun _ _ => addSlot_spec hnew

/-- The block has another size, so it is another one. -/
theorem growBlock_frees {q : Nat} (hq : a.data = some q) :
    Frees q (a.blocks own) a.growBlock
      (fun p => {⟨p, a.slots.length + 1⟩} + (a.slots.map own).sum) fun _ => True := by
  intro h rest hlive
  rw [blocks, add_assoc] at hlive
  obtain ⟨p, h', hrun, hlive', -, hle, hnew⟩ := growBlock_spec h _ hlive
  have hblock : blockOf a.data a.slots.length = {⟨q, a.slots.length⟩} := by
    rw [hq, blockOf_some]
  rw [hblock] at hlive hnew
  have hfresh : h.allocated ≤ p := by
    rcases hnew _ (Multiset.mem_singleton_self _) with hin | hle'
    · have hsize := congrArg Block.size (Multiset.mem_singleton.mp hin)
      simp at hsize
    · exact hle'
  have hlt : q < h.allocated := by
    refine h.lt ⟨q, a.slots.length⟩ ?_
    rw [hlive]
    exact Multiset.mem_add.mpr (.inl (Multiset.mem_singleton_self _))
  have hnodup := h.nodup
  rw [hlive, Multiset.singleton_add, Multiset.map_cons, Multiset.nodup_cons] at hnodup
  refine ⟨p, h', hrun, by rw [hlive', add_assoc], trivial, by omega, ?_⟩
  rw [hlive', Multiset.singleton_add, Multiset.map_cons, Multiset.mem_cons]
  rintro (rfl | hin)
  · omega
  · exact hnodup.1 hin

/-- An array that grows is moved. -/
theorem grow_frees {q : Nat} (hq : a.data = some q) {new : Alloc β} {post : β → Prop}
    (hnew : Spec 0 new own post) :
    Frees q (a.blocks own) (a.grow new) (fun a' => a'.1.blocks own)
      fun a' => ∃ b, post b ∧ a'.1.slots = a.slots ++ [b] :=
  (growBlock_frees hq).bind fun _ _ => addSlot_spec hnew

theorem onSlot_spec {i : Nat} {b : β} (hb : a.slots[i]? = some b) {f : β → Alloc β}
    {post : β → Prop} (extra : Multiset Block)
    (hf : Spec (own b + extra) (f b) (fun b' => own b' + extra) post) :
    Spec (a.blocks own + extra) (a.onSlot i f) (fun a' => a'.1.blocks own + extra)
      fun a' => ∃ b', post b' ∧ a'.1.slots = a.slots.set i b' := by
  obtain ⟨hi, -⟩ := List.getElem?_eq_some_iff.mp hb
  unfold onSlot
  refine (accessPointer_spec hi ?_).bind fun _ _ => ?_
  · rw [blocks, add_assoc]
    exact Multiset.le_add_right _ _
  rw [hb]
  refine hf.call (blockOf a.data a.slots.length + ((a.slots.eraseIdx i).map own).sum) ?_
    fun b' hb' => ?_
  · rw [blocks, sum_eq hb]
    abel
  · refine Spec.pure ?_ ⟨b', hb', rfl⟩
    simp only [blocks, List.length_set, sum_set hi]
    abel

theorem forLoop_spec {f : β → Alloc Unit} (l : List β) (i : Nat)
    (hi : i + l.length ≤ a.slots.length)
    (hf : ∀ b ∈ l, Spec (own b) (f b) (fun _ => 0) fun _ => True) :
    Spec (blockOf a.data a.slots.length + (l.map own).sum) (forLoop a.data f i l)
      (fun _ => blockOf a.data a.slots.length) fun _ => True := by
  induction l generalizing i with
  | nil => exact Spec.pure (add_zero _) trivial
  | cons b rest ih =>
      rw [List.length_cons] at hi
      refine (accessPointer_spec (by omega) (Multiset.le_add_right _ _)).bind fun _ _ => ?_
      refine (hf b List.mem_cons_self).call
        (blockOf a.data a.slots.length + (rest.map own).sum) ?_ fun _ _ => ?_
      · rw [List.map_cons, List.sum_cons]
        abel
      · rw [zero_add]
        exact ih (i + 1) (by omega) fun b' hb' => hf b' (List.mem_cons_of_mem b hb')

theorem dealloc_spec {f : β → Alloc Unit}
    (hf : ∀ b ∈ a.slots, Spec (own b) (f b) (fun _ => 0) fun _ => True) :
    Spec (a.blocks own) (a.dealloc f) (fun _ => 0) fun _ => True := by
  unfold dealloc
  split
  · refine (forLoop_spec a.slots 0 (by omega) hf).bind fun _ _ => ?_
    exact freePointer_spec a.data a.slots.length
  · rename_i hempty
    have hnil : a.slots = [] := List.length_eq_zero_iff.mp (by omega)
    refine Spec.pure ?_ trivial
    rw [blocks, a.data_eq_none.mpr hnil, hnil]
    rfl

end

end HeapArray

end CWebServer.Lib
