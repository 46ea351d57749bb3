import Mathlib.Data.List.Basic

/-!
# Files — a sequence with a position in it

What a random-access stream is for: reading takes what stands behind the
position, writing replaces it, and both move the position on. The position
is never past the end.
-/

namespace CWebServer.Lib

/-- A sequence with a position in it. -/
@[ext] structure File (α : Type*) where
  contents : List α
  position : Nat
  position_le : position ≤ contents.length

namespace File

variable {α : Type*} (f : File α)

/-- A file with nothing in it. -/
def empty : File α := ⟨[], 0, Nat.zero_le _⟩

/-- What a read of `n` finds. -/
def read (n : Nat) : List α :=
  (f.contents.drop f.position).take n

theorem length_read (n : Nat) :
    (f.read n).length = min n (f.contents.length - f.position) := by
  simp [read]

/-- What stands behind the position. -/
def rest : List α :=
  f.contents.drop f.position

/-- The file with its position elsewhere. -/
def moveTo (pos : Nat) (h : pos ≤ f.contents.length) : File α :=
  { f with position := pos, position_le := h }

/-- The file behind a read of `n`. -/
def afterRead (n : Nat) : File α :=
  f.moveTo (f.position + (f.read n).length) <| by
    have hposition := f.position_le
    rw [length_read]
    omega

theorem read_append_rest (n : Nat) : f.read n ++ (f.afterRead n).rest = f.rest := by
  have hprefix : f.read n <+: f.rest := List.take_prefix n _
  show f.read n ++ f.contents.drop (f.position + (f.read n).length) = f.rest
  rw [← List.drop_drop]
  exact (List.prefix_iff_eq_append.mp hprefix)

theorem length_write (s : List α) :
    (f.contents.take f.position ++ s ++ f.contents.drop (f.position + s.length)).length
      = max f.contents.length (f.position + s.length) := by
  have hposition := f.position_le
  simp only [List.length_append, List.length_take, List.length_drop]
  omega

/-- The file with `s` written at its position. -/
def write (s : List α) : File α where
  contents := f.contents.take f.position ++ s ++ f.contents.drop (f.position + s.length)
  position := f.position + s.length
  position_le := by
    rw [length_write]
    exact Nat.le_max_right _ _

end File

end CWebServer.Lib
