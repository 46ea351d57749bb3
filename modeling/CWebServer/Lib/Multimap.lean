import CWebServer.Lib.Machines
import Mathlib.Data.List.Induction
import Mathlib.Data.List.Nodup

/-!
# Multimap — insertion-ordered multimaps

Values under names, where two names are one if they have the same key. Names
stand in the order in which they were first used and keep the spelling of
that use; the values of a name stand in the order in which they were
appended. That no two names have the same key is part of the type.
-/

namespace CWebServer.Lib

variable {α β κ : Type*}

/-- Changing one element changes one element of what is mapped from it. -/
theorem map_modify_comm {γ : Type*} {f : α → α} {g : α → γ} {f' : γ → γ}
    (h : ∀ a, g (f a) = f' (g a)) (l : List α) (i : Nat) :
    (l.modify i f).map g = (l.map g).modify i f' := by
  induction l generalizing i with
  | nil => simp
  | cons a l ih =>
      cases i with
      | zero => simp [h]
      | succ i => simp [ih]

theorem map_modify_eq {γ : Type*} {f : α → α} {g : α → γ} (h : ∀ a, g (f a) = g a)
    (l : List α) (i : Nat) : (l.modify i f).map g = l.map g :=
  (map_modify_comm h l i).trans (List.modify_id i _)

theorem findIdx?_congr {p q : α → Bool} {l : List α} (h : ∀ a ∈ l, p a = q a) :
    l.findIdx? p = l.findIdx? q := by
  induction l with
  | nil => rfl
  | cons a l ih =>
      rw [List.findIdx?_cons, List.findIdx?_cons, h a List.mem_cons_self,
        ih fun b hb => h b (List.mem_cons_of_mem a hb)]

/-- The names with their values. -/
structure Multimap (β : Type*) (key : α → κ) where
  entries : List (α × List β)
  nodup : (entries.map fun e => key e.1).Nodup

namespace Multimap

variable {key : α → κ}

/-- No names. -/
def empty : Multimap β key := ⟨[], List.nodup_nil⟩

/-- A change to the values at one position. -/
def modify (m : Multimap β key) (i : Nat) (f : List β → List β) : Multimap β key :=
  ⟨m.entries.modify i fun e => (e.1, f e.2), by
    rw [map_modify_eq]
    · exact m.nodup
    · exact fun _ => rfl⟩

theorem names_modify (m : Multimap β key) (i : Nat) (f : List β → List β) :
    (m.modify i f).entries.map Prod.fst = m.entries.map Prod.fst := by
  apply map_modify_eq
  exact fun _ => rfl

variable [DecidableEq κ]

/-- The position of a name, in any spelling. -/
def position (m : Multimap β key) (a : α) : Option Nat :=
  m.entries.findIdx? fun e => key e.1 = key a

theorem position_eq_none {m : Multimap β key} {a : α} :
    m.position a = none ↔ ∀ e ∈ m.entries, key e.1 ≠ key a := by
  simp [position]

/-- A name that is missing gets the next position. -/
def ensure (m : Multimap β key) (a : α) : Multimap β key :=
  if h : m.position a = none then
    ⟨m.entries ++ [(a, [])], by
      rw [List.map_append, List.map_singleton]
      refine m.nodup.append (List.nodup_singleton _) ?_
      intro k hk hk'
      obtain ⟨e, he, rfl⟩ := List.mem_map.mp hk
      exact position_eq_none.mp h e he (List.mem_singleton.mp hk')⟩
  else m

/-! ## Calls -/

/-- What can be asked of a multimap. Names are asked for in any spelling,
entries by their position. -/
inductive Call (α β : Type*)
  | get (name : α) (create : Bool)
  | nth (i : Nat)
  | append (i : Nat) (value : β)
  | clearValues (i : Nat)
  | clear

/-- The entry at a position, with the position. -/
def entryAt (m : Multimap β key) (i : Nat) : Option (Nat × α × List β) :=
  m.entries[i]?.map fun e => (i, e.1, e.2)

/-- One call: the entry that is answered, and the next state. -/
def step (m : Multimap β key) : Call α β → Option (Nat × α × List β) × Multimap β key
  | .get name create =>
      let m' := if create then m.ensure name else m
      ((m'.position name).bind m'.entryAt, m')
  | .nth i => (m.entryAt i, m)
  | .append i value => (none, m.modify i (· ++ [value]))
  | .clearValues i => (none, m.modify i fun _ => [])
  | .clear => (none, empty)

/-! ## What is found -/

/-- An entry is found under every spelling of its name, and under no other. -/
theorem position_eq_some_iff {m : Multimap β key} {a : α} {i : Nat} :
    m.position a = some i ↔ ∃ e, m.entries[i]? = some e ∧ key e.1 = key a := by
  constructor
  · intro h
    obtain ⟨hi, hkey, -⟩ := List.findIdx?_eq_some_iff_getElem.mp h
    exact ⟨m.entries[i], List.getElem?_eq_getElem hi, by simpa using hkey⟩
  · rintro ⟨e, he, hkey⟩
    obtain ⟨hi, rfl⟩ := List.getElem?_eq_some_iff.mp he
    refine List.findIdx?_eq_some_iff_getElem.mpr ⟨hi, by simpa using hkey, ?_⟩
    intro j hj hother
    have hsame : key m.entries[j].1 = key m.entries[i].1 :=
      (of_decide_eq_true hother).trans hkey.symm
    have hnodup := List.nodup_iff_injective_getElem.mp m.nodup
    have hij := @hnodup ⟨j, by simp; omega⟩ ⟨i, by simpa using hi⟩ (by simpa using hsame)
    exact absurd (congrArg Fin.val hij) (Nat.ne_of_lt hj)

/-- Adding a missing name. -/
theorem entries_ensure (m : Multimap β key) (a : α) :
    (m.ensure a).entries
      = match m.position a with
        | some _ => m.entries
        | none => m.entries ++ [(a, [])] := by
  unfold ensure
  split
  · rename_i h
    rw [h]
  · rename_i h
    obtain ⟨i, hi⟩ := Option.ne_none_iff_exists'.mp h
    rw [hi]

/-- A name that is there is left alone. -/
theorem ensure_of_position {m : Multimap β key} {a : α} {i : Nat} (h : m.position a = some i) :
    m.ensure a = m := by
  unfold ensure
  rw [dif_neg]
  simp [h]

/-- A name that was missing is found last. -/
theorem position_ensure {m : Multimap β key} {a : α} (h : m.position a = none) :
    (m.ensure a).position a = some m.entries.length := by
  apply position_eq_some_iff.mpr
  exact ⟨(a, []), by simp [entries_ensure, h], rfl⟩

/-! ## The spelling of a name -/

/-- What one call does to the names. -/
theorem names_step (m : Multimap β key) (c : Call α β) :
    (m.step c).2.entries.map Prod.fst = []
      ∨ (c ≠ .clear ∧ (m.step c).2.entries.map Prod.fst = m.entries.map Prod.fst)
      ∨ ∃ a, c = .get a true ∧ m.position a = none
          ∧ (m.step c).2.entries.map Prod.fst = m.entries.map Prod.fst ++ [a] := by
  cases c with
  | get a create =>
      cases create with
      | false => exact .inr (.inl ⟨by simp, rfl⟩)
      | true =>
          cases h : m.position a with
          | some i => exact .inr (.inl ⟨by simp, by simp [step, entries_ensure, h]⟩)
          | none => exact .inr (.inr ⟨a, rfl, h, by simp [step, entries_ensure, h]⟩)
  | nth i => exact .inr (.inl ⟨by simp, rfl⟩)
  | append i value => exact .inr (.inl ⟨by simp, names_modify m i _⟩)
  | clearValues i => exact .inr (.inl ⟨by simp, names_modify m i _⟩)
  | clear => exact .inl rfl

/-- **A name is spelled as in the call that created it**: that call asked for
the name when it was missing, and nothing was cleared since. -/
theorem name_created (calls : List (Call α β)) {a : α}
    (h : a ∈ (answers step calls (empty : Multimap β key)).2.entries.map Prod.fst) :
    ∃ pre post, calls = pre ++ .get a true :: post
      ∧ (answers step pre (empty : Multimap β key)).2.position a = none
      ∧ Call.clear ∉ post := by
  induction calls using List.reverseRecOn with
  | nil => exact absurd h (by simp [empty])
  | append_singleton calls c ih =>
      rw [answers_append] at h
      have hlast : ∀ s : Multimap β key, (answers step [c] s).2 = (s.step c).2 := fun _ => rfl
      rw [hlast] at h
      rcases names_step (answers step calls (empty : Multimap β key)).2 c with
        hnil | ⟨hc, hsame⟩ | ⟨b, rfl, hmissing, hnew⟩
      · rw [hnil] at h
        exact absurd h List.not_mem_nil
      · rw [hsame] at h
        obtain ⟨pre, post, rfl, hmissing, hpost⟩ := ih h
        refine ⟨pre, post ++ [c], by simp, hmissing, ?_⟩
        simp [hpost, hc.symm]
      · rw [hnew, List.mem_append, List.mem_singleton] at h
        rcases h with h | rfl
        · obtain ⟨pre, post, rfl, hfirst, hpost⟩ := ih h
          refine ⟨pre, post ++ [.get b true], by simp, hfirst, ?_⟩
          simp [hpost]
        · exact ⟨calls, [], rfl, hmissing, by simp⟩

end Multimap

end CWebServer.Lib
