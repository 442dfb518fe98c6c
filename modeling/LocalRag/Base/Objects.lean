-- SUMMARY: Objects that are shared by reference and changed in place.
import Mathlib.Data.Nat.Notation
import Mathlib.Logic.Function.Basic

/-!
# Objects

A list of objects is a list of references. Whoever holds a reference sees what
others do to the object.
-/

namespace Objects

abbrev Ref := ℕ

structure Store (α : Type) where
  get : Ref → α
  /-- The first reference that no object has. -/
  next : Ref

namespace Store

variable {α : Type}

def modify (s : Store α) (r : Ref) (f : α → α) : Store α :=
  { s with get := Function.update s.get r (f (s.get r)) }

def alloc (s : Store α) (a : α) : Ref × Store α :=
  (s.next, ⟨Function.update s.get s.next a, s.next + 1⟩)

/-- New objects, in the order of the list. -/
def allocAll (s : Store α) : List α → List Ref × Store α
  | [] => ([], s)
  | a :: l =>
    let (r, s) := s.alloc a
    let (rs, s) := s.allocAll l
    (r :: rs, s)

variable {s : Store α} {f : α → α} {r r' : Ref} {a : α} {l : List α}

@[simp] theorem get_modify_self : (s.modify r f).get r = f (s.get r) := Function.update_self ..

theorem get_modify_of_ne (h : r' ≠ r) : (s.modify r f).get r' = s.get r' := Function.update_of_ne h ..

theorem allocAll_cons : s.allocAll (a :: l) =
    (s.next :: ((s.alloc a).2.allocAll l).1, ((s.alloc a).2.allocAll l).2) := rfl

theorem next_le_allocAll : s.next ≤ (s.allocAll l).2.next := by
  induction l generalizing s with
  | nil => exact Nat.le_refl _
  | cons a l ih => exact Nat.le_trans (Nat.le_succ _) (ih (s := (s.alloc a).2))

/-- The objects that are there stay as they are. -/
theorem get_allocAll_of_lt (h : r < s.next) : (s.allocAll l).2.get r = s.get r := by
  induction l generalizing s with
  | nil => rfl
  | cons a l ih =>
    exact (ih (s := (s.alloc a).2) (Nat.lt_succ_of_lt h)).trans (Function.update_of_ne (Nat.ne_of_lt h) _ _)

theorem lt_of_mem_allocAll (h : r ∈ (s.allocAll l).1) : r < (s.allocAll l).2.next := by
  induction l generalizing s with
  | nil => cases h
  | cons a l ih =>
    rcases List.mem_cons.mp h with rfl | h
    · exact Nat.lt_of_lt_of_le (Nat.lt_succ_self _) (next_le_allocAll (s := (s.alloc a).2))
    · exact ih (s := (s.alloc a).2) h

/-- A new object is one of the list. -/
theorem get_of_mem_allocAll (h : r ∈ (s.allocAll l).1) : (s.allocAll l).2.get r ∈ l := by
  induction l generalizing s with
  | nil => cases h
  | cons a l ih =>
    rcases List.mem_cons.mp h with rfl | h
    · have hnew := get_allocAll_of_lt (s := (s.alloc a).2) (l := l) (Nat.lt_succ_self s.next)
      rw [allocAll_cons, hnew]
      exact List.mem_cons.mpr (.inl (Function.update_self _ _ _))
    · exact List.mem_cons_of_mem _ (ih (s := (s.alloc a).2) h)

end Store

end Objects
