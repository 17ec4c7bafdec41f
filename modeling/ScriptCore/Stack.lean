/-! # Stacks that know their height

The frames of a machine and its active calls are stacks. Their height is asked for at every step, so
it is stored; that it counts the items is part of the type. -/

namespace ScriptCore

/-- A stack and its height. -/
structure Stack (α : Type) where
  /-- The items, the top in front. -/
  items : List α
  size : Nat
  size_eq : size = items.length

namespace Stack

variable {α : Type}

def empty : Stack α := ⟨[], 0, rfl⟩

def isEmpty (s : Stack α) : Bool := s.items.isEmpty

/-- The item on top, if there is one. -/
def top? (s : Stack α) : Option α := s.items.head?

def push (s : Stack α) (a : α) : Stack α :=
  ⟨a :: s.items, s.size + 1, by rw [s.size_eq, List.length_cons]⟩

/-- The stack without its top; an empty one stays empty. -/
def pop (s : Stack α) : Stack α :=
  ⟨s.items.tail, s.size - 1, by rw [s.size_eq, List.length_tail]⟩

/-- Changes the item on top, if there is one. -/
def modifyTop (s : Stack α) (f : α → α) : Stack α :=
  ⟨s.items.modifyHead f, s.size, by rw [s.size_eq, List.length_modifyHead]⟩

end Stack

end ScriptCore
