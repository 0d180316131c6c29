import Mathlib.Data.List.Basic

/-!
# `LockFreeQueue`

A chain of nodes from `head` to `tail`. The first node holds no element: a new
queue has a node without a value there, and a `pop` leaves the node of the
element it took in its place. The nodes after it hold the elements.
-/

namespace TienKung

structure LockFreeQueue (α : Type) where
  /-- What the first node holds. -/
  head : Option α
  rest : List α
  deriving DecidableEq

namespace LockFreeQueue

variable {α : Type}

def new : LockFreeQueue α := ⟨none, []⟩

/-- `head == tail`. -/
def empty (q : LockFreeQueue α) : Bool := q.rest.isEmpty

def push (q : LockFreeQueue α) (e : α) : LockFreeQueue α := { q with rest := q.rest ++ [e] }

/-- Nothing where the source throws. -/
def pop (q : LockFreeQueue α) : Option (α × LockFreeQueue α) :=
  match q.rest with
  | [] => none
  | e :: rest => some (e, ⟨some e, rest⟩)

def toList (q : LockFreeQueue α) : List α := q.rest

@[simp] theorem toList_push (q : LockFreeQueue α) (e : α) : (q.push e).toList = q.toList ++ [e] :=
  rfl

theorem pop_of_nil {q : LockFreeQueue α} (h : q.toList = []) : q.pop = none := by
  rw [toList] at h
  rw [pop, h]

theorem pop_of_cons {q : LockFreeQueue α} (h : q.toList = e :: es) :
    ∃ q', q.pop = some (e, q') ∧ q'.toList = es := by
  rw [toList] at h
  exact ⟨⟨some e, es⟩, by rw [pop, h], rfl⟩

theorem pop_isSome (q : LockFreeQueue α) : q.pop.isSome = !q.empty := by
  unfold pop empty
  cases q.rest <;> rfl

end LockFreeQueue

end TienKung
