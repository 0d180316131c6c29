import Mathlib.Data.List.Nodup
import Mathlib.Order.Lattice

/-!
# Objects on the heap

Live objects and their addresses. An allocator answers with any address that
is not in use; an address may come back after its object was deleted.
-/

namespace Heap

variable {α : Type*}

structure Allocator where
  next : List ℕ → ℕ
  fresh : ∀ live, next live ∉ live

/-- One above the highest address in use. -/
instance : Inhabited Allocator where
  default.next live := live.foldr max 0 + 1
  default.fresh live h := by
    have hle : ∀ (xs : List ℕ), ∀ a ∈ xs, a ≤ xs.foldr max 0 := by
      intro xs
      induction xs with
      | nil => exact fun a ha => absurd ha List.not_mem_nil
      | cons x xs ih =>
        rintro a (_ | ⟨_, ha⟩)
        · exact Nat.le_max_left ..
        · exact Nat.le_trans (ih a ha) (Nat.le_max_right ..)
    exact absurd (hle live _ h) (by omega)

abbrev Cells (α : Type*) := List (ℕ × α)

def addrs (h : Cells α) : List ℕ := h.map Prod.fst

def get (h : Cells α) (a : ℕ) : Option α := h.lookup a

def alloc (al : Allocator) (h : Cells α) (x : α) : ℕ × Cells α :=
  (al.next (addrs h), (al.next (addrs h), x) :: h)

def delete (h : Cells α) (a : ℕ) : Cells α := h.filter fun c => c.1 != a

def allocAll (al : Allocator) (h : Cells α) : List α → List ℕ × Cells α
  | [] => ([], h)
  | x :: xs =>
    let (a, h) := alloc al h x
    let (as, h) := allocAll al h xs
    (a :: as, h)

section
variable {al : Allocator} {h : Cells α} {a b : ℕ}

@[simp] theorem get_alloc_self : get (alloc al h x).2 (alloc al h x).1 = some x := by
  simp [alloc, get]

theorem mem_addrs_of_get (h' : get h a = some x) : a ∈ addrs h := by
  induction h with
  | nil => cases h'
  | cons c h ih =>
    obtain ⟨k, y⟩ := c
    by_cases hk : a = k
    · exact hk ▸ List.mem_cons_self
    · rw [get, List.lookup_cons, beq_eq_false_iff_ne.mpr hk] at h'
      exact List.mem_cons_of_mem k (ih h')

theorem get_alloc_of_mem (ha : a ∈ addrs h) : get (alloc al h x).2 a = get h a := by
  have hne : a ≠ al.next (addrs h) := fun he => al.fresh (addrs h) (he ▸ ha)
  simp [alloc, get, List.lookup_cons, beq_eq_false_iff_ne.mpr hne]

@[simp] theorem addrs_alloc : addrs (alloc al h x).2 = (alloc al h x).1 :: addrs h := rfl

theorem get_delete_ne (hne : a ≠ b) : get (delete h b) a = get h a := by
  induction h with
  | nil => rfl
  | cons c h ih =>
    obtain ⟨k, x⟩ := c
    unfold delete get at ih ⊢
    by_cases hk : k = b
    · subst hk
      simp [List.lookup_cons, beq_eq_false_iff_ne.mpr hne, ih]
    · simp [List.lookup_cons, hk, ih]

/-- The new objects have addresses of their own and keep what they were made
with; the old ones are as before. -/
structure Allocated (h h' : Cells α) (as : List ℕ) (xs : List α) : Prop where
  nodup : as.Nodup
  new : ∀ a ∈ as, a ∉ addrs h
  live : ∀ a ∈ as, a ∈ addrs h'
  old : ∀ a ∈ addrs h, a ∈ addrs h' ∧ get h' a = get h a
  values : as.map (get h') = xs.map some

theorem allocAll_allocated (al : Allocator) (xs : List α) (h : Cells α) :
    Allocated h (allocAll al h xs).2 (allocAll al h xs).1 xs := by
  induction xs generalizing h with
  | nil =>
    exact ⟨List.nodup_nil, fun _ ha => absurd ha List.not_mem_nil,
      fun _ ha => absurd ha List.not_mem_nil, fun a ha => ⟨ha, rfl⟩, rfl⟩
  | cons x xs ih =>
    obtain ⟨hnodup, hnew, hlive, hold, hvalues⟩ := ih (alloc al h x).2
    have hself : (alloc al h x).1 ∈ addrs (alloc al h x).2 := by simp
    have hkeep : ∀ a ∈ addrs h, a ∈ addrs (alloc al h x).2 := fun a ha => by simp [ha]
    constructor
    · exact List.nodup_cons.mpr ⟨fun hm => hnew _ hm hself, hnodup⟩
    · rintro a (_ | ⟨_, ha⟩) hm
      · exact al.fresh _ hm
      · exact hnew a ha (hkeep a hm)
    · rintro a (_ | ⟨_, ha⟩)
      · exact (hold _ hself).1
      · exact hlive a ha
    · intro a ha
      obtain ⟨hmem, hget⟩ := hold a (hkeep a ha)
      exact ⟨hmem, hget.trans (get_alloc_of_mem ha)⟩
    · rw [allocAll, List.map_cons, List.map_cons, (hold _ hself).2, get_alloc_self, hvalues]

end

end Heap
