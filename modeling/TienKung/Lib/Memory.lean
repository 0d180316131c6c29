import Mathlib.Algebra.BigOperators.Group.List.Basic
import Mathlib.Algebra.Order.Ring.Nat

/-!
# Memories

A memory holds a cell at every address. A span of it is read into a list and
written from one. Spans that follow each other are read one by one as they are
read in one go, and writing to some of them touches no other.
-/

namespace Memory

variable {α β : Type*}

def read (m : ℕ → α) (a n : ℕ) : List α := (List.range n).map fun i => m (a + i)

def write (m : ℕ → α) (a : ℕ) (cells : List α) : ℕ → α := fun x =>
  if a ≤ x then cells[x - a]?.getD (m x) else m x

def Within (x a n : ℕ) : Prop := a ≤ x ∧ x < a + n

instance (x a n : ℕ) : Decidable (Within x a n) := inferInstanceAs (Decidable (_ ∧ _))

section
variable {m m' : ℕ → α} {a b n k x : ℕ} {cells : List α}

theorem Within.sub_lt (h : Within x a n) : x - a < n := by
  obtain ⟨hle, hlt⟩ := h
  omega

@[simp] theorem length_read : (read m a n).length = n := by simp [read]

@[simp] theorem read_zero : read m a 0 = [] := rfl

theorem getElem?_read (h : x < n) : (read m a n)[x]? = some (m (a + x)) := by simp [read, h]

theorem read_add : read m a (n + k) = read m a n ++ read m (a + n) k := by
  simp [read, List.range_add, Function.comp_def, Nat.add_assoc]

theorem read_congr (h : ∀ x, Within x a n → m x = m' x) : read m a n = read m' a n := by
  refine List.map_congr_left fun i hi => h (a + i) ⟨Nat.le_add_right a i, ?_⟩
  have := List.mem_range.mp hi
  omega

theorem read_window {i : ℕ} (h : read m a n = read m' b n) (hk : i + k ≤ n) :
    read m (a + i) k = read m' (b + i) k := by
  obtain ⟨rest, rfl⟩ := Nat.exists_eq_add_of_le hk
  simp only [read_add] at h
  exact (List.append_inj (List.append_inj h (by simp)).1 (by simp)).2

theorem write_of_not_within (h : ¬ Within x a cells.length) : write m a cells x = m x := by
  rw [write]
  split_ifs with hx
  · have hlen : cells.length ≤ x - a := by
      have := mt (And.intro hx) h
      omega
    rw [List.getElem?_eq_none hlen, Option.getD_none]
  · rfl

theorem write_of_within (h : Within x a cells.length) :
    cells[x - a]? = some (write m a cells x) := by
  rw [write, if_pos h.1, List.getElem?_eq_getElem h.sub_lt]
  rfl

theorem read_write_self (m : ℕ → α) (a : ℕ) (cells : List α) :
    read (write m a cells) a cells.length = cells := by
  refine List.ext_getElem? fun i => ?_
  by_cases hi : i < cells.length
  · have hwithin : Within (a + i) a cells.length := ⟨Nat.le_add_right a i, by omega⟩
    have hcell := write_of_within (m := m) hwithin
    rw [Nat.add_sub_cancel_left] at hcell
    rw [getElem?_read hi, hcell]
  · rw [List.getElem?_eq_none (by simpa using hi), List.getElem?_eq_none (by simpa using hi)]

/-- A span may be written with what another memory holds there. -/
theorem write_read (x : ℕ) : write m a (read m' a n) x = if Within x a n then m' x else m x := by
  split_ifs with h
  · have hw : Within x a (read m' a n).length := by rwa [length_read]
    have hcell := write_of_within (m := m) hw
    rw [getElem?_read h.sub_lt, Nat.add_sub_cancel' h.1] at hcell
    exact (Option.some_inj.mp hcell).symm
  · exact write_of_not_within (by rwa [length_read])

end

-- ---------------------------------------------------------------------------
-- Consecutive spans
-- ---------------------------------------------------------------------------

/-- Spans of the given lengths, each where the one before ends. -/
def spans (a : ℕ) : List ℕ → List (ℕ × ℕ)
  | [] => []
  | n :: ns => (a, n) :: spans (a + n) ns

section
variable {m : ℕ → α} {a n : ℕ} {ns ks : List ℕ}

/-- Values of one size, one after the other. -/
theorem read_flatMap {f : β → List α} {size : ℕ} (hf : ∀ x, (f x).length = size) {xs : List β}
    (h : read m a (xs.length * size) = xs.flatMap f) :
    ∀ i x, xs[i]? = some x → read m (a + i * size) size = f x := by
  induction xs generalizing a with
  | nil => exact fun i x hx => by simp at hx
  | cons y ys ih =>
    rw [List.length_cons, Nat.succ_mul, Nat.add_comm, read_add, List.flatMap_cons] at h
    obtain ⟨hhead, htail⟩ := List.append_inj h (by rw [length_read, hf])
    intro i x hx
    cases i with
    | zero =>
      obtain rfl := Option.some.inj hx
      rwa [Nat.zero_mul, Nat.add_zero]
    | succ i =>
      have hrest := ih htail i x hx
      rwa [Nat.add_assoc, Nat.add_comm size, ← Nat.succ_mul] at hrest

@[simp] theorem spans_nil : spans a [] = [] := rfl
@[simp] theorem spans_cons : spans a (n :: ns) = (a, n) :: spans (a + n) ns := rfl

@[simp] theorem length_spans : (spans a ns).length = ns.length := by
  induction ns generalizing a with
  | nil => rfl
  | cons n ns ih => exact congrArg (· + 1) ih

theorem le_of_mem_spans {s : ℕ × ℕ} (h : s ∈ spans a ns) : a ≤ s.1 := by
  induction ns generalizing a with
  | nil => exact (List.not_mem_nil h).elim
  | cons n ns ih =>
    rcases List.mem_cons.mp h with rfl | h
    · exact Nat.le_refl a
    · exact (Nat.le_add_right a n).trans (ih h)

theorem mem_spans_le {s : ℕ × ℕ} (h : s ∈ spans a ns) : s.1 + s.2 ≤ a + ns.sum := by
  induction ns generalizing a with
  | nil => exact (List.not_mem_nil h).elim
  | cons n ns ih =>
    rw [List.sum_cons, ← Nat.add_assoc]
    rcases List.mem_cons.mp h with rfl | h
    · exact Nat.le_add_right _ _
    · exact ih h

theorem pairwise_spans (a : ℕ) (ns : List ℕ) :
    (spans a ns).Pairwise fun s t => s.1 + s.2 ≤ t.1 := by
  induction ns generalizing a with
  | nil => exact .nil
  | cons n ns ih => exact List.pairwise_cons.mpr ⟨fun _ => le_of_mem_spans, ih _⟩

theorem spans_append : spans a (ns ++ ks) = spans a ns ++ spans (a + ns.sum) ks := by
  induction ns generalizing a with
  | nil => simp
  | cons n ns ih => simp [ih, Nat.add_assoc]

end

end Memory
