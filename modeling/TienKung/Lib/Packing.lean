import Mathlib.Algebra.BigOperators.Group.List.Basic
import Mathlib.Algebra.Order.Ring.Nat

/-!
# Packing pieces one after another

Pieces that follow each other are put into bins that follow each other. A piece
that does not fit into the open bin closes it and opens the next, so no piece is
divided. When no further bin may be opened, what does not fit is left out.
-/

namespace Packing

/-- The sizes of the bins that are closed, and of the one that is open. -/
structure Bins where
  closed : List ℕ
  size : ℕ
  deriving DecidableEq

namespace Bins

def empty : Bins := ⟨[], 0⟩

def all (b : Bins) : List ℕ := b.closed ++ [b.size]

def total (b : Bins) : ℕ := b.all.sum

/-- A bin holds `limit`, and `most` bins may be closed. -/
def add (limit most : ℕ) (b : Bins) (d : ℕ) : Bins :=
  if limit < b.size + d then
    if b.closed.length < most then ⟨b.closed ++ [b.size], d⟩ else b
  else { b with size := b.size + d }

/-- One of the bins has all that lies between `lo` and `hi`. -/
def Keeps (b : Bins) (lo hi : ℕ) : Prop :=
  ∃ before n after, b.all = before ++ n :: after ∧ before.sum ≤ lo ∧ hi ≤ before.sum + n

/-- The bins closed in `b` are closed in `b'` too, and the open one has at least what it had. -/
def Grows (b b' : Bins) : Prop := ∃ n after, b'.all = b.closed ++ n :: after ∧ b.size ≤ n

end Bins

open Bins

section
variable {limit most : ℕ} {b b' : Bins} {d lo hi : ℕ}

theorem total_eq (b : Bins) : b.total = b.closed.sum + b.size := by simp [total, all]

theorem length_le_add (limit most : ℕ) (b : Bins) (d : ℕ) :
    b.closed.length ≤ (b.add limit most d).closed.length := by
  rw [add]
  split_ifs <;> simp

theorem total_add (h : b.closed.length < most) : (b.add limit most d).total = b.total + d := by
  rw [add]
  split_ifs <;> simp [total_eq, Nat.add_assoc]

theorem add_bounded (hb : ∀ n ∈ b.all, n ≤ limit) (hd : d ≤ limit) :
    ∀ n ∈ (b.add limit most d).all, n ≤ limit := by
  rw [add]
  split_ifs with hfull hmost
  · intro n hn
    rcases List.mem_append.mp hn with hn | hn
    · exact hb n hn
    · rwa [List.mem_singleton.mp hn]
  · exact hb
  · intro n hn
    rcases List.mem_append.mp hn with hn | hn
    · exact hb n (List.mem_append_left _ hn)
    · rw [List.mem_singleton.mp hn]
      exact Nat.le_of_not_lt hfull

/-- The piece that was added lies in the open bin. -/
theorem keeps_new (limit d : ℕ) (h : b.closed.length < most) :
    (b.add limit most d).Keeps b.total (b.total + d) := by
  rw [add, total_eq]
  split_ifs
  · exact ⟨b.closed ++ [b.size], d, [], rfl, by simp, by simp⟩
  · exact ⟨b.closed, b.size + d, [], rfl, Nat.le_add_right .., by simp [Nat.add_assoc]⟩

theorem Bins.Grows.refl (b : Bins) : b.Grows b := ⟨b.size, [], rfl, Nat.le_refl _⟩

theorem Bins.Grows.add (h : b.Grows b') (limit most d : ℕ) : b.Grows (b'.add limit most d) := by
  obtain ⟨n, after, heq, hle⟩ := h
  rw [Bins.add]
  split_ifs
  · refine ⟨n, after ++ [d], ?_, hle⟩
    rw [all] at heq ⊢
    rw [heq, List.append_assoc, List.cons_append]
  · exact ⟨n, after, heq, hle⟩
  · -- either the bin is closed by now, or it is the open one
    rcases List.eq_nil_or_concat after with rfl | ⟨init, last, rfl⟩
    · obtain ⟨hclosed, hsize⟩ := List.append_inj' heq rfl
      have hn : b'.size = n := (List.cons.inj hsize).1
      exact ⟨n + d, [], by simp [all, hclosed, hn], by omega⟩
    · rw [List.concat_eq_append] at heq
      rw [← List.cons_append, ← List.append_assoc] at heq
      obtain ⟨hclosed, hsize⟩ := List.append_inj' heq rfl
      exact ⟨n, init ++ [b'.size + d], by simp [all, hclosed], hle⟩

theorem Bins.Grows.length_le (h : b.Grows b') : b.closed.length ≤ b'.closed.length := by
  obtain ⟨n, after, heq, -⟩ := h
  have hlen := congrArg List.length heq
  simp only [all, List.length_append, List.length_cons, List.length_nil] at hlen
  omega

theorem Bins.Keeps.grow (h : b.Keeps lo hi) (hb : b.Grows b') : b'.Keeps lo hi := by
  obtain ⟨before, k, rest, heq, hlo, hhi⟩ := h
  obtain ⟨n, after, heq', hle⟩ := hb
  rcases List.eq_nil_or_concat rest with rfl | ⟨init, last, rfl⟩
  · obtain ⟨hclosed, hsize⟩ := List.append_inj' heq rfl
    have hk : b.size = k := (List.cons.inj hsize).1
    exact ⟨before, n, after, by rw [heq', hclosed], hlo, by omega⟩
  · rw [List.concat_eq_append] at heq
    rw [← List.cons_append, ← List.append_assoc] at heq
    obtain ⟨hclosed, -⟩ := List.append_inj' heq rfl
    exact ⟨before, k, init ++ n :: after, by rw [heq', hclosed]; simp, hlo, hhi⟩

theorem Bins.Keeps.mono (h : b.Keeps lo hi) (hlo : lo ≤ d) (hhi : n ≤ hi) : b.Keeps d n := by
  obtain ⟨before, k, after, heq, hl, hh⟩ := h
  exact ⟨before, k, after, heq, hl.trans hlo, hhi.trans hh⟩

end

end Packing
