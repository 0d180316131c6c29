import TienKung.Lib.Cells
import Mathlib.Data.List.Basic
import Mathlib.Data.List.Infix

/-!
# Windows of a stream of blocks

Blocks of one size follow each other in a stream. A window of that size is one
of the blocks, or it straddles two neighbours.
-/

namespace Blocks

variable {α β : Type*} {n : Nat}

def stream (bytes : β → Vector α n) (blocks : List β) : List α :=
  blocks.flatMap fun b => (bytes b).toList

/-- The window that starts at index `k` of `p` and ends before index `k` of `q`. -/
def straddle (p q : Vector α n) (k : Fin n) : Vector α n :=
  ⟨(p.toList.drop k ++ q.toList.take k).toArray, by simp⟩

section
variable {bytes : β → Vector α n}

@[simp] theorem stream_nil : stream bytes [] = [] := rfl

@[simp] theorem stream_cons (b : β) (blocks : List β) :
    stream bytes (b :: blocks) = (bytes b).toList ++ stream bytes blocks := List.flatMap_cons

@[simp] theorem toList_straddle (p q : Vector α n) (k : Fin n) :
    (straddle p q k).toList = p.toList.drop k ++ q.toList.take k := rfl

theorem get_straddle_zero (p q : Vector α n) {z : Fin n} (hz : z.val = 0) (k : Fin n) :
    (straddle p q k).get z = p.get k := by
  have hlist := Cells.drop_toList (straddle p q k) z
  rw [hz, List.drop_zero, toList_straddle, Cells.drop_toList] at hlist
  exact (List.cons.inj hlist).1.symm

theorem window_first {b : β} {blocks : List β} {w : Vector α n} {rest : List α}
    (h : stream bytes (b :: blocks) = w.toList ++ rest) :
    w = bytes b ∧ rest = stream bytes blocks := by
  rw [stream_cons] at h
  obtain ⟨hw, hrest⟩ := List.append_inj h (by simp)
  exact ⟨Vector.toList_inj.mp hw.symm, hrest.symm⟩

theorem window_cases {blocks : List β} {m : Nat} {w : Vector α n} {rest : List α} (hn : 0 < n)
    (h : (stream bytes blocks).drop m = w.toList ++ rest) :
    (∃ b ∈ blocks, w = bytes b) ∨
      ∃ p q, [p, q] <:+: blocks ∧ ∃ k : Fin n, 0 < k.val ∧ w = straddle (bytes p) (bytes q) k := by
  induction blocks generalizing m with
  | nil =>
    have hlen := congrArg List.length h
    simp at hlen
    omega
  | cons p blocks ih =>
    by_cases hm : n ≤ m
    · -- the window lies behind the first block
      have hfirst : (bytes p).toList.drop m = [] := List.drop_eq_nil_of_le (by simpa using hm)
      rw [stream_cons, List.drop_append, hfirst, List.nil_append, Vector.length_toList] at h
      rcases ih h with ⟨b, hb, hw⟩ | ⟨p', q, hpq, hk⟩
      · exact .inl ⟨b, List.mem_cons_of_mem _ hb, hw⟩
      · exact .inr ⟨p', q, List.infix_cons hpq, hk⟩
    · rcases Nat.eq_zero_or_pos m with rfl | hpos
      · exact .inl ⟨p, List.mem_cons_self, (window_first (by simpa using h)).1⟩
      · rw [stream_cons, List.drop_append_of_le_length (by simp; omega)] at h
        cases blocks with
        | nil =>
          have hlen := congrArg List.length h
          simp at hlen
          omega
        | cons q blocks =>
          rw [stream_cons, ← List.take_append_drop m (bytes q).toList, List.append_assoc,
            ← List.append_assoc] at h
          obtain ⟨hw, -⟩ := List.append_inj h (by simp; omega)
          refine .inr ⟨p, q, ⟨[], blocks, rfl⟩, ⟨m, by omega⟩, hpos, Vector.toList_inj.mp ?_⟩
          rw [toList_straddle]
          exact hw.symm

end

end Blocks
