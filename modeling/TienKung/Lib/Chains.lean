import Mathlib.Data.List.Nodup
import Mathlib.Logic.Function.Basic

/-!
# Chains of cells

Cells in memory that point to each other. A chain starts behind a first cell,
whose value does not count, and ends in a last one, whose pointer does not. Both
ends can move: the pointer of the last cell is free to be set, and a cell it
points to may join the chain.
-/

namespace Chains

variable {α : Type*}

/-- A cell that has just been made may hold no value yet. -/
structure Cell (α : Type*) where
  value : Option α
  next : Option ℕ
  deriving DecidableEq

/-- The live cells by their addresses. -/
abbrev Memory (α : Type*) := ℕ → Option (Cell α)

/-- The pointers go from `a` through `nodes`, and these hold their values. -/
def Linked (m : Memory α) : ℕ → List (ℕ × α) → Prop
  | a, [] => (m a).isSome
  | a, (b, v) :: rest =>
    (∃ c, m a = some c ∧ c.next = some b) ∧ (∃ c, m b = some c ∧ c.value = some v) ∧ Linked m b rest

def last (a : ℕ) : List (ℕ × α) → ℕ
  | [] => a
  | (b, _) :: rest => last b rest

def addrs (a : ℕ) (nodes : List (ℕ × α)) : List ℕ := a :: nodes.map Prod.fst

section
variable {m : Memory α} {a b : ℕ} {nodes : List (ℕ × α)}

theorem last_mem (a : ℕ) (nodes : List (ℕ × α)) : last a nodes ∈ addrs a nodes := by
  induction nodes generalizing a with
  | nil => exact List.mem_cons_self
  | cons node rest ih => exact List.mem_cons_of_mem a (ih node.1)

@[simp] theorem last_append (a b : ℕ) (nodes : List (ℕ × α)) (v : α) :
    last a (nodes ++ [(b, v)]) = b := by
  induction nodes generalizing a with
  | nil => rfl
  | cons node rest ih => exact ih node.1

theorem addrs_append (a b : ℕ) (nodes : List (ℕ × α)) (v : α) :
    addrs a (nodes ++ [(b, v)]) = addrs a nodes ++ [b] := by
  simp [addrs]

theorem nodup_addrs_append (h : (addrs a nodes).Nodup) (hb : b ∉ addrs a nodes) (v : α) :
    (addrs a (nodes ++ [(b, v)])).Nodup := by
  rw [addrs_append, ← List.concat_eq_append]
  exact h.concat hb

/-- The ends of a chain without repetition differ unless it is empty. -/
theorem eq_last_iff (h : (addrs a nodes).Nodup) : a = last a nodes ↔ nodes = [] := by
  cases nodes with
  | nil => simp [last]
  | cons node rest =>
    have hne : a ≠ last node.1 rest := fun he =>
      (List.nodup_cons.mp h).1 (he ▸ last_mem node.1 rest)
    simp [last, hne]

theorem Linked.live (h : Linked m a nodes) : ∀ b ∈ addrs a nodes, (m b).isSome := by
  induction nodes generalizing a with
  | nil =>
    intro b hb
    rw [List.mem_singleton.mp hb]
    exact h
  | cons node rest ih =>
    obtain ⟨⟨c, hc, -⟩, -, hrest⟩ := h
    rintro b (_ | ⟨_, hb⟩)
    · rw [hc]
      rfl
    · exact ih hrest b hb

theorem Linked.congr {m' : Memory α} (h : Linked m a nodes)
    (hm : ∀ b ∈ addrs a nodes, m' b = m b) : Linked m' a nodes := by
  induction nodes generalizing a with
  | nil =>
    rw [Linked, hm a List.mem_cons_self]
    exact h
  | cons node rest ih =>
    obtain ⟨hnext, hvalue, hrest⟩ := h
    have hm' : ∀ b ∈ addrs node.1 rest, m' b = m b := fun b hb => hm b (List.mem_cons_of_mem a hb)
    exact ⟨by rwa [hm a List.mem_cons_self], by rwa [hm' node.1 List.mem_cons_self],
      ih hrest hm'⟩

theorem Linked.update (h : Linked m a nodes) (hb : b ∉ addrs a nodes) (c : Option (Cell α)) :
    Linked (Function.update m b c) a nodes := by
  refine h.congr fun b' hb' => ?_
  have hne : b' ≠ b := fun he => hb (he ▸ hb')
  rw [Function.update_of_ne hne]

/-- The last cell's pointer is free. -/
theorem Linked.setNext (h : Linked m a nodes) (hd : (addrs a nodes).Nodup) {c : Cell α}
    (hc : m (last a nodes) = some c) (next : Option ℕ) :
    Linked (Function.update m (last a nodes) (some { c with next := next })) a nodes := by
  induction nodes generalizing a with
  | nil => simp [Linked, last]
  | cons node rest ih =>
    obtain ⟨hnext, ⟨c', hc', hv⟩, hrest⟩ := h
    obtain ⟨ha, hd'⟩ := List.nodup_cons.mp hd
    have hne : a ≠ last node.1 rest := fun he => ha (he ▸ last_mem node.1 rest)
    refine ⟨?_, ?_, ih hrest hd' hc⟩
    · rwa [last, Function.update_of_ne hne]
    · by_cases hb : node.1 = last node.1 rest
      · have hsame : c = c' := by
          rw [last, ← hb, hc'] at hc
          exact (Option.some_inj.mp hc).symm
        refine ⟨{ c with next := next }, ?_, by rw [hsame]; exact hv⟩
        rw [last, ← hb, Function.update_self]
      · exact ⟨c', by rw [last, Function.update_of_ne hb]; exact hc', hv⟩

/-- The cell the last one points to joins the chain. -/
theorem Linked.append (h : Linked m a nodes) {v : α}
    (hnext : ∃ c, m (last a nodes) = some c ∧ c.next = some b)
    (hvalue : ∃ c, m b = some c ∧ c.value = some v) : Linked m a (nodes ++ [(b, v)]) := by
  induction nodes generalizing a with
  | nil =>
    obtain ⟨c, hc, hv⟩ := hvalue
    exact ⟨hnext, ⟨c, hc, hv⟩, by rw [Linked, hc]; rfl⟩
  | cons node rest ih =>
    obtain ⟨hfirst, hv, hrest⟩ := h
    exact ⟨hfirst, hv, ih hrest hnext⟩

end

end Chains
