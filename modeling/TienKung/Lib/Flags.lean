import Mathlib.Data.Finset.Dedup
import Mathlib.Data.Finset.Insert
import Mathlib.Data.Finset.Erase

/-!
# Tables of flags

A finite map from keys to booleans, with the operations of a hash map that
assigns through its subscript: `set` overwrites the flag of a key or adds the
key. A key occurs once, by construction. `raised` reads a table as the set of
keys whose flag is up; the laws say what each operation does to that set.
-/

structure Flags (κ : Type*) where
  entries : List (κ × Bool)
  nodup : (entries.map Prod.fst).Nodup

namespace Flags

variable {κ : Type*}

def empty : Flags κ := ⟨[], List.nodup_nil⟩

def keys (t : Flags κ) : List κ := t.entries.map Prod.fst

def all (t : Flags κ) : Bool := t.entries.all Prod.snd

def clear (t : Flags κ) : Flags κ :=
  ⟨t.entries.map fun e => (e.1, false), by simpa [Function.comp_def] using t.nodup⟩

@[simp] theorem keys_clear (t : Flags κ) : t.clear.keys = t.keys := by
  simp [keys, clear, Function.comp_def]

variable [DecidableEq κ]

def write (k : κ) (b : Bool) : List (κ × Bool) → List (κ × Bool)
  | [] => [(k, b)]
  | e :: rest => if e.1 = k then (k, b) :: rest else e :: write k b rest

theorem write_keys (k : κ) (b : Bool) (l : List (κ × Bool)) :
    (write k b l).map Prod.fst =
      if k ∈ l.map Prod.fst then l.map Prod.fst else l.map Prod.fst ++ [k] := by
  induction l with
  | nil => simp [write]
  | cons e l ih =>
    by_cases he : e.1 = k
    · simp [write, he]
    · by_cases hk : k ∈ l.map Prod.fst <;> simp_all [write, Ne.symm he]

theorem mem_write (k : κ) (b : Bool) {l : List (κ × Bool)} (hl : (l.map Prod.fst).Nodup)
    {e : κ × Bool} : e ∈ write k b l ↔ e = (k, b) ∨ (e ∈ l ∧ e.1 ≠ k) := by
  induction l with
  | nil => simp [write]
  | cons x l ih =>
    obtain ⟨hx, hl⟩ := List.nodup_cons.mp hl
    by_cases hk : x.1 = k
    · have hne : ∀ y ∈ l, y.1 ≠ k := fun y hy he => hx (hk ▸ he ▸ List.mem_map.mpr ⟨y, hy, rfl⟩)
      rw [write, if_pos hk, List.mem_cons, List.mem_cons]
      constructor
      · rintro (rfl | h)
        · exact .inl rfl
        · exact .inr ⟨.inr h, hne e h⟩
      · rintro (rfl | ⟨rfl | h, hek⟩)
        · exact .inl rfl
        · exact absurd hk hek
        · exact .inr h
    · rw [write, if_neg hk, List.mem_cons, List.mem_cons, ih hl]
      constructor
      · rintro (rfl | rfl | ⟨h, hek⟩)
        · exact .inr ⟨.inl rfl, hk⟩
        · exact .inl rfl
        · exact .inr ⟨.inr h, hek⟩
      · rintro (rfl | ⟨rfl | h, hek⟩)
        · exact .inr (.inl rfl)
        · exact .inl rfl
        · exact .inr (.inr ⟨h, hek⟩)

def set (t : Flags κ) (k : κ) (b : Bool) : Flags κ :=
  ⟨write k b t.entries, by
    rw [write_keys]
    split
    · exact t.nodup
    · rename_i hk
      exact List.nodup_append.mpr ⟨t.nodup, List.nodup_singleton k, by
        intro x hx y hy
        rw [List.mem_singleton.mp hy]
        exact fun he => hk (he ▸ hx)⟩⟩

def raised (t : Flags κ) : Finset κ := ((t.entries.filter Prod.snd).map Prod.fst).toFinset

theorem mem_raised {t : Flags κ} {k : κ} : k ∈ t.raised ↔ (k, true) ∈ t.entries := by
  simp [raised]

theorem keys_set (t : Flags κ) (k : κ) (b : Bool) :
    (t.set k b).keys = if k ∈ t.keys then t.keys else t.keys ++ [k] := write_keys k b t.entries

theorem keys_set_of_mem {t : Flags κ} {k : κ} (hk : k ∈ t.keys) (b : Bool) :
    (t.set k b).keys = t.keys := by rw [keys_set, if_pos hk]

@[simp] theorem raised_set_true (t : Flags κ) (k : κ) :
    (t.set k true).raised = insert k t.raised := by
  ext x
  rw [mem_raised, set, mem_write k true t.nodup, Finset.mem_insert, mem_raised]
  by_cases hx : x = k <;> simp [hx]

@[simp] theorem raised_set_false (t : Flags κ) (k : κ) :
    (t.set k false).raised = t.raised.erase k := by
  ext x
  rw [mem_raised, set, mem_write k false t.nodup, Finset.mem_erase, mem_raised]
  simp [and_comm]

@[simp] theorem raised_clear (t : Flags κ) : t.clear.raised = ∅ := by
  simp [raised, clear, List.filter_map, Function.comp_def]

theorem all_iff (t : Flags κ) : t.all = true ↔ t.keys.toFinset ⊆ t.raised := by
  simp only [all, List.all_eq_true, Finset.subset_iff, List.mem_toFinset, mem_raised, keys,
    List.mem_map]
  constructor
  · rintro h k ⟨e, he, rfl⟩
    simpa [← h e he] using he
  · intro h e he
    have hk := h ⟨e, he, rfl⟩
    -- a key occurs once, so the raised entry is `e` itself
    have : e = (e.1, true) := List.inj_on_of_nodup_map t.nodup he hk rfl
    rw [this]

end Flags
