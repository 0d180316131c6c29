import TienKung.Lib.Mealy
import Mathlib.Data.Finset.Card
import Mathlib.Data.Finset.Dedup
import Mathlib.Data.Finset.Lattice.Lemmas

/-!
# Gated barriers

A barrier collects what its members bring and releases the collection when
every member has arrived since the last release and the gate is open. Nothing
is said about the order of arrivals, how often a member arrives or whether it
brings anything; the laws below say what a release contains and when releases
happen, for every sequence of arrivals.
-/

namespace Barrier

variable {ι α ν : Type*}

structure Arrival (ι α : Type*) where
  member : ι
  item : Option α
  gate : Bool

structure State (ι α : Type*) where
  flagged : Finset ι
  pending : List α

def State.start : State ι α := ⟨∅, []⟩

@[simp] theorem start_flagged : (State.start : State ι α).flagged = ∅ := rfl
@[simp] theorem start_pending : (State.start : State ι α).pending = [] := rfl

def items (l : List (Arrival ι α)) : List α := l.filterMap Arrival.item

@[simp] theorem items_nil : items ([] : List (Arrival ι α)) = [] := rfl

theorem items_cons (a : Arrival ι α) (l : List (Arrival ι α)) :
    items (a :: l) = a.item.toList ++ items l := by
  cases h : a.item <;> simp [items, h]

@[simp] theorem items_append (l r : List (Arrival ι α)) : items (l ++ r) = items l ++ items r := by
  simp [items]

variable [DecidableEq ι]

def arrived (l : List (Arrival ι α)) : Finset ι := (l.map Arrival.member).toFinset

@[simp] theorem arrived_nil : arrived ([] : List (Arrival ι α)) = ∅ := rfl

@[simp] theorem arrived_cons (a : Arrival ι α) (l : List (Arrival ι α)) :
    arrived (a :: l) = insert a.member (arrived l) := by simp [arrived]

@[simp] theorem arrived_append (l r : List (Arrival ι α)) :
    arrived (l ++ r) = arrived l ∪ arrived r := by simp [arrived]

theorem card_arrived_le (l : List (Arrival ι α)) : (arrived l).card ≤ l.length := by
  simpa [arrived] using List.toFinset_card_le (l.map Arrival.member)

def arrive (members : Finset ι) : Mealy.Step (State ι α) (Arrival ι α) (List α) := fun s a =>
  let flagged := insert a.member s.flagged
  let pending := s.pending ++ a.item.toList
  if a.gate = true ∧ members ⊆ flagged then (.start, [pending]) else (⟨flagged, pending⟩, [])

section
variable {members : Finset ι} {s : State ι α}

theorem arrive_release (hg : a.gate = true) (hm : members ⊆ insert a.member s.flagged) :
    arrive members s a = (.start, [s.pending ++ a.item.toList]) := by
  simp [arrive, hg, hm]

theorem arrive_hold (h : ¬ (a.gate = true ∧ members ⊆ insert a.member s.flagged)) :
    arrive members s a = (⟨insert a.member s.flagged, s.pending ++ a.item.toList⟩, []) := by
  simp only [arrive, if_neg h]

theorem arrive_cases (members : Finset ι) (s : State ι α) (a : Arrival ι α) :
    (a.gate = true ∧ arrive members s a = (.start, [s.pending ++ a.item.toList])) ∨
      arrive members s a = (⟨insert a.member s.flagged, s.pending ++ a.item.toList⟩, []) := by
  by_cases h : a.gate = true ∧ members ⊆ insert a.member s.flagged
  · exact .inl ⟨h.1, arrive_release h.1 h.2⟩
  · exact .inr (arrive_hold h)

-- ---------------------------------------------------------------------------
-- What is released
-- ---------------------------------------------------------------------------

/-- Nothing is lost, duplicated or reordered. -/
theorem conserve (l : List (Arrival ι α)) :
    (Mealy.emitted (arrive members) s l).flatten ++ (Mealy.final (arrive members) s l).pending =
      s.pending ++ items l := by
  induction l generalizing s with
  | nil => simp
  | cons a l ih =>
    rw [Mealy.emitted_cons, Mealy.final_cons, List.flatten_append, List.append_assoc, ih, items_cons]
    rcases arrive_cases members s a with ⟨-, h⟩ | h <;> simp [h]

/-- The item an arrival brings has a key that nothing pending has. -/
def Fresh (key : α → ν) (s : State ι α) (a : Arrival ι α) : Prop :=
  ∀ x ∈ a.item, ∀ y ∈ s.pending, key y ≠ key x

omit [DecidableEq ι] in
theorem Fresh.nodup {key : α → ν} (hs : (s.pending.map key).Nodup) (hf : Fresh key s a) :
    ((s.pending ++ a.item.toList).map key).Nodup := by
  cases h : a.item with
  | none => simpa using hs
  | some x =>
    rw [Option.toList_some, List.map_append, List.map_singleton, List.nodup_append]
    refine ⟨hs, List.nodup_singleton _, ?_⟩
    intro b hb c hc
    obtain ⟨y, hy, rfl⟩ := List.mem_map.mp hb
    rw [List.mem_singleton.mp hc]
    exact hf x h y hy

theorem Fresh.arrive_nodup {key : α → ν} (hs : (s.pending.map key).Nodup) (hf : Fresh key s a) :
    ((arrive members s a).1.pending.map key).Nodup ∧
      ∀ m ∈ (arrive members s a).2, (m.map key).Nodup := by
  have hnew := hf.nodup hs
  rcases arrive_cases members s a with ⟨-, h⟩ | h
  · rw [h]
    exact ⟨List.nodup_nil, fun m hm => by rw [List.mem_singleton.mp hm]; exact hnew⟩
  · rw [h]
    exact ⟨hnew, fun m hm => by cases hm⟩

/-- When every item is fresh as it arrives, no key repeats in what is pending
or in what has been released. -/
theorem nodup_of_fresh {key : α → ν} {l : List (Arrival ι α)}
    (hf : Mealy.Along (arrive members) (Fresh key) s l) (hs : (s.pending.map key).Nodup) :
    ((Mealy.final (arrive members) s l).pending.map key).Nodup ∧
      ∀ m ∈ Mealy.emitted (arrive members) s l, (m.map key).Nodup :=
  ⟨hf.final (P := fun s => (s.pending.map key).Nodup) hs fun _ _ h hg => (hg.arrive_nodup h).1,
    hf.emitted (P := fun s => (s.pending.map key).Nodup) hs (fun _ _ h hg => (hg.arrive_nodup h).1)
      fun _ _ h hg => (hg.arrive_nodup h).2⟩

-- ---------------------------------------------------------------------------
-- When it is released
-- ---------------------------------------------------------------------------

theorem quiet {l : List (Arrival ι α)} (h : ¬ members ⊆ s.flagged ∪ arrived l) :
    Mealy.emitted (arrive members) s l = [] ∧
      Mealy.final (arrive members) s l = ⟨s.flagged ∪ arrived l, s.pending ++ items l⟩ := by
  induction l generalizing s with
  | nil => simp
  | cons a l ih =>
    have hunion : insert a.member s.flagged ∪ arrived l = s.flagged ∪ arrived (a :: l) := by
      simp [Finset.insert_union]
    have hnot : ¬ members ⊆ insert a.member s.flagged := fun hm =>
      h (hunion ▸ hm.trans Finset.subset_union_left)
    have hstep := arrive_hold (s := s) (a := a) fun hm => hnot hm.2
    have htail := ih (s := ⟨insert a.member s.flagged, s.pending ++ a.item.toList⟩)
      (by rw [hunion]; exact h)
    rw [Mealy.emitted_cons, Mealy.final_cons, hstep, htail.1, htail.2]
    simp [hunion, items_cons]

theorem final_of_emitted_nil {l : List (Arrival ι α)}
    (h : Mealy.emitted (arrive members) s l = []) :
    Mealy.final (arrive members) s l = ⟨s.flagged ∪ arrived l, s.pending ++ items l⟩ := by
  induction l generalizing s with
  | nil => simp
  | cons a l ih =>
    rw [Mealy.emitted_cons, List.append_eq_nil_iff] at h
    rcases arrive_cases members s a with ⟨-, hstep⟩ | hstep
    · rw [hstep] at h
      exact absurd h.1 (List.cons_ne_nil _ _)
    · have htail := ih h.2
      rw [Mealy.final_cons, htail, hstep]
      simp [Finset.insert_union, items_cons]

/-- Where all members arrive and the gate is open at the end, a release has
been made by then, from any state. -/
theorem emitted_of_complete {l : List (Arrival ι α)} (hall : members ⊆ arrived (l ++ [a]))
    (hg : a.gate = true) : Mealy.emitted (arrive members) s (l ++ [a]) ≠ [] := by
  intro h
  rw [Mealy.emitted_append, List.append_eq_nil_iff] at h
  have hm : members ⊆ insert a.member (s.flagged ∪ arrived l) := by
    refine hall.trans ?_
    rw [arrived_append, arrived_cons, arrived_nil, Finset.union_insert, Finset.union_empty]
    exact Finset.insert_subset_insert _ Finset.subset_union_right
  have hlast := h.2
  rw [final_of_emitted_nil h.1, Mealy.emitted_cons, arrive_release hg hm] at hlast
  exact absurd hlast (List.cons_ne_nil _ _)

/-- The arrival that completes the members releases all that came before it. -/
theorem release {init : List (Arrival ι α)} (hinit : ¬ members ⊆ s.flagged ∪ arrived init)
    (hall : members ⊆ s.flagged ∪ arrived (init ++ [a])) (hg : a.gate = true) :
    Mealy.emitted (arrive members) s (init ++ [a]) = [s.pending ++ items (init ++ [a])] ∧
      Mealy.final (arrive members) s (init ++ [a]) = .start := by
  obtain ⟨hout, hfin⟩ := quiet hinit
  have hm : members ⊆ insert a.member (s.flagged ∪ arrived init) := by
    simpa [Finset.union_insert] using hall
  rw [Mealy.emitted_append, Mealy.final_append, hout, hfin, Mealy.emitted_cons, Mealy.final_cons,
    arrive_release hg hm]
  simp [items_cons]

def Open (l : List (Arrival ι α)) : Prop := ∀ a ∈ l, a.gate = true

omit [DecidableEq ι] in
theorem Open.append : Open (l ++ r) ↔ Open (ι := ι) (α := α) l ∧ Open r := by
  simp [Open, or_imp, forall_and]

theorem exists_completing {l : List (Arrival ι α)} (hs : ¬ members ⊆ s.flagged)
    (hl : members ⊆ s.flagged ∪ arrived l) :
    ∃ init a rest, l = init ++ a :: rest ∧ ¬ members ⊆ s.flagged ∪ arrived init ∧
      members ⊆ s.flagged ∪ arrived (init ++ [a]) := by
  induction l using List.reverseRecOn with
  | nil => simp at hl; exact absurd hl hs
  | append_singleton l a ih =>
    by_cases h : members ⊆ s.flagged ∪ arrived l
    · obtain ⟨init, b, rest, rfl, h1, h2⟩ := ih h
      exact ⟨init, b, rest ++ [a], by simp, h1, h2⟩
    · exact ⟨l, a, [], rfl, h, hl⟩

/-- After the first completion `a`, a cut that leaves the members complete on its
left falls behind `a`, so its right part lies inside `rest`. -/
theorem arrived_right_subset {init as bs rest : List (Arrival ι α)}
    (hinit : ¬ members ⊆ s.flagged ∪ arrived init) (h : init ++ a :: rest = as ++ bs)
    (has : members ⊆ s.flagged ∪ arrived as) : arrived bs ⊆ arrived rest := by
  rcases List.append_eq_append_iff.mp h with ⟨cs, rfl, hcs⟩ | ⟨cs, rfl, -⟩
  · cases cs with
    | nil => exact absurd (by simpa using has) hinit
    | cons c cs =>
      obtain ⟨rfl, rfl⟩ := List.cons.inj hcs
      simp
  · refine absurd (has.trans ?_) hinit
    rw [arrived_append, ← Finset.union_assoc]
    exact Finset.subset_union_left

/-- With open gates nothing is released exactly while a member is missing. -/
theorem emitted_eq_nil_iff {l : List (Arrival ι α)} (hs : ¬ members ⊆ s.flagged) (ho : Open l) :
    Mealy.emitted (arrive members) s l = [] ↔ ¬ members ⊆ s.flagged ∪ arrived l := by
  refine ⟨fun hquiet hl => ?_, fun h => (quiet h).1⟩
  obtain ⟨init, a, rest, rfl, hinit, hall⟩ := exists_completing hs hl
  obtain ⟨hout, -⟩ := release hinit hall (ho a (by simp))
  have hsplit : init ++ a :: rest = (init ++ [a]) ++ rest := by simp
  rw [hsplit, Mealy.emitted_append, hout] at hquiet
  exact absurd hquiet (List.cons_ne_nil _ _)

/-- With open gates and a member still missing, a list of arrivals makes
exactly one release when it completes the members once and not twice. -/
theorem one_release_iff {l : List (Arrival ι α)} (hs : ¬ members ⊆ s.flagged) (ho : Open l) :
    (Mealy.emitted (arrive members) s l).length = 1 ↔
      members ⊆ s.flagged ∪ arrived l ∧
        ¬ ∃ xs ys, l.map Arrival.member = xs ++ ys ∧ members ⊆ s.flagged ∪ xs.toFinset ∧
          members ⊆ ys.toFinset := by
  by_cases hl : members ⊆ s.flagged ∪ arrived l
  · obtain ⟨init, a, rest, rfl, hinit, hall⟩ := exists_completing hs hl
    have hsplit : init ++ a :: rest = (init ++ [a]) ++ rest := by simp
    obtain ⟨hout, hfin⟩ := release hinit hall (ho a (by simp))
    rw [hsplit, Mealy.emitted_append, hout, hfin]
    by_cases hrest : members ⊆ arrived rest
    · -- a second completion inside `rest` is a second release
      have hne : ¬ members ⊆ (State.start : State ι α).flagged :=
        fun h => hs (h.trans (Finset.empty_subset _))
      have hagain : Mealy.emitted (arrive members) State.start rest ≠ [] := fun hquiet =>
        (emitted_eq_nil_iff hne fun b hb => ho b (by simp [hb])).mp hquiet
          (hrest.trans Finset.subset_union_right)
      refine ⟨fun h => absurd ?_ hagain, fun h => absurd ⟨_, _, List.map_append, hall, hrest⟩ h.2⟩
      simpa using h
    · have hquiet : Mealy.emitted (arrive members) State.start rest = [] :=
        (quiet (by simpa using hrest)).1
      rw [hquiet]
      refine ⟨fun _ => ⟨hsplit ▸ hl, ?_⟩, fun _ => by simp⟩
      rintro ⟨xs, ys, he, hxs, hys⟩
      obtain ⟨as, bs, hab, rfl, rfl⟩ := List.map_eq_append_iff.mp he
      exact hrest (hys.trans (arrived_right_subset hinit (hsplit.trans hab) hxs))
  · rw [(quiet hl).1]
    simp [hl]

/-- `seg` covers the members with its last element and not before. -/
def Segment (members : Finset ι) (f : β → Arrival ι α) (seg : List β) : Prop :=
  ∃ init b, seg = init ++ [b] ∧ ¬ members ⊆ arrived (init.map f) ∧ members ⊆ arrived (seg.map f)

/-- With open gates, a run from a fresh start falls into the segments it
releases and a rest that is still pending. -/
theorem segments {f : β → Arrival ι α} {l : List β} (hne : members.Nonempty) (ho : Open (l.map f)) :
    ∃ (segs : List (List β)) (rest : List β), l = segs.flatten ++ rest ∧
      (∀ seg ∈ segs, Segment members f seg) ∧
      Mealy.emitted (arrive members) .start (l.map f) = segs.map (fun seg => items (seg.map f)) ∧
      Mealy.final (arrive members) .start (l.map f) = ⟨arrived (rest.map f), items (rest.map f)⟩ ∧
      ¬ members ⊆ arrived (rest.map f) := by
  induction l using List.reverseRecOn with
  | nil => exact ⟨[], [], rfl, by simp, rfl, rfl, by simpa using hne.ne_empty⟩
  | append_singleton l b ih =>
    rw [List.map_append, Open.append] at ho
    obtain ⟨segs, rest, rfl, hsegs, hout, hfin, hrest⟩ := ih ho.1
    have hg : (f b).gate = true := ho.2 (f b) (by simp)
    rw [List.map_append, Mealy.emitted_append, Mealy.final_append, hout, hfin, List.map_singleton,
      Mealy.emitted_cons, Mealy.final_cons, Mealy.emitted_nil, Mealy.final_nil, List.append_nil]
    have harr : arrived ((rest ++ [b]).map f) = insert (f b).member (arrived (rest.map f)) := by simp
    have hitems : items ((rest ++ [b]).map f) = items (rest.map f) ++ (f b).item.toList := by
      simp [items_cons]
    by_cases hm : members ⊆ insert (f b).member (arrived (rest.map f))
    · rw [arrive_release hg hm]
      refine ⟨segs ++ [rest ++ [b]], [], by simp, ?_, by simp [items_cons], rfl,
        by simpa using hne.ne_empty⟩
      intro seg hseg
      rcases List.mem_append.mp hseg with h | h
      · exact hsegs seg h
      · rw [List.mem_singleton.mp h]
        exact ⟨rest, b, rfl, hrest, harr ▸ hm⟩
    · rw [arrive_hold fun h => hm h.2]
      exact ⟨segs, rest ++ [b], by simp, hsegs, List.append_nil _, by rw [harr, hitems], harr ▸ hm⟩

/-- A round in which every member arrives once, from a fresh start, releases
exactly at its last arrival. -/
theorem round {init : List (Arrival ι α)}
    (hnodup : ((init ++ [a]).map Arrival.member).Nodup) (hall : arrived (init ++ [a]) = members)
    (hg : a.gate = true) :
    Mealy.emitted (arrive members) .start init = [] ∧
      Mealy.emitted (arrive members) .start (init ++ [a]) = [items (init ++ [a])] ∧
      Mealy.final (arrive members) .start (init ++ [a]) = .start := by
  have hmiss : ¬ members ⊆ (State.start : State ι α).flagged ∪ arrived init := by
    intro h
    have ha : a.member ∈ arrived init := by
      simpa using h (show a.member ∈ members by rw [← hall]; simp)
    simp only [List.map_append, List.map_singleton, List.nodup_append, List.mem_singleton,
      forall_eq] at hnodup
    exact hnodup.2.2 _ (List.mem_toFinset.mp ha) rfl
  have hrel := release hmiss (by rw [hall]; simp) hg
  exact ⟨(quiet hmiss).1, by simpa using hrel.1, hrel.2⟩

end

end Barrier
