import TienKung.Devices.StatusBarrier
import Mathlib.Data.List.Dedup

/-!
# What the aggregators publish

Over every sequence of device callbacks, from the creation of the manager:
the published messages and the pending one are exactly the statuses received,
in order; rounds that follow a publication are published one by one; and a
message repeats a name only where two statuses of it come without a full round
of callbacks between them.
-/

namespace TienKung.Manager

variable {K : ManagerKind}

-- ---------------------------------------------------------------------------
-- Rounds
-- ---------------------------------------------------------------------------

/-- Each registered name raises its flag once, the last at the end. Devices may
become ready in between; without that a round has a callback for each name. -/
def Round (names : List Int) (b : List (Callback K)) : Prop :=
  (b.filterMap (Callback.flag? names)).Perm names.dedup ∧
    ∀ last ∈ b.getLast?, (last.flag? names).isSome

instance (names : List Int) (b : List (Callback K)) : Decidable (Round names b) := by
  unfold Round; infer_instance

/-- From a fresh manager, a round publishes its statuses at its last callback
and leaves the manager fresh. -/
theorem Round.publish {m : Manager K} {init : List (Callback K)} {last : Callback K}
    (h : Round names (init ++ [last])) (hr : Registered names m) (hf : Fresh m) :
    Mealy.emitted callback m init = [] ∧
      ((Mealy.final callback m init).callback last).2 = [received names (init ++ [last])] := by
  have hri := registered_final hr init
  obtain ⟨name, hname⟩ := Option.isSome_iff_exists.mp (h.2 last (by simp))
  have hone : ((Mealy.final callback m init).arrivals last).length = 1 := by
    rw [← List.length_map (f := Barrier.Arrival.member), arrivals_member hri, hname]
    rfl
  obtain ⟨a, ha⟩ := List.length_eq_one_iff.mp hone
  have hsplit : m.arrivalsOf (init ++ [last]) = m.arrivalsOf init ++ [a] := by
    rw [arrivalsOf, Mealy.translated_append, Mealy.translated, Mealy.translated, ha]
    rfl
  have hmem := members_arrivalsOf hr (init ++ [last])
  rw [hsplit] at hmem
  have hnodup : ((m.arrivalsOf init ++ [a]).map Barrier.Arrival.member).Nodup := by
    rw [hmem]; exact (h.1.nodup_iff).mpr (List.nodup_dedup names)
  have hall : Barrier.arrived (m.arrivalsOf init ++ [a]) = names.toFinset := by
    rw [Barrier.arrived, hmem, List.toFinset_eq_of_perm _ _ h.1]
    ext x
    simp
  have hopen := arrivalsOf_open hf.ready (init ++ [last])
  rw [hsplit] at hopen
  obtain ⟨hquiet, hout, -⟩ := Barrier.round hnodup hall (hopen a (by simp))
  have hsim := callback_simulates (K := K) names
  have hinit : Mealy.emitted callback m init = [] := by
    rw [← hsim.emitted hr, hf.start]; exact hquiet
  refine ⟨hinit, ?_⟩
  have hwhole : Mealy.emitted callback m (init ++ [last]) =
      [received names (init ++ [last])] := by
    rw [← items_arrivalsOf hr, hsplit, ← hsim.emitted hr, hf.start, ← hout, ← hsplit]
  rw [Mealy.emitted_append, hinit] at hwhole
  simpa using hwhole

theorem Round.fresh {m : Manager K} {init : List (Callback K)} {last : Callback K}
    (h : Round names (init ++ [last])) (hr : Registered names m) (hf : Fresh m) :
    Fresh (Mealy.final callback m (init ++ [last])) := by
  rw [Mealy.final_append]
  exact (callback_publish (by rw [(h.publish hr hf).2]; simp)).1

theorem names_ne_nil {m : Manager K} {cb : Callback K} (hr : Registered names m)
    (hp : (m.callback cb).2 ≠ []) : names ≠ [] := by
  rintro rfl
  have hnone : ∀ i : Nat, m.devs[i]? = none := fun i => by
    simp [List.map_eq_nil_iff.mp hr.devs]
  cases cb <;> simp [callback, hnone] at hp

theorem Round.exists_last {b : List (Callback K)} (h : Round names b) (hn : names ≠ []) :
    ∃ init last, b = init ++ [last] := by
  rcases List.eq_nil_or_concat b with rfl | ⟨init, last, rfl⟩
  · have h0 : names.dedup = [] := List.nil_perm.mp h.1
    rw [List.dedup_eq_nil] at h0
    exact absurd h0 hn
  · exact ⟨init, last, List.concat_eq_append⟩

theorem rounds_fresh {m : Manager K} {blocks : List (List (Callback K))}
    (hb : ∀ b ∈ blocks, Round names b) (hn : names ≠ []) (hr : Registered names m) (hf : Fresh m) :
    Fresh (Mealy.final callback m blocks.flatten) ∧
      Mealy.emitted callback m blocks.flatten = blocks.map (received names) := by
  induction blocks generalizing m with
  | nil => exact ⟨hf, rfl⟩
  | cons b blocks ih =>
    have hround := hb b (by simp)
    obtain ⟨init, last, rfl⟩ := hround.exists_last hn
    obtain ⟨hinit, hlast⟩ := hround.publish hr hf
    obtain ⟨hfresh, hout⟩ := ih (fun c hc => hb c (List.mem_cons_of_mem _ hc))
      (registered_final hr _) (hround.fresh hr hf)
    rw [List.flatten_cons, Mealy.final_append, Mealy.emitted_append, hout]
    refine ⟨hfresh, ?_⟩
    simp [Mealy.emitted_append, hinit, hlast]

/-- The published messages and the pending one hold exactly the statuses
received, in order. After a publication, rounds are published one by one:
nothing inside a round, its statuses at its last callback. -/
theorem statuses_kept_and_rounds_published (agg : Aggregator) (names : List Int)
    (cbs : List (Callback agg.kind)) :
    (published agg.kind names cbs).flatten ++ (after agg.kind names cbs).msgStatus =
        received names cbs ∧
      ∀ cb, ((after agg.kind names cbs).callback cb).2 ≠ [] →
        ∀ blocks : List (List (Callback agg.kind)), (∀ b ∈ blocks, Round names b) →
          let m := after agg.kind names (cbs ++ [cb])
          Mealy.emitted callback m blocks.flatten = blocks.map (received names) ∧
            ∀ before init last later, blocks = before ++ (init ++ [last]) :: later →
              Mealy.emitted callback (Mealy.final callback m before.flatten) init = [] ∧
              ((Mealy.final callback m (before.flatten ++ init)).callback last).2 =
                [received names (init ++ [last])] := by
  have hr := create_registered (K := agg.kind) names
  refine ⟨(received_eq hr cbs).trans (by simp [(create_start names).2]), ?_⟩
  intro cb hp blocks hb m
  have hreg : Registered names (after agg.kind names cbs) := registered_final hr cbs
  have hm : m = ((after agg.kind names cbs).callback cb).1 := by
    simp [m, after, Mealy.final_append]
  have hfresh : Fresh m := hm ▸ (callback_publish hp).1
  have hrm : Registered names m := hm ▸ (callback_arrive hreg cb).1
  have hn := names_ne_nil hreg hp
  refine ⟨(rounds_fresh hb hn hrm hfresh).2, ?_⟩
  rintro before init last later rfl
  have hrounds : ∀ b ∈ before, Round names b := fun b h => hb b (by simp [h])
  have hbefore := rounds_fresh hrounds hn hrm hfresh
  have hround := hb (init ++ [last]) (by simp)
  rw [Mealy.final_append]
  exact hround.publish (registered_final hrm _) hbefore.1

/-- Two motors, one publication, then two rounds with the motors in either
order; the second motor misses in the first round, and both say once more in
the second that they are ready. -/
theorem statuses_kept_and_rounds_published_two_motors :
    let r : MotorReport := ⟨0, 0, 0, 0⟩
    let start : List (Callback motorDeviceManager) :=
      [.setReady 0, .status 0 r, .setReady 1]
    let blocks : List (List (Callback motorDeviceManager)) :=
      [[.status 0 r, .miss 1 ()], [.setReady 1, .status 1 r, .setReady 0, .status 0 r]]
    Mealy.emitted callback (after motorDeviceManager [1, 2] (start ++ [.status 1 r])) blocks.flatten =
      [[⟨1, 0, 0, 0, 0⟩], [⟨2, 0, 0, 0, 0⟩, ⟨1, 0, 0, 0, 0⟩]] := by
  intro r start blocks
  have h := ((statuses_kept_and_rounds_published .motorDeviceManager [1, 2] start).2
    (.status 1 r) (by decide) blocks (by decide)).1
  exact h.trans (by decide)

-- ---------------------------------------------------------------------------
-- Repeated names
-- ---------------------------------------------------------------------------

def OneEntryPerName (K : ManagerKind) (names : List Int) (cbs : List (Callback K)) : Prop :=
  (∀ msg ∈ published K names cbs, (msg.map K.nameOf).Nodup) ∧
    (after K names cbs).msgStatus.length ≤ names.length

def Unreported (names : List Int) (m : Manager K) (cb : Callback K) : Prop :=
  ∀ e ∈ cb.entry? names, ∀ p ∈ m.msgStatus, K.nameOf p ≠ K.nameOf e

theorem received_nameOf {names : List Int} {cbs : List (Callback K)} {e : K.Entry}
    (he : e ∈ received names cbs) : K.nameOf e ∈ names.map K.wireName := by
  obtain ⟨cb, -, hcb⟩ := List.mem_filterMap.mp he
  cases cb with
  | status i report =>
    obtain ⟨name, hname, rfl⟩ := Option.map_eq_some_iff.mp hcb
    rw [K.nameOf_entry]
    exact List.mem_map.mpr ⟨name, List.mem_of_getElem? hname, rfl⟩
  | _ => cases hcb

theorem Unreported.arrivals_fresh {m : Manager K} {cb : Callback K} (hr : Registered names m)
    (hu : Unreported names m cb) :
    Mealy.Along (Barrier.arrive names.toFinset) (Barrier.Fresh K.nameOf) m.toBarrier
      (m.arrivals cb) := by
  have hitem := arrivals_item hr cb
  cases ha : m.arrivals cb with
  | nil => trivial
  | cons a rest =>
    -- a callback makes at most one arrival
    have hrest : rest = [] := by
      have hmem := arrivals_member hr cb
      rw [ha] at hmem
      cases hf : cb.flag? names <;> rw [hf] at hmem <;> simp_all
    subst hrest
    refine ⟨fun x hx y hy => hu x ?_ y hy, trivial⟩
    rw [ha] at hitem
    have hx' : x ∈ Barrier.items [a] := by
      rw [Barrier.items_cons, Option.mem_def.mp hx]; simp
    rw [hitem] at hx'
    simpa using hx'

theorem pending_length_le {names : List Int} {cbs : List (Callback K)}
    (hn : ((after K names cbs).msgStatus.map K.nameOf).Nodup) :
    (after K names cbs).msgStatus.length ≤ names.length := by
  have hsub : (after K names cbs).msgStatus.map K.nameOf ⊆ names.map K.wireName := by
    intro x hx
    obtain ⟨e, he, rfl⟩ := List.mem_map.mp hx
    have hall := received_eq (create_registered (K := K) names) cbs
    rw [(create_start names).2, List.nil_append] at hall
    exact received_nameOf (hall ▸ List.mem_append_right _ he)
  have hlen := (List.subperm_of_subset hn hsub).length_le
  rwa [List.length_map, List.length_map] at hlen

theorem callback_hold {m : Manager K} {cb : Callback K} (hr : Registered names m)
    (hh : (m.callback cb).2 = []) :
    (m.callback cb).1.msgStatus = m.msgStatus ++ (cb.entry? names).toList := by
  obtain ⟨-, hfin, hout⟩ := callback_arrive hr cb
  rw [hh] at hout
  rw [Barrier.final_of_emitted_nil hout, arrivals_item hr] at hfin
  exact (congrArg Barrier.State.pending hfin).symm

/-- What is pending came with a callback since which nothing was published. -/
theorem pending_origin {m : Manager K} {cbs : List (Callback K)} (hr : Registered names m)
    (he : e ∈ (Mealy.final callback m cbs).msgStatus) :
    e ∈ m.msgStatus ∨ ∃ before cb after, cbs = before ++ cb :: after ∧ cb.entry? names = some e ∧
      Mealy.emitted callback (Mealy.final callback m before) (cb :: after) = [] := by
  induction cbs using List.reverseRecOn with
  | nil => exact .inl he
  | append_singleton cbs c ih =>
    rw [Mealy.final_append, Mealy.final_cons, Mealy.final_nil] at he
    by_cases hp : ((Mealy.final callback m cbs).callback c).2 = []
    · rw [callback_hold (registered_final hr cbs) hp] at he
      rcases List.mem_append.mp he with h | h
      · rcases ih h with h | ⟨before, cb, after, rfl, hcb, hquiet⟩
        · exact .inl h
        · refine .inr ⟨before, cb, after ++ [c], by simp, hcb, ?_⟩
          rw [← List.cons_append, Mealy.emitted_append, hquiet, ← Mealy.final_append,
            Mealy.emitted_cons, hp]
          rfl
      · exact .inr ⟨cbs, c, [], rfl, by simpa using h, by simpa using hp⟩
    · -- nothing is pending after a publication
      have hstart := congrArg Barrier.State.pending (callback_publish hp).1.start
      rw [show (_ : Manager K).msgStatus = [] from hstart] at he
      cases he

def Callback.name? (names : List Int) (cb : Callback K) : Option K.Name :=
  (cb.entry? names).map K.nameOf

/-- At callback `k` every device has become ready, and every name has raised its
flag since callback `q`. -/
structure Completes (names : List Int) (cbs : List (Callback K)) (q k : Nat) : Prop where
  ready : AllReady names (cbs.take k)
  flag : ((cbs[k]?).bind (Callback.flag? names)).isSome
  all : ∀ name ∈ names, name ∈ ((cbs.take (k + 1)).drop q).filterMap (Callback.flag? names)

instance (names : List Int) (cbs : List (Callback K)) (q k : Nat) :
    Decidable (Completes names cbs q k) :=
  decidable_of_iff (AllReady names (cbs.take k) ∧
    ((cbs[k]?).bind (Callback.flag? names)).isSome ∧
      ∀ name ∈ names, name ∈ ((cbs.take (k + 1)).drop q).filterMap (Callback.flag? names))
    ⟨fun h => ⟨h.1, h.2.1, h.2.2⟩, fun h => ⟨h.1, h.2, h.3⟩⟩

/-- Between two statuses of one name all the others call back. -/
def Spaced (names : List Int) (cbs : List (Callback K)) : Prop :=
  ∀ p < cbs.length, ∀ q < p, ∀ x ∈ (cbs[q]?).bind (Callback.name? names),
    x ∈ (cbs[p]?).bind (Callback.name? names) → ∃ k < p, q ≤ k ∧ Completes names cbs q k

instance (names : List Int) (cbs : List (Callback K)) : Decidable (Spaced names cbs) := by
  unfold Spaced; infer_instance

/-- Names that have all called back since all were ready have been published. -/
theorem published_of_complete {before init : List (Callback K)} {c : Callback K}
    (hready : AllReady names (before ++ init)) (hflag : (c.flag? names).isSome)
    (hall : ∀ name ∈ names, name ∈ (init ++ [c]).filterMap (Callback.flag? names)) :
    Mealy.emitted callback (after K names before) (init ++ [c]) ≠ [] := by
  have hr : Registered names (after K names before) := registered_final (create_registered names) _
  obtain ⟨name, hname⟩ := Option.isSome_iff_exists.mp hflag
  have hone := arrivals_member (registered_final hr init) c
  rw [hname] at hone
  obtain ⟨a, ha, -⟩ := List.map_eq_singleton_iff.mp hone
  have hsplit : (after K names before).arrivalsOf (init ++ [c]) =
      (after K names before).arrivalsOf init ++ [a] := by
    rw [arrivalsOf, Mealy.translated_append, Mealy.translated, Mealy.translated, ha]
    rfl
  have hgate : a.gate = true := by
    have hmem : a ∈ (Mealy.final callback (after K names before) init).arrivals c := by simp [ha]
    rw [arrivals_gate hmem, after, ← Mealy.final_append]
    exact isReady_of_allReady hready
  have hmem := members_arrivalsOf hr (init ++ [c])
  rw [hsplit] at hmem
  have hsim : Mealy.emitted (Barrier.arrive names.toFinset) (after K names before).toBarrier
      ((after K names before).arrivalsOf (init ++ [c])) = _ := (callback_simulates names).emitted hr
  rw [← hsim, hsplit]
  refine Barrier.emitted_of_complete (fun name hname => ?_) hgate
  rw [Barrier.arrived, hmem, List.mem_toFinset]
  exact hall name (List.mem_toFinset.mp hname)

theorem Spaced.unreported {cbs : List (Callback K)} (h : Spaced names cbs) :
    Mealy.Along callback (Unreported names) (create names) cbs := by
  refine Mealy.along_of_prefix fun before c hprefix _ e he y hy hname => ?_
  obtain ⟨tail, rfl⟩ := hprefix
  rcases pending_origin (create_registered names) hy with hnil | ⟨first, cb, rest, rfl, hcb, hquiet⟩
  · rw [(create_start names).2] at hnil
    cases hnil
  -- the callbacks from the pending entry on, in front of `c`
  have hcbs : first ++ cb :: rest ++ [c] ++ tail = first ++ (cb :: rest) ++ (c :: tail) := by simp
  rw [hcbs] at h
  generalize hseg : cb :: rest = seg at h hquiet
  have hq : (first ++ seg ++ (c :: tail))[first.length]? = some cb := by simp [← hseg]
  have hp : (first ++ seg ++ (c :: tail))[(first ++ seg).length]? = some c := by simp
  have hqname : K.nameOf e ∈ cb.name? names := by rw [Callback.name?, hcb, ← hname]; rfl
  have hpname : K.nameOf e ∈ c.name? names := by rw [Callback.name?, Option.mem_def.mp he]; rfl
  obtain ⟨k, hkp, hqk, hready, hflag, hall⟩ := h (first ++ seg).length (by simp) first.length
    (by simp [← hseg]) (K.nameOf e) (by rw [hq]; exact hqname) (by rw [hp]; exact hpname)
  obtain ⟨j, rfl⟩ := Nat.exists_eq_add_of_le hqk
  have hj : j < seg.length := by rw [List.length_append] at hkp; omega
  have hk : (first ++ seg ++ (c :: tail))[first.length + j]? = some seg[j] := by
    simp [List.getElem?_append, hj]
  have htake {n : Nat} (hn : n ≤ seg.length) :
      (first ++ seg ++ (c :: tail)).take (first.length + n) = first ++ seg.take n := by
    rw [List.append_assoc, List.take_length_add_append, List.take_append_of_le_length hn]
  rw [hk] at hflag
  rw [htake hj.le] at hready
  rw [Nat.add_assoc, htake hj, List.drop_left, ← List.take_append_getElem hj] at hall
  have hsplit : seg = (seg.take j ++ [seg[j]]) ++ seg.drop (j + 1) := by
    rw [List.take_append_getElem, List.take_append_drop]
  rw [hsplit, Mealy.emitted_append, List.append_eq_nil_iff] at hquiet
  exact published_of_complete hready hflag hall hquiet.1

/-- Where all devices become ready and all names call back between two statuses
of one name, a message holds at most one entry for each name and no more is
ever pending than there are devices. -/
theorem one_entry_per_name (agg : Aggregator) (names : List Int) (cbs : List (Callback agg.kind))
    (hs : Spaced names cbs) : OneEntryPerName agg.kind names cbs := by
  have hr := create_registered (K := agg.kind) names
  have hsim := callback_simulates (K := agg.kind) names
  have halong : Mealy.Along (Barrier.arrive names.toFinset) (Barrier.Fresh agg.kind.nameOf)
      (create names).toBarrier (arrivalsOf (create names) cbs) :=
    hsim.along hr hs.unreported fun _ _ hm hg => hg.arrivals_fresh hm
  obtain ⟨hpend, hmsgs⟩ :=
    Barrier.nodup_of_fresh halong (by simp [toBarrier, (create_start names).2])
  rw [hsim.final hr] at hpend
  rw [hsim.emitted hr] at hmsgs
  exact ⟨hmsgs, pending_length_le hpend⟩

/-- The second motor becomes ready after the first has reported, and misses in
the second round. -/
theorem one_entry_per_name_two_motors :
    OneEntryPerName motorDeviceManager [1, 2] [.setReady 0, .status 0 ⟨0, 0, 0, 0⟩, .setReady 1,
      .status 1 ⟨0, 0, 0, 0⟩, .status 0 ⟨0, 0, 0, 0⟩, .miss 1 (), .status 1 ⟨0, 0, 0, 0⟩,
      .status 0 ⟨0, 0, 0, 0⟩] :=
  one_entry_per_name .motorDeviceManager [1, 2] _ (by decide)

/-- At start-up the first motor is ready and reports in three cycles before
the second one becomes ready: its three entries are pending together, and are
published together. -/
theorem not_one_entry_per_name :
    ¬ ∀ (agg : Aggregator) (names : List Int) (cbs : List (Callback agg.kind)), names.Nodup →
      OneEntryPerName agg.kind names cbs := by
  intro h
  have hmsgs := (h .motorDeviceManager [1, 2] [.setReady 0, .status 0 ⟨0, 0, 0, 0⟩,
    .status 0 ⟨0, 0, 0, 0⟩, .status 0 ⟨0, 0, 0, 0⟩, .setReady 1, .status 1 ⟨0, 0, 0, 0⟩] (by decide)).1
  revert hmsgs
  decide

end TienKung.Manager
