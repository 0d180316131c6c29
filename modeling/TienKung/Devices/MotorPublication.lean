import TienKung.Devices.MotorCycles
import Mathlib.Data.Finset.Card

/-!
# Messages and bus cycles

The phase of a `MotorDeviceManager` is set by the visit that triggers its first
publication. From there on every message covers one window of visits, at most
as many as there are motors; the windows are the cycles themselves only when
the trigger was the last visit of its cycle. Whether a cycle publishes once is
decided by the motors that were heard in it.
-/

namespace TienKung

open Manager (Callback Registered Fresh)

variable {specs : List MotorSpec}

-- ---------------------------------------------------------------------------
-- Visits of consecutive cycles
-- ---------------------------------------------------------------------------

@[simp] theorem Cycle.length_visits (c : Cycle n) : c.visits.length = n := by simp [visits]

theorem Cycle.visits_index {c : Cycle n} {j : Nat} {v : Visit} (h : c.visits[j]? = some v) :
    v.1 = j := by
  simp only [visits, List.getElem?_map, List.getElem?_zipIdx, Option.map_eq_some_iff] at h
  obtain ⟨_, ⟨_, -, rfl⟩, rfl⟩ := h
  simp

theorem visits_index {cycles : List (Cycle n)} {j : Nat} {v : Visit}
    (h : (cycles.flatMap Cycle.visits)[j]? = some v) : v.1 = j % n := by
  induction cycles generalizing j with
  | nil => simp at h
  | cons c cycles ih =>
    rw [List.flatMap_cons, List.getElem?_append, Cycle.length_visits] at h
    split at h
    · rename_i hj
      rw [Nat.mod_eq_of_lt hj]
      exact Cycle.visits_index h
    · rename_i hj
      rw [Nat.mod_eq_sub_mod (by omega)]
      exact ih h

theorem exists_index (p : Nat) (hi : i < n) : ∃ j, p ≤ j ∧ j < p + n ∧ j % n = i := by
  have hdiv := Nat.div_add_mod p n
  have hlt := Nat.mod_lt p (by omega : 0 < n)
  by_cases h : p % n ≤ i
  · exact ⟨n * (p / n) + i, by omega, by omega, by rw [Nat.mul_add_mod, Nat.mod_eq_of_lt hi]⟩
  · refine ⟨n * (p / n + 1) + i, ?_, ?_, by rw [Nat.mul_add_mod, Nat.mod_eq_of_lt hi]⟩
    · rw [Nat.mul_add]; omega
    · rw [Nat.mul_add]; omega

theorem window_covers {cycles : List (Cycle specs.length)} (pre : List Visit) {window : List Visit}
    (post : List Visit) (hv : cycles.flatMap Cycle.visits = pre ++ window ++ post)
    (hn : specs.length ≤ window.length) :
    (names specs).toFinset ⊆ Barrier.arrived (window.map (visitArrival specs)) := by
  intro name hname
  obtain ⟨s, hs, rfl⟩ := List.mem_map.mp (List.mem_toFinset.mp hname)
  obtain ⟨i, hi, rfl⟩ := List.getElem_of_mem hs
  obtain ⟨j, hpj, hjn, hji⟩ := exists_index pre.length hi
  have hlt : j - pre.length < window.length := by omega
  have hwin : (cycles.flatMap Cycle.visits)[j]? = some window[j - pre.length] := by
    rw [hv, List.append_assoc, List.getElem?_append_right hpj, List.getElem?_append_left hlt,
      List.getElem?_eq_getElem hlt]
  have hidx := visits_index hwin
  rw [hji] at hidx
  rw [Barrier.arrived, List.mem_toFinset, List.map_map]
  refine List.mem_map.mpr ⟨_, List.getElem_mem hlt, ?_⟩
  simp [visitArrival, hidx, hi]

/-- Without its last visit a window that reaches every motor does not, so it is
no longer than a cycle. -/
theorem segment_length_le {cycles : List (Cycle specs.length)} (pre : List Visit)
    {window : List Visit} (post : List Visit)
    (hv : cycles.flatMap Cycle.visits = pre ++ window ++ post)
    (hs : Barrier.Segment (names specs).toFinset (visitArrival specs) window) :
    window.length ≤ specs.length := by
  obtain ⟨init, b, rfl, hinit, -⟩ := hs
  by_contra hlong
  refine hinit (window_covers pre (b :: post) (hv.trans ?_) ?_)
  · simp
  · simp at hlong; omega

theorem le_segment_length {window : List Visit} (hn : (names specs).Nodup)
    (hs : Barrier.Segment (names specs).toFinset (visitArrival specs) window) :
    specs.length ≤ window.length := by
  obtain ⟨init, b, -, -, hcover⟩ := hs
  calc specs.length = (names specs).toFinset.card := by
        rw [List.toFinset_card_of_nodup hn, List.length_map]
    _ ≤ (Barrier.arrived (window.map (visitArrival specs))).card := Finset.card_le_card hcover
    _ ≤ window.length := by simpa using Barrier.card_arrived_le (window.map (visitArrival specs))

theorem prefix_of_flatten {xss yss : List (List α)} (rest : List α) (hn : 0 < n)
    (hx : ∀ xs ∈ xss, xs.length = n) (hy : ∀ ys ∈ yss, ys.length = n)
    (h : xss.flatten ++ rest = yss.flatten) : xss <+: yss := by
  induction xss generalizing yss with
  | nil => exact List.nil_prefix
  | cons xs xss ih =>
    cases yss with
    | nil =>
      have hxs := hx xs (by simp)
      simp only [List.flatten_cons, List.flatten_nil, List.append_eq_nil_iff] at h
      simp [h.1.1] at hxs
      omega
    | cons ys yss =>
      rw [List.flatten_cons, List.flatten_cons, List.append_assoc] at h
      obtain ⟨rfl, htail⟩ := List.append_inj h (by rw [hx xs (by simp), hy ys (by simp)])
      exact List.cons_prefix_cons.mpr ⟨rfl, ih (fun x hm => hx x (List.mem_cons_of_mem _ hm))
        (fun y hm => hy y (List.mem_cons_of_mem _ hm)) htail⟩

-- ---------------------------------------------------------------------------
-- What a message covers
-- ---------------------------------------------------------------------------

abbrev sent (garbage : MotorReport) (specs : List MotorSpec) (cycles : List (Cycle specs.length)) :
    List (List MotorStatus) :=
  Mealy.emitted MotorBus.onResponse (.create garbage specs) (cycles.flatMap Cycle.visits)

/-- From the visit that triggers the first message on, the messages are those of
the barrier: its segments, one after the other. -/
theorem sent_segments {garbage : MotorReport} {cycles : List (Cycle specs.length)}
    (hh : ∀ v ∈ cycles.flatMap Cycle.visits, Heard specs v) (hsent : sent garbage specs cycles ≠ []) :
    ∃ (before : List Visit) (trigger : Visit) (windows : List (List Visit)) (rest : List Visit)
      (first : List MotorStatus),
      cycles.flatMap Cycle.visits = before ++ trigger :: (windows.flatten ++ rest) ∧
      Mealy.emitted MotorBus.onResponse (.create garbage specs) before = [] ∧
      sent garbage specs cycles = first :: windows.map (statuses specs) ∧
      ∀ w ∈ windows, Barrier.Segment (names specs).toFinset (visitArrival specs) w := by
  obtain ⟨before, trigger, after, first, m, hv, hquiet, hreg, hfresh, hout, -⟩ :=
    MotorBus.first_publication hsent
  have harr : m.arrivalsOf (after.flatMap (visitCallbacks specs)) =
      after.map (visitArrival specs) := by
    rw [Manager.arrivalsOf_of_ready hreg hfresh.ready]
    exact arrivals_of_heard fun v hm => hh v (by rw [hv]; simp [hm])
  have hopen : Barrier.Open (after.map (visitArrival specs)) := by
    intro a ha
    obtain ⟨v, -, rfl⟩ := List.mem_map.mp ha
    rfl
  have hne : (names specs).toFinset.Nonempty := by
    obtain ⟨name, hname⟩ := List.exists_mem_of_ne_nil (names specs)
      (by simpa using MotorBus.specs_ne_nil hsent)
    exact ⟨name, List.mem_toFinset.mpr hname⟩
  obtain ⟨windows, rest, rfl, hseg, hemit, -, -⟩ := Barrier.segments hne hopen
  rw [← harr, ← hfresh.start, (Manager.callback_simulates (names specs)).emitted hreg] at hemit
  refine ⟨before, trigger, windows, rest, first, hv, hquiet, ?_, hseg⟩
  rw [sent, hout, hemit]
  simp

theorem windows_aligned {cycles : List (Cycle n)} {before : List Visit} {windows : List (List Visit)}
    (hn : 0 < n) (hexact : ∀ w ∈ windows, w.length = n)
    (hv : cycles.flatMap Cycle.visits = before ++ (windows.flatten ++ rest))
    (hj : before = (cycles.take j).flatMap Cycle.visits) :
    windows <+: (cycles.drop j).map Cycle.visits := by
  refine prefix_of_flatten rest hn hexact ?_ ?_
  · intro ys hys
    obtain ⟨c, -, rfl⟩ := List.mem_map.mp hys
    exact c.length_visits
  · have hsplit : cycles.flatMap Cycle.visits =
        (cycles.take j).flatMap Cycle.visits ++ (cycles.drop j).flatMap Cycle.visits := by
      rw [← List.flatMap_append, List.take_append_drop]
    rw [hv, ← hj] at hsplit
    rw [← List.flatMap_def]
    exact List.append_cancel_left hsplit

/-- When every motor is heard in every cycle, each message after the first
holds the statuses of one window of at most `specs.length` consecutive visits,
window following window from the visit that triggers the first message. With
distinct names a window visits each motor once, and when the trigger ends a
cycle the windows are the cycles that follow. -/
theorem windows_published (garbage : MotorReport) (specs : List MotorSpec)
    (cycles : List (Cycle specs.length)) (hh : ∀ c ∈ cycles, ∀ v ∈ c.visits, Heard specs v) :
    sent garbage specs cycles = [] ∨
      ∃ before trigger windows rest first,
        cycles.flatMap Cycle.visits = before ++ trigger :: (windows.flatten ++ rest) ∧
        Mealy.emitted MotorBus.onResponse (.create garbage specs) before = [] ∧
        sent garbage specs cycles = first :: windows.map (statuses specs) ∧
        (∀ w ∈ windows, w.length ≤ specs.length) ∧
        ((names specs).Nodup → (∀ w ∈ windows, w.length = specs.length) ∧
          ∀ j, before ++ [trigger] = (cycles.take j).flatMap Cycle.visits →
            windows <+: (cycles.drop j).map Cycle.visits) := by
  by_cases hsent : sent garbage specs cycles = []
  · exact .inl hsent
  have hheard : ∀ v ∈ cycles.flatMap Cycle.visits, Heard specs v := fun v hm => by
    obtain ⟨c, hc, hvc⟩ := List.mem_flatMap.mp hm
    exact hh c hc v hvc
  obtain ⟨before, trigger, windows, rest, first, hv, hquiet, hout, hseg⟩ :=
    sent_segments hheard hsent
  have hshort : ∀ w ∈ windows, w.length ≤ specs.length := by
    intro w hw
    obtain ⟨ws, ws', rfl⟩ := List.append_of_mem hw
    refine segment_length_le (before ++ trigger :: ws.flatten)
      (ws'.flatten ++ rest) (hv.trans ?_) (hseg w hw)
    simp
  refine .inr ⟨before, trigger, windows, rest, first, hv, hquiet, hout, hshort, fun hnodup => ?_⟩
  have hexact : ∀ w ∈ windows, w.length = specs.length := fun w hw =>
    Nat.le_antisymm (hshort w hw) (le_segment_length hnodup (hseg w hw))
  have hpos : 0 < specs.length := List.length_pos_iff.mpr (MotorBus.specs_ne_nil hsent)
  have hcut : cycles.flatMap Cycle.visits = before ++ [trigger] ++ (windows.flatten ++ rest) := by
    rw [hv, List.append_assoc, List.singleton_append]
  exact ⟨hexact, fun j hj => windows_aligned hpos hexact hcut hj⟩

def statusFrame (id : UInt32) (pos : UInt8) : DeviceMessage :=
  ⟨id, 0, 8, #v[0, pos, 0, 0, 0, 0, 0, 0]⟩

def twoMotors : List MotorSpec := [⟨⟨1, .s4310, 0⟩, 1⟩, ⟨⟨2, .s4310, 0⟩, 2⟩]

theorem windows_published_two_motors :
    let cycles : List (Cycle twoMotors.length) :=
      [#v[.zero, statusFrame 2 1], #v[statusFrame 1 2, statusFrame 2 2], #v[statusFrame 1 3, .zero]]
    ∃ (windows : List (List Visit)) (first : List MotorStatus),
      sent ⟨0, 0, 0, 0⟩ twoMotors cycles = first :: windows.map (statuses twoMotors) ∧
      ∀ w ∈ windows, w.length = 2 := by
  intro cycles
  obtain h | ⟨_, _, windows, _, first, -, -, hout, -, hexact⟩ :=
    windows_published ⟨0, 0, 0, 0⟩ twoMotors cycles (by decide)
  · exact absurd h (by decide +kernel)
  · exact ⟨windows, first, hout, (hexact (by decide)).1⟩

/-- In that run the second message joins a status of the second cycle to one
of the third. -/
theorem not_single_cycle_messages :
    ¬ ∀ (garbage : MotorReport) (specs : List MotorSpec) (cycles : List (Cycle specs.length)),
      (names specs).Nodup → (∀ c ∈ cycles, ∀ v ∈ c.visits, Heard specs v) →
      ∀ msg ∈ (sent garbage specs cycles).tail, ∃ c ∈ cycles, msg ⊆ statuses specs c.visits := by
  intro h
  have hmsgs := h ⟨0, 0, 0, 0⟩ twoMotors
    [#v[.zero, statusFrame 2 1], #v[statusFrame 1 2, statusFrame 2 2], #v[statusFrame 1 3, .zero]]
    (by decide) (by decide)
  revert hmsgs
  decide +kernel

-- ---------------------------------------------------------------------------
-- Which cycles publish once
-- ---------------------------------------------------------------------------

def heardNames (specs : List MotorSpec) (vs : List Visit) : List Int :=
  (vs.filter fun v => Heard specs v).filterMap fun v => specs[v.1]?.map MotorSpec.name

theorem flags_of_visit (v : Visit) :
    (visitCallbacks specs v).filterMap (Callback.flag? (names specs)) = heardNames specs [v] := by
  cases hs : specs[v.1]? with
  | none => simp [visitCallbacks, heardNames, Heard, hs]
  | some s =>
    have hheard : Heard specs v ↔ s.Hears v.2 := by simp [Heard, hs]
    cases he : s.event v.2 with
    | none =>
      have hnot := MotorConfig.event_eq_none.mp he
      simp [visitCallbacks, MotorEvent.callbacks, heardNames, hheard, hs, he, hnot]
    | status r =>
      have hh : s.Hears v.2 := by
        by_contra h; simp [MotorConfig.event_eq_none.mpr h] at he
      simp [visitCallbacks, MotorEvent.callbacks, Callback.flag?, List.filterMap_cons, heardNames,
        hheard, hs, he, hh]
    | miss =>
      have hh : s.Hears v.2 := by
        by_contra h; simp [MotorConfig.event_eq_none.mpr h] at he
      simp [visitCallbacks, MotorEvent.callbacks, Callback.flag?, heardNames, hheard, hs, he, hh]

theorem flags_of_visits (vs : List Visit) :
    (vs.flatMap (visitCallbacks specs)).filterMap (Callback.flag? (names specs)) =
      heardNames specs vs := by
  induction vs with
  | nil => rfl
  | cons v vs ih =>
    rw [List.flatMap_cons, List.filterMap_append, ih, flags_of_visit]
    rw [heardNames, heardNames, heardNames, ← List.filterMap_append, ← List.filter_append,
      List.singleton_append]

/-- The motors heard bring up every flag that is down, and those that follow
do not bring up all flags again. The second happens only when motors share a
name. -/
def CompletesOnce (names : List Int) (raised : Finset Int) (heard : List Int) : Prop :=
  names.toFinset ⊆ raised ∪ heard.toFinset ∧
    ¬ ∃ xs ys, heard = xs ++ ys ∧ names.toFinset ⊆ raised ∪ xs.toFinset ∧ names.toFinset ⊆ ys.toFinset

theorem completesOnce_of_nodup {names heard : List Int} {raised : Finset Int} (hn : names.Nodup)
    (hgap : ¬ names.toFinset ⊆ raised) (hlen : heard.length ≤ names.length)
    (hall : names.toFinset ⊆ raised ∪ heard.toFinset) : CompletesOnce names raised heard := by
  refine ⟨hall, ?_⟩
  rintro ⟨xs, ys, rfl, hxs, hys⟩
  have hcard : names.length ≤ ys.length := by
    rw [← List.toFinset_card_of_nodup hn]
    exact (Finset.card_le_card hys).trans (List.toFinset_card_le ys)
  have hnil : xs = [] := List.length_eq_zero_iff.mp (by simp at hlen; omega)
  subst hnil
  exact hgap (by simpa using hxs)

/-- A bus that has published: its manager is latched and some flag is down. -/
structure MotorBus.Publishing (specs : List MotorSpec) (b : MotorBus) : Prop where
  configured : b.Configured specs
  registered : Registered (names specs) b.manager
  ready : b.manager.ready = true
  gap : ¬ (names specs).toFinset ⊆ b.manager.statusReady.raised

theorem MotorBus.publishing {garbage : MotorReport} {history : List Visit}
    (hp : Mealy.emitted onResponse (create garbage specs) history ≠ []) :
    (Mealy.final onResponse (create garbage specs) history).Publishing specs := by
  obtain ⟨_, _, after, _, m, -, -, hreg, hfresh, -, hfin⟩ := first_publication hp
  have hn : names specs ≠ [] := by simpa using specs_ne_nil hp
  exact ⟨(create_configured garbage specs).final history,
    hfin ▸ Manager.registered_final hreg _, hfin ▸ Manager.final_ready hfresh.ready _,
    hfin ▸ hfresh.not_all_raised hreg hn _⟩

theorem MotorBus.Publishing.once_iff {b : MotorBus} (h : b.Publishing specs) (vs : List Visit) :
    (Mealy.emitted onResponse b vs).length = 1 ↔
      CompletesOnce (names specs) b.manager.statusReady.raised (heardNames specs vs) := by
  have hmem := Manager.members_arrivalsOf h.registered (vs.flatMap (visitCallbacks specs))
  rw [flags_of_visits] at hmem
  have hone := Barrier.one_release_iff (s := b.manager.toBarrier) h.gap
    (Manager.arrivalsOf_open h.ready (vs.flatMap (visitCallbacks specs)))
  rw [(Manager.callback_simulates (names specs)).emitted h.registered, Barrier.arrived, hmem] at hone
  rw [← (simulates specs).emitted h.configured, Mealy.translated_const, hone]
  rfl

theorem MotorBus.Publishing.quiet_iff {b : MotorBus} (h : b.Publishing specs) (vs : List Visit) :
    Mealy.emitted onResponse b vs = [] ↔
      ¬ (names specs).toFinset ⊆ b.manager.statusReady.raised ∪ (heardNames specs vs).toFinset := by
  have hmem := Manager.members_arrivalsOf h.registered (vs.flatMap (visitCallbacks specs))
  rw [flags_of_visits] at hmem
  have hquiet := Barrier.emitted_eq_nil_iff (s := b.manager.toBarrier) h.gap
    (Manager.arrivalsOf_open h.ready (vs.flatMap (visitCallbacks specs)))
  rw [(Manager.callback_simulates (names specs)).emitted h.registered, Barrier.arrived, hmem] at hquiet
  rw [← (simulates specs).emitted h.configured, Mealy.translated_const, hquiet]
  rfl

/-- The last of the visits brings up the last flag that is down. -/
def MotorBus.Completing (specs : List MotorSpec) (b : MotorBus) (vs : List Visit) : Prop :=
  ∃ init last, vs = init ++ [last] ∧
    ¬ (names specs).toFinset ⊆ b.manager.statusReady.raised ∪ (heardNames specs init).toFinset ∧
    (names specs).toFinset ⊆ b.manager.statusReady.raised ∪ (heardNames specs vs).toFinset

/-- The one message of some visits holds what was pending and their statuses up to the visit that
completes the flags; what comes later is pending. -/
theorem MotorBus.Publishing.message {b : MotorBus} (h : b.Publishing specs) {vs : List Visit}
    {msg : List MotorStatus} (hone : Mealy.emitted onResponse b vs = [msg]) :
    ∃ covered later, vs = covered ++ later ∧ b.Completing specs covered ∧
      msg = b.manager.msgStatus ++ statuses specs covered ∧
      (Mealy.final onResponse b vs).manager.msgStatus = statuses specs later := by
  obtain ⟨init, last, later, rfl, hquiet, hlast⟩ :=
    Mealy.exists_first (by rw [hone]; exact List.cons_ne_nil _ _)
  obtain ⟨first, hfirst, hnone⟩ := (h.configured.final init).release hlast
  have hout : Mealy.emitted onResponse b (init ++ [last]) = [first] := by
    rw [Mealy.emitted_append, hquiet, Mealy.emitted_cons, hfirst]
    rfl
  have hpending : (Mealy.final onResponse b (init ++ [last])).manager.msgStatus = [] := by
    rw [Mealy.final_append]
    exact hnone
  rw [List.append_cons, Mealy.emitted_append, hout, List.singleton_append, List.cons.injEq] at hone
  obtain ⟨rfl, hnever⟩ := hone
  have hcovered := h.configured.conserve h.registered (init ++ [last])
  rw [hout, hpending, List.append_nil, List.flatten_singleton] at hcovered
  have hlater := (h.configured.final (init ++ [last])).conserve
    (h.configured.registered_final h.registered (init ++ [last])) later
  rw [hnever, hpending, List.flatten_nil, List.nil_append, List.nil_append, ← Mealy.final_append]
    at hlater
  refine ⟨init ++ [last], later, List.append_cons .., ⟨init, last, rfl, ?_, ?_⟩, hcovered, ?_⟩
  · exact (h.quiet_iff init).mp hquiet
  · refine not_not.mp fun hmissing => ?_
    have hnot := (h.quiet_iff (init ++ [last])).mpr hmissing
    rw [hout] at hnot
    exact absurd hnot (List.cons_ne_nil _ _)
  · rw [List.append_cons]
    exact hlater

/-- After a publication, a complete cycle publishes exactly once when the
motors heard in it complete the flags once; the message has the statuses up to
the visit that completes them, and the next one will have the others. -/
theorem one_publication_iff (garbage : MotorReport) (specs : List MotorSpec) (history : List Visit)
    (c : Cycle specs.length)
    (hp : Mealy.emitted MotorBus.onResponse (.create garbage specs) history ≠ []) :
    let bus := Mealy.final MotorBus.onResponse (.create garbage specs) history
    ((Mealy.emitted MotorBus.onResponse bus c.visits).length = 1 ↔
      CompletesOnce (names specs) bus.manager.statusReady.raised (heardNames specs c.visits)) ∧
    ∀ msg, Mealy.emitted MotorBus.onResponse bus c.visits = [msg] →
      ∃ covered later, c.visits = covered ++ later ∧ bus.Completing specs covered ∧
        msg = bus.manager.msgStatus ++ statuses specs covered ∧
        (Mealy.final MotorBus.onResponse bus c.visits).manager.msgStatus = statuses specs later :=
  ⟨(MotorBus.publishing hp).once_iff c.visits, fun _ => (MotorBus.publishing hp).message⟩

theorem one_publication_iff_two_motors :
    let bus := Mealy.final MotorBus.onResponse (.create ⟨0, 0, 0, 0⟩ twoMotors)
      [(0, statusFrame 1 0), (1, statusFrame 2 0), (0, .zero)]
    let c : Cycle twoMotors.length := #v[statusFrame 9 0, statusFrame 2 0]
    (Mealy.emitted MotorBus.onResponse bus c.visits).length = 1 ↔
      CompletesOnce (names twoMotors) bus.manager.statusReady.raised (heardNames twoMotors c.visits) :=
  (one_publication_iff ⟨0, 0, 0, 0⟩ twoMotors _ _ (by decide +kernel)).1

/-- With distinct names and no foreign frame, every cycle publishes once. -/
theorem one_publication_of_heard {garbage : MotorReport} {history : List Visit}
    {c : Cycle specs.length}
    (hp : Mealy.emitted MotorBus.onResponse (.create garbage specs) history ≠ [])
    (hn : (names specs).Nodup) (hh : ∀ v ∈ c.visits, Heard specs v) :
    (Mealy.emitted MotorBus.onResponse
      (Mealy.final MotorBus.onResponse (.create garbage specs) history) c.visits).length = 1 := by
  have hpub := MotorBus.publishing hp
  refine (hpub.once_iff c.visits).mpr (completesOnce_of_nodup hn hpub.gap ?_ ?_)
  · calc (heardNames specs c.visits).length ≤ (c.visits.filter fun v => Heard specs v).length :=
          List.length_filterMap_le _ _
      _ ≤ c.visits.length := List.length_filter_le _ _
      _ = (names specs).length := by simp
  · intro name hname
    obtain ⟨s, hs, rfl⟩ := List.mem_map.mp (List.mem_toFinset.mp hname)
    obtain ⟨i, hi, rfl⟩ := List.getElem_of_mem hs
    have hlt : i < c.visits.length := by simpa using hi
    have hidx := Cycle.visits_index (List.getElem?_eq_getElem hlt)
    have hmem := List.getElem_mem hlt
    refine Finset.mem_union_right _ (List.mem_toFinset.mpr (List.mem_filterMap.mpr
      ⟨c.visits[i], List.mem_filter.mpr ⟨hmem, by simpa using hh _ hmem⟩, ?_⟩))
    simp [hidx, hi]

/-- After the first publication, a foreign frame for the first motor keeps its
flag down: the cycle publishes nothing. -/
theorem not_one_publication :
    ¬ ∀ (garbage : MotorReport) (specs : List MotorSpec) (history : List Visit)
      (c : Cycle specs.length), (names specs).Nodup →
      Mealy.emitted MotorBus.onResponse (.create garbage specs) history ≠ [] →
      (Mealy.emitted MotorBus.onResponse
        (Mealy.final MotorBus.onResponse (.create garbage specs) history) c.visits).length = 1 := by
  intro h
  have hone := h ⟨0, 0, 0, 0⟩ twoMotors [(0, statusFrame 1 0), (1, statusFrame 2 0)]
    #v[statusFrame 9 0, statusFrame 2 0] (by decide) (by decide +kernel)
  revert hone
  decide +kernel

end TienKung
