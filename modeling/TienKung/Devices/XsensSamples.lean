import TienKung.Devices.XsensImu
import Mathlib.Data.Fintype.Basic
import Mathlib.Tactic.FinCases

/-!
# Samples and bus cycles

A sample of an Xsens sensor holds packets of one bus cycle as long as no cycle
is completed early: by flags that an earlier cycle left up, before its own last
packet has come. The flags that stay up are those of the packets after a missed
first one.
-/

namespace TienKung

open XsensImu

variable {mode : XsensMode} {quatToRPY2 : Vector ℚ 4 → Vector ℚ 3} {d start : XsensImu}
  {resp : Vector DeviceMessage 4}

-- ---------------------------------------------------------------------------
-- Packets of a cycle
-- ---------------------------------------------------------------------------

def Agrees (data : ImuData) (resp : Vector DeviceMessage 4) : Fin 4 → Prop
  | 0 => data.orientation = orientationOf (resp.get 0)
  | 1 => data.angularVel = angularVelOf (resp.get 1)
  | 2 => data.linearAccel = linearAccelOf (resp.get 2)
  | 3 => data.rpy = rpyOf (resp.get 3)

theorem agrees_store_self (data : ImuData) (i : Fin 4) :
    Agrees (data.store (resp.get i) i) resp i := by
  fin_cases i <;> rfl

theorem Agrees.store {data : ImuData} {i j : Fin 4} (h : Agrees data resp i) (hij : i ≠ j)
    (msg : DeviceMessage) : Agrees (data.store msg j) resp i := by
  fin_cases i <;> fin_cases j <;> first | exact h | exact absurd rfl hij

def anglesOf (mode : XsensMode) (quatToRPY2 : Vector ℚ 4 → Vector ℚ 3)
    (resp : Vector DeviceMessage 4) :
    Vector ℚ 3 :=
  match mode with
  | .mode1 => quatToRPY2 (orientationOf (resp.get 0))
  | .mode2 => rpyOf (resp.get 3)

structure Composed (mode : XsensMode) (quatToRPY2 : Vector ℚ 4 → Vector ℚ 3) (s : ImuData)
    (resp : Vector DeviceMessage 4) : Prop where
  received : ∀ i : Fin 4, i < mode.packets → (resp.get i).id ≠ 0
  orientation : s.orientation = orientationOf (resp.get 0)
  angularVel : s.angularVel = angularVelOf (resp.get 1)
  linearAccel : s.linearAccel = linearAccelOf (resp.get 2)
  rpy : s.rpy = anglesOf mode quatToRPY2 resp

instance (mode : XsensMode) (s : ImuData) (resp : Vector DeviceMessage 4) :
    Decidable (Composed mode quatToRPY2 s resp) :=
  decidable_of_iff ((∀ i : Fin 4, i < mode.packets → (resp.get i).id ≠ 0) ∧
      s.orientation = orientationOf (resp.get 0) ∧ s.angularVel = angularVelOf (resp.get 1) ∧
      s.linearAccel = linearAccelOf (resp.get 2) ∧ s.rpy = anglesOf mode quatToRPY2 resp)
    ⟨fun ⟨h, ho, ha, hl, hr⟩ => ⟨h, ho, ha, hl, hr⟩, fun ⟨h, ho, ha, hl, hr⟩ => ⟨h, ho, ha, hl, hr⟩⟩

/-- The first packets of the cycle come, but not the last, and flags left over
from before stand in for the others. -/
def CompletedEarly (mode : XsensMode) (d : XsensImu) (resp : Vector DeviceMessage 4) : Prop :=
  ∃ j : Fin 4, j + 1 < mode.packets ∧ (∀ i ≤ j, (resp.get i).id ≠ 0) ∧
    ∀ i > j, i < mode.packets → d.readyMsg.get i = true

instance (mode : XsensMode) (d : XsensImu) (resp : Vector DeviceMessage 4) :
    Decidable (CompletedEarly mode d resp) := by unfold CompletedEarly; infer_instance

theorem sample_composed
    (h : ∀ i : Fin 4, i < mode.packets → (resp.get i).id ≠ 0 ∧ Agrees d.data resp i) :
    Composed mode quatToRPY2 (d.sample mode quatToRPY2) resp := by
  cases mode with
  | mode1 =>
    have h0 := (h 0 (by decide)).2
    exact ⟨fun i hi => (h i hi).1, h0, (h 1 (by decide)).2, (h 2 (by decide)).2,
      congrArg quatToRPY2 h0⟩
  | mode2 =>
    exact ⟨fun i hi => (h i hi).1, (h 0 (by decide)).2, (h 1 (by decide)).2, (h 2 (by decide)).2,
      (h 3 (by decide)).2⟩

theorem one_lt_packets (mode : XsensMode) : 1 < mode.packets := by cases mode <;> decide

theorem packet?_passage (hn : ∀ i j : Fin 4, d.passages.get i = d.passages.get j → i = j) (i : Fin 4) :
    d.packet? mode (d.passages.get i) = if i < mode.packets then some i else none := by
  cases hf : d.packet? mode (d.passages.get i) with
  | none =>
    have := List.find?_eq_none.mp hf i (by fin_cases i <;> simp)
    simp only [decide_eq_true_eq, and_true] at this
    simp [this]
  | some j =>
    have := List.find?_some
      (p := fun j : Fin 4 => decide (j < mode.packets ∧ d.passages.get i = d.passages.get j)) hf
    simp only [decide_eq_true_eq] at this
    rw [hn i j this.2, if_pos this.1]

-- ---------------------------------------------------------------------------
-- Within a cycle
-- ---------------------------------------------------------------------------

/-- After the first `j` responses of a cycle that began in `start`: the later
flags are left over, and while the first flag is up the earlier packets are all
of this cycle. -/
structure Assembling (mode : XsensMode) (start : XsensImu) (resp : Vector DeviceMessage 4) (j : Nat)
    (d : XsensImu) : Prop where
  passages : d.passages = start.passages
  count : d.count = start.count
  left : ∀ i : Fin 4, j ≤ i → d.readyMsg.get i = true → start.readyMsg.get i = true
  own : d.readyMsg.get 0 = true → 0 < j ∧ ∀ i : Fin 4, i < j → i < mode.packets →
    (resp.get i).id ≠ 0 ∧ d.readyMsg.get i = true ∧ Agrees d.data resp i

theorem not_complete_of_down (h : d.readyMsg.get 0 = false) : ¬ d.Complete mode := by
  intro hc
  have := hc 0 (Nat.zero_lt_of_lt (one_lt_packets mode))
  simp [h] at this

theorem Assembling.begin (h : d.readyMsg.get 0 = false) : Assembling mode d resp 0 d :=
  ⟨rfl, rfl, fun _ _ hr => hr, fun hr => by simp [h] at hr⟩

theorem Assembling.of_down {j : Nat} (h : Assembling mode start resp j d) {d' : XsensImu}
    (hp : d'.passages = d.passages) (hc : d'.count = d.count) (h0 : d'.readyMsg.get 0 = false)
    (hl : ∀ i : Fin 4, d'.readyMsg.get i = true → d.readyMsg.get i = true) :
    Assembling mode start resp (j + 1) d' :=
  ⟨hp.trans h.passages, hc.trans h.count, fun i hi hr => h.left i (by omega) (hl i hr),
    fun hr => by simp [h0] at hr⟩

theorem Assembling.down (h : Assembling mode start resp 4 d) (hc : ¬ d.Complete mode) :
    d.readyMsg.get 0 = false := by
  cases hr : d.readyMsg.get 0 with
  | false => rfl
  | true => exact absurd (fun i hi => ((h.own hr).2 i i.isLt hi).2.1) hc

theorem Assembling.miss {j : Fin 4} (h : Assembling mode start resp j d) :
    Assembling mode start resp (j + 1) (if j = 0 then d else d.abandon mode) ∧
      (if j = 0 then d else d.abandon mode).readyMsg.get 0 = false := by
  by_cases hj : j = 0
  · subst hj
    have h0 : d.readyMsg.get 0 = false := by
      cases hr : d.readyMsg.get 0 with
      | false => rfl
      | true => exact absurd (h.own hr).1 (by simp)
    rw [if_pos rfl]
    exact ⟨h.of_down rfl rfl h0 fun _ hr => hr, h0⟩
  · have h0 : (d.abandon mode).readyMsg.get 0 = false := by simp [abandon, one_lt_packets]
    rw [if_neg hj]
    refine ⟨h.of_down rfl rfl h0 fun i hr => ?_, h0⟩
    simp only [abandon, Cells.get_ofFn] at hr
    split at hr
    · cases hr
    · exact hr

theorem Assembling.receive {j : Fin 4} (h : Assembling mode start resp j d) (hd : (resp.get j).id ≠ 0)
    (hn : ∀ i j : Fin 4, d.passages.get i = d.passages.get j → i = j) :
    Assembling mode start resp (j + 1) (d.receive mode (d.passages.get j) (resp.get j)) := by
  rw [XsensImu.receive, packet?_passage hn]
  by_cases hj : j < mode.packets
  · simp only [hj, if_true]
    have hother : ∀ i : Fin 4, i ≠ j → (Cells.put d.readyMsg j true).get i = d.readyMsg.get i :=
      fun i hij => Cells.get_put_ne hij.symm _ _
    refine ⟨h.passages, h.count, fun i hi hr => h.left i (by omega) ?_, fun hr => ⟨by omega, ?_⟩⟩
    · rwa [hother i (by rintro rfl; omega)] at hr
    intro i hi hik
    by_cases hij : i = j
    · subst hij
      exact ⟨hd, by simp, agrees_store_self _ _⟩
    · have h0 : (0 : Fin 4) ≠ j := by rintro rfl; omega
      have hr0 : d.readyMsg.get 0 = true := (hother 0 h0).symm.trans hr
      obtain ⟨hid, hri, hag⟩ := (h.own hr0).2 i (by omega) hik
      exact ⟨hid, (hother i hij).trans hri, hag.store hij _⟩
  · simp only [hj, if_false]
    refine ⟨h.passages, h.count, fun i hi hr => h.left i (by omega) hr, fun hr => ?_⟩
    exact ⟨by omega, fun i hi hik => (h.own hr).2 i (by omega) hik⟩

theorem Assembling.publish {j : Fin 4} (h : Assembling mode start resp (j + 1) d)
    (hearly : ¬ CompletedEarly mode start resp) :
    Assembling mode start resp (j + 1) (d.publish mode quatToRPY2).1 ∧
      ¬ (d.publish mode quatToRPY2).1.Complete mode ∧
      ∀ s ∈ (d.publish mode quatToRPY2).2, Composed mode quatToRPY2 s resp := by
  by_cases hc : d.Complete mode
  · have h0 : d.readyMsg.get 0 = true := hc 0 (Nat.zero_lt_of_lt (one_lt_packets mode))
    have hlast : mode.packets ≤ j + 1 := by
      by_contra hlt
      refine hearly ⟨j, by omega, fun i hi => ?_, fun i hi hik => h.left i (by omega) (hc i hik)⟩
      exact ((h.own h0).2 i (by omega) (by omega)).1
    have hcomp : Composed mode quatToRPY2 (d.sample mode quatToRPY2) resp :=
      sample_composed fun i hi =>
        ⟨((h.own h0).2 i (by omega) hi).1, ((h.own h0).2 i (by omega) hi).2.2⟩
    simp only [XsensImu.publish, hc, if_true]
    refine ⟨⟨h.passages, h.count, fun i _ hr => ?_, fun hr => ?_⟩, not_complete_of_down ?_, ?_⟩
    · simp at hr
    · simp at hr
    · simp
    · intro s hs
      rwa [List.mem_singleton.mp hs]
  · have hhold : d.publish mode quatToRPY2 = (d, []) := if_neg hc
    rw [hhold]
    exact ⟨h, hc, fun s hs => by cases hs⟩

theorem Assembling.response (j : Fin 4) (quatToRPY2 : Vector ℚ 4 → Vector ℚ 3)
    (h : Assembling mode start resp j d) (hcount : initTimes ≤ start.count)
    (hn : ∀ i j : Fin 4, start.passages.get i = start.passages.get j → i = j)
    (hearly : ¬ CompletedEarly mode start resp) :
    let r := onResponse mode quatToRPY2 d (start.passages.get j, resp.get j)
    Assembling mode start resp (j + 1) r.1 ∧ ¬ r.1.Complete mode ∧
      ∀ s ∈ r.2, Composed mode quatToRPY2 s resp := by
  intro r
  by_cases hid : (resp.get j).id = 0
  · have hfirst : start.passages.get j = d.passages.get 0 ↔ j = 0 := by
      rw [h.passages]
      exact ⟨fun he => hn j 0 he, fun he => by rw [he]⟩
    have hr : r = (if j = 0 then d else d.abandon mode, []) := by
      by_cases hj : j = 0
      · have he : start.passages.get j = d.passages.get 0 := hfirst.mpr hj
        simp only [r, onResponse, hid, ne_eq, he, not_true, if_true, if_false]
        rw [if_pos hj]
      · have hne : ¬ start.passages.get j = d.passages.get 0 := fun he => hj (hfirst.mp he)
        simp only [r, onResponse, hid, ne_eq, hne, hj, not_false_eq_true, if_true, if_false]
    obtain ⟨hmiss, h0⟩ := h.miss
    rw [hr]
    exact ⟨hmiss, not_complete_of_down h0, fun s hs => by cases hs⟩
  · have hr : r = (d.receive mode (d.passages.get j) (resp.get j)).publish mode quatToRPY2 := by
      simp only [r, onResponse, hid, if_false, h.count, hcount, if_true, h.passages]
    rw [hr]
    exact (h.receive hid (by rw [h.passages]; exact hn)).publish hearly

-- ---------------------------------------------------------------------------
-- Cycles and runs
-- ---------------------------------------------------------------------------

/-- Between cycles the first flag is down. -/
structure Resting (passages : Vector Int 4) (d : XsensImu) : Prop where
  passages : d.passages = passages
  down : d.readyMsg.get 0 = false

theorem requests_same (mode : XsensMode) (d : XsensImu) :
    (d.requests mode).passages = d.passages ∧ (d.requests mode).readyMsg = d.readyMsg := by
  have hreq : ∀ (d : XsensImu) (i : Fin 4),
      (d.onRequest mode (d.passages.get i) .zero).1.passages = d.passages ∧
        (d.onRequest mode (d.passages.get i) .zero).1.readyMsg = d.readyMsg := by
    intro d i
    unfold onRequest
    split <;> exact ⟨rfl, rfl⟩
  have hfold : ∀ (l : List (Fin 4)) (d' : XsensImu),
      d'.passages = d.passages ∧ d'.readyMsg = d.readyMsg →
      let e := l.foldl (fun d (i : Fin 4) => (d.onRequest mode (d.passages.get i) .zero).1) d'
      e.passages = d.passages ∧ e.readyMsg = d.readyMsg := by
    intro l
    induction l with
    | nil => exact fun _ h => h
    | cons i l ih =>
      intro d' h
      exact ih _ ⟨(hreq d' i).1.trans h.1, (hreq d' i).2.trans h.2⟩
  exact hfold [0, 1, 2, 3] d ⟨rfl, rfl⟩

structure Activating (passages : Vector Int 4) (d : XsensImu) : Prop extends Resting passages d where
  count : ¬ initTimes ≤ d.count

theorem Activating.onResponse {passages : Vector Int 4} (h : Activating passages d)
    (v : Int × DeviceMessage) :
    Activating passages (onResponse mode quatToRPY2 d v).1 ∧ (onResponse mode quatToRPY2 d v).2 = [] := by
  by_cases hid : v.2.id = 0
  · by_cases hp : v.1 = d.passages.get 0
    · have ho : XsensImu.onResponse mode quatToRPY2 d v = (d, []) := by
        simp only [XsensImu.onResponse, hid, hp, if_true, ne_eq, not_true, if_false]
      rw [ho]
      exact ⟨h, rfl⟩
    · have ho : XsensImu.onResponse mode quatToRPY2 d v = (d.abandon mode, []) := by
        simp only [XsensImu.onResponse, hid, hp, if_true, ne_eq, not_false_eq_true]
      have h0 : (d.abandon mode).readyMsg.get 0 = false := by simp [abandon, one_lt_packets]
      rw [ho]
      exact ⟨⟨⟨h.passages, h0⟩, h.count⟩, rfl⟩
  · have ho : XsensImu.onResponse mode quatToRPY2 d v = (d, []) := by
      simp only [XsensImu.onResponse, hid, h.count, if_false]
    rw [ho]
    exact ⟨h, rfl⟩

theorem Resting.cycle {passages : Vector Int 4} (hr : Resting passages d)
    (hn : ∀ i j : Fin 4, passages.get i = passages.get j → i = j) (hearly : ¬ CompletedEarly mode d resp) :
    Resting passages (XsensImu.cycle mode quatToRPY2 d resp).1 ∧
      ∀ s ∈ (XsensImu.cycle mode quatToRPY2 d resp).2, Composed mode quatToRPY2 s resp := by
  obtain ⟨hpass, hflags⟩ := requests_same mode d
  have hr' : Resting passages (d.requests mode) :=
    ⟨hpass.trans hr.passages, by rw [hflags]; exact hr.down⟩
  by_cases hcount : initTimes ≤ (d.requests mode).count
  · have hn' : ∀ i j : Fin 4,
        (d.requests mode).passages.get i = (d.requests mode).passages.get j → i = j := by
      rw [hr'.passages]; exact hn
    have hearly' : ¬ CompletedEarly mode (d.requests mode) resp := by
      unfold CompletedEarly; rw [hflags]; exact hearly
    have hb : Assembling mode (d.requests mode) resp 0 (d.requests mode) := .begin hr'.down
    obtain ⟨h1, -, s1⟩ := hb.response 0 quatToRPY2 hcount hn' hearly'
    obtain ⟨h2, -, s2⟩ := h1.response 1 quatToRPY2 hcount hn' hearly'
    obtain ⟨h3, -, s3⟩ := h2.response 2 quatToRPY2 hcount hn' hearly'
    obtain ⟨h4, hdone, s4⟩ := h3.response 3 quatToRPY2 hcount hn' hearly'
    simp only [XsensImu.cycle, visits, ← hpass, List.map_cons, List.map_nil, Mealy.final_cons,
      Mealy.final_nil, Mealy.emitted_cons, Mealy.emitted_nil, List.append_nil]
    refine ⟨⟨h4.passages.trans hr'.passages, h4.down hdone⟩, fun s hs => ?_⟩
    simp only [List.mem_append] at hs
    rcases hs with hs | hs | hs | hs
    · exact s1 s hs
    · exact s2 s hs
    · exact s3 s hs
    · exact s4 s hs
  · -- still activating: no response reaches the flags
    have hstart : Activating passages (d.requests mode) := ⟨hr', hcount⟩
    refine ⟨(Mealy.final_invariant hstart fun e v he => (he.onResponse v).1).toResting, ?_⟩
    refine Mealy.emitted_invariant hstart fun e v he => ⟨(he.onResponse v).1, fun s hs => ?_⟩
    rw [(he.onResponse v).2] at hs
    cases hs

def SamplesOfOneCycle (mode : XsensMode) (quatToRPY2 : Vector ℚ 4 → Vector ℚ 3) (d : XsensImu)
    (cycles : List (Vector DeviceMessage 4)) : Prop :=
  Mealy.Along (XsensImu.cycle mode quatToRPY2)
    (fun d resp => ∀ s ∈ (XsensImu.cycle mode quatToRPY2 d resp).2, Composed mode quatToRPY2 s resp) d cycles

instance (d : XsensImu) (cycles : List (Vector DeviceMessage 4)) :
    Decidable (SamplesOfOneCycle mode quatToRPY2 d cycles) := by
  unfold SamplesOfOneCycle; infer_instance

/-- In a run in which no cycle is completed early, from the constructor on,
every sample holds the packets of the cycle that handed it out. -/
theorem samples_of_one_cycle (mode : XsensMode) (quatToRPY2 : Vector ℚ 4 → Vector ℚ 3)
    (garbage : ImuData) (passages : Vector Int 4) (ids : Vector UInt16 4)
    (cycles : List (Vector DeviceMessage 4)) (hnodup : passages.toList.Nodup)
    (hearly : Mealy.Along (XsensImu.cycle mode quatToRPY2) (fun d resp => ¬ CompletedEarly mode d resp)
      (create garbage passages ids) cycles) :
    SamplesOfOneCycle mode quatToRPY2 (create garbage passages ids) cycles := by
  have hn : ∀ i j : Fin 4, passages.get i = passages.get j → i = j := by
    intro i j hij
    have hl : passages.toList[i.val] = passages.toList[j.val] := by
      simp only [Vector.getElem_toList]
      exact hij
    exact Fin.ext ((hnodup.getElem_inj_iff).mp hl)
  have hstart : Resting passages (create garbage passages ids) := ⟨rfl, rfl⟩
  exact hearly.imp hstart fun d resp hr hnot => hr.cycle hn hnot

/-- A frame whose first word is `byte * 256`; as an orientation it is no rotation. -/
def frame (byte : UInt8) : DeviceMessage :=
  { DeviceMessage.zero with id := 1, dlc := 8, data := #v[byte, 0, 0, 0, 0, 0, 0, 0] }

def levelAngles (_ : Vector ℚ 4) : Vector ℚ 3 := .replicate 3 0

def onPassages1234 : XsensImu :=
  create ⟨.replicate 4 0, .replicate 3 0, .replicate 3 0, .replicate 3 0⟩ #v[1, 2, 3, 4] #v[1, 2, 3, 4]

/-- The cycles without packets in which the requests of the activation are sent. -/
def activation : List (Vector DeviceMessage 4) := .replicate 25 (.replicate 4 .zero)

theorem samples_of_one_cycle_after_activation :
    let cycles := activation ++ [#v[.zero, frame 2, .zero, .zero], #v[frame 1, frame 2, frame 3, frame 4]]
    (Mealy.emitted (XsensImu.cycle .mode1 levelAngles) onPassages1234 cycles).length = 1 ∧
      SamplesOfOneCycle .mode1 levelAngles onPassages1234 cycles :=
  ⟨by decide +kernel,
    samples_of_one_cycle .mode1 levelAngles _ _ _ _ (by decide) (by decide +kernel)⟩

/-- The first packet of a cycle is missed and its flags stay up; in the next
cycle only the first packet comes, and completes the sample. -/
theorem not_samples_of_one_cycle :
    let cycles := activation ++ [#v[.zero, frame 2, frame 3, frame 4], #v[frame 1, .zero, .zero, .zero]]
    ¬ SamplesOfOneCycle .mode1 levelAngles onPassages1234 cycles ∧
      ¬ SamplesOfOneCycle .mode2 levelAngles onPassages1234 cycles :=
  ⟨by decide +kernel, by decide +kernel⟩

end TienKung
