import TienKung.Lib.Checked
import TienKung.Lib.Periods
import TienKung.Soem.Master

/-!
# `SoemMaster::Run`

The loop counts cycles and dropped packets, resets both counts after
`K_ETHERCAT_ERR_PERIOD` cycles and calls `degraded_handler` while the dropped
packets of the period exceed `K_ETHERCAT_ERR_MAX`. The counts depend on the
working counters alone, whatever the devices do.
-/

namespace TienKung

abbrev kEthercatErrPeriod : Int := 100
abbrev kEthercatErrMax : Int := 20

-- ---------------------------------------------------------------------------
-- Counting
-- ---------------------------------------------------------------------------

structure WkcCounts where
  wkcErrCount : Int
  wkcErrIterationCount : Int
  deriving DecidableEq

def WkcCounts.zero : WkcCounts := ⟨0, 0⟩

/-- One pass of the loop: whether it reset the counts and called
`degraded_handler`, and the working counter it received. -/
structure Pass where
  reset : Bool
  degraded : Bool
  wkc : Int
  deriving DecidableEq

def WkcCounts.periodOver (c : WkcCounts) : Bool := kEthercatErrPeriod < c.wkcErrIterationCount

/-- The tests at the top of the loop body. -/
def WkcCounts.top (c : WkcCounts) : WkcCounts := if c.periodOver then .zero else c

def WkcCounts.degraded (c : WkcCounts) : Bool := kEthercatErrMax < c.wkcErrCount

/-- The check for a dropped packet at the end of the loop body. -/
def WkcCounts.bottom (expectedWKC wkc : Int) (c : WkcCounts) : WkcCounts where
  wkcErrCount := if wkc < expectedWKC then c.wkcErrCount + 1 else c.wkcErrCount
  wkcErrIterationCount := c.wkcErrIterationCount + 1

def countPass (expectedWKC : Int) : Mealy.Step WkcCounts Int Pass := fun c wkc =>
  (c.top.bottom expectedWKC wkc, [⟨c.periodOver, c.top.degraded, wkc⟩])

/-- The passes of a run, given the working counters it receives. -/
def passes (expectedWKC : Int) (wkcs : List Int) : List Pass :=
  Mealy.emitted (countPass expectedWKC) .zero wkcs

-- ---------------------------------------------------------------------------
-- Periods
-- ---------------------------------------------------------------------------

def errors (expectedWKC : Int) (ps : List Pass) : Nat := ps.countP fun p => p.wkc < expectedWKC

@[simp] theorem errors_append :
    errors expectedWKC (ps ++ qs) = errors expectedWKC ps + errors expectedWKC qs :=
  List.countP_append

theorem errors_singleton :
    errors expectedWKC [p] = if p.wkc < expectedWKC then 1 else 0 := by
  simp [errors, List.countP_singleton]

def completedPeriods (expectedWKC : Int) (wkcs : List Int) : List (List Pass) :=
  Periods.completed Pass.reset [] (passes expectedWKC wkcs)

/-- The counts say how far the open period is; each pass tested the errors of
the passes before it. -/
structure OpenPeriod (expectedWKC : Int) (c : WkcCounts) (ps : List Pass) : Prop where
  iterations : c.wkcErrIterationCount = ps.length
  within : c.wkcErrIterationCount ≤ kEthercatErrPeriod + 1
  counted : c.wkcErrCount = errors expectedWKC ps
  tested : (∃ p ∈ ps, p.degraded) ↔ kEthercatErrMax < errors expectedWKC ps.dropLast

structure ClosedPeriod (expectedWKC : Int) (ps : List Pass) : Prop where
  length : (ps.length : Int) = kEthercatErrPeriod + 1
  tested : (∃ p ∈ ps, p.degraded) ↔ kEthercatErrMax < errors expectedWKC ps.dropLast

theorem openPeriod_nil (expectedWKC : Int) : OpenPeriod expectedWKC .zero [] where
  iterations := rfl
  within := by decide
  counted := rfl
  tested := by simp [errors]

section
variable {c : WkcCounts}

theorem bottom_counted (h : c.wkcErrCount = errors expectedWKC ps) (hw : p.wkc = wkc) :
    (c.bottom expectedWKC wkc).wkcErrCount = errors expectedWKC (ps ++ [p]) := by
  subst hw
  rw [errors_append, errors_singleton, WkcCounts.bottom, h]
  split <;> simp

/-- The first pass of a period tests counts of zero. -/
theorem openPeriod_reset (expectedWKC wkc : Int) :
    OpenPeriod expectedWKC (WkcCounts.zero.bottom expectedWKC wkc)
      [⟨true, WkcCounts.zero.degraded, wkc⟩] := by
  refine ⟨rfl, show (0 : Int) + 1 ≤ kEthercatErrPeriod + 1 by decide, ?_, ?_⟩
  · exact bottom_counted (openPeriod_nil expectedWKC).counted rfl
  · simp [WkcCounts.degraded, WkcCounts.zero, errors, kEthercatErrMax]

theorem errors_dropLast_le : errors expectedWKC ps.dropLast ≤ errors expectedWKC ps :=
  (List.dropLast_sublist ps).countP_le

theorem openPeriod_snoc (h : OpenPeriod expectedWKC c ps) (hc : c.periodOver = false) :
    OpenPeriod expectedWKC (c.bottom expectedWKC wkc) (ps ++ [⟨false, c.degraded, wkc⟩]) := by
  have hle : c.wkcErrIterationCount ≤ kEthercatErrPeriod := by simpa [WkcCounts.periodOver] using hc
  refine ⟨by simp [WkcCounts.bottom, h.iterations], by simpa [WkcCounts.bottom] using hle,
    bottom_counted h.counted rfl, ?_⟩
  rw [List.dropLast_concat, ← h.counted]
  have hmono : (errors expectedWKC ps.dropLast : Int) ≤ c.wkcErrCount := by
    rw [h.counted]
    exact_mod_cast errors_dropLast_le
  have hlast : c.degraded = true ↔ kEthercatErrMax < c.wkcErrCount := by simp [WkcCounts.degraded]
  constructor
  · rintro ⟨p, hp, hd⟩
    rcases List.mem_append.mp hp with hp | hp
    · exact Int.lt_of_lt_of_le (h.tested.mp ⟨p, hp, hd⟩) hmono
    · obtain rfl := List.mem_singleton.mp hp
      exact hlast.mp hd
  · intro hlt
    exact ⟨_, List.mem_append_right _ (List.mem_singleton.mpr rfl), hlast.mpr hlt⟩

theorem closedPeriod_of_over (h : OpenPeriod expectedWKC c ps) (hc : c.periodOver = true) :
    ClosedPeriod expectedWKC ps := by
  have hlt : kEthercatErrPeriod < c.wkcErrIterationCount := by simpa [WkcCounts.periodOver] using hc
  refine ⟨?_, h.tested⟩
  rw [← h.iterations]
  exact Int.le_antisymm h.within hlt

theorem countPass_step (expectedWKC : Int) (c : WkcCounts) (wkc : Int) (ps : List Pass)
    (h : OpenPeriod expectedWKC c ps) :
    ∃ pass, (countPass expectedWKC c wkc).2 = [pass] ∧
      (pass.reset = true → ClosedPeriod expectedWKC ps ∧
        OpenPeriod expectedWKC (countPass expectedWKC c wkc).1 [pass]) ∧
      (pass.reset = false →
        OpenPeriod expectedWKC (countPass expectedWKC c wkc).1 (ps ++ [pass])) := by
  refine ⟨_, rfl, fun hc => ⟨closedPeriod_of_over h hc, ?_⟩, fun hc => ?_⟩
  · have htop : c.top = .zero := if_pos hc
    simpa only [countPass, htop, show c.periodOver = true from hc] using
      openPeriod_reset expectedWKC wkc
  · have htop : c.top = c := if_neg (Bool.not_eq_true _ ▸ hc)
    simpa only [countPass, htop, show c.periodOver = false from hc] using openPeriod_snoc h hc

theorem closedPeriod_of_completed (hp : p ∈ completedPeriods expectedWKC wkcs) :
    ClosedPeriod expectedWKC p :=
  Periods.completed_of_step (countPass_step expectedWKC) (openPeriod_nil expectedWKC) p hp

end

/-- The errors of a whole period, and those tested while it lasted, differ in
its last pass. -/
theorem errors_last (h : ClosedPeriod expectedWKC p) :
    errors expectedWKC p.dropLast = errors expectedWKC (p.take kEthercatErrPeriod.toNat) ∧
      errors expectedWKC p = errors expectedWKC (p.take kEthercatErrPeriod.toNat) +
        errors expectedWKC (p.drop kEthercatErrPeriod.toNat) := by
  have hlen : p.length - 1 = kEthercatErrPeriod.toNat := by have := h.length; omega
  refine ⟨by rw [List.dropLast_eq_take, hlen], ?_⟩
  rw [← errors_append, List.take_append_drop]

theorem errors_drop_le (h : ClosedPeriod expectedWKC p) :
    errors expectedWKC (p.drop kEthercatErrPeriod.toNat) ≤ 1 := by
  refine List.countP_le_length.trans ?_
  have := h.length
  rw [List.length_drop]
  omega

/-- A completed period goes wrong exactly when its errors pass the maximum with
the last cycle. -/
theorem degraded_iff_unless_last (expectedWKC : Int) (wkcs : List Int) (p : List Pass)
    (hp : p ∈ completedPeriods expectedWKC wkcs) :
    ((∃ c ∈ p, c.degraded) ↔ kEthercatErrMax < errors expectedWKC p) ↔
      ¬ ((errors expectedWKC (p.take kEthercatErrPeriod.toNat) : Int) = kEthercatErrMax ∧
        errors expectedWKC (p.drop kEthercatErrPeriod.toNat) = 1) := by
  have h := closedPeriod_of_completed hp
  obtain ⟨hfirst, hall⟩ := errors_last h
  have hlast := errors_drop_le h
  rw [h.tested, hfirst, hall]
  omega

/-- Eighty good cycles, then dropped packets only. -/
def lateErrors : List Int := .replicate 80 3 ++ .replicate 22 0

theorem lateErrors_period :
    ¬ ((∃ c ∈ (passes 3 lateErrors).take 101, c.degraded) ↔
      kEthercatErrMax < errors 3 ((passes 3 lateErrors).take 101)) := by
  rw [degraded_iff_unless_last 3 lateErrors _ (by decide +kernel)]
  decide +kernel

theorem lateErrors_not_degraded :
    ¬ ∀ (expectedWKC : Int) (wkcs : List Int), ∀ p ∈ completedPeriods expectedWKC wkcs,
      ((∃ c ∈ p, c.degraded) ↔ kEthercatErrMax < errors expectedWKC p) := by
  intro h
  have hp := h 3 lateErrors
  revert hp
  decide +kernel

-- ---------------------------------------------------------------------------
-- The loop
-- ---------------------------------------------------------------------------

/-- What `ec_receive_processdata` brings back. -/
inductive Received
  | frame (wkc : Int) (inputs : Nat → SlaveMessage)
  | noFrame

def ecNoFrame : Int := -1

def Received.wkc : Received → Int
  | .frame wkc _ => wkc
  | .noFrame => ecNoFrame

/-- The slaves' input image after the call. -/
def Received.image (old : Nat → SlaveMessage) : Received → Nat → SlaveMessage
  | .frame _ inputs => inputs
  | .noFrame => old

structure Loop (σ : Type) where
  counts : WkcCounts
  bus : Bus σ
  inputs : Nat → SlaveMessage

variable {σ : Type}

def loopBody (code : DeviceCode σ) (ecSlavecount : Nat) (expectedWKC : Int) (l : Loop σ)
    (received : Received) : Except OutOfBounds (Loop σ × Pass) := do
  let counts := l.counts.top
  let inputs := received.image l.inputs
  let bus ← runCycle code ecSlavecount inputs l.bus
  return (⟨counts.bottom expectedWKC received.wkc, bus, inputs⟩,
    ⟨l.counts.periodOver, counts.degraded, received.wkc⟩)

def loop (code : DeviceCode σ) (ecSlavecount : Nat) (expectedWKC : Int) (l : Loop σ) :
    List Received → Except OutOfBounds (Loop σ × List Pass)
  | [] => return (l, [])
  | received :: rest => do
    let (l, pass) ← loopBody code ecSlavecount expectedWKC l received
    let (l, ps) ← loop code ecSlavecount expectedWKC l rest
    return (l, pass :: ps)

/-- Whatever the devices do, the passes of the loop are those counted from the
working counters. -/
theorem loop_counts (h : loop code ecSlavecount expectedWKC l rs = .ok (l', ps)) :
    ps = Mealy.emitted (countPass expectedWKC) l.counts (rs.map Received.wkc) ∧
      l'.counts = Mealy.final (countPass expectedWKC) l.counts (rs.map Received.wkc) := by
  induction rs generalizing l ps with
  | nil =>
    cases h
    exact ⟨rfl, rfl⟩
  | cons received rs ih =>
    obtain ⟨⟨l1, pass⟩, hbody, hrest⟩ := Checked.bind_eq_ok.mp h
    obtain ⟨⟨l2, qs⟩, hloop, hres⟩ := Checked.bind_eq_ok.mp hrest
    obtain ⟨bus, -, hbus⟩ := Checked.bind_eq_ok.mp hbody
    cases hbus
    cases hres
    obtain ⟨rfl, hfinal⟩ := ih hloop
    exact ⟨rfl, hfinal⟩

end TienKung
