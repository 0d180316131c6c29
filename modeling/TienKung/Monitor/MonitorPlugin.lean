import TienKung.Lib.Unordered
import Mathlib.Algebra.Order.Ring.Rat
import Mathlib.Order.WithBot

/-!
# The monitor's motor report

`OnMotorStatus` accumulates counts and maxima under the names in the message;
the report loop prints them under the configured names and resets. Three index
sets meet: the array of counts has sixty cells, the reset loop covers the keys
below the number of message types, and both are addressed by motor names. The
model starts at the first reset and holds what concerns the motors.
-/

namespace TienKung

/-- A `double` up to the sign of zero: NaN, an infinity or a number. -/
abbrev Reading := Option (WithBot (WithTop ℚ))

def Reading.ofRat (q : ℚ) : Reading := some ((q : WithTop ℚ) : WithBot (WithTop ℚ))

structure MotorSample where
  name : UInt16
  current : Reading
  temperature : Reading
  deriving DecidableEq

structure MonitorReport where
  name : Int
  motorLoss : Option ℚ
  countAnyMotor : Nat
  motorMaxTemperature : Reading
  motorMaxCurrent : Reading
  deriving DecidableEq

/-- `count` is its `TYPE_MOTOR_STATUS` entry; a key that a map does not have reads as zero. -/
structure MonitorPlugin where
  namesAvailable : List Int
  count : Nat
  countAnyMotor : Int → Nat
  motorMaxTemperature : Int → Reading
  motorMaxCurrent : Int → Reading

inductive MonitorEvent
  | motorStatus (msg : List MotorSample)
  | tick

namespace MonitorPlugin

/-- `MAX_NUM`, the number of message types. -/
def maxNum : Int := 12

def Counted (name : Int) : Prop := 0 ≤ name ∧ name < 60

instance (name : Int) : Decidable (Counted name) := by unfold Counted; infer_instance

def start (namesAvailable : List Int) : MonitorPlugin where
  namesAvailable := namesAvailable
  count := 0
  countAnyMotor _ := 0
  motorMaxTemperature _ := Reading.ofRat 0
  motorMaxCurrent _ := Reading.ofRat 0

-- ---------------------------------------------------------------------------
-- OnMotorStatus
-- ---------------------------------------------------------------------------

/-- One round of the loop; `none` where it writes outside `countAnyMotor`. -/
def addStatus (m : MonitorPlugin) (status : MotorSample) : Option MonitorPlugin :=
  let name : Int := status.name.toNat
  if Counted name then some { m with
    countAnyMotor := Function.update m.countAnyMotor name (m.countAnyMotor name + 1)
    motorMaxTemperature := Function.update m.motorMaxTemperature name
      (Unordered.max (m.motorMaxTemperature name) status.temperature)
    motorMaxCurrent := Function.update m.motorMaxCurrent name
      (Unordered.max (m.motorMaxCurrent name) status.current) }
  else none

def onMotorStatus (m : MonitorPlugin) (msg : List MotorSample) : Option MonitorPlugin :=
  msg.foldlM addStatus { m with count := m.count + 1 }

-- ---------------------------------------------------------------------------
-- The report loop
-- ---------------------------------------------------------------------------

def motorLoss (count countAnyMotor : Nat) : Option ℚ :=
  if count = 0 then none else some (((count : ℚ) - countAnyMotor) / count)

def report (m : MonitorPlugin) (name : Int) : MonitorReport where
  name := name
  motorLoss := motorLoss m.count (m.countAnyMotor name)
  countAnyMotor := m.countAnyMotor name
  motorMaxTemperature := m.motorMaxTemperature name
  motorMaxCurrent := m.motorMaxCurrent name

def reset (m : MonitorPlugin) : MonitorPlugin where
  namesAvailable := m.namesAvailable
  count := 0
  countAnyMotor name := if name ∈ m.namesAvailable then 0 else m.countAnyMotor name
  motorMaxTemperature i :=
    if 0 ≤ i ∧ i < maxNum then Reading.ofRat 0 else m.motorMaxTemperature i
  motorMaxCurrent i := if 0 ≤ i ∧ i < maxNum then Reading.ofRat 0 else m.motorMaxCurrent i

/-- One round of the report loop; `none` where it reads outside `countAnyMotor`. -/
def tick (m : MonitorPlugin) : Option (MonitorPlugin × List MonitorReport) :=
  if ∀ name ∈ m.namesAvailable, Counted name
  then some (m.reset, m.namesAvailable.map m.report)
  else none

def run (m : MonitorPlugin) : List MonitorEvent → Option (List (List MonitorReport))
  | [] => some []
  | .motorStatus msg :: rest => do run (← m.onMotorStatus msg) rest
  | .tick :: rest => do
    let (m, reports) ← m.tick
    return reports :: (← run m rest)

-- ---------------------------------------------------------------------------
-- What a report is about
-- ---------------------------------------------------------------------------

def Named (name : Int) (status : MotorSample) : Prop := (status.name.toNat : Int) = name

instance (name : Int) (status : MotorSample) : Decidable (Named name status) := by
  unfold Named; infer_instance

/-- The maximum from zero of what the statuses hold of a motor. -/
def peak (field : MotorSample → Reading) (name : Int) (statuses : List MotorSample) : Reading :=
  Unordered.maximum (Reading.ofRat 0) ((statuses.filter (Named name)).map field)

/-- A report computed from the messages of one period only. -/
def reportOf (period : List (List MotorSample)) (name : Int) : MonitorReport :=
  let samples := period.flatten.countP (Named name)
  ⟨name, motorLoss period.length samples, samples, peak MotorSample.temperature name period.flatten,
    peak MotorSample.current name period.flatten⟩

/-- The reports of a run in which every period starts from nothing. -/
def reportsOf (names : List Int) (period : List (List MotorSample)) :
    List MonitorEvent → List (List MonitorReport)
  | [] => []
  | .motorStatus msg :: rest => reportsOf names (period ++ [msg]) rest
  | .tick :: rest => names.map (reportOf period) :: reportsOf names [] rest

/-- Every name has a cell of `countAnyMotor`, and where a tick reports a motor that the
reset loop does not reach, no status of an `earlier` period exceeds the current maxima. -/
def Clean (names : List Int) (earlier : List MotorSample) (period : List (List MotorSample)) :
    List MonitorEvent → Prop
  | [] => True
  | .motorStatus msg :: rest =>
    (∀ status ∈ msg, Counted status.name.toNat) ∧ Clean names earlier (period ++ [msg]) rest
  | .tick :: rest =>
    (∀ name ∈ names, Counted name ∧ (maxNum ≤ name → ∀ status ∈ earlier, Named name status →
      ¬ Unordered.Lt (peak MotorSample.temperature name period.flatten) status.temperature ∧
      ¬ Unordered.Lt (peak MotorSample.current name period.flatten) status.current)) ∧
    Clean names (earlier ++ period.flatten) [] rest

-- ---------------------------------------------------------------------------
-- What the accumulators hold
-- ---------------------------------------------------------------------------

/-- The statuses since the last reset that reached a key. -/
def scope (name : Int) (earlier statuses : List MotorSample) : List MotorSample :=
  if 0 ≤ name ∧ name < maxNum then statuses else earlier ++ statuses

structure Holds (m : MonitorPlugin) (earlier : List MotorSample) (messages : Nat)
    (statuses : List MotorSample) : Prop where
  count : m.count = messages
  countAnyMotor : ∀ name ∈ m.namesAvailable,
    m.countAnyMotor name = statuses.countP (Named name)
  temperature : ∀ name, m.motorMaxTemperature name =
    peak MotorSample.temperature name (scope name earlier statuses)
  current : ∀ name, m.motorMaxCurrent name =
    peak MotorSample.current name (scope name earlier statuses)

section
variable {m : MonitorPlugin} {earlier statuses : List MotorSample} {messages : Nat}
  {status : MotorSample}

theorem peak_append (field : MotorSample → Reading) (name : Int) :
    peak field name (statuses ++ [status]) =
      if Named name status then Unordered.max (peak field name statuses) (field status)
      else peak field name statuses := by
  by_cases h : Named name status <;> simp [peak, h, Unordered.maximum_append]

theorem scope_append (name : Int) :
    scope name earlier (statuses ++ [status]) = scope name earlier statuses ++ [status] := by
  unfold scope
  split <;> simp

theorem update_peak (f : Int → Reading) (field : MotorSample → Reading)
    (h : ∀ name, f name = peak field name (scope name earlier statuses)) (name : Int) :
    Function.update f status.name.toNat
        (Unordered.max (f status.name.toNat) (field status)) name =
      peak field name (scope name earlier (statuses ++ [status])) := by
  rw [scope_append, peak_append]
  by_cases hn : (status.name.toNat : Int) = name
  · subst hn
    simp [Named, h]
  · have hnamed : ¬ Named name status := hn
    rw [Function.update_of_ne (Ne.symm hn), if_neg hnamed, h]

theorem Holds.addStatus (h : m.Holds earlier messages statuses)
    (hs : Counted status.name.toNat) :
    ∃ m', m.addStatus status = some m' ∧ m'.namesAvailable = m.namesAvailable ∧
      m'.Holds earlier messages (statuses ++ [status]) := by
  refine ⟨_, if_pos hs, rfl, h.count, fun name hname => ?_, update_peak _ _ h.temperature,
    update_peak _ _ h.current⟩
  have hcount := h.countAnyMotor name hname
  by_cases hn : (status.name.toNat : Int) = name
  · subst hn
    simp [Named, hcount]
  · simp [Named, hn, Function.update_of_ne (Ne.symm hn), hcount]

theorem Holds.addStatuses (h : m.Holds earlier messages statuses) {msg : List MotorSample}
    (hs : ∀ status ∈ msg, Counted status.name.toNat) :
    ∃ m', msg.foldlM MonitorPlugin.addStatus m = some m' ∧
      m'.namesAvailable = m.namesAvailable ∧ m'.Holds earlier messages (statuses ++ msg) := by
  induction msg generalizing m statuses with
  | nil => exact ⟨m, rfl, rfl, by simpa using h⟩
  | cons status msg ih =>
    obtain ⟨m1, h1, hn1, hm1⟩ := h.addStatus (hs status (by simp))
    obtain ⟨m2, h2, hn2, hm2⟩ := ih hm1 fun s hmem => hs s (List.mem_cons_of_mem _ hmem)
    refine ⟨m2, ?_, hn2.trans hn1, by simpa using hm2⟩
    rw [List.foldlM_cons, h1]
    exact h2

theorem addStatuses_eq_none {msg : List MotorSample}
    (hs : ¬ ∀ status ∈ msg, Counted status.name.toNat) :
    msg.foldlM MonitorPlugin.addStatus m = none := by
  induction msg generalizing m with
  | nil => simp at hs
  | cons status msg ih =>
    rw [List.foldlM_cons]
    by_cases h : Counted status.name.toNat
    · have hrest : ¬ ∀ s ∈ msg, Counted s.name.toNat := fun hall =>
        hs (List.forall_mem_cons.mpr ⟨h, hall⟩)
      rw [addStatus, if_pos h]
      exact ih hrest
    · rw [addStatus, if_neg h]
      rfl

theorem Holds.reset (h : m.Holds earlier messages statuses) :
    m.reset.Holds (earlier ++ statuses) 0 [] where
  count := rfl
  countAnyMotor name hname := by
    have hmem : name ∈ m.namesAvailable := hname
    simp [MonitorPlugin.reset, hmem]
  temperature name := by
    by_cases hk : 0 ≤ name ∧ name < maxNum
    · simp [MonitorPlugin.reset, scope, hk, peak]
    · simp [MonitorPlugin.reset, scope, hk, h.temperature]
  current name := by
    by_cases hk : 0 ≤ name ∧ name < maxNum
    · simp [MonitorPlugin.reset, scope, hk, peak]
    · simp [MonitorPlugin.reset, scope, hk, h.current]

theorem peak_append_eq_iff (field : MotorSample → Reading) (name : Int) :
    peak field name (earlier ++ statuses) = peak field name statuses ↔
      ∀ status ∈ earlier, Named name status →
        ¬ Unordered.Lt (peak field name statuses) (field status) := by
  simp only [peak, List.filter_append, List.map_append, Unordered.maximum_append]
  refine (Unordered.maximum_maximum_eq_iff _ _ _).trans ?_
  constructor
  · intro h status hs hn
    exact h _ (List.mem_map_of_mem (List.mem_filter.mpr ⟨hs, decide_eq_true hn⟩))
  · intro h a ha
    obtain ⟨status, hmem, rfl⟩ := List.mem_map.mp ha
    obtain ⟨hs, hn⟩ := List.mem_filter.mp hmem
    exact h status hs (of_decide_eq_true hn)

theorem Holds.report_eq_iff {period : List (List MotorSample)}
    (h : m.Holds earlier period.length period.flatten) {name : Int} (hname : name ∈ m.namesAvailable)
    (hc : Counted name) :
    m.report name = reportOf period name ↔
      (maxNum ≤ name → ∀ status ∈ earlier, Named name status →
        ¬ Unordered.Lt (peak MotorSample.temperature name period.flatten) status.temperature ∧
        ¬ Unordered.Lt (peak MotorSample.current name period.flatten) status.current) := by
  have hreport : m.report name = reportOf period name ↔
      peak MotorSample.temperature name (scope name earlier period.flatten) =
        peak MotorSample.temperature name period.flatten ∧
      peak MotorSample.current name (scope name earlier period.flatten) =
        peak MotorSample.current name period.flatten := by
    simp [report, reportOf, h.count, h.countAnyMotor name hname, h.temperature, h.current]
  rw [hreport]
  by_cases hk : name < maxNum
  · have hscope : scope name earlier period.flatten = period.flatten := if_pos ⟨hc.1, hk⟩
    simp [hscope, Int.not_le.mpr hk]
  · have hscope : scope name earlier period.flatten = earlier ++ period.flatten :=
      if_neg fun h => hk h.2
    rw [hscope, peak_append_eq_iff, peak_append_eq_iff]
    constructor
    · exact fun hb _ status hs hn => ⟨hb.1 status hs hn, hb.2 status hs hn⟩
    · intro hb
      have hall := hb (Int.not_lt.mp hk)
      exact ⟨fun status hs hn => (hall status hs hn).1, fun status hs hn => (hall status hs hn).2⟩

-- ---------------------------------------------------------------------------
-- Runs
-- ---------------------------------------------------------------------------

theorem run_tick (hc : ∀ name ∈ m.namesAvailable, Counted name) (rest : List MonitorEvent)
    (reports : List MonitorReport) (later : List (List MonitorReport)) :
    m.run (.tick :: rest) = some (reports :: later) ↔
      m.namesAvailable.map m.report = reports ∧ m.reset.run rest = some later := by
  simp only [run, tick, if_pos hc]
  cases h : m.reset.run rest with
  | none => simp [h]
  | some r => simp [h]

theorem Holds.run_eq_iff {period : List (List MotorSample)}
    (h : m.Holds earlier period.length period.flatten) (events : List MonitorEvent) :
    m.run events = some (reportsOf m.namesAvailable period events) ↔
      Clean m.namesAvailable earlier period events := by
  induction events generalizing m earlier period with
  | nil => simp [run, reportsOf, Clean]
  | cons event rest ih =>
    cases event with
    | motorStatus msg =>
      simp only [run, reportsOf, Clean]
      by_cases hs : ∀ status ∈ msg, Counted status.name.toNat
      · have hmsg : ({ m with count := m.count + 1 } : MonitorPlugin).Holds earlier
            (period ++ [msg]).length period.flatten :=
          ⟨by simp [h.count], h.countAnyMotor, h.temperature, h.current⟩
        obtain ⟨m', hm', hnames, hholds⟩ := hmsg.addStatuses hs
        rw [← List.flatten_concat] at hholds
        have hrest := ih hholds
        rw [hnames] at hrest
        rw [onMotorStatus, hm']
        exact hrest.trans (and_iff_right hs).symm
      · rw [onMotorStatus, addStatuses_eq_none hs]
        simp [hs]
    | tick =>
      simp only [reportsOf, Clean]
      by_cases hc : ∀ name ∈ m.namesAvailable, Counted name
      · have hrest : m.reset.run rest = some (reportsOf m.namesAvailable [] rest) ↔
            Clean m.namesAvailable (earlier ++ period.flatten) [] rest := ih (by exact h.reset)
        rw [run_tick hc, hrest, List.map_inj_left]
        refine and_congr_left fun _ => forall₂_congr fun name hname => ?_
        rw [h.report_eq_iff hname (hc name hname), and_iff_right (hc name hname)]
      · simp only [run, tick, if_neg hc]
        constructor
        · intro hrun
          cases hrun
        · exact fun hclean => absurd (fun name hname => (hclean.1 name hname).1) hc

end

theorem holds_start (names : List Int) : (start names).Holds [] 0 [] where
  count := rfl
  countAnyMotor _ _ := rfl
  temperature name := by simp [start, scope, peak]
  current name := by simp [start, scope, peak]

/-- The reports are those of their periods exactly in the clean runs. -/
theorem reports_of_period_iff (names : List Int) (events : List MonitorEvent) :
    (start names).run events = some (reportsOf names [] events) ↔ Clean names [] [] events :=
  @Holds.run_eq_iff (start names) [] [] (holds_start names) events

/-- A motor named 13 reported hot in the first period is hot in the second one. -/
theorem reports_carry_over :
    ¬ (start [13]).run [.motorStatus [⟨13, .ofRat 5, .ofRat 90⟩], .tick, .tick] =
      some (reportsOf [13] [] [.motorStatus [⟨13, .ofRat 5, .ofRat 90⟩], .tick, .tick]) := by
  decide +kernel

end MonitorPlugin

end TienKung
