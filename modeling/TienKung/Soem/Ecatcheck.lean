import TienKung.Soem.RunLoop
import TienKung.Soem.SlaveStates

/-!
# `ecatcheck`

The check thread asks for the states of the slaves while the working counter is
low or a slave was not operational at the last pass, and requests the next state
of each such slave. More than `K_ETHERCAT_ERR_MAX` requests in one period end
the thread, and so does a slave that has no state twice in one pass.

A slave is marked as lost on the way out only, so the thread that recovers lost
slaves never does.
-/

namespace TienKung.Ecatcheck

inductive Ending
  | degraded | lost
  deriving DecidableEq

structure Check where
  errCount : Int
  errIterationCount : Int
  docheckstate : Bool
  slaves : List EcSlave
  ended : Option Ending
  deriving DecidableEq

/-- What the library reports of a slave in one pass. -/
structure SlaveAnswer where
  read : BitVec 16
  /-- What `ec_reconfig_slave` returns, and the state it leaves. -/
  reconfig : Int
  reconfigState : BitVec 16
  recheck : BitVec 16
  recover : Int

structure PassInput where
  inOP : Bool
  wkc : Int
  expectedWKC : Int
  answer : Nat → SlaveAnswer

inductive CheckEvent
  | writestate (slave : Nat) (state : BitVec 16)
  | reconfig (slave : Nat)
  | statecheck (slave : Nat)
  | recover (slave : Nat)
  | stop
  | degraded
  | resumed
  deriving DecidableEq

def currentgroup : BitVec 8 := 0

-- ---------------------------------------------------------------------------
-- One slave
-- ---------------------------------------------------------------------------

structure Checked where
  slave : EcSlave
  events : List CheckEvent
  lost : Bool

/-- The body of the first test of the loop. -/
def checkState (slave : Nat) (s : EcSlave) (a : SlaveAnswer) : Checked :=
  if s.state = ecStateSafeOp + ecStateError then
    ⟨{ s with state := ecStateSafeOp + ecStateAck },
      [.writestate slave (ecStateSafeOp + ecStateAck)], false⟩
  else if s.state = ecStateSafeOp then
    ⟨{ s with state := ecStateOperational }, [.writestate slave ecStateOperational], false⟩
  else if 0 < s.state then
    ⟨{ s with
        state := a.reconfigState
        islost := if a.reconfig ≠ 0 then false else s.islost },
      [.reconfig slave], false⟩
  else if !s.islost then
    if a.recheck = 0 then
      ⟨{ s with state := a.recheck, islost := true }, [.statecheck slave, .stop], true⟩
    else ⟨{ s with state := a.recheck }, [.statecheck slave], false⟩
  else ⟨s, [], false⟩

/-- The second test of the loop. -/
def checkLost (slave : Nat) (c : Checked) (a : SlaveAnswer) : Checked :=
  if c.slave.islost then
    if c.slave.state = 0 then
      { c with
        slave := { c.slave with islost := if a.recover ≠ 0 then false else true }
        events := c.events ++ [.recover slave] }
    else { c with slave := { c.slave with islost := false } }
  else c

def needsCheck (s : EcSlave) : Bool := s.group = currentgroup ∧ s.state ≠ ecStateOperational

def checkSlave (slave : Nat) (s : EcSlave) (a : SlaveAnswer) : Checked :=
  let c := if needsCheck s then checkState slave s a else ⟨s, [], false⟩
  if c.lost then c else checkLost slave c a

-- ---------------------------------------------------------------------------
-- One pass
-- ---------------------------------------------------------------------------

/-- The loop over the slaves from `slave` on, which a lost one leaves. -/
def checkSlaves (answer : Nat → SlaveAnswer) (slave : Nat) :
    List EcSlave → List EcSlave × List CheckEvent × Bool
  | [] => ([], [], false)
  | s :: rest =>
    let c := checkSlave slave s (answer slave)
    if c.lost then (c.slave :: rest, c.events, true)
    else
      let (slaves, events, lost) := checkSlaves answer (slave + 1) rest
      (c.slave :: slaves, c.events ++ events, lost)

def CheckEvent.isRequest : CheckEvent → Bool
  | .writestate _ _ => true
  | _ => false

def readstate (answer : Nat → SlaveAnswer) (slaves : List EcSlave) : List EcSlave :=
  slaves.mapIdx fun k s => { s with state := (answer (k + 1)).read }

/-- The test at the top of the loop that may start a period. -/
def Check.top (c : Check) : Check :=
  if c.errIterationCount > kEthercatErrPeriod then { c with errIterationCount := 0, errCount := 0 }
  else c

def pass : Mealy.Step Check PassInput CheckEvent := fun c i =>
  if c.ended.isSome then (c, [])
  else
    let c := c.top
    if c.errCount > kEthercatErrMax then ({ c with ended := some .degraded }, [.degraded])
    else
      let c := { c with errIterationCount := c.errIterationCount + 1 }
      if i.inOP ∧ (i.wkc < i.expectedWKC ∨ c.docheckstate) then
        let read := readstate i.answer c.slaves
        let (slaves, events, lost) := checkSlaves i.answer 1 read
        let docheckstate := read.any needsCheck
        let c := { c with
          slaves, docheckstate, errCount := c.errCount + events.countP CheckEvent.isRequest }
        if lost then ({ c with ended := some .lost }, events)
        else (c, if docheckstate then events else events ++ [.resumed])
      else (c, [])

/-- When the thread starts; `slaves` are those the configuration will have found. -/
def Check.start (slaves : List EcSlave) : Check := ⟨0, 0, false, slaves, none⟩

-- ---------------------------------------------------------------------------
-- Lost slaves
-- ---------------------------------------------------------------------------

def CheckEvent.isRecover : CheckEvent → Bool
  | .recover _ => true
  | _ => false

theorem checkState_spec (slave : Nat) (a : SlaveAnswer) (hs : s.islost = false) :
    (checkState slave s a).slave.islost = (checkState slave s a).lost ∧
      ∀ e ∈ (checkState slave s a).events, e.isRecover = false := by
  unfold checkState
  split_ifs <;> simp_all [CheckEvent.isRecover]

theorem checkSlave_eq (hs : s.islost = false) : checkSlave slave s a =
    if needsCheck s then checkState slave s a else ⟨s, [], false⟩ := by
  rw [checkSlave]
  cases needsCheck s with
  | true =>
    simp only [if_true]
    cases hlost : (checkState slave s a).lost with
    | true => rfl
    | false =>
      rw [if_neg Bool.false_ne_true, checkLost, (checkState_spec slave a hs).1, hlost,
        if_neg Bool.false_ne_true]
  | false => simp [checkLost, hs]

/-- A slave is marked as lost only if the thread ends with it, and none is recovered. -/
theorem checkSlave_spec (slave : Nat) (a : SlaveAnswer) (hs : s.islost = false) :
    (checkSlave slave s a).slave.islost = (checkSlave slave s a).lost ∧
      ∀ e ∈ (checkSlave slave s a).events, e.isRecover = false := by
  rw [checkSlave_eq hs]
  split
  · exact checkState_spec slave a hs
  · exact ⟨hs, by simp⟩

theorem checkSlaves_spec (answer : Nat → SlaveAnswer) (slave : Nat)
    (hs : ∀ s ∈ slaves, s.islost = false) :
    ((checkSlaves answer slave slaves).2.2 = false →
      ∀ s ∈ (checkSlaves answer slave slaves).1, s.islost = false) ∧
    ∀ e ∈ (checkSlaves answer slave slaves).2.1, e.isRecover = false := by
  induction slaves generalizing slave with
  | nil => simp [checkSlaves]
  | cons s rest ih =>
    obtain ⟨hslave, hevents⟩ := checkSlave_spec slave (answer slave) (hs s List.mem_cons_self)
    obtain ⟨hrest, hrestEvents⟩ := ih (slave + 1) fun s h => hs s (List.mem_cons_of_mem _ h)
    rw [checkSlaves]
    cases hlost : (checkSlave slave s (answer slave)).lost with
    | true =>
      simp only [if_true]
      exact ⟨fun h => absurd h (by decide), hevents⟩
    | false =>
      simp only [Bool.false_eq_true, if_false]
      rw [hlost] at hslave
      refine ⟨fun h => List.forall_mem_cons.mpr ⟨hslave, hrest h⟩, ?_⟩
      intro e he
      exact (List.mem_append.mp he).elim (hevents e) (hrestEvents e)

theorem islost_readstate (hs : ∀ s ∈ slaves, s.islost = false) :
    ∀ s ∈ readstate answer slaves, s.islost = false := by
  intro s h
  obtain ⟨k, hk, rfl⟩ := List.mem_mapIdx.mp h
  exact hs slaves[k] (List.getElem_mem hk)

-- ---------------------------------------------------------------------------
-- Passes
-- ---------------------------------------------------------------------------

def Checks (c : Check) (i : PassInput) : Prop := i.inOP ∧ (i.wkc < i.expectedWKC ∨ c.docheckstate)

instance : Decidable (Checks c i) := inferInstanceAs (Decidable (_ ∧ _))

section
variable {c : Check} {i : PassInput}

theorem pass_ended (h : c.ended = some ending) : pass c i = (c, []) := by
  rw [pass, h]
  rfl

theorem pass_degraded (h : c.ended = none) (herr : c.top.errCount > kEthercatErrMax) :
    pass c i = ({ c.top with ended := some .degraded }, [.degraded]) := by
  simp only [pass, h, Option.isSome_none, Bool.false_eq_true, if_false, if_pos herr]

theorem pass_idle (h : c.ended = none) (herr : ¬ c.top.errCount > kEthercatErrMax)
    (hidle : ¬ Checks c.top i) :
    pass c i = ({ c.top with errIterationCount := c.top.errIterationCount + 1 }, []) := by
  simp only [pass, h, Option.isSome_none, Bool.false_eq_true, if_false, if_neg herr]
  exact if_neg hidle

/-- The state after a pass that looks at the slaves, but for how it ends. -/
def Check.checked (c : Check) (answer : Nat → SlaveAnswer) : Check :=
  let read := readstate answer c.slaves
  { c with
    errIterationCount := c.errIterationCount + 1
    errCount := c.errCount + ((checkSlaves answer 1 read).2.1.countP CheckEvent.isRequest : Nat)
    slaves := (checkSlaves answer 1 read).1
    docheckstate := read.any needsCheck }

theorem pass_checks (h : c.ended = none) (herr : ¬ c.top.errCount > kEthercatErrMax)
    (hchecks : Checks c.top i) : pass c i =
      let v := checkSlaves i.answer 1 (readstate i.answer c.top.slaves)
      if v.2.2 then ({ c.top.checked i.answer with ended := some .lost }, v.2.1)
      else (c.top.checked i.answer,
        if (c.top.checked i.answer).docheckstate then v.2.1 else v.2.1 ++ [.resumed]) := by
  simp only [pass, h, Option.isSome_none, Bool.false_eq_true, if_false, if_neg herr]
  exact if_pos hchecks

@[simp] theorem slaves_top : c.top.slaves = c.slaves := by
  unfold Check.top
  split <;> rfl

@[simp] theorem ended_top : c.top.ended = c.ended := by
  unfold Check.top
  split <;> rfl

end

def NoneLost (c : Check) : Prop := c.ended = none → ∀ s ∈ c.slaves, s.islost = false

theorem noneLost_pass (hc : NoneLost c) :
    NoneLost (pass c i).1 ∧ ∀ e ∈ (pass c i).2, e.isRecover = false := by
  cases hended : c.ended with
  | some ending =>
    rw [pass_ended hended]
    exact ⟨hc, by simp⟩
  | none =>
    have hslaves : ∀ s ∈ c.top.slaves, s.islost = false := by
      rw [slaves_top]
      exact hc hended
    by_cases herr : c.top.errCount > kEthercatErrMax
    · rw [pass_degraded hended herr]
      refine ⟨(fun h => nomatch h), ?_⟩
      simp [CheckEvent.isRecover]
    · by_cases hchecks : Checks c.top i
      · obtain ⟨hnext, hevents⟩ := checkSlaves_spec i.answer 1 (islost_readstate hslaves)
        rw [pass_checks hended herr hchecks]
        dsimp only
        split
        case isTrue => exact ⟨(fun h => nomatch h), hevents⟩
        case isFalse hlost =>
          refine ⟨fun _ => hnext (Bool.eq_false_iff.mpr hlost), ?_⟩
          split
          · exact hevents
          · intro e he
            rcases List.mem_append.mp he with he | he
            · exact hevents e he
            · rw [List.mem_singleton.mp he]
              rfl
      · rw [pass_idle hended herr hchecks]
        exact ⟨fun _ => hslaves, by simp⟩

/-- Whatever the slaves answer: none is lost while the thread runs, and none is recovered. -/
theorem never_recovers (hs : ∀ s ∈ slaves, s.islost = false) (is : List PassInput) :
    NoneLost (Mealy.final pass (.start slaves) is) ∧
      ∀ e ∈ Mealy.emitted pass (.start slaves) is, e.isRecover = false :=
  have hstart : NoneLost (.start slaves) := fun _ => hs
  ⟨Mealy.final_invariant hstart fun _ _ h => (noneLost_pass h).1,
    Mealy.emitted_invariant hstart fun _ _ h => noneLost_pass h⟩

/-- The first slave comes back, the second is lost with the thread. -/
theorem never_recovers_of_lost :
    let c : Check := .start (.replicate 2 ⟨0, 0, 0, false⟩)
    let low : PassInput :=
      ⟨true, 0, 1, fun slave => ⟨if slave = 1 then ecStateSafeOp else 0, 0, 0, 0, 1⟩⟩
    (Mealy.final pass c [low]).ended = some .lost ∧
      Mealy.emitted pass c [low] = [.writestate 1 ecStateOperational, .statecheck 2, .stop] ∧
      NoneLost (Mealy.final pass c [low]) ∧
        ∀ e ∈ Mealy.emitted pass c [low], e.isRecover = false := by
  intro c low
  refine ⟨by decide, by decide, never_recovers ?_ [low]⟩
  exact fun s h => (List.eq_of_mem_replicate h) ▸ rfl

-- ---------------------------------------------------------------------------
-- Periods
-- ---------------------------------------------------------------------------

def period : Nat := 101

/-- The requests since the last pass whose number is a multiple of `period`. -/
def recent (slaves : List EcSlave) (is : List PassInput) : Nat :=
  let periods := is.length - is.length % period
  (Mealy.emitted pass (Mealy.final pass (.start slaves) (is.take periods)) (is.drop periods)).countP
    CheckEvent.isRequest

theorem recent_append (h : (is ++ [i]).length % period ≠ 0) : recent slaves (is ++ [i]) =
    recent slaves is +
      (pass (Mealy.final pass (.start slaves) is) i).2.countP CheckEvent.isRequest := by
  have hlen : (is ++ [i]).length = is.length + 1 := List.length_append
  have hperiods : (is ++ [i]).length - (is ++ [i]).length % period =
      is.length - is.length % period := by
    rw [hlen] at h ⊢
    unfold period at h ⊢
    omega
  have hle : is.length - is.length % period ≤ is.length := Nat.sub_le ..
  rw [recent, recent, hperiods, List.take_append_of_le_length hle, List.drop_append_of_le_length hle,
    Mealy.emitted_append, List.countP_append, ← Mealy.final_append, List.take_append_drop]
  simp

theorem recent_of_period (h : is.length % period = 0) : recent slaves is = 0 := by
  rw [recent, h, Nat.sub_zero, List.drop_length]
  rfl

/-- What the counts say at the top of a pass, after the test that may reset them. -/
structure Counted (slaves : List EcSlave) (is : List PassInput) (c : Check) : Prop where
  iterations : c.top.errIterationCount = (is.length % period : Nat)
  errors : c.top.errCount = recent slaves is

theorem counts_pass (h : (pass c i).1.ended = none) :
    c.ended = none ∧ c.top.errCount ≤ kEthercatErrMax ∧
      (pass c i).1.errIterationCount = c.top.errIterationCount + 1 ∧
      (pass c i).1.errCount = c.top.errCount + (pass c i).2.countP CheckEvent.isRequest := by
  have hended : c.ended = none := by
    cases hc : c.ended with
    | none => rfl
    | some ending =>
      rw [pass_ended hc, hc] at h
      exact h
  have herr : ¬ c.top.errCount > kEthercatErrMax := by
    intro herr
    rw [pass_degraded hended herr] at h
    cases h
  refine ⟨hended, not_lt.mp herr, ?_⟩
  by_cases hchecks : Checks c.top i
  · rw [pass_checks hended herr hchecks] at h ⊢
    dsimp only at h ⊢
    split at h
    · cases h
    · rename_i hlost
      rw [if_neg hlost]
      refine ⟨rfl, ?_⟩
      split <;> simp [Check.checked, CheckEvent.isRequest, List.countP_append]
  · rw [pass_idle hended herr hchecks]
    simp

theorem counted_pass (hended : (Mealy.final pass (.start slaves) (is ++ [i])).ended = none)
    (h : Counted slaves is (Mealy.final pass (.start slaves) is)) :
    Counted slaves (is ++ [i]) (Mealy.final pass (.start slaves) (is ++ [i])) := by
  have hlen : (is ++ [i]).length = is.length + 1 := List.length_append
  rw [Mealy.final_append] at hended ⊢
  set c := Mealy.final pass (.start slaves) is with hc
  obtain ⟨-, -, hiterations, herrors⟩ := counts_pass hended
  rw [h.iterations] at hiterations
  rw [h.errors] at herrors
  change (pass c i).1.errIterationCount = _ at hiterations
  show Counted slaves (is ++ [i]) (pass c i).1
  by_cases hperiod : (is ++ [i]).length % period = 0
  · have hover : (pass c i).1.errIterationCount > kEthercatErrPeriod := by
      rw [hiterations, kEthercatErrPeriod]
      rw [hlen] at hperiod
      unfold period at hperiod ⊢
      omega
    have htop : (pass c i).1.top =
        { (pass c i).1 with errIterationCount := 0, errCount := 0 } := if_pos hover
    refine ⟨?_, ?_⟩
    · rw [htop, hperiod]
      rfl
    · rw [htop, recent_of_period hperiod]
      rfl
  · have hover : ¬ (pass c i).1.errIterationCount > kEthercatErrPeriod := by
      rw [hiterations, kEthercatErrPeriod]
      rw [hlen] at hperiod
      unfold period at hperiod ⊢
      omega
    have htop : (pass c i).1.top = (pass c i).1 := if_neg hover
    refine ⟨?_, ?_⟩
    · rw [htop, hiterations, hlen]
      rw [hlen] at hperiod
      unfold period at hperiod ⊢
      omega
    · rw [htop, herrors, recent_append hperiod]
      push_cast
      rfl

theorem counted (is : List PassInput) (hended : (Mealy.final pass (.start slaves) is).ended = none) :
    Counted slaves is (Mealy.final pass (.start slaves) is) := by
  induction is using List.reverseRecOn with
  | nil => exact ⟨rfl, rfl⟩
  | append_singleton is i ih =>
    have hbefore : (Mealy.final pass (.start slaves) is).ended = none := by
      rw [Mealy.final_append] at hended
      exact (counts_pass hended).1
    exact counted_pass hended (ih hbefore)

theorem degraded_pass : (pass c i).1.ended = some .degraded ↔
    c.ended = some .degraded ∨ c.ended = none ∧ kEthercatErrMax < c.top.errCount := by
  cases hended : c.ended with
  | some ending =>
    rw [pass_ended hended, hended]
    simp
  | none =>
    by_cases herr : c.top.errCount > kEthercatErrMax
    · rw [pass_degraded hended herr]
      exact iff_of_true rfl (.inr ⟨rfl, herr⟩)
    · refine iff_of_false ?_ (by simp [herr])
      by_cases hchecks : Checks c.top i
      · rw [pass_checks hended herr hchecks]
        dsimp only
        split
        · simp
        · simp [Check.checked, hended]
      · rw [pass_idle hended herr hchecks]
        simp [hended]

/-- The thread ends for too many requests at the first pass that comes to more than
`K_ETHERCAT_ERR_MAX` of them in its period. What the last pass of a period requests is forgotten. -/
theorem degraded_iff (is : List PassInput) :
    (Mealy.final pass (.start slaves) is).ended = some .degraded ↔
      ∃ j < is.length, (Mealy.final pass (.start slaves) (is.take j)).ended = none ∧
        kEthercatErrMax < recent slaves (is.take j) := by
  induction is using List.reverseRecOn with
  | nil => simp [Check.start]
  | append_singleton is i ih =>
    have hlen : (is ++ [i]).length = is.length + 1 := List.length_append
    rw [Mealy.final_append]
    refine degraded_pass.trans ?_
    rw [ih, hlen]
    constructor
    · rintro (⟨j, hj, hend, hmany⟩ | ⟨hend, hmany⟩)
      · have htake : is.take j = (is ++ [i]).take j := (List.take_append_of_le_length hj.le).symm
        rw [htake] at hend hmany
        exact ⟨j, by omega, hend, hmany⟩
      · refine ⟨is.length, by omega, ?_⟩
        rw [List.take_left]
        exact ⟨hend, (counted is hend).errors ▸ hmany⟩
    · rintro ⟨j, hj, hend, hmany⟩
      rcases Nat.lt_succ_iff_lt_or_eq.mp hj with hj | rfl
      · rw [List.take_append_of_le_length hj.le] at hend hmany
        exact .inl ⟨j, hj, hend, hmany⟩
      · rw [List.take_left] at hend hmany
        exact .inr ⟨hend, (counted is hend).errors ▸ hmany⟩

end TienKung.Ecatcheck
