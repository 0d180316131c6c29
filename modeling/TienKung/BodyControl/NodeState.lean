import TienKung.BodyControl.Loaders
import TienKung.Soem.Init

/-!
# `nodeState`

`autoInit` starts a thread that calls `SoemMaster::Init`, logs a failure and goes
on: it waits until all device groups are ready, or just three seconds, and sets
`nodeState`. The groups become ready while it runs. A device sets its `ready`
flag in `OnRequest` or `OnResponse`, or in a thread one of them started, so no
group becomes ready before the `Run` thread exists.
-/

namespace TienKung

open SoemInit (Shared)

abbrev nodeStateIdle : UInt16 := 0
abbrev nodeStateRunning : UInt16 := 1

-- ---------------------------------------------------------------------------
-- Configuration
-- ---------------------------------------------------------------------------

inductive DeviceGroup
  | motors | tsHands | rmImu | xsensImu | xsensHrImu | powerBoard | sri | zeMotors | eyouMotors
  deriving DecidableEq

/-- In the order of `CheckReady`. -/
def DeviceGroup.all : List DeviceGroup :=
  [.motors, .tsHands, .rmImu, .xsensImu, .xsensHrImu, .powerBoard, .sri, .zeMotors, .eyouMotors]

structure NodeConfig extends Config where
  autoInit : Option Bool := none
  enableCheckReady : Option Bool := none

/-- The loader that sets the group's `bEnable` flag. -/
def Config.load (c : Config) : DeviceGroup → Registry → Registry
  | .motors => loadMotors c
  | .tsHands => loadTsinghuaHand c
  | .rmImu => loadRmImu c
  | .xsensImu => loadXsensImu c
  | .xsensHrImu => loadXsensHrImu c
  | .powerBoard => loadPowerBoard c
  | .sri => loadSriSensor c
  | .zeMotors => loadZeroErrorMotors c
  | .eyouMotors => loadEyouMotors c

/-- The flag is set where a device is made. -/
def Config.enabled (c : Config) (g : DeviceGroup) : Bool := 0 < (c.load g {}).made

def Config.enabledGroups (c : Config) : List DeviceGroup := DeviceGroup.all.filter c.enabled

-- ---------------------------------------------------------------------------
-- The thread
-- ---------------------------------------------------------------------------

inductive NodePc
  | init
  | loop (timeStart : ℚ)
  | check (timeStart timeNow : ℚ) (rest : List DeviceGroup) (read : List (DeviceGroup × Bool))
  | wait
  | done
  deriving DecidableEq

structure Node where
  soem : Shared
  call : SoemInit.Call
  ready : DeviceGroup → Bool
  nodeState : UInt16
  pc : NodePc
  /-- What each pass of `CheckReady` read. -/
  checks : List (List (DeviceGroup × Bool))

def NodeConfig.checksReady (c : NodeConfig) : Bool := c.enableCheckReady.getD false

/-- `starts` are the outcomes of the attempts to start the bus. -/
def Node.start (c : NodeConfig) (starts : Nat → Bool) : Node where
  soem := SoemInit.Master.start.1
  call := .new c.vecSlaveMode 1100 starts
  ready := fun _ => false
  nodeState := nodeStateIdle
  pc := if c.autoInit.getD false then .init else .done
  checks := []

def Node.thread (c : NodeConfig) (s : Node) (now : ℚ) (ok : Bool) : Node :=
  match s.pc with
  | .init =>
    match s.call.pc with
    | .returned _ => { s with pc := if c.checksReady then .loop now else .wait }
    | _ =>
      let (soem, call) := s.call.step s.soem
      { s with soem, call }
  | .loop timeStart =>
    { s with pc := if ok then .check timeStart now c.enabledGroups [] else .done }
  | .check timeStart timeNow (g :: rest) read =>
    { s with pc := .check timeStart timeNow rest (read ++ [(g, s.ready g)]) }
  | .check timeStart timeNow [] read =>
    let s := { s with checks := s.checks ++ [read] }
    if read.all Prod.snd then { s with nodeState := nodeStateRunning, pc := .done }
    else { s with pc := if timeNow - timeStart > 3 then .done else .loop timeStart }
  | .wait => { s with nodeState := nodeStateRunning, pc := .done }
  | .done => s

inductive NodeEvent
  | thread (now : ℚ) (ok : Bool)
  | groupReady (g : DeviceGroup)

def Node.step (c : NodeConfig) : Mealy.Step Node NodeEvent Empty := fun s e =>
  match e with
  | .thread now ok => (s.thread c now ok, [])
  | .groupReady g =>
    (if 0 < s.soem.runThreads then { s with ready := fun h => h = g || s.ready h } else s, [])

def Node.after (c : NodeConfig) (starts : Nat → Bool) (es : List NodeEvent) : Node :=
  Mealy.final (Node.step c) (.start c starts) es

-- ---------------------------------------------------------------------------
-- Safety
-- ---------------------------------------------------------------------------

def AllReady (c : NodeConfig) (read : List (DeviceGroup × Bool)) : Prop :=
  read.map Prod.fst = c.enabledGroups ∧ ∀ r ∈ read, r.2 = true

/-- The node runs only on a master that was initialized, with its devices ready
where that is checked. -/
def RunningSafe (c : NodeConfig) (s : Node) : Prop :=
  s.nodeState = nodeStateRunning →
    s.soem.state = .initialized ∧ (c.checksReady = true → ∃ read ∈ s.checks, AllReady c read)

/-- Nothing stands between a failed initialization and the running state. -/
def Unguarded (c : NodeConfig) : Prop := c.checksReady = false ∨ c.enabledGroups = []

/-- `Init` has come to an end, well or not. -/
def Settled (s : Node) : Prop :=
  s.soem.state = .initialized ∨ s.soem.runThreads = 0 ∧ s.call.AllFail

def FromRun (s : Node) (read : List (DeviceGroup × Bool)) : Prop :=
  ∀ r ∈ read, r.2 = true → 0 < s.soem.runThreads

def NodePhase (c : NodeConfig) (s : Node) : Prop :=
  match s.pc with
  | .init => s.nodeState = nodeStateIdle
  | .loop _ => Settled s ∧ s.nodeState = nodeStateIdle
  | .check _ _ rest read =>
    Settled s ∧ s.nodeState = nodeStateIdle ∧ FromRun s read ∧
      read.map Prod.fst ++ rest = c.enabledGroups
  | .wait => Settled s ∧ s.nodeState = nodeStateIdle ∧ c.checksReady = false
  | .done => s.nodeState = nodeStateRunning →
      (s.soem.state = .initialized ∨ s.call.AllFail ∧ Unguarded c) ∧
        (c.checksReady = true → ∃ read ∈ s.checks, AllReady c read)

structure NodeInv (c : NodeConfig) (s : Node) : Prop where
  alone : SoemInit.Alone s.soem s.call
  ready : ∀ g, s.ready g = true → 0 < s.soem.runThreads
  phase : NodePhase c s

variable {c : NodeConfig} {starts : Nat → Bool} {s : Node}

theorem Node.start_inv : NodeInv c (.start c starts) := by
  refine ⟨⟨rfl, rfl⟩, nofun, ?_⟩
  unfold NodePhase Node.start
  cases c.autoInit.getD false with
  | true => rfl
  | false => exact nofun

theorem NodeInv.groupReady (h : NodeInv c s) (g : DeviceGroup) :
    NodeInv c (Node.step c s (.groupReady g)).1 := by
  unfold Node.step
  split_ifs with hrun
  · exact ⟨h.alone, fun _ _ => hrun, h.phase⟩
  · exact h

theorem Settled.of_returned (h : SoemInit.Alone s.soem s.call) (hr : s.call.pc = .returned r) :
    Settled s := by
  rwa [SoemInit.Alone, hr] at h

/-- All that was read was ready, on a master that never ran: nothing was read. -/
theorem unguarded_of_read {read : List (DeviceGroup × Bool)} (hall : read.all Prod.snd = true)
    (hfrom : FromRun s read) (hmap : read.map Prod.fst = c.enabledGroups) (hrun : s.soem.runThreads = 0) :
    c.enabledGroups = [] := by
  cases read with
  | nil => exact hmap.symm
  | cons r read =>
    have hr : r.2 = true := List.all_eq_true.mp hall r (by simp)
    exact absurd (hfrom r (by simp) hr) (by omega)

theorem NodeInv.thread (h : NodeInv c s) (now : ℚ) (ok : Bool) : NodeInv c (s.thread c now ok) := by
  have hp := h.phase
  rw [NodePhase] at hp
  unfold Node.thread
  split
  · next hpc =>
    rw [hpc] at hp
    split
    · next hr =>
      have hset := Settled.of_returned h.alone hr
      cases hc : c.checksReady with
      | true => exact ⟨h.alone, h.ready, hset, hp⟩
      | false => exact ⟨h.alone, h.ready, hset, hp, hc⟩
    · refine ⟨h.alone.step, fun g hg => ?_, ?_⟩
      · exact Nat.lt_of_lt_of_le (h.ready g hg) (SoemInit.step_runThreads_le ..)
      · rw [NodePhase, hpc]
        exact hp
  · next timeStart hpc =>
    rw [hpc] at hp
    cases ok with
    | true => exact ⟨h.alone, h.ready, hp.1, hp.2, nofun, rfl⟩
    | false => exact ⟨h.alone, h.ready, fun hn => nomatch hp.2.symm.trans hn⟩
  · next g rest read hpc =>
    rw [hpc] at hp
    obtain ⟨hset, hidle, hfrom, hmap⟩ := hp
    refine ⟨h.alone, h.ready, hset, hidle, fun r hr => ?_, by simpa using hmap⟩
    rcases List.mem_append.mp hr with hr | hr
    · exact hfrom r hr
    · rw [List.mem_singleton.mp hr]
      exact h.ready g
  · next timeStart timeNow read hpc =>
    rw [hpc] at hp
    obtain ⟨hset, hidle, hfrom, hmap⟩ := hp
    rw [List.append_nil] at hmap
    split_ifs with hall htime
    · refine ⟨h.alone, h.ready, fun _ => ⟨?_, fun _ => ?_⟩⟩
      · exact hset.imp_right fun hf => ⟨hf.2, .inr (unguarded_of_read hall hfrom hmap hf.1)⟩
      · exact ⟨read, by simp, hmap, List.all_eq_true.mp hall⟩
    · exact ⟨h.alone, h.ready, fun hn => nomatch hidle.symm.trans hn⟩
    · exact ⟨h.alone, h.ready, hset, hidle⟩
  · next hpc =>
    rw [hpc] at hp
    obtain ⟨hset, hidle, hc⟩ := hp
    refine ⟨h.alone, h.ready, fun _ => ⟨?_, fun ht => nomatch hc.symm.trans ht⟩⟩
    exact hset.imp_right fun hf => ⟨hf.2, .inl hc⟩
  · exact h

theorem NodeInv.step (h : NodeInv c s) (e : NodeEvent) : NodeInv c (Node.step c s e).1 := by
  cases e with
  | thread now ok => exact h.thread now ok
  | groupReady g => exact h.groupReady g

theorem Node.after_inv (es : List NodeEvent) : NodeInv c (.after c starts es) :=
  Mealy.final_invariant Node.start_inv fun _ e h => h.step e

theorem NodeInv.running (h : NodeInv c s) (hn : s.nodeState = nodeStateRunning) :
    (s.soem.state = .initialized ∨ s.call.AllFail ∧ Unguarded c) ∧
      (c.checksReady = true → ∃ read ∈ s.checks, AllReady c read) := by
  have hp := h.phase
  rw [NodePhase] at hp
  cases hpc : s.pc with
  | init => rw [hpc] at hp; exact nomatch hp.symm.trans hn
  | loop timeStart => rw [hpc] at hp; exact nomatch hp.2.symm.trans hn
  | check timeStart timeNow rest read => rw [hpc] at hp; exact nomatch hp.2.1.symm.trans hn
  | wait => rw [hpc] at hp; exact nomatch hp.2.1.symm.trans hn
  | done => rw [hpc] at hp; exact hp hn

-- ---------------------------------------------------------------------------
-- Runs
-- ---------------------------------------------------------------------------

theorem thread_starts (now : ℚ) (ok : Bool) : (s.thread c now ok).call.starts = s.call.starts := by
  unfold Node.thread
  split
  · split
    · rfl
    · exact SoemInit.step_starts ..
  · rfl
  · rfl
  · dsimp only; split <;> rfl
  · rfl
  · rfl

theorem Node.after_starts (es : List NodeEvent) :
    (Node.after c starts es).call.starts = starts := by
  refine Mealy.final_invariant (P := fun s : Node => s.call.starts = starts) rfl fun s e h => ?_
  cases e with
  | thread now ok => exact (thread_starts now ok).trans h
  | groupReady g => unfold Node.step; split_ifs <;> exact h

theorem done_step (h : s.pc = .done ∧ s.nodeState = nodeStateIdle) (e : NodeEvent) :
    (Node.step c s e).1.pc = .done ∧ (Node.step c s e).1.nodeState = nodeStateIdle := by
  cases e with
  | thread now ok => simpa only [Node.step, Node.thread, h.1] using h
  | groupReady g => unfold Node.step; split_ifs <;> exact h

theorem Node.after_idle (hc : c.autoInit.getD false = false) (es : List NodeEvent) :
    (Node.after c starts es).nodeState = nodeStateIdle := by
  refine (Mealy.final_invariant (P := fun s : Node => s.pc = .done ∧ s.nodeState = nodeStateIdle)
    ?_ fun s e h => done_step h e).2
  simp [Node.start, hc]

theorem thread_attempt (hpc : s.pc = .init) (hcall : s.call.pc = .start i)
    (hf : s.call.starts i = false) (now : ℚ) (ok : Bool) :
    s.thread c now ok =
      { s with call.pc := if i + 1 < 10 then .start (i + 1) else .store false } := by
  simp [Node.thread, hpc, hcall, SoemInit.step_start hcall, hf]

theorem attempts_fail (k : Nat) (hpc : s.pc = .init) (hcall : s.call.pc = .start i)
    (hf : s.call.AllFail) (hi : 1 ≤ i) (hk : i + k = 9) :
    Mealy.final (Node.step c) s (.replicate (k + 1) (.thread 0 true)) =
      { s with call.pc := .store false } := by
  induction k generalizing s i with
  | zero =>
    rw [List.replicate_one, Mealy.final_cons, Mealy.final_nil, Node.step,
      thread_attempt hpc hcall (hf i hi (by omega)), if_neg (by omega)]
  | succ k ih =>
    rw [List.replicate_succ, Mealy.final_cons, Node.step,
      thread_attempt hpc hcall (hf i hi (by omega)), if_pos (by omega)]
    exact ih hpc rfl hf (by omega) (by omega)

/-- A failed `Init` returns, and the thread goes on to the running state. -/
theorem failed_runs (hpc : s.pc = .init) (hcall : s.call.pc = .store false) (hu : Unguarded c) :
    let s' := Mealy.final (Node.step c) s (.replicate 4 (.thread 0 true))
    s'.nodeState = nodeStateRunning ∧ s'.soem.state = .notInitialized := by
  cases hr : c.checksReady with
  | false =>
    simp [Node.step, Node.thread, hpc, hcall, SoemInit.Call.step, SoemInit.Call.ret, hr]
  | true =>
    have hnone := hu.resolve_left (by simp [hr])
    simp [Node.step, Node.thread, hpc, hcall, SoemInit.Call.step, SoemInit.Call.ret, hr, hnone]

/-- Thirteen steps of `Init`, and three more of the thread. -/
def failedInit : List NodeEvent := .replicate 16 (.thread 0 true)

theorem failedInit_unsafe (hc : c.autoInit.getD false = true)
    (hf : ∀ i, 1 ≤ i → i < 10 → starts i = false) (hu : Unguarded c) :
    ¬ RunningSafe c (Node.after c starts failedInit) := by
  have hsplit : failedInit = .replicate 3 (.thread 0 true) ++
      (.replicate 9 (.thread 0 true) ++ .replicate 4 (.thread 0 true)) := rfl
  obtain ⟨hpc, hcall⟩ : (Node.after c starts (.replicate 3 (.thread 0 true))).pc = .init ∧
      (Node.after c starts (.replicate 3 (.thread 0 true))).call.pc = .start 1 := by
    simp [Node.after, Node.step, Node.thread, Node.start, hc, SoemInit.Call.step, SoemInit.Call.new,
      SoemInit.Master.start]
  have hfail : (Node.after c starts (.replicate 3 (.thread 0 true))).call.AllFail := by
    rwa [SoemInit.Call.AllFail, Node.after_starts]
  rw [Node.after, hsplit, Mealy.final_append, Mealy.final_append, ← Node.after,
    attempts_fail 8 hpc hcall hfail le_rfl rfl]
  generalize Node.after c starts (.replicate 3 (.thread 0 true)) = s at hpc
  obtain ⟨hrunning, hstate⟩ := failed_runs (s := { s with call.pc := .store false }) hpc rfl hu
  intro hsafe
  have hinitialized := (hsafe hrunning).1
  rw [hstate] at hinitialized
  cases hinitialized

/-- A node is safe in every run exactly when nothing is initialized by itself,
or an attempt to start the bus succeeds, or readiness is checked and there is a
group to wait for. -/
theorem running_safe_iff (c : NodeConfig) (starts : Nat → Bool) :
    (∀ es, RunningSafe c (Node.after c starts es)) ↔
      c.autoInit.getD false = false ∨ (∃ i, 1 ≤ i ∧ i < 10 ∧ starts i = true) ∨ ¬ Unguarded c := by
  constructor
  · intro h
    by_contra hn
    simp only [not_or, not_exists, not_and, not_not, Bool.not_eq_false, Bool.not_eq_true] at hn
    exact failedInit_unsafe hn.1 hn.2.1 hn.2.2 (h failedInit)
  · intro hc es hn
    obtain ⟨hstate, hchecks⟩ := (Node.after_inv es).running hn
    refine ⟨hstate.resolve_right ?_, hchecks⟩
    rintro ⟨hfail, hu⟩
    rw [SoemInit.Call.AllFail, Node.after_starts] at hfail
    rcases hc with hc | ⟨i, hi, hlt, hst⟩ | hc
    · exact nomatch (Node.after_idle hc es).symm.trans hn
    · exact nomatch hst.symm.trans (hfail i hi hlt)
    · exact hc hu

/-- No start succeeds and nothing is checked. -/
theorem failedInit_running :
    ¬ ∀ c starts es, RunningSafe c (Node.after c starts es) := by
  intro h
  have hrun := h { autoInit := some true } (fun _ => false) failedInit (by decide)
  exact absurd hrun.1 (by decide)

end TienKung
