import TienKung.Lib.Threads
import Mathlib.Data.Finset.Insert

/-!
# `ThreadsManager`

`Start` creates a worker that goes round in `Run`: it tests `started`, takes the
mutex, and keeps it while it scans the threads of the process and sleeps. The
public calls hold the mutex while they last, so each is one step that waits for
it to be free; the test of `started` is made without it. A memory access is a
step of its own, and every thread sees what was written last.
-/

namespace TienKung.FastRos

structure ThreadsManager where
  threadsIgnored : Finset ℤ
  threadsDone : Finset ℤ
  cpus : Finset ℤ
  interval : ℤ
  started : Bool
  mtxOpt : Bool
  affinities : List (ℤ × Finset ℤ)

inductive Worker
  | testing
  | locking
  | scanning
  | sleeping
  | releasing
  | left
  deriving DecidableEq

namespace ThreadsManager

def new : ThreadsManager := ⟨∅, ∅, ∅, 100, false, false, []⟩

-- ---------------------------------------------------------------------------
-- Run
-- ---------------------------------------------------------------------------

def visit (m : ThreadsManager) (tid : ℤ) : ThreadsManager :=
  if tid ∉ m.threadsIgnored ∧ tid ∉ m.threadsDone then
    { m with
      affinities := m.affinities ++ [(tid, m.cpus)]
      threadsDone := insert tid m.threadsDone }
  else m

def scan (m : ThreadsManager) (tids : List ℤ) : ThreadsManager := tids.foldl visit m

def work (tids : List ℤ) (m : ThreadsManager) : Worker → ThreadsManager × Worker
  | .testing => (m, if m.started then .locking else .left)
  | .locking => if m.mtxOpt then (m, .locking) else ({ m with mtxOpt := true }, .scanning)
  | .scanning => (m.scan tids, .sleeping)
  | .sleeping => (m, .releasing)
  | .releasing => ({ m with mtxOpt := false }, .testing)
  | .left => (m, .left)

-- ---------------------------------------------------------------------------
-- Calls
-- ---------------------------------------------------------------------------

/-- A setting can only be changed while the manager is stopped. -/
def configure (m : ThreadsManager) (change : ThreadsManager → ThreadsManager) :
    ThreadsManager × Bool :=
  if m.started then (m, false) else (change m, true)

def ignore (m : ThreadsManager) (tid : ℤ) : ThreadsManager × Bool :=
  m.configure fun m => { m with threadsIgnored := insert tid m.threadsIgnored }

def setManagerCpuSet (m : ThreadsManager) (cpus : Finset ℤ) : ThreadsManager × Bool :=
  m.configure fun m => { m with cpus := cpus }

def setManagerIntervalTime (m : ThreadsManager) (ms : ℤ) : ThreadsManager × Bool :=
  m.configure fun m => { m with interval := ms }

/-- Whether a worker is created, which is what the call returns. -/
def start (m : ThreadsManager) : ThreadsManager × Bool :=
  if m.started then (m, false) else ({ m with started := true }, true)

def stop (m : ThreadsManager) : ThreadsManager × Bool :=
  if m.started then ({ m with started := false }, true) else (m, false)

end ThreadsManager

-- ---------------------------------------------------------------------------
-- The process
-- ---------------------------------------------------------------------------

inductive ManagerCall
  | ignore (tid : ℤ)
  | setManagerCpuSet (cpus : Finset ℤ)
  | setManagerIntervalTime (ms : ℤ)
  | start
  | stop

def ManagerCall.run (m : ThreadsManager) : ManagerCall → ThreadsManager × Bool
  | .ignore tid => m.ignore tid
  | .setManagerCpuSet cpus => m.setManagerCpuSet cpus
  | .setManagerIntervalTime ms => m.setManagerIntervalTime ms
  | .start => m.start
  | .stop => m.stop

/-- The workers that a call creates which returns `rlt`. -/
def ManagerCall.creates (rlt : Bool) : ManagerCall → List Worker
  | .start => if rlt then [.testing] else []
  | _ => []

inductive ManagerEvent
  | call (call : ManagerCall)
  | turn (k : Nat) (tids : List ℤ)

abbrev Managed := ThreadsManager × List Worker

namespace Managed

/-- A call that finds the mutex taken has not happened yet. Emitted is what calls return. -/
def step : Mealy.Step Managed ManagerEvent Bool
  | (m, workers), .call call =>
    if m.mtxOpt then ((m, workers), [])
    else
      let (m, rlt) := call.run m
      ((m, workers ++ call.creates rlt), [rlt])
  | s, .turn k tids => (Threads.turn (ThreadsManager.work tids) k s, [])

def start : Managed := (.new, [])

end Managed

-- ---------------------------------------------------------------------------
-- What is asked of a run
-- ---------------------------------------------------------------------------

namespace Worker

def running : Worker → Bool
  | .left => false
  | _ => true

def holds : Worker → Bool
  | .scanning | .sleeping | .releasing => true
  | _ => false

/-- The steps a worker has left once the manager is stopped. -/
def remaining : Worker → Nat
  | .locking => 5
  | .scanning => 4
  | .sleeping => 3
  | .releasing => 2
  | .testing => 1
  | .left => 0

end Worker

def ManagerEvent.isTurn (k : Nat) : ManagerEvent → Bool
  | .turn k' _ => k' = k
  | .call _ => false

namespace Managed

def AtMostOne (events : List ManagerEvent) : Prop :=
  ∀ before, before <+: events →
    (Mealy.final step start before).2.countP Worker.running ≤ 1

/-- After a `Stop` that returns true, five more steps are all that a worker takes. -/
def StopsWorkers (events : List ManagerEvent) : Prop :=
  ∀ before after, before ++ .call .stop :: after <+: events →
    (step (Mealy.final step start before) (.call .stop)).2 = [true] →
    ∀ k < (Mealy.final step start before).2.length, 5 ≤ after.countP (ManagerEvent.isTurn k) →
      (Mealy.final step start (before ++ .call .stop :: after)).2[k]? = some .left

/-- A `Start` that creates a worker finds that those before it have left. -/
def Careful (s : Managed) : ManagerEvent → Prop
  | .call .start => s.1.mtxOpt = false → s.1.started = false → ∀ worker ∈ s.2, worker = .left
  | _ => True

end Managed

-- ---------------------------------------------------------------------------
-- One step
-- ---------------------------------------------------------------------------

section
variable {m : ThreadsManager} {worker : Worker}

namespace ThreadsManager

theorem scan_flags (m : ThreadsManager) (tids : List ℤ) :
    (m.scan tids).started = m.started ∧ (m.scan tids).mtxOpt = m.mtxOpt := by
  unfold scan
  induction tids generalizing m with
  | nil => exact ⟨rfl, rfl⟩
  | cons tid tids ih =>
    have hvisit : (m.visit tid).started = m.started ∧ (m.visit tid).mtxOpt = m.mtxOpt := by
      unfold visit
      split <;> exact ⟨rfl, rfl⟩
    exact ⟨(ih _).1.trans hvisit.1, (ih _).2.trans hvisit.2⟩

theorem work_started (tids : List ℤ) (m : ThreadsManager) (worker : Worker) :
    (m.work tids worker).1.started = m.started := by
  cases worker with
  | testing | sleeping | releasing | left => rfl
  | locking =>
    simp only [work]
    split <;> rfl
  | scanning => exact (m.scan_flags tids).1

theorem work_mtxOpt (tids : List ℤ) (h : worker.holds = true → m.mtxOpt = true) :
    (m.work tids worker).1.mtxOpt.toNat + worker.holds.toNat =
      m.mtxOpt.toNat + (m.work tids worker).2.holds.toNat := by
  cases worker with
  | testing =>
    unfold work
    cases m.started <;> rfl
  | locking =>
    unfold work
    cases hm : m.mtxOpt <;> simp [hm, Worker.holds]
  | scanning =>
    show (m.scan tids).mtxOpt.toNat + 1 = m.mtxOpt.toNat + 1
    rw [(m.scan_flags tids).2]
  | sleeping | left => rfl
  | releasing =>
    show 0 + 1 = m.mtxOpt.toNat + 0
    rw [h rfl]
    rfl

theorem work_running (tids : List ℤ) (m : ThreadsManager) (worker : Worker) :
    (m.work tids worker).2.running.toNat ≤ worker.running.toNat := by
  cases worker with
  | left => exact Nat.le_refl _
  | _ => exact Bool.toNat_le _

theorem work_remaining (tids : List ℤ) (hstarted : m.started = false)
    (hfree : worker = .locking → m.mtxOpt = false) :
    (m.work tids worker).2.remaining = worker.remaining - 1 := by
  cases worker with
  | testing => simp [work, hstarted, Worker.remaining]
  | locking => simp [work, hfree rfl, Worker.remaining]
  | _ => rfl

end ThreadsManager

theorem ManagerCall.run_mtxOpt (call : ManagerCall) : (call.run m).1.mtxOpt = m.mtxOpt := by
  cases call with
  | start =>
    simp only [run, ThreadsManager.start]
    split <;> rfl
  | stop =>
    simp only [run, ThreadsManager.stop]
    split <;> rfl
  | _ =>
    simp only [run, ThreadsManager.ignore, ThreadsManager.setManagerCpuSet,
      ThreadsManager.setManagerIntervalTime, ThreadsManager.configure]
    split <;> rfl

end

-- ---------------------------------------------------------------------------
-- The invariant
-- ---------------------------------------------------------------------------

namespace Managed

/-- The mutex is taken as often as a worker holds it, and no two workers are in the loop. -/
structure Valid (s : Managed) : Prop where
  holds : s.2.countP Worker.holds = s.1.mtxOpt.toNat
  running : s.2.countP Worker.running ≤ 1

theorem valid_start : Valid start := ⟨rfl, Nat.zero_le _⟩

section
variable {s : Managed} {worker : Worker} {k : Nat}

theorem step_taken (h : s.1.mtxOpt = true) (call : ManagerCall) : step s (.call call) = (s, []) := by
  simp only [step, h, if_true]

theorem step_free (h : s.1.mtxOpt = false) (call : ManagerCall) : step s (.call call) =
    (((call.run s.1).1, s.2 ++ call.creates (call.run s.1).2), [(call.run s.1).2]) := by
  simp only [step, h, Bool.false_eq_true, if_false]

theorem creates_cases (m : ThreadsManager) (call : ManagerCall) :
    call.creates (call.run m).2 = [] ∨
      call = .start ∧ m.started = false ∧ call.creates (call.run m).2 = [.testing] := by
  cases call with
  | start =>
    cases hm : m.started <;> simp [ManagerCall.run, ThreadsManager.start, hm, ManagerCall.creates]
  | _ => exact .inl rfl

theorem all_left_iff : (∀ worker ∈ s.2, worker = .left) ↔ s.2.countP Worker.running = 0 := by
  rw [List.countP_eq_zero]
  refine forall₂_congr fun worker _ => ?_
  cases worker <;> simp [Worker.running]

theorem Valid.free (h : Valid s) (hk : s.2[k]? = some .locking) : s.1.mtxOpt = false := by
  have hholds := Threads.countP_set hk Worker.holds .left
  have hrunning := Threads.countP_set hk Worker.running .left
  have hle : (s.2.set k .left).countP Worker.holds ≤ (s.2.set k .left).countP Worker.running :=
    List.countP_mono_left fun worker _ hw => by cases worker <;> trivial
  have hone := h.running
  rw [h.holds] at hholds
  simp only [Worker.holds, Worker.running, Bool.toNat_false, Bool.toNat_true] at hholds hrunning
  cases hm : s.1.mtxOpt with
  | false => rfl
  | true =>
    rw [hm, Bool.toNat_true] at hholds
    omega

theorem Valid.turn (h : Valid s) (k : Nat) (tids : List ℤ) : Valid (step s (.turn k tids)).1 := by
  cases hk : s.2[k]? with
  | none =>
    rw [step, Threads.turn_none hk]
    exact h
  | some worker =>
    have hholds := Threads.countP_set hk Worker.holds (s.1.work tids worker).2
    have hrunning := Threads.countP_set hk Worker.running (s.1.work tids worker).2
    have hheld : worker.holds = true → s.1.mtxOpt = true := by
      intro hw
      have hpos := Threads.count_pos hk hw
      by_contra hfree
      rw [h.holds, Bool.eq_false_of_not_eq_true hfree] at hpos
      exact Nat.lt_irrefl 0 hpos
    have hmutex := ThreadsManager.work_mtxOpt tids hheld
    have hkeep := ThreadsManager.work_running tids s.1 worker
    have hone := h.running
    rw [h.holds] at hholds
    rw [step, Threads.turn_some hk]
    refine ⟨?_, ?_⟩
    · show (s.2.set k _).countP _ = (s.1.work tids worker).1.mtxOpt.toNat
      omega
    · show (s.2.set k _).countP _ ≤ 1
      omega

theorem Valid.step (h : Valid s) {e : ManagerEvent} (hc : Careful s e) :
    Valid (Managed.step s e).1 := by
  cases e with
  | turn k tids => exact h.turn k tids
  | call call =>
    cases hm : s.1.mtxOpt with
    | true =>
      rw [step_taken hm]
      exact h
    | false =>
      have hfree : (call.run s.1).1.mtxOpt = s.1.mtxOpt := call.run_mtxOpt
      rw [step_free hm]
      rcases creates_cases s.1 call with hnone | ⟨rfl, hstarted, hnew⟩
      · refine ⟨?_, ?_⟩
        · simpa [hnone, hfree] using h.holds
        · simpa [hnone] using h.running
      · have hzero := all_left_iff.mp (hc hm hstarted)
        refine ⟨?_, ?_⟩
        · simpa [hnew, hfree, Worker.holds] using h.holds
        · simp [hnew, hzero, Worker.running]

theorem careless_start {e : ManagerEvent} (hc : ¬ Careful s e) : e = .call .start ∧
    s.1.mtxOpt = false ∧ s.1.started = false ∧ ¬ ∀ worker ∈ s.2, worker = .left := by
  cases e with
  | turn => exact absurd trivial hc
  | call call =>
    cases call with
    | start => exact ⟨rfl, by simpa only [Careful, Classical.not_imp] using hc⟩
    | _ => exact absurd trivial hc

/-- A `Start` that does not find the workers gone puts two of them into the loop. -/
theorem two_of_careless {e : ManagerEvent} (hc : ¬ Careful s e) :
    2 ≤ (Managed.step s e).1.2.countP Worker.running := by
  obtain ⟨rfl, hm, hstarted, hleft⟩ := careless_start hc
  have hpos : s.2.countP Worker.running ≠ 0 := mt all_left_iff.mpr hleft
  have hnew : ManagerCall.creates (ManagerCall.run s.1 .start).2 .start = [.testing] := by
    simp [ManagerCall.run, ThreadsManager.start, hstarted, ManagerCall.creates]
  rw [step_free hm]
  show 2 ≤ (s.2 ++ _).countP _
  rw [hnew, List.countP_append]
  simp only [List.countP_singleton, Worker.running, if_true]
  omega

-- ---------------------------------------------------------------------------
-- Stopped workers
-- ---------------------------------------------------------------------------

/-- The worker has been told to leave, and nothing calls it back. -/
def Leaving (k : Nat) (s : Managed) : Prop :=
  ∃ worker, s.2[k]? = some worker ∧ (s.1.started = false ∨ worker = .left)

def remaining (k : Nat) (s : Managed) : Nat := (s.2[k]?).elim 0 Worker.remaining

theorem remaining_le (k : Nat) (s : Managed) : remaining k s ≤ 5 := by
  unfold remaining
  cases s.2[k]? with
  | none => exact Nat.zero_le _
  | some worker => cases worker <;> decide

theorem Leaving.eq_left (h : Leaving k s) (hzero : remaining k s = 0) : s.2[k]? = some .left := by
  obtain ⟨worker, hk, -⟩ := h
  rw [remaining, hk] at hzero
  rw [hk]
  cases worker with
  | left => rfl
  | _ => cases hzero

theorem remaining_of (hk : s.2[k]? = some worker) : remaining k s = worker.remaining := by
  rw [remaining, hk, Option.elim_some]

theorem Leaving.call (h : Leaving k s) {call : ManagerCall} (hc : Careful s (.call call)) :
    Leaving k (Managed.step s (.call call)).1 ∧
      remaining k (Managed.step s (.call call)).1 = remaining k s := by
  cases hm : s.1.mtxOpt with
  | true =>
    rw [step_taken hm]
    exact ⟨h, rfl⟩
  | false =>
    obtain ⟨worker, hk, hleaving⟩ := h
    have hk' : (s.2 ++ call.creates (call.run s.1).2)[k]? = some worker := by
      rw [List.getElem?_append_left (List.getElem?_eq_some_iff.mp hk).1, hk]
    rw [step_free hm]
    refine ⟨⟨worker, hk', ?_⟩, (remaining_of hk').trans (remaining_of hk).symm⟩
    refine hleaving.elim (fun hstarted => ?_) .inr
    cases call with
    | start => exact .inr (hc hm hstarted worker (List.mem_of_getElem? hk))
    | stop => exact .inl (by simp [ManagerCall.run, ThreadsManager.stop, hstarted])
    | _ => exact .inl (by simp [ManagerCall.run, ThreadsManager.ignore,
        ThreadsManager.setManagerCpuSet, ThreadsManager.setManagerIntervalTime,
        ThreadsManager.configure, hstarted])

theorem Leaving.own_turn (h : Leaving k s) (hv : Valid s) (tids : List ℤ) :
    Leaving k (Managed.step s (.turn k tids)).1 ∧
      remaining k (Managed.step s (.turn k tids)).1 = remaining k s - 1 := by
  obtain ⟨worker, hk, hleaving⟩ := h
  have hnext : (s.1.work tids worker).2.remaining = worker.remaining - 1 ∧
      ((s.1.work tids worker).1.started = false ∨ (s.1.work tids worker).2 = .left) := by
    rcases hleaving with hstarted | rfl
    · refine ⟨ThreadsManager.work_remaining tids hstarted fun hw => hv.free (hw ▸ hk), .inl ?_⟩
      rw [ThreadsManager.work_started, hstarted]
    · exact ⟨rfl, .inr rfl⟩
  have hset : (s.2.set k (s.1.work tids worker).2)[k]? = some (s.1.work tids worker).2 :=
    List.getElem?_set_self (List.getElem?_eq_some_iff.mp hk).1
  rw [Managed.step, Threads.turn_some hk]
  refine ⟨⟨_, hset, hnext.2⟩, ?_⟩
  rw [remaining_of hset, hnext.1, remaining_of hk]

theorem Leaving.other_turn (h : Leaving k s) {k' : Nat} (hkk : k' ≠ k) (tids : List ℤ) :
    Leaving k (Managed.step s (.turn k' tids)).1 ∧
      remaining k (Managed.step s (.turn k' tids)).1 = remaining k s := by
  obtain ⟨worker, hk, hleaving⟩ := h
  have hturn : (Managed.step s (.turn k' tids)).1.2[k]? = some worker ∧
      (Managed.step s (.turn k' tids)).1.1.started = s.1.started := by
    cases hk' : s.2[k']? with
    | none =>
      rw [Managed.step, Threads.turn_none hk']
      exact ⟨hk, rfl⟩
    | some other =>
      rw [Managed.step, Threads.turn_some hk']
      exact ⟨(List.getElem?_set_ne hkk).trans hk, ThreadsManager.work_started tids s.1 other⟩
  refine ⟨⟨worker, hturn.1, hturn.2.symm ▸ hleaving⟩, ?_⟩
  rw [remaining_of hturn.1, remaining_of hk]

theorem Leaving.step (h : Leaving k s) (hv : Valid s) {e : ManagerEvent} (hc : Careful s e) :
    Leaving k (Managed.step s e).1 ∧ remaining k (Managed.step s e).1 ≤
      remaining k s - if e.isTurn k then 1 else 0 := by
  cases e with
  | call call =>
    obtain ⟨hleaving, hsame⟩ := h.call hc
    exact ⟨hleaving, hsame.le⟩
  | turn k' tids =>
    by_cases hkk : k' = k
    · subst hkk
      obtain ⟨hleaving, hless⟩ := h.own_turn hv tids
      refine ⟨hleaving, hless.le.trans ?_⟩
      simp [ManagerEvent.isTurn]
    · obtain ⟨hleaving, hsame⟩ := h.other_turn hkk tids
      refine ⟨hleaving, hsame.le.trans ?_⟩
      simp [ManagerEvent.isTurn, hkk]

theorem leaving_stop (hm : s.1.mtxOpt = false) (hk : k < s.2.length) :
    Leaving k (Managed.step s (.call .stop)).1 := by
  have hstarted : s.1.stop.1.started = false := by
    unfold ThreadsManager.stop
    cases h : s.1.started <;> simp [h]
  rw [step_free hm]
  exact ⟨s.2[k], by simp [ManagerCall.creates, hk], .inl hstarted⟩

-- ---------------------------------------------------------------------------
-- Runs
-- ---------------------------------------------------------------------------

theorem Valid.run (h : Valid s) {events : List ManagerEvent}
    (hc : Mealy.Along Managed.step Careful s events) :
    Valid (Mealy.final Managed.step s events) :=
  hc.final h fun _ _ hv hgood => hv.step hgood

/-- Five steps of its own take a stopped worker out of the loop. -/
theorem Leaving.run (h : Leaving k s) (hv : Valid s) {events : List ManagerEvent}
    (hc : Mealy.Along Managed.step Careful s events)
    (hcount : 5 ≤ events.countP (ManagerEvent.isTurn k)) :
    (Mealy.final Managed.step s events).2[k]? = some .left := by
  have hdone := hc.countdown (P := fun s => Valid s ∧ Leaving k s) (f := remaining k)
    ⟨hv, h⟩ fun s e hs hgood =>
      ⟨⟨hs.1.step hgood, (hs.2.step hs.1 hgood).1⟩, (hs.2.step hs.1 hgood).2⟩
  have hzero : remaining k (Mealy.final Managed.step s events) = 0 := by
    have := remaining_le k s
    omega
  exact hdone.1.2.eq_left hzero

end

/-- A run keeps to one worker and ends it at each `Stop` exactly when no `Start` creates one
before those it had have left. -/
theorem one_worker_iff (events : List ManagerEvent) :
    AtMostOne events ∧ StopsWorkers events ↔ Mealy.Along step Careful start events := by
  constructor
  · rintro ⟨hone, -⟩
    refine Mealy.along_of_prefix fun before e hp _ => ?_
    by_contra hbad
    have hle := hone _ hp
    rw [Mealy.final_append] at hle
    exact absurd (two_of_careless hbad) (Nat.not_le_of_lt (Nat.lt_succ_of_le hle))
  · intro hc
    refine ⟨?_, ?_⟩
    · exact fun before hp => (valid_start.run (hc.of_prefix hp)).running
    · intro before after hp hstop k hk hcount
      obtain ⟨hbefore, hstopped⟩ := Mealy.along_append.mp (hc.of_prefix hp)
      have hvalid := valid_start.run hbefore
      rw [Mealy.final_append]
      generalize Mealy.final step start before = s at *
      have hm : s.1.mtxOpt = false := by
        by_contra hm
        rw [step_taken (Bool.eq_true_of_not_eq_false hm)] at hstop
        cases hstop
      exact (leaving_stop hm hk).run (hvalid.step hstopped.1) hstopped.2 hcount

/-- A worker that has tested `started` before a `Stop` does not notice it when a `Start` comes
before it tests again: there are two workers then, and the first goes on. -/
theorem stop_unnoticed :
    let events : List ManagerEvent :=
      [.call .start, .turn 0 [], .call .stop, .call .start, .turn 1 []] ++ .replicate 5 (.turn 0 [])
    ¬ AtMostOne events ∧ ¬ StopsWorkers events := by
  intro events
  constructor
  · intro hone
    exact absurd (hone events (List.prefix_refl _)) (by decide)
  · intro hstops
    have hleft := hstops [.call .start, .turn 0 []]
      ([.call .start, .turn 1 []] ++ .replicate 5 (.turn 0 [])) (List.prefix_refl _) (by decide) 0
      (by decide) (by decide)
    exact absurd hleft (by decide)

end Managed

end TienKung.FastRos
