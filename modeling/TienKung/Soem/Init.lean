import TienKung.Lib.Threads
import TienKung.Soem.Master

/-!
# `SoemMaster::Init`

Each call compares and exchanges the state, starts the check thread, makes up to
nine attempts to start the bus and stores what came of them. Calls may overlap:
any of them may take the next step. A call keeps the outcomes of its own
attempts, and the shared state it found and left.
-/

namespace TienKung.SoemInit

/-- `SoemMaster::State`; the object is static, so it begins with the first. -/
inductive State
  | notInitialized | initializing | initialized
  deriving DecidableEq

structure Shared where
  state : State
  slaveModes : List Mode
  vecCurTsMode : List Mode
  rate : ℚ
  runThreads : Nat
  checkThreads : Nat
  deriving DecidableEq

inductive Pc
  | compareExchange | setModes | createCheckThread
  | start (i : Nat)
  | store (rlt : Bool)
  | createRunThread
  | returned (result : Bool)
  deriving DecidableEq

structure Call where
  slaveModes : List Mode
  rate : ℚ
  /-- What `Start` returns at each attempt. -/
  starts : Nat → Bool
  pc : Pc
  found : Option Shared
  left : Option Shared

def Call.new (slaveModes : List Mode) (rate : ℚ) (starts : Nat → Bool) : Call :=
  ⟨slaveModes, rate, starts, .compareExchange, none, none⟩

def Call.ret (c : Call) (m : Shared) (result : Bool) : Call :=
  { c with pc := .returned result, left := some m }

def Call.step (m : Shared) (c : Call) : Shared × Call :=
  match c.pc with
  | .compareExchange =>
    if m.state = .notInitialized then
      ({ m with state := .initializing }, { c with pc := .setModes, found := some m })
    else (m, c.ret m false)
  | .setModes =>
    ({ m with
        slaveModes := c.slaveModes
        vecCurTsMode := .replicate c.slaveModes.length .standard
        rate := c.rate },
      { c with pc := .createCheckThread })
  | .createCheckThread => ({ m with checkThreads := m.checkThreads + 1 }, { c with pc := .start 1 })
  | .start i =>
    (m, { c with
      pc :=
        if c.starts i then .store true
        else if i + 1 < 10 then .start (i + 1)
        else .store false })
  | .store rlt =>
    let m := { m with state := if rlt then .initialized else .notInitialized }
    (m, if rlt then { c with pc := .createRunThread } else c.ret m true)
  | .createRunThread =>
    let m := { m with runThreads := m.runThreads + 1 }
    (m, c.ret m true)
  | .returned _ => (m, c)

section
variable {m : Shared} {c : Call}

theorem step_compareExchange (h : c.pc = .compareExchange) : c.step m =
    if m.state = .notInitialized then
      ({ m with state := .initializing }, { c with pc := .setModes, found := some m })
    else (m, c.ret m false) := by
  simp only [Call.step, h]

theorem step_start (h : c.pc = .start i) : c.step m =
    (m, { c with
      pc := if c.starts i then .store true
        else if i + 1 < 10 then .start (i + 1) else .store false }) := by
  simp only [Call.step, h]

theorem step_store_false (h : c.pc = .store false) :
    c.step m =
      ({ m with state := .notInitialized }, c.ret { m with state := .notInitialized } true) := by
  simp only [Call.step, h, Bool.false_eq_true, if_false]

theorem step_store_true (h : c.pc = .store true) :
    c.step m = ({ m with state := .initialized }, { c with pc := .createRunThread }) := by
  simp only [Call.step, h, if_true]

theorem step_returned (h : c.pc = .returned result) : c.step m = (m, c) := by
  simp only [Call.step, h]

end

abbrev Master := Shared × List Call

def Master.start : Master := (⟨.notInitialized, [], [], 0, 0, 0⟩, [])

inductive Event
  | call (slaveModes : List Mode) (rate : ℚ) (starts : Nat → Bool)
  | turn (k : Nat)

def step : Mealy.Step Master Event Empty := fun s e =>
  match e with
  | .call slaveModes rate starts => ((s.1, s.2 ++ [.new slaveModes rate starts]), [])
  | .turn k => (Threads.turn Call.step k s, [])

-- ---------------------------------------------------------------------------
-- What the calls should do
-- ---------------------------------------------------------------------------

def Call.Brought (c : Call) : Prop :=
  ∃ before ∈ c.found, ∃ after ∈ c.left, before.state ≠ .initialized ∧ after.state = .initialized

def Call.AllFail (c : Call) : Prop := ∀ i, 1 ≤ i → i < 10 → c.starts i = false

def Unchanged (before after : Shared) : Prop :=
  after.state = .notInitialized ∧ after.runThreads = before.runThreads ∧
    after.checkThreads = before.checkThreads

/-- What a call that returned must have done. -/
structure Call.Returns (c : Call) (result : Bool) : Prop where
  result : result = true ↔ c.Brought
  undone : c.AllFail → ∀ before ∈ c.found, ∀ after ∈ c.left, Unchanged before after

structure Correct (s : Master) : Prop where
  returns : ∀ c ∈ s.2, ∀ result, c.pc = .returned result → c.Returns result
  runThreads : s.1.runThreads ≤ 1
  checkThreads : s.1.checkThreads ≤ 1

/-- The event ends a call whose nine attempts have all failed. -/
def GivesUp (s : Master) (e : Event) : Prop :=
  ∃ k c, e = .turn k ∧ s.2[k]? = some c ∧ c.pc = .store false

-- ---------------------------------------------------------------------------
-- Invariant
-- ---------------------------------------------------------------------------

def Pc.inside : Pc → Bool
  | .setModes | .createCheckThread | .start _ | .store _ => true
  | _ => false

def Pc.beforeCheckThread : Pc → Bool
  | .setModes | .createCheckThread => true
  | _ => false

def Pc.beforeRunThread : Pc → Bool
  | .createRunThread => true
  | _ => false

/-- What a call knows at each of its steps while no call gives up. -/
def Call.Sound (c : Call) : Prop :=
  match c.pc with
  | .compareExchange => c.found = none
  | .setModes | .createCheckThread => ∃ m ∈ c.found, m.state ≠ .initialized
  | .start i => (∃ m ∈ c.found, m.state ≠ .initialized) ∧ 1 ≤ i ∧ i < 10
  | .store rlt => (∃ m ∈ c.found, m.state ≠ .initialized) ∧ (rlt = true → ¬ c.AllFail)
  | .createRunThread => (∃ m ∈ c.found, m.state ≠ .initialized) ∧ ¬ c.AllFail
  | .returned result => c.Returns result

/-- At most one call is inside, and it or its result accounts for the threads. -/
structure Inv (s : Master) : Prop where
  inside : s.2.countP (·.pc.inside) = if s.1.state = .initializing then 1 else 0
  check : s.1.checkThreads + s.2.countP (·.pc.beforeCheckThread) =
    if s.1.state = .notInitialized then 0 else 1
  run : s.1.runThreads + s.2.countP (·.pc.beforeRunThread) =
    if s.1.state = .initialized then 1 else 0
  sound : ∀ c ∈ s.2, c.Sound

theorem start_inv : Inv .start := ⟨rfl, rfl, rfl, fun _ h => absurd h List.not_mem_nil⟩

theorem Inv.correct (h : Inv s) : Correct s where
  returns c hc result hr := by
    have hs := h.sound c hc
    rwa [Call.Sound, hr] at hs
  runThreads := by
    have := h.run
    split at this <;> omega
  checkThreads := by
    have := h.check
    split at this <;> omega

theorem Inv.call (h : Inv s) : Inv (s.1, s.2 ++ [.new slaveModes rate starts]) := by
  refine ⟨?_, ?_, ?_, ?_⟩
  · simpa [Call.new, Pc.inside] using h.inside
  · simpa [Call.new, Pc.beforeCheckThread] using h.check
  · simpa [Call.new, Pc.beforeRunThread] using h.run
  · intro c hc
    rcases List.mem_append.mp hc with hc | hc
    · exact h.sound c hc
    · rw [List.mem_singleton.mp hc]
      rfl

section
variable {m m' : Shared} {cs : List Call} {c c' : Call} {k : Nat}

theorem Inv.set (h : Inv (m, cs)) (hc : cs[k]? = some c)
    (hinside : (if m.state = .initializing then 1 else 0) + c'.pc.inside.toNat =
      (if m'.state = .initializing then 1 else 0) + c.pc.inside.toNat)
    (hcheck : m'.checkThreads + c'.pc.beforeCheckThread.toNat +
        (if m.state = .notInitialized then 0 else 1) =
      m.checkThreads + c.pc.beforeCheckThread.toNat +
        (if m'.state = .notInitialized then 0 else 1))
    (hrun : m'.runThreads + c'.pc.beforeRunThread.toNat +
        (if m.state = .initialized then 1 else 0) =
      m.runThreads + c.pc.beforeRunThread.toNat + (if m'.state = .initialized then 1 else 0))
    (hs : c'.Sound) : Inv (m', cs.set k c') := by
  have h1 := Threads.countP_set hc (·.pc.inside) c'
  have h2 := Threads.countP_set hc (·.pc.beforeCheckThread) c'
  have h3 := Threads.countP_set hc (·.pc.beforeRunThread) c'
  have hi := h.inside
  have hk := h.check
  have hr := h.run
  refine ⟨?_, ?_, ?_, Threads.forall_set h.sound hs⟩
  · simp only at *; omega
  · simp only at *; omega
  · simp only at *; omega

theorem Inv.state_of_inside (h : Inv (m, cs)) (hc : cs[k]? = some c)
    (hp : c.pc.inside = true) : m.state = .initializing := by
  have hpos := Threads.count_pos hc (p := (·.pc.inside)) hp
  by_contra hne
  exact absurd (h.inside.trans (if_neg hne)) (Nat.ne_of_gt hpos)

theorem Inv.state_of_run (h : Inv (m, cs)) (hc : cs[k]? = some c)
    (hp : c.pc.beforeRunThread = true) : m.state = .initialized := by
  have hpos := Threads.count_pos hc (p := (·.pc.beforeRunThread)) hp
  by_contra hne
  have := h.run.trans (if_neg hne)
  exact absurd (Nat.eq_zero_of_add_eq_zero_left this) (Nat.ne_of_gt hpos)

theorem Inv.move (h : Inv (m, cs)) (hc : cs[k]? = some c) (hp : c.pc.inside = p.inside)
    (hk : c.pc.beforeCheckThread = p.beforeCheckThread)
    (hr : c.pc.beforeRunThread = p.beforeRunThread) (hs : Call.Sound { c with pc := p })
    (hstate : m'.state = m.state) (hcheck : m'.checkThreads = m.checkThreads)
    (hrun : m'.runThreads = m.runThreads) : Inv (m', cs.set k { c with pc := p }) := by
  apply h.set hc
  · rw [hp, hstate]
  · rw [hk, hstate, hcheck]
  · rw [hr, hstate, hrun]
  · exact hs

theorem Inv.turn (h : Inv (m, cs)) (hc : cs[k]? = some c) (hg : c.pc ≠ .store false) :
    Inv ((c.step m).1, cs.set k (c.step m).2) := by
  have hs := h.sound c (List.mem_of_getElem? hc)
  rw [Call.Sound] at hs
  cases hpc : c.pc with
  | compareExchange =>
    rw [hpc] at hs
    rw [step_compareExchange hpc]
    split_ifs with hm
    · apply h.set hc <;> simp [hpc, hm, Pc.inside, Pc.beforeCheckThread, Pc.beforeRunThread,
        Call.Sound]
    · apply h.set hc
      · rw [hpc]; rfl
      · rw [hpc]; rfl
      · rw [hpc]; rfl
      · exact ⟨by simp [Call.ret, Call.Brought, hs], by simp [Call.ret, hs]⟩
  | setModes =>
    rw [hpc] at hs
    simp only [Call.step, hpc]
    exact h.move hc (by rw [hpc]; rfl) (by rw [hpc]; rfl) (by rw [hpc]; rfl) hs rfl rfl rfl
  | createCheckThread =>
    rw [hpc] at hs
    simp only [Call.step, hpc]
    apply h.set hc
    · rw [hpc]; rfl
    · rw [hpc]; exact Nat.add_right_comm ..
    · rw [hpc]; rfl
    · exact ⟨hs, le_refl 1, by decide⟩
  | start i =>
    rw [hpc] at hs
    obtain ⟨hfound, hi, hlt⟩ := hs
    rw [step_start hpc]
    refine h.move hc ?_ ?_ ?_ ?_ rfl rfl rfl
    · rw [hpc]; split_ifs <;> rfl
    · rw [hpc]; split_ifs <;> rfl
    · rw [hpc]; split_ifs <;> rfl
    · split_ifs with hst hnext
      · exact ⟨hfound, fun _ ha => nomatch hst.symm.trans (ha i hi hlt)⟩
      · exact ⟨hfound, Nat.le_add_left 1 i, hnext⟩
      · exact ⟨hfound, nofun⟩
  | store rlt =>
    cases rlt with
    | false => exact absurd hpc hg
    | true =>
      rw [hpc] at hs
      have hm := h.state_of_inside hc (by rw [hpc]; rfl)
      rw [step_store_true hpc]
      apply h.set hc
      · rw [hpc, hm]; rfl
      · rw [hpc, hm]; rfl
      · rw [hpc, hm]; rfl
      · exact ⟨hs.1, hs.2 rfl⟩
  | createRunThread =>
    rw [hpc] at hs
    obtain ⟨⟨before, hfound, hne⟩, hfail⟩ := hs
    have hm := h.state_of_run hc (by rw [hpc]; rfl)
    simp only [Call.step, hpc]
    apply h.set hc
    · rw [hpc]; rfl
    · rw [hpc]; rfl
    · rw [hpc]; exact Nat.add_right_comm ..
    · refine ⟨⟨fun _ => ⟨before, hfound, _, rfl, hne, hm⟩, fun _ => rfl⟩, fun ha => ?_⟩
      exact absurd ha hfail
  | returned result =>
    obtain ⟨hk, rfl⟩ := List.getElem?_eq_some_iff.mp hc
    rwa [step_returned hpc, List.set_getElem_self]

end

theorem Inv.step (h : Inv s) (hg : ¬ GivesUp s e) : Inv (step s e).1 := by
  obtain ⟨m, cs⟩ := s
  cases e with
  | call slaveModes rate starts => exact h.call
  | turn k =>
    cases hc : cs[k]? with
    | none => rwa [SoemInit.step, Threads.turn_none hc]
    | some c =>
      rw [SoemInit.step, Threads.turn_some hc]
      exact h.turn hc fun hp => hg ⟨k, c, rfl, hc, hp⟩

/-- The call that gives up returns true and has started a check thread. -/
theorem not_correct_of_givesUp (hg : GivesUp s e) : ¬ Correct (step s e).1 := by
  obtain ⟨m, cs⟩ := s
  obtain ⟨k, c, rfl, hc, hp⟩ := hg
  intro h
  rw [SoemInit.step, Threads.turn_some hc] at h
  have hk := (List.getElem?_eq_some_iff.mp hc).1
  have hmem := List.mem_set hk (c.step m).2
  rw [step_store_false hp] at h hmem
  obtain ⟨_, -, after, hafter, -, hstate⟩ := (h.returns _ hmem true rfl).result.mp rfl
  cases hafter
  cases hstate

/-- `Init` does what it should in a run exactly when no call of the run gives up. -/
theorem init_correct_iff (es : List Event) :
    (∀ before, before <+: es → Correct (Mealy.final step .start before)) ↔
      Mealy.Along step (fun s e => ¬ GivesUp s e) .start es := by
  constructor
  · intro h
    refine Mealy.along_of_prefix fun before e hp _ hg => ?_
    have hc := h _ hp
    rw [Mealy.final_append] at hc
    exact not_correct_of_givesUp hg hc
  · intro ha before hp
    exact ((ha.of_prefix hp).final start_inv fun s e h hg => h.step hg).correct

-- ---------------------------------------------------------------------------
-- A single call
-- ---------------------------------------------------------------------------

def Call.FailBefore (c : Call) (i : Nat) : Prop := ∀ j, 1 ≤ j → j < i → c.starts j = false

/-- Where a call that nobody disturbs stands. -/
def Alone (m : Shared) (c : Call) : Prop :=
  match c.pc with
  | .compareExchange => m.state = .notInitialized ∧ m.runThreads = 0
  | .setModes | .createCheckThread => m.runThreads = 0
  | .start i => m.runThreads = 0 ∧ c.FailBefore i
  | .store rlt => m.runThreads = 0 ∧ (rlt = false → c.AllFail)
  | .createRunThread => m.state = .initialized
  | .returned _ => m.state = .initialized ∨ m.runThreads = 0 ∧ c.AllFail

theorem Alone.step (h : Alone m c) : Alone (c.step m).1 (c.step m).2 := by
  rw [Alone] at h
  cases hpc : c.pc with
  | compareExchange =>
    rw [hpc] at h
    rw [step_compareExchange hpc, if_pos h.1]
    exact h.2
  | setModes =>
    rw [hpc] at h
    simp only [Call.step, hpc]
    exact h
  | createCheckThread =>
    rw [hpc] at h
    simp only [Call.step, hpc]
    exact ⟨h, fun j hj hlt => absurd hj (Nat.not_le_of_lt hlt)⟩
  | start i =>
    rw [hpc] at h
    obtain ⟨hrun, hfail⟩ := h
    have hnext : c.starts i ≠ true → c.FailBefore (i + 1) := by
      intro hst j hj hlt
      rcases Nat.lt_succ_iff_lt_or_eq.mp hlt with hlt | rfl
      · exact hfail j hj hlt
      · exact Bool.eq_false_iff.mpr hst
    rw [step_start hpc]
    split_ifs with hst hi
    · exact ⟨hrun, nofun⟩
    · exact ⟨hrun, hnext hst⟩
    · exact ⟨hrun, fun _ j hj hlt => hnext hst j hj (by omega)⟩
  | store rlt =>
    rw [hpc] at h
    cases rlt with
    | true => rw [step_store_true hpc]; rfl
    | false => rw [step_store_false hpc]; exact .inr ⟨h.1, h.2 rfl⟩
  | createRunThread =>
    rw [hpc] at h
    simp only [Call.step, hpc]
    exact .inl h
  | returned result =>
    rw [hpc] at h
    rw [step_returned hpc, Alone, hpc]
    exact h

theorem step_runThreads_le (m : Shared) (c : Call) : m.runThreads ≤ (c.step m).1.runThreads := by
  unfold Call.step
  cases c.pc with
  | compareExchange => dsimp only; split <;> exact le_refl _
  | createRunThread => exact Nat.le_succ _
  | _ => exact le_refl _

theorem step_starts (m : Shared) (c : Call) : (c.step m).2.starts = c.starts := by
  unfold Call.step
  cases c.pc with
  | compareExchange => dsimp only; split <;> rfl
  | store rlt => cases rlt <;> rfl
  | _ => rfl

/-- A call whose attempts all fail, and another one after it. -/
def twoFailures : List Event :=
  .call [] 0 (fun _ => false) :: .replicate 13 (.turn 0) ++
    .call [] 0 (fun _ => false) :: .replicate 13 (.turn 1)

theorem twoFailures_not_correct :
    ¬ ∀ es before, before <+: es → Correct (Mealy.final step .start before) := by
  intro h
  have hthreads := (h twoFailures twoFailures (List.prefix_refl _)).checkThreads
  revert hthreads
  decide

end TienKung.SoemInit
