import TienKung.Canopen.Driver
import TienKung.Lib.Mealy
import TienKung.Util.LockFreeQueue

/-!
# Activation of the response passages

On the first call for its response passage a CANopen motor sends an empty frame
with its response id. Eyou remembers that in each device object. ZeroErr keeps
it in a local `static` of `OnRequest`, one for all objects: the first motor is
activated and no other one.

The first `OnRequest` starts the thread that pends requests; here they may be
pended at any time.
-/

namespace TienKung

-- ---------------------------------------------------------------------------
-- Requests
-- ---------------------------------------------------------------------------

structure CanopenConfig where
  passageReq : Int
  passageResp : Int
  id : UInt16
  deriving DecidableEq

/-- The device objects of one class, with the `static` of its `OnRequest`. -/
structure Requesters where
  /-- ZeroErr. -/
  send : Bool
  /-- Eyou, of each object. -/
  passageRespNotActive : Nat → Bool
  reqQueue : Nat → LockFreeQueue DeviceMessage

def Requesters.create : Requesters := ⟨true, fun _ => true, fun _ => .new⟩

def Requesters.notActive (s : Requesters) (dev : Nat) : Driver → Bool
  | .zeroErr => s.send
  | .eyou => s.passageRespNotActive dev

def Requesters.activate (s : Requesters) (dev : Nat) : Driver → Requesters
  | .zeroErr => { s with send := false }
  | .eyou => { s with
      passageRespNotActive := fun d => if d = dev then false else s.passageRespNotActive d }

inductive Wrote
  | response (dev : Nat) (msg : Option DeviceMessage)
  | request (dev : Nat) (msg : Option DeviceMessage)
  deriving DecidableEq

def CanopenConfig.activation (c : CanopenConfig) (slot : DeviceMessage) : DeviceMessage :=
  { slot with rtr := 0, id := Sdo.toResponseCanId c.id.toUInt32, dlc := 0 }

def Requesters.onRequest (drv : Driver) (c : CanopenConfig) (s : Requesters) (dev : Nat)
    (passage : Int) (slot : DeviceMessage) : Requesters × List Wrote :=
  if passage = c.passageResp then
    if s.notActive dev drv then (s.activate dev drv, [.response dev (some (c.activation slot))])
    else (s, [.response dev none])
  else if passage = c.passageReq then
    match (s.reqQueue dev).pop with
    | some (msg, queue) =>
      ({ s with reqQueue := fun d => if d = dev then queue else s.reqQueue d },
        [.request dev (some msg)])
    | none => (s, [.request dev none])
  else (s, [])

def Requesters.pendRequest (s : Requesters) (dev : Nat) (msg : DeviceMessage) : Requesters :=
  { s with reqQueue := fun d => if d = dev then (s.reqQueue d).push msg else s.reqQueue d }

inductive RequestCall
  | pendRequest (dev : Nat) (msg : DeviceMessage)
  | onRequest (dev : Nat) (passage : Int) (slot : DeviceMessage)
  deriving DecidableEq

def Requesters.step (drv : Driver) (motors : List CanopenConfig) :
    Mealy.Step Requesters RequestCall Wrote := fun s e =>
  match e with
  | .pendRequest dev msg => (s.pendRequest dev msg, [])
  | .onRequest dev passage slot =>
    match motors[dev]? with
    | some c => s.onRequest drv c dev passage slot
    | none => (s, [])

-- ---------------------------------------------------------------------------
-- What should be written
-- ---------------------------------------------------------------------------

def responses (dev : Nat) : List Wrote → List (Option DeviceMessage)
  | [] => []
  | .response d msg :: rest => if d = dev then msg :: responses dev rest else responses dev rest
  | .request .. :: rest => responses dev rest

def IsActivation (c : CanopenConfig) (msg : Option DeviceMessage) : Prop :=
  ∃ slot, msg = some (c.activation slot)

/-- The first one is the activation frame and no other writes anything. -/
def ActivatesOnce (c : CanopenConfig) : List (Option DeviceMessage) → Prop
  | [] => True
  | first :: rest => IsActivation c first ∧ ∀ msg ∈ rest, msg = none

def responder (motors : List CanopenConfig) : RequestCall → Option Nat
  | .pendRequest .. => none
  | .onRequest dev passage _ =>
    if motors[dev]?.any fun c => passage = c.passageResp then some dev else none

def written (drv : Driver) (motors : List CanopenConfig) (es : List RequestCall) : List Wrote :=
  Mealy.emitted (Requesters.step drv motors) .create es

-- ---------------------------------------------------------------------------
-- Steps
-- ---------------------------------------------------------------------------

variable {drv : Driver} {motors : List CanopenConfig} {s : Requesters} {e : RequestCall}
  {c : CanopenConfig}

/-- The motors whose calls clear one another's flag. -/
def Driver.shares (drv : Driver) (i j : Nat) : Prop :=
  match drv with
  | .zeroErr => True
  | .eyou => i = j

theorem notActive_activate_of_shares (h : drv.shares i j) :
    (s.activate i drv).notActive j drv = false := by
  cases drv with
  | zeroErr => rfl
  | eyou => exact if_pos (Eq.symm h)

theorem notActive_activate_of_not (h : ¬ drv.shares i j) :
    (s.activate i drv).notActive j drv = s.notActive j drv := by
  cases drv with
  | zeroErr => exact absurd trivial h
  | eyou => exact if_neg (Ne.symm h)

theorem responses_append (dev : Nat) (xs ys : List Wrote) :
    responses dev (xs ++ ys) = responses dev xs ++ responses dev ys := by
  induction xs with
  | nil => rfl
  | cons x xs ih =>
    cases x with
    | response d msg =>
      simp only [List.cons_append, responses, ih]
      split_ifs <;> rfl
    | request d msg => exact ih

theorem step_of_responder (drv : Driver) (s : Requesters) (h : responder motors e = some dev) :
    ∃ c slot, motors[dev]? = some c ∧ Requesters.step drv motors s e =
      if s.notActive dev drv then
        (s.activate dev drv, [.response dev (some (c.activation slot))])
      else (s, [.response dev none]) := by
  cases e with
  | pendRequest d msg => cases h
  | onRequest d passage slot =>
    simp only [responder] at h
    cases hc : motors[d]? with
    | none => simp [hc] at h
    | some c =>
      obtain ⟨hp, rfl⟩ : passage = c.passageResp ∧ d = dev := by simpa [hc] using h
      refine ⟨c, slot, hc, ?_⟩
      simp only [Requesters.step, hc, Requesters.onRequest, if_pos hp]

theorem notActive_reqQueue (queues : Nat → LockFreeQueue DeviceMessage) :
    ({ s with reqQueue := queues } : Requesters).notActive dev drv = s.notActive dev drv := by
  cases drv <;> rfl

theorem step_of_no_responder (drv : Driver) (s : Requesters) (h : responder motors e = none)
    (dev : Nat) :
    responses dev (Requesters.step drv motors s e).2 = [] ∧
      (Requesters.step drv motors s e).1.notActive dev drv = s.notActive dev drv := by
  cases e with
  | pendRequest d msg => exact ⟨rfl, notActive_reqQueue _⟩
  | onRequest d passage slot =>
    simp only [responder] at h
    cases hc : motors[d]? with
    | none =>
      simp only [Requesters.step, hc]
      exact ⟨rfl, trivial⟩
    | some c =>
      have hp : passage ≠ c.passageResp := by simpa [hc] using h
      simp only [Requesters.step, hc, Requesters.onRequest, if_neg hp]
      split_ifs with hreq
      · cases (s.reqQueue d).pop with
        | none => exact ⟨rfl, rfl⟩
        | some popped => exact ⟨rfl, notActive_reqQueue _⟩
      · exact ⟨rfl, rfl⟩

theorem step_of_other (h : responder motors e = some d) (hne : d ≠ dev) :
    responses dev (Requesters.step drv motors s e).2 = [] := by
  obtain ⟨c, slot, -, hs⟩ := step_of_responder drv s h
  rw [hs]
  split_ifs <;> exact if_neg hne

theorem step_silent (motors : List CanopenConfig) (e : RequestCall)
    (hdown : s.notActive dev drv = false) :
    (∀ msg ∈ responses dev (Requesters.step drv motors s e).2, msg = none) ∧
      (Requesters.step drv motors s e).1.notActive dev drv = false := by
  cases he : responder motors e with
  | none =>
    obtain ⟨hout, hflag⟩ := step_of_no_responder drv s he dev
    rw [hout]
    exact ⟨fun msg hm => absurd hm List.not_mem_nil, hflag.trans hdown⟩
  | some d =>
    obtain ⟨c, slot, -, hs⟩ := step_of_responder drv s he
    rw [hs]
    split_ifs with hup
    · have hne : d ≠ dev := by
        rintro rfl
        exact absurd (hup.symm.trans hdown) (by decide)
      refine ⟨by simp [responses, hne], ?_⟩
      by_cases hd : drv.shares d dev
      · exact notActive_activate_of_shares hd
      · exact (notActive_activate_of_not hd).trans hdown
    · refine ⟨fun msg hm => ?_, hdown⟩
      rw [responses] at hm
      split_ifs at hm
      · exact List.mem_singleton.mp hm
      · cases hm

-- ---------------------------------------------------------------------------
-- Runs
-- ---------------------------------------------------------------------------

theorem silent (hdown : s.notActive dev drv = false) (es : List RequestCall) :
    ∀ msg ∈ responses dev (Mealy.emitted (Requesters.step drv motors) s es), msg = none := by
  induction es generalizing s with
  | nil => intro msg hm; cases hm
  | cons e es ih =>
    intro msg hm
    obtain ⟨hout, hflag⟩ := step_silent motors e hdown
    rw [Mealy.emitted_cons, responses_append] at hm
    rcases List.mem_append.mp hm with hm | hm
    · exact hout msg hm
    · exact ih hflag msg hm

theorem responses_ne_nil (he : e ∈ es) (hd : responder motors e = some dev) :
    responses dev (Mealy.emitted (Requesters.step drv motors) s es) ≠ [] := by
  obtain ⟨before, after, rfl⟩ := List.append_of_mem he
  rw [Mealy.emitted_append, Mealy.emitted_cons, responses_append, responses_append]
  obtain ⟨c, slot, -, hs⟩ := step_of_responder drv
    (Mealy.final (Requesters.step drv motors) s before) hd
  rw [hs]
  split_ifs <;> simp [responses]

theorem activates (hup : s.notActive dev drv = true) (hc : motors[dev]? = some c)
    (hshared : ∀ e ∈ es, ∀ d ∈ responder motors e, drv.shares d dev → d = dev) :
    ActivatesOnce c (responses dev (Mealy.emitted (Requesters.step drv motors) s es)) := by
  induction es generalizing s with
  | nil => trivial
  | cons e es ih =>
    have hrest : ∀ e ∈ es, ∀ d ∈ responder motors e, drv.shares d dev → d = dev :=
      fun e' he' => hshared e' (List.mem_cons_of_mem _ he')
    rw [Mealy.emitted_cons, responses_append]
    cases he : responder motors e with
    | none =>
      obtain ⟨hout, hflag⟩ := step_of_no_responder drv s he dev
      rw [hout]
      exact ih (hflag.trans hup) hrest
    | some d =>
      obtain ⟨c', slot, hc', hs⟩ := step_of_responder drv s he
      by_cases hd : d = dev
      · subst hd
        obtain rfl : c = c' := Option.some.inj (hc.symm.trans hc')
        have hself : drv.shares d d := by cases drv <;> trivial
        rw [hs, if_pos hup, responses, if_pos rfl]
        exact ⟨⟨slot, rfl⟩, silent (notActive_activate_of_shares hself) es⟩
      · rw [step_of_other he hd]
        refine ih ?_ hrest
        rw [hs]
        split_ifs
        · have hnot : ¬ drv.shares d dev := fun h => hd (hshared e List.mem_cons_self d he h)
          exact (notActive_activate_of_not hnot).trans hup
        · exact hup

/-- A flag in each object: every motor sends its frame on its first call. -/
theorem eyou_activates (motors : List CanopenConfig) (es : List RequestCall)
    (hc : motors[dev]? = some c) : ActivatesOnce c (responses dev (written .eyou motors es)) :=
  activates rfl hc fun _ _ _ _ hshared => hshared

theorem responses_eq_nil (h : ∀ e ∈ es, ∀ d ∈ responder motors e, d ≠ dev) :
    responses dev (Mealy.emitted (Requesters.step drv motors) s es) = [] := by
  induction es generalizing s with
  | nil => rfl
  | cons e es ih =>
    have hfirst : responses dev (Requesters.step drv motors s e).2 = [] := by
      cases he : responder motors e with
      | none => exact (step_of_no_responder _ _ he dev).1
      | some d => exact step_of_other he (h e List.mem_cons_self d he)
    rw [Mealy.emitted_cons, responses_append, hfirst,
      ih fun e' he' => h e' (List.mem_cons_of_mem _ he')]
    rfl

theorem not_activatesOnce (hne : msgs ≠ []) (hnone : ∀ msg ∈ msgs, msg = none) :
    ¬ ActivatesOnce c msgs := by
  cases msgs with
  | nil => exact absurd rfl hne
  | cons first rest =>
    rintro ⟨⟨slot, hfirst⟩, -⟩
    rw [hnone first List.mem_cons_self] at hfirst
    cases hfirst

theorem one_responder (hup : s.send = true)
    (h : ∀ dev c, motors[dev]? = some c →
      ActivatesOnce c (responses dev (Mealy.emitted (Requesters.step .zeroErr motors) s es))) :
    ∃ dev, ∀ e ∈ es, ∀ d ∈ responder motors e, d = dev := by
  induction es generalizing s with
  | nil => exact ⟨0, fun e he => absurd he List.not_mem_nil⟩
  | cons e es ih =>
    cases he : responder motors e with
    | none =>
      obtain ⟨dev, hdev⟩ := ih (s := (Requesters.step .zeroErr motors s e).1)
        ((step_of_no_responder .zeroErr s he 0).2.trans hup) fun dev c hc => by
          have hwritten := h dev c hc
          rwa [Mealy.emitted_cons, responses_append,
            (step_of_no_responder _ _ he dev).1] at hwritten
      refine ⟨dev, fun e' he' d hd => ?_⟩
      rcases List.mem_cons.mp he' with rfl | he'
      · rw [he] at hd
        cases hd
      · exact hdev e' he' d hd
    | some first =>
      refine ⟨first, fun e' he' d hd => ?_⟩
      by_contra hne
      rcases List.mem_cons.mp he' with rfl | he'
      · exact hne (Option.some.inj (hd.symm.trans he))
      · obtain ⟨c, -, hc, -⟩ := step_of_responder .zeroErr s hd
        obtain ⟨c₁, slot, -, hs⟩ := step_of_responder .zeroErr s he
        have hwritten := h d c hc
        rw [Mealy.emitted_cons, responses_append, step_of_other he (Ne.symm hne), hs,
          if_pos (by exact hup)] at hwritten
        exact not_activatesOnce (responses_ne_nil he' hd) (silent rfl es) hwritten

/-- One flag in all objects: the frames go out as they should in the runs that
call for the response passage of one motor only. -/
theorem zeroErr_activates_iff (motors : List CanopenConfig) (es : List RequestCall) :
    (∀ dev c, motors[dev]? = some c →
      ActivatesOnce c (responses dev (written .zeroErr motors es))) ↔
    ∃ dev, ∀ e ∈ es, ∀ d ∈ responder motors e, d = dev := by
  refine ⟨fun h => one_responder rfl h, ?_⟩
  rintro ⟨only, honly⟩ dev c hc
  by_cases hd : dev = only
  · subst hd
    exact activates rfl hc fun e he d hresp _ => honly e he d hresp
  · have hnever : ∀ e ∈ es, ∀ d ∈ responder motors e, d ≠ dev :=
      fun e he d hresp h => hd (h.symm.trans (honly e he d hresp))
    rw [written, responses_eq_nil hnever]
    trivial

theorem zeroErr_shared_flag : ¬ ∀ (motors : List CanopenConfig) (es : List RequestCall) dev c,
    motors[dev]? = some c → ActivatesOnce c (responses dev (written .zeroErr motors es)) := by
  intro h
  have hsecond := h [⟨1, 2, 1⟩, ⟨1, 2, 2⟩]
    [.onRequest 0 2 .zero, .onRequest 1 2 .zero] 1 ⟨1, 2, 2⟩ rfl
  obtain ⟨⟨slot, hslot⟩, -⟩ := hsecond
  cases hslot

end TienKung
