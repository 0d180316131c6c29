import TienKung.FastRos.NodeHandle

/-!
# Callbacks that throw

`publish` looks up the topic and calls all its subscribers in one `try`. What a
callback throws ends the loop; a `std::exception` goes no further, anything else
leaves `publish`. Subscribers are told apart by their positions in the list.
-/

namespace TienKung.FastRos

inductive Outcome
  | returned
  | exception
  | other
  deriving DecidableEq

/-- `catch(std::exception& e) {}` -/
def Outcome.caught : Outcome → Outcome
  | .exception => .returned
  | outcome => outcome

variable {κ μ M V C : Type} {func : κ → μ → Outcome} {message : μ}

-- ---------------------------------------------------------------------------
-- The loop
-- ---------------------------------------------------------------------------

namespace FastConnection

/-- The positions of the subscribers called, counted from `i`, and how the loop ends. -/
def callEach (func : κ → μ → Outcome) (message : μ) : Nat → List (FunctionPair κ) →
    List Nat × Outcome
  | _, [] => ([], .returned)
  | i, fp :: rest =>
    match func fp.func message with
    | .returned =>
      let (called, outcome) := callEach func message (i + 1) rest
      (i :: called, outcome)
    | thrown => ([i], thrown)

/-- `at` throws on a topic without an entry, inside the same `try`. -/
def publishEach (func : κ → μ → Outcome) (c : FastConnection κ) (topic : String) (message : μ) :
    FastConnection κ × List Nat × Outcome :=
  let c := c.drain
  match c.atTopic topic with
  | none => (c, [], .returned)
  | some fps =>
    let (called, outcome) := callEach func message 0 fps
    (c, called, outcome.caught)

def Throws (func : κ → μ → Outcome) (message : μ) (fp : FunctionPair κ) : Prop :=
  func fp.func message ≠ .returned

instance (fp : FunctionPair κ) : Decidable (Throws func message fp) := by
  unfold Throws; infer_instance

def sound (func : κ → μ → Outcome) (message : μ) (fps : List (FunctionPair κ)) : Nat :=
  fps.findIdx fun fp => Throws func message fp

theorem callEach_returned {fp : FunctionPair κ} (h : func fp.func message = .returned) (i : Nat)
    (rest : List (FunctionPair κ)) : callEach func message i (fp :: rest) =
      (i :: (callEach func message (i + 1) rest).1, (callEach func message (i + 1) rest).2) := by
  simp only [callEach, h]

theorem callEach_throws {fp : FunctionPair κ} (h : Throws func message fp) (i : Nat)
    (rest : List (FunctionPair κ)) :
    callEach func message i (fp :: rest) = ([i], func fp.func message) := by
  unfold callEach
  split
  · contradiction
  · rfl

theorem callEach_called (i : Nat) (fps : List (FunctionPair κ)) :
    (callEach func message i fps).1 =
      List.range' i (min fps.length (sound func message fps + 1)) := by
  induction fps generalizing i with
  | nil => rfl
  | cons fp fps ih =>
    by_cases hfp : Throws func message fp
    · have hsound : sound func message (fp :: fps) = 0 := by simp [sound, List.findIdx_cons, hfp]
      rw [callEach_throws hfp, hsound, List.length_cons, Nat.zero_add, Nat.min_eq_right (by omega)]
      rfl
    · have hsound : sound func message (fp :: fps) = sound func message fps + 1 := by
        simp [sound, List.findIdx_cons, hfp]
      rw [callEach_returned (not_not.mp hfp), ih, hsound, List.length_cons, Nat.add_min_add_right,
        List.range'_succ]

theorem callEach_outcome (i : Nat) (fps : List (FunctionPair κ)) :
    (callEach func message i fps).2 =
      ((fps.find? fun fp => Throws func message fp).map (func ·.func message)).getD .returned := by
  induction fps generalizing i with
  | nil => rfl
  | cons fp fps ih =>
    by_cases hfp : Throws func message fp
    · simp [callEach_throws hfp, hfp]
    · simp [callEach_returned (not_not.mp hfp), ih, hfp]

theorem callAll_eq (i : Nat) (fps : List (FunctionPair κ)) :
    callAll (fun f message => ([f], decide (func f message ≠ .returned))) message fps =
      (fps.take (callEach func message i fps).1.length).map FunctionPair.func := by
  induction fps generalizing i with
  | nil => rfl
  | cons fp fps ih =>
    rw [callAll]
    by_cases hfp : Throws func message fp
    · have hne : func fp.func message ≠ .returned := hfp
      simp [callEach_throws hfp, hne]
    · have heq : func fp.func message = .returned := not_not.mp hfp
      rw [callEach_returned heq, List.length_cons, List.take_succ_cons, List.map_cons, ← ih]
      simp [heq]

theorem publishEach_eq (c : FastConnection κ) (topic : String) :
    c.publishEach func topic message =
      (c.drain, (callEach func message 0 (c.drain.subscribers topic)).1,
        (callEach func message 0 (c.drain.subscribers topic)).2.caught) := by
  cases h : c.drain.atTopic topic with
  | none => simp [publishEach, subscribers, h, callEach, Outcome.caught]
  | some fps => simp [publishEach, subscribers, h]

/-- What a publish does is what `publish` says, with the callbacks that throw ending it. -/
theorem publish_eq (c : FastConnection κ) (topic : String) :
    c.publish (fun f message => ([f], decide (func f message ≠ .returned))) topic message =
      ((c.publishEach func topic message).1,
        ((c.drain.subscribers topic).take (c.publishEach func topic message).2.1.length).map
          FunctionPair.func) := by
  rw [publish, callAll_eq 0, publishEach_eq]

-- ---------------------------------------------------------------------------
-- Who is served
-- ---------------------------------------------------------------------------

/-- The publish returns and has called some of the subscribers exactly once each. -/
def Serves (func : κ → μ → Outcome) (c : FastConnection κ) (topic : String) (message : μ)
    (owed : FunctionPair κ → Prop) : Prop :=
  (c.publishEach func topic message).2.2 = .returned ∧
    ∀ i fp, (c.drain.subscribers topic)[i]? = some fp → owed fp →
      (c.publishEach func topic message).2.1.count i = 1

/-- The first subscriber to throw, if any does, throws what `publish` catches. -/
def Caught (func : κ → μ → Outcome) (message : μ) (fps : List (FunctionPair κ)) : Prop :=
  ∀ fp, fps.find? (fun fp => Throws func message fp) = some fp →
    func fp.func message = .exception

theorem Outcome.caught_eq_returned {outcome : Outcome} (h : outcome ≠ .returned) :
    outcome.caught = .returned ↔ outcome = .exception := by
  cases outcome <;> simp_all [Outcome.caught]

theorem outcome_caught_iff (fps : List (FunctionPair κ)) :
    (callEach func message 0 fps).2.caught = .returned ↔ Caught func message fps := by
  rw [callEach_outcome, Caught]
  cases hfind : fps.find? fun fp => Throws func message fp with
  | none => simp [Outcome.caught]
  | some fp =>
    have hthrows : Throws func message fp := by simpa using List.find?_some hfind
    simpa using Outcome.caught_eq_returned hthrows

theorem le_sound_iff {fps : List (FunctionPair κ)} {i : Nat} (hi : i < fps.length) :
    i ≤ sound func message fps ↔ ∀ j (hj : j < i), ¬ Throws func message fps[j] := by
  constructor
  · intro hle j hj
    simpa using List.not_of_lt_findIdx (Nat.lt_of_lt_of_le hj hle)
  · intro h
    exact List.le_findIdx_of_not hi fun j hj => by simpa using h j hj

theorem called_once_iff {fps : List (FunctionPair κ)} {i : Nat} (hi : i < fps.length) :
    (callEach func message 0 fps).1.count i = 1 ↔
      ∀ j (hj : j < i), ¬ Throws func message fps[j] := by
  rw [callEach_called, List.count_range_1', ← le_sound_iff hi]
  split <;> omega

theorem serves_iff (c : FastConnection κ) (topic : String) (owed : FunctionPair κ → Prop) :
    c.Serves func topic message owed ↔
      Caught func message (c.drain.subscribers topic) ∧
        (c.drain.subscribers topic).Pairwise fun fp later => owed later →
          ¬ Throws func message fp := by
  rw [Serves, publishEach_eq, outcome_caught_iff]
  refine and_congr_right fun _ => ?_
  rw [List.pairwise_iff_getElem]
  constructor
  · intro h i j hi hj hlt howed
    exact (called_once_iff hj).mp (h j _ (List.getElem?_eq_getElem hj) howed) i hlt
  · intro h j fp hfp howed
    obtain ⟨hj, rfl⟩ := List.getElem?_eq_some_iff.mp hfp
    exact (called_once_iff hj).mpr fun i hi => h i j (Nat.lt_trans hi hj) hj hi howed

/-- The subscribers that do not throw are all served when none of them comes after one that
does; those that throw are too when only the last subscriber does. -/
theorem publish_isolates_iff (func : κ → μ → Outcome) (c : FastConnection κ) (topic : String)
    (message : μ) :
    let fps := c.drain.subscribers topic
    (c.Serves func topic message (fun fp => ¬ Throws func message fp) ↔
      Caught func message fps ∧
        fps.Pairwise fun fp later => Throws func message fp → Throws func message later) ∧
    (c.Serves func topic message (fun _ => True) ↔
      Caught func message fps ∧ fps.Pairwise fun fp _ => ¬ Throws func message fp) := by
  intro fps
  rw [serves_iff, serves_iff]
  refine ⟨and_congr_right fun _ => ?_, by simp [fps]⟩
  refine List.pairwise_iff_getElem.trans (Iff.trans ?_ List.pairwise_iff_getElem.symm)
  exact forall₅_congr fun i j hi hj _ => not_imp_not

end FastConnection

-- ---------------------------------------------------------------------------
-- Wrapped callbacks
-- ---------------------------------------------------------------------------

variable [DecidableEq M] {behaves : C → V → Outcome}

/-- The wrapper `subscribe` registers; its `any_cast` throws a `bad_any_cast`. -/
def OnMessage.outcome (behaves : C → V → Outcome) (f : OnMessage M C) (any : Any M V) : Outcome :=
  if any.type = f.type then behaves f.callback any.message else .exception

theorem OnMessage.throws_iff (any : Any M V) (fp : FunctionPair (OnMessage M C)) :
    FastConnection.Throws (OnMessage.outcome behaves) any fp ↔
      fp.func.Stops (fun callback message => behaves callback message ≠ .returned) any := by
  by_cases h : any.type = fp.func.type <;>
    simp [FastConnection.Throws, OnMessage.outcome, OnMessage.Stops, h]

/-- Two subscribers of two message types: the second never hears its own. -/
theorem not_isolates_mistyped :
    let p := (Process.start (M := Bool)).subscribe 0 "imu" false () fastRos
    let conn := (p.1.subscribe 0 "imu" true () fastRos).1.conn
    let func := OnMessage.outcome fun () (_ : Nat) => .returned
    ¬ conn.Serves func "imu" ⟨true, 7⟩ fun fp => ¬ FastConnection.Throws func ⟨true, 7⟩ fp := by
  intro p conn func h
  have honce := h.2 1 ⟨2, 1, true, ()⟩ rfl (by decide)
  exact absurd honce (by decide)

end TienKung.FastRos
