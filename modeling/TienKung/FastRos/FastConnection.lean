import TienKung.Lib.Mealy
import TienKung.Util.LockFreeQueue
import Mathlib.Data.List.Nodup
import Mathlib.Logic.Function.Basic

/-!
# `FastConnection`

Subscribers are kept in matrices behind shared pointers. `subscribe` copies the
last matrix, a shutdown closure erases from it in place; both hand it to the
publisher through a queue, and `publish` calls what the last one it took over
holds under the topic. A shared pointer is the position of its matrix among
those made so far, so two pointers to one matrix are seen to be one.
-/

namespace TienKung.FastRos

structure FunctionPair (κ : Type) where
  id : UInt32
  func : κ
  deriving DecidableEq

/-- `at` throws on a topic without an entry. -/
abbrev SubscriberMatrix (κ : Type) := String → Option (List (FunctionPair κ))

structure FastConnection (κ : Type) where
  matrices : List (SubscriberMatrix κ)
  subsCurrent : Option Nat
  subsLast : Nat
  queueSubs : LockFreeQueue Nat
  idGen : UInt32

structure Shutdown where
  topic : String
  id : UInt32
  deriving DecidableEq

namespace FastConnection

variable {κ μ ω : Type}

def new : FastConnection κ := ⟨[fun _ => none], none, 0, .new, 0⟩

def matrix (c : FastConnection κ) (p : Nat) : SubscriberMatrix κ := c.matrices.getD p fun _ => none

-- ---------------------------------------------------------------------------
-- subscribe
-- ---------------------------------------------------------------------------

def subscribe (c : FastConnection κ) (topic : String) (func : κ) : FastConnection κ × Shutdown :=
  let last := c.matrix c.subsLast
  let id := c.idGen + 1
  let subs := (last topic).getD [] ++ [⟨id, func⟩]
  let subsLastNew := c.matrices.length
  ({ c with
    matrices := c.matrices ++ [Function.update last topic (some subs)]
    subsLast := subsLastNew
    queueSubs := c.queueSubs.push subsLastNew
    idGen := id }, ⟨topic, id⟩)

def shutdown (c : FastConnection κ) (s : Shutdown) : FastConnection κ :=
  let last := c.matrix c.subsLast
  match last s.topic with
  | none => c
  | some fps =>
    if fps.any fun fp => fp.id = s.id then { c with
      matrices := c.matrices.set c.subsLast
        (Function.update last s.topic (some (fps.eraseP fun fp => fp.id = s.id)))
      queueSubs := c.queueSubs.push c.subsLast }
    else c

-- ---------------------------------------------------------------------------
-- publish
-- ---------------------------------------------------------------------------

/-- One round of the loop over the queue; nothing once it is empty. -/
def takeOver (c : FastConnection κ) : Option (FastConnection κ) :=
  c.queueSubs.pop.map fun (p, q) => { c with subsCurrent := some p, queueSubs := q }

def takeOvers : Nat → FastConnection κ → FastConnection κ
  | 0, c => c
  | n + 1, c => match c.takeOver with
    | none => c
    | some c => takeOvers n c

/-- The whole loop, one round for each matrix in the queue. -/
def drain (c : FastConnection κ) : FastConnection κ := takeOvers c.queueSubs.toList.length c

/-- `subsCurrent->at(topic)`; nothing where it throws or there is no matrix yet. -/
def atTopic (c : FastConnection κ) (topic : String) : Option (List (FunctionPair κ)) :=
  c.subsCurrent.bind fun p => c.matrix p topic

def subscribers (c : FastConnection κ) (topic : String) : List (FunctionPair κ) :=
  (c.atTopic topic).getD []

/-- The loop over the subscribers. What a callback does is a parameter, with whether it
throws, which ends the loop. -/
def callAll (invoke : κ → μ → List ω × Bool) (message : μ) : List (FunctionPair κ) → List ω
  | [] => []
  | fp :: rest =>
    let (out, throws) := invoke fp.func message
    if throws then out else out ++ callAll invoke message rest

def publish (invoke : κ → μ → List ω × Bool) (c : FastConnection κ) (topic : String) (message : μ) :
    FastConnection κ × List ω :=
  let c := c.drain
  (c, callAll invoke message (c.subscribers topic))

-- ---------------------------------------------------------------------------
-- The last matrix
-- ---------------------------------------------------------------------------

section
variable {c : FastConnection κ}

theorem matrix_subscribe (topic : String) (func : κ) :
    (c.subscribe topic func).1.matrix (c.subscribe topic func).1.subsLast =
      Function.update (c.matrix c.subsLast) topic
        (some ((c.matrix c.subsLast topic).getD [] ++ [⟨c.idGen + 1, func⟩])) := by
  simp [subscribe, matrix]

theorem matrix_subscribe_lt (topic : String) (func : κ) {p : Nat} (hp : p < c.matrices.length) :
    (c.subscribe topic func).1.matrix p = c.matrix p := by
  simp [subscribe, matrix, List.getElem?_append_left hp]

def Removes (c : FastConnection κ) (s : Shutdown) : Prop :=
  ∃ fp ∈ (c.matrix c.subsLast s.topic).getD [], fp.id = s.id

instance (c : FastConnection κ) (s : Shutdown) : Decidable (c.Removes s) := by
  unfold Removes; infer_instance

theorem shutdown_of_not_removes {s : Shutdown} (h : ¬ c.Removes s) : c.shutdown s = c := by
  unfold shutdown
  cases hfps : c.matrix c.subsLast s.topic with
  | none => simp [hfps]
  | some fps =>
    have hany : (fps.any fun fp => fp.id = s.id) = false := by
      rw [Removes, hfps] at h
      simpa using h
    simp [hfps, hany]

theorem shutdown_of_removes {s : Shutdown} (h : c.Removes s) :
    c.shutdown s = { c with
      matrices := c.matrices.set c.subsLast (Function.update (c.matrix c.subsLast) s.topic
        (some (((c.matrix c.subsLast s.topic).getD []).eraseP fun fp => fp.id = s.id)))
      queueSubs := c.queueSubs.push c.subsLast } := by
  unfold shutdown
  cases hfps : c.matrix c.subsLast s.topic with
  | none => simp [Removes, hfps] at h
  | some fps =>
    have hany : (fps.any fun fp => fp.id = s.id) = true := by
      rw [Removes, hfps] at h
      simpa using h
    simp [hfps, hany]

theorem matrix_shutdown {s : Shutdown} (h : c.Removes s) (hlast : c.subsLast < c.matrices.length)
    (p : Nat) : (c.shutdown s).matrix p =
      if p = c.subsLast then Function.update (c.matrix p) s.topic
        (some (((c.matrix p s.topic).getD []).eraseP fun fp => fp.id = s.id))
      else c.matrix p := by
  rw [shutdown_of_removes h]
  by_cases hp : p = c.subsLast
  · subst hp
    simp [matrix, hlast]
  · simp [matrix, hp, List.getElem?_set_ne (Ne.symm hp)]

end

-- ---------------------------------------------------------------------------
-- The loop over the queue
-- ---------------------------------------------------------------------------

def latest (c : FastConnection κ) : Option Nat := c.queueSubs.toList.getLast?.or c.subsCurrent

section
variable {c : FastConnection κ}

theorem takeOver_none (h : c.queueSubs.toList = []) : c.takeOver = none := by
  rw [takeOver, LockFreeQueue.pop_of_nil h]
  rfl

theorem takeOver_some (h : c.queueSubs.toList = p :: rest) : ∃ q : LockFreeQueue Nat,
    q.toList = rest ∧ c.takeOver = some { c with subsCurrent := some p, queueSubs := q } := by
  obtain ⟨q, hq, hrest⟩ := LockFreeQueue.pop_of_cons h
  exact ⟨q, hrest, by rw [takeOver, hq]; rfl⟩

theorem latest_push {q : LockFreeQueue Nat} (h : c.queueSubs = q.push p) : c.latest = some p := by
  simp [latest, h]

/-- The loop empties the queue and keeps its last matrix. -/
theorem drain_eq (c : FastConnection κ) : ∃ q : LockFreeQueue Nat, q.toList = [] ∧
    c.drain = { c with subsCurrent := c.latest, queueSubs := q } := by
  unfold drain
  generalize hn : c.queueSubs.toList.length = n
  induction n generalizing c with
  | zero =>
    have hnil : c.queueSubs.toList = [] := List.eq_nil_of_length_eq_zero hn
    exact ⟨c.queueSubs, hnil, by simp [takeOvers, latest, hnil]⟩
  | succ n ih =>
    obtain ⟨p, rest, hq⟩ := List.exists_cons_of_length_eq_add_one hn
    obtain ⟨q, hrest, htake⟩ := takeOver_some hq
    obtain ⟨q', hnil, hdrain⟩ := ih { c with subsCurrent := some p, queueSubs := q } (by
      rw [hq] at hn
      simpa [hrest] using hn)
    refine ⟨q', hnil, ?_⟩
    rw [takeOvers, htake]
    refine hdrain.trans ?_
    simp [latest, hq, hrest, List.getLast?_cons]

end

end FastConnection

end TienKung.FastRos
