import TienKung.FastRos.Delivery

/-!
# `NodeHandle`, `Publisher` and `Subscriber`

`subscribe` wraps a callback in an `any_cast`, registers the wrapper with the
process's one connection under the topic as written, and returns a `Subscriber`
of which it sets nothing that concerns the fast path: the closure is dropped and
the type stays uninitialised. `advertise` builds the key of a topic itself.

A callback may throw, and so does the cast of a message of another type; either
ends the publish.
-/

namespace TienKung.FastRos

variable {M V C : Type} [DecidableEq M] {throws : C → V → Bool}

-- ---------------------------------------------------------------------------
-- Connection types
-- ---------------------------------------------------------------------------

def fastRos : UInt32 := 0x01
def nativeRos : UInt32 := 0x02

def Has (type flag : UInt32) : Prop := type &&& flag ≠ 0

instance (type flag : UInt32) : Decidable (Has type flag) := by unfold Has; infer_instance

-- ---------------------------------------------------------------------------
-- Callbacks
-- ---------------------------------------------------------------------------

/-- A `std::any` that holds a shared pointer to a message. -/
structure Any (M V : Type) where
  type : M
  message : V
  deriving DecidableEq

/-- The function registered with the connection, numbered by the calls of `subscribe`. -/
structure OnMessage (M C : Type) where
  serial : Nat
  type : M
  callback : C

def OnMessage.call (throws : C → V → Bool) (f : OnMessage M C) (any : Any M V) :
    List (Nat × V) × Bool :=
  if any.type = f.type then ([(f.serial, any.message)], throws f.callback any.message)
  else ([], true)

def OnMessage.Stops (throws : C → V → Bool) (any : Any M V) (f : OnMessage M C) : Prop :=
  any.type = f.type → throws f.callback any.message = true

instance (any : Any M V) (f : OnMessage M C) : Decidable (f.Stops throws any) := by
  unfold OnMessage.Stops; infer_instance

-- ---------------------------------------------------------------------------
-- Subscriptions
-- ---------------------------------------------------------------------------

structure Subscriber where
  type : UInt32
  funcShutdown : Option Shutdown
  subRos : Bool
  deriving DecidableEq

/-- Nothing where an empty `funcShutdown` throws. -/
def Subscriber.shutdown {κ : Type} (sub : Subscriber) (conn : FastConnection κ) :
    Option (FastConnection κ × Subscriber) :=
  let called := if Has sub.type fastRos then sub.funcShutdown.map conn.shutdown else some conn
  called.map fun conn =>
    (conn, if Has sub.type nativeRos then { sub with subRos := false } else sub)

/-- The connection and the number of calls of `subscribe` so far. -/
structure Process (M C : Type) where
  conn : FastConnection (OnMessage M C)
  calls : Nat

def Process.start : Process M C := ⟨.new, 0⟩

/-- `garbage` is what the uninitialised `type` holds. -/
def Process.subscribe (p : Process M C) (garbage : UInt32) (topic : String) (messageType : M)
    (callback : C) (type : UInt32) : Process M C × Subscriber :=
  let conn := if Has type fastRos
    then (p.conn.subscribe topic ⟨p.calls, messageType, callback⟩).1 else p.conn
  (⟨conn, p.calls + 1⟩, ⟨garbage, none, Has type nativeRos⟩)

inductive NodeCall (M V C : Type)
  | subscribe (topic : String) (messageType : M) (callback : C) (type : UInt32)
  /-- `funcPubFast` of a publisher with this key. -/
  | publish (nsTopic : String) (any : Any M V)

def Process.step (throws : C → V → Bool) : Mealy.Step (Process M C) (NodeCall M V C) (Nat × V)
  | p, .subscribe topic messageType callback type =>
    ((p.subscribe 0 topic messageType callback type).1, [])
  | p, .publish nsTopic any =>
    let (conn, calls) := p.conn.publish (OnMessage.call throws) nsTopic any
    ({ p with conn := conn }, calls)

/-- The fast subscriptions made by a list of calls, the first one numbered `calls`. -/
def subscribed (calls : Nat) : List (NodeCall M V C) → List (String × OnMessage M C)
  | [] => []
  | .subscribe topic messageType callback type :: rest =>
    (if Has type fastRos then [(topic, ⟨calls, messageType, callback⟩)] else []) ++
      subscribed (calls + 1) rest
  | .publish .. :: rest => subscribed calls rest

def under (topic : String) (subs : List (String × OnMessage M C)) : List (OnMessage M C) :=
  (subs.filter (·.1 = topic)).map Prod.snd

def received (serial : Nat) (calls : List (Nat × V)) : List V :=
  (calls.filter (·.1 = serial)).map Prod.snd

-- ---------------------------------------------------------------------------
-- A publish
-- ---------------------------------------------------------------------------

theorem OnMessage.call_snd (any : Any M V) (f : OnMessage M C) :
    (f.call throws any).2 = true ↔ f.Stops throws any := by
  by_cases h : any.type = f.type <;> simp [call, Stops, h]

@[simp] theorem received_append (serial : Nat) (calls calls' : List (Nat × V)) :
    received serial (calls ++ calls') = received serial calls ++ received serial calls' := by
  simp [received]

variable (throws) in
theorem received_call_ne (any : Any M V) {f : OnMessage M C} {serial : Nat}
    (h : f.serial ≠ serial) : received serial (f.call throws any).1 = [] := by
  unfold OnMessage.call
  split <;> simp [received, h]

variable (throws) in
theorem received_callAll_none (any : Any M V) {fps : List (FunctionPair (OnMessage M C))}
    {serial : Nat} (h : ∀ fp ∈ fps, fp.func.serial ≠ serial) :
    received serial (FastConnection.callAll (OnMessage.call throws) any fps) = [] := by
  induction fps with
  | nil => rfl
  | cons fp fps ih =>
    have hfp := received_call_ne throws any (h fp List.mem_cons_self)
    have hrest := ih fun q hq => h q (List.mem_cons_of_mem _ hq)
    simp only [FastConnection.callAll]
    split <;> simp [hfp, hrest]

theorem received_callAll (any : Any M V) {fps : List (FunctionPair (OnMessage M C))}
    {pre post : List (OnMessage M C)} {f : OnMessage M C}
    (hfps : fps.map FunctionPair.func = pre ++ f :: post)
    (hpre : ∀ q ∈ pre, q.serial ≠ f.serial) (hpost : ∀ q ∈ post, q.serial ≠ f.serial) :
    received f.serial (FastConnection.callAll (OnMessage.call throws) any fps) =
      if any.type = f.type ∧ ∀ q ∈ pre, ¬ q.Stops throws any then [any.message] else [] := by
  induction fps generalizing pre with
  | nil => simp at hfps
  | cons fp fps ih =>
    cases pre with
    | nil =>
      obtain ⟨rfl, hrest⟩ := List.cons.inj hfps
      have hnone := received_callAll_none throws any fun q (hq : q ∈ fps) =>
        hpost q.func (hrest ▸ List.mem_map_of_mem hq)
      have hcall : received fp.func.serial (fp.func.call throws any).1 =
          if any.type = fp.func.type then [any.message] else [] := by
        unfold OnMessage.call
        split <;> simp [received]
      simp only [FastConnection.callAll]
      split <;> simp [hcall, hnone]
    | cons q pre =>
      obtain ⟨rfl, hrest⟩ := List.cons.inj hfps
      have hq := received_call_ne throws any (hpre fp.func List.mem_cons_self)
      have hrec := ih hrest fun q hq => hpre q (List.mem_cons_of_mem _ hq)
      simp only [FastConnection.callAll]
      by_cases hstop : fp.func.Stops throws any
      · simp [(OnMessage.call_snd any fp.func).mpr hstop, hq, hstop]
      · have hgo : (fp.func.call throws any).2 ≠ true := mt (OnMessage.call_snd any fp.func).mp hstop
        simp [hgo, hq, hrec, hstop]

-- ---------------------------------------------------------------------------
-- What is registered
-- ---------------------------------------------------------------------------

/-- The connection holds the fast subscriptions made so far, numbered in order. -/
structure Process.Holds (p : Process M C) (subs : List (String × OnMessage M C)) : Prop where
  registry : ∃ closures r, Agrees p.conn closures r ∧
    r.live.map (fun s => (s.topic, s.func)) = subs
  below : ∀ sub ∈ subs, sub.2.serial < p.calls

omit [DecidableEq M] in
theorem holds_start : Process.start.Holds ([] : List (String × OnMessage M C)) where
  registry := ⟨[], {}, agrees_new, rfl⟩
  below sub hsub := by cases hsub

section
variable {p : Process M C} {subs : List (String × OnMessage M C)}

omit [DecidableEq M] in
theorem Process.Holds.subscribe (h : p.Holds subs) (garbage : UInt32) (topic : String)
    (messageType : M) (callback : C) (type : UInt32) :
    (p.subscribe garbage topic messageType callback type).1.Holds (subs ++
      if Has type fastRos then [(topic, ⟨p.calls, messageType, callback⟩)] else []) := by
  obtain ⟨closures, r, hagrees, hsubs⟩ := h.registry
  by_cases ht : Has type fastRos
  · simp only [Process.subscribe, if_pos ht]
    refine ⟨⟨_, _, hagrees.subscribe topic _, by simp [hsubs]⟩, fun sub hsub => ?_⟩
    rcases List.mem_append.mp hsub with hsub | hsub
    · exact Nat.lt_succ_of_lt (h.below sub hsub)
    · rw [List.mem_singleton.mp hsub]
      exact Nat.lt_succ_self _
  · simp only [Process.subscribe, if_neg ht, List.append_nil]
    exact ⟨⟨closures, r, hagrees, hsubs⟩, fun sub hsub => Nat.lt_succ_of_lt (h.below sub hsub)⟩

variable (throws) in
theorem Process.Holds.publish (h : p.Holds subs) (nsTopic : String) (any : Any M V) :
    (p.step throws (.publish nsTopic any)).1.Holds subs ∧
      ∃ fps, fps.map FunctionPair.func = under nsTopic subs ∧
        (p.step throws (.publish nsTopic any)).2 =
          FastConnection.callAll (OnMessage.call throws) any fps := by
  obtain ⟨closures, r, hagrees, hsubs⟩ := h.registry
  obtain ⟨hdrain, hsubscribers⟩ := hagrees.drain
  refine ⟨⟨⟨closures, r, hdrain, hsubs⟩, h.below⟩, _, ?_, rfl⟩
  rw [hsubscribers, ← hsubs]
  simp [entries, under, List.filter_map, Function.comp_def]

theorem Process.Holds.run (h : p.Holds subs) (calls : List (NodeCall M V C)) :
    (Mealy.final (Process.step throws) p calls).Holds (subs ++ subscribed p.calls calls) := by
  induction calls generalizing p subs with
  | nil => simpa [subscribed] using h
  | cons call calls ih =>
    cases call with
    | subscribe topic messageType callback type =>
      have hrec := ih (h.subscribe 0 topic messageType callback type)
      rw [List.append_assoc] at hrec
      exact hrec
    | publish nsTopic any => exact ih (h.publish throws nsTopic any).1

end

-- ---------------------------------------------------------------------------
-- What a subscription receives
-- ---------------------------------------------------------------------------

structure Process.Subscribed (p : Process M C) (pre : List (String × OnMessage M C))
    (topic : String) (f : OnMessage M C) : Prop where
  holds : ∃ post, p.Holds (pre ++ (topic, f) :: post) ∧ ∀ sub ∈ post, sub.2.serial ≠ f.serial
  pre : ∀ sub ∈ pre, sub.2.serial ≠ f.serial

/-- What a call makes the subscription receive. -/
def reach (throws : C → V → Bool) (topic : String) (f : OnMessage M C) (pre : List (OnMessage M C)) :
    NodeCall M V C → List V
  | .subscribe .. => []
  | .publish nsTopic any =>
    if nsTopic = topic ∧ any.type = f.type ∧ ∀ q ∈ pre, ¬ q.Stops throws any then [any.message]
    else []

section
variable {p : Process M C} {pre : List (String × OnMessage M C)} {topic : String}
  {f : OnMessage M C}

theorem reach_publish_eq_nil {pre : List (OnMessage M C)} (any : Any M V) :
    reach throws topic f pre (.publish topic any) = [] ↔
      (any.type = f.type → ∃ q ∈ pre, q.Stops throws any) := by
  simp only [reach, true_and, ite_eq_right_iff, List.cons_ne_nil, imp_false, not_and, not_forall,
    not_not, exists_prop]

omit [DecidableEq M] in
theorem mem_under {topic : String} {subs : List (String × OnMessage M C)} {q : OnMessage M C}
    (h : q ∈ under topic subs) : (topic, q) ∈ subs := by
  obtain ⟨sub, hsub, rfl⟩ := List.mem_map.mp h
  obtain ⟨hmem, htopic⟩ := List.mem_filter.mp hsub
  rw [← of_decide_eq_true htopic]
  exact hmem

variable (throws) in
theorem Process.Subscribed.publish (h : p.Subscribed pre topic f) (nsTopic : String)
    (any : Any M V) :
    (p.step throws (.publish nsTopic any)).1.Subscribed pre topic f ∧
      received f.serial (p.step throws (.publish nsTopic any)).2 =
        reach throws topic f (under topic pre) (.publish nsTopic any) := by
  obtain ⟨⟨post, hholds, hpost⟩, hpre⟩ := h
  obtain ⟨hholds', fps, hfps, hout⟩ := hholds.publish throws nsTopic any
  refine ⟨⟨⟨post, hholds', hpost⟩, hpre⟩, ?_⟩
  rw [hout, reach]
  by_cases ht : nsTopic = topic
  · subst ht
    have hunder : under nsTopic (pre ++ (nsTopic, f) :: post) =
        under nsTopic pre ++ f :: under nsTopic post := by simp [under]
    rw [hunder] at hfps
    rw [received_callAll any hfps (fun q hq => hpre _ (mem_under hq))
      fun q hq => hpost _ (mem_under hq)]
    simp
  · rw [if_neg fun hreach => ht hreach.1]
    refine received_callAll_none throws any fun fp hfp => ?_
    have hmem := mem_under (hfps ▸ List.mem_map_of_mem hfp)
    rcases List.mem_append.mp hmem with hmem | hmem
    · exact hpre _ hmem
    · rcases List.mem_cons.mp hmem with heq | hmem
      · exact absurd (congrArg Prod.fst heq) ht
      · exact hpost _ hmem

omit [DecidableEq M] in
theorem Process.Subscribed.subscribe (h : p.Subscribed pre topic f) (garbage : UInt32)
    (topic' : String) (messageType : M) (callback : C) (type : UInt32) :
    (p.subscribe garbage topic' messageType callback type).1.Subscribed pre topic f := by
  obtain ⟨⟨post, hholds, hpost⟩, hpre⟩ := h
  have hnew := hholds.subscribe garbage topic' messageType callback type
  have hlt : f.serial < p.calls := hholds.below (topic, f) (by simp)
  rw [List.append_assoc, List.cons_append] at hnew
  refine ⟨⟨_, hnew, fun sub hsub => ?_⟩, hpre⟩
  rcases List.mem_append.mp hsub with hsub | hsub
  · exact hpost sub hsub
  · split_ifs at hsub
    · rw [List.mem_singleton.mp hsub]
      exact Nat.ne_of_gt hlt
    · cases hsub

variable (throws) in
theorem Process.Subscribed.run (h : p.Subscribed pre topic f) (calls : List (NodeCall M V C)) :
    (Mealy.final (Process.step throws) p calls).Subscribed pre topic f ∧
      received f.serial (Mealy.emitted (Process.step throws) p calls) =
        calls.flatMap (reach throws topic f (under topic pre)) := by
  induction calls generalizing p with
  | nil => exact ⟨h, rfl⟩
  | cons call calls ih =>
    rw [Mealy.emitted_cons, Mealy.final_cons, received_append, List.flatMap_cons]
    cases call with
    | subscribe topic' messageType callback type =>
      obtain ⟨hfinal, hrec⟩ := ih (h.subscribe 0 topic' messageType callback type)
      exact ⟨hfinal, hrec⟩
    | publish nsTopic any =>
      obtain ⟨hnext, hout⟩ := h.publish throws nsTopic any
      obtain ⟨hfinal, hrec⟩ := ih hnext
      exact ⟨hfinal, by rw [hout, hrec]⟩

omit [DecidableEq M] in
theorem Process.Holds.subscribed (h : p.Holds pre) (garbage : UInt32) (topic : String)
    (messageType : M) (callback : C) {type : UInt32} (ht : Has type fastRos) :
    (p.subscribe garbage topic messageType callback type).1.Subscribed pre topic
      ⟨p.calls, messageType, callback⟩ := by
  have hnew := h.subscribe garbage topic messageType callback type
  rw [if_pos ht] at hnew
  exact ⟨⟨[], hnew, by simp⟩, fun sub hsub => Nat.ne_of_lt (h.below sub hsub)⟩

end

-- ---------------------------------------------------------------------------
-- Shutdown
-- ---------------------------------------------------------------------------

def others (serial : Nat) (conn : FastConnection (OnMessage M C)) (topic : String) :
    List (FunctionPair (OnMessage M C)) :=
  ((conn.matrix conn.subsLast topic).getD []).filter (·.func.serial ≠ serial)

/-- `shutdown` returns, the subscription receives nothing of the calls after it, and the
others are as they were. -/
def Subscriber.Detaches (throws : C → V → Bool) (sub : Subscriber) (serial : Nat)
    (p : Process M C) (after : List (NodeCall M V C)) : Prop :=
  ∃ conn sub', sub.shutdown p.conn = some (conn, sub') ∧
    received serial (Mealy.emitted (Process.step throws) { p with conn := conn } after) = [] ∧
    ∀ topic, others serial conn topic = others serial p.conn topic

omit [DecidableEq M] in
/-- Whatever `shutdown` does, it does not do to the connection. -/
theorem shutdown_subscribe (p : Process M C) (garbage : UInt32) (topic : String) (messageType : M)
    (callback : C) (type : UInt32) (conn : FastConnection (OnMessage M C)) :
    ((p.subscribe garbage topic messageType callback type).2.shutdown conn).map Prod.fst =
      if Has garbage fastRos then none else some conn := by
  by_cases h : Has garbage fastRos <;> simp [Process.subscribe, Subscriber.shutdown, h]

/-- A `Subscriber` shuts down as meant only by luck: with the fast bit missing from its
uninitialised type and no message getting through to it any more. -/
theorem subscriber_detaches_iff (throws : C → V → Bool) (before between after : List (NodeCall M V C))
    (garbage : UInt32) (topic : String) (messageType : M) (callback : C) (type : UInt32)
    (ht : Has type fastRos) :
    let p := Mealy.final (Process.step throws) .start before
    let q := p.subscribe garbage topic messageType callback type
    q.2.Detaches throws p.calls (Mealy.final (Process.step throws) q.1 between) after ↔
      ¬ Has garbage fastRos ∧ ∀ any, .publish topic any ∈ after → any.type = messageType →
        ∃ f ∈ under topic (subscribed 0 before), f.Stops throws any := by
  have hholds : (Mealy.final (Process.step throws) .start before).Holds (subscribed 0 before) := by
    exact holds_start.run before
  generalize Mealy.final (Process.step throws) .start before = p at hholds
  intro p' q
  have hmid := ((hholds.subscribed garbage topic messageType callback ht).run throws between).1
  have hreach : received p.calls (Mealy.emitted (Process.step throws)
      (Mealy.final (Process.step throws) q.1 between) after) = [] ↔
      ∀ any, .publish topic any ∈ after → any.type = messageType →
        ∃ f ∈ under topic (subscribed 0 before), f.Stops throws any := by
    rw [(hmid.run throws after).2, List.flatMap_eq_nil_iff]
    constructor
    · exact fun hnone any hmem => (reach_publish_eq_nil any).mp (hnone _ hmem)
    · intro hall call hmem
      cases call with
      | subscribe => rfl
      | publish nsTopic any =>
        by_cases ht : nsTopic = topic
        · subst ht
          exact (reach_publish_eq_nil any).mpr (hall any hmem)
        · exact if_neg fun hreach => ht hreach.1
  rw [← hreach]
  generalize Mealy.final (Process.step throws) q.1 between = r
  have hshut := shutdown_subscribe p garbage topic messageType callback type r.conn
  constructor
  · rintro ⟨conn, sub', hsome, hnone, -⟩
    rw [hsome, Option.map_some] at hshut
    by_cases hfast : Has garbage fastRos
    · rw [if_pos hfast] at hshut
      cases hshut
    · rw [if_neg hfast] at hshut
      obtain rfl : conn = r.conn := Option.some_inj.mp hshut
      exact ⟨hfast, hnone⟩
  · rintro ⟨hfast, hnone⟩
    rw [if_neg hfast] at hshut
    obtain ⟨⟨conn, sub'⟩, hsome, rfl⟩ := Option.map_eq_some_iff.mp hshut
    exact ⟨_, sub', hsome, hnone, fun _ => rfl⟩

theorem subscriber_detaches_iff_other :
    let q := (Process.start : Process Bool Unit).subscribe 0 "a" true () fastRos
    q.2.Detaches (fun _ (_ : Nat) => false) 0 q.1 [.publish "a" ⟨false, 7⟩] := by
  refine (subscriber_detaches_iff (fun _ _ => false) [] [] [.publish "a" ⟨false, 7⟩] 0 "a" true ()
    fastRos (by decide)).mpr ⟨by decide, fun any hmem htype => ?_⟩
  cases List.mem_singleton.mp hmem
  cases htype

/-- A subscriber that has been shut down still receives. -/
theorem shutdown_then_received :
    let q := (Process.start : Process Unit Unit).subscribe 0 "a" () () fastRos
    ¬ q.2.Detaches (fun _ (_ : Nat) => false) 0 q.1 [.publish "a" ⟨(), 7⟩] := by
  rintro q ⟨conn, sub', hsome, hnone, -⟩
  have hshut := shutdown_subscribe (Process.start : Process Unit Unit) 0 "a" () () fastRos q.1.conn
  rw [hsome, if_neg (by decide)] at hshut
  obtain rfl : conn = q.1.conn := Option.some_inj.mp hshut
  exact absurd hnone (by decide)

-- ---------------------------------------------------------------------------
-- Names
-- ---------------------------------------------------------------------------

def slashed : List String → String
  | [] => ""
  | name :: rest => "/" ++ name ++ slashed rest

/-- `get_namespace()` for a namespace of these tokens. -/
def getNamespace (tokens : List String) : String :=
  if tokens = [] then "/" else slashed tokens

def resolved (tokens : List String) (topic : String) : String := slashed (tokens ++ [topic])

/-- The key `advertise` builds. -/
def nsTopic (tokens : List String) (topic : String) : String :=
  getNamespace tokens ++ "/" ++ topic

theorem slashed_append (names names' : List String) :
    slashed (names ++ names') = slashed names ++ slashed names' := by
  induction names with
  | nil => simp [slashed]
  | cons name names ih => simp [slashed, ih, String.append_assoc]

theorem nsTopic_root_ne (topic : String) : nsTopic [] topic ≠ resolved [] topic := by
  intro h
  have hlen := congrArg String.length h
  have hslash : ("/" : String).length = 1 := rfl
  simp only [nsTopic, getNamespace, if_true, resolved, List.nil_append, slashed,
    String.length_append, hslash, String.length_empty] at hlen
  omega

theorem nsTopic_eq_iff (tokens : List String) (topic : String) :
    nsTopic tokens topic = resolved tokens topic ↔ tokens ≠ [] := by
  constructor
  · rintro h rfl
    exact nsTopic_root_ne topic h
  · intro h
    simp [nsTopic, getNamespace, h, resolved, slashed_append, slashed, String.append_assoc]

-- ---------------------------------------------------------------------------
-- Publishers
-- ---------------------------------------------------------------------------

/-- `pubRos` is the publisher of one message type under a name. -/
structure Publisher (M : Type) where
  type : UInt32
  pubRos : String × M
  nsTopic : String

def advertise (tokens : List String) (topic : String) (messageType : M) (type : UInt32) :
    Publisher M :=
  ⟨type, (resolved tokens topic, messageType), nsTopic tokens topic⟩

inductive Sent (V : Type)
  | fast (serial : Nat) (message : V)
  /-- ROS was given a message for the subscribers of a name. -/
  | native (name : String) (message : V)
  deriving DecidableEq

def Publisher.publishFast (throws : C → V → Bool) (pub : Publisher M) (p : Process M C)
    (any : Any M V) : Process M C × List (Nat × V) :=
  if Has pub.type fastRos then p.step throws (.publish pub.nsTopic any) else (p, [])

/-- The cast of `pubRos` fails for a message of another type. -/
def Publisher.publishNative (pub : Publisher M) (any : Any M V) : List (Sent V) :=
  if Has pub.type nativeRos ∧ any.type = pub.pubRos.2 then [.native pub.pubRos.1 any.message] else []

def Publisher.publish (throws : C → V → Bool) (pub : Publisher M) :
    Mealy.Step (Process M C) (Any M V) (Sent V)
  | p, any =>
    let (p, calls) := pub.publishFast throws p any
    (p, calls.map (fun call => .fast call.1 call.2) ++ pub.publishNative any)

def receivedFast (serial : Nat) (sent : List (Sent V)) : List V :=
  sent.filterMap fun s => match s with
    | .fast serial' message => if serial' = serial then some message else none
    | .native .. => none

def receivedNative (name : String) (sent : List (Sent V)) : List V :=
  sent.filterMap fun s => match s with
    | .fast .. => none
    | .native name' message => if name' = name then some message else none

theorem receivedFast_append (serial : Nat) (sent sent' : List (Sent V)) :
    receivedFast serial (sent ++ sent') = receivedFast serial sent ++ receivedFast serial sent' :=
  List.filterMap_append

theorem receivedNative_append (name : String) (sent sent' : List (Sent V)) :
    receivedNative name (sent ++ sent') = receivedNative name sent ++ receivedNative name sent' :=
  List.filterMap_append

theorem receivedFast_map (serial : Nat) (calls : List (Nat × V)) :
    receivedFast serial (calls.map fun call => .fast call.1 call.2) = received serial calls := by
  induction calls with
  | nil => rfl
  | cons call calls ih =>
    by_cases h : call.1 = serial <;> simp_all [receivedFast, received]

theorem receivedFast_publish (throws : C → V → Bool) (pub : Publisher M) (p : Process M C)
    (any : Any M V) (serial : Nat) : receivedFast serial (pub.publish throws p any).2 =
      received serial (pub.publishFast throws p any).2 := by
  have hnative : receivedFast serial (pub.publishNative any) = [] := by
    unfold Publisher.publishNative
    split <;> rfl
  rw [Publisher.publish, receivedFast_append, receivedFast_map, hnative, List.append_nil]

theorem receivedNative_publish (throws : C → V → Bool) (pub : Publisher M) (p : Process M C)
    (any : Any M V) : receivedNative pub.pubRos.1 (pub.publish throws p any).2 =
      if Has pub.type nativeRos ∧ any.type = pub.pubRos.2 then [any.message] else [] := by
  have hfast : receivedNative pub.pubRos.1
      ((pub.publishFast throws p any).2.map fun call => Sent.fast call.1 call.2) = [] := by
    simp [receivedNative]
  rw [Publisher.publish, receivedNative_append, hfast, List.nil_append, Publisher.publishNative]
  split
  · simp [receivedNative]
  · rfl

section
variable {p : Process M C} {pre : List (String × OnMessage M C)} {f : OnMessage M C}
  {pub : Publisher M}

variable (throws) in
theorem Process.Subscribed.publishFast (h : p.Subscribed pre pub.nsTopic f) (any : Any M V) :
    (pub.publishFast throws p any).1.Subscribed pre pub.nsTopic f ∧
      received f.serial (pub.publishFast throws p any).2 =
        if Has pub.type fastRos ∧ any.type = f.type ∧
          ∀ q ∈ under pub.nsTopic pre, ¬ q.Stops throws any then [any.message] else [] := by
  unfold Publisher.publishFast
  by_cases hfast : Has pub.type fastRos
  · rw [if_pos hfast]
    simpa [reach, hfast] using h.publish throws pub.nsTopic any
  · rw [if_neg hfast]
    exact ⟨h, by simp [received, hfast]⟩

variable (throws) in
theorem Process.Subscribed.publishes (h : p.Subscribed pre pub.nsTopic f)
    (messages : List (Any M V)) :
    receivedFast f.serial (Mealy.emitted (pub.publish throws) p messages) =
      (messages.filter fun any => Has pub.type fastRos ∧ any.type = f.type ∧
        ∀ q ∈ under pub.nsTopic pre, ¬ q.Stops throws any).map Any.message := by
  induction messages generalizing p with
  | nil => rfl
  | cons any messages ih =>
    obtain ⟨hnext, hone⟩ := h.publishFast throws any
    have hrest := @ih (pub.publish throws p any).1 hnext
    rw [Mealy.emitted_cons, receivedFast_append, receivedFast_publish, hone, hrest, List.filter_cons]
    simp only [decide_eq_true_eq]
    split <;> rfl

variable (throws p pub) in
theorem receivedNative_emitted (messages : List (Any M V)) :
    receivedNative pub.pubRos.1 (Mealy.emitted (pub.publish throws) p messages) =
      (messages.filter fun any => Has pub.type nativeRos ∧ any.type = pub.pubRos.2).map
        Any.message := by
  induction messages generalizing p with
  | nil => rfl
  | cons any messages ih =>
    rw [Mealy.emitted_cons, receivedNative_append, receivedNative_publish, ih, List.filter_cons]
    simp only [decide_eq_true_eq]
    split <;> rfl

end

omit [DecidableEq M] in
theorem map_filter_eq_iff {messages : List (Any M V)} {P Q : Any M V → Bool}
    (hPQ : ∀ any ∈ messages, P any → Q any) :
    (messages.filter P).map Any.message = (messages.filter Q).map Any.message ↔
      ∀ any ∈ messages, Q any → P any := by
  have hfilter : (messages.filter Q).filter P = messages.filter P := by
    rw [List.filter_filter]
    refine List.filter_congr fun any hany => ?_
    cases hp : P any with
    | false => rfl
    | true => simpa using hPQ any hany hp
  constructor
  · intro h
    have hlen := congrArg List.length h
    rw [List.length_map, List.length_map, ← hfilter, List.length_filter_eq_length_iff] at hlen
    exact fun any hany hq => hlen any (List.mem_filter.mpr ⟨hany, hq⟩)
  · intro h
    rw [← hfilter, List.filter_eq_self.mpr fun any hany => ?_]
    exact h any (List.mem_filter.mp hany).1 (List.mem_filter.mp hany).2

/-- A fast subscriber to the resolved name of a topic hears what a native one hears outside
the root namespace, as far as the publisher's type and the subscribers before it allow. -/
theorem fast_hears_native_iff (throws : C → V → Bool) (before : List (NodeCall M V C))
    (garbage : UInt32) (tokens : List String) (topic : String) (messageType : M) (callback : C)
    (type : UInt32) (messages : List (Any M V)) :
    let name := resolved tokens topic
    let pub := advertise tokens topic messageType type
    let p := Mealy.final (Process.step throws) .start before
    let q := (p.subscribe garbage name messageType callback fastRos).1
    let sent := Mealy.emitted (pub.publish throws) q messages
    (pub.nsTopic = name ∧ receivedFast p.calls sent = receivedNative name sent) ↔
      tokens ≠ [] ∧ ∀ any ∈ messages, any.type = messageType →
        ((Has type fastRos ∧ ∀ f ∈ under name (subscribed 0 before), ¬ f.Stops throws any) ↔
          Has type nativeRos) := by
  intro name pub p q sent
  have hholds : p.Holds (subscribed 0 before) := holds_start.run before
  have hkey : pub.nsTopic = name ↔ tokens ≠ [] := nsTopic_eq_iff tokens topic
  rw [hkey]
  refine and_congr_right fun htokens => ?_
  have hsub : q.Subscribed (subscribed 0 before) name ⟨p.calls, messageType, callback⟩ :=
    hholds.subscribed garbage name messageType callback (by decide)
  rw [← hkey.mpr htokens] at hsub
  have hfast := hsub.publishes throws messages
  have hnative := receivedNative_emitted throws q pub messages
  have hname : pub.nsTopic = name := hkey.mpr htokens
  rw [show receivedFast p.calls sent = _ from hfast, show receivedNative name sent = _ from hnative,
    hname]
  by_cases hros : Has type nativeRos
  · rw [map_filter_eq_iff fun any _ h => ?_]
    · refine forall₂_congr fun any _ => ?_
      simp only [decide_eq_true_eq]
      constructor
      · exact fun h htype => ⟨fun _ => hros, fun _ => ⟨(h ⟨hros, htype⟩).1, (h ⟨hros, htype⟩).2.2⟩⟩
      · exact fun h hn => ⟨((h hn.2).mpr hros).1, hn.2, ((h hn.2).mpr hros).2⟩
    · simp only [decide_eq_true_eq] at h ⊢
      exact ⟨hros, h.2.1⟩
  · rw [eq_comm, map_filter_eq_iff fun any _ h => ?_]
    · refine forall₂_congr fun any _ => ?_
      simp only [decide_eq_true_eq]
      constructor
      · exact fun h htype => iff_of_false (fun hf => hros (h ⟨hf.1, htype, hf.2⟩).1) hros
      · exact fun h hf => absurd ((h hf.2.1).mp ⟨hf.1, hf.2.2⟩) hros
    · simp only [decide_eq_true_eq] at h
      exact absurd h.1 hros

/-- In the root namespace, as the launch file has it, the key has two slashes. -/
theorem root_key_differs :
    let pub := advertise [] "imu" () (fastRos ||| nativeRos)
    let q := ((Process.start : Process Unit Unit).subscribe 0 (resolved [] "imu") () () fastRos).1
    let sent := Mealy.emitted (pub.publish fun _ (_ : Nat) => false) q [⟨(), 7⟩]
    ¬ (pub.nsTopic = resolved [] "imu" ∧
      receivedFast 0 sent = receivedNative (resolved [] "imu") sent) := by
  rintro pub q sent ⟨hkey, -⟩
  exact nsTopic_root_ne "imu" hkey

end TienKung.FastRos
