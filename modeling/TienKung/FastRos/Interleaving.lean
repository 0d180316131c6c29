import TienKung.FastRos.Delivery

/-!
# A publish among other calls

The publisher thread takes one step at a time; between two of them, and so also
while a callback runs, other threads and the callback itself call `subscribe`
and shutdown closures. The loop over the subscribers takes both its iterators at
the start, so erasing from the vector under it moves what it has yet to read and
leaves its end behind the vector's.
-/

namespace TienKung.FastRos

variable {κ μ : Type}

-- ---------------------------------------------------------------------------
-- Steps
-- ---------------------------------------------------------------------------

/-- Where the publisher is. `taken` is what its matrix had under the topic when the queue
was drained, `called` what has been called since. -/
inductive PublishPhase (κ : Type)
  | idle
  | draining (topic : String)
  | drained (topic : String) (taken : List (FunctionPair κ))
  | calling (topic : String) (taken called : List (FunctionPair κ)) (next stop : Nat)
  | undefined

structure Published (κ : Type) where
  topic : String
  taken : List (FunctionPair κ)
  called : List (FunctionPair κ)
  deriving DecidableEq

/-- `handed` lists the matrices pushed to the queue so far. -/
structure Shared (κ : Type) where
  conn : FastConnection κ
  publisher : PublishPhase κ
  handed : List Nat

def Shared.start : Shared κ := ⟨.new, .idle, []⟩

inductive Event (κ : Type)
  | subscribe (topic : String) (func : κ)
  | shutdown (closure : Shutdown)
  | publish (topic : String)
  /-- A step of the publisher; if it calls a callback, whether that throws. -/
  | proceed (throws : Bool)

namespace Shared

def proceed (s : Shared κ) (throws : Bool) : Shared κ × List (Published κ) :=
  match s.publisher with
  | .idle => (s, [])
  | .draining topic => match s.conn.takeOver with
    | some conn => ({ s with conn := conn }, [])
    | none => ({ s with publisher := .drained topic (s.conn.subscribers topic) }, [])
  | .drained topic taken => match s.conn.atTopic topic with
    | some fps => ({ s with publisher := .calling topic taken [] 0 fps.length }, [])
    | none => ({ s with publisher := .idle }, [⟨topic, taken, []⟩])
  | .calling topic taken called next stop =>
    if next = stop then ({ s with publisher := .idle }, [⟨topic, taken, called⟩])
    else match ((s.conn.atTopic topic).getD [])[next]? with
      | none => ({ s with publisher := .undefined }, [])
      | some fp =>
        if throws then ({ s with publisher := .idle }, [⟨topic, taken, called ++ [fp]⟩])
        else ({ s with publisher := .calling topic taken (called ++ [fp]) (next + 1) stop }, [])
  | .undefined => (s, [])

def step : Mealy.Step (Shared κ) (Event κ) (Published κ)
  | s, .subscribe topic func =>
    let conn := (s.conn.subscribe topic func).1
    (⟨conn, s.publisher, conn.subsLast :: s.handed⟩, [])
  | s, .shutdown closure =>
    let handed := if s.conn.Removes closure then s.conn.subsLast :: s.handed else s.handed
    (⟨s.conn.shutdown closure, s.publisher, handed⟩, [])
  | s, .publish topic => match s.publisher with
    | .idle => ({ s with publisher := .draining topic }, [])
    | _ => (s, [])
  | s, .proceed throws => s.proceed throws

-- ---------------------------------------------------------------------------
-- Properties of a run
-- ---------------------------------------------------------------------------

/-- No matrix changes once it has been pushed to the queue. -/
def HandedKept (events : List (Event κ)) : Prop :=
  ∀ before after, before ++ after <+: events → ∀ p ∈ (Mealy.final step start before).handed,
    (Mealy.final step start (before ++ after)).conn.matrix p =
      (Mealy.final step start before).conn.matrix p

/-- Every publish stays in its vector and has called what it took over when it returns. -/
def PublishesExact (events : List (Event κ)) : Prop :=
  (∀ before, before <+: events → (Mealy.final step start before).publisher ≠ .undefined) ∧
    ∀ o ∈ Mealy.emitted step start events, o.called = o.taken

/-- The step neither removes a subscription nor ends a publish early by an exception. -/
def Careful (s : Shared κ) : Event κ → Prop
  | .shutdown closure => ¬ s.conn.Removes closure
  | .proceed true => match s.publisher with
    | .calling _ _ _ next stop => stop ≤ next + 1
    | _ => True
  | _ => True

-- ---------------------------------------------------------------------------
-- The invariant
-- ---------------------------------------------------------------------------

def PublisherValid (reads : String → Option (List (FunctionPair κ))) : PublishPhase κ → Prop
  | .idle => True
  | .draining _ => True
  | .drained topic taken => taken = (reads topic).getD []
  | .calling topic taken called next stop => taken = (reads topic).getD [] ∧
      stop = taken.length ∧ next ≤ stop ∧ called = taken.take next
  | .undefined => False

structure Valid (s : Shared κ) : Prop where
  subsLast : s.conn.subsLast < s.conn.matrices.length
  handed : ∀ p ∈ s.handed, p < s.conn.matrices.length
  queued : ∀ p ∈ s.conn.queueSubs.toList, p ∈ s.handed
  current : ∀ p ∈ s.conn.subsCurrent, p ∈ s.handed
  /-- Only the first matrix, which is empty, has not been handed over. -/
  last : s.conn.subsLast ∈ s.handed ∨ s.conn.matrix s.conn.subsLast = fun _ => none
  publisher : PublisherValid s.conn.atTopic s.publisher

theorem valid_start : Valid (start : Shared κ) where
  subsLast := Nat.zero_lt_one
  handed p hp := by cases hp
  queued p hp := by cases hp
  current p hp := by cases hp
  last := .inr rfl
  publisher := trivial

-- ---------------------------------------------------------------------------
-- One step
-- ---------------------------------------------------------------------------

section
variable {s : Shared κ}

theorem Valid.atTopic_congr (h : Valid s) {conn : FastConnection κ}
    (hcurrent : conn.subsCurrent = s.conn.subsCurrent)
    (hmatrix : ∀ p ∈ s.handed, conn.matrix p = s.conn.matrix p) :
    conn.atTopic = s.conn.atTopic := by
  funext topic
  unfold FastConnection.atTopic
  rw [hcurrent]
  cases hp : s.conn.subsCurrent with
  | none => rfl
  | some p => simp only [Option.bind_some, hmatrix p (h.current p hp)]

theorem Valid.subscribe (h : Valid s) (topic : String) (func : κ) :
    Valid (step s (.subscribe topic func)).1 ∧ ∀ p ∈ s.handed,
      (step s (.subscribe topic func)).1.conn.matrix p = s.conn.matrix p := by
  have hmatrix : ∀ p ∈ s.handed,
      (step s (.subscribe topic func)).1.conn.matrix p = s.conn.matrix p :=
    fun p hp => FastConnection.matrix_subscribe_lt topic func (h.handed p hp)
  have hreads : (step s (.subscribe topic func)).1.conn.atTopic = s.conn.atTopic :=
    h.atTopic_congr rfl hmatrix
  refine ⟨⟨by simp [step, FastConnection.subscribe], ?_, ?_, fun p hp => ?_, .inl ?_, ?_⟩, hmatrix⟩
  · rintro p (_ | ⟨_, hp⟩)
    · simp [step, FastConnection.subscribe]
    · have hlt := h.handed p hp
      simp only [step, FastConnection.subscribe, List.length_append, List.length_singleton]
      omega
  · intro p hp
    rcases List.mem_append.mp hp with hp | hp
    · exact List.mem_cons_of_mem _ (h.queued p hp)
    · rw [List.mem_singleton.mp hp]
      exact List.mem_cons_self
  · exact List.mem_cons_of_mem _ (h.current p hp)
  · exact List.mem_cons_self
  · rw [hreads]
    exact h.publisher

theorem Valid.move (h : Valid s) {publisher : PublishPhase κ}
    (hpub : PublisherValid s.conn.atTopic publisher) : Valid { s with publisher := publisher } :=
  ⟨h.subsLast, h.handed, h.queued, h.current, h.last, hpub⟩

theorem Valid.draining (h : Valid s) {topic : String} (hpub : s.publisher = .draining topic)
    (throws : Bool) : Valid (s.proceed throws).1 ∧
      (∀ p, (s.proceed throws).1.conn.matrix p = s.conn.matrix p) ∧ (s.proceed throws).2 = [] := by
  cases hq : s.conn.queueSubs.toList with
  | nil =>
    have hstep : s.proceed throws =
        ({ s with publisher := .drained topic (s.conn.subscribers topic) }, []) := by
      simp only [proceed, hpub, FastConnection.takeOver_none hq]
    rw [hstep]
    exact ⟨h.move rfl, fun _ => rfl, rfl⟩
  | cons p rest =>
    obtain ⟨q, hrest, htake⟩ := FastConnection.takeOver_some hq
    have hstep : s.proceed throws =
        ({ s with conn := { s.conn with subsCurrent := some p, queueSubs := q } }, []) := by
      simp only [proceed, hpub, htake]
    rw [hstep]
    refine ⟨⟨h.subsLast, h.handed, fun p' hp' => ?_, ?_, h.last, ?_⟩, fun _ => rfl, rfl⟩
    · exact h.queued p' (hq ▸ List.mem_cons_of_mem p (hrest ▸ hp'))
    · rintro _ ⟨⟩
      exact h.queued p (hq ▸ List.mem_cons_self)
    · rw [hpub]
      trivial

theorem Valid.drained (h : Valid s) {topic : String} {taken : List (FunctionPair κ)}
    (hpub : s.publisher = .drained topic taken) (throws : Bool) : Valid (s.proceed throws).1 ∧
      (s.proceed throws).1.conn = s.conn ∧ ∀ o ∈ (s.proceed throws).2, o.called = o.taken := by
  have htaken : PublisherValid s.conn.atTopic s.publisher := h.publisher
  rw [hpub, PublisherValid] at htaken
  cases hr : s.conn.atTopic topic with
  | none =>
    have hstep : s.proceed throws = ({ s with publisher := .idle }, [⟨topic, taken, []⟩]) := by
      simp only [proceed, hpub, hr]
    rw [hr] at htaken
    rw [hstep]
    exact ⟨h.move trivial, rfl, by simp [htaken]⟩
  | some fps =>
    have hstep : s.proceed throws =
        ({ s with publisher := .calling topic taken [] 0 fps.length }, []) := by
      simp only [proceed, hpub, hr]
    have hfps : taken = fps := by rw [htaken, hr]; rfl
    rw [hstep]
    refine ⟨h.move ⟨htaken, by rw [hfps], Nat.zero_le _, by simp⟩, rfl, by simp⟩

theorem Valid.calling (h : Valid s) {topic : String} {taken called : List (FunctionPair κ)}
    {next stop : Nat} (hpub : s.publisher = .calling topic taken called next stop) (throws : Bool) :
    s.proceed throws = ({ s with publisher := .idle }, [⟨topic, taken, taken⟩]) ∧ next = stop ∨
      ∃ fp, taken.take (next + 1) = called ++ [fp] ∧ next < taken.length ∧ stop = taken.length ∧
        s.proceed throws =
          if throws then ({ s with publisher := .idle }, [⟨topic, taken, called ++ [fp]⟩])
          else ({ s with publisher := .calling topic taken (called ++ [fp]) (next + 1) stop }, []) := by
  have hvalid : PublisherValid s.conn.atTopic s.publisher := h.publisher
  rw [hpub] at hvalid
  obtain ⟨htaken, rfl, hnext, rfl⟩ := hvalid
  rcases Nat.lt_or_eq_of_le hnext with hlt | rfl
  · refine .inr ⟨taken[next], List.take_succ_eq_append_getElem hlt, hlt, rfl, ?_⟩
    have hget : ((s.conn.atTopic topic).getD [])[next]? = some taken[next] := by
      rw [← htaken]
      exact List.getElem?_eq_getElem hlt
    simp only [proceed, hpub, if_neg (Nat.ne_of_lt hlt), hget]
  · refine .inl ⟨?_, rfl⟩
    simp only [proceed, hpub, if_true, List.take_length]

theorem proceed_handed (throws : Bool) : (s.proceed throws).1.handed = s.handed := by
  unfold proceed
  repeat' split
  all_goals rfl

theorem Valid.step (h : Valid s) {e : Event κ} (hc : Careful s e) :
    Valid (step s e).1 ∧
      (∀ p ∈ s.handed, (Shared.step s e).1.conn.matrix p = s.conn.matrix p) ∧
      (∀ p ∈ s.handed, p ∈ (Shared.step s e).1.handed) ∧
      ∀ o ∈ (Shared.step s e).2, o.called = o.taken := by
  cases e with
  | subscribe topic func =>
    obtain ⟨hvalid, hmatrix⟩ := h.subscribe topic func
    exact ⟨hvalid, hmatrix, fun p hp => List.mem_cons_of_mem _ hp, by simp [Shared.step]⟩
  | shutdown closure =>
    have hstep : Shared.step s (.shutdown closure) = (s, []) := by
      simp only [Shared.step, FastConnection.shutdown_of_not_removes hc, if_neg hc]
    rw [hstep]
    exact ⟨h, fun _ _ => rfl, fun _ hp => hp, by simp⟩
  | publish topic =>
    simp only [Shared.step]
    split
    · exact ⟨h.move trivial, fun _ _ => rfl, fun _ hp => hp, by simp⟩
    · exact ⟨h, fun _ _ => rfl, fun _ hp => hp, by simp⟩
  | proceed throws =>
    show Valid (s.proceed throws).1 ∧ (∀ p ∈ s.handed, (s.proceed throws).1.conn.matrix p = _) ∧
      (∀ p ∈ s.handed, p ∈ (s.proceed throws).1.handed) ∧ ∀ o ∈ (s.proceed throws).2, _
    rw [proceed_handed]
    cases hpub : s.publisher with
    | idle =>
      have hstep : s.proceed throws = (s, []) := by simp only [proceed, hpub]
      rw [hstep]
      exact ⟨h, fun _ _ => rfl, fun _ hp => hp, by simp⟩
    | draining topic =>
      obtain ⟨hvalid, hmatrix, hout⟩ := h.draining hpub throws
      exact ⟨hvalid, fun p _ => hmatrix p, fun _ hp => hp, by simp [hout]⟩
    | drained topic taken =>
      obtain ⟨hvalid, hconn, hout⟩ := h.drained hpub throws
      exact ⟨hvalid, fun p _ => by rw [hconn], fun _ hp => hp, hout⟩
    | calling topic taken called next stop =>
      have htaken : PublisherValid s.conn.atTopic s.publisher := h.publisher
      rw [hpub] at htaken
      rcases h.calling hpub throws with ⟨hstep, -⟩ | ⟨fp, htake, hlt, rfl, hstep⟩
      · rw [hstep]
        exact ⟨h.move trivial, fun _ _ => rfl, fun _ hp => hp, by simp⟩
      · cases throws with
        | false =>
          rw [hstep, if_neg Bool.false_ne_true]
          exact ⟨h.move ⟨htaken.1, rfl, hlt, htake.symm⟩, fun _ _ => rfl, fun _ hp => hp, by simp⟩
        | true =>
          rw [Careful, hpub] at hc
          have hall : called ++ [fp] = taken := by rw [← htake, List.take_of_length_le hc]
          rw [hstep, if_pos rfl]
          exact ⟨h.move trivial, fun _ _ => rfl, fun _ hp => hp, by simp [hall]⟩
    | undefined =>
      have hfalse : PublisherValid s.conn.atTopic s.publisher := h.publisher
      rw [hpub] at hfalse
      exact hfalse.elim

theorem Valid.careless (h : Valid s) {e : Event κ} (hc : ¬ Careful s e) :
    (∃ p ∈ s.handed, (Shared.step s e).1.conn.matrix p ≠ s.conn.matrix p) ∨
      ∃ o ∈ (Shared.step s e).2, o.called ≠ o.taken := by
  cases e with
  | subscribe topic func => exact absurd trivial hc
  | publish topic => exact absurd trivial hc
  | shutdown closure =>
    have hrem : s.conn.Removes closure := not_not.mp hc
    obtain ⟨fp, hfp, hid⟩ := hrem
    refine .inl ⟨s.conn.subsLast, ?_, fun heq => ?_⟩
    · refine h.last.resolve_right fun hempty => ?_
      rw [hempty] at hfp
      cases hfp
    · have htopic := congrFun heq closure.topic
      simp only [Shared.step, FastConnection.matrix_shutdown ⟨fp, hfp, hid⟩ h.subsLast, if_true,
        Function.update_self] at htopic
      have hlen := List.length_eraseP_of_mem (p := fun fp => fp.id = closure.id) hfp
        (decide_eq_true hid)
      have hpos := List.length_pos_of_mem hfp
      have hsame := congrArg (fun fps => (fps.getD []).length) htopic
      simp only [Option.getD_some] at hsame
      omega
  | proceed throws =>
    cases throws with
    | false => exact absurd trivial hc
    | true =>
      cases hpub : s.publisher with
      | calling topic taken called next stop =>
        rw [Careful, hpub] at hc
        rcases h.calling hpub true with ⟨-, rfl⟩ | ⟨fp, htake, hlt, rfl, hstep⟩
        · exact absurd (Nat.le_succ next) hc
        · refine .inr ⟨⟨topic, taken, called ++ [fp]⟩, ?_, fun heq => ?_⟩
          · show _ ∈ (s.proceed true).2
            rw [hstep, if_pos rfl]
            exact List.mem_singleton_self _
          · have hlen := congrArg List.length htake
            rw [show called ++ [fp] = taken from heq, List.length_take] at hlen
            omega
      | idle => simp [Careful, hpub] at hc
      | draining topic => simp [Careful, hpub] at hc
      | drained topic taken => simp [Careful, hpub] at hc
      | undefined => simp [Careful, hpub] at hc

end

-- ---------------------------------------------------------------------------
-- Runs
-- ---------------------------------------------------------------------------

theorem Valid.run {s : Shared κ} (h : Valid s) {events : List (Event κ)}
    (hc : Mealy.Along Shared.step Careful s events) :
    Valid (Mealy.final Shared.step s events) ∧
      (∀ p ∈ s.handed, (Mealy.final Shared.step s events).conn.matrix p = s.conn.matrix p) ∧
      ∀ o ∈ Mealy.emitted Shared.step s events, o.called = o.taken := by
  induction events generalizing s with
  | nil => exact ⟨h, fun _ _ => rfl, by simp⟩
  | cons e events ih =>
    obtain ⟨hvalid, hmatrix, hhanded, hout⟩ := h.step hc.1
    obtain ⟨hvalid', hmatrix', hout'⟩ := ih hvalid hc.2
    refine ⟨hvalid', fun p hp => (hmatrix' p (hhanded p hp)).trans (hmatrix p hp), fun o ho => ?_⟩
    rcases List.mem_append.mp ho with ho | ho
    · exact hout o ho
    · exact hout' o ho

/-- A run keeps the matrices handed over and publishes exactly if all its steps are
careful. -/
theorem careful_iff (events : List (Event κ)) :
    HandedKept events ∧ PublishesExact events ↔ Mealy.Along step Careful start events := by
  constructor
  · rintro ⟨hkept, -, hexact⟩
    refine Mealy.along_of_prefix fun before e hp hbefore => by_contra fun hbad => ?_
    rcases (valid_start.run hbefore).1.careless hbad with ⟨p, hh, hne⟩ | ⟨o, ho, hne⟩
    · have hsame := hkept before [e] hp p hh
      rw [Mealy.final_append] at hsame
      exact hne hsame
    · obtain ⟨after, rfl⟩ := hp
      refine hne (hexact o ?_)
      rw [Mealy.emitted_append, Mealy.emitted_append]
      exact List.mem_append_left _ (List.mem_append_right _ (by simpa using ho))
  · intro hc
    refine ⟨fun before after hp p hh => ?_, fun before hp hundef => ?_, (valid_start.run hc).2.2⟩
    · obtain ⟨hbefore, hafter⟩ := Mealy.along_append.mp (hc.of_prefix hp)
      rw [Mealy.final_append]
      exact ((valid_start.run hbefore).1.run hafter).2.1 p hh
    · have hvalid := (valid_start.run (hc.of_prefix hp)).1.publisher
      rw [hundef] at hvalid
      exact hvalid

/-- A callback that shuts itself down makes the loop skip the next subscriber and read on
behind the vector. -/
theorem shutdown_in_callback :
    ¬ (HandedKept (κ := Nat) [.subscribe "a" 1, .subscribe "a" 2, .publish "a", .proceed false,
        .proceed false, .proceed false, .proceed false, .proceed false, .shutdown ⟨"a", 1⟩,
        .proceed false] ∧
      PublishesExact (κ := Nat) [.subscribe "a" 1, .subscribe "a" 2, .publish "a", .proceed false,
        .proceed false, .proceed false, .proceed false, .proceed false, .shutdown ⟨"a", 1⟩,
        .proceed false]) := by
  rintro ⟨-, hdefined, -⟩
  exact hdefined _ (List.prefix_refl _) rfl

-- ---------------------------------------------------------------------------
-- Without interruption
-- ---------------------------------------------------------------------------

section
variable {conn : FastConnection κ} {handed : List Nat} {topic : String}

theorem draining_uninterrupted {n : Nat} (hn : conn.queueSubs.toList.length = n) :
    Mealy.final step ⟨conn, .draining topic, handed⟩ (.replicate (n + 1) (.proceed false)) =
        ⟨conn.drain, .drained topic (conn.drain.subscribers topic), handed⟩ ∧
      Mealy.emitted step ⟨conn, .draining topic, handed⟩ (.replicate (n + 1) (.proceed false)) =
        [] := by
  unfold FastConnection.drain
  rw [hn]
  induction n generalizing conn with
  | zero =>
    have hnil : conn.queueSubs.toList = [] := List.eq_nil_of_length_eq_zero hn
    simp [step, proceed, FastConnection.takeOver_none hnil, FastConnection.takeOvers]
  | succ n ih =>
    obtain ⟨p, rest, hq⟩ := List.exists_cons_of_length_eq_add_one hn
    obtain ⟨q, hrest, htake⟩ := FastConnection.takeOver_some hq
    have hlen : q.toList.length = n := by
      rw [hq] at hn
      simpa [hrest] using hn
    have hrec := @ih { conn with subsCurrent := some p, queueSubs := q } hlen
    rw [List.replicate_succ]
    simpa [step, proceed, htake, FastConnection.takeOvers] using hrec

theorem calling_uninterrupted {taken : List (FunctionPair κ)} (hat : conn.atTopic topic = some taken)
    {called rest : List (FunctionPair κ)} (htaken : taken = called ++ rest) :
    Mealy.final step ⟨conn, .calling topic taken called called.length taken.length, handed⟩
        (.replicate (rest.length + 1) (.proceed false)) = ⟨conn, .idle, handed⟩ ∧
      Mealy.emitted step ⟨conn, .calling topic taken called called.length taken.length, handed⟩
        (.replicate (rest.length + 1) (.proceed false)) = [⟨topic, taken, taken⟩] := by
  induction rest generalizing called with
  | nil => simp [step, proceed, htaken]
  | cons fp rest ih =>
    have hget : taken[called.length]? = some fp := by simp [htaken]
    have hne : called.length ≠ taken.length := by simp [htaken]
    have hrec := @ih (called ++ [fp]) (by simp [htaken])
    rw [List.length_append] at hrec
    rw [List.length_cons, List.replicate_succ]
    simpa [step, proceed, hat, hget, hne] using hrec

/-- A publish that nothing comes between is the function `publish`. -/
theorem publish_uninterrupted (message : μ) : ∃ n o,
    Mealy.final step ⟨conn, .idle, handed⟩ (.publish topic :: .replicate n (.proceed false)) =
        ⟨(conn.publish quiet topic message).1, .idle, handed⟩ ∧
      Mealy.emitted step ⟨conn, .idle, handed⟩ (.publish topic :: .replicate n (.proceed false)) =
        [⟨topic, o, o⟩] ∧
      (conn.publish quiet topic message).2 = o.map fun fp => (fp.func, message) := by
  obtain ⟨hdrain, hquiet⟩ :=
    @draining_uninterrupted κ conn handed topic _ rfl
  generalize conn.queueSubs.toList.length + 1 = k at hdrain hquiet
  cases hat : conn.drain.atTopic topic with
  | none =>
    refine ⟨k + 1, [], ?_⟩
    simp [List.replicate_add, Mealy.final_append, Mealy.emitted_append, step, hdrain, hquiet,
      proceed, hat, FastConnection.publish, FastConnection.subscribers, FastConnection.callAll]
  | some fps =>
    obtain ⟨hcall, hout⟩ :=
      @calling_uninterrupted κ conn.drain handed topic fps hat [] fps rfl
    refine ⟨k + (1 + (fps.length + 1)), fps, ?_⟩
    have hbegin : step ⟨conn.drain, .drained topic (conn.drain.subscribers topic), handed⟩
        (.proceed false) = (⟨conn.drain, .calling topic fps [] 0 fps.length, handed⟩, []) := by
      simp [step, proceed, hat, FastConnection.subscribers]
    rw [List.replicate_add, List.replicate_add, List.replicate_one, Mealy.final_cons,
      Mealy.emitted_cons, Mealy.final_append, Mealy.emitted_append, Mealy.final_append,
      Mealy.emitted_append]
    simp only [show step ⟨conn, .idle, handed⟩ (.publish topic) =
      (⟨conn, .draining topic, handed⟩, []) from rfl, hdrain, hquiet, Mealy.final_cons,
      Mealy.emitted_cons, Mealy.final_nil, Mealy.emitted_nil, hbegin]
    refine ⟨hcall, hout, ?_⟩
    simp [FastConnection.publish, FastConnection.subscribers, hat, callAll_quiet]

end

end Shared

end TienKung.FastRos
