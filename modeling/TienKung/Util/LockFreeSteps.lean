import TienKung.Lib.Chains
import TienKung.Lib.Mealy
import TienKung.Util.LockFreeQueue

/-!
# `LockFreeQueue`, statement by statement

One thread calls `push`, another `empty` and `pop`; each statement is a step,
and the steps come in any order. A new node may get any address that is not in
use, one of a deleted node too. Reading or writing a node that is not live, or
through a null pointer, is a fault.
-/

namespace TienKung.LockFreeSteps

open Chains

variable {α : Type}

-- ---------------------------------------------------------------------------
-- State
-- ---------------------------------------------------------------------------

/-- The statement of `push` that is next: `node->value = e`, `tail->next = node` or
`tail = node`. -/
inductive Producer (α : Type)
  | idle
  | value (e : α) (node : ℕ)
  | link (e : α) (node : ℕ)
  | advance (e : α) (node : ℕ)
  deriving DecidableEq

/-- The statement of `pop` that is next: `auto e = head->next->value`, `auto preHead = head`,
`head = head->next`, `delete preHead` or `return e`. What `pop` returns is read as it is, a
value or none yet. -/
inductive Consumer (α : Type)
  /-- Between calls; `nonempty` if the last call was an `empty` that returned false. -/
  | idle (nonempty : Bool)
  | read
  | save (e : Option α)
  | advance (e : Option α) (preHead : ℕ)
  | delete (e : Option α) (preHead : ℕ)
  | done (e : Option α)
  deriving DecidableEq

structure Queue (α : Type) where
  memory : Memory α
  head : ℕ
  tail : ℕ
  producer : Producer α
  consumer : Consumer α

def Queue.new (node : ℕ) : Queue α where
  memory := Function.update (fun _ => none) node (some ⟨none, none⟩)
  head := node
  tail := node
  producer := .idle
  consumer := .idle false

inductive Event (α : Type)
  /-- `push(e)` is called and makes its node at an address. -/
  | push (e : α) (node : ℕ)
  | producer
  | empty
  /-- `pop()` is called and tests for emptiness. -/
  | pop
  | consumer

inductive Out (α : Type)
  | pushed (e : α)
  | popped (e : Option α)
  | empty (answer : Bool)
  | threw (nonempty : Bool)
  | fault
  deriving DecidableEq

-- ---------------------------------------------------------------------------
-- Steps
-- ---------------------------------------------------------------------------

namespace Queue

def push (q : Queue α) (e : α) (node : ℕ) : Queue α × List (Out α) :=
  match q.producer with
  | .idle =>
    if (q.memory node).isNone then
      ({ q with
        memory := Function.update q.memory node (some ⟨none, none⟩)
        producer := .value e node }, [])
    else (q, [])
  | _ => (q, [])

def produce (q : Queue α) : Queue α × List (Out α) :=
  match q.producer with
  | .idle => (q, [])
  | .value e node => match q.memory node with
    | some cell => ({ q with
        memory := Function.update q.memory node (some { cell with value := some e })
        producer := .link e node }, [])
    | none => (q, [.fault])
  | .link e node => match q.memory q.tail with
    | some cell => ({ q with
        memory := Function.update q.memory q.tail (some { cell with next := some node })
        producer := .advance e node }, [])
    | none => (q, [.fault])
  | .advance e node => ({ q with tail := node, producer := .idle }, [.pushed e])

/-- `head->next`; none where it cannot be read or is null. -/
def headNext (q : Queue α) : Option ℕ := (q.memory q.head).bind Cell.next

def consume (q : Queue α) : Queue α × List (Out α) :=
  match q.consumer with
  | .idle _ => (q, [])
  | .read => match q.headNext.bind q.memory with
    | some cell => ({ q with consumer := .save cell.value }, [])
    | none => (q, [.fault])
  | .save e => ({ q with consumer := .advance e q.head }, [])
  | .advance e preHead => match q.headNext with
    | some next => ({ q with head := next, consumer := .delete e preHead }, [])
    | none => (q, [.fault])
  | .delete e preHead =>
    if (q.memory preHead).isSome then
      ({ q with memory := Function.update q.memory preHead none, consumer := .done e }, [])
    else (q, [.fault])
  | .done e => ({ q with consumer := .idle false }, [.popped e])

def step : Mealy.Step (Queue α) (Event α) (Out α)
  | q, .push e node => q.push e node
  | q, .producer => q.produce
  | q, .empty => match q.consumer with
    | .idle _ => ({ q with consumer := .idle (q.head ≠ q.tail) }, [.empty (q.head = q.tail)])
    | _ => (q, [])
  | q, .pop => match q.consumer with
    | .idle nonempty =>
      if q.head = q.tail then ({ q with consumer := .idle false }, [.threw nonempty])
      else ({ q with consumer := .read }, [])
    | _ => (q, [])
  | q, .consumer => q.consume

end Queue

def pushed : List (Out α) → List α := List.filterMap fun
  | .pushed e => some e
  | _ => none

def popped : List (Out α) → List (Option α) := List.filterMap fun
  | .popped e => some e
  | _ => none

def Producer.node : Producer α → Option ℕ
  | .idle => none
  | .value _ node | .link _ node | .advance _ node => some node

def Queue.written (q : Queue α) : List ℕ := q.tail :: q.producer.node.toList

def Consumer.taken : Consumer α → List (Option α)
  | .delete e _ | .done e => [e]
  | _ => []

-- ---------------------------------------------------------------------------
-- Invariant
-- ---------------------------------------------------------------------------

/-- How far `push` is, beside the chain of nodes that ends in `tail`. -/
def Producing (m : Memory α) (chain : List ℕ) (tail : ℕ) : Producer α → Prop
  | .idle => True
  | .value _ node => node ∉ chain ∧ (m node).isSome
  | .link e node => node ∉ chain ∧ ∃ c, m node = some c ∧ c.value = some e
  | .advance e node => node ∉ chain ∧ (∃ c, m node = some c ∧ c.value = some e) ∧
    ∃ c, m tail = some c ∧ c.next = some node

/-- How far `pop` is, beside the chain from `head` through `nodes`. -/
def Consuming (m : Memory α) (head : ℕ) (nodes : List (ℕ × α)) (own : Option ℕ) :
    Consumer α → Prop
  | .idle nonempty => nonempty = true → nodes ≠ []
  | .read => nodes ≠ []
  | .save e => nodes.head?.map (some ∘ Prod.snd) = some e
  | .advance e preHead => nodes.head?.map (some ∘ Prod.snd) = some e ∧ preHead = head
  | .delete _ preHead => preHead ∉ addrs head nodes ∧ (m preHead).isSome ∧ own ≠ some preHead
  | .done _ => True

structure Valid (q : Queue α) (nodes : List (ℕ × α)) : Prop where
  linked : Linked q.memory q.head nodes
  ends : last q.head nodes = q.tail
  nodup : (addrs q.head nodes).Nodup
  producing : Producing q.memory (addrs q.head nodes) q.tail q.producer
  consuming : Consuming q.memory q.head nodes q.producer.node q.consumer

/-- All that is in the queue, first what `pop` has taken. -/
def Queue.contents (q : Queue α) (nodes : List (ℕ × α)) : List (Option α) :=
  q.consumer.taken ++ nodes.map (some ∘ Prod.snd)

theorem Producing.notMem {p : Producer α} (h : Producing m chain tail p) (hn : p.node = some b) :
    b ∉ chain := by
  cases p <;> cases hn <;> exact h.1

theorem Producing.update {p : Producer α} (h : Producing m chain tail p) (ht : tail ∈ chain)
    (hb : b ∉ chain) (hn : p.node ≠ some b) (c : Option (Cell α)) :
    Producing (Function.update m b c) chain tail p := by
  have htail : tail ≠ b := fun he => hb (he ▸ ht)
  have hnode : ∀ node, p.node = some node → node ≠ b := by
    rintro node hp rfl
    exact hn hp
  cases p with
  | idle => trivial
  | value e node =>
    rw [Producing, Function.update_of_ne (hnode node rfl)]
    exact h
  | link e node =>
    rw [Producing, Function.update_of_ne (hnode node rfl)]
    exact h
  | advance e node =>
    rw [Producing, Function.update_of_ne (hnode node rfl), Function.update_of_ne htail]
    exact h

theorem Producing.mono {p : Producer α} (h : Producing m chain tail p) (hs : chain' ⊆ chain) :
    Producing m chain' tail p := by
  cases p with
  | idle => trivial
  | value e node => exact ⟨fun hn => h.1 (hs hn), h.2⟩
  | link e node => exact ⟨fun hn => h.1 (hs hn), h.2⟩
  | advance e node => exact ⟨fun hn => h.1 (hs hn), h.2⟩

theorem Consuming.update {c : Consumer α} (h : Consuming m head nodes own c)
    (hc : ∀ e, c ≠ .delete e b) (cell : Option (Cell α)) :
    Consuming (Function.update m b cell) head nodes own c := by
  cases c with
  | delete e preHead =>
    have hne : preHead ≠ b := fun he => hc e (he ▸ rfl)
    rw [Consuming, Function.update_of_ne hne]
    exact h
  | _ => exact h

theorem Consuming.changeOwn {c : Consumer α} (h : Consuming m head nodes own c)
    (hc : ∀ e preHead, c = .delete e preHead → own' ≠ some preHead) :
    Consuming m head nodes own' c := by
  cases c with
  | delete e preHead => exact ⟨h.1, h.2.1, hc e preHead rfl⟩
  | _ => exact h

theorem Consuming.ne_delete {c : Consumer α} (h : Consuming m head nodes own c)
    (hb : b ∈ addrs head nodes ∨ m b = none ∨ own = some b) : ∀ e, c ≠ .delete e b := by
  rintro e rfl
  obtain ⟨hn, hl, ho⟩ := h
  rcases hb with hb | hb | hb
  · exact hn hb
  · rw [hb] at hl
    cases hl
  · exact ho hb

theorem Consuming.append {c : Consumer α} (h : Consuming m head nodes own c)
    (hc : ∀ e, c ≠ .delete e b) (v : α) : Consuming m head (nodes ++ [(b, v)]) own c := by
  cases c with
  | idle nonempty => exact fun _ => by simp
  | read => exact by simp [Consuming]
  | save e =>
    cases nodes with
    | nil => cases h
    | cons node rest => exact h
  | advance e preHead =>
    cases nodes with
    | nil => cases h.1
    | cons node rest => exact h
  | delete e preHead =>
    refine ⟨fun hm => ?_, h.2⟩
    rw [addrs_append] at hm
    rcases List.mem_append.mp hm with hm | hm
    · exact h.1 hm
    · exact hc e (List.mem_singleton.mp hm ▸ rfl)
  | done e => trivial

-- ---------------------------------------------------------------------------
-- Each step keeps the chain
-- ---------------------------------------------------------------------------

namespace Queue

/-- The nodes after `head`: `push` adds one when it moves `tail`, `pop` takes one when it
moves `head`. -/
def nodesAfter (q : Queue α) (nodes : List (ℕ × α)) : Event α → List (ℕ × α)
  | .producer => match q.producer with
    | .advance e node => nodes ++ [(node, e)]
    | _ => nodes
  | .consumer => match q.consumer with
    | .advance _ _ => nodes.tail
    | _ => nodes
  | _ => nodes

end Queue

section
variable {q : Queue α} {nodes : List (ℕ × α)}

theorem Valid.tail_mem (h : Valid q nodes) : q.tail ∈ addrs q.head nodes :=
  h.ends ▸ last_mem q.head nodes

theorem Valid.empty_iff (h : Valid q nodes) : q.head = q.tail ↔ nodes = [] := by
  rw [← h.ends]
  exact eq_last_iff h.nodup

theorem Valid.headNext (h : Valid q ((b, v) :: rest)) :
    q.headNext = some b ∧ ∃ c, q.memory b = some c ∧ c.value = some v := by
  obtain ⟨⟨c, hc, hn⟩, hv, -⟩ := h.linked
  exact ⟨by rw [Queue.headNext, hc]; exact hn, hv⟩

/-- What a step keeps: the chain, what is in the queue but for what was pushed and popped, and
no access fails. -/
structure Keeps (q : Queue α) (nodes : List (ℕ × α)) (r : Queue α × List (Out α))
    (nodes' : List (ℕ × α)) : Prop where
  valid : Valid r.1 nodes'
  contents : q.contents nodes ++ (pushed r.2).map some = popped r.2 ++ r.1.contents nodes'
  fault : Out.fault ∉ r.2
  threw : Out.threw true ∉ r.2

theorem Keeps.silent (h : Valid q' nodes) (ht : q'.consumer.taken = q.consumer.taken) :
    Keeps q nodes (q', []) nodes where
  valid := h
  contents := by simp [Queue.contents, pushed, popped, ht]
  fault := List.not_mem_nil
  threw := List.not_mem_nil

theorem Valid.push (h : Valid q nodes) (e : α) (node : ℕ) :
    Keeps q nodes (q.push e node) nodes := by
  unfold Queue.push
  cases hp : q.producer with
  | idle =>
    cases hm : q.memory node with
    | some c => exact .silent h rfl
    | none =>
      have hnot : node ∉ addrs q.head nodes := fun hn => by
        have hlive := h.linked.live node hn
        rw [hm] at hlive
        cases hlive
      have hdel := h.consuming.ne_delete (.inr (.inl hm))
      refine .silent ?_ rfl
      exact {
        linked := h.linked.update hnot _
        ends := h.ends
        nodup := h.nodup
        producing := ⟨hnot, by simp⟩
        consuming := (h.consuming.update hdel _).changeOwn fun e' preHead hc ho =>
          hdel e' (Option.some_inj.mp ho ▸ hc) }
  | _ => exact .silent h rfl

theorem Valid.produce (h : Valid q nodes) :
    Keeps q nodes q.produce (q.nodesAfter nodes .producer) := by
  obtain ⟨hlinked, hends, hnodup, hprod, hcons⟩ := h
  cases hp : q.producer with
  | idle =>
    simp only [Queue.produce, Queue.nodesAfter, hp]
    exact .silent ⟨hlinked, hends, hnodup, hprod, hcons⟩ rfl
  | value e node =>
    rw [hp] at hprod hcons
    obtain ⟨hnot, hlive⟩ := hprod
    obtain ⟨c, hc⟩ := Option.isSome_iff_exists.mp hlive
    have hdel := hcons.ne_delete (.inr (.inr rfl))
    simp only [Queue.produce, Queue.nodesAfter, hp, hc]
    refine .silent ⟨hlinked.update hnot _, hends, hnodup, ⟨hnot, ?_⟩, hcons.update hdel _⟩ rfl
    exact ⟨_, Function.update_self .., rfl⟩
  | link e node =>
    rw [hp] at hprod hcons
    obtain ⟨hnot, hvalue⟩ := hprod
    have htail : q.tail ∈ addrs q.head nodes := hends ▸ last_mem q.head nodes
    obtain ⟨c, hc⟩ := Option.isSome_iff_exists.mp (hlinked.live q.tail htail)
    have hne : node ≠ q.tail := fun he => hnot (he ▸ htail)
    have hdel := hcons.ne_delete (.inl htail)
    simp only [Queue.produce, Queue.nodesAfter, hp, hc]
    refine .silent ⟨?_, hends, hnodup, ⟨hnot, ?_, ?_⟩, hcons.update hdel _⟩ rfl
    · have hset := hlinked.setNext hnodup (hends ▸ hc) (some node)
      rwa [hends] at hset
    · simpa only [Function.update_of_ne hne] using hvalue
    · exact ⟨_, Function.update_self .., rfl⟩
  | advance e node =>
    rw [hp] at hprod hcons
    obtain ⟨hnot, hvalue, hnext⟩ := hprod
    have hdel := hcons.ne_delete (.inr (.inr rfl))
    simp only [Queue.produce, Queue.nodesAfter, hp]
    refine ⟨?_, by simp [Queue.contents, pushed, popped], by simp, by simp⟩
    exact {
      linked := hlinked.append (hends ▸ hnext) hvalue
      ends := last_append ..
      nodup := nodup_addrs_append hnodup hnot e
      producing := trivial
      consuming := (hcons.append hdel e).changeOwn fun _ _ _ => by simp [Producer.node] }

theorem Valid.consume (h : Valid q nodes) :
    Keeps q nodes q.consume (q.nodesAfter nodes .consumer) := by
  have hcons := h.consuming
  cases hc : q.consumer with
  | idle nonempty =>
    simp only [Queue.consume, Queue.nodesAfter, hc]
    exact .silent h rfl
  | read =>
    rw [hc] at hcons
    obtain ⟨⟨b, v⟩, rest, rfl⟩ := List.exists_cons_of_ne_nil hcons
    obtain ⟨hnext, c, hb, hv⟩ := h.headNext
    simp only [Queue.consume, Queue.nodesAfter, hc, hnext, Option.bind_some, hb, hv]
    exact .silent ⟨h.linked, h.ends, h.nodup, h.producing, rfl⟩ (by rw [hc]; rfl)
  | save e =>
    rw [hc] at hcons
    simp only [Queue.consume, Queue.nodesAfter, hc]
    exact .silent ⟨h.linked, h.ends, h.nodup, h.producing, hcons, rfl⟩ (by rw [hc]; rfl)
  | advance e preHead =>
    rw [hc] at hcons
    obtain ⟨he, rfl⟩ := hcons
    cases nodes with
    | nil => cases he
    | cons node rest =>
      obtain ⟨b, v⟩ := node
      -- The value that was read is the first node's.
      obtain rfl : some v = e := Option.some_inj.mp he
      obtain ⟨hhead, hnodup⟩ := List.nodup_cons.mp h.nodup
      simp only [Queue.consume, Queue.nodesAfter, hc, h.headNext.1, List.tail_cons]
      refine ⟨?_, by simp [Queue.contents, Consumer.taken, pushed, popped, hc], by simp, by simp⟩
      exact {
        linked := h.linked.2.2
        ends := h.ends
        nodup := hnodup
        producing := h.producing.mono (List.subset_cons_self ..)
        consuming := by
          refine ⟨hhead, h.linked.live q.head List.mem_cons_self, fun hown => ?_⟩
          exact h.producing.notMem hown List.mem_cons_self }
  | delete e preHead =>
    rw [hc] at hcons
    obtain ⟨hnot, hlive, hown⟩ := hcons
    simp only [Queue.consume, Queue.nodesAfter, hc, if_pos hlive]
    refine .silent ?_ (by rw [hc]; rfl)
    exact ⟨h.linked.update hnot _, h.ends, h.nodup,
      h.producing.update h.tail_mem hnot hown _, trivial⟩
  | done e =>
    simp only [Queue.consume, Queue.nodesAfter, hc]
    refine ⟨⟨h.linked, h.ends, h.nodup, h.producing, by simp [Consuming]⟩, ?_, by simp, by simp⟩
    simp [Queue.contents, Consumer.taken, pushed, popped, hc]

theorem Valid.call (h : Valid q nodes) (hc : q.consumer = .idle nonempty) :
    Keeps q nodes (q.step .empty) nodes ∧ Keeps q nodes (q.step .pop) nodes := by
  have hcons := h.consuming
  rw [hc] at hcons
  have hsame : ∀ c, Consuming q.memory q.head nodes q.producer.node c →
      Valid { q with consumer := c } nodes := fun c hv =>
    ⟨h.linked, h.ends, h.nodup, h.producing, hv⟩
  simp only [Queue.step, hc]
  constructor
  · refine ⟨hsame _ (fun hn => mt h.empty_iff.mpr (by simpa using hn)), ?_, by simp, by simp⟩
    simp [Queue.contents, Consumer.taken, pushed, popped, hc]
  · by_cases he : q.head = q.tail
    · rw [if_pos he]
      have hn : nonempty = false := by
        cases nonempty with
        | true => exact absurd (h.empty_iff.mp he) (hcons rfl)
        | false => rfl
      refine ⟨hsame _ (fun hn => by cases hn), ?_, by simp, by simp [hn]⟩
      simp [Queue.contents, Consumer.taken, pushed, popped, hc]
    · rw [if_neg he]
      exact .silent (hsame _ (mt h.empty_iff.mpr he)) (by rw [hc]; rfl)

theorem Valid.step (h : Valid q nodes) (event : Event α) :
    Keeps q nodes (q.step event) (q.nodesAfter nodes event) := by
  cases event with
  | push e node => exact h.push e node
  | producer => exact h.produce
  | empty =>
    cases hc : q.consumer with
    | idle nonempty => exact (h.call hc).1
    | _ =>
      simp only [Queue.step, hc]
      exact .silent h rfl
  | pop =>
    cases hc : q.consumer with
    | idle nonempty => exact (h.call hc).2
    | _ =>
      simp only [Queue.step, hc]
      exact .silent h rfl
  | consumer => exact h.consume

end

-- ---------------------------------------------------------------------------
-- Runs
-- ---------------------------------------------------------------------------

section
variable {q : Queue α}

theorem Valid.new (node : ℕ) : Valid (Queue.new node : Queue α) [] where
  linked := by simp [Linked, Queue.new]
  ends := rfl
  nodup := List.nodup_singleton node
  producing := trivial
  consuming := fun h => by cases h

theorem Valid.run {nodes : List (ℕ × α)} (h : Valid q nodes) (events : List (Event α)) :
    ∃ nodes', Valid (Mealy.final Queue.step q events) nodes' ∧
      q.contents nodes ++ (pushed (Mealy.emitted Queue.step q events)).map some =
        popped (Mealy.emitted Queue.step q events) ++
          (Mealy.final Queue.step q events).contents nodes' ∧
      Out.fault ∉ Mealy.emitted Queue.step q events ∧
      Out.threw true ∉ Mealy.emitted Queue.step q events := by
  induction events generalizing q nodes with
  | nil => exact ⟨nodes, h, by simp [pushed, popped], List.not_mem_nil, List.not_mem_nil⟩
  | cons event rest ih =>
    have hstep := h.step event
    obtain ⟨nodes', hv, hc, hf, ht⟩ := ih hstep.valid
    refine ⟨nodes', hv, ?_, ?_, ?_⟩
    · simp only [Mealy.emitted_cons, Mealy.final_cons, pushed, popped, List.filterMap_append,
        List.map_append] at hc ⊢
      have hfirst := hstep.contents
      simp only [pushed, popped] at hfirst
      rw [← List.append_assoc, hfirst, List.append_assoc, hc, List.append_assoc]
    · simp only [Mealy.emitted_cons, List.mem_append, not_or]
      exact ⟨hstep.fault, hf⟩
    · simp only [Mealy.emitted_cons, List.mem_append, not_or]
      exact ⟨hstep.threw, ht⟩

/-- The chain is that queue whose calls are one step each. -/
def Queue.Represents (q : Queue α) (queue : LockFreeQueue α) : Prop :=
  ∃ nodes, Valid q nodes ∧ queue.toList = nodes.map Prod.snd

theorem represents_new (node : ℕ) : (Queue.new node : Queue α).Represents .new :=
  ⟨[], .new node, rfl⟩

theorem Queue.Represents.empty_iff {queue : LockFreeQueue α} (h : q.Represents queue) :
    q.head = q.tail ↔ queue.empty := by
  obtain ⟨nodes, hv, hq⟩ := h
  rw [LockFreeQueue.toList] at hq
  rw [hv.empty_iff, LockFreeQueue.empty, hq, List.isEmpty_iff, List.map_eq_nil_iff]

/-- A `push` takes effect where it moves `tail`, a `pop` where it moves `head`. -/
theorem Queue.Represents.step {queue : LockFreeQueue α} (h : q.Represents queue)
    (event : Event α) : ∃ queue', (q.step event).1.Represents queue' ∧
      (queue' = queue ∨ (∃ e node, q.producer = .advance e node ∧ queue' = queue.push e) ∨
        ∃ v preHead, q.consumer = .advance (some v) preHead ∧ queue.pop = some (v, queue')) := by
  obtain ⟨nodes, hv, hq⟩ := h
  have hstep := (hv.step event).valid
  have hcons := hv.consuming
  cases event with
  | producer =>
    cases hp : q.producer with
    | advance e node =>
      simp only [Queue.nodesAfter, hp] at hstep
      refine ⟨queue.push e, ⟨_, hstep, by simp [hq]⟩, .inr (.inl ⟨e, node, rfl, rfl⟩)⟩
    | _ =>
      simp only [Queue.nodesAfter, hp] at hstep
      exact ⟨queue, ⟨nodes, hstep, hq⟩, .inl rfl⟩
  | consumer =>
    cases hc : q.consumer with
    | advance e preHead =>
      rw [hc] at hcons
      simp only [Queue.nodesAfter, hc] at hstep
      cases nodes with
      | nil => cases hcons.1
      | cons node rest =>
        obtain rfl : some node.2 = e := Option.some_inj.mp hcons.1
        obtain ⟨queue', hpop, hrest⟩ := LockFreeQueue.pop_of_cons hq
        exact ⟨queue', ⟨rest, hstep, hrest⟩, .inr (.inr ⟨node.2, preHead, rfl, hpop⟩)⟩
    | _ =>
      simp only [Queue.nodesAfter, hc] at hstep
      exact ⟨queue, ⟨nodes, hstep, hq⟩, .inl rfl⟩
  | _ => exact ⟨queue, ⟨nodes, hstep, hq⟩, .inl rfl⟩

/-- In every run the values `pop` returns are the first ones pushed, all of them once `pop` has
returned and the queue is empty; no access fails, a `pop` after an `empty` that returned false
does not throw, and the node the consumer deletes is none the producer writes to. -/
theorem pops_follow_pushes (node : ℕ) (events : List (Event α)) :
    let q := Mealy.final Queue.step (Queue.new node) events
    let outs := Mealy.emitted Queue.step (Queue.new node) events
    popped outs <+: (pushed outs).map some ∧
    (∀ nonempty, q.consumer = .idle nonempty → q.head = q.tail →
      popped outs = (pushed outs).map some) ∧
    Out.fault ∉ outs ∧ Out.threw true ∉ outs ∧
    ∀ e preHead, q.consumer = .delete e preHead → preHead ∉ q.written := by
  intro q outs
  obtain ⟨nodes, hv, hc, hf, ht⟩ := (Valid.new node).run events
  change (pushed outs).map some = popped outs ++ q.contents nodes at hc
  refine ⟨⟨q.contents nodes, hc.symm⟩, ?_, hf, ht, ?_⟩
  · intro nonempty hidle he
    have hempty : q.contents nodes = [] := by
      simp only [Queue.contents, hidle, Consumer.taken, hv.empty_iff.mp he, List.map_nil,
        List.append_nil]
    rw [hc, hempty, List.append_nil]
  · intro e preHead hdel
    have hcons := hv.consuming
    rw [hdel] at hcons
    obtain ⟨hnot, -, hown⟩ := hcons
    simp only [Queue.written, List.mem_cons, Option.mem_toList, not_or]
    exact ⟨fun he => hnot (he ▸ hv.tail_mem), hown⟩

end

end TienKung.LockFreeSteps
