import TienKung.Lib.Mealy
import TienKung.Util.LockFreeQueue

/-!
# `SingleChannel` without timeouts

One thread sends with `operator<<`, another receives with `operator>>`. A step is
a call with its size test, the start of a wait, a queue operation, an update of
the size or a notify. A notify wakes the other thread only if it waits already,
and a waiting thread may wake by itself; no test follows a wait. Each condition
variable has one thread that waits and a mutex of its own, which no other
thread takes, so the mutexes are left out.
-/

namespace TienKung

variable {α : Type}

namespace SingleChannel

/-- The statement of `operator<<` that is next: `cvWaitSpace.wait(lck)`, `queue.push(data)`,
`++size` or `cvWaitData.notify_one()`. -/
inductive Sender (α : Type)
  | idle
  | wait (data : α)
  | waiting (data : α)
  | push (data : α)
  | increment
  | notify
  deriving DecidableEq

/-- The statement of `operator>>` that is next: `cvWaitData.wait(lck)`, `data = queue.pop()`,
`--size` or `cvWaitSpace.notify_one()`. -/
inductive Receiver (α : Type)
  | idle
  | wait
  | waiting
  | pop
  | decrement (data : α)
  | notify (data : α)
  deriving DecidableEq

inductive Event (α : Type)
  /-- The operator is called and makes its test. -/
  | send (data : α)
  | sender
  | senderWakes
  | receive
  | receiver
  | receiverWakes

inductive Out (α : Type)
  | sent
  | received (data : α)
  | threw
  /-- The size went past its largest value or below 0. -/
  | wrapped
  deriving DecidableEq

end SingleChannel

open SingleChannel in
structure SingleChannel (α : Type) where
  queue : LockFreeQueue α
  max : UInt64
  size : UInt64
  sender : Sender α
  receiver : Receiver α

namespace SingleChannel

def new (max : UInt64) : SingleChannel α where
  queue := .new
  max := max
  size := 0
  sender := .idle
  receiver := .idle

-- ---------------------------------------------------------------------------
-- Steps
-- ---------------------------------------------------------------------------

def Sender.wake : Sender α → Sender α
  | .waiting data => .push data
  | sender => sender

def Receiver.wake : Receiver α → Receiver α
  | .waiting => .pop
  | receiver => receiver

def send (c : SingleChannel α) (data : α) : SingleChannel α :=
  match c.sender with
  | .idle => { c with sender := if c.size = c.max then .wait data else .push data }
  | _ => c

def sendNext (c : SingleChannel α) : SingleChannel α × List (Out α) :=
  match c.sender with
  | .idle | .waiting _ => (c, [])
  | .wait data => ({ c with sender := .waiting data }, [])
  | .push data => ({ c with queue := c.queue.push data, sender := .increment }, [])
  | .increment => ({ c with size := c.size + 1, sender := .notify },
      if c.size + 1 = 0 then [.wrapped] else [])
  | .notify => ({ c with sender := .idle, receiver := c.receiver.wake }, [.sent])

def receive (c : SingleChannel α) : SingleChannel α :=
  match c.receiver with
  | .idle => { c with receiver := if c.size = 0 then .wait else .pop }
  | _ => c

def receiveNext (c : SingleChannel α) : SingleChannel α × List (Out α) :=
  match c.receiver with
  | .idle | .waiting => (c, [])
  | .wait => ({ c with receiver := .waiting }, [])
  | .pop => match c.queue.pop with
    | some (data, queue) => ({ c with queue := queue, receiver := .decrement data }, [])
    | none => ({ c with receiver := .idle }, [.threw])
  | .decrement data => ({ c with size := c.size - 1, receiver := .notify data },
      if c.size = 0 then [.wrapped] else [])
  | .notify data => ({ c with receiver := .idle, sender := c.sender.wake }, [.received data])

def step : Mealy.Step (SingleChannel α) (Event α) (Out α)
  | c, .send data => (c.send data, [])
  | c, .sender => c.sendNext
  | c, .senderWakes => ({ c with sender := c.sender.wake }, [])
  | c, .receive => (c.receive, [])
  | c, .receiver => c.receiveNext
  | c, .receiverWakes => ({ c with receiver := c.receiver.wake }, [])

-- ---------------------------------------------------------------------------
-- What should hold
-- ---------------------------------------------------------------------------

namespace Sender

def waits : Sender α → Bool
  | .waiting _ => true
  | _ => false

def startsWait : Sender α → Bool
  | .wait _ => true
  | _ => false

def notifies : Sender α → Bool
  | .notify => true
  | _ => false

def adds : Sender α → Bool
  | .push _ | .increment => true
  | _ => false

/-- The elements that `push` has added and the size does not count yet. -/
def uncounted : Sender α → ℕ
  | .increment => 1
  | _ => 0

end Sender

namespace Receiver

def waits : Receiver α → Bool
  | .waiting => true
  | _ => false

def startsWait : Receiver α → Bool
  | .wait => true
  | _ => false

def notifies : Receiver α → Bool
  | .notify _ => true
  | _ => false

def takes : Receiver α → Bool
  | .pop | .decrement _ => true
  | _ => false

/-- The elements that `pop` has taken and the size still counts. -/
def counted : Receiver α → ℕ
  | .decrement _ => 1
  | _ => 0

end Receiver

theorem Sender.wake_of_waits {sender : Sender α} (h : sender.waits) :
    ∃ data, sender.wake = .push data := by
  cases sender with
  | waiting data => exact ⟨data, rfl⟩
  | _ => cases h

theorem Receiver.wake_of_waits {receiver : Receiver α} (h : receiver.waits) :
    receiver.wake = .pop := by
  cases receiver with
  | waiting => rfl
  | _ => cases h

theorem Receiver.not_waits_of_notifies {receiver : Receiver α} (h : receiver.notifies) :
    ¬ (receiver.waits ∨ receiver.startsWait) := by
  cases receiver with
  | notify data => simp [waits, startsWait]
  | _ => cases h

def Out.fails : Out α → Bool
  | .threw | .wrapped => true
  | _ => false

/-- Between operations the size is the number of elements, and the two threads do not both wait
while there is room. -/
structure Good (c : SingleChannel α) : Prop where
  atMost : c.size ≤ c.max
  counts : c.sender.uncounted = 0 → c.receiver.counted = 0 →
    c.size.toNat = c.queue.toList.length
  moves : c.sender.waits → c.receiver.waits → c.max.toNat ≤ c.queue.toList.length

/-- A wait ends only when what was waited for is there, and the sender starts to wait only while
there is an element, or no room at all, or the receiver still has to notify. -/
def Careful (c : SingleChannel α) : Event α → Prop
  | .sender => (c.sender.startsWait → c.size ≠ 0 ∨ c.max = 0 ∨ c.receiver.notifies) ∧
    (c.sender.notifies → c.receiver.waits → c.size ≠ 0)
  | .senderWakes => c.sender.waits → c.size ≠ c.max
  | .receiver => c.receiver.notifies → c.sender.waits → c.size ≠ c.max
  | .receiverWakes => c.receiver.waits → c.size ≠ 0
  | .send _ | .receive => True

instance (c : SingleChannel α) : DecidablePred c.Careful
  | .sender => inferInstanceAs (Decidable (_ ∧ _))
  | .senderWakes => inferInstanceAs (Decidable (_ → _))
  | .receiver => inferInstanceAs (Decidable (_ → _))
  | .receiverWakes => inferInstanceAs (Decidable (_ → _))
  | .send _ | .receive => inferInstanceAs (Decidable True)

-- ---------------------------------------------------------------------------
-- Invariant
-- ---------------------------------------------------------------------------

structure Valid (c : SingleChannel α) : Prop where
  counts : c.queue.toList.length + c.receiver.counted = c.size.toNat + c.sender.uncounted
  atMost : c.size.toNat ≤ c.max.toNat
  room : c.sender.adds → c.size.toNat < c.max.toNat
  data : c.receiver.takes → 0 < c.size.toNat
  /-- A sender that waits at an empty channel will be notified. -/
  waits : c.sender.waits → c.size.toNat = 0 → c.max.toNat = 0 ∨ c.receiver.notifies
  bothWait : c.sender.waits ∨ c.sender.startsWait → c.receiver.waits ∨ c.receiver.startsWait →
    c.size.toNat = c.max.toNat ∨ c.sender.startsWait ∧ c.size.toNat = 0

section
variable {c : SingleChannel α}

theorem Valid.new (max : UInt64) : Valid (new max : SingleChannel α) := by
  constructor <;>
    simp [SingleChannel.new, LockFreeQueue.new, LockFreeQueue.toList, Sender.uncounted,
      Receiver.counted, Sender.adds, Receiver.takes, Sender.waits, Sender.startsWait]

theorem Valid.good (h : Valid c) : Good c where
  atMost := UInt64.le_iff_toNat_le.mpr h.atMost
  counts := fun hs hr => by
    have := h.counts
    omega
  moves := fun hs hr => by
    obtain ⟨hc, ha, -, -, -, hb⟩ := h
    cases hsend : c.sender <;> rw [hsend] at hs <;> try cases hs
    cases hrecv : c.receiver <;> rw [hrecv] at hr <;> try cases hr
    simp [hsend, hrecv, Sender.waits, Sender.startsWait, Receiver.waits, Receiver.counted,
      Sender.uncounted] at hb hc
    omega

theorem Valid.send (h : Valid c) (data : α) : Valid (c.send data) := by
  unfold SingleChannel.send
  cases hs : c.sender with
  | idle =>
    obtain ⟨hcounts, hatMost, -, hdata, -, -⟩ := h
    rw [hs] at hcounts
    by_cases he : c.size = c.max
    · simp only [if_pos he]
      exact ⟨hcounts, hatMost, by simp [Sender.adds], hdata, by simp [Sender.waits],
        fun _ _ => .inl (he ▸ rfl)⟩
    · have hne : c.size.toNat ≠ c.max.toNat := fun hn => he (UInt64.toNat_inj.mp hn)
      simp only [if_neg he]
      exact ⟨hcounts, hatMost, fun _ => Nat.lt_of_le_of_ne hatMost hne, hdata,
        by simp [Sender.waits], by simp [Sender.waits, Sender.startsWait]⟩
  | _ => exact h

theorem Valid.receive (h : Valid c) : Valid c.receive := by
  unfold SingleChannel.receive
  cases hr : c.receiver with
  | idle =>
    obtain ⟨hcounts, hatMost, hroom, -, hwaits, -⟩ := h
    rw [hr] at hcounts hwaits
    by_cases he : c.size = 0
    · have hzero : c.size.toNat = 0 := by rw [he]; rfl
      simp only [if_pos he]
      refine ⟨hcounts, hatMost, hroom, by simp [Receiver.takes], fun hs hz => ?_, ?_⟩
      · exact .inl ((hwaits hs hz).resolve_right (by simp [Receiver.notifies]))
      · rintro (hs | hs) -
        · have hmax := (hwaits hs hzero).resolve_right (by simp [Receiver.notifies])
          exact .inl (hzero.trans hmax.symm)
        · exact .inr ⟨hs, hzero⟩
    · have hne : c.size.toNat ≠ 0 := fun hn => he (UInt64.toNat_inj.mp hn)
      simp only [if_neg he]
      exact ⟨hcounts, hatMost, hroom, fun _ => Nat.pos_of_ne_zero hne,
        fun _ hz => absurd hz hne, by simp [Receiver.waits, Receiver.startsWait]⟩
  | _ => exact h

theorem Valid.senderWakes (h : Valid c) (hw : c.sender.waits → c.size ≠ c.max) :
    Valid { c with sender := c.sender.wake } := by
  cases hs : c.sender with
  | waiting data =>
    obtain ⟨hcounts, hatMost, -, hdata, -, -⟩ := h
    rw [hs] at hcounts hw
    have hne : c.size.toNat ≠ c.max.toNat := fun hn => hw rfl (UInt64.toNat_inj.mp hn)
    exact ⟨hcounts, hatMost, fun _ => Nat.lt_of_le_of_ne hatMost hne, hdata,
      by simp [Sender.wake, Sender.waits], by simp [Sender.wake, Sender.waits, Sender.startsWait]⟩
  | _ => simpa only [Sender.wake, ← hs] using h

theorem Valid.receiverWakes (h : Valid c) (hw : c.receiver.waits → c.size ≠ 0) :
    Valid { c with receiver := c.receiver.wake } := by
  cases hr : c.receiver with
  | waiting =>
    obtain ⟨hcounts, hatMost, hroom, -, hwaits, -⟩ := h
    rw [hr] at hcounts hw
    have hne : c.size.toNat ≠ 0 := fun hn => hw rfl (UInt64.toNat_inj.mp hn)
    exact ⟨hcounts, hatMost, hroom, fun _ => Nat.pos_of_ne_zero hne, fun _ hz => absurd hz hne,
      by simp [Receiver.wake, Receiver.waits, Receiver.startsWait]⟩
  | _ => simpa only [Receiver.wake, ← hr] using h

theorem Valid.sendNext (h : Valid c) (hc : c.Careful .sender) :
    Valid c.sendNext.1 ∧ ∀ o ∈ c.sendNext.2, ¬ o.fails := by
  unfold SingleChannel.sendNext
  obtain ⟨hcounts, hatMost, hroom, hdata, hwaits, hboth⟩ := h
  cases hs : c.sender with
  | idle => exact ⟨⟨hcounts, hatMost, hroom, hdata, hwaits, hboth⟩, by simp⟩
  | waiting data => exact ⟨⟨hcounts, hatMost, hroom, hdata, hwaits, hboth⟩, by simp⟩
  | wait data =>
    rw [hs] at hcounts hboth
    have hstart := hc.1 (by rw [hs]; rfl)
    refine ⟨⟨hcounts, hatMost, by simp [Sender.adds], hdata, fun _ hz => ?_, fun _ hr => ?_⟩,
      by simp⟩
    · rcases hstart with hne | hmax | hnot
      · exact absurd (UInt64.toNat_inj.mp hz) hne
      · exact .inl (by rw [hmax]; rfl)
      · exact .inr hnot
    · rcases hboth (.inr rfl) hr with hfull | ⟨-, hz⟩
      · exact .inl hfull
      · rcases hstart with hne | hmax | hnot
        · exact absurd (UInt64.toNat_inj.mp hz) hne
        · exact .inl (by rw [hmax, hz]; rfl)
        · exact absurd hr (Receiver.not_waits_of_notifies hnot)
  | push data =>
    rw [hs] at hcounts hroom
    refine ⟨⟨?_, hatMost, hroom, hdata, by simp [Sender.waits], ?_⟩, by simp⟩
    · simp only [LockFreeQueue.toList_push, List.length_append, List.length_singleton,
        Sender.uncounted] at hcounts ⊢
      omega
    · simp [Sender.waits, Sender.startsWait]
  | increment =>
    rw [hs] at hcounts hroom
    have hlt := hroom rfl
    have hsum : (c.size + 1).toNat = c.size.toNat + 1 := by
      have := c.max.toNat_lt
      rw [UInt64.toNat_add, UInt64.toNat_one, Nat.mod_eq_of_lt (by omega)]
    have hne : c.size + 1 ≠ 0 := fun he => by
      rw [he] at hsum
      cases hsum
    rw [if_neg hne]
    refine ⟨⟨?_, ?_, by simp [Sender.adds], ?_, by simp [Sender.waits], ?_⟩, by simp⟩
    · simp only [hsum, Sender.uncounted] at hcounts ⊢
      omega
    · simp only [hsum]
      omega
    · simp only [hsum]
      omega
    · simp [Sender.waits, Sender.startsWait]
  | notify =>
    have hv : Valid { c with sender := .idle } := by
      rw [hs] at hcounts
      exact ⟨hcounts, hatMost, by simp [Sender.adds], hdata, by simp [Sender.waits],
        by simp [Sender.waits, Sender.startsWait]⟩
    exact ⟨hv.receiverWakes (hc.2 (by rw [hs]; rfl)), by simp [Out.fails]⟩

theorem Valid.receiveNext (h : Valid c) (hc : c.Careful .receiver) :
    Valid c.receiveNext.1 ∧ ∀ o ∈ c.receiveNext.2, ¬ o.fails := by
  unfold SingleChannel.receiveNext
  obtain ⟨hcounts, hatMost, hroom, hdata, hwaits, hboth⟩ := h
  cases hr : c.receiver with
  | idle => exact ⟨⟨hcounts, hatMost, hroom, hdata, hwaits, hboth⟩, by simp⟩
  | waiting => exact ⟨⟨hcounts, hatMost, hroom, hdata, hwaits, hboth⟩, by simp⟩
  | wait =>
    rw [hr] at hcounts hwaits hboth
    refine ⟨⟨hcounts, hatMost, hroom, by simp [Receiver.takes], ?_, fun hs _ => ?_⟩, by simp⟩
    · exact fun hs hz => .inl ((hwaits hs hz).resolve_right (by simp [Receiver.notifies]))
    · exact hboth hs (.inr rfl)
  | pop =>
    rw [hr] at hcounts hdata hwaits
    have hpos := hdata rfl
    cases hq : c.queue.toList with
    | nil =>
      simp only [hq, List.length_nil, Receiver.counted] at hcounts
      omega
    | cons data rest =>
      obtain ⟨queue, hpop, hrest⟩ := LockFreeQueue.pop_of_cons hq
      simp only [hpop]
      refine ⟨⟨?_, hatMost, hroom, fun _ => hpos, fun _ hz => ?_, ?_⟩, by simp⟩
      · simp only [hq, hrest, List.length_cons, Receiver.counted] at hcounts ⊢
        omega
      · exact absurd hz (Nat.pos_iff_ne_zero.mp hpos)
      · simp [Receiver.waits, Receiver.startsWait]
  | decrement data =>
    rw [hr] at hcounts hdata
    have hpos := hdata rfl
    have hne : c.size ≠ 0 := fun he => by
      rw [he] at hpos
      cases hpos
    have hsub : (c.size - 1).toNat = c.size.toNat - 1 :=
      UInt64.toNat_sub_of_le _ _ (UInt64.le_iff_toNat_le.mpr hpos)
    rw [if_neg hne]
    refine ⟨⟨?_, ?_, fun hs => ?_, by simp [Receiver.takes], fun _ _ => .inr rfl, ?_⟩, by simp⟩
    · simp only [hsub, Receiver.counted] at hcounts ⊢
      omega
    · simp only [hsub]
      omega
    · have hlt := hroom hs
      simp only [hsub]
      omega
    · simp [Receiver.waits, Receiver.startsWait]
  | notify data =>
    -- The sender is woken, if it waits, before the receiver is idle again.
    have hv := Valid.senderWakes ⟨hcounts, hatMost, hroom, hdata, hwaits, hboth⟩
      (hc (by rw [hr]; rfl))
    obtain ⟨hcounts, hatMost, hroom, -, -, -⟩ := hv
    have hawake : c.sender.wake.waits = false := by cases c.sender <;> rfl
    simp only [hr] at hcounts
    exact ⟨⟨hcounts, hatMost, hroom, by simp [Receiver.takes], by simp [hawake],
      by simp [Receiver.waits, Receiver.startsWait]⟩, by simp [Out.fails]⟩

theorem Valid.step (h : Valid c) (hc : c.Careful event) :
    Valid (step c event).1 ∧ ∀ o ∈ (step c event).2, ¬ o.fails := by
  cases event with
  | send data => exact ⟨h.send data, by simp [SingleChannel.step]⟩
  | sender => exact h.sendNext hc
  | senderWakes => exact ⟨h.senderWakes hc, by simp [SingleChannel.step]⟩
  | receive => exact ⟨h.receive, by simp [SingleChannel.step]⟩
  | receiver => exact h.receiveNext hc
  | receiverWakes => exact ⟨h.receiverWakes hc, by simp [SingleChannel.step]⟩

end

-- ---------------------------------------------------------------------------
-- Runs
-- ---------------------------------------------------------------------------

/-- In a careful run no `pop` throws, the size does not wrap, and every state is good. -/
theorem careful_run_good (max : UInt64) (events : List (Event α))
    (h : Mealy.Along step Careful (new max) events) :
    (∀ o ∈ Mealy.emitted step (new max) events, ¬ o.fails) ∧
      ∀ before, before <+: events → Good (Mealy.final step (new max) before) := by
  constructor
  · exact h.emitted (Valid.new max) (fun c event hv hc => (hv.step hc).1)
      fun c event hv hc => (hv.step hc).2
  · intro before hp
    exact ((h.of_prefix hp).final (Valid.new max) fun c event hv hc => (hv.step hc).1).good

-- ---------------------------------------------------------------------------
-- Steps that are not careful
-- ---------------------------------------------------------------------------

/-- Some way to go on makes a call fail or leads to a state that is not good. -/
def CanFail (c : SingleChannel α) : Prop :=
  ∃ events, (∃ o ∈ Mealy.emitted step c events, o.fails) ∨ ¬ Good (Mealy.final step c events)

section
variable {c : SingleChannel α}

theorem canFail_of_pop (hr : c.receiver = .pop) (hz : c.size = 0) : c.CanFail := by
  cases hp : c.queue.pop with
  | none =>
    refine ⟨[.receiver], .inl ⟨.threw, ?_, rfl⟩⟩
    simp [step, receiveNext, hr, hp]
  | some r =>
    refine ⟨[.receiver, .receiver], .inl ⟨.wrapped, ?_, rfl⟩⟩
    simp [step, receiveNext, hr, hp, hz]

theorem canFail_of_push (hs : c.sender = .push data) (hfull : c.size = c.max) : c.CanFail := by
  by_cases hw : c.size + 1 = 0
  · refine ⟨[.sender, .sender], .inl ⟨.wrapped, ?_, rfl⟩⟩
    simp [step, sendNext, hs, hw]
  · refine ⟨[.sender, .sender], .inr fun hg => ?_⟩
    have hle := hg.atMost
    simp only [Mealy.final_cons, Mealy.final_nil, step, sendNext, hs, ← hfull,
      UInt64.le_iff_toNat_le, UInt64.toNat_add, UInt64.toNat_one] at hle
    have hlt := c.size.toNat_lt
    have hne : (c.size.toNat + 1) % 2 ^ 64 ≠ 0 := fun he =>
      hw (UInt64.toNat_inj.mp (by rw [UInt64.toNat_add]; exact he))
    omega

theorem canFail_of_waiting (hs : c.sender.waits) (hr : ¬ c.receiver.notifies)
    (ht : ¬ c.receiver.takes) (hz : c.size = 0) (hq : c.queue.toList = []) (hm : c.max ≠ 0) :
    c.CanFail := by
  have hstuck : ∀ c' : SingleChannel α, c'.sender = c.sender → c'.queue = c.queue →
      c'.max = c.max → c'.receiver.waits → ¬ Good c' := fun c' hsend hqueue hmax hw hg => by
    have hle := hg.moves (by rw [hsend]; exact hs) hw
    rw [hmax, hqueue, hq] at hle
    exact hm (UInt64.toNat_inj.mp (Nat.le_zero.mp hle))
  cases hrecv : c.receiver with
  | idle =>
    refine ⟨[.receive, .receiver], .inr (hstuck _ ?_ ?_ ?_ ?_)⟩ <;>
      simp [step, receive, receiveNext, hrecv, hz, Receiver.waits]
  | wait =>
    refine ⟨[.receiver], .inr (hstuck _ ?_ ?_ ?_ ?_)⟩ <;>
      simp [step, receiveNext, hrecv, Receiver.waits]
  | waiting => exact ⟨[], .inr (hstuck c rfl rfl rfl (by rw [hrecv]; rfl))⟩
  | pop => exact absurd rfl (hrecv ▸ ht)
  | decrement data => exact absurd rfl (hrecv ▸ ht)
  | notify data => exact absurd rfl (hrecv ▸ hr)

/-- The condition leaves out no harmless step. -/
theorem canFail_of_careless (h : Valid c) (hc : ¬ c.Careful event) :
    (step c event).1.CanFail := by
  cases event with
  | send data => exact absurd trivial hc
  | receive => exact absurd trivial hc
  | senderWakes =>
    obtain ⟨hw, hfull⟩ := Classical.not_imp.mp hc
    obtain ⟨data, hpush⟩ := Sender.wake_of_waits hw
    exact canFail_of_push hpush (not_not.mp hfull)
  | receiverWakes =>
    obtain ⟨hw, hz⟩ := Classical.not_imp.mp hc
    exact canFail_of_pop (Receiver.wake_of_waits hw) (not_not.mp hz)
  | receiver =>
    obtain ⟨hn, hc⟩ := Classical.not_imp.mp hc
    obtain ⟨hw, hfull⟩ := Classical.not_imp.mp hc
    obtain ⟨data, hpush⟩ := Sender.wake_of_waits hw
    cases hr : c.receiver with
    | notify value =>
      have hstep : (step c .receiver).1 = { c with receiver := .idle, sender := .push data } := by
        rw [step, receiveNext, hr, ← hpush]
      rw [hstep]
      exact canFail_of_push rfl (not_not.mp hfull)
    | _ => simp [hr, Receiver.notifies] at hn
  | sender =>
    rcases not_and_or.mp hc with hc | hc
    · obtain ⟨hst, hc⟩ := Classical.not_imp.mp hc
      simp only [not_or, not_not] at hc
      obtain ⟨hz, hm, hn⟩ := hc
      cases hs : c.sender with
      | wait data =>
        have hsize : c.size.toNat = 0 := by rw [hz]; rfl
        have htakes : ¬ c.receiver.takes := fun ht => absurd (h.data ht) (by omega)
        have hempty : c.queue.toList = [] := by
          have hcounts := h.counts
          rw [hs, hsize] at hcounts
          exact List.length_eq_zero_iff.mp (Nat.eq_zero_of_add_eq_zero_right hcounts)
        have hstep : (step c .sender).1 = { c with sender := .waiting data } := by
          rw [step, sendNext, hs]
        rw [hstep]
        exact canFail_of_waiting rfl hn htakes hz hempty hm
      | _ => simp [hs, Sender.startsWait] at hst
    · obtain ⟨hn, hc⟩ := Classical.not_imp.mp hc
      obtain ⟨hw, hz⟩ := Classical.not_imp.mp hc
      have hpop := Receiver.wake_of_waits hw
      cases hs : c.sender with
      | notify =>
        have hstep : (step c .sender).1 = { c with sender := .idle, receiver := .pop } := by
          rw [step, sendNext, hs, ← hpop]
        rw [hstep]
        exact canFail_of_pop rfl (not_not.mp hz)
      | _ => simp [hs, Sender.notifies] at hn

end

theorem careful_run_good_waited : Good (Mealy.final step (new 1)
    [.receive, .receiver, .send 7, .sender, .sender, .sender, .receiver, .receiver, .receiver]) :=
  (careful_run_good 1 [.receive, .receiver, .send 7, .sender, .sender, .sender, .receiver,
    .receiver, .receiver] (by decide)).2 _ List.prefix_rfl

/-- No thread wakes by itself here. A notify that comes late lets the receiver take from an empty
queue, one lets the sender go past `max`, and a wait that starts late lasts. -/
theorem late_notify_and_wait :
    Out.threw ∈ Mealy.emitted step (new 1) [.send 7, .sender, .sender, .receive, .receiver,
      .receiver, .receiver, .receive, .receiver, .sender, .receiver] ∧
    ¬ Good (Mealy.final step (new 1) [.send 7, .sender, .sender, .sender, .receive, .receiver,
      .receiver, .send 8, .sender, .sender, .sender, .send 9, .sender, .receiver, .sender,
      .sender]) ∧
    ¬ Good (Mealy.final step (new 1) [.send 7, .sender, .sender, .sender, .send 8, .receive,
      .receiver, .receiver, .receiver, .sender, .receive, .receiver]) :=
  ⟨by decide, fun h => absurd h.atMost (by decide), fun h => absurd (h.moves rfl rfl) (by decide)⟩

end SingleChannel

end TienKung
