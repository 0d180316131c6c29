import TienKung.Lib.Mealy

/-!
# Messages in numbered parts

A message has a code and a payload, and goes out in parts. Each part names the
code, the number of parts and its own number, from one. The receiver puts the
payloads of consecutive parts together.
-/

namespace Framing

variable {κ β : Type*}

structure Part (κ β : Type*) where
  code : κ
  count : Nat
  seq : Nat
  payload : List β

/-- The parts from number `seq` on. -/
def numbered (code : κ) (count : Nat) : Nat → List (List β) → List (Part κ β)
  | _, [] => []
  | seq, chunk :: chunks => ⟨code, count, seq, chunk⟩ :: numbered code count (seq + 1) chunks

def parts (code : κ) (chunks : List (List β)) : List (Part κ β) :=
  numbered code chunks.length 1 chunks

/-- A message of which some parts are still to come. -/
structure Pending (κ β : Type*) where
  code : κ
  count : Nat
  received : Nat
  payload : List β

/-- The receiver. A part that does not continue what is pending is dropped, and
what is pending with it. -/
def receive [DecidableEq κ] : Mealy.Step (Option (Pending κ β)) (Part κ β) (κ × List β) :=
  fun pending p =>
    let begun := pending.getD ⟨p.code, p.count, 0, []⟩
    if p.code = begun.code ∧ p.count = begun.count ∧ p.seq = begun.received + 1 then
      let payload := begun.payload ++ p.payload
      if p.seq = p.count then (none, [(p.code, payload)])
      else (some ⟨p.code, p.count, p.seq, payload⟩, [])
    else (none, [])

section
variable [DecidableEq κ] {code : κ} {chunk payload : List β} {chunks : List (List β)}
  {pending : Option (Pending κ β)}

theorem receive_last {count received : Nat}
    (hbegun : pending.getD ⟨code, count, 0, []⟩ = ⟨code, count, received, payload⟩)
    (hcount : count = received + 1) :
    receive pending ⟨code, count, received + 1, chunk⟩ = (none, [(code, payload ++ chunk)]) := by
  subst hcount
  simp [receive, hbegun]

theorem receive_next {count received : Nat}
    (hbegun : pending.getD ⟨code, count, 0, []⟩ = ⟨code, count, received, payload⟩)
    (hcount : count ≠ received + 1) :
    receive pending ⟨code, count, received + 1, chunk⟩ =
      (some ⟨code, count, received + 1, payload ++ chunk⟩, []) := by
  simp [receive, hbegun, hcount.symm]

theorem receive_numbered {count received : Nat} (hne : chunks ≠ [])
    (hbegun : pending.getD ⟨code, count, 0, []⟩ = ⟨code, count, received, payload⟩)
    (hcount : count = received + chunks.length) :
    Mealy.final receive pending (numbered code count (received + 1) chunks) = none ∧
      Mealy.emitted receive pending (numbered code count (received + 1) chunks) =
        [(code, payload ++ chunks.flatten)] := by
  induction chunks generalizing pending received payload with
  | nil => exact absurd rfl hne
  | cons chunk chunks ih =>
    rw [numbered, Mealy.final_cons, Mealy.emitted_cons]
    cases chunks with
    | nil => simp [receive_last hbegun hcount, numbered]
    | cons next chunks =>
      rw [List.length_cons, List.length_cons] at hcount
      rw [receive_next hbegun (by omega), List.flatten_cons, ← List.append_assoc]
      exact ih (by simp) rfl (by rw [List.length_cons]; omega)

theorem receive_parts (code : κ) (hne : chunks ≠ []) :
    Mealy.final receive none (parts code chunks) = none ∧
      Mealy.emitted receive none (parts code chunks) = [(code, chunks.flatten)] := by
  have hnone : (none : Option (Pending κ β)).getD ⟨code, chunks.length, 0, []⟩ =
      ⟨code, chunks.length, 0, []⟩ := rfl
  exact receive_numbered hne hnone (Nat.zero_add _).symm

/-- Messages that go out one after the other are received as they are. -/
theorem receive_messages {messages : List (κ × List (List β))} (hne : ∀ m ∈ messages, m.2 ≠ []) :
    Mealy.emitted receive none (messages.flatMap fun m => parts m.1 m.2) =
      messages.map fun m => (m.1, m.2.flatten) := by
  induction messages with
  | nil => rfl
  | cons m messages ih =>
    obtain ⟨hfinal, hemitted⟩ := receive_parts m.1 (hne m List.mem_cons_self)
    rw [List.flatMap_cons, Mealy.emitted_append, hfinal, hemitted,
      ih fun m hm => hne m (List.mem_cons_of_mem _ hm)]
    rfl

end

end Framing
