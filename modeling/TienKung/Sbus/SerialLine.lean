import TienKung.Sbus.Read

/-!
# The serial port

`cereal::CerealPort` over what `poll` and `read` do. The port is opened with
`O_NONBLOCK`, so a `read` can find nothing although `poll` has seen bytes.
`CerealPort::readBytes` lets that pass, but adds the -1 that `read` returns to
its index: it stores the next byte over the last one it has stored, or in front
of its buffer.
-/

namespace TienKung

/-- One `poll` and the `read` after it. -/
inductive Turn
  | pollFailed | timedOut | pollError | readFailed
  /-- `read` returns -1, with `EAGAIN` or `EWOULDBLOCK`. -/
  | again
  /-- `read` has `count` bytes to give, none at the end of the file. -/
  | gave (count : Nat)
  deriving DecidableEq

/-- What is still to come: the bytes of the stream, and what the calls of the
system will do. -/
structure SerialLine where
  fd : Int
  unread : List UInt8
  turns : List Turn

namespace SerialLine

def portOpen (s : SerialLine) : Bool := s.fd != -1

def read (s : SerialLine) (maxLength : Nat) : PortResult SerialLine (List UInt8) :=
  match s.turns with
  | [] => .waiting
  | .again :: turns => .returned [] { s with turns }
  | .gave count :: turns =>
    let ret := min count maxLength
    .returned (s.unread.take ret) { s with unread := s.unread.drop ret, turns }
  | .pollFailed :: turns | .timedOut :: turns | .pollError :: turns | .readFailed :: turns =>
    .threw { s with turns }

/-- The loop of `readBytes`: `stored` is what `buffer` holds in front of index
`current`, and `room` the bytes that the caller has in front of `buffer`. -/
def readBytesFrom (fd : Int) (room length : Nat) :
    List Turn → List UInt8 → Int → List UInt8 → PortResult SerialLine (List UInt8)
  | [], unread, current, stored =>
    if length ≤ current then .returned stored ⟨fd, unread, []⟩ else .waiting
  | turn :: turns, unread, current, stored =>
    if length ≤ current then .returned stored ⟨fd, unread, turn :: turns⟩
    else match turn with
      -- `current += ret` with `ret` = -1
      | .again => readBytesFrom fd room length turns unread (current - 1) stored.dropLast
      | .gave count =>
        let ret := min count (length - current).toNat
        let bytes := unread.take ret
        if bytes = [] ∨ -room ≤ current then
          -- the first bytes go in front of `buffer` where `current` is negative
          readBytesFrom fd room length turns (unread.drop ret) (current + bytes.length)
            (stored ++ bytes.drop (-current).toNat)
        else .overran
      | .pollFailed | .timedOut | .pollError | .readFailed => .threw ⟨fd, unread, turns⟩

def readBytes (s : SerialLine) (room length : Nat) : PortResult SerialLine (List UInt8) :=
  readBytesFrom s.fd room length s.turns s.unread 0 []

def stalls (s : SerialLine) : Nat := s.turns.count .again

end SerialLine

/-- The port of the source. `sbus_read` passes `packet + 1` to `readBytes`, and
does not look at `packet[0]` again. -/
def cerealPort : CerealPort SerialLine where
  portOpen := SerialLine.portOpen
  read s := s.read 1
  readBytes s length := s.readBytes 1 length

-- ---------------------------------------------------------------------------
-- What a call takes
-- ---------------------------------------------------------------------------

section
variable {fd current : Int} {room length : Nat} {turns : List Turn}
  {unread stored bytes : List UInt8} {s next : SerialLine}

theorem cerealPort_readsInOrder : cerealPort.ReadsInOrder SerialLine.unread where
  read_returned {s bytes next} h := by
    simp only [cerealPort, SerialLine.read] at h
    split at h
    · cases h
    · cases h
      exact ⟨Nat.zero_le _, rfl⟩
    · cases h
      exact ⟨(List.length_take_le ..).trans (Nat.min_le_right ..), (List.take_append_drop _ _).symm⟩
    all_goals cases h
  read_threw {s next} h := by
    simp only [cerealPort, SerialLine.read] at h
    split at h <;> cases h <;> rfl

/-- Each stall costs a byte more than was asked for; without one the bytes taken
are those returned. -/
theorem readBytesFrom_returned
    (h : SerialLine.readBytesFrom fd room length turns unread current stored = .returned bytes next)
    (hstored : (stored.length : Int) = max current 0) (hcurrent : current ≤ length) :
    bytes.length = length ∧ next.stalls ≤ turns.count .again ∧
      ∃ taken, unread = taken ++ next.unread ∧
        taken.length + current = length + (turns.count .again - next.stalls : Nat) ∧
        (next.stalls = turns.count .again → 0 ≤ current → bytes = stored ++ taken) := by
  induction turns generalizing unread current stored with
  | nil =>
    rw [SerialLine.readBytesFrom] at h
    split at h
    · cases h
      refine ⟨by omega, Nat.zero_le _, [], rfl, ?_, fun _ _ => (List.append_nil _).symm⟩
      rw [SerialLine.stalls, Nat.sub_self, List.length_nil]
      omega
    · cases h
  | cons turn turns ih =>
    unfold SerialLine.readBytesFrom at h
    split at h
    · cases h
      refine ⟨by omega, Nat.le_refl _, [], rfl, ?_, fun _ _ => (List.append_nil _).symm⟩
      rw [SerialLine.stalls, Nat.sub_self, List.length_nil]
      omega
    · cases turn with
      | again =>
        have hlast : (stored.dropLast.length : Int) = max (current - 1) 0 := by
          rw [List.length_dropLast]
          omega
        obtain ⟨hlen, hle, taken, hunread, htaken, -⟩ := ih h hlast (by omega)
        rw [List.count_cons_self]
        exact ⟨hlen, by omega, taken, hunread, by omega, fun he => by omega⟩
      | gave count =>
        simp only at h
        have hret : min count (length - current).toNat ≤ (length - current).toNat :=
          Nat.min_le_right _ _
        generalize min count (length - current).toNat = ret at h hret
        split at h
        · have htake : (unread.take ret).length ≤ (length - current).toNat :=
            (List.length_take_le ..).trans hret
          have hmore : ((stored ++ (unread.take ret).drop (-current).toNat).length : Int) =
              max (current + (unread.take ret).length) 0 := by
            rw [List.length_append, List.length_drop]
            omega
          obtain ⟨hlen, hle, taken, hunread, htaken, hbytes⟩ := ih h hmore (by omega)
          rw [List.count_cons_of_ne (by simp)]
          refine ⟨hlen, hle, unread.take ret ++ taken, ?_, ?_, fun he hc => ?_⟩
          · rw [List.append_assoc, ← hunread, List.take_append_drop]
          · rw [List.length_append]
            omega
          · have hzero : (-current).toNat = 0 := by omega
            rw [hbytes he (by omega), hzero, List.drop_zero, List.append_assoc]
        · cases h
      | _ => cases h

theorem readBytesFrom_threw
    (h : SerialLine.readBytesFrom fd room length turns unread current stored = .threw next) :
    ∃ lost, unread = lost ++ next.unread := by
  induction turns generalizing unread current stored with
  | nil =>
    rw [SerialLine.readBytesFrom] at h
    split at h <;> cases h
  | cons turn turns ih =>
    unfold SerialLine.readBytesFrom at h
    split at h
    · cases h
    · cases turn with
      | again => exact ih h
      | gave count =>
        simp only at h
        generalize min count (length - current).toNat = ret at h
        split at h
        · obtain ⟨lost, hlost⟩ := ih h
          exact ⟨unread.take ret ++ lost, by rw [List.append_assoc, ← hlost, List.take_append_drop]⟩
        · cases h
      | _ =>
        cases h
        exact ⟨[], rfl⟩

theorem SerialLine.readBytes_returned (h : s.readBytes room length = .returned bytes next) :
    bytes.length = length ∧ next.stalls ≤ s.stalls ∧
      ∃ taken, s.unread = taken ++ next.unread ∧
        taken.length = length + (s.stalls - next.stalls) ∧
        (next.stalls = s.stalls → bytes = taken) := by
  obtain ⟨hlen, hle, taken, hunread, htaken, hbytes⟩ :=
    readBytesFrom_returned h rfl (Int.natCast_nonneg _)
  exact ⟨hlen, hle, taken, hunread, by rw [stalls]; omega, fun he => hbytes he (Int.le_refl _)⟩

theorem bytesInOrder_of_no_stall
    (h : ∀ bytes next, s.readBytes 1 34 = .returned bytes next → next.stalls = s.stalls) :
    cerealPort.BytesInOrder SerialLine.unread s where
  returned {bytes next} hret := by
    obtain ⟨-, -, taken, hunread, -, hbytes⟩ := SerialLine.readBytes_returned hret
    rw [hunread, hbytes (h bytes next hret)]
  threw hthrew := readBytesFrom_threw hthrew

end

-- ---------------------------------------------------------------------------
-- Lines without stalls
-- ---------------------------------------------------------------------------

section
variable {σ α : Type*} {P : σ → Prop}

def PortResult.Keeps (P : σ → Prop) : PortResult σ α → Prop
  | .returned _ next | .threw next => P next
  | .waiting | .overran => True

def PortResult.within : (r : PortResult σ α) → r.Keeps P → PortResult { s // P s } α
  | .returned value next, h => .returned value ⟨next, h⟩
  | .threw next, h => .threw ⟨next, h⟩
  | .waiting, _ => .waiting
  | .overran, _ => .overran

theorem PortResult.within_returned {r : PortResult σ α} {h : r.Keeps P} {next : { s // P s }}
    (hr : r.within h = .returned value next) : r = .returned value next.val := by
  cases r <;> cases hr
  rfl

theorem PortResult.within_threw {r : PortResult σ α} {h : r.Keeps P} {next : { s // P s }}
    (hr : r.within h = .threw next) : r = .threw next.val := by
  cases r <;> cases hr
  rfl

end

theorem readBytesFrom_keeps {fd current : Int} {room length : Nat} {turns : List Turn}
    {unread stored : List UInt8} (h : Turn.again ∉ turns) :
    (SerialLine.readBytesFrom fd room length turns unread current stored).Keeps
      fun next => Turn.again ∉ next.turns := by
  induction turns generalizing unread current stored with
  | nil =>
    unfold SerialLine.readBytesFrom
    split
    · exact h
    · trivial
  | cons turn turns ih =>
    have hrest : Turn.again ∉ turns := fun hm => h (List.mem_cons_of_mem _ hm)
    unfold SerialLine.readBytesFrom
    split
    · exact h
    · cases turn with
      | again => exact ih hrest
      | gave count =>
        simp only
        split
        · exact ih hrest
        · trivial
      | _ => exact hrest

theorem SerialLine.read_keeps {s : SerialLine} (h : Turn.again ∉ s.turns) (maxLength : Nat) :
    (s.read maxLength).Keeps fun next => Turn.again ∉ next.turns := by
  have hrest {turn : Turn} {turns : List Turn} (hs : s.turns = turn :: turns) :
      Turn.again ∉ turns := fun hm => h (hs ▸ List.mem_cons_of_mem _ hm)
  unfold SerialLine.read
  split
  · trivial
  all_goals exact hrest ‹_›

/-- The port of the source where every `read` that `poll` has announced finds
something. -/
def steadyPort : CerealPort { s : SerialLine // Turn.again ∉ s.turns } where
  portOpen s := s.val.portOpen
  read s := (s.val.read 1).within (SerialLine.read_keeps s.property 1)
  readBytes s length := (s.val.readBytes 1 length).within (readBytesFrom_keeps s.property)

theorem steadyPort_inOrder : steadyPort.InOrder fun s => s.val.unread where
  read_returned h := cerealPort_readsInOrder.read_returned (PortResult.within_returned h)
  read_threw h := cerealPort_readsInOrder.read_threw (PortResult.within_threw h)
  readBytes_returned {s length bytes next} h := by
    obtain ⟨-, -, taken, hunread, -, hbytes⟩ :=
      SerialLine.readBytes_returned (PortResult.within_returned h)
    have hnone : ∀ s : { s : SerialLine // Turn.again ∉ s.turns }, s.val.stalls = 0 :=
      fun s => List.count_eq_zero_of_not_mem s.property
    rw [hunread, hbytes ((hnone next).trans (hnone s).symm)]
  readBytes_threw h := readBytesFrom_threw (PortResult.within_threw h)

end TienKung
