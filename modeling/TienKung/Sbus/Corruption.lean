import TienKung.Sbus.Deliveries
import TienKung.Sbus.SerialLine

/-!
# What a call of `sbus_read` leaves behind

While `readBytes` returns the next bytes of the line, a call either changes
nothing or takes one run of 35 bytes that begins with a header byte and passes
the check, and the XOR finds every single byte that changed. A `read` that finds
nothing breaks the run, and what is left of it may pass the check.
-/

namespace TienKung

-- ---------------------------------------------------------------------------
-- One changed byte
-- ---------------------------------------------------------------------------

theorem xorOf_set {bytes : List UInt8} (h : i < bytes.length) (b : UInt8) :
    xorOf (bytes.set i b) = xorOf bytes ^^^ (bytes[i] ^^^ b) := by
  induction bytes generalizing i with
  | nil => exact absurd h (Nat.not_lt_zero _)
  | cons c bytes ih =>
    cases i with
    | zero =>
      have hcancel : c ^^^ xorOf bytes ^^^ (c ^^^ b) = c ^^^ c ^^^ (b ^^^ xorOf bytes) := by ac_rfl
      rw [List.set_cons_zero, xorOf_cons, xorOf_cons, List.getElem_cons_zero, hcancel,
        UInt8.xor_self, UInt8.zero_xor]
    | succ i =>
      rw [List.set_cons_succ, xorOf_cons, xorOf_cons, List.getElem_cons_succ,
        ih (Nat.lt_of_succ_lt_succ h), UInt8.xor_assoc]

def corrupt (p : SbusPacket) (i : Fin 35) (b : UInt8) : Vector UInt8 35 := Cells.put p.bytes i b

section
variable {p : SbusPacket} {i : Fin 35} {b : UInt8}

theorem corrupt_header (hi : 0 < i.val) : (corrupt p i b).get 0 = usbSbusHeader := by
  rw [corrupt, Cells.get_put_ne, p.header]
  rintro rfl
  exact absurd hi (by decide)

/-- Any byte behind the header that changes breaks the check. -/
theorem corrupt_check (hi : 0 < i.val) (hb : b ≠ p.bytes.get i) :
    usbSbusXorCheck (corrupt p i b) = false := by
  obtain ⟨j, hj⟩ : ∃ j, i.val = j + 1 := ⟨i - 1, by omega⟩
  have hlen : j < (p.bytes.toList.drop 1).length := by
    have hlt := i.isLt
    simp
    omega
  have hset : (corrupt p i b).toList.drop 1 = (p.bytes.toList.drop 1).set j b := by
    have hlist : (corrupt p i b).toList = p.bytes.toList.set (j + 1) b := by
      simp only [corrupt, Cells.put, Vector.toList_set, hj]
    rw [hlist, List.drop_set, if_neg (by omega), Nat.add_sub_cancel]
  have hbyte : (p.bytes.toList.drop 1)[j] = p.bytes.get i := by
    rw [List.getElem_drop]
    simp only [Vector.getElem_toList, Nat.add_comm 1 j, ← hj]
    rfl
  rw [Bool.eq_false_iff]
  intro hcheck
  have hcancel := (usbSbusXorCheck_iff _).mp hcheck
  rw [hset, xorOf_set hlen, (usbSbusXorCheck_iff _).mp p.check, UInt8.zero_xor,
    UInt8.xor_eq_zero_iff, hbyte] at hcancel
  exact hb hcancel.symm

end

-- ---------------------------------------------------------------------------
-- Atomicity
-- ---------------------------------------------------------------------------

section
variable {port : CerealPort σ} {unread : σ → List UInt8} {h : UsbSbus σ}
  {channelsOut : Vector UInt16 16} {r : SbusReturn σ}

structure Untouched (h : UsbSbus σ) (channelsOut : Vector UInt16 16) (r : SbusReturn σ) : Prop where
  channels : r.channels = channelsOut
  failsafe : r.sbus.failsafe = h.failsafe
  lostFrames : r.sbus.lostFrames = h.lostFrames

/-- The 35 bytes behind `skipped` are all that the call's results come from. -/
structure Derived (unread : σ → List UInt8) (h : UsbSbus σ) (r : SbusReturn σ)
    (packet : Vector UInt8 35) : Prop where
  run : ∃ skipped, usbSbusHeader ∉ skipped ∧
    unread h.serialHandle = skipped ++ (packet.toList ++ unread r.sbus.serialHandle)
  header : packet.get 0 = usbSbusHeader
  check : xorOf ((packet.toList.take 34).drop 1) = packet.get 34
  channels : r.channels = usbSbusDecode packet
  failsafe : r.sbus.failsafe = (packet.get 33 &&& sbusFailsafe).toNat
  lostFrames : r.sbus.lostFrames =
    if packet.get 33 &&& sbusLostFrame ≠ 0 then h.lostFrames + 1 else h.lostFrames

/-- A call that returns has done one or the other, and no changed packet passes. -/
structure Atomic (unread : σ → List UInt8) (h : UsbSbus σ) (channelsOut : Vector UInt16 16)
    (r : SbusReturn σ) : Prop where
  value : r.value = -1 ∨ r.value = 16
  failed : r.value = -1 → Untouched h channelsOut r
  accepted : r.value = 16 → ∃ packet, Derived unread h r packet
  notDerived : ∀ (p : SbusPacket) (i : Fin 35) (b : UInt8), 0 < i.val → b ≠ p.bytes.get i →
    ¬ Derived unread h r (corrupt p i b)
  rejected : ∀ (p : SbusPacket) (i : Fin 35) (b : UInt8), 0 < i.val → b ≠ p.bytes.get i →
    ∀ skipped rest, usbSbusHeader ∉ skipped →
      unread h.serialHandle = skipped ++ ((corrupt p i b).toList ++ rest) → r.value = -1

theorem before_header_unique {xs ys rest rest' : List UInt8} (hx : usbSbusHeader ∉ xs)
    (hy : usbSbusHeader ∉ ys) (h : xs ++ usbSbusHeader :: rest = ys ++ usbSbusHeader :: rest') :
    rest = rest' := by
  induction xs generalizing ys with
  | nil =>
    cases ys with
    | nil => exact (List.cons.inj h).2
    | cons y ys => exact absurd ((List.cons.inj h).1 ▸ List.mem_cons_self) hy
  | cons x xs ih =>
    cases ys with
    | nil => exact absurd ((List.cons.inj h).1 ▸ List.mem_cons_self) hx
    | cons y ys =>
      simp only [List.mem_cons, not_or] at hx hy
      exact ih hx.2 hy.2 (List.cons.inj h).2

theorem run_unique {skipped skipped' rest rest' : List UInt8} {packet packet' : Vector UInt8 35}
    (hskip : usbSbusHeader ∉ skipped) (hskip' : usbSbusHeader ∉ skipped')
    (hheader : packet.get 0 = usbSbusHeader) (hheader' : packet'.get 0 = usbSbusHeader)
    (heq : skipped ++ (packet.toList ++ rest) = skipped' ++ (packet'.toList ++ rest')) :
    packet = packet' := by
  rw [toList_of_header hheader, toList_of_header hheader', List.cons_append, List.cons_append] at heq
  obtain ⟨hbody, -⟩ := List.append_inj (before_header_unique hskip hskip' heq) (by simp)
  refine Vector.toList_inj.mp ?_
  rw [toList_of_header hheader, toList_of_header hheader', hbody]

theorem Derived.passes {packet : Vector UInt8 35} (hd : Derived unread h r packet) :
    usbSbusXorCheck packet = true := beq_iff_eq.mpr hd.check

theorem not_derived_corrupt (hi : 0 < i.val) (hb : b ≠ p.bytes.get i) :
    ¬ Derived unread h r (corrupt p i b) := by
  intro hd
  have hpasses := hd.passes
  rw [corrupt_check hi hb] at hpasses
  exact Bool.false_ne_true hpasses

theorem atomic_fail (unread : σ → List UInt8) (h : UsbSbus σ) (next : σ)
    (channelsOut : Vector UInt16 16) : Atomic unread h channelsOut (h.fail next channelsOut) where
  value := .inl rfl
  failed _ := ⟨rfl, rfl, rfl⟩
  accepted hv := by cases hv
  notDerived _ _ _ hi hb := not_derived_corrupt hi hb
  rejected _ _ _ _ _ _ _ _ _ := rfl

theorem Takes.atomic (ht : Takes unread h r) : Atomic unread h channelsOut r := by
  obtain ⟨skipped, packet, next, hnot, hu, hheader, hcheck, rfl⟩ := ht
  have hd : Derived unread h ⟨16, h.accept next packet, usbSbusDecode packet⟩ packet :=
    ⟨⟨skipped, hnot, hu⟩, hheader, beq_iff_eq.mp hcheck, rfl, rfl, rfl⟩
  refine ⟨.inr rfl, fun hv => ?_, fun _ => ⟨packet, hd⟩,
    fun _ _ _ hi hb => not_derived_corrupt hi hb, ?_⟩
  · cases hv
  intro p i b hi hb skipped' rest hskip' hu'
  have hsame := run_unique hnot hskip' hheader (corrupt_header hi) (hu.symm.trans hu')
  exact absurd (hsame ▸ hd) (not_derived_corrupt hi hb)

/-- A call whose bytes come in order is atomic, wherever the port times out,
delivers too little or throws. -/
theorem sbusRead_atomic (hl : port.ReadsInOrder unread)
    (hb : ∀ s, findHeader port 34 0 h.serialHandle = .returned usbSbusHeader s →
      port.BytesInOrder unread s)
    (hret : sbusRead port h channelsOut = some r) : Atomic unread h channelsOut r := by
  rcases sbusRead_cases hl hb hret with ⟨_, next, -, rfl⟩ | ht
  · exact atomic_fail unread h next channelsOut
  · exact ht.atomic

end

-- ---------------------------------------------------------------------------
-- Stalls
-- ---------------------------------------------------------------------------

section
variable {h : UsbSbus SerialLine} {channelsOut : Vector UInt16 16} {s next : SerialLine}
  {bytes : List UInt8} {r : SbusReturn SerialLine}

def Found (h : UsbSbus SerialLine) (s : SerialLine) : Prop :=
  cerealPort.portOpen h.serialHandle = true ∧
    findHeader cerealPort 34 0 h.serialHandle = .returned usbSbusHeader s

/-- A call that stays within `packet` and is atomic if it returns. -/
structure AtomicCall (h : UsbSbus SerialLine) (channelsOut : Vector UInt16 16) : Prop where
  inside : ¬ ∃ s, Found h s ∧ cerealPort.readBytes s 34 = .overran
  atomic : ∀ r, sbusRead cerealPort h channelsOut = some r →
    Atomic SerialLine.unread h channelsOut r

/-- Whatever `readBytes` stores stays within `packet`; and where it gets all its
bytes, it does so without a stall, or the bytes it has got fail the check. -/
def KeepsItsPlace (h : UsbSbus SerialLine) : Prop :=
  ∀ s, Found h s → match cerealPort.readBytes s 34 with
    | .returned bytes next => next.stalls = s.stalls ∨
        ∀ packet : Vector UInt8 35, packet.toList = usbSbusHeader :: bytes →
          usbSbusXorCheck packet = false
    | .threw _ | .waiting => True
    | .overran => False

theorem sbusRead_of_found (hs : Found h s) (hbytes : cerealPort.readBytes s 34 = .returned bytes next) :
    sbusRead cerealPort h channelsOut = some (h.decode usbSbusHeader bytes next channelsOut) := by
  rw [sbusRead, if_pos hs.1, hs.2]
  simp only [if_true, hbytes]

theorem sbusRead_fails_or_decodes (hret : sbusRead cerealPort h channelsOut = some r) :
    (∃ next, r = h.fail next channelsOut) ∨
      ∃ s bytes next, Found h s ∧ cerealPort.readBytes s 34 = .returned bytes next ∧
        r = h.decode usbSbusHeader bytes next channelsOut := by
  cases sbusRead_ends hret with
  | decoded hopen hfind hbytes => exact .inr ⟨_, _, _, ⟨hopen, hfind⟩, hbytes, rfl⟩
  | closed | searchThrew | noHeader | bytesThrew => exact .inl ⟨_, rfl⟩

theorem stalled_not_derived (hs : Found h s)
    (hbytes : cerealPort.readBytes s 34 = .returned bytes next) (hstall : next.stalls ≠ s.stalls)
    (hr : r.sbus.serialHandle = next) (packet : Vector UInt8 35) :
    ¬ Derived SerialLine.unread h r packet := by
  intro hd
  obtain ⟨skipped, hskip, hu⟩ := hd.run
  have hsearch := findHeader_searched cerealPort_readsInOrder 34 h.serialHandle
    (by decide : (0 : UInt8) ≠ usbSbusHeader)
  rw [hs.2] at hsearch
  obtain ⟨skipped', hskip', hu'⟩ := hsearch
  rw [if_pos rfl] at hu'
  obtain ⟨-, hle, taken, htaken, hlen, -⟩ := SerialLine.readBytes_returned hbytes
  rw [hr, toList_of_header hd.header, hu', htaken] at hu
  have hrest : taken ++ next.unread = packet.toList.drop 1 ++ next.unread :=
    before_header_unique hskip' hskip hu
  have hlength := congrArg List.length hrest
  simp only [List.length_append, List.length_drop, Vector.length_toList] at hlength
  omega

theorem AtomicCall.keepsItsPlace (hcall : AtomicCall h channelsOut) : KeepsItsPlace h := by
  intro s hs
  cases hbytes : cerealPort.readBytes s 34 with
  | overran => exact hcall.inside ⟨s, hs, hbytes⟩
  | threw next | waiting => trivial
  | returned bytes next =>
    by_cases hstall : next.stalls = s.stalls
    · exact .inl hstall
    · refine .inr fun packet hpacket => Bool.eq_false_iff.mpr fun hcheck => ?_
      have haccept := decode_of_check hpacket hcheck h next channelsOut
      have hatomic := hcall.atomic _ (sbusRead_of_found hs hbytes)
      rw [haccept] at hatomic
      obtain ⟨packet', hd⟩ := hatomic.accepted rfl
      exact stalled_not_derived hs hbytes hstall rfl packet' hd

theorem KeepsItsPlace.atomic (hkeep : KeepsItsPlace h)
    (hret : sbusRead cerealPort h channelsOut = some r) :
    Atomic SerialLine.unread h channelsOut r := by
  rcases sbusRead_fails_or_decodes hret with ⟨next, rfl⟩ | ⟨s, bytes, next, hs, hbytes, hr⟩
  · exact atomic_fail _ h next channelsOut
  have hplace := hkeep s hs
  rw [hbytes] at hplace
  rcases hplace with hsteady | hcheck
  · refine sbusRead_atomic cerealPort_readsInOrder (fun s' hs' => ?_) hret
    obtain rfl : s = s' := by
      rw [hs.2] at hs'
      cases hs'
      rfl
    refine bytesInOrder_of_no_stall fun bytes' next' hbytes' => ?_
    obtain ⟨-, rfl⟩ : bytes = bytes' ∧ next = next' := by
      have heq := hbytes.symm.trans hbytes'
      cases heq
      exact ⟨rfl, rfl⟩
    exact hsteady
  · rcases decode_cases h usbSbusHeader bytes next channelsOut with hfail | ⟨packet, hp, hpass, -⟩
    · rw [hr, hfail]
      exact atomic_fail _ h next channelsOut
    · rw [hcheck packet hp] at hpass
      cases hpass

/-- A call is atomic exactly when it keeps its place in the line. -/
theorem sbusRead_atomic_iff (h : UsbSbus SerialLine) (channelsOut : Vector UInt16 16) :
    AtomicCall h channelsOut ↔ KeepsItsPlace h := by
  refine ⟨AtomicCall.keepsItsPlace, fun hkeep => ⟨?_, fun r hret => hkeep.atomic hret⟩⟩
  rintro ⟨s, hs, hover⟩
  have hplace := hkeep s hs
  rw [hover] at hplace
  exact hplace

def allZero : SbusPacket := ⟨Cells.put (.replicate 35 0) 0 usbSbusHeader, by decide, by decide⟩

/-- On the line is a packet of zeros whose second byte has changed. A `read` that
finds nothing makes `readBytes` store over that byte, and the call accepts. -/
theorem not_sbusRead_atomic :
    ¬ ∀ (h : UsbSbus SerialLine) (channelsOut : Vector UInt16 16) (r : SbusReturn SerialLine),
      sbusRead cerealPort h channelsOut = some r → Atomic SerialLine.unread h channelsOut r := by
  intro hall
  let h : UsbSbus SerialLine :=
    ⟨⟨3, (corrupt allZero 1 1).toList ++ [0], [.gave 1, .gave 1, .again, .gave 34]⟩, 0, 0⟩
  have hs : Found h ⟨3, 1 :: List.replicate 34 0, [.gave 1, .again, .gave 34]⟩ := by
    refine ⟨rfl, ?_⟩
    rfl
  have hbytes : cerealPort.readBytes ⟨3, 1 :: List.replicate 34 0, [.gave 1, .again, .gave 34]⟩ 34 =
      .returned (List.replicate 34 0) ⟨3, [], []⟩ := rfl
  have hpacket : allZero.bytes.toList = usbSbusHeader :: List.replicate 34 0 := rfl
  have hret : sbusRead cerealPort h (.replicate 16 5) = _ := sbusRead_of_found hs hbytes
  rw [decode_of_check hpacket allZero.check] at hret
  have hrejected := (hall h _ _ hret).rejected allZero 1 1 (by decide) (by decide) [] [0]
    List.not_mem_nil rfl
  cases hrejected

end

end TienKung
