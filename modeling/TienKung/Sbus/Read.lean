import TienKung.Sbus.Packet

/-!
# Reading USB-SBUS packets

`usbSbus::sbus_read` looks for a header byte, reads 34 bytes behind it and
checks them. It keeps no bytes between calls, so what it delivers depends on
where in the stream a call begins. What it asks of the serial port is an
interface here; `SerialLine` has the port of the source.
-/

namespace TienKung

/-- What a call on the port does: it returns, throws, waits for ever, since
`readBytes` has no timeout, or writes in front of the caller's array. -/
inductive PortResult (σ α : Type*)
  | returned (value : α) (next : σ)
  | threw (next : σ)
  | waiting
  | overran

/-- What `sbus_read` calls; `read` is asked for one byte. -/
structure CerealPort (σ : Type*) where
  portOpen : σ → Bool
  read : σ → PortResult σ (List UInt8)
  readBytes : σ → Nat → PortResult σ (List UInt8)

structure UsbSbus (σ : Type*) where
  serialHandle : σ
  lostFrames : Int
  failsafe : Int

/-- A call that returns: its value, the object after it and the caller's channels. -/
structure SbusReturn (σ : Type*) where
  value : Int
  sbus : UsbSbus σ
  channels : Vector UInt16 16

-- ---------------------------------------------------------------------------
-- sbus_read
-- ---------------------------------------------------------------------------

/-- The loop that looks for the header, with `count` reads left; a read that
gives no byte leaves `first` as it is. -/
def findHeader (port : CerealPort σ) : Nat → UInt8 → σ → PortResult σ UInt8
  | 0, first, s => .returned first s
  | count + 1, first, s =>
    if first = usbSbusHeader then .returned first s
    else match port.read s with
      | .returned bytes next => findHeader port count (bytes.headD first) next
      | .threw next => .threw next
      | .waiting => .waiting
      | .overran => .overran

def UsbSbus.fail (h : UsbSbus σ) (next : σ) (channelsOut : Vector UInt16 16) : SbusReturn σ :=
  ⟨-1, { h with serialHandle := next }, channelsOut⟩

def UsbSbus.accept (h : UsbSbus σ) (next : σ) (packet : Vector UInt8 35) : UsbSbus σ where
  serialHandle := next
  lostFrames := if packet.get 33 &&& sbusLostFrame ≠ 0 then h.lostFrames + 1 else h.lostFrames
  failsafe := (packet.get 33 &&& sbusFailsafe).toNat

def UsbSbus.decode (h : UsbSbus σ) (first : UInt8) (bytes : List UInt8) (next : σ)
    (channelsOut : Vector UInt16 16) : SbusReturn σ :=
  if hsize : bytes.length = 34 then
    let packet : Vector UInt8 35 := ⟨(first :: bytes).toArray, by simp [hsize]⟩
    if usbSbusXorCheck packet then ⟨16, h.accept next packet, usbSbusDecode packet⟩
    else h.fail next channelsOut
  else h.fail next channelsOut

/-- `sbus_read`; an exception of the port ends in the `catch`. There is no result
where the port waits or has written outside `packet`. -/
def sbusRead (port : CerealPort σ) (h : UsbSbus σ) (channelsOut : Vector UInt16 16) :
    Option (SbusReturn σ) :=
  if port.portOpen h.serialHandle then
    match findHeader port 34 0 h.serialHandle with
    | .returned first s =>
      if first = usbSbusHeader then
        match port.readBytes s 34 with
        | .returned bytes next => some (h.decode first bytes next channelsOut)
        | .threw next => some (h.fail next channelsOut)
        | .waiting | .overran => none
      else some (h.fail s channelsOut)
    | .threw next => some (h.fail next channelsOut)
    | .waiting | .overran => none
  else some (h.fail h.serialHandle channelsOut)

-- ---------------------------------------------------------------------------
-- Ports that keep the order
-- ---------------------------------------------------------------------------

structure CerealPort.ReadsInOrder (port : CerealPort σ) (unread : σ → List UInt8) : Prop where
  read_returned : port.read s = .returned bytes next →
    bytes.length ≤ 1 ∧ unread s = bytes ++ unread next
  read_threw : port.read s = .threw next → unread s = unread next

/-- What the port returns are the bytes it has not read yet, in order. Only a
`readBytes` that throws midway has taken bytes that nobody gets. -/
structure CerealPort.InOrder (port : CerealPort σ) (unread : σ → List UInt8) : Prop
    extends port.ReadsInOrder unread where
  readBytes_returned : port.readBytes s n = .returned bytes next → unread s = bytes ++ unread next
  readBytes_threw : port.readBytes s n = .threw next → ∃ lost, unread s = lost ++ unread next

/-- Bytes at hand: `read` times out when there are none, `readBytes` waits for
all it is asked for. -/
def streamPort : CerealPort (List UInt8) where
  portOpen _ := true
  read
    | [] => .threw []
    | b :: rest => .returned [b] rest
  readBytes bytes n := if n ≤ bytes.length then .returned (bytes.take n) (bytes.drop n) else .waiting

theorem streamPort_inOrder : streamPort.InOrder id where
  read_returned {s} _ _ h := by
    cases s with
    | nil => cases h
    | cons b rest => cases h; exact ⟨by simp, rfl⟩
  read_threw {s} _ h := by
    cases s with
    | nil => cases h; rfl
    | cons b rest => cases h
  readBytes_returned {s n} _ _ h := by
    simp only [streamPort] at h
    split at h
    · cases h; exact (List.take_append_drop n s).symm
    · cases h
  readBytes_threw {s n} _ h := by
    simp only [streamPort] at h
    split at h <;> cases h

/-- The port is open, and returns the next bytes without a timeout where there are any. -/
structure CerealPort.Prompt (port : CerealPort σ) (unread : σ → List UInt8) : Prop where
  portOpen : port.portOpen s = true
  read : unread s = b :: rest → ∃ next, port.read s = .returned [b] next ∧ unread next = rest
  readBytes : unread s = bytes ++ rest → ∃ next,
    port.readBytes s bytes.length = .returned bytes next ∧ unread next = rest

theorem streamPort_prompt : streamPort.Prompt id where
  portOpen := rfl
  read {s b rest} h := by
    obtain rfl : s = b :: rest := h
    exact ⟨rest, rfl, rfl⟩
  readBytes {s bytes rest} h := by
    obtain rfl : s = bytes ++ rest := h
    exact ⟨rest, by simp [streamPort], rfl⟩

-- ---------------------------------------------------------------------------
-- One call
-- ---------------------------------------------------------------------------

theorem toList_of_header {w : Vector UInt8 35} (h : w.get 0 = usbSbusHeader) :
    w.toList = usbSbusHeader :: w.toList.drop 1 := by
  rw [← h]
  exact Cells.drop_toList w 0

theorem findHeader_header (port : CerealPort σ) (count : Nat) (s : σ) :
    findHeader port count usbSbusHeader s = .returned usbSbusHeader s := by
  cases count with
  | zero => rfl
  | succ count => rw [findHeader, if_pos rfl]

section
variable {port : CerealPort σ} {unread : σ → List UInt8}

/-- What a search has done when it ends: the bytes it skipped hold no header,
and the header, if it found one, is the last byte it took. -/
def Searched (unread : σ → List UInt8) (s : σ) : PortResult σ UInt8 → Prop
  | .returned first next => ∃ skipped, usbSbusHeader ∉ skipped ∧
      unread s = skipped ++ ((if first = usbSbusHeader then [first] else []) ++ unread next)
  | .threw next => ∃ skipped, unread s = skipped ++ unread next
  | .waiting | .overran => True

theorem Searched.skip {result : PortResult σ UInt8} (h : Searched unread next result)
    (hb : b ≠ usbSbusHeader) (hs : unread s = b :: unread next) : Searched unread s result := by
  cases result with
  | returned first last =>
    obtain ⟨skipped, hnot, hnext⟩ := h
    exact ⟨b :: skipped, by simp [hnot, hb.symm], by rw [hs, hnext]; rfl⟩
  | threw last =>
    obtain ⟨skipped, hnext⟩ := h
    exact ⟨b :: skipped, by rw [hs, hnext]; rfl⟩
  | waiting | overran => trivial

theorem Searched.same {result : PortResult σ UInt8} (h : Searched unread next result)
    (hs : unread s = unread next) : Searched unread s result := by
  cases result with
  | returned first last => simpa only [Searched, hs] using h
  | threw last => simpa only [Searched, hs] using h
  | waiting | overran => trivial

theorem findHeader_searched (hl : port.ReadsInOrder unread) (count : Nat) (s : σ)
    (hfirst : first ≠ usbSbusHeader) : Searched unread s (findHeader port count first s) := by
  induction count generalizing first s with
  | zero => exact ⟨[], by simp, by simp [hfirst]⟩
  | succ count ih =>
    rw [findHeader, if_neg hfirst]
    cases hread : port.read s with
    | returned bytes next =>
      obtain ⟨hlen, hunread⟩ := hl.read_returned hread
      match bytes, hlen with
      | [], _ => exact (ih next hfirst).same hunread
      | [b], _ =>
        by_cases hb : b = usbSbusHeader
        · subst hb
          simp only [List.headD_cons, findHeader_header]
          exact ⟨[], by simp, by rw [hunread]; rfl⟩
        · exact (ih next hb).skip hb hunread
    | threw next => exact ⟨[], hl.read_threw hread⟩
    | waiting | overran => trivial

theorem decode_cases (h : UsbSbus σ) (first : UInt8) (bytes : List UInt8) (next : σ)
    (channelsOut : Vector UInt16 16) :
    h.decode first bytes next channelsOut = h.fail next channelsOut ∨
      ∃ packet : Vector UInt8 35, packet.toList = first :: bytes ∧ usbSbusXorCheck packet = true ∧
        h.decode first bytes next channelsOut = ⟨16, h.accept next packet, usbSbusDecode packet⟩ := by
  by_cases hsize : bytes.length = 34
  · by_cases hcheck : usbSbusXorCheck ⟨(first :: bytes).toArray, by simp [hsize]⟩ = true
    · exact .inr ⟨_, rfl, hcheck, by simp only [UsbSbus.decode, hsize, hcheck, dif_pos, if_true]⟩
    · exact .inl (by simp [UsbSbus.decode, hsize, hcheck])
  · exact .inl (by simp only [UsbSbus.decode, hsize, dif_neg, not_false_eq_true])

theorem decode_of_check {packet : Vector UInt8 35} (hp : packet.toList = first :: bytes)
    (hcheck : usbSbusXorCheck packet = true) (h : UsbSbus σ) (next : σ)
    (channelsOut : Vector UInt16 16) : h.decode first bytes next channelsOut =
      ⟨16, h.accept next packet, usbSbusDecode packet⟩ := by
  have hsize : bytes.length = 34 := by
    have hlen := congrArg List.length hp
    simpa using hlen.symm
  have hpacket : (⟨(first :: bytes).toArray, by simp [hsize]⟩ : Vector UInt8 35) = packet :=
    Vector.toList_inj.mp hp.symm
  simp only [UsbSbus.decode, hsize, dif_pos, hpacket, hcheck, if_true]

def Fails (unread : σ → List UInt8) (h : UsbSbus σ) (channelsOut : Vector UInt16 16)
    (r : SbusReturn σ) : Prop :=
  ∃ taken next, unread h.serialHandle = taken ++ unread next ∧ r = h.fail next channelsOut

def Takes (unread : σ → List UInt8) (h : UsbSbus σ) (r : SbusReturn σ) : Prop :=
  ∃ (skipped : List UInt8) (packet : Vector UInt8 35) (next : σ), usbSbusHeader ∉ skipped ∧
    unread h.serialHandle = skipped ++ (packet.toList ++ unread next) ∧
    packet.get 0 = usbSbusHeader ∧ usbSbusXorCheck packet = true ∧
    r = ⟨16, h.accept next packet, usbSbusDecode packet⟩

theorem decode_outcome {h : UsbSbus σ} {skipped : List UInt8} (hnot : usbSbusHeader ∉ skipped)
    (hs : unread h.serialHandle = skipped ++ (usbSbusHeader :: bytes ++ unread next))
    (channelsOut : Vector UInt16 16) :
    Fails unread h channelsOut (h.decode usbSbusHeader bytes next channelsOut) ∨
      Takes unread h (h.decode usbSbusHeader bytes next channelsOut) := by
  rcases decode_cases h usbSbusHeader bytes next channelsOut with hfail | ⟨packet, hp, hcheck, haccept⟩
  · exact .inl ⟨skipped ++ usbSbusHeader :: bytes, next, by rw [hs, List.append_assoc], hfail⟩
  · have hhead : packet.get 0 = usbSbusHeader := by
      have hcons := Cells.drop_toList packet 0
      rw [hp] at hcons
      exact (List.cons.inj hcons).1.symm
    exact .inr ⟨skipped, packet, next, hnot, by rw [hs, hp], hhead, hcheck, haccept⟩

/-- How a call that returns has ended. -/
inductive SbusEnd (port : CerealPort σ) (h : UsbSbus σ) (channelsOut : Vector UInt16 16) :
    SbusReturn σ → Prop
  | closed : SbusEnd port h channelsOut (h.fail h.serialHandle channelsOut)
  | searchThrew : findHeader port 34 0 h.serialHandle = .threw next →
      SbusEnd port h channelsOut (h.fail next channelsOut)
  | noHeader : findHeader port 34 0 h.serialHandle = .returned first next →
      first ≠ usbSbusHeader → SbusEnd port h channelsOut (h.fail next channelsOut)
  | bytesThrew : port.portOpen h.serialHandle = true →
      findHeader port 34 0 h.serialHandle = .returned usbSbusHeader s →
      port.readBytes s 34 = .threw next → SbusEnd port h channelsOut (h.fail next channelsOut)
  | decoded : port.portOpen h.serialHandle = true →
      findHeader port 34 0 h.serialHandle = .returned usbSbusHeader s →
      port.readBytes s 34 = .returned bytes next →
      SbusEnd port h channelsOut (h.decode usbSbusHeader bytes next channelsOut)

theorem sbusRead_ends (hret : sbusRead port h channelsOut = some r) :
    SbusEnd port h channelsOut r := by
  unfold sbusRead at hret
  split at hret
  · rename_i hopen
    split at hret
    · rename_i first s hfind
      split at hret
      · rename_i hfirst
        subst hfirst
        split at hret
        · rename_i bytes next hbytes
          cases hret
          exact .decoded hopen hfind hbytes
        · rename_i next hthrew
          cases hret
          exact .bytesThrew hopen hfind hthrew
        all_goals cases hret
      · rename_i hfirst
        cases hret
        exact .noHeader hfind hfirst
    · rename_i next hfind
      cases hret
      exact .searchThrew hfind
    all_goals cases hret
  · cases hret
    exact .closed

/-- What a call relies on where its search has ended. -/
structure CerealPort.BytesInOrder (port : CerealPort σ) (unread : σ → List UInt8) (s : σ) :
    Prop where
  returned : port.readBytes s 34 = .returned bytes next → unread s = bytes ++ unread next
  threw : port.readBytes s 34 = .threw next → ∃ lost, unread s = lost ++ unread next

theorem sbusRead_cases (hl : port.ReadsInOrder unread)
    (hb : ∀ s, findHeader port 34 0 h.serialHandle = .returned usbSbusHeader s →
      port.BytesInOrder unread s) (hret : sbusRead port h channelsOut = some r) :
    Fails unread h channelsOut r ∨ Takes unread h r := by
  have hsearch : Searched unread h.serialHandle (findHeader port 34 0 h.serialHandle) :=
    findHeader_searched hl 34 h.serialHandle (by decide)
  cases sbusRead_ends hret with
  | closed => exact .inl ⟨[], _, rfl, rfl⟩
  | searchThrew hfind =>
    rw [hfind] at hsearch
    obtain ⟨skipped, hskip⟩ := hsearch
    exact .inl ⟨skipped, _, hskip, rfl⟩
  | noHeader hfind hfirst =>
    rw [hfind] at hsearch
    obtain ⟨skipped, -, hskip⟩ := hsearch
    rw [if_neg hfirst] at hskip
    exact .inl ⟨skipped, _, hskip, rfl⟩
  | bytesThrew _ hfind hthrew =>
    rw [hfind] at hsearch
    obtain ⟨skipped, -, hskip⟩ := hsearch
    rw [if_pos rfl] at hskip
    obtain ⟨lost, hlost⟩ := (hb _ hfind).threw hthrew
    refine .inl ⟨skipped ++ ([usbSbusHeader] ++ lost), _, ?_, rfl⟩
    rw [hskip, hlost, List.append_assoc, List.append_assoc]
  | decoded _ hfind hbytes =>
    rw [hfind] at hsearch
    obtain ⟨skipped, hnot, hskip⟩ := hsearch
    rw [if_pos rfl] at hskip
    refine decode_outcome hnot ?_ channelsOut
    rw [hskip, (hb _ hfind).returned hbytes]
    simp

theorem CerealPort.InOrder.cases (hl : port.InOrder unread)
    (hret : sbusRead port h channelsOut = some r) :
    Fails unread h channelsOut r ∨ Takes unread h r :=
  sbusRead_cases hl.toReadsInOrder (fun _ _ => ⟨hl.readBytes_returned, hl.readBytes_threw⟩) hret

def Delivers (h : UsbSbus σ) (r : SbusReturn σ) (packet : Vector UInt8 35) : Prop :=
  r.sbus = h.accept r.sbus.serialHandle packet ∧ r.channels = usbSbusDecode packet

theorem sbusRead_delivers (hl : port.InOrder unread) (hret : sbusRead port h channelsOut = some r)
    (h16 : r.value = 16) :
    ∃ (skipped : List UInt8) (packet : Vector UInt8 35), usbSbusHeader ∉ skipped ∧
      unread h.serialHandle = skipped ++ (packet.toList ++ unread r.sbus.serialHandle) ∧
      packet.get 0 = usbSbusHeader ∧ usbSbusXorCheck packet = true ∧ Delivers h r packet := by
  rcases hl.cases hret with ⟨_, _, _, rfl⟩ | ⟨skipped, packet, next, hnot, hu, h0, hc, rfl⟩
  · cases h16
  · exact ⟨skipped, packet, hnot, hu, h0, hc, rfl, rfl⟩

theorem sbusRead_consumes (hl : port.InOrder unread) (hret : sbusRead port h channelsOut = some r) :
    ∃ taken, unread h.serialHandle = taken ++ unread r.sbus.serialHandle := by
  rcases hl.cases hret with ⟨taken, _, hu, rfl⟩ | ⟨skipped, packet, next, -, hu, -, -, rfl⟩
  · exact ⟨taken, hu⟩
  · exact ⟨skipped ++ packet.toList, by rw [hu, List.append_assoc]; rfl⟩

/-- A call that begins where a packet begins delivers that packet. -/
theorem sbusRead_in_step (hl : port.InOrder unread) {p : SbusPacket} {packets : List SbusPacket}
    (hs : unread h.serialHandle = Blocks.stream SbusPacket.bytes (p :: packets))
    (hret : sbusRead port h channelsOut = some r) (h16 : r.value = 16) :
    Delivers h r p.bytes ∧
      unread r.sbus.serialHandle = Blocks.stream SbusPacket.bytes packets := by
  obtain ⟨skipped, packet, hnot, hu, -, -, hd⟩ := sbusRead_delivers hl hret h16
  have hnone : skipped = [] := by
    cases skipped with
    | nil => rfl
    | cons b skipped =>
      have hb := congrArg List.head? (hs.symm.trans hu)
      have hp : p.bytes.toList.head? = some usbSbusHeader := by
        rw [← p.header]
        exact congrArg List.head? (Cells.drop_toList p.bytes 0)
      simp [hp] at hb
      simp [← hb] at hnot
  subst hnone
  obtain ⟨rfl, hrest⟩ := Blocks.window_first (hs.symm.trans hu)
  exact ⟨hd, hrest⟩

-- ---------------------------------------------------------------------------
-- A packet at hand
-- ---------------------------------------------------------------------------

theorem findHeader_skip (hl : port.Prompt unread) {skipped rest : List UInt8} (count : Nat)
    {first : UInt8} {s : σ} (hfirst : first ≠ usbSbusHeader) (hskip : usbSbusHeader ∉ skipped)
    (hu : unread s = skipped ++ rest) :
    ∃ last next, last ≠ usbSbusHeader ∧ unread next = rest ∧
      findHeader port (skipped.length + count) first s = findHeader port count last next := by
  induction skipped generalizing first s with
  | nil => exact ⟨first, s, hfirst, hu, by rw [List.length_nil, Nat.zero_add]⟩
  | cons b skipped ih =>
    simp only [List.mem_cons, not_or] at hskip
    obtain ⟨mid, hread, hmid⟩ := hl.read (hu.trans List.cons_append)
    obtain ⟨last, next, hlast, hnext, hfind⟩ := ih (Ne.symm hskip.1) hskip.2 hmid
    refine ⟨last, next, hlast, hnext, ?_⟩
    rw [List.length_cons, Nat.add_right_comm, findHeader, if_neg hfirst, hread, ← hfind]
    rfl

theorem sbusRead_fails (hl : port.Prompt unread) {h : UsbSbus σ} {skipped rest : List UInt8}
    (hskip : usbSbusHeader ∉ skipped) (hlen : skipped.length = 34)
    (hu : unread h.serialHandle = skipped ++ rest) (channelsOut : Vector UInt16 16) :
    ∃ next, unread next = rest ∧
      sbusRead port h channelsOut = some (h.fail next channelsOut) := by
  obtain ⟨last, next, hlast, hnext, hfind⟩ :=
    findHeader_skip hl 0 (by decide : (0 : UInt8) ≠ usbSbusHeader) hskip hu
  rw [hlen] at hfind
  refine ⟨next, hnext, ?_⟩
  rw [sbusRead, if_pos hl.portOpen, hfind, findHeader]
  simp only [if_neg hlast]

/-- A packet within reach of the search is delivered. -/
theorem sbusRead_finds (hl : port.Prompt unread) {h : UsbSbus σ} {skipped rest : List UInt8}
    {w : Vector UInt8 35} (hskip : usbSbusHeader ∉ skipped) (hlen : skipped.length < 34)
    (hu : unread h.serialHandle = skipped ++ (w.toList ++ rest)) (hheader : w.get 0 = usbSbusHeader)
    (hcheck : usbSbusXorCheck w = true) (channelsOut : Vector UInt16 16) :
    ∃ next, unread next = rest ∧
      sbusRead port h channelsOut = some ⟨16, h.accept next w, usbSbusDecode w⟩ := by
  obtain ⟨count, hcount⟩ : ∃ count, 34 = skipped.length + (count + 1) :=
    ⟨33 - skipped.length, by omega⟩
  obtain ⟨body, hbody⟩ : ∃ body, w.toList = usbSbusHeader :: body :=
    ⟨w.toList.drop 1, toList_of_header hheader⟩
  have hbodyLen : body.length = 34 := by
    have hlength := congrArg List.length hbody
    simpa using hlength.symm
  obtain ⟨last, mid, hlast, hmid, hfind⟩ :=
    findHeader_skip hl (count + 1) (by decide : (0 : UInt8) ≠ usbSbusHeader) hskip hu
  rw [hbody] at hmid
  obtain ⟨behind, hread, hbehind⟩ := hl.read (hmid.trans List.cons_append)
  obtain ⟨next, hbytes, hnext⟩ := hl.readBytes hbehind
  have hfound : findHeader port 34 0 h.serialHandle = .returned usbSbusHeader behind := by
    rw [hcount, hfind, findHeader, if_neg hlast, hread]
    exact findHeader_header port count behind
  refine ⟨next, hnext, ?_⟩
  rw [hbodyLen] at hbytes
  rw [sbusRead, if_pos hl.portOpen, hfound]
  simp only [if_true, hbytes, decode_of_check hbody hcheck]

end

end TienKung
