import TienKung.Sbus.Deliveries

/-!
# Finding a packet behind other bytes

A call gives up after 34 bytes without a header. The next one goes on where it
stopped, so a packet behind bytes that are not headers is found by the call
whose 34 reads reach it, and delivers the channels and flags it was made from.
-/

namespace TienKung

-- ---------------------------------------------------------------------------
-- Packets
-- ---------------------------------------------------------------------------

def channelBytes (c : UInt16) : List UInt8 := [(c >>> 8).toUInt8, c.toUInt8]

/-- The channels, high byte first, and the flags. -/
def sbusBody (channels : Vector UInt16 16) (flags : UInt8) : List UInt8 :=
  channels.toList.flatMap channelBytes ++ [flags]

theorem length_channels (channels : Vector UInt16 16) :
    (channels.toList.flatMap channelBytes).length = 32 := by
  have hsum (cs : List UInt16) : (cs.flatMap channelBytes).length = cs.length * 2 := by
    simp [List.length_flatMap, channelBytes]
  rw [hsum, Vector.length_toList]

theorem length_sbusBody (channels : Vector UInt16 16) (flags : UInt8) :
    (sbusBody channels flags).length = 33 := by
  rw [sbusBody, List.length_append, length_channels, List.length_singleton]

def SbusPacket.encode (channels : Vector UInt16 16) (flags : UInt8) : SbusPacket where
  bytes :=
    ⟨(usbSbusHeader :: (sbusBody channels flags ++ [xorOf (sbusBody channels flags)])).toArray,
      by simp [length_sbusBody]⟩
  header := rfl
  check := by
    rw [usbSbusXorCheck_iff]
    simp

section
variable {channels : Vector UInt16 16} {flags : UInt8}

theorem getElem_of_toList {v : Vector UInt8 35} {k : Nat} (hk : k < 35)
    (h : v.toList[k]? = some b) : v[k] = b := by
  rw [List.getElem?_eq_getElem (by simpa using hk), Option.some.injEq] at h
  simpa using h

theorem getElem?_channelBytes (channels : List UInt16) (i : Nat) :
    (channels.flatMap channelBytes)[2 * i]? =
        channels[i]?.map (fun c : UInt16 => (c >>> 8).toUInt8) ∧
      (channels.flatMap channelBytes)[2 * i + 1]? = channels[i]?.map UInt16.toUInt8 := by
  induction channels generalizing i with
  | nil => simp
  | cons c channels ih =>
    cases i with
    | zero => exact ⟨rfl, rfl⟩
    | succ i =>
      rw [List.getElem?_cons_succ]
      exact ih i

theorem flags_encode : (SbusPacket.encode channels flags).bytes.get 33 = flags := by
  refine getElem_of_toList (by decide) ?_
  have hlen := length_channels channels
  show (usbSbusHeader :: (channels.toList.flatMap channelBytes ++ [flags] ++ _))[33]? = some flags
  rw [List.getElem?_cons_succ, List.append_assoc, List.getElem?_append_right (by omega), hlen]
  rfl

theorem channel_decode {c : UInt16} (h : c ≤ sbusChMaxData) :
    ((c >>> 8).toUInt8.toUInt16 * 256 + c.toUInt8.toUInt16) &&& sbusChMaxData = c := by
  have hc : c.toNat ≤ 2047 := h
  have hmask : sbusChMaxData.toNat = 2 ^ 11 - 1 := rfl
  rw [← UInt16.toNat_inj, UInt16.toNat_and, hmask, Nat.and_two_pow_sub_one_eq_mod]
  simp only [UInt16.toNat_add, UInt16.toNat_mul, UInt8.toNat_toUInt16, UInt16.toNat_toUInt8,
    UInt16.toNat_shiftRight, UInt16.reduceToNat, Nat.reduceMod, Nat.shiftRight_eq_div_pow]
  omega

theorem decode_encode (h : ∀ c ∈ channels.toList, c ≤ sbusChMaxData) :
    usbSbusDecode (SbusPacket.encode channels flags).bytes = channels := by
  refine Vector.ext fun i hi => ?_
  have hlen := length_channels channels
  have hbody {k : Nat} (hk : k < 32) : (SbusPacket.encode channels flags).bytes.toList[k + 1]? =
      (channels.toList.flatMap channelBytes)[k]? := by
    show (usbSbusHeader :: (channels.toList.flatMap channelBytes ++ [flags] ++ _))[k + 1]? = _
    rw [List.getElem?_cons_succ, List.append_assoc, List.getElem?_append_left (by omega)]
  have hchannel : channels.toList[i]? = some channels[i] := by simp [hi]
  have hbytes := getElem?_channelBytes channels.toList i
  rw [hchannel] at hbytes
  have hhigh := getElem_of_toList (by omega) ((hbody (k := 2 * i) (by omega)).trans hbytes.1)
  have hlow := getElem_of_toList (by omega) ((hbody (k := 2 * i + 1) (by omega)).trans hbytes.2)
  rw [usbSbusDecode, Vector.getElem_ofFn]
  simp only [hhigh, hlow]
  exact channel_decode (h channels[i] (by simp))

end

-- ---------------------------------------------------------------------------
-- Calls
-- ---------------------------------------------------------------------------

section
variable {port : CerealPort σ} {unread : σ → List UInt8}

structure LeavesPacket (unread : σ → List UInt8) (packet : List UInt8) (r : SbusReturn σ) :
    Prop where
  value : r.value = -1
  left : ∃ left, unread r.sbus.serialHandle = left ++ packet

structure ReturnsPacket (unread : σ → List UInt8) (channels : Vector UInt16 16) (flags : UInt8)
    (lostFrames : Int) (rest : List UInt8) (r : SbusReturn σ) : Prop where
  value : r.value = 16
  channels : r.channels = channels
  failsafe : r.sbus.failsafe = ((flags &&& sbusFailsafe).toNat : Int)
  lostFrames : r.sbus.lostFrames =
    if flags &&& sbusLostFrame ≠ 0 then lostFrames + 1 else lostFrames
  left : unread r.sbus.serialHandle = rest

theorem calls_cons {channelsOut : Vector UInt16 16} {outs : List (Vector UInt16 16)}
    {h : UsbSbus σ} (hret : sbusRead port h channelsOut = some r) :
    calls port h (channelsOut :: outs) = r :: calls port r.sbus outs := by
  rw [calls, hret]

/-- Behind bytes that are no header a packet is found by the call whose 34 reads
reach it: so many calls fail before as there are 34 of those bytes. -/
theorem calls_resync (port : CerealPort σ) (unread : σ → List UInt8)
    (channels : Vector UInt16 16) (flags : UInt8) (skipped rest : List UInt8) (h : UsbSbus σ)
    (outs : List (Vector UInt16 16)) (hl : port.Prompt unread)
    (hchannels : ∀ c ∈ channels.toList, c ≤ sbusChMaxData) (hskip : usbSbusHeader ∉ skipped)
    (hu : unread h.serialHandle =
      skipped ++ ((SbusPacket.encode channels flags).bytes.toList ++ rest))
    (houts : outs.length = skipped.length / 34 + 1) :
    ∃ failures r, calls port h outs = failures ++ [r] ∧
      failures.length = skipped.length / 34 ∧
      (∀ f ∈ failures,
        LeavesPacket unread ((SbusPacket.encode channels flags).bytes.toList ++ rest) f) ∧
      ReturnsPacket unread channels flags h.lostFrames rest r := by
  induction outs generalizing skipped h with
  | nil => cases houts
  | cons channelsOut outs ih =>
    by_cases hlen : skipped.length < 34
    · obtain ⟨next, hnext, hret⟩ := sbusRead_finds hl hskip hlen hu
        (SbusPacket.header _) (SbusPacket.check _) channelsOut
      rw [Nat.div_eq_of_lt hlen] at houts ⊢
      rw [List.length_eq_zero_iff.mp (Nat.succ.inj houts), calls_cons hret, calls]
      have hnone : ∀ f ∈ [], LeavesPacket unread
          ((SbusPacket.encode channels flags).bytes.toList ++ rest) f := fun f hf => by cases hf
      refine ⟨[], _, rfl, rfl, hnone, rfl, decode_encode hchannels, ?_, ?_, hnext⟩
      · simp only [UsbSbus.accept, flags_encode]
      · simp only [UsbSbus.accept, flags_encode]
    · have hdiv : skipped.length / 34 = (skipped.length - 34) / 34 + 1 := by omega
      have hsplit : unread h.serialHandle = skipped.take 34 ++
          (skipped.drop 34 ++ ((SbusPacket.encode channels flags).bytes.toList ++ rest)) := by
        rw [← List.append_assoc, List.take_append_drop, hu]
      obtain ⟨next, hnext, hret⟩ := sbusRead_fails hl
        (fun hmem => hskip (List.mem_of_mem_take hmem)) (by simp; omega) hsplit channelsOut
      obtain ⟨failures, r, hcalls, hcount, hleave, hreturns⟩ :=
        ih (skipped.drop 34) (h.fail next channelsOut).sbus
          (fun hmem => hskip (List.mem_of_mem_drop hmem)) hnext
          (by rw [List.length_cons, hdiv] at houts; rw [List.length_drop]; omega)
      refine ⟨h.fail next channelsOut :: failures, r, ?_, ?_, ?_, hreturns⟩
      · rw [calls_cons hret, hcalls, List.cons_append]
      · rw [List.length_cons, hcount, List.length_drop, hdiv]
      · intro f hf
        rcases List.mem_cons.mp hf with rfl | hf
        · exact ⟨rfl, skipped.drop 34, hnext⟩
        · exact hleave f hf

theorem calls_resync_streamPort :
    ∃ failures r, calls streamPort
        ⟨List.replicate 70 0 ++ (SbusPacket.encode (.replicate 16 0x7FF) 0x30).bytes.toList, 0, 0⟩
        (List.replicate 3 (.replicate 16 0)) = failures ++ [r] ∧ failures.length = 2 ∧
      (∀ f ∈ failures, LeavesPacket id
        ((SbusPacket.encode (.replicate 16 0x7FF) 0x30).bytes.toList ++ []) f) ∧
      ReturnsPacket id (.replicate 16 0x7FF) 0x30 0 [] r :=
  calls_resync streamPort id (.replicate 16 0x7FF) 0x30 (List.replicate 70 0) [] _ _
    streamPort_prompt (by simp [sbusChMaxData]) (by simp [usbSbusHeader]) (by simp) (by simp)

end

end TienKung
