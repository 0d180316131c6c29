import TienKung.Sbus.Read
import Mathlib.Logic.Relation

/-!
# Deliveries from a stream of packets

What the calls deliver while packets are sent back to back, from any starting
offset on: the packets that were sent, and those windows over two packets that
begin with a header byte and that the XOR cannot tell from a packet.
-/

namespace TienKung

open Blocks (stream straddle)

variable {port : CerealPort σ} {unread : σ → List UInt8} {packets : List SbusPacket}
  {start h : UsbSbus σ}

-- ---------------------------------------------------------------------------
-- Bytes at hand
-- ---------------------------------------------------------------------------

theorem streamPort_accepts {h : UsbSbus (List UInt8)} {w : Vector UInt8 35} {rest : List UInt8}
    (hw : h.serialHandle = w.toList ++ rest) (hheader : w.get 0 = usbSbusHeader)
    (hcheck : usbSbusXorCheck w = true) (channelsOut : Vector UInt16 16) :
    sbusRead streamPort h channelsOut = some ⟨16, h.accept rest w, usbSbusDecode w⟩ := by
  obtain ⟨_, rfl, hret⟩ := sbusRead_finds streamPort_prompt
    (List.not_mem_nil : usbSbusHeader ∉ []) (by decide) hw hheader hcheck channelsOut
  exact hret

-- ---------------------------------------------------------------------------
-- Calls
-- ---------------------------------------------------------------------------

def Call (port : CerealPort σ) (h h' : UsbSbus σ) : Prop :=
  ∃ channelsOut r, sbusRead port h channelsOut = some r ∧ r.sbus = h'

theorem calls_consume (hl : port.InOrder unread)
    (hcalls : Relation.ReflTransGen (Call port) start h) :
    ∃ taken, unread start.serialHandle = taken ++ unread h.serialHandle := by
  induction hcalls with
  | refl => exact ⟨[], rfl⟩
  | tail _ hcall ih =>
    obtain ⟨taken, htaken⟩ := ih
    obtain ⟨channelsOut, r, hret, rfl⟩ := hcall
    obtain ⟨more, hmore⟩ := sbusRead_consumes hl hret
    exact ⟨taken ++ more, by rw [htaken, hmore, List.append_assoc]⟩

theorem accepted_window {m : Nat} {packet : Vector UInt8 35} {rest : List UInt8}
    (hw : (stream SbusPacket.bytes packets).drop m = packet.toList ++ rest)
    (hheader : packet.get 0 = usbSbusHeader) (hcheck : usbSbusXorCheck packet = true) :
    (∃ p ∈ packets, packet = p.bytes) ∨
      ∃ p q, [p, q] <:+: packets ∧ ∃ k, Confused p q k ∧ packet = straddle p.bytes q.bytes k := by
  rcases Blocks.window_cases (by decide) hw with hsent | ⟨p, q, hpq, k, hk, rfl⟩
  · exact .inl hsent
  · exact .inr ⟨p, q, hpq, k, confused_iff.mpr ⟨hk, hheader, hcheck⟩, rfl⟩

/-- Whatever was read before, a call that returns 16 delivers a packet that was
sent, unless it begins inside a packet that is confused with the next. -/
theorem deliveries (port : CerealPort σ) (unread : σ → List UInt8) (hl : port.InOrder unread)
    (packets : List SbusPacket) (offset : Nat) (start h : UsbSbus σ)
    (hstart : unread start.serialHandle = (stream SbusPacket.bytes packets).drop offset)
    (hcalls : Relation.ReflTransGen (Call port) start h) (channelsOut : Vector UInt16 16)
    (r : SbusReturn σ) (hret : sbusRead port h channelsOut = some r) (h16 : r.value = 16) :
    (∃ p ∈ packets, Delivers h r p.bytes) ∨
      ∃ p q, [p, q] <:+: packets ∧ ∃ k, Confused p q k ∧
        Delivers h r (straddle p.bytes q.bytes k) := by
  obtain ⟨taken, htaken⟩ := calls_consume hl hcalls
  obtain ⟨skipped, packet, -, hu, hheader, hcheck, hd⟩ := sbusRead_delivers hl hret h16
  have hw : (stream SbusPacket.bytes packets).drop (offset + (taken ++ skipped).length) =
      packet.toList ++ unread r.sbus.serialHandle := by
    rw [← List.drop_drop, ← hstart, htaken, hu, ← List.append_assoc, List.drop_left]
  rcases accepted_window hw hheader hcheck with ⟨p, hp, rfl⟩ | ⟨p, q, hpq, k, hk, rfl⟩
  · exact .inl ⟨p, hp, hd⟩
  · exact .inr ⟨p, q, hpq, k, hk, hd⟩

def headerInside : SbusPacket :=
  ⟨(((Vector.replicate 35 0).set 0 0x0F).set 1 0x0F).set 2 1 |>.set 34 0x0E, by decide, by decide⟩

def flagged : SbusPacket :=
  ⟨((Vector.replicate 35 0).set 0 0x0F).set 33 0x30 |>.set 34 0x30, by decide, by decide⟩

theorem deliveries_flagged :
    let h : UsbSbus (List UInt8) := ⟨(stream SbusPacket.bytes [headerInside, flagged]).drop 3, 0, 0⟩
    ∃ r, sbusRead streamPort h (.replicate 16 0) = some r ∧ r.value = 16 ∧
      ((∃ p ∈ [headerInside, flagged], Delivers h r p.bytes) ∨
        ∃ p q, [p, q] <:+: [headerInside, flagged] ∧ ∃ k, Confused p q k ∧
          Delivers h r (straddle p.bytes q.bytes k)) := by
  intro h
  have hsome : (sbusRead streamPort h (.replicate 16 0)).isSome := by decide +kernel
  have h16 : ∀ hs, ((sbusRead streamPort h (.replicate 16 0)).get hs).value = 16 := by decide +kernel
  exact ⟨_, (Option.some_get hsome).symm, h16 hsome,
    deliveries streamPort id streamPort_inOrder [headerInside, flagged] 3 h h rfl .refl
      (.replicate 16 0) _ (Option.some_get hsome).symm (h16 hsome)⟩

/-- Reading begins at byte 1, and what is delivered was not sent. -/
theorem not_deliveries :
    let h : UsbSbus (List UInt8) := ⟨(stream SbusPacket.bytes [headerInside, flagged]).drop 1, 0, 0⟩
    ∃ r, sbusRead streamPort h (.replicate 16 0) = some r ∧ r.value = 16 ∧
      ∀ p ∈ [headerInside, flagged], ¬ Delivers h r p.bytes := by
  intro h
  have hw : h.serialHandle = (straddle headerInside.bytes flagged.bytes 1).toList ++
      flagged.bytes.toList.drop 1 := by decide +kernel
  refine ⟨_, streamPort_accepts hw (by decide) (by decide) _, rfl, fun p hp hd => ?_⟩
  have hch : ∀ p ∈ [headerInside, flagged],
      usbSbusDecode (straddle headerInside.bytes flagged.bytes 1) ≠ usbSbusDecode p.bytes := by
    decide +kernel
  exact hch p hp hd.2

theorem confused_delivered {p q : SbusPacket} {k : Fin 35} (hpq : Confused p q k)
    {h : UsbSbus (List UInt8)}
    (hs : h.serialHandle = (stream SbusPacket.bytes (p :: q :: packets)).drop k)
    (channelsOut : Vector UInt16 16) :
    ∃ r, sbusRead streamPort h channelsOut = some r ∧ r.value = 16 ∧
      Delivers h r (straddle p.bytes q.bytes k) := by
  obtain ⟨-, hheader, hcheck⟩ := confused_iff.mp hpq
  have hw : h.serialHandle = (straddle p.bytes q.bytes k).toList ++
      (q.bytes.toList.drop k ++ stream SbusPacket.bytes packets) := by
    rw [hs, Blocks.toList_straddle, Blocks.stream_cons, Blocks.stream_cons,
      List.drop_append_of_le_length (by simp), List.append_assoc,
      ← List.append_assoc (q.bytes.toList.take k), List.take_append_drop]
  exact ⟨_, streamPort_accepts hw hheader hcheck channelsOut, rfl, rfl, rfl⟩

-- ---------------------------------------------------------------------------
-- In step
-- ---------------------------------------------------------------------------

def calls (port : CerealPort σ) (h : UsbSbus σ) : List (Vector UInt16 16) → List (SbusReturn σ)
  | [] => []
  | channelsOut :: rest =>
    match sbusRead port h channelsOut with
    | some r => r :: calls port r.sbus rest
    | none => []

/-- From a packet boundary on, calls that all return 16 deliver the packets in
order, none lost and none twice. -/
theorem calls_in_step (hl : port.InOrder unread)
    (hs : unread h.serialHandle = stream SbusPacket.bytes packets) (outs : List (Vector UInt16 16))
    (h16 : ∀ r ∈ calls port h outs, r.value = 16) :
    (calls port h outs).map SbusReturn.channels <+: packets.map fun p => usbSbusDecode p.bytes := by
  induction outs generalizing h packets with
  | nil => exact List.nil_prefix
  | cons channelsOut outs ih =>
    rw [calls] at h16 ⊢
    cases hret : sbusRead port h channelsOut with
    | none => exact List.nil_prefix
    | some r =>
      simp only [hret, List.mem_cons, forall_eq_or_imp] at h16
      cases packets with
      | nil =>
        obtain ⟨skipped, packet, -, hu, -⟩ := sbusRead_delivers hl hret h16.1
        have hlen := congrArg List.length (hs.symm.trans hu)
        simp at hlen
        omega
      | cons p packets =>
        obtain ⟨hd, hrest⟩ := sbusRead_in_step hl hs hret h16.1
        exact List.cons_prefix_cons.mpr ⟨hd.2, ih hrest h16.2⟩

theorem calls_deliver_all {h : UsbSbus (List UInt8)}
    (hs : h.serialHandle = stream SbusPacket.bytes packets) (outs : List (Vector UInt16 16))
    (hlen : outs.length = packets.length) :
    (calls streamPort h outs).map SbusReturn.channels =
      packets.map fun p => usbSbusDecode p.bytes := by
  induction packets generalizing h outs with
  | nil => rw [List.length_eq_zero_iff.mp hlen]; rfl
  | cons p packets ih =>
    cases outs with
    | nil => cases hlen
    | cons channelsOut outs =>
      have hret := streamPort_accepts hs p.header p.check channelsOut
      simp only [calls, hret, List.map_cons]
      rw [ih rfl outs (Nat.succ.inj hlen)]

end TienKung
