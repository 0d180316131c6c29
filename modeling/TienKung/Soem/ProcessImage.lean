import TienKung.Lib.Memory
import TienKung.Soem.ConfigMap
import Mathlib.Algebra.BigOperators.Group.Finset.Basic
import Mathlib.Algebra.Order.BigOperators.Group.Finset
import Mathlib.Data.Fintype.BigOperators

/-!
# Places in the process image

If the sync managers of the slaves cover their process data, the mapping is a
layout of the image: every slave has a place, places do not overlap, the FMMUs
of a slave tile its place, and every place of a byte oriented slave is in one
segment.
-/

namespace TienKung

open Memory (spans)

-- ---------------------------------------------------------------------------
-- Sync managers
-- ---------------------------------------------------------------------------

section
variable {sm : Vector SyncManager ecMaxSm} {smType : UInt8} {smc : Fin ecMaxSm} {bits : Nat}

/-- The sync managers of a type that the mapping comes to from `k` on; the last one of all is not
among them. -/
def smBytesFrom (sm : Vector SyncManager ecMaxSm) (smType : UInt8) (k : Nat) : Nat :=
  ∑ i : Fin ecMaxSm,
    if k ≤ i.val ∧ i.val < 7 ∧ (sm.get i).smType = smType then (sm.get i).smLength.toNat else 0

theorem smBytesFrom_of_last {k : Nat} (h : 7 ≤ k) : smBytesFrom sm smType k = 0 :=
  Finset.sum_eq_zero fun i _ => if_neg fun hi => by omega

theorem nextSm_spec (sm : Vector SyncManager ecMaxSm) (smType : UInt8) (smc : Fin ecMaxSm) :
    smc ≤ nextSm sm smType smc ∧
    ∀ i : Fin ecMaxSm, smc ≤ i → i < nextSm sm smType smc → (sm.get i).smType ≠ smType := by
  rw [nextSm]
  cases hfind : (List.finRange ecMaxSm).find? fun i =>
      smc ≤ i ∧ i < 7 ∧ (sm.get i).smType = smType with
  | none =>
    rw [Option.getD_none]
    refine ⟨Fin.le_last smc, fun i hle hlt htype => ?_⟩
    have hi := List.find?_eq_none.mp hfind i (List.mem_finRange i)
    simp [hle, hlt, htype] at hi
  | some j =>
    obtain ⟨hj, k, hk, hget, hbefore⟩ := List.find?_eq_some_iff_getElem.mp hfind
    simp only [decide_eq_true_eq] at hj
    rw [Option.getD_some]
    refine ⟨hj.1, fun i hle hlt htype => ?_⟩
    rw [List.getElem_finRange] at hget
    have hik : i.val < k := by
      rw [Fin.lt_def, ← hget] at hlt
      exact hlt
    have hi := hbefore i.val hik
    rw [List.getElem_finRange] at hi
    simp [hle, lt_trans hlt hj.2.1, htype] at hi

theorem smBytesFrom_nextSm : smBytesFrom sm smType (nextSm sm smType smc).val =
    smBytesFrom sm smType smc.val := by
  obtain ⟨hle, hskip⟩ := nextSm_spec sm smType smc
  refine Finset.sum_congr rfl fun i _ => if_congr ?_ rfl rfl
  constructor
  · rintro ⟨hi, h⟩
    exact ⟨le_trans (Fin.le_def.mp hle) hi, h⟩
  · rintro ⟨hi, hlt, htype⟩
    refine ⟨?_, hlt, htype⟩
    by_contra hn
    exact hskip i hi (Fin.lt_def.mpr (Nat.lt_of_not_le hn)) htype

theorem smBytesFrom_le (sm : Vector SyncManager ecMaxSm) (smType : UInt8) (smc : Fin ecMaxSm) :
    smBytesFrom sm smType smc.val ≤
    (sm.get smc).smLength.toNat + smBytesFrom sm smType (smc.val + 1) := by
  have hone : ∑ i : Fin ecMaxSm, (if i = smc then (sm.get i).smLength.toNat else 0) =
      (sm.get smc).smLength.toNat := by simp
  rw [smBytesFrom, smBytesFrom, ← hone, ← Finset.sum_add_distrib]
  refine Finset.sum_le_sum fun i _ => ?_
  by_cases hi : i = smc
  · subst hi
    rw [if_pos rfl]
    split_ifs <;> omega
  · have hval : i.val ≠ smc.val := fun h => hi (Fin.ext h)
    rw [if_neg hi, Nat.zero_add]
    refine le_of_eq (if_congr ?_ rfl rfl)
    constructor
    · rintro ⟨hle, h⟩
      exact ⟨by omega, h⟩
    · rintro ⟨hle, h⟩
      exact ⟨by omega, h⟩

/-- All bytes have been gathered, or others are ahead, behind a gap. -/
def Gathered.Reaches (sm : Vector SyncManager ecMaxSm) (smType : UInt8) (bits : Nat)
    (smc : Fin ecMaxSm) (g : Gathered) : Prop :=
  (bits + 7) / 8 ≤ g.byteCount ∨ smc < g.smc ∧ g.smc < 7 ∧
    (bits + 7) / 8 ≤ g.byteCount + smBytesFrom sm smType g.smc.val

theorem Gathered.Reaches.mono {g : Gathered} {smc' : Fin ecMaxSm}
    (h : g.Reaches sm smType bits smc') (hle : smc ≤ smc') : g.Reaches sm smType bits smc :=
  h.imp_right fun h => ⟨lt_of_le_of_lt hle h.1, h.2⟩

theorem val_succ_of_lt (h : smc < 7) : (smc + 1).val = smc.val + 1 := Fin.val_add_one_of_lt h

theorem gatherMore_spec (left : Nat) {g : Gathered} (hleft : 7 ≤ left + g.smc.val)
    (hg : (bits + 7) / 8 ≤ g.byteCount + smBytesFrom sm smType (g.smc.val + 1)) :
    (gatherMore sm smType bits left g).Reaches sm smType bits g.smc := by
  induction left generalizing g with
  | zero =>
    rw [smBytesFrom_of_last (by omega)] at hg
    exact .inl hg
  | succ left ih =>
    by_cases hmore : g.byteCount * 8 < bits ∧ g.smc < 7
    · have hval := val_succ_of_lt hmore.2
      have hnext := (nextSm_spec sm smType (g.smc + 1)).1
      have hlt : g.smc < nextSm sm smType (g.smc + 1) := by
        rw [Fin.le_def, hval] at hnext
        exact hnext
      rw [← hval, ← smBytesFrom_nextSm] at hg
      rw [gatherMore, if_pos hmore]
      generalize nextSm sm smType (g.smc + 1) = smc at hg hlt
      simp only
      split_ifs
      · -- behind a gap
        by_cases hlast : smc = 7
        · rw [smBytesFrom_of_last (by rw [hlast]; decide)] at hg
          exact .inl hg
        · exact .inr ⟨hlt, lt_of_le_of_ne (Fin.le_last _) hlast, hg⟩
      · have hle := smBytesFrom_le sm smType smc
        have hsmc : g.smc.val < smc.val := hlt
        have hgathered := ih (g := gather sm smc g.byteCount) (by simp only [gather]; omega)
          (by simp only [gather]; omega)
        exact hgathered.mono hlt.le
    · rw [gatherMore, if_neg hmore]
      by_cases hlast : g.smc = 7
      · rw [smBytesFrom_of_last (by rw [hlast]; decide)] at hg
        exact .inl hg
      · have hlt : g.smc < 7 := lt_of_le_of_ne (Fin.le_last _) hlast
        have hfull : ¬ g.byteCount * 8 < bits := fun h => hmore ⟨h, hlt⟩
        exact .inl (by omega)

end

-- ---------------------------------------------------------------------------
-- Places
-- ---------------------------------------------------------------------------

def LogPos.bit (p : LogPos) : Nat := p.logAddr * 8 + p.bitPos

/-- The bit at which a slave with `bits` bits starts when the image is used up to bit `p`. -/
def placeStart (bits p : Nat) : Nat := if bits > 7 then (p + 7) / 8 * 8 else p

def placeEnd (bits p : Nat) : Nat :=
  if bits > 7 then (p + 7) / 8 * 8 + (bits + 7) / 8 * 8 else p + bits

/-- The sync managers of the direction have room for the process data. -/
def SlaveIo.Covers (s : SlaveIo) (dir : Direction) : Prop :=
  byteCountOf (s.bits dir) ≤ smBytesFrom s.sm dir.smType 0

instance (s : SlaveIo) (dir : Direction) : Decidable (s.Covers dir) :=
  inferInstanceAs (Decidable (_ ≤ _))

/-- The FMMUs of a slave start at bit `start`, and tile its bytes when it is byte oriented. -/
structure Placed (bits start : Nat) (fmmus : List Fmmu) : Prop where
  first : ∃ fmmu ∈ fmmus.head?, fmmu.logStart * 8 + fmmu.logStartbit = start
  tiles : bits > 7 → fmmus.map (fun fmmu => (fmmu.logStart, fmmu.logLength)) =
      spans (start / 8) (fmmus.map Fmmu.logLength) ∧
    (fmmus.map Fmmu.logLength).sum = (bits + 7) / 8

structure Mapping.Places (bits p : Nat) (m : Mapping) : Prop where
  bitPos : m.pos.bitPos < 8
  stop : m.pos.bit = placeEnd bits p
  placed : Placed bits (placeStart bits p) m.fmmus

section
variable {sm : Vector SyncManager ecMaxSm} {smType : UInt8} {bits : Nat} {p : LogPos}

theorem bit_carry (p : LogPos) : p.carry.bit = p.bit := by
  rw [LogPos.carry, LogPos.bit, LogPos.bit]
  split_ifs
  · simp only
    omega
  · rfl

theorem bitPos_carry (h : p.bitPos < 16) : p.carry.bitPos < 8 := by
  rw [LogPos.carry]
  split_ifs
  · simp only
    omega
  · omega

theorem mapBits_spec (physStart : UInt16) (hbits : 0 < bits) (hsmall : bits ≤ 7)
    (hp : p.bitPos < 8) :
    let r := mapBits bits physStart p
    r.1.logStart = p.logAddr ∧ r.1.logStartbit = p.bitPos ∧ 0 < r.1.logLength ∧ r.2.bitPos < 8 ∧
      r.2.bit = p.bit + bits := by
  have hlast := bit_carry ⟨p.logAddr, p.bitPos + (bits - 1)⟩
  have hlt : (LogPos.mk p.logAddr (p.bitPos + (bits - 1))).carry.bitPos < 8 :=
    bitPos_carry (by simp only; omega)
  simp only [mapBits, true_and]
  generalize (LogPos.mk p.logAddr (p.bitPos + (bits - 1))).carry = last at hlast hlt
  refine ⟨Nat.succ_pos _, bitPos_carry (by simp only; omega), ?_⟩
  rw [bit_carry]
  simp only [LogPos.bit] at hlast ⊢
  omega

/-- The mapping of a byte oriented slave on the way: what has been mapped lies in one piece, and
the sync managers ahead have the rest. -/
structure Mapping.OnWay (sm : Vector SyncManager ecMaxSm) (smType : UInt8) (bits : Nat) (p : LogPos)
    (m : Mapping) : Prop where
  tiles : m.fmmus.map (fun fmmu => (fmmu.logStart, fmmu.logLength)) =
    spans ((p.bit + 7) / 8) (m.fmmus.map Fmmu.logLength)
  startbit : ∀ fmmu ∈ m.fmmus, fmmu.logStartbit = 0
  done : m.fmmuDone = (m.fmmus.map Fmmu.logLength).sum
  le : m.fmmuDone ≤ (bits + 7) / 8
  pos : m.fmmus = [] ∧ m.pos = p ∨ m.pos = ⟨(p.bit + 7) / 8 + m.fmmuDone, 0⟩
  rest : m.fmmuDone = (bits + 7) / 8 ∨
    (bits + 7) / 8 ≤ m.byteCount + smBytesFrom sm smType m.smc.val

theorem mapBytes_spec (size : Nat) (physStart : UInt16) {m : Mapping} (hp : p.bitPos < 8)
    (h : m.OnWay sm smType bits p) :
    mapBytes size physStart m.pos = (⟨(p.bit + 7) / 8 + m.fmmuDone, size, 0, 7, physStart⟩,
      ⟨(p.bit + 7) / 8 + (m.fmmuDone + size), 0⟩) := by
  have hstart : (if m.pos.bitPos ≠ 0 then m.pos.logAddr + 1 else m.pos.logAddr) =
      (p.bit + 7) / 8 + m.fmmuDone := by
    rcases h.pos with ⟨hnil, hpos⟩ | hpos
    · have hdone : m.fmmuDone = 0 := by rw [h.done, hnil]; rfl
      rw [hpos, hdone, LogPos.bit]
      split_ifs <;> omega
    · rw [hpos]
      rfl
  rw [mapBytes, hstart, Nat.add_assoc]

theorem byteCountOf_eq (h : bits > 7) : byteCountOf bits = (bits + 7) / 8 := if_pos h

theorem fmmu_spec {m : Mapping} (hbits : bits > 7) (hp : p.bitPos < 8)
    (h : m.OnWay sm smType bits p) (hdone : m.fmmuDone < (bits + 7) / 8) :
    ∃ (g : Gathered) (size : Nat) (physStart : UInt16), g.Reaches sm smType bits m.smc ∧
      size = (if g.byteCount + m.fmmuDone > (bits + 7) / 8 then (bits + 7) / 8 - m.fmmuDone
        else g.byteCount) ∧
      m.fmmu sm smType bits = ⟨g.smc, g.byteCount, m.fmmuDone + size,
        ⟨(p.bit + 7) / 8 + (m.fmmuDone + size), 0⟩,
        m.fmmus ++ [⟨(p.bit + 7) / 8 + m.fmmuDone, size, 0, 7, physStart⟩]⟩ := by
  have hrest := h.rest.resolve_left hdone.ne
  rw [← smBytesFrom_nextSm] at hrest
  have hnext := (nextSm_spec sm smType m.smc).1
  have hne : (bits + 7) / 8 ≠ 0 := by omega
  rw [Mapping.fmmu]
  generalize nextSm sm smType m.smc = smc at hrest hnext
  have hle := smBytesFrom_le sm smType smc
  have hreach : (gatherMore sm smType bits ecMaxSm (gather sm smc m.byteCount)).Reaches
      sm smType bits smc :=
    gatherMore_spec ecMaxSm (le_trans (by decide) (Nat.le_add_right ..))
      (by simp only [gather]; omega)
  refine ⟨_, _, (sm.get smc).startAddr, hreach.mono hnext, rfl, ?_⟩
  simp only [byteCountOf_eq hbits, if_neg hne, mapBytes_spec _ _ hp h]

theorem fmmu_onWay {m : Mapping} (hbits : bits > 7) (hp : p.bitPos < 8)
    (h : m.OnWay sm smType bits p) (hdone : m.fmmuDone < (bits + 7) / 8) :
    (m.fmmu sm smType bits).OnWay sm smType bits p ∧
      ((m.fmmu sm smType bits).fmmuDone = (bits + 7) / 8 ∨
        m.smc < (m.fmmu sm smType bits).smc ∧ (m.fmmu sm smType bits).smc < 7) := by
  obtain ⟨g, size, physStart, hreach, hsize, heq⟩ := fmmu_spec hbits hp h hdone
  have hend : m.fmmuDone + size = (bits + 7) / 8 ∨ m.smc < g.smc ∧ g.smc < 7 ∧
      (bits + 7) / 8 ≤ g.byteCount + smBytesFrom sm smType g.smc.val := by
    refine hreach.imp_left fun hall => ?_
    split_ifs at hsize <;> omega
  have hle : m.fmmuDone + size ≤ (bits + 7) / 8 := by
    split_ifs at hsize <;> omega
  rw [heq]
  refine ⟨⟨?_, ?_, ?_, hle, .inr rfl, hend.imp_right fun h => h.2.2⟩,
    hend.imp_right fun h => ⟨h.1, h.2.1⟩⟩
  · simp only [List.map_append, Memory.spans_append, ← h.done]
    rw [h.tiles]
    rfl
  · intro fmmu hfmmu
    rcases List.mem_append.mp hfmmu with hfmmu | hfmmu
    · exact h.startbit fmmu hfmmu
    · rw [List.mem_singleton.mp hfmmu]
  · simp [h.done]

theorem createMappings_onWay (left : Nat) {m : Mapping} (hbits : bits > 7) (hp : p.bitPos < 8)
    (h : m.OnWay sm smType bits p)
    (hahead : m.fmmuDone = (bits + 7) / 8 ∨ m.smc < 7 ∧ 7 ≤ left + m.smc.val) :
    (createMappings sm smType bits left m).OnWay sm smType bits p ∧
      (createMappings sm smType bits left m).fmmuDone = (bits + 7) / 8 := by
  induction left generalizing m with
  | zero =>
    refine ⟨h, hahead.resolve_right fun ⟨hlt, hle⟩ => ?_⟩
    rw [Nat.zero_add] at hle
    exact absurd (Fin.lt_def.mp hlt) (Nat.not_lt_of_le hle)
  | succ left ih =>
    rw [createMappings]
    split_ifs with hmore
    · obtain ⟨hnext, hend⟩ := fmmu_onWay hbits hp h hmore.2
      refine ih hnext (hend.imp_right fun ⟨hlt, hseven⟩ => ⟨hseven, ?_⟩)
      have hle := (hahead.resolve_left hmore.2.ne).2
      rw [Fin.lt_def] at hlt
      omega
    · refine ⟨h, hahead.elim id fun ⟨hlt, _⟩ => ?_⟩
      have hnot : ¬ m.fmmuDone < (bits + 7) / 8 := fun hdone => hmore ⟨hlt, hdone⟩
      exact le_antisymm h.le (not_lt.mp hnot)

theorem createMappings_of_done {m : Mapping} {left : Nat} (h : (bits + 7) / 8 ≤ m.fmmuDone) :
    createMappings sm smType bits left m = m := by
  cases left with
  | zero => rfl
  | succ left => exact if_neg fun hmore => absurd hmore.2 (Nat.not_lt_of_le h)

theorem places_of_small (hp : p.bitPos < 8) (hbits : 0 < bits) (hsmall : bits ≤ 7) :
    (createMappings sm smType bits ecMaxSm (.start p)).Places bits p.bit := by
  have hmore : (Mapping.start p).smc < 7 ∧ (Mapping.start p).fmmuDone < (bits + 7) / 8 :=
    ⟨show (0 : Fin ecMaxSm) < 7 by decide, show 0 < (bits + 7) / 8 by omega⟩
  have hnone : byteCountOf bits = 0 := if_neg (by omega)
  rw [createMappings, if_pos hmore, Mapping.fmmu]
  simp only [if_pos hnone]
  obtain ⟨hstart, hstartbit, hlen, hpos, hstop⟩ :=
    mapBits_spec (sm.get (nextSm sm smType (Mapping.start p).smc)).startAddr hbits hsmall hp
  have hone : (bits + 7) / 8 = 1 := by omega
  rw [createMappings_of_done (by rw [hone]; exact Nat.le_add_left_of_le hlen)]
  refine ⟨hpos, ?_, ⟨_, rfl, ?_⟩, fun hbig => absurd hsmall (Nat.not_le_of_lt hbig)⟩
  · rw [placeEnd, if_neg (by omega)]
    exact hstop
  · rw [placeStart, if_neg (by omega)]
    exact congrArg₂ (· * 8 + ·) hstart hstartbit

theorem OnWay.places {m : Mapping} (hbits : bits > 7) (h : m.OnWay sm smType bits p)
    (hdone : m.fmmuDone = (bits + 7) / 8) : m.Places bits p.bit := by
  have hne : m.fmmus ≠ [] := fun hnil => by
    have := h.done
    rw [hnil, hdone] at this
    simp at this
    omega
  have hpos := h.pos.resolve_left fun hnil => hne hnil.1
  obtain ⟨fmmu, fmmus, hfmmus⟩ := List.exists_cons_of_ne_nil hne
  have hstart : placeStart bits p.bit = (p.bit + 7) / 8 * 8 := if_pos hbits
  have htiles := h.tiles
  refine ⟨?_, ?_, ⟨fmmu, ?_, ?_⟩, fun _ => ⟨?_, h.done.symm.trans hdone⟩⟩
  · rw [hpos]
    exact Nat.succ_pos 7
  · rw [hpos, hdone, placeEnd, if_pos hbits, LogPos.bit, Nat.add_mul, Nat.add_zero]
  · rw [hfmmus]
    rfl
  · rw [hfmmus] at htiles
    have hfirst := congrArg Prod.fst (List.cons.inj htiles).1
    rw [hstart, h.startbit fmmu (by simp [hfmmus]), Nat.add_zero]
    exact congrArg (· * 8) hfirst
  · rw [hstart, Nat.mul_div_cancel _ (Nat.succ_pos 7)]
    exact htiles

/-- A slave whose sync managers have room for its process data gets a place of its own. -/
theorem createMappings_places {s : SlaveIo} {dir : Direction} (hp : p.bitPos < 8)
    (hbits : 0 < s.bits dir) (hc : s.Covers dir) :
    (s.createMappings dir p).Places (s.bits dir) p.bit := by
  rw [SlaveIo.createMappings]
  rw [SlaveIo.Covers] at hc
  generalize s.bits dir = bits at hbits hc
  by_cases hsmall : bits ≤ 7
  · exact places_of_small hp hbits hsmall
  · have hbig : bits > 7 := by omega
    rw [byteCountOf_eq hbig] at hc
    have hstart : (Mapping.start p).OnWay s.sm dir.smType bits p :=
      ⟨rfl, fun _ h => (List.not_mem_nil h).elim, rfl, Nat.zero_le _, .inl ⟨rfl, rfl⟩,
        .inr (by simpa [Mapping.start] using hc)⟩
    obtain ⟨hway, hdone⟩ := createMappings_onWay ecMaxSm hbig hp hstart
      (.inr ⟨show (0 : Fin ecMaxSm) < 7 by decide, le_trans (by decide) (Nat.le_add_right ..)⟩)
    exact OnWay.places hbig hway hdone

end

-- ---------------------------------------------------------------------------
-- The group
-- ---------------------------------------------------------------------------

/-- How far the image is used after slaves with these numbers of bits. -/
def placesEnd (p : Nat) (bits : List Nat) : Nat := bits.foldl (fun p bits => placeEnd bits p) p

/-- A mapping between two slaves: as long as segments are left, they hold all that is mapped. -/
structure GroupMapping.Ready (g : GroupMapping) : Prop where
  bitPos : g.pos.bitPos < 8
  oLogAddr : g.oLogAddr = g.pos.logAddr
  total : g.segments.closed.length < ecMaxIoSegments - 1 → g.segments.total = g.pos.logAddr

/-- The `i`-th slave has its place behind bit `p`, in one segment if it is byte oriented. -/
def GroupMapping.Has (g : GroupMapping) (i bits p : Nat) : Prop :=
  ∃ fmmus, g.fmmus[i]? = some fmmus ∧ Placed bits (placeStart bits p) fmmus ∧
    (bits > 7 → g.segments.closed.length < ecMaxIoSegments - 1 →
      g.segments.Keeps (placeStart bits p / 8) (placeEnd bits p / 8))

/-- `g` is the mapping that `g₀` becomes with the slaves `ss`. -/
structure GroupMapping.Mapped (dir : Direction) (g₀ : GroupMapping) (ss : List SlaveIo)
    (g : GroupMapping) : Prop extends g.Ready where
  bit : g.pos.bit = placesEnd g₀.pos.bit (ss.map (·.bits dir))
  grows : g₀.segments.Grows g.segments
  length : g.fmmus.length = g₀.fmmus.length + ss.length
  has : ∀ before s after, ss = before ++ s :: after → s.bits dir ≠ 0 →
    g.Has (g₀.fmmus.length + before.length) (s.bits dir)
      (placesEnd g₀.pos.bit (before.map (·.bits dir)))

section
variable {dir : Direction} {g g₀ : GroupMapping} {s : SlaveIo} {ss : List SlaveIo} {bits p : Nat}

theorem placesEnd_append (p : Nat) (bits bits' : List Nat) :
    placesEnd p (bits ++ bits') = placesEnd (placesEnd p bits) bits' := List.foldl_append

theorem le_placeStart (bits p : Nat) : p ≤ placeStart bits p := by
  rw [placeStart]
  split_ifs <;> omega

theorem le_placeEnd (bits p : Nat) : p ≤ placeEnd bits p := by
  rw [placeEnd]
  split_ifs <;> omega

theorem le_placesEnd (p : Nat) (bits : List Nat) : p ≤ placesEnd p bits := by
  induction bits generalizing p with
  | nil => exact Nat.le_refl p
  | cons b bits ih => exact (le_placeEnd b p).trans (ih _)

theorem logAddr_eq {q : LogPos} (h : q.bitPos < 8) : q.logAddr = q.bit / 8 := by
  rw [LogPos.bit]
  omega

theorem GroupMapping.Has.grow {g' : GroupMapping} {i : Nat} (h : g.Has i bits p)
    (hfmmus : ∀ fmmus, g.fmmus[i]? = some fmmus → g'.fmmus[i]? = some fmmus)
    (hlen : g.segments.closed.length ≤ g'.segments.closed.length)
    (hgrows : ∀ lo hi, g.segments.Keeps lo hi → g'.segments.Keeps lo hi) : g'.Has i bits p := by
  obtain ⟨fmmus, hi, hplaced, hkeeps⟩ := h
  exact ⟨fmmus, hfmmus _ hi, hplaced, fun hbits hroom =>
    hgrows _ _ (hkeeps hbits (lt_of_le_of_lt hlen hroom))⟩

theorem GroupMapping.Ready.slave (h : g.Ready) (hc : s.Covers dir) (hbits : s.bits dir ≠ 0) :
    (g.slave dir s).Ready ∧ (g.slave dir s).pos.bit = placeEnd (s.bits dir) g.pos.bit ∧
      (g.slave dir s).Has g.fmmus.length (s.bits dir) g.pos.bit := by
  have hplaces := createMappings_places (p := g.pos) h.bitPos (Nat.pos_of_ne_zero hbits) hc
  rw [GroupMapping.slave, if_pos hbits]
  generalize s.createMappings dir g.pos = m at hplaces
  generalize s.bits dir = bits at hplaces
  have hlog := logAddr_eq h.bitPos
  have hlog' := logAddr_eq hplaces.bitPos
  rw [hplaces.stop] at hlog'
  have hle : g.pos.logAddr ≤ m.pos.logAddr := by
    rw [hlog, hlog']
    exact Nat.div_le_div_right (le_placeEnd _ _)
  have hroom : (addSegment g.segments (m.pos.logAddr - g.oLogAddr)).closed.length <
      ecMaxIoSegments - 1 → g.segments.closed.length < ecMaxIoSegments - 1 :=
    lt_of_le_of_lt (Packing.length_le_add ..)
  refine ⟨⟨hplaces.bitPos, rfl, fun hlt => ?_⟩, hplaces.stop, m.fmmus, by simp, hplaces.placed,
    fun hbig hlt => ?_⟩
  · show (addSegment g.segments (m.pos.logAddr - g.oLogAddr)).total = m.pos.logAddr
    rw [addSegment, Packing.total_add (hroom hlt), h.total (hroom hlt), h.oLogAddr]
    exact Nat.add_sub_cancel' hle
  · show (addSegment g.segments (m.pos.logAddr - g.oLogAddr)).Keeps _ _
    have hnew := Packing.keeps_new segmentLimit (m.pos.logAddr - g.oLogAddr) (hroom hlt)
    rw [h.total (hroom hlt), h.oLogAddr, Nat.add_sub_cancel' hle] at hnew
    rw [h.oLogAddr]
    refine hnew.mono ?_ hlog'.ge
    rw [hlog]
    exact Nat.div_le_div_right (le_placeStart _ _)

theorem GroupMapping.slave_of_none (h : s.bits dir = 0) :
    g.slave dir s = { g with fmmus := g.fmmus ++ [[]] } := if_neg (not_not.mpr h)

theorem fmmus_slave (dir : Direction) (g : GroupMapping) (s : SlaveIo) :
    ∃ fmmus, (g.slave dir s).fmmus = g.fmmus ++ [fmmus] ∧ (s.bits dir = 0 → fmmus = []) := by
  rw [GroupMapping.slave]
  split_ifs with hbits
  · exact ⟨_, rfl, fun h => absurd h hbits⟩
  · exact ⟨_, rfl, fun _ => rfl⟩

theorem segments_slave (dir : Direction) (g : GroupMapping) (s : SlaveIo) :
    (g.slave dir s).segments = g.segments ∨ ∃ diff, (g.slave dir s).segments =
      addSegment g.segments diff := by
  rw [GroupMapping.slave]
  split_ifs
  · exact .inr ⟨_, rfl⟩
  · exact .inl rfl

theorem grows_slave {b : Segments} (h : b.Grows g.segments) (dir : Direction) (s : SlaveIo) :
    b.Grows (g.slave dir s).segments := by
  rcases segments_slave dir g s with heq | ⟨diff, heq⟩
  · rwa [heq]
  · rw [heq]
    exact h.add ..

theorem GroupMapping.Has.slave {i : Nat} (h : g.Has i bits p) (dir : Direction) (s : SlaveIo) :
    (g.slave dir s).Has i bits p := by
  refine h.grow (fun fmmus hi => ?_) ?_ fun lo hi hkeeps =>
    hkeeps.grow (grows_slave (Packing.Bins.Grows.refl _) dir s)
  · obtain ⟨new, hnew, -⟩ := fmmus_slave dir g s
    rw [hnew, List.getElem?_append_left (List.getElem?_eq_some_iff.mp hi).1, hi]
  · rcases segments_slave dir g s with heq | ⟨diff, heq⟩
    · rw [heq]
    · rw [heq]
      exact Packing.length_le_add ..

theorem GroupMapping.Ready.mapped_nil (h : g.Ready) : Mapped dir g [] g where
  toReady := h
  bit := rfl
  grows := Packing.Bins.Grows.refl _
  length := rfl
  has before s after heq := by simp at heq

theorem GroupMapping.Mapped.slave (h : Mapped dir g₀ ss g) (hc : s.Covers dir) :
    Mapped dir g₀ (ss ++ [s]) (g.slave dir s) := by
  have hnext : (g.slave dir s).Ready ∧ (g.slave dir s).pos.bit = placeEnd (s.bits dir) g.pos.bit ∧
      (s.bits dir ≠ 0 → (g.slave dir s).Has g.fmmus.length (s.bits dir) g.pos.bit) := by
    by_cases hbits : s.bits dir = 0
    · rw [GroupMapping.slave_of_none hbits, hbits]
      exact ⟨⟨h.bitPos, h.oLogAddr, h.total⟩, rfl, fun hne => absurd rfl hne⟩
    · obtain ⟨hready, hbit, hhas⟩ := h.toReady.slave hc hbits
      exact ⟨hready, hbit, fun _ => hhas⟩
  obtain ⟨hready, hbit, hhas⟩ := hnext
  refine ⟨hready, ?_, grows_slave h.grows dir s, ?_, ?_⟩
  · rw [hbit, h.bit, List.map_append, placesEnd_append]
    rfl
  · obtain ⟨new, hnew, -⟩ := fmmus_slave dir g s
    rw [hnew, List.length_append, h.length, List.length_append, Nat.add_assoc]
    rfl
  · intro before s' after heq hne
    rcases List.eq_nil_or_concat after with rfl | ⟨init, last, rfl⟩
    · obtain ⟨rfl, hs⟩ := List.append_inj' heq rfl
      obtain rfl := (List.cons.inj hs).1
      rw [← h.length, ← h.bit]
      exact hhas hne
    · rw [List.concat_eq_append, ← List.cons_append, ← List.append_assoc] at heq
      obtain ⟨hss, -⟩ := List.append_inj' heq rfl
      exact (h.has before s' init hss hne).slave dir s

theorem GroupMapping.Ready.foldl (h : g.Ready) (hc : ∀ s ∈ ss, s.Covers dir) :
    Mapped dir g ss (ss.foldl (GroupMapping.slave dir) g) := by
  induction ss using List.reverseRecOn with
  | nil => exact h.mapped_nil
  | append_singleton ss s ih =>
    rw [List.foldl_append]
    exact (ih fun s hs => hc s (List.mem_append_left _ hs)).slave (hc s (by simp))

theorem GroupMapping.Mapped.close (h : Mapped dir g₀ ss g) :
    g.close.Ready ∧ g.close.pos = ⟨(placesEnd g₀.pos.bit (ss.map (·.bits dir)) + 7) / 8, 0⟩ ∧
      g₀.segments.Grows g.close.segments ∧
      ∀ before s after, ss = before ++ s :: after → s.bits dir ≠ 0 →
        g.close.Has (g₀.fmmus.length + before.length) (s.bits dir)
          (placesEnd g₀.pos.bit (before.map (·.bits dir))) := by
  have hbitPos := h.bitPos
  rw [← h.bit, GroupMapping.close, LogPos.bit]
  split_ifs with hopen
  · refine ⟨⟨Nat.succ_pos 7, rfl, fun hlt => ?_⟩, ?_, h.grows.add ..,
      fun before s after heq hne => ?_⟩
    · have hroom := lt_of_le_of_lt (Packing.length_le_add segmentLimit _ _ 1) hlt
      rw [addSegment, Packing.total_add hroom, h.total hroom]
    · simp only [LogPos.mk.injEq, and_true]
      omega
    · exact (h.has before s after heq hne).grow (fun _ hi => hi) (Packing.length_le_add ..)
        fun lo hi hkeeps => hkeeps.grow ((Packing.Bins.Grows.refl _).add ..)
  · have hzero : g.pos.bitPos = 0 := not_not.mp hopen
    have hpos : g.pos = ⟨g.pos.logAddr, g.pos.bitPos⟩ := rfl
    refine ⟨h.toReady, ?_, h.grows, h.has⟩
    rw [hpos, hzero]
    simp only [LogPos.mk.injEq, and_true]
    omega

theorem fmmus_foldl (dir : Direction) (g : GroupMapping) (ss : List SlaveIo) :
    ∃ fmmus, (ss.foldl (GroupMapping.slave dir) g).fmmus = g.fmmus ++ fmmus ∧
      List.Forall₂ (fun s fmmus => s.bits dir = 0 → fmmus = []) ss fmmus := by
  induction ss generalizing g with
  | nil => exact ⟨[], (List.append_nil _).symm, .nil⟩
  | cons s ss ih =>
    obtain ⟨new, hnew, hnone⟩ := fmmus_slave dir g s
    obtain ⟨fmmus, heq, hall⟩ := ih (g.slave dir s)
    exact ⟨new :: fmmus, by rw [List.foldl_cons, heq, hnew, List.append_assoc]; rfl,
      .cons hnone hall⟩

theorem fmmus_close : g.close.fmmus = g.fmmus := by
  rw [GroupMapping.close]
  split_ifs <;> rfl

/-- The segments are no larger than frames have room for. -/
def GroupMapping.Fits (g : GroupMapping) : Prop := ∀ n ∈ g.segments.all, n ≤ segmentLimit

theorem placeEnd_le (bits p : Nat) : placeEnd bits p / 8 ≤ p / 8 + ((bits + 7) / 8 + 1) := by
  rw [placeEnd]
  split_ifs <;> omega

theorem GroupMapping.Fits.slave (hg : g.Fits) (h : g.Ready) (hc : s.Covers dir)
    (hs : (s.bits dir + 7) / 8 < segmentLimit) : (g.slave dir s).Fits := by
  by_cases hbits : s.bits dir = 0
  · rw [GroupMapping.slave_of_none hbits]
    exact hg
  · obtain ⟨hready, hbit, -⟩ := h.slave hc hbits
    have hlog := logAddr_eq h.bitPos
    have hlog' := logAddr_eq hready.bitPos
    have hle := placeEnd_le (s.bits dir) g.pos.bit
    rw [← hbit, ← hlog, ← hlog', ← h.oLogAddr] at hle
    rw [GroupMapping.slave, if_pos hbits] at hle ⊢
    exact Packing.add_bounded hg ((Nat.sub_le_iff_le_add'.mpr hle).trans hs)

theorem GroupMapping.Ready.foldl_fits (h : g.Ready) (hg : g.Fits) (hc : ∀ s ∈ ss, s.Covers dir)
    (hs : ∀ s ∈ ss, (s.bits dir + 7) / 8 < segmentLimit) :
    (ss.foldl (GroupMapping.slave dir) g).Fits := by
  induction ss using List.reverseRecOn with
  | nil => exact hg
  | append_singleton ss s ih =>
    rw [List.foldl_append]
    have hcs : ∀ s ∈ ss, s.Covers dir := fun s hs => hc s (List.mem_append_left _ hs)
    exact (ih hcs fun s h => hs s (List.mem_append_left _ h)).slave (h.foldl hcs).toReady
      (hc s (by simp)) (hs s (by simp))

theorem GroupMapping.Fits.close (hg : g.Fits) : g.close.Fits := by
  rw [GroupMapping.close]
  split_ifs
  · exact Packing.add_bounded hg (by decide)
  · exact hg

end

-- ---------------------------------------------------------------------------
-- The layout
-- ---------------------------------------------------------------------------

/-- The places of slaves with these numbers of bits, from bit `p` on. -/
def places (p : Nat) : List Nat → List (Nat × Nat)
  | [] => []
  | bits :: rest => (placeStart bits p, placeEnd bits p) :: places (placeEnd bits p) rest

def imageStart (slaves : List SlaveIo) : Direction → Nat
  | .output => 0
  | .input => (mapOutputs slaves).pos.logAddr * 8

def layout (slaves : List SlaveIo) (dir : Direction) : List (Nat × Nat) :=
  places (imageStart slaves dir) (slaves.map (·.bits dir))

def mapDirection (slaves : List SlaveIo) : Direction → GroupMapping
  | .output => mapOutputs slaves
  | .input => mapInputs slaves

section
variable {p : Nat} {bits : List Nat} {slaves : List SlaveIo} {dir : Direction}

theorem placeStart_le_placeEnd (bits p : Nat) : placeStart bits p ≤ placeEnd bits p := by
  rw [placeStart, placeEnd]
  split_ifs <;> omega

theorem getElem?_places (before : List Nat) (b : Nat) (after : List Nat) :
    (places p (before ++ b :: after))[before.length]? =
      some (placeStart b (placesEnd p before), placeEnd b (placesEnd p before)) := by
  induction before generalizing p with
  | nil => rfl
  | cons c before ih => exact ih

theorem places_within : ∀ place ∈ places p bits,
    p ≤ place.1 ∧ place.1 ≤ place.2 ∧ place.2 ≤ placesEnd p bits := by
  induction bits generalizing p with
  | nil => exact fun _ h => (List.not_mem_nil h).elim
  | cons b bits ih =>
    intro place hplace
    rcases List.mem_cons.mp hplace with rfl | hplace
    · exact ⟨le_placeStart b p, placeStart_le_placeEnd b p, le_placesEnd _ bits⟩
    · obtain ⟨hstart, hle, hend⟩ := ih place hplace
      exact ⟨(le_placeEnd b p).trans hstart, hle, hend⟩

@[simp] theorem length_places : (places p bits).length = bits.length := by
  induction bits generalizing p with
  | nil => rfl
  | cons b bits ih => exact congrArg (· + 1) ih

theorem layout_get {i : Nat} {s : SlaveIo} (dir : Direction) (hi : slaves[i]? = some s) :
    ∃ p, (layout slaves dir)[i]? =
      some (placeStart (s.bits dir) p, placeEnd (s.bits dir) p) := by
  obtain ⟨hlt, rfl⟩ := List.getElem?_eq_some_iff.mp hi
  have hget := getElem?_places (p := imageStart slaves dir) ((slaves.take i).map (·.bits dir))
    (slaves[i].bits dir) ((slaves.drop (i + 1)).map (·.bits dir))
  have hsplit : slaves.map (·.bits dir) = (slaves.take i).map (·.bits dir) ++
      slaves[i].bits dir :: (slaves.drop (i + 1)).map (·.bits dir) := by
    conv_lhs => rw [← List.take_append_drop i slaves, List.drop_eq_getElem_cons hlt,
      List.map_append, List.map_cons]
  rw [← hsplit, List.length_map, List.length_take_of_le hlt.le] at hget
  exact ⟨_, hget⟩

theorem bytes_of_place {b : Nat} (p : Nat) (hb : b > 7) :
    placeEnd b p / 8 = placeStart b p / 8 + (b + 7) / 8 ∧ placeStart b p % 8 = 0 ∧
      placeEnd b p % 8 = 0 := by
  rw [placeStart, placeEnd, if_pos hb, if_pos hb]
  omega

theorem pairwise_places : (places p bits).Pairwise fun a b => a.2 ≤ b.1 := by
  induction bits generalizing p with
  | nil => exact .nil
  | cons b bits ih => exact List.pairwise_cons.mpr ⟨fun place h => (places_within place h).1, ih⟩

/-- From a whole byte on, byte oriented slaves leave no byte out. -/
theorem exists_place {a : Nat} (hb : ∀ b ∈ bits, b = 0 ∨ b > 7) (hp : p % 8 = 0) (hle : p / 8 ≤ a)
    (hlt : a < (placesEnd p bits + 7) / 8) :
    ∃ place ∈ places p bits, place.1 / 8 ≤ a ∧ a < place.2 / 8 := by
  induction bits generalizing p with
  | nil =>
    simp only [placesEnd, List.foldl_nil] at hlt
    omega
  | cons b bits ih =>
    obtain ⟨hfirst, hrest⟩ := List.forall_mem_cons.mp hb
    have hbyte : placeStart b p = p ∧ placeEnd b p % 8 = 0 := by
      rw [placeStart, placeEnd]
      split_ifs <;> omega
    by_cases ha : a < placeEnd b p / 8
    · exact ⟨_, List.mem_cons_self .., by rw [hbyte.1]; exact hle, ha⟩
    · obtain ⟨place, hplace, h⟩ := ih hrest hbyte.2 (Nat.le_of_not_lt ha) hlt
      exact ⟨place, List.mem_cons_of_mem _ hplace, h⟩

theorem start_ready : GroupMapping.start.Ready := ⟨Nat.succ_pos 7, rfl, fun _ => rfl⟩

theorem mapped_outputs (hc : ∀ s ∈ slaves, s.Covers .output) :
    GroupMapping.Mapped .output .start slaves
      (slaves.foldl (GroupMapping.slave .output) .start) := start_ready.foldl hc

theorem mapped_inputs (hc : ∀ s ∈ slaves, ∀ dir, s.Covers dir) :
    GroupMapping.Mapped .input { mapOutputs slaves with fmmus := [] } slaves
      (slaves.foldl (GroupMapping.slave .input) { mapOutputs slaves with fmmus := [] }) := by
  have hready := (mapped_outputs fun s hs => hc s hs .output).close.1
  exact GroupMapping.Ready.foldl ⟨hready.bitPos, hready.oLogAddr, hready.total⟩
    fun s hs => hc s hs .input

theorem outputs_close (hc : ∀ s ∈ slaves, ∀ dir, s.Covers dir) : (mapOutputs slaves).Ready ∧
    (mapOutputs slaves).pos = ⟨(placesEnd 0 (slaves.map (·.bits .output)) + 7) / 8, 0⟩ ∧
    ∀ before s after, slaves = before ++ s :: after → s.bits .output ≠ 0 →
      (mapOutputs slaves).Has before.length (s.bits .output)
        (placesEnd (imageStart slaves .output) (before.map (·.bits .output))) := by
  obtain ⟨hready, hpos, -, hhas⟩ := (mapped_outputs fun s hs => hc s hs .output).close
  refine ⟨hready, hpos, fun before s after heq hne => ?_⟩
  have h := hhas before s after heq hne
  rwa [show GroupMapping.start.fmmus.length = 0 from rfl, Nat.zero_add] at h

theorem inputs_close (hc : ∀ s ∈ slaves, ∀ dir, s.Covers dir) : (mapInputs slaves).Ready ∧
    (mapInputs slaves).pos =
      ⟨(placesEnd (imageStart slaves .input) (slaves.map (·.bits .input)) + 7) / 8, 0⟩ ∧
    (mapOutputs slaves).segments.Grows (mapInputs slaves).segments ∧
    ∀ before s after, slaves = before ++ s :: after → s.bits .input ≠ 0 →
      (mapInputs slaves).Has before.length (s.bits .input)
        (placesEnd (imageStart slaves .input) (before.map (·.bits .input))) := by
  obtain ⟨hready, hpos, hgrows, hhas⟩ := (mapped_inputs hc).close
  have hstart : LogPos.bit (mapOutputs slaves).pos = imageStart slaves .input := by
    rw [(outputs_close hc).2.1]
    simp [imageStart, LogPos.bit, (outputs_close hc).2.1]
  simp only [hstart] at hpos hhas
  refine ⟨hready, hpos, hgrows, fun before s after heq hne => ?_⟩
  have h := hhas before s after heq hne
  rwa [List.length_nil, Nat.zero_add] at h

theorem Has.layout {g : GroupMapping} {before : List SlaveIo} {s : SlaveIo} {after : List SlaveIo}
    (heq : slaves = before ++ s :: after)
    (h : g.Has before.length (s.bits dir)
      (placesEnd (imageStart slaves dir) (before.map (·.bits dir)))) :
    ∃ place ∈ (layout slaves dir)[before.length]?, ∃ fmmus ∈ g.fmmus[before.length]?,
      Placed (s.bits dir) place.1 fmmus ∧
        (s.bits dir > 7 → g.segments.closed.length < ecMaxIoSegments - 1 →
          g.segments.Keeps (place.1 / 8) (place.2 / 8)) := by
  obtain ⟨fmmus, hfmmus, hplaced, hkeeps⟩ := h
  refine ⟨(placeStart _ _, placeEnd _ _), ?_, fmmus, hfmmus, hplaced, hkeeps⟩
  have hlen : before.length = (before.map (·.bits dir)).length := (List.length_map ..).symm
  rw [TienKung.layout, hlen, heq, List.map_append, List.map_cons]
  exact getElem?_places _ _ _

theorem oBytes_eq (hc : ∀ s ∈ slaves, ∀ dir, s.Covers dir) :
    (configMapGroup slaves).oBytes = (placesEnd 0 (slaves.map (·.bits .output)) + 7) / 8 :=
  congrArg LogPos.logAddr (outputs_close hc).2.1

theorem image_end (hc : ∀ s ∈ slaves, ∀ dir, s.Covers dir) :
    (configMapGroup slaves).oBytes + (configMapGroup slaves).iBytes =
      (mapInputs slaves).pos.logAddr ∧
    (mapInputs slaves).pos.logAddr =
      (placesEnd (imageStart slaves .input) (slaves.map (·.bits .input)) + 7) / 8 := by
  have hlog := congrArg LogPos.logAddr (inputs_close hc).2.1
  have hend := le_placesEnd (imageStart slaves .input) (slaves.map (·.bits .input))
  refine ⟨Nat.add_sub_cancel' ?_, hlog⟩
  rw [hlog]
  exact (Nat.le_div_iff_mul_le (Nat.succ_pos 7)).mpr (hend.trans (Nat.le_add_right _ 7))

theorem outputs_within (hc : ∀ s ∈ slaves, ∀ dir, s.Covers dir) :
    ∀ place ∈ layout slaves .output, place.2 ≤ (configMapGroup slaves).oBytes * 8 := by
  intro place hplace
  rw [oBytes_eq hc]
  exact (places_within place hplace).2.2.trans (by simp only [imageStart]; omega)

theorem inputs_within (hc : ∀ s ∈ slaves, ∀ dir, s.Covers dir) :
    ∀ place ∈ layout slaves .input, (configMapGroup slaves).oBytes * 8 ≤ place.1 ∧
      place.2 ≤ ((configMapGroup slaves).oBytes + (configMapGroup slaves).iBytes) * 8 := by
  intro place hplace
  obtain ⟨hle, -, hwithin⟩ := places_within place hplace
  obtain ⟨hsum, hlog⟩ := image_end hc
  refine ⟨hle, hwithin.trans ?_⟩
  rw [hsum, hlog]
  omega

theorem exists_input_place (hc : ∀ s ∈ slaves, ∀ dir, s.Covers dir)
    (hb : ∀ s ∈ slaves, s.bits .input = 0 ∨ s.bits .input > 7) {a : Nat}
    (hle : (configMapGroup slaves).oBytes ≤ a)
    (hlt : a < (configMapGroup slaves).oBytes + (configMapGroup slaves).iBytes) :
    ∃ place ∈ layout slaves .input, place.1 / 8 ≤ a ∧ a < place.2 / 8 := by
  obtain ⟨hsum, hlog⟩ := image_end hc
  rw [hsum, hlog] at hlt
  refine exists_place (fun b hmem => ?_) (Nat.mul_mod_left ..) ?_ hlt
  · obtain ⟨s, hs, rfl⟩ := List.mem_map.mp hmem
    exact hb s hs
  · rw [imageStart, Nat.mul_div_cancel _ (Nat.succ_pos 7)]
    exact hle

theorem closed_of_room (h : (configMapGroup slaves).ioSegment.length < ecMaxIoSegments) :
    (mapInputs slaves).segments.closed.length < ecMaxIoSegments - 1 := by
  have hall : (configMapGroup slaves).ioSegment.length =
      (mapInputs slaves).segments.closed.length + 1 := List.length_append
  exact Nat.lt_sub_of_add_lt (hall ▸ h)

/-- The segments come to the image, and the outputs end `iOffset` bytes into segment `iSegment`. -/
structure EcGroup.Cut (g : EcGroup) : Prop where
  sum : g.ioSegment.sum = g.oBytes + g.iBytes
  split : ∃ before n after, g.ioSegment = before ++ n :: after ∧ before.length = g.iSegment ∧
    before.sum + g.iOffset = g.oBytes ∧ g.iOffset ≤ n

theorem configMapGroup_cut (hc : ∀ s ∈ slaves, ∀ dir, s.Covers dir)
    (hroom : (configMapGroup slaves).ioSegment.length < ecMaxIoSegments) :
    (configMapGroup slaves).Cut := by
  obtain ⟨hout, -, -⟩ := outputs_close hc
  obtain ⟨hin, -, hgrows, -⟩ := inputs_close hc
  have hclosed := closed_of_room hroom
  have htotal := hout.total (lt_of_le_of_lt hgrows.length_le hclosed)
  rw [Packing.total_eq] at htotal
  constructor
  · rw [(image_end hc).1, ← hin.total hclosed]
    rfl
  · obtain ⟨n, after, heq, hle⟩ := hgrows
    exact ⟨_, n, after, heq, rfl, htotal, hle⟩

/-- Segments have room in a frame if the process data of each slave has. -/
theorem configMapGroup_fits (hc : ∀ s ∈ slaves, ∀ dir, s.Covers dir)
    (hs : ∀ s ∈ slaves, ∀ dir, (s.bits dir + 7) / 8 < segmentLimit) :
    ∀ n ∈ (configMapGroup slaves).ioSegment, n ≤ segmentLimit := by
  have hstart : GroupMapping.start.Fits := fun n hn => by
    rw [List.mem_singleton.mp hn]
    exact Nat.zero_le _
  have houts : (mapOutputs slaves).Fits :=
    (start_ready.foldl_fits hstart (fun s h => hc s h .output) fun s h => hs s h .output).close
  obtain ⟨hready, -, -⟩ := outputs_close hc
  have hready' : GroupMapping.Ready { mapOutputs slaves with fmmus := [] } :=
    ⟨hready.bitPos, hready.oLogAddr, hready.total⟩
  exact (hready'.foldl_fits houts (fun s h => hc s h .input) fun s h => hs s h .input).close

theorem slave_placed (dir : Direction) (hc : ∀ s ∈ slaves, ∀ dir, s.Covers dir)
    (hroom : (configMapGroup slaves).ioSegment.length < ecMaxIoSegments) {i : Nat} {s : SlaveIo}
    (hi : slaves[i]? = some s) (hne : s.bits dir ≠ 0) :
    ∃ place ∈ (layout slaves dir)[i]?, ∃ fmmus ∈ (mapDirection slaves dir).fmmus[i]?,
      Placed (s.bits dir) place.1 fmmus ∧ (s.bits dir > 7 → ∃ before n after,
        (configMapGroup slaves).ioSegment = before ++ n :: after ∧
          before.sum ≤ place.1 / 8 ∧ place.2 / 8 ≤ before.sum + n) := by
  obtain ⟨-, -, hhas⟩ := outputs_close hc
  obtain ⟨-, -, hgrows, hhas'⟩ := inputs_close hc
  have hclosed := closed_of_room hroom
  obtain ⟨hlt, hget⟩ := List.getElem?_eq_some_iff.mp hi
  have heq : slaves = slaves.take i ++ s :: slaves.drop (i + 1) := by
    rw [← hget, ← List.drop_eq_getElem_cons hlt, List.take_append_drop]
  have hlen : (slaves.take i).length = i := List.length_take_of_le hlt.le
  cases dir with
  | output =>
    have hplace := Has.layout heq (hhas _ s _ heq hne)
    rw [hlen] at hplace
    obtain ⟨place, hplace, fmmus, hfmmus, hplaced, hkeeps⟩ := hplace
    refine ⟨place, hplace, fmmus, hfmmus, hplaced, fun hbig => ?_⟩
    exact (hkeeps hbig (lt_of_le_of_lt hgrows.length_le hclosed)).grow hgrows
  | input =>
    have hplace := Has.layout heq (hhas' _ s _ heq hne)
    rw [hlen] at hplace
    obtain ⟨place, hplace, fmmus, hfmmus, hplaced, hkeeps⟩ := hplace
    exact ⟨place, hplace, fmmus, hfmmus, hplaced, fun hbig => hkeeps hbig hclosed⟩

theorem fmmus_mapDirection (slaves : List SlaveIo) (dir : Direction) :
    List.Forall₂ (fun s fmmus => s.bits dir = 0 → fmmus = []) slaves
      (mapDirection slaves dir).fmmus := by
  cases dir with
  | output =>
    obtain ⟨fmmus, heq, hall⟩ := fmmus_foldl .output .start slaves
    rw [mapDirection, mapOutputs, fmmus_close, heq]
    exact hall
  | input =>
    obtain ⟨fmmus, heq, hall⟩ :=
      fmmus_foldl .input { mapOutputs slaves with fmmus := [] } slaves
    rw [mapDirection, mapInputs, fmmus_close, heq]
    exact hall

theorem length_mapDirection (slaves : List SlaveIo) (dir : Direction) :
    (mapDirection slaves dir).fmmus.length = slaves.length :=
  (List.forall₂_iff_get.mp (fmmus_mapDirection slaves dir)).1.symm

/-- If the sync managers cover the process data and the segments suffice, the mapping is a layout of
the image: the outputs and then the inputs, each slave with a place of its own and every place of a
byte oriented slave in one segment. A segment fits into a frame if each slave's process data does. -/
theorem image_layout (slaves : List SlaveIo) (hc : ∀ s ∈ slaves, ∀ dir, s.Covers dir)
    (hroom : (configMapGroup slaves).ioSegment.length < ecMaxIoSegments) :
    let g := configMapGroup slaves
    (∀ dir (i : Nat) s, slaves[i]? = some s → s.bits dir ≠ 0 → ∃ place ∈ (layout slaves dir)[i]?,
      ∃ fmmus ∈ (mapDirection slaves dir).fmmus[i]?, Placed (s.bits dir) place.1 fmmus ∧
        (s.bits dir > 7 → ∃ before n after, g.ioSegment = before ++ n :: after ∧
          before.sum ≤ place.1 / 8 ∧ place.2 / 8 ≤ before.sum + n)) ∧
      (∀ dir, (layout slaves dir).Pairwise fun a b => a.2 ≤ b.1) ∧
      (∀ place ∈ layout slaves .output, place.2 ≤ g.oBytes * 8) ∧
      (∀ place ∈ layout slaves .input, g.oBytes * 8 ≤ place.1 ∧
        place.2 ≤ (g.oBytes + g.iBytes) * 8) ∧
      g.ioSegment.sum = g.oBytes + g.iBytes ∧
      (g.ioSegment.take g.iSegment).sum + g.iOffset = g.oBytes ∧
      ((∀ s ∈ slaves, ∀ dir, (s.bits dir + 7) / 8 < segmentLimit) →
        ∀ n ∈ g.ioSegment, n ≤ segmentLimit) := by
  intro g
  have hcut := configMapGroup_cut hc hroom
  refine ⟨fun dir i s hi hne => slave_placed dir hc hroom hi hne, fun dir => pairwise_places,
    outputs_within hc, inputs_within hc, hcut.sum, ?_, configMapGroup_fits hc⟩
  obtain ⟨before, n, after, heq, hlen, hsum, -⟩ := hcut.split
  rw [heq, ← hlen, List.take_left]
  exact hsum

/-- A slave with a message of 86 bytes each way. -/
def messageSlave : SlaveIo where
  obits := 688
  ibits := 688
  sm := #v[⟨0x1000, 128, 1⟩, ⟨0x1080, 128, 2⟩, ⟨0x1100, 86, 3⟩, ⟨0x1400, 86, 4⟩, ⟨0, 0, 0⟩,
    ⟨0, 0, 0⟩, ⟨0, 0, 0⟩, ⟨0, 0, 0⟩]
  blockLRW := false

theorem messageSlave_covers (dir : Direction) : messageSlave.Covers dir := by
  cases dir <;> decide

/-- Two slaves with messages, and between them one with three bits of outputs. -/
theorem image_layout_of_three :
    let bits : SlaveIo := ⟨3, 0, #v[⟨0x0f00, 1, 3⟩, ⟨0, 0, 0⟩, ⟨0, 0, 0⟩, ⟨0, 0, 0⟩, ⟨0, 0, 0⟩,
      ⟨0, 0, 0⟩, ⟨0, 0, 0⟩, ⟨0, 0, 0⟩], true⟩
    let slaves := [messageSlave, bits, messageSlave]
    layout slaves .output = [(0, 688), (688, 691), (696, 1384)] ∧
      (layout slaves .output).Pairwise fun a b => a.2 ≤ b.1 := by
  intro bits slaves
  have hc : ∀ s ∈ slaves, s.Covers .output ∧ s.Covers .input := by decide
  refine ⟨by decide, (image_layout slaves (fun s hs dir => ?_) (by decide)).2.1 .output⟩
  cases dir with
  | output => exact (hc s hs).1
  | input => exact (hc s hs).2

end

end TienKung
