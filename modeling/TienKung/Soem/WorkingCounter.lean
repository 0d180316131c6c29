import TienKung.Soem.Exchange
import Mathlib.Algebra.BigOperators.Ring.List

/-!
# The working counter

`SoemMaster::Run` takes a cycle for a dropped packet when the working counter
stays below `expectedWKC`. It reaches that exactly when all process data has been
exchanged, provided that every slave has been mapped with one FMMU each way.
-/

namespace TienKung

/-- `expectedWKC` of `SoemMaster::Start`. -/
def EcGroup.expectedWKC (g : EcGroup) : Nat := g.outputsWKC * 2 + g.inputsWKC

/-- What the FMMUs of a slave add to `outputsWKC` or `inputsWKC`. -/
def countedFmmus (dir : Direction) (fmmus : List Fmmu) : Nat :=
  match dir with
  | .output => fmmus.length
  | .input => fmmus.countP (·.logLength ≠ 0)

/-- A frame that has all of an area has come back. -/
def Returned (dir : Direction) (frames : List (Datagram × Fate)) (area : Nat × Nat) : Prop :=
  ∃ x ∈ frames, x.2.arrives ∧ x.1.cmd.carries dir ∧ x.1.logAdr ≤ area.1 ∧
    area.2 ≤ x.1.logAdr + x.1.data.length

/-- The frames that have come back with an access of a slave. -/
def tally (dir : Direction) (frames : List (Datagram × Fate)) (r : RingSlave) : Nat :=
  frames.countP fun x => x.2.arrives && r.serves dir x.1

-- ---------------------------------------------------------------------------
-- The counter as a sum over the slaves
-- ---------------------------------------------------------------------------

section
variable {ring : List RingSlave} {r : RingSlave} {d : Datagram} {frames : List (Datagram × Fate)}
  {x : Datagram × Fate} {dir : Direction} {fate : Option Fate} {slaves : List SlaveIo}

/-- What an access counts once LWR datagrams count twice. -/
def RingSlave.points (r : RingSlave) (d : Datagram) : Nat :=
  2 * (if r.serves .output d then 1 else 0) + if r.serves .input d then 1 else 0

theorem count_points (r : RingSlave) (d : Datagram) :
    (r.count d * if d.cmd = .lwr then 2 else 1) = r.points d := by
  cases hd : d.cmd with
  | lrd =>
    have hout : r.serves .output d = false := by simp [RingSlave.serves, hd, Command.carries]
    simp [RingSlave.count, RingSlave.points, hout]
  | lwr =>
    have hin : r.serves .input d = false := by simp [RingSlave.serves, hd, Command.carries]
    simp [RingSlave.count, RingSlave.points, hd, hin]
  | lrw =>
    rw [RingSlave.count, RingSlave.points, hd]
    split_ifs <;> first | rfl | contradiction

theorem count_le (r : RingSlave) (d : Datagram) : r.count d ≤ 3 := by
  rw [RingSlave.count]
  split_ifs <;> omega

theorem workingCounter_le (ring : List RingSlave) (d : Datagram) :
    workingCounter ring d ≤ 3 * ring.length := by
  induction ring with
  | nil => exact Nat.le_refl 0
  | cons r ring ih =>
    have := count_le r d
    rw [workingCounter, List.map_cons, List.sum_cons, List.length_cons]
    rw [workingCounter] at ih
    omega

theorem credit_eq (h : 3 * ring.length < 256 ^ 2) (x : Datagram × Fate) :
    credit ring x = if x.2.arrives then (ring.map (·.points x.1)).sum else 0 := by
  have hmod := Nat.mod_eq_of_lt ((workingCounter_le ring x.1).trans_lt h)
  rw [credit, hmod, workingCounter, ← List.sum_map_mul_right]
  simp only [count_points]

theorem tally_cons : tally dir (x :: frames) r =
    tally dir frames r + if x.2.arrives && r.serves dir x.1 then 1 else 0 := List.countP_cons

theorem sum_credit (h : 3 * ring.length < 256 ^ 2) (frames : List (Datagram × Fate)) :
    (frames.map (credit ring)).sum =
      2 * (ring.map (tally .output frames)).sum + (ring.map (tally .input frames)).sum := by
  induction frames with
  | nil =>
    have hzero : ∀ dir, (ring.map (tally dir [])).sum = 0 := fun dir =>
      List.sum_eq_zero fun n hn => by
        obtain ⟨r, -, rfl⟩ := List.mem_map.mp hn
        rfl
    simp [hzero]
  | cons x frames ih =>
    rw [List.map_cons, List.sum_cons, ih, credit_eq h]
    clear h ih
    induction ring with
    | nil => simp
    | cons r ring ih =>
      simp only [List.map_cons, List.sum_cons, tally_cons, RingSlave.points] at ih ⊢
      cases hx : x.2.arrives with
      | false =>
        simp only [hx, Bool.false_and, Bool.false_eq_true, if_false] at ih ⊢
        omega
      | true =>
        simp only [hx, if_true, Bool.true_and] at ih ⊢
        omega

-- ---------------------------------------------------------------------------
-- One access each way
-- ---------------------------------------------------------------------------

theorem tally_of_empty (h : ¬ (r.area dir).1 < (r.area dir).2) : tally dir frames r = 0 := by
  refine List.countP_eq_zero.mpr fun x _ hx => ?_
  obtain ⟨-, -, hmeets⟩ := serves_iff.mp (Bool.and_eq_true_iff.mp hx).2
  exact h hmeets.1

theorem tally_others (h : ∀ x ∈ frames, x.1.cmd.carries dir →
    x.1.logAdr + x.1.data.length ≤ (r.area dir).1 ∨ (r.area dir).2 ≤ x.1.logAdr) :
    tally dir frames r = 0 := by
  refine List.countP_eq_zero.mpr fun x hx hserved => ?_
  obtain ⟨-, hcarries, -, -, hstart, hstop⟩ := serves_iff.mp (Bool.and_eq_true_iff.mp hserved).2
  rcases h x hx hcarries with h | h <;> omega

theorem tally_append (frames frames' : List (Datagram × Fate)) :
    tally dir (frames ++ frames') r = tally dir frames r + tally dir frames' r :=
  List.countP_append

theorem FramedOnce.tally (h : FramedOnce dir frames (r.area dir) fate)
    (hne : (r.area dir).1 < (r.area dir).2) :
    tally dir frames r = if r.present ∧ fate.any (·.arrives) then 1 else 0 := by
  obtain ⟨before, d, after, rfl, hcarries, hstart, hstop, hothers⟩ := h
  rw [tally_append, tally_others fun x hx => hothers x (List.mem_append_left _ hx), Nat.zero_add]
  cases fate with
  | none => simp [TienKung.tally]
  | some f =>
    have hmeets : d.Meets (r.area dir) := ⟨hne, by omega, by omega, by omega⟩
    rw [Option.elim_some, tally_cons,
      tally_others fun x hx => hothers x (List.mem_append_right _ hx), Nat.zero_add]
    refine if_congr ?_ rfl rfl
    simp [RingSlave.serves, hcarries, hmeets, and_comm]

theorem FramedOnce.returned_iff (h : FramedOnce dir frames (r.area dir) fate)
    (hne : (r.area dir).1 < (r.area dir).2) :
    Returned dir frames (r.area dir) ↔ fate.any (·.arrives) := by
  constructor
  · rintro ⟨x, hx, harrives, hcarries, hstart, hstop⟩
    exact (h.exists_iff ⟨Nat.le_refl _, hne⟩ (·.arrives)).mp
      ⟨x, hx, harrives, hcarries, hstart, lt_of_lt_of_le hne hstop⟩
  · intro hany
    obtain ⟨f, rfl, harrives⟩ := (Option.any_eq_true ..).mp hany
    obtain ⟨before, d, after, rfl, hcarries, hstart, hstop, -⟩ := h
    exact ⟨(d, f), by simp, harrives, hcarries, hstart, hstop⟩

end

-- ---------------------------------------------------------------------------
-- The check
-- ---------------------------------------------------------------------------

section
variable {slaves : List SlaveIo} {ring : List RingSlave} {dir : Direction} {iomap : IoMap}
  {fates : List Fate} {blockLRW : Bool} {i : Nat} {s : SlaveIo} {r : RingSlave} {fmmus : List Fmmu}

theorem expectedWKC_eq (slaves : List SlaveIo) : (configMapGroup slaves).expectedWKC =
    2 * ((mapDirection slaves .output).fmmus.map (countedFmmus .output)).sum +
      ((mapDirection slaves .input).fmmus.map (countedFmmus .input)).sum := by
  have hout : (configMapGroup slaves).outputsWKC =
      ((mapDirection slaves .output).fmmus.map (countedFmmus .output)).sum := List.length_flatten
  have hin : (configMapGroup slaves).inputsWKC =
      ((mapDirection slaves .input).fmmus.map (countedFmmus .input)).sum := List.countP_flatten
  rw [EcGroup.expectedWKC, hout, hin, Nat.mul_comm]

theorem counted_pos (dir : Direction) {bits start : Nat} (hbits : bits > 7)
    (h : Placed bits start fmmus) : 1 ≤ countedFmmus dir fmmus := by
  obtain ⟨fmmu, hfmmu, -⟩ := h.first
  cases dir with
  | output => exact List.length_pos_of_mem (List.mem_of_mem_head? hfmmu)
  | input =>
    refine Nat.pos_of_ne_zero fun hzero => ?_
    have hlens : ∀ n ∈ fmmus.map Fmmu.logLength, n = 0 := by
      intro n hn
      obtain ⟨fmmu, hfmmu, rfl⟩ := List.mem_map.mp hn
      simpa using List.countP_eq_zero.mp hzero fmmu hfmmu
    have hsum := (h.tiles hbits).2
    rw [List.sum_eq_zero hlens] at hsum
    omega

theorem RingOf.area_empty (hring : RingOf slaves ring) (hi : slaves[i]? = some s)
    (hr : ring[i]? = some r) (hbits : s.bits dir = 0) : (r.area dir).1 = (r.area dir).2 := by
  obtain ⟨p, hplace⟩ := layout_get dir hi
  rw [hring.area_eq hplace hr, hbits]
  rfl

theorem tally_le_counted (hc : ∀ s ∈ slaves, ∀ dir, s.Covers dir)
    (hroom : (configMapGroup slaves).ioSegment.length < ecMaxIoSegments)
    (hring : RingOf slaves ring) (fates : List Fate) (hi : slaves[i]? = some s)
    (hr : ring[i]? = some r) (hfmmus : (mapDirection slaves dir).fmmus[i]? = some fmmus) :
    let frames := (sendProcessdata ((configMapGroup slaves).block blockLRW) iomap).zip fates
    tally dir frames r ≤ countedFmmus dir fmmus ∧
      (tally dir frames r = countedFmmus dir fmmus ↔ (s.bits dir > 7 →
        countedFmmus dir fmmus = 1 ∧ r.present ∧ Returned dir frames (r.area dir))) := by
  intro frames
  rcases hring.bytes s (List.mem_of_getElem? hi) dir with hbits | hbits
  · -- nothing to exchange
    obtain ⟨hlen, hnone⟩ := List.forall₂_iff_get.mp (fmmus_mapDirection slaves dir)
    obtain ⟨hlt, hget⟩ := List.getElem?_eq_some_iff.mp hfmmus
    obtain ⟨hlt', hget'⟩ := List.getElem?_eq_some_iff.mp hi
    have hnil := hnone i hlt' hlt
    simp only [List.get_eq_getElem, hget, hget'] at hnil
    rw [tally_of_empty (Nat.not_lt_of_le (hring.area_empty hi hr hbits).ge), hnil hbits]
    refine ⟨Nat.zero_le _, fun _ h => absurd h (by omega), fun _ => ?_⟩
    cases dir <;> rfl
  · obtain ⟨place, hplace, hsize, honce⟩ := slave_once hc hroom blockLRW iomap hi hbits
    have harea := hring.area_eq hplace hr
    obtain ⟨-, hframed⟩ := honce.framed (by omega) fates
    rw [← harea] at hframed
    have hne : (r.area dir).1 < (r.area dir).2 := by
      rw [harea]
      simp only
      omega
    obtain ⟨_, -, fmmus', hfmmus', hplaced, -⟩ :=
      slave_placed dir hc hroom hi (Nat.ne_zero_of_lt hbits)
    obtain rfl := Option.some.inj ((Option.mem_def.mp hfmmus').symm.trans hfmmus)
    have hone := counted_pos dir hbits hplaced
    rw [hframed.tally hne, hframed.returned_iff hne]
    split_ifs with hserved
    · exact ⟨hone, fun h _ => ⟨h.symm, hserved⟩, fun h => (h hbits).1.symm⟩
    · refine ⟨Nat.zero_le _, fun h => ?_, fun h => absurd (h hbits).2 hserved⟩
      rw [← h] at hone
      exact absurd hone (Nat.not_succ_le_zero 0)

/-- All process data has been exchanged, and each slave has been mapped with one FMMU each way. -/
def AllExchanged (slaves : List SlaveIo) (ring : List RingSlave) (frames : List (Datagram × Fate)) :
    Prop :=
  ∀ dir (i : Nat) s r fmmus, slaves[i]? = some s → ring[i]? = some r →
    (mapDirection slaves dir).fmmus[i]? = some fmmus → s.bits dir > 7 →
      countedFmmus dir fmmus = 1 ∧ r.present ∧ Returned dir frames (r.area dir)

theorem tallies_le (blockLRW : Bool) (iomap : IoMap) (hc : ∀ s ∈ slaves, ∀ dir, s.Covers dir)
    (hroom : (configMapGroup slaves).ioSegment.length < ecMaxIoSegments)
    (hring : RingOf slaves ring) (dir : Direction) (fates : List Fate) :
    let frames := (sendProcessdata ((configMapGroup slaves).block blockLRW) iomap).zip fates
    List.Forall₂ (· ≤ ·) (ring.map (tally dir frames))
      ((mapDirection slaves dir).fmmus.map (countedFmmus dir)) := by
  intro frames
  have hlen := hring.length_eq.trans (length_mapDirection slaves dir).symm
  refine List.forall₂_iff_get.mpr ⟨by rw [List.length_map, List.length_map, hlen], fun i h h' => ?_⟩
  rw [List.length_map] at h h'
  simp only [List.get_eq_getElem, List.getElem_map]
  exact (tally_le_counted hc hroom hring fates
    (List.getElem?_eq_getElem (hring.length_eq ▸ h)) (List.getElem?_eq_getElem h)
    (List.getElem?_eq_getElem h')).1

theorem allExchanged_iff (blockLRW : Bool) (iomap : IoMap) (hc : ∀ s ∈ slaves, ∀ dir, s.Covers dir)
    (hroom : (configMapGroup slaves).ioSegment.length < ecMaxIoSegments)
    (hring : RingOf slaves ring) (fates : List Fate) :
    let frames := (sendProcessdata ((configMapGroup slaves).block blockLRW) iomap).zip fates
    AllExchanged slaves ring frames ↔ ∀ dir, ring.map (tally dir frames) =
      (mapDirection slaves dir).fmmus.map (countedFmmus dir) := by
  intro frames
  constructor
  · intro h dir
    have hlen := hring.length_eq.trans (length_mapDirection slaves dir).symm
    refine List.ext_getElem (by rw [List.length_map, List.length_map, hlen]) fun i hi hi' => ?_
    rw [List.length_map] at hi hi'
    rw [List.getElem_map, List.getElem_map]
    have hs := List.getElem?_eq_getElem (l := slaves) (hring.length_eq ▸ hi)
    exact (tally_le_counted hc hroom hring fates hs (List.getElem?_eq_getElem hi)
      (List.getElem?_eq_getElem hi')).2.mpr
        (h dir i _ _ _ hs (List.getElem?_eq_getElem hi) (List.getElem?_eq_getElem hi'))
  · intro h dir i s r fmmus hs hr hfmmus
    have heq := congrArg (·[i]?) (h dir)
    simp only [List.getElem?_map, hr, hfmmus, Option.map_some] at heq
    exact (tally_le_counted hc hroom hring fates hs hr hfmmus).2.mp (Option.some.inj heq)

theorem sum_le_of_forall₂ {xs ys : List Nat} (h : List.Forall₂ (· ≤ ·) xs ys) :
    xs.sum ≤ ys.sum ∧ (ys.sum ≤ xs.sum → xs = ys) := by
  induction h with
  | nil => exact ⟨Nat.le_refl 0, fun _ => rfl⟩
  | cons hle _ ih =>
    rw [List.sum_cons, List.sum_cons]
    refine ⟨by omega, fun hge => ?_⟩
    rw [ih.2 (by omega), le_antisymm hle (by omega)]

theorem reaches_of_arrives {f : Fate} (h : f.arrives) (i : Nat) : f.reaches i := by
  cases f with
  | lost behind => cases h
  | back rest frmw => rfl

theorem AllExchanged.fresh {frames : List (Datagram × Fate)} (taken : Nat → IoMap)
    (h : AllExchanged slaves ring frames) (hc : ∀ s ∈ slaves, ∀ dir, s.Covers dir)
    (hring : RingOf slaves ring) (hr : ring[i]? = some r)
    (hread : ∀ x ∈ frames, x.1.cmd.carries .output →
      x.1.data = Memory.read iomap x.1.logAdr x.1.data.length) :
    (∀ a, InArea r.inputs a → (∃ x ∈ frames, Brings x a) ∧
      ∀ m, answers ring m a = r.answer a) ∧
      ∀ a, InArea r.outputs a → frames.foldl (takes ring) taken i a = iomap a := by
  have hmem := List.mem_of_getElem? hr
  obtain ⟨hlt, -⟩ := List.getElem?_eq_some_iff.mp hr
  obtain ⟨s, hs⟩ : ∃ s, slaves[i]? = some s :=
    ⟨_, List.getElem?_eq_getElem (hring.length_eq ▸ hlt)⟩
  have hserved : ∀ dir a, InArea (r.area dir) a → r.present ∧ ∃ x ∈ frames, x.2.arrives ∧
      x.1.cmd.carries dir ∧ Memory.Within a x.1.logAdr x.1.data.length := by
    intro dir a ha
    have hfmmus := List.getElem?_eq_getElem (l := (mapDirection slaves dir).fmmus)
      ((length_mapDirection slaves dir).symm ▸ hring.length_eq ▸ hlt)
    have hbits := hring.bytes _ (List.mem_of_getElem? hs) dir
    have hne : s.bits dir ≠ 0 := fun hzero => by
      have hempty := hring.area_empty hs hr hzero
      obtain ⟨hle, hlt⟩ := ha
      omega
    obtain ⟨-, hpresent, x, hx, harrives, hcarries, hstart, hstop⟩ :=
      h dir i _ _ _ hs hr hfmmus (hbits.resolve_left hne)
    exact ⟨hpresent, x, hx, harrives, hcarries, hstart.trans ha.1, lt_of_lt_of_le ha.2 hstop⟩
  constructor
  · intro a ha
    obtain ⟨hpresent, hbrings⟩ := hserved .input a ha
    exact ⟨hbrings, fun m => by rw [hring.answers hr ha, if_pos hpresent]⟩
  · intro a ha
    obtain ⟨hpresent, x, hx, harrives, hcarries, hwithin⟩ := hserved .output a ha
    rw [takes_eq hread hr ha (fun t ht => hring.apart hc hmem ht ha) taken]
    exact if_pos ⟨hpresent, x, hx, reaches_of_arrives harrives i, hcarries, hwithin⟩

theorem AllExchanged.any_arrives {frames : List (Datagram × Fate)}
    (h : AllExchanged slaves ring frames) (hring : RingOf slaves ring)
    (hsome : ∃ s ∈ slaves, ∃ dir, s.bits dir ≠ 0) : frames.any (·.2.arrives) = true := by
  obtain ⟨s, hs, dir, hne⟩ := hsome
  obtain ⟨i, hi⟩ := List.mem_iff_getElem?.mp hs
  obtain ⟨hlt, -⟩ := List.getElem?_eq_some_iff.mp hi
  obtain ⟨-, -, x, hx, harrives, -⟩ := h dir i s _ _ hi
    (List.getElem?_eq_getElem (hring.length_eq.symm ▸ hlt))
    (List.getElem?_eq_getElem ((length_mapDirection slaves dir).symm ▸ hlt))
    ((hring.bytes s hs dir).resolve_left hne)
  exact List.any_eq_true.mpr ⟨x, hx, harrives⟩

end

/-- The check for dropped packets: the working counter reaches what is expected of it when all
process data has been exchanged and each slave counts once each way. Then the image has the inputs
of all slaves and all slaves have their outputs. -/
theorem wkc_reached_iff (slaves : List SlaveIo) (hc : ∀ s ∈ slaves, ∀ dir, s.Covers dir)
    (hroom : (configMapGroup slaves).ioSegment.length < ecMaxIoSegments) (ring : List RingSlave)
    (hring : RingOf slaves ring) (hfew : 3 * ring.length < 256 ^ 2)
    (hsome : ∃ s ∈ slaves, ∃ dir, s.bits dir ≠ 0) (blockLRW hasdc : Bool) (fates : List Fate)
    (iomap : IoMap) (taken : Nat → IoMap)
    (hframes : (sendProcessdata ((configMapGroup slaves).block blockLRW) iomap).length ≤
      Nic.ecMaxbuf)
    (hdc : hasdc = true →
      FirstArrives ((sendProcessdata ((configMapGroup slaves).block blockLRW) iomap).zip fates)) :
    let g := (configMapGroup slaves).block blockLRW
    let e := exchange g hasdc ring fates iomap taken
    (g.expectedWKC ≤ e.wkc ↔ AllExchanged slaves ring ((sendProcessdata g iomap).zip fates)) ∧
      (g.expectedWKC ≤ e.wkc → ∀ (i : Nat) r, ring[i]? = some r →
        readArea e.iomap r.inputs = readArea r.answer r.inputs ∧
        readArea (e.taken i) r.outputs = readArea iomap r.outputs) := by
  intro g e
  obtain ⟨hmap, hwkc⟩ := exchange_received ring taken hframes hdc
  have hread : ∀ x ∈ (sendProcessdata g iomap).zip fates, x.1.cmd.carries .output →
      x.1.data = Memory.read iomap x.1.logAdr x.1.data.length :=
    fun x hx => sendProcessdata_outputs x.1 (List.of_mem_zip hx).1
  have hiff := allExchanged_iff blockLRW iomap hc hroom hring fates
  have hexpected : g.expectedWKC = _ := expectedWKC_eq slaves
  have hout := sum_le_of_forall₂ (tallies_le blockLRW iomap hc hroom hring .output fates)
  have hin := sum_le_of_forall₂ (tallies_le blockLRW iomap hc hroom hring .input fates)
  rw [sum_credit hfew] at hwkc
  have hreached : (g.expectedWKC : Int) ≤ e.wkc ↔
      AllExchanged slaves ring ((sendProcessdata g iomap).zip fates) := by
    constructor
    · intro h
      rw [show e.wkc = _ from hwkc, hexpected] at h
      split_ifs at h
      · refine hiff.mpr fun dir => ?_
        cases dir with
        | output => exact hout.2 (by omega)
        | input => exact hin.2 (by omega)
      · omega
    · intro h
      have heq := hiff.mp h
      rw [show e.wkc = _ from hwkc, hexpected, if_pos (h.any_arrives hring hsome), heq .output,
        heq .input]
  refine ⟨hreached, fun h i r hr => ?_⟩
  obtain ⟨hinputs, houtputs⟩ := (hreached.mp h).fresh taken hc hring hr hread
  refine ⟨readArea_congr fun a ha => ?_, readArea_congr houtputs⟩
  obtain ⟨hbrings, hanswer⟩ := hinputs a ha
  rw [show e.iomap a = _ from hmap a, if_pos hbrings, hanswer]

theorem wkc_reached_iff_of_two :
    let ring : List RingSlave := [⟨true, (0, 86), (172, 258), fun _ => 1⟩,
      ⟨false, (86, 172), (258, 344), fun _ => 2⟩]
    let g := (configMapGroup [messageSlave, messageSlave]).block true
    let fates := [.back (fun _ => 0) 0, .back (fun _ => 0) 0]
    (g.expectedWKC ≤ (exchange g false ring fates (fun _ => 7) fun _ _ => 0).wkc ↔
      AllExchanged [messageSlave, messageSlave] ring
        ((sendProcessdata g fun _ => 7).zip fates)) := by
  intro ring g fates
  have hall : ∀ s ∈ [messageSlave, messageSlave], s = messageSlave := by simp
  refine (wkc_reached_iff [messageSlave, messageSlave] (fun s hs dir => ?_) (by decide) ring
    ⟨fun s hs dir => ?_, fun dir => ?_⟩ (by decide) ⟨messageSlave, by simp, .output, by decide⟩ true
    false fates (fun _ => 7) (fun _ _ => 0) (by decide) fun h => absurd h Bool.false_ne_true).1
  · rw [hall s hs]
    exact messageSlave_covers dir
  · rw [hall s hs]
    cases dir <;> decide
  · cases dir <;> decide

end TienKung
