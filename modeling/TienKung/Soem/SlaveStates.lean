import Mathlib.Data.BitVec
import Mathlib.Data.List.Basic

/-!
# `ec_readstate`

The states of all slaves are read with one broadcast datagram, which returns the
disjunction of their answers, if that tells them all; else with one datagram for
each slave. A slave that does not answer leaves its datagram as it is, zero.

The two ways agree, but for slaves without error in different states of INIT,
PRE_OP and BOOT: these may look like BOOT together.
-/

namespace TienKung

abbrev ecStateInit : BitVec 16 := 0x01
abbrev ecStatePreOp : BitVec 16 := 0x02
abbrev ecStateBoot : BitVec 16 := 0x03
abbrev ecStateSafeOp : BitVec 16 := 0x04
abbrev ecStateOperational : BitVec 16 := 0x08
abbrev ecStateAck : BitVec 16 := 0x10
abbrev ecStateError : BitVec 16 := 0x10

/-- `ec_alstatust` -/
structure AlStatus where
  alstatus : BitVec 16
  alstatuscode : BitVec 16
  deriving DecidableEq

def AlStatus.zero : AlStatus := ⟨0, 0⟩

structure EcSlave where
  group : BitVec 8
  state : BitVec 16
  alStatusCode : BitVec 16
  islost : Bool
  deriving DecidableEq

/-- `ec_slave`: entry zero, which stands for all slaves, and the slaves. -/
structure Slavelist where
  all : EcSlave
  slaves : List EcSlave
  deriving DecidableEq

-- ---------------------------------------------------------------------------
-- Datagrams
-- ---------------------------------------------------------------------------

/-- The status register of each slave, of those that answer. -/
abbrev StateAnswers := List (Option AlStatus)

/-- What `ecx_BRD` returns and what it reads; a broadcast that is lost has no answers. -/
def StateAnswers.broadcast (answers : StateAnswers) : Nat × BitVec 16 :=
  ((answers.filterMap id).length, (answers.filterMap id).foldr (fun a rval => a.alstatus ||| rval) 0)

def StateAnswers.single (answers : StateAnswers) : List AlStatus := answers.map (·.getD .zero)

-- ---------------------------------------------------------------------------
-- Reading
-- ---------------------------------------------------------------------------

def ecStates : List (BitVec 16) :=
  [ecStateInit, ecStatePreOp, ecStateBoot, ecStateSafeOp, ecStateOperational]

def Slavelist.readAll (l : Slavelist) (bitwisestate : BitVec 16) : Slavelist where
  all := { l.all with state := bitwisestate, alStatusCode := 0 }
  slaves := l.slaves.map fun s => { s with state := bitwisestate, alStatusCode := 0 }

def Slavelist.readEach (l : Slavelist) (sl : List AlStatus) : Slavelist where
  all :=
    { l.all with
      state := sl.foldl (fun lowest a =>
        if a.alstatus &&& 0xf < lowest then a.alstatus &&& 0xf else lowest) 0xff
      alStatusCode := sl.foldl (fun code a => code ||| a.alstatuscode) 0 }
  slaves := l.slaves.zipWith
    (fun s a => { s with state := a.alstatus, alStatusCode := a.alstatuscode }) sl

/-- `wkc` and `rval` are what the broadcast returned and read, `sl` is what the slaves answer one by
one. -/
def Slavelist.readstate (l : Slavelist) (wkc : Int) (rval : BitVec 16) (sl : List AlStatus) :
    Slavelist :=
  let allslavespresent := wkc ≥ l.slaves.length
  let bitwisestate := rval &&& 0x0f
  let allslavessamestate := bitwisestate ∈ ecStates
  let noerrorflag := rval &&& ecStateError = 0
  if noerrorflag ∧ allslavessamestate ∧ allslavespresent then l.readAll bitwisestate
  else l.readEach sl

-- ---------------------------------------------------------------------------
-- Agreement
-- ---------------------------------------------------------------------------

/-- A state of the protocol, with or without the error flag. -/
def PlainState (al : BitVec 16) : Prop := al ∈ ecStates ++ ecStates.map (· ||| ecStateError)

/-- Every slave answers without error, in a state of INIT, PRE_OP and BOOT, and not all in BOOT: but
the states of all make up BOOT. -/
def StateAnswers.LooksLikeBoot (answers : StateAnswers) : Prop :=
  none ∉ answers ∧ answers.broadcast.2 = ecStateBoot ∧ ∃ a ∈ answers.single, a.alstatus ≠ ecStateBoot

section
variable {answers : List AlStatus} {a : AlStatus}

theorem or_mem (h : a ∈ answers) :
    a.alstatus ||| answers.foldr (fun a rval => a.alstatus ||| rval) 0 =
      answers.foldr (fun a rval => a.alstatus ||| rval) 0 := by
  induction answers with
  | nil => cases h
  | cons b answers ih =>
    rw [List.foldr_cons]
    rcases List.mem_cons.mp h with rfl | h
    · rw [← BitVec.or_assoc, BitVec.or_self]
    · rw [← BitVec.or_assoc, BitVec.or_comm a.alstatus, BitVec.or_assoc, ih h]

theorem PlainState.of_no_error (h : PlainState al) (herror : al &&& ecStateError = 0) :
    al ∈ ecStates := by
  rcases List.mem_append.mp h with h | h
  · exact h
  · obtain ⟨state, hstate, heq⟩ := List.mem_map.mp h
    rw [← heq, BitVec.and_or_distrib_right, BitVec.and_self] at herror
    exact absurd (BitVec.or_eq_zero_iff.mp herror).2 (by decide)

/-- Where one state has all the bits of another, and is not BOOT, they are the same. -/
theorem state_eq_of_or (hx : x ∈ ecStates) (hy : y ∈ ecStates) (hor : x ||| y = y)
    (hboot : y ≠ ecStateBoot) : x = y := by
  simp only [ecStates, List.mem_cons, List.not_mem_nil, or_false] at hx hy
  rcases hx with rfl | rfl | rfl | rfl | rfl <;> rcases hy with rfl | rfl | rfl | rfl | rfl <;>
    first | rfl | exact absurd rfl hboot | exact absurd hor (by decide)

theorem foldr_and (m : BitVec 16) (h : ∀ a ∈ answers, a.alstatus &&& m = 0) :
    answers.foldr (fun a rval => a.alstatus ||| rval) 0 &&& m = 0 := by
  induction answers with
  | nil => exact BitVec.zero_and
  | cons b answers ih =>
    rw [List.foldr_cons, BitVec.and_comm, BitVec.and_or_distrib_left, BitVec.and_comm,
      h b List.mem_cons_self, BitVec.and_comm, ih fun a ha => h a (List.mem_cons_of_mem _ ha)]
    rfl

theorem and_low_of_states (h : ∀ a ∈ answers, a.alstatus ∈ ecStates) :
    answers.foldr (fun a rval => a.alstatus ||| rval) 0 &&& 0x0f =
      answers.foldr (fun a rval => a.alstatus ||| rval) 0 := by
  have hhigh : ∀ state ∈ ecStates, state &&& 0xfff0 = 0 := by
    intro state hstate
    simp only [ecStates, List.mem_cons, List.not_mem_nil, or_false] at hstate
    rcases hstate with rfl | rfl | rfl | rfl | rfl <;> rfl
  have hzero := foldr_and 0xfff0 fun a ha => hhigh _ (h a ha)
  generalize answers.foldr (fun a rval => a.alstatus ||| rval) 0 = rval at hzero ⊢
  calc rval &&& 0x0f = (rval &&& 0x0f) ||| (rval &&& 0xfff0) := by
        rw [hzero]
        exact BitVec.or_zero.symm
    _ = rval &&& (0x0f ||| 0xfff0) := BitVec.and_or_distrib_left.symm
    _ = rval := BitVec.and_allOnes

end

-- ---------------------------------------------------------------------------
-- The two ways
-- ---------------------------------------------------------------------------

def Slavelist.states (l : Slavelist) : List (BitVec 16) := l.slaves.map EcSlave.state

section
variable {l : Slavelist} {answers : StateAnswers}

theorem states_readAll : (l.readAll state).states = .replicate l.slaves.length state := by
  rw [Slavelist.states, Slavelist.readAll, List.map_map]
  exact List.map_const' ..

theorem states_readEach {sl : List AlStatus} (hlen : sl.length = l.slaves.length) :
    (l.readEach sl).states = sl.map AlStatus.alstatus := by
  have hstates : ∀ (slaves : List EcSlave) (sl : List AlStatus), sl.length = slaves.length →
      (slaves.zipWith (fun s a => { s with state := a.alstatus, alStatusCode := a.alstatuscode })
        sl).map EcSlave.state = sl.map AlStatus.alstatus := by
    intro slaves
    induction slaves with
    | nil => intro sl hlen; rw [List.eq_nil_of_length_eq_zero hlen]; rfl
    | cons s slaves ih =>
      rintro (_ | ⟨a, sl⟩) hlen
      · cases hlen
      · exact congrArg (a.alstatus :: ·) (ih sl (Nat.succ.inj hlen))
  exact hstates l.slaves sl hlen

theorem length_filterMap_of_present (h : none ∉ answers) :
    (answers.filterMap id).length = answers.length := by
  refine List.filterMap_length_eq_length.mpr fun a ha => ?_
  exact Option.isSome_iff_ne_none.mpr fun hnone => h (hnone ▸ ha)

theorem present_of_length (h : answers.length ≤ (answers.filterMap id).length) : none ∉ answers := by
  intro hnone
  have hlt : (answers.filterMap id).length < answers.length :=
    List.length_filterMap_lt_length_iff_exists.mpr ⟨none, hnone, rfl⟩
  exact absurd h (Nat.not_le.mpr hlt)

theorem single_of_present (h : none ∉ answers) : answers.single = answers.filterMap id := by
  induction answers with
  | nil => rfl
  | cons a answers ih =>
    obtain ⟨ha, hrest⟩ := not_or.mp (mt List.mem_cons.mpr h)
    obtain ⟨b, rfl⟩ := Option.ne_none_iff_exists'.mp (Ne.symm ha)
    exact congrArg (b :: ·) (ih hrest)

/-- What the fast way takes for the state of all is the state of each, if it is not BOOT. -/
theorem eq_of_fast (hplain : ∀ a ∈ answers.filterMap id, PlainState a.alstatus)
    (herror : answers.broadcast.2 &&& ecStateError = 0)
    (hstate : answers.broadcast.2 &&& 0x0f ∈ ecStates) :
    answers.broadcast.2 &&& 0x0f = answers.broadcast.2 ∧
      (answers.broadcast.2 ≠ ecStateBoot →
        ∀ a ∈ answers.filterMap id, a.alstatus = answers.broadcast.2) := by
  have hstates : ∀ a ∈ answers.filterMap id, a.alstatus ∈ ecStates := by
    intro a ha
    have hor := or_mem ha
    have hno : (a.alstatus ||| answers.broadcast.2) &&& ecStateError = 0 := hor ▸ herror
    rw [BitVec.and_or_distrib_right] at hno
    exact (hplain a ha).of_no_error (BitVec.or_eq_zero_iff.mp hno).1
  have hlow : answers.broadcast.2 &&& 0x0f = answers.broadcast.2 := and_low_of_states hstates
  refine ⟨hlow, fun hboot a ha => ?_⟩
  exact state_eq_of_or (hstates a ha) (hlow ▸ hstate) (or_mem ha) hboot

theorem wkc_of_present (hlen : answers.length = l.slaves.length) (hnone : none ∉ answers) :
    ((answers.broadcast.1 : ℕ) : ℤ) ≥ l.slaves.length := by
  show (((answers.filterMap id).length : ℕ) : ℤ) ≥ _
  rw [length_filterMap_of_present hnone, hlen]

theorem states_of_boot (hlen : answers.length = l.slaves.length) (hnone : none ∉ answers)
    (hboot : answers.broadcast.2 = ecStateBoot) :
    (l.readstate answers.broadcast.1 answers.broadcast.2 answers.single).states =
      .replicate l.slaves.length ecStateBoot := by
  rw [Slavelist.readstate, hboot, if_pos ⟨by decide, by decide, wkc_of_present hlen hnone⟩,
    states_readAll]
  rfl

/-- The two ways of reading the states agree, unless the states together look like BOOT. -/
theorem states_readstate (hlen : answers.length = l.slaves.length)
    (hplain : ∀ a ∈ answers.filterMap id, PlainState a.alstatus) :
    (l.readstate answers.broadcast.1 answers.broadcast.2 answers.single).states =
      answers.single.map AlStatus.alstatus ↔ ¬ answers.LooksLikeBoot := by
  have hsingle : answers.single.length = l.slaves.length := by
    rw [StateAnswers.single, List.length_map, hlen]
  rw [Slavelist.readstate]
  split
  case isTrue hfast =>
    obtain ⟨herror, hstate, hpresent⟩ := hfast
    have hnone : none ∉ answers := present_of_length (by
      rw [hlen]
      exact Int.ofNat_le.mp hpresent)
    obtain ⟨hlow, heach⟩ := eq_of_fast hplain herror hstate
    rw [states_readAll, hlow, ← hsingle]
    constructor
    · rintro heq ⟨-, hboot, a, ha, hne⟩
      have hmem : a.alstatus ∈ answers.single.map AlStatus.alstatus := List.mem_map_of_mem ha
      rw [← heq, hboot] at hmem
      exact hne (List.eq_of_mem_replicate hmem)
    · intro hnot
      have hall : ∀ a ∈ answers.single, a.alstatus = answers.broadcast.2 := by
        intro a ha
        by_cases hboot : answers.broadcast.2 = ecStateBoot
        · rw [hboot]
          by_contra hne
          exact hnot ⟨hnone, hboot, a, ha, hne⟩
        · rw [single_of_present hnone] at ha
          exact heach hboot a ha
      refine (List.eq_replicate_iff.mpr ⟨List.length_map _, fun state hmem => ?_⟩).symm
      obtain ⟨a, ha, rfl⟩ := List.mem_map.mp hmem
      exact hall a ha
  case isFalse hslow =>
    rw [states_readEach hsingle]
    refine iff_of_true rfl fun ⟨hnone, hboot, _⟩ => hslow ?_
    rw [hboot]
    exact ⟨by decide, by decide, wkc_of_present hlen hnone⟩

theorem states_readstate_of_two :
    let l : Slavelist := ⟨⟨0, 0, 0, false⟩, .replicate 2 ⟨0, 0, 0, false⟩⟩
    let answers : StateAnswers := [some ⟨ecStateInit, 0⟩, some ⟨ecStatePreOp, 0⟩]
    (l.readstate answers.broadcast.1 answers.broadcast.2 answers.single).states ≠
      [ecStateInit, ecStatePreOp] := by
  intro l answers h
  have hplain : ∀ a ∈ answers.filterMap id, PlainState a.alstatus := by
    intro a ha
    rcases List.mem_pair.mp ha with rfl | rfl <;> exact List.mem_append_left _ (by decide)
  exact (states_readstate (l := l) rfl hplain).mp h
    ⟨by decide, rfl, ⟨ecStateInit, 0⟩, List.mem_cons_self, by decide⟩

end

end TienKung
