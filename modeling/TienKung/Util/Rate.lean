import TienKung.Lib.Mealy
import Mathlib.Algebra.Group.Int.Defs
import Mathlib.Data.List.Induction

/-!
# `Rate`

A loop calls `sleep` once a round to keep to `hz` rounds a second. Up to the
call number `2 * hz` it sleeps a whole period; there it measures how long the
rounds have taken and corrects the time to sleep, once. Times are unsigned
numbers of 64 bits, of microseconds. `Rate2.h` and `ManualRate.h` have the same
class.
-/

namespace TienKung

structure Timeval where
  tvSec : Int64
  tvUsec : Int64
  deriving DecidableEq

structure Rate where
  baseTime : UInt64
  sleepTime : UInt64
  hz : UInt64
  counter : UInt64
  tvStart : Timeval
  tvEnd : Timeval
  deriving DecidableEq

namespace Rate

/-- The constructor, which leaves the two times as they are in `memory`. -/
def new (memory : Rate) (hz : UInt64) : Rate :=
  { memory with hz, counter := 0, baseTime := 1000000 / hz, sleepTime := 1000000 / hz }

def dt (tvStart tvEnd : Timeval) : Int64 :=
  (tvEnd.tvSec - tvStart.tvSec) * 1000000 + (tvEnd.tvUsec - tvStart.tvUsec)

def avgDt (dt : Int64) (hz : UInt64) : UInt64 := dt.toUInt64 / (hz * 3 / 2)

def corrected (baseTime sleepTime avgDt : UInt64) : UInt64 :=
  sleepTime - (avgDt - baseTime) * 95 / 100

/-- A call at the time `now`; its output is the argument of `usleep`, which has 32 bits. -/
def sleep : Mealy.Step Rate Timeval UInt32
  | r, now =>
    let r :=
      if r.counter < r.hz / 2 then { r with counter := r.counter + 1 }
      else if r.counter = r.hz / 2 then { r with tvStart := now, counter := r.counter + 1 }
      else if r.counter < r.hz * 2 then { r with counter := r.counter + 1 }
      else if r.counter = r.hz * 2 then
        { r with
          tvEnd := now
          sleepTime := corrected r.baseTime r.sleepTime (avgDt (dt r.tvStart now) r.hz)
          counter := r.counter + 1 }
      else r
    (r, [r.sleepTime.toUInt32])

-- ---------------------------------------------------------------------------
-- Whole numbers
-- ---------------------------------------------------------------------------

def period (hz : UInt64) : Nat := 1000000 / hz.toNat

def rounds (hz : UInt64) : Nat := hz.toNat * 3 / 2

/-- `sleepTime` when nothing wraps. -/
def exactSleepTime (hz : UInt64) (dt : Int64) : Int :=
  period hz - ((dt.toInt / rounds hz - period hz) * 95).tdiv 100

/-- The rounds have not been too short, and not so long that the correction is more than a
period. -/
def Within (hz : UInt64) (dt : Int64) : Prop :=
  (period hz : Int) * rounds hz ≤ dt.toInt ∧
    dt.toInt < (period hz + (100 * period hz + 99) / 95 + 1 : Nat) * rounds hz

instance (hz : UInt64) (dt : Int64) : Decidable (Within hz dt) :=
  inferInstanceAs (Decidable (_ ∧ _))

section
variable {hz : UInt64} {dt : Int64}

theorem toNat_bounds (hlo : 1 ≤ hz) (hhi : hz ≤ 1000000) : 1 ≤ hz.toNat ∧ hz.toNat ≤ 1000000 :=
  ⟨UInt64.le_iff_toNat_le.mp hlo, UInt64.le_iff_toNat_le.mp hhi⟩

theorem toNat_period (hz : UInt64) : (1000000 / hz).toNat = period hz := UInt64.toNat_div _ _

theorem period_le (hz : UInt64) : period hz ≤ 1000000 := Nat.div_le_self _ _

theorem toNat_mul_of_le (hhi : hz.toNat ≤ 1000000) {k : UInt64} (hk : k.toNat ≤ 3) :
    (hz * k).toNat = hz.toNat * k.toNat :=
  BitVec.toNat_mul_of_lt (Nat.lt_of_le_of_lt (Nat.mul_le_mul hhi hk) (by decide))

theorem toNat_rounds (hhi : hz.toNat ≤ 1000000) : (hz * 3 / 2).toNat = rounds hz := by
  have hmul : (hz * 3).toNat = hz.toNat * 3 := toNat_mul_of_le hhi (by decide)
  rw [UInt64.toNat_div, hmul]
  rfl

theorem toNat_avgDt (hhi : hz.toNat ≤ 1000000) (hdt : 0 ≤ dt) :
    ((avgDt dt hz).toNat : Int) = dt.toInt / rounds hz := by
  have hnonneg : 0 ≤ dt.toInt := Int64.le_iff_toInt_le.mp hdt
  rw [avgDt, UInt64.toNat_div, toNat_rounds hhi, Int64.toNat_toUInt64_of_le hdt]
  rw [Int64.toNatClampNeg, Int.natCast_ediv, Int.toNat_of_nonneg hnonneg]

theorem cast_toNat_sub (a b : UInt64) :
    ((a - b).toNat : Int) = ((a.toNat : Int) - b.toNat) % 2 ^ 64 := by
  have ha := a.toNat_lt
  have hb := b.toNat_lt
  rw [UInt64.toNat_sub]
  omega

theorem cast_toNat_corrected (b s a : UInt64) : ((corrected b s a).toNat : Int) =
    (s.toNat - ((a.toNat : Int) - b.toNat) % 2 ^ 64 * 95 % 2 ^ 64 / 100) % 2 ^ 64 := by
  rw [corrected, cast_toNat_sub, UInt64.toNat_div, Int.natCast_ediv, UInt64.toNat_mul,
    Int.natCast_emod, Int.natCast_mul, cast_toNat_sub]
  rfl

theorem corrected_of_lt {b a : UInt64} (hb : b.toNat ≤ 1000000) (h : a.toNat < b.toNat) :
    2 * b.toNat < (corrected b b a).toNat := by
  have hdiff : ((a.toNat : Int) - b.toNat) % 2 ^ 64 = a.toNat - b.toNat + 2 ^ 64 := by omega
  have hscaled : ((a.toNat : Int) - b.toNat + 2 ^ 64) * 95 % 2 ^ 64 =
      (a.toNat - b.toNat) * 95 + 2 ^ 64 := by omega
  have hquotient : ∃ q : Int, q = (((a.toNat : Int) - b.toNat) * 95 + 2 ^ 64) / 100 ∧
      2 ^ 57 ≤ q ∧ q ≤ 2 ^ 58 := ⟨_, rfl, by omega, by omega⟩
  obtain ⟨q, hq, hlow, hhigh⟩ := hquotient
  have hlast : (b.toNat - q) % 2 ^ 64 = b.toNat - q + 2 ^ 64 := by omega
  have hcast := cast_toNat_corrected b b a
  rw [hdiff, hscaled, ← hq, hlast] at hcast
  omega

theorem corrected_of_le {b a : UInt64} (hb : b.toNat ≤ 1000000) (h : b.toNat ≤ a.toNat) :
    ((corrected b b a).toNat : Int) = b.toNat - ((a.toNat : Int) - b.toNat) * 95 / 100 ↔
      ((a.toNat : Int) - b.toNat) * 95 < 100 * (b.toNat + 1) := by
  have ha := a.toNat_lt
  have hdiff : ((a.toNat : Int) - b.toNat) % 2 ^ 64 = a.toNat - b.toNat := by omega
  rw [cast_toNat_corrected, hdiff]
  constructor
  · intro hexact
    omega
  · intro hlt
    have hscaled : ((a.toNat : Int) - b.toNat) * 95 % 2 ^ 64 = (a.toNat - b.toNat) * 95 := by omega
    rw [hscaled]
    omega

theorem within_iff (hlo : 1 ≤ hz.toNat) : Within hz dt ↔ period hz ≤ dt.toInt / rounds hz ∧
    (dt.toInt / rounds hz - period hz) * 95 < 100 * (period hz + 1) := by
  have hrounds : (0 : Int) < rounds hz := by
    unfold rounds
    omega
  rw [Within, ← Int.le_ediv_iff_mul_le hrounds, ← Int.ediv_lt_iff_lt_mul hrounds]
  generalize dt.toInt / rounds hz = average
  omega

/-- The correction is exact, and leaves no more than two periods, within these bounds. -/
theorem corrected_exact_iff (hlo : 1 ≤ hz.toNat) (hhi : hz.toNat ≤ 1000000) (hdt : 0 ≤ dt) :
    ((corrected (1000000 / hz) (1000000 / hz) (avgDt dt hz)).toNat : Int) = exactSleepTime hz dt ∧
      (corrected (1000000 / hz) (1000000 / hz) (avgDt dt hz)).toNat ≤ 2 * period hz ↔
    Within hz dt := by
  have hbase := toNat_period hz
  have haverage := toNat_avgDt hhi hdt
  have hperiod : (1000000 / hz).toNat ≤ 1000000 := by
    rw [hbase]
    exact period_le hz
  rw [within_iff hlo, exactSleepTime, ← haverage, ← hbase]
  rcases Nat.lt_or_ge (avgDt dt hz).toNat (1000000 / hz).toNat with h | h
  · have hlong := corrected_of_lt hperiod h
    omega
  · have hexact := corrected_of_le hperiod h
    rw [Int.tdiv_eq_ediv_of_nonneg (by omega)]
    omega

end

-- ---------------------------------------------------------------------------
-- Calls
-- ---------------------------------------------------------------------------

/-- `dt`, once both times have been taken, by the calls number `hz / 2` and `hz * 2`. -/
def measured (hz : UInt64) (calls : List Timeval) : Option Int64 :=
  match calls[hz.toNat / 2]?, calls[hz.toNat * 2]? with
  | some tvStart, some tvEnd => some (dt tvStart tvEnd)
  | _, _ => none

/-- The sleeping time after calls, in numbers of 64 bits and in whole ones. -/
def sleepTimeAfter (hz : UInt64) (calls : List Timeval) : UInt64 :=
  match measured hz calls with
  | some dt => corrected (1000000 / hz) (1000000 / hz) (avgDt dt hz)
  | none => 1000000 / hz

def exactSleepTimeAfter (hz : UInt64) (calls : List Timeval) : Int :=
  match measured hz calls with
  | some dt => exactSleepTime hz dt
  | none => period hz

structure After (hz : UInt64) (calls : List Timeval) (r : Rate) : Prop where
  rate : r.hz = hz
  base : r.baseTime = 1000000 / hz
  counter : r.counter.toNat = min calls.length (hz.toNat * 2 + 1)
  started : ∀ t ∈ calls[hz.toNat / 2]?, r.tvStart = t
  sleepTime : r.sleepTime = sleepTimeAfter hz calls

section
variable {hz : UInt64} {calls before : List Timeval} {r : Rate}

theorem measured_of_le (h : calls.length ≤ hz.toNat * 2) : measured hz calls = none := by
  have hend : calls[hz.toNat * 2]? = none := List.getElem?_eq_none h
  unfold measured
  rw [hend]
  split <;> simp_all

theorem measured_append (h : hz.toNat * 2 < calls.length) (rest : List Timeval) :
    measured hz (calls ++ rest) = measured hz calls := by
  unfold measured
  rw [List.getElem?_append_left h, List.getElem?_append_left (by omega)]

theorem measured_concat (hlo : 1 ≤ hz.toNat) (h : calls.length = hz.toNat * 2) (now : Timeval) :
    ∃ t, calls[hz.toNat / 2]? = some t ∧ measured hz (calls ++ [now]) = some (dt t now) := by
  have hlt : hz.toNat / 2 < calls.length := by omega
  refine ⟨calls[hz.toNat / 2], List.getElem?_eq_getElem hlt, ?_⟩
  unfold measured
  rw [← h, List.getElem?_append_left hlt, List.getElem?_eq_getElem hlt, List.getElem?_concat_length]

theorem after_new (memory : Rate) (hz : UInt64) : After hz [] (new memory hz) where
  rate := rfl
  base := rfl
  counter := by simp [new]
  started := by simp
  sleepTime := by rw [sleepTimeAfter, measured_of_le (Nat.zero_le _)]; rfl

theorem sleepTimeAfter_concat (h : calls.length ≠ hz.toNat * 2) (now : Timeval) :
    sleepTimeAfter hz (calls ++ [now]) = sleepTimeAfter hz calls := by
  unfold sleepTimeAfter
  rcases Nat.lt_or_gt_of_ne h with h | h
  · rw [measured_of_le (Nat.le_of_lt h), measured_of_le]
    rw [List.length_append]
    exact h
  · rw [measured_append h]

theorem After.concat {r' : Rate} {now : Timeval} (h : After hz calls r) (hrate : r'.hz = r.hz)
    (hbase : r'.baseTime = r.baseTime)
    (hcounter : r'.counter.toNat = min (calls.length + 1) (hz.toNat * 2 + 1))
    (hstarted : r'.tvStart = if calls.length = hz.toNat / 2 then now else r.tvStart)
    (hsleep : r'.sleepTime = sleepTimeAfter hz (calls ++ [now])) :
    After hz (calls ++ [now]) r' := by
  refine ⟨hrate.trans h.rate, hbase.trans h.base, by simpa using hcounter, fun t ht => ?_, hsleep⟩
  rw [hstarted]
  rcases Nat.lt_or_ge (hz.toNat / 2) calls.length with hlt | hge
  · rw [List.getElem?_append_left hlt] at ht
    rw [if_neg (by omega)]
    exact h.started t ht
  · rw [List.getElem?_append_right hge] at ht
    obtain ⟨hlt, rfl⟩ := List.getElem?_eq_some_iff.mp ht
    rw [if_pos (by simp at hlt; omega)]
    simp

theorem After.step (h : After hz calls r) (hlo : 1 ≤ hz.toNat) (hhi : hz.toNat ≤ 1000000)
    (now : Timeval) : After hz (calls ++ [now]) (sleep r now).1 := by
  have hcounter := h.counter
  have hhalf : (r.hz / 2).toNat = hz.toNat / 2 := by rw [h.rate]; exact UInt64.toNat_div _ _
  have hdouble : (r.hz * 2).toNat = hz.toNat * 2 := by
    rw [h.rate]
    exact toNat_mul_of_le hhi (by decide)
  have hnext : (r.counter + 1).toNat = r.counter.toNat + 1 := by
    rw [UInt64.toNat_add, UInt64.toNat_one]
    exact Nat.mod_eq_of_lt (by omega)
  have hsame (hne : calls.length ≠ hz.toNat * 2) :
      r.sleepTime = sleepTimeAfter hz (calls ++ [now]) :=
    h.sleepTime.trans (sleepTimeAfter_concat hne now).symm
  unfold sleep
  dsimp only
  simp only [UInt64.lt_iff_toNat_lt, ← UInt64.toNat_inj, hhalf, hdouble]
  split_ifs with h1 h2 h3 h4
  · exact h.concat rfl rfl (hnext.trans (by omega)) (if_neg (by omega)).symm (hsame (by omega))
  · exact h.concat rfl rfl (hnext.trans (by omega)) (if_pos (by omega)).symm (hsame (by omega))
  · exact h.concat rfl rfl (hnext.trans (by omega)) (if_neg (by omega)).symm (hsame (by omega))
  · have hlast : calls.length = hz.toNat * 2 := by omega
    obtain ⟨t, ht, hmeasured⟩ := measured_concat hlo hlast now
    refine h.concat rfl rfl (hnext.trans (by omega)) (if_neg (by omega)).symm ?_
    have hbefore : r.sleepTime = 1000000 / hz := by
      rw [h.sleepTime, sleepTimeAfter, measured_of_le (Nat.le_of_eq hlast)]
    show corrected _ _ _ = _
    rw [sleepTimeAfter, hmeasured, h.base, h.rate, hbefore, h.started t ht]
  · exact h.concat rfl rfl (by omega) (if_neg (by omega)).symm (hsame (by omega))

theorem after_final (memory : Rate) (hlo : 1 ≤ hz.toNat) (hhi : hz.toNat ≤ 1000000)
    (calls : List Timeval) : After hz calls (Mealy.final sleep (new memory hz) calls) := by
  induction calls using List.reverseRecOn with
  | nil => exact after_new memory hz
  | append_singleton calls now ih =>
    rw [Mealy.final_append]
    exact ih.step hlo hhi now

end

-- ---------------------------------------------------------------------------
-- Bounds
-- ---------------------------------------------------------------------------

/-- In a run nothing wraps: the average and the sleeping time are those of whole numbers, and no
call sleeps for more than two periods. -/
structure Bounded (memory : Rate) (hz : UInt64) (calls : List Timeval) : Prop where
  average : ∀ dt ∈ measured hz calls, ((avgDt dt hz).toNat : Int) = dt.toInt / rounds hz
  exact : ∀ before, before <+: calls →
    ((Mealy.final sleep (new memory hz) before).sleepTime.toNat : Int) =
      exactSleepTimeAfter hz before
  range : ∀ before, before <+: calls →
    (Mealy.final sleep (new memory hz) before).sleepTime.toNat ≤ 2 * period hz
  slept : ∀ t ∈ Mealy.emitted sleep (new memory hz) calls, t.toNat ≤ 2 * period hz

section
variable {hz : UInt64} {dt : Int64} {calls before : List Timeval}

theorem sleep_output (r : Rate) (now : Timeval) :
    (sleep r now).2 = [(sleep r now).1.sleepTime.toUInt32] := rfl

theorem measured_of_before (h : before <+: calls) (hm : dt ∈ measured hz before) :
    dt ∈ measured hz calls := by
  obtain ⟨rest, rfl⟩ := h
  rcases Nat.lt_or_ge (hz.toNat * 2) before.length with hlt | hge
  · rwa [measured_append hlt rest]
  · rw [measured_of_le hge] at hm
    cases hm

theorem toNat_slept_le {s : UInt64} (h : s.toNat ≤ 2 * period hz) :
    s.toUInt32.toNat ≤ 2 * period hz := by
  rw [UInt64.toNat_toUInt32]
  exact Nat.le_trans (Nat.mod_le _ _) h

theorem sleepTimeAfter_exact_iff (hlo : 1 ≤ hz.toNat) (hhi : hz.toNat ≤ 1000000)
    (hdt : ∀ dt ∈ measured hz calls, 0 ≤ dt) :
    ((sleepTimeAfter hz calls).toNat : Int) = exactSleepTimeAfter hz calls ∧
      (sleepTimeAfter hz calls).toNat ≤ 2 * period hz ↔
    ∀ dt ∈ measured hz calls, Within hz dt := by
  unfold sleepTimeAfter exactSleepTimeAfter
  cases hm : measured hz calls with
  | none =>
    have hbase := toNat_period hz
    simp only [Option.mem_def, reduceCtorEq, false_imp_iff, implies_true, iff_true]
    omega
  | some dt =>
    have hiff := corrected_exact_iff hlo hhi (hdt dt hm)
    simpa using hiff

end

/-- A run keeps to two periods exactly when the rounds it measures are not too short or too long. -/
theorem bounded_iff (memory : Rate) (hz : UInt64) (hlo : 1 ≤ hz) (hhi : hz ≤ 1000000)
    (calls : List Timeval) (hdt : ∀ dt ∈ measured hz calls, 0 ≤ dt) :
    Bounded memory hz calls ↔ ∀ dt ∈ measured hz calls, Within hz dt := by
  obtain ⟨hlo, hhi⟩ := toNat_bounds hlo hhi
  have hafter := after_final memory hlo hhi
  constructor
  · intro h
    have hexact := h.exact calls (List.prefix_refl _)
    have hrange := h.range calls (List.prefix_refl _)
    rw [(hafter calls).sleepTime] at hexact hrange
    exact (sleepTimeAfter_exact_iff hlo hhi hdt).mp ⟨hexact, hrange⟩
  · intro h
    have hright (before : List Timeval) (hp : before <+: calls) :
        ((Mealy.final sleep (new memory hz) before).sleepTime.toNat : Int) =
            exactSleepTimeAfter hz before ∧
          (Mealy.final sleep (new memory hz) before).sleepTime.toNat ≤ 2 * period hz := by
      rw [(hafter before).sleepTime]
      exact (sleepTimeAfter_exact_iff hlo hhi fun dt hm => hdt dt (measured_of_before hp hm)).mpr
        fun dt hm => h dt (measured_of_before hp hm)
    refine ⟨fun dt hm => toNat_avgDt hhi (hdt dt hm), fun before hp => (hright before hp).1,
      fun before hp => (hright before hp).2, fun t ht => ?_⟩
    obtain ⟨before, now, after, rfl, hslept⟩ := Mealy.mem_emitted.mp ht
    rw [sleep_output] at hslept
    obtain rfl := List.mem_singleton.mp hslept
    have hp : before ++ [now] <+: before ++ now :: after := by simp
    have hrange := (hright _ hp).2
    rw [Mealy.final_append] at hrange
    exact toNat_slept_le hrange

theorem bounded_iff_hertz : Bounded ⟨0, 0, 0, 0, ⟨0, 0⟩, ⟨0, 0⟩⟩ 1
    [⟨0, 0⟩, ⟨1, 10000⟩, ⟨2, 20000⟩, ⟨2, 50000⟩] := by
  have hmeasured : measured 1 [⟨0, 0⟩, ⟨1, 10000⟩, ⟨2, 20000⟩, ⟨2, 50000⟩] = some 2020000 := rfl
  refine (bounded_iff _ 1 (by decide) (by decide) _ ?_).mpr ?_
  · intro dt hdt
    obtain rfl := Option.some.inj (hmeasured.symm.trans hdt)
    decide
  · intro dt hdt
    obtain rfl := Option.some.inj (hmeasured.symm.trans hdt)
    decide

/-- One round a second, of which each takes two and a half: the third call sleeps for more than an
hour. -/
theorem not_bounded_slow : ¬ Bounded ⟨0, 0, 0, 0, ⟨0, 0⟩, ⟨0, 0⟩⟩ 1
    [⟨0, 0⟩, ⟨2, 500000⟩, ⟨5, 0⟩] := by
  intro h
  have hlong : (4292167296 : UInt32).toNat ≤ 2 * period 1 := h.slept _ (by decide)
  exact absurd hlong (by decide)

end Rate

end TienKung
