import TienKung.Soem.Ecatcheck

/-!
# Slaves that obey the check thread

The check thread together with slaves that do what it requests: a slave in
SAFE_OP acknowledges its error or becomes operational, and one in another state
is reconfigured to SAFE_OP. From any states of the protocol three passes make
all operational, if the requests this takes are fewer than those that end the
thread. It does not matter that `ec_readstate` may take INIT and PRE_OP for BOOT.
-/

namespace TienKung.Ecatcheck

-- ---------------------------------------------------------------------------
-- Slaves
-- ---------------------------------------------------------------------------

def respond (al state : BitVec 16) : BitVec 16 :=
  if al = ecStateSafeOp + ecStateError ∧ state = ecStateSafeOp + ecStateAck then ecStateSafeOp
  else if al = ecStateSafeOp ∧ state = ecStateOperational then ecStateOperational
  else al

/-- What the slaves, which are in `als`, make of what the thread does. -/
def react (als : List (BitVec 16)) : CheckEvent → List (BitVec 16)
  | .writestate slave state => als.modify (slave - 1) (respond · state)
  | .reconfig slave => als.set (slave - 1) ecStateSafeOp
  | _ => als

structure Sample where
  wkc : Int
  expectedWKC : Int
  read : Nat → BitVec 16

def Sample.input (i : Sample) : PassInput where
  inOP := true
  wkc := i.wkc
  expectedWKC := i.expectedWKC
  answer k := ⟨i.read k, ecStateSafeOp.toNat, ecStateSafeOp, i.read k, 0⟩

def loop : Mealy.Step (Check × List (BitVec 16)) Sample CheckEvent := fun (c, als) i =>
  (((pass c i.input).1, (pass c i.input).2.foldl react als), (pass c i.input).2)

/-- What `ec_readstate` may read of a slave that answers. -/
def ReadAs (al state : BitVec 16) : Prop :=
  state = al ∨ state = ecStateBoot ∧ (al = ecStateInit ∨ al = ecStatePreOp)

def Reads (s : Check × List (BitVec 16)) (i : Sample) : Prop :=
  ∀ k al, s.2[k]? = some al → ReadAs al (i.read (k + 1))

theorem readAs_boot (hplain : PlainState al) (hor : al ||| ecStateBoot = ecStateBoot) :
    ReadAs al ecStateBoot := by
  simp only [PlainState, ecStates, List.map_cons, List.map_nil, List.cons_append, List.nil_append,
    List.mem_cons, List.not_mem_nil, or_false] at hplain
  rcases hplain with rfl | rfl | rfl | rfl | rfl | rfl | rfl | rfl | rfl | rfl
  case inl => exact .inr ⟨rfl, .inl rfl⟩
  case inr.inl => exact .inr ⟨rfl, .inr rfl⟩
  case inr.inr.inl => exact .inl rfl
  all_goals exact absurd hor (by decide)

theorem readAs_readstate {l : Slavelist} {answers : StateAnswers}
    (hlen : answers.length = l.slaves.length)
    (hnone : none ∉ answers) (hplain : ∀ a ∈ answers.filterMap id, PlainState a.alstatus) :
    List.Forall₂ ReadAs (answers.single.map AlStatus.alstatus)
      (l.readstate answers.broadcast.1 answers.broadcast.2 answers.single).states := by
  by_cases hboot : answers.broadcast.2 = ecStateBoot
  · rw [states_of_boot hlen hnone hboot, ← hlen]
    refine List.forall₂_iff_get.mpr ⟨by simp [StateAnswers.single], fun k hk hk' => ?_⟩
    have hmem := List.get_mem (answers.single.map AlStatus.alstatus) ⟨k, hk⟩
    obtain ⟨a, ha, heq⟩ := List.mem_map.mp hmem
    rw [single_of_present hnone] at ha
    have hread : (List.replicate answers.length ecStateBoot).get ⟨k, hk'⟩ = ecStateBoot :=
      List.getElem_replicate ..
    rw [hread, ← heq]
    exact readAs_boot (hplain a ha) (hboot ▸ or_mem ha)
  · rw [(states_readstate hlen hplain).mpr fun h => hboot h.2.1]
    exact List.forall₂_same.mpr fun _ _ => .inl rfl

/-- What `ec_readstate` reads of slaves that all answer. -/
def answered (als : List (BitVec 16)) : List (BitVec 16) :=
  let answers : StateAnswers := als.map fun al => some ⟨al, 0⟩
  let l : Slavelist := ⟨⟨0, 0, 0, false⟩, als.map fun _ => ⟨0, 0, 0, false⟩⟩
  (l.readstate answers.broadcast.1 answers.broadcast.2 answers.single).states

theorem reads_of_answered {s : Check × List (BitVec 16)} {i : Sample}
    (hplain : ∀ al ∈ s.2, PlainState al)
    (hread : ∀ k, i.read (k + 1) = (answered s.2).getD k 0) : Reads s i := by
  intro k al hal
  have hsingle : StateAnswers.single (s.2.map fun al => some (⟨al, 0⟩ : AlStatus)) =
      s.2.map fun al => ⟨al, 0⟩ := by
    rw [StateAnswers.single, List.map_map]
    rfl
  have hread' : List.Forall₂ ReadAs ((s.2.map fun al => (⟨al, 0⟩ : AlStatus)).map
      AlStatus.alstatus) (answered s.2) := by
    rw [← hsingle]
    refine readAs_readstate (by rw [List.length_map, List.length_map]) ?_ ?_
    · simp
    · simpa using hplain
  rw [List.map_map] at hread'
  obtain ⟨hlen, hall⟩ := List.forall₂_iff_get.mp hread'
  obtain ⟨hk, rfl⟩ := List.getElem?_eq_some_iff.mp hal
  have hk' : k < (answered s.2).length := by
    rw [← hlen, List.length_map]
    exact hk
  have hone := hall k (by rw [List.length_map]; exact hk) hk'
  rw [List.get_eq_getElem, List.get_eq_getElem, List.getElem_map] at hone
  rw [hread, List.getD_eq_getElem?_getD, List.getElem?_eq_getElem hk']
  exact hone

-- ---------------------------------------------------------------------------
-- One slave
-- ---------------------------------------------------------------------------

def obey (al : BitVec 16) : BitVec 16 :=
  if al = ecStateSafeOp ∨ al = ecStateOperational then ecStateOperational else ecStateSafeOp

/-- The requests it takes to make a slave operational. -/
def demand (al : BitVec 16) : Nat :=
  if al = ecStateOperational then 0 else if al = ecStateSafeOp + ecStateError then 2 else 1

def Followed (s : EcSlave) : Prop := s.group = currentgroup ∧ s.islost = false

structure Fits (s : EcSlave) (al : BitVec 16) : Prop where
  followed : Followed s
  plain : PlainState al
  read : ReadAs al s.state

theorem modify_middle (before : List α) (a : α) (after : List α) (f : α → α) :
    (before ++ a :: after).modify before.length f = before ++ f a :: after := by
  induction before with
  | nil => rfl
  | cons b before ih => exact congrArg (b :: ·) ih

theorem react_writestate (hlen : before.length + 1 = slave) :
    react (before ++ al :: after) (.writestate slave state) =
      before ++ respond al state :: after := by
  rw [react, ← hlen, Nat.add_sub_cancel]
  exact modify_middle before al after (respond · state)

theorem react_reconfig (hlen : before.length + 1 = slave) :
    react (before ++ al :: after) (.reconfig slave) = before ++ ecStateSafeOp :: after := by
  rw [react, ← hlen, Nat.add_sub_cancel, List.set_append_right _ _ (le_refl _), Nat.sub_self,
    List.set_cons_zero]

inductive Stage (s : EcSlave) (al : BitVec 16) : Prop
  | operational (hal : al = ecStateOperational) (hs : s.state = ecStateOperational)
  | error (hal : al = ecStateSafeOp + ecStateError) (hs : s.state = ecStateSafeOp + ecStateError)
  | safeOp (hal : al = ecStateSafeOp) (hs : s.state = ecStateSafeOp)
  | other (hobey : obey al = ecStateSafeOp) (hdemand : demand al = 1)
      (hs : s.state ≠ ecStateOperational ∧ s.state ≠ ecStateSafeOp + ecStateError ∧
        s.state ≠ ecStateSafeOp ∧ 0 < s.state)

theorem Fits.stage (h : Fits s al) : Stage s al := by
  obtain ⟨-, hplain, hread⟩ := h
  rcases hread with hread | ⟨hboot, hal⟩
  · simp only [PlainState, ecStates, List.map_cons, List.map_nil, List.cons_append, List.nil_append,
      List.mem_cons, List.not_mem_nil, or_false] at hplain
    subst hread
    rcases hplain with h | h | h | h | h | h | h | h | h | h <;> rw [h]
    case inr.inr.inr.inl => exact .safeOp rfl h
    case inr.inr.inr.inr.inl => exact .operational rfl h
    case inr.inr.inr.inr.inr.inr.inr.inr.inl => exact .error rfl h
    all_goals exact .other (by decide) (by decide) (by rw [h]; decide)
  · rcases hal with rfl | rfl <;> exact .other (by decide) (by decide) (by rw [hboot]; decide)

theorem needsCheck_eq (h : Followed s) : needsCheck s = decide (s.state ≠ ecStateOperational) := by
  simp [needsCheck, h.1]

theorem needsCheck_iff (h : Fits s al) : needsCheck s = true ↔ al ≠ ecStateOperational := by
  rw [needsCheck_eq h.followed, decide_eq_true_iff]
  cases h.stage with
  | operational hal hs => rw [hal, hs]
  | error hal hs => rw [hal, hs]
  | safeOp hal hs => rw [hal, hs]
  | other hobey _ hs =>
    refine iff_of_true hs.1 ?_
    rintro rfl
    exact absurd hobey (by decide)

theorem checkSlave_obeys (i : Sample) (h : Fits s al) (after : List (BitVec 16))
    (hlen : before.length + 1 = slave) :
    let c := checkSlave slave s (i.input.answer slave)
    c.lost = false ∧ Followed c.slave ∧
      c.events.foldl react (before ++ al :: after) = before ++ obey al :: after ∧
      c.events.countP CheckEvent.isRequest + demand (obey al) = demand al := by
  rw [checkSlave_eq h.followed.2, needsCheck_eq h.followed]
  cases h.stage with
  | operational hal hs =>
    subst hal
    rw [if_neg (by rw [hs]; decide)]
    exact ⟨rfl, h.followed, rfl, rfl⟩
  | error hal hs =>
    subst hal
    rw [if_pos (by rw [hs]; decide), checkState, if_pos hs]
    exact ⟨rfl, h.followed, react_writestate hlen, rfl⟩
  | safeOp hal hs =>
    subst hal
    rw [if_pos (by rw [hs]; decide), checkState, if_neg (by rw [hs]; decide), if_pos hs]
    exact ⟨rfl, h.followed, react_writestate hlen, rfl⟩
  | other hobey hdemand hs =>
    obtain ⟨hop, herror, hsafe, hpos⟩ := hs
    rw [if_pos (decide_eq_true hop), checkState, if_neg herror, if_neg hsafe, if_pos hpos, hobey,
      hdemand]
    exact ⟨rfl, ⟨h.followed.1, by simp [Sample.input]⟩, react_reconfig hlen, rfl⟩

-- ---------------------------------------------------------------------------
-- All slaves
-- ---------------------------------------------------------------------------

def totalDemand (als : List (BitVec 16)) : Nat := (als.map demand).sum

theorem checkSlaves_obey (i : Sample) (h : List.Forall₂ Fits slaves als)
    (before : List (BitVec 16)) (slave : Nat) (hlen : before.length + 1 = slave) :
    let v := checkSlaves i.input.answer slave slaves
    v.2.2 = false ∧ v.1.length = als.length ∧ (∀ s ∈ v.1, Followed s) ∧
      v.2.1.foldl react (before ++ als) = before ++ als.map obey ∧
      v.2.1.countP CheckEvent.isRequest + totalDemand (als.map obey) = totalDemand als := by
  induction h generalizing slave before with
  | nil => simp [checkSlaves, totalDemand]
  | @cons s al slaves als hfit _ ih =>
    obtain ⟨hlost, hslave, hreact, hcount⟩ := checkSlave_obeys i hfit als hlen
    have hnext : (before ++ [obey al]).length + 1 = slave + 1 := by simp [hlen]
    obtain ⟨hlosts, hlength, hslaves, hreacts, hcounts⟩ :=
      ih (before ++ [obey al]) (slave + 1) hnext
    rw [checkSlaves, if_neg (by rw [hlost]; decide)]
    refine ⟨hlosts, by simp [hlength], ?_, ?_, ?_⟩
    · exact List.forall_mem_cons.mpr ⟨hslave, hslaves⟩
    · rw [List.append_assoc, List.singleton_append, List.append_assoc] at hreacts
      rw [List.foldl_append, hreact]
      exact hreacts
    · simp only [totalDemand, List.map_cons, List.sum_cons, List.countP_append] at hcounts ⊢
      rw [← hcount, ← hcounts]
      exact Nat.add_add_add_comm ..

theorem any_needsCheck (h : List.Forall₂ Fits slaves als) :
    slaves.any needsCheck = true ↔ ∃ al ∈ als, al ≠ ecStateOperational := by
  induction h with
  | nil => simp
  | cons hfit _ ih =>
    rw [List.any_cons, Bool.or_eq_true, needsCheck_iff hfit, ih, List.exists_mem_cons_iff]

theorem fits_readstate {i : Sample} {c : Check} (hlength : c.slaves.length = als.length)
    (hfollowed : ∀ s ∈ c.slaves, Followed s) (hplain : ∀ al ∈ als, PlainState al)
    (hreads : Reads (c, als) i) : List.Forall₂ Fits (readstate i.input.answer c.slaves) als := by
  have hlen : (readstate i.input.answer c.slaves).length = als.length := by
    rw [readstate, List.length_mapIdx, hlength]
  refine List.forall₂_iff_get.mpr ⟨hlen, fun k hk hk' => ?_⟩
  have hs : k < c.slaves.length := hlength ▸ hk'
  rw [List.get_eq_getElem, List.get_eq_getElem]
  have hslave : (readstate i.input.answer c.slaves)[k] =
      { c.slaves[k] with state := i.read (k + 1) } := List.getElem_mapIdx ..
  rw [hslave]
  exact ⟨hfollowed c.slaves[k] (List.getElem_mem hs), hplain _ (List.getElem_mem hk'),
    hreads k als[k] (List.getElem?_eq_getElem hk')⟩

-- ---------------------------------------------------------------------------
-- Runs
-- ---------------------------------------------------------------------------

/-- The thread runs, and has requests left for what the slaves still need. -/
structure Running (s : Check × List (BitVec 16)) : Prop where
  ended : s.1.ended = none
  length : s.1.slaves.length = s.2.length
  followed : ∀ slave ∈ s.1.slaves, Followed slave
  plain : ∀ al ∈ s.2, PlainState al
  counted : 0 ≤ s.1.errCount
  budget : s.1.top.errCount + totalDemand s.2 ≤ kEthercatErrMax

theorem errCount_top {c : Check} (h : 0 ≤ c.errCount) :
    0 ≤ c.top.errCount ∧ c.top.errCount ≤ c.errCount := by
  unfold Check.top
  split
  · exact ⟨le_refl 0, h⟩
  · exact ⟨h, le_refl _⟩

theorem plain_obey (al : BitVec 16) : PlainState (obey al) := by
  unfold obey
  split <;> exact List.mem_append_left _ (by decide)

/-- A pass that looks at the slaves moves each of them on. -/
theorem loop_checks {s : Check × List (BitVec 16)} {i : Sample} (h : Running s) (hreads : Reads s i)
    (hchecks : Checks s.1.top i.input) :
    Running (loop s i).1 ∧ (loop s i).1.2 = s.2.map obey ∧
      ((loop s i).1.1.docheckstate = true ↔ ∃ al ∈ s.2, al ≠ ecStateOperational) := by
  obtain ⟨c, als⟩ := s
  obtain ⟨hended, hlength, hfollowed, hplain, hcounted, hbudget⟩ := h
  dsimp only at hended hlength hfollowed hplain hcounted hbudget hchecks
  have hfits : List.Forall₂ Fits (readstate i.input.answer c.top.slaves) als :=
    fits_readstate (by rw [slaves_top]; exact hlength) (by rw [slaves_top]; exact hfollowed)
      hplain hreads
  have hfew : ¬ c.top.errCount > kEthercatErrMax := by omega
  obtain ⟨hlost, hlengths, hslaves, hreact, hcount⟩ := checkSlaves_obey i hfits [] 1 rfl
  have hpass := pass_checks hended hfew hchecks
  dsimp only at hpass
  rw [hlost, if_neg Bool.false_ne_true] at hpass
  have hals : (loop (c, als) i).1.2 = als.map obey := by
    rw [loop, hpass]
    dsimp only
    split
    · exact hreact
    · rw [List.foldl_append]
      exact hreact
  have hstate : (loop (c, als) i).1.1 = c.top.checked i.input.answer := congrArg Prod.fst hpass
  have hcounts : (c.top.checked i.input.answer).errCount + totalDemand (als.map obey) =
      c.top.errCount + totalDemand als := by
    rw [← hcount, Check.checked]
    push_cast
    exact Int.add_assoc ..
  have hnonneg : 0 ≤ (c.top.checked i.input.answer).errCount :=
    add_nonneg (errCount_top hcounted).1 (Int.natCast_nonneg _)
  refine ⟨⟨?_, ?_, ?_, ?_, ?_, ?_⟩, hals, ?_⟩
  · rw [hstate]
    exact ended_top.trans hended
  · rw [hstate, hals, List.length_map]
    exact hlengths
  · rw [hstate]
    exact hslaves
  · rw [hals]
    exact List.forall_mem_map.mpr fun al _ => plain_obey al
  · rw [hstate]
    exact hnonneg
  · have hle := (errCount_top hnonneg).2
    rw [hals, hstate]
    omega
  · rw [hstate]
    exact any_needsCheck hfits

theorem loop_idle {s : Check × List (BitVec 16)} {i : Sample} (h : Running s)
    (hidle : ¬ Checks s.1.top i.input) :
    Running (loop s i).1 ∧ (loop s i).1.2 = s.2 ∧
      (loop s i).1.1.docheckstate = s.1.docheckstate := by
  obtain ⟨c, als⟩ := s
  obtain ⟨hended, hlength, hfollowed, hplain, hcounted, hbudget⟩ := h
  dsimp only at hended hlength hfollowed hplain hcounted hbudget hidle
  have hfew : ¬ c.top.errCount > kEthercatErrMax := by omega
  have hpass := pass_idle hended hfew hidle
  have hstate : (loop (c, als) i).1.1 =
      { c.top with errIterationCount := c.top.errIterationCount + 1 } := congrArg Prod.fst hpass
  have hals : (loop (c, als) i).1.2 = als := by
    rw [loop, hpass]
    rfl
  have hcounted' := errCount_top hcounted
  refine ⟨⟨?_, ?_, ?_, ?_, ?_, ?_⟩, hals, ?_⟩
  · rw [hstate]
    exact ended_top.trans hended
  · rw [hstate, hals]
    exact (congrArg List.length slaves_top).trans hlength
  · rw [hstate]
    show ∀ s ∈ c.top.slaves, Followed s
    rwa [slaves_top]
  · rwa [hals]
  · rw [hstate]
    exact hcounted'.1
  · have hle : (loop (c, als) i).1.1.top.errCount ≤ c.top.errCount := by
      rw [hstate]
      exact (@errCount_top
        { c.top with errIterationCount := c.top.errIterationCount + 1 } hcounted'.1).2
    rw [hals]
    omega
  · rw [hstate]
    unfold Check.top
    split <;> rfl

-- ---------------------------------------------------------------------------
-- Recovery
-- ---------------------------------------------------------------------------

def AllOperational (als : List (BitVec 16)) : Prop := ∀ al ∈ als, al = ecStateOperational

theorem not_exists_iff : (¬ ∃ al ∈ als, al ≠ ecStateOperational) ↔ AllOperational als := by
  simp [AllOperational]

theorem obey_obey (al : BitVec 16) : obey (obey al) = ecStateOperational := by
  unfold obey
  split <;> rfl

@[simp] theorem docheckstate_top {c : Check} : c.top.docheckstate = c.docheckstate := by
  unfold Check.top
  split <;> rfl

theorem checks_iff {c : Check} {i : Sample} :
    Checks c.top i.input ↔ i.wkc < i.expectedWKC ∨ c.docheckstate = true := by
  simp [Checks, Sample.input]

structure OneAway (s : Check × List (BitVec 16)) : Prop where
  running : Running s
  next : AllOperational (s.2.map obey)
  watched : s.1.docheckstate = true ∨ AllOperational s.2

structure Recovered (s : Check × List (BitVec 16)) : Prop where
  running : Running s
  operational : AllOperational s.2

structure Settled (s : Check × List (BitVec 16)) : Prop extends Recovered s where
  unwatched : s.1.docheckstate = false

section
variable {s : Check × List (BitVec 16)} {i : Sample}

theorem loop_oneAway (h : Running s) (hreads : Reads s i) (hlow : i.wkc < i.expectedWKC) :
    OneAway (loop s i).1 := by
  obtain ⟨hrunning, hals, hdocheck⟩ := loop_checks h hreads (checks_iff.mpr (.inl hlow))
  refine ⟨hrunning, ?_, ?_⟩
  · rw [hals]
    exact List.forall_mem_map.mpr (List.forall_mem_map.mpr fun al _ => obey_obey al)
  · refine or_iff_not_imp_left.mpr fun hdone => ?_
    have hoperational := not_exists_iff.mp (mt hdocheck.mpr hdone)
    rw [hals]
    exact List.forall_mem_map.mpr fun al hal => by rw [hoperational al hal]; rfl

theorem loop_recovered (h : OneAway s) (hreads : Reads s i) : Recovered (loop s i).1 := by
  by_cases hchecks : Checks s.1.top i.input
  · obtain ⟨hrunning, hals, -⟩ := loop_checks h.running hreads hchecks
    exact ⟨hrunning, hals ▸ h.next⟩
  · obtain ⟨hrunning, hals, -⟩ := loop_idle h.running hchecks
    have hdone : ¬ s.1.docheckstate = true := fun hdocheck =>
      hchecks (checks_iff.mpr (.inr hdocheck))
    exact ⟨hrunning, hals ▸ h.watched.resolve_left hdone⟩

theorem loop_settled (h : Recovered s) (hreads : Reads s i) : Settled (loop s i).1 := by
  by_cases hchecks : Checks s.1.top i.input
  · obtain ⟨hrunning, hals, hdocheck⟩ := loop_checks h.running hreads hchecks
    refine ⟨⟨hrunning, ?_⟩, ?_⟩
    · rw [hals]
      exact List.forall_mem_map.mpr fun al hal => by rw [h.operational al hal]; rfl
    · exact Bool.eq_false_iff.mpr (mt hdocheck.mp (not_exists_iff.mpr h.operational))
  · obtain ⟨hrunning, hals, hdocheck⟩ := loop_idle h.running hchecks
    have hdone : ¬ s.1.docheckstate = true := fun hdocheck =>
      hchecks (checks_iff.mpr (.inr hdocheck))
    exact ⟨⟨hrunning, hals ▸ h.operational⟩, hdocheck.trans (Bool.eq_false_iff.mpr hdone)⟩

end

/-- Three passes after a working counter that is too low, and ever after, all slaves are
operational. -/
theorem slaves_recover {s : Check × List (BitVec 16)} (h : Running s) {i j k : Sample}
    {rest : List Sample} (hreads : Mealy.Along loop Reads s (i :: j :: k :: rest))
    (hlow : i.wkc < i.expectedWKC) :
    let s' := Mealy.final loop s (i :: j :: k :: rest)
    AllOperational s'.2 ∧ s'.1.ended = none ∧ s'.1.docheckstate = false := by
  obtain ⟨hi, hj, hk, hrest⟩ := hreads
  have hsettled := loop_settled (loop_recovered (loop_oneAway h hi hlow) hj) hk
  have hfinal := hrest.final hsettled fun _ _ hs hreads => loop_settled hs.toRecovered hreads
  exact ⟨hfinal.operational, hfinal.running.ended, hfinal.unwatched⟩

/-- Together the two slaves look like BOOT. -/
theorem slaves_recover_of_two :
    let s : Check × List (BitVec 16) :=
      (.start (.replicate 2 ⟨0, 0, 0, false⟩), [ecStateInit, ecStatePreOp])
    let sample (als : List (BitVec 16)) : Sample := ⟨0, 1, fun k => (answered als).getD (k - 1) 0⟩
    let s' := Mealy.final loop s [sample s.2, sample [ecStateSafeOp, ecStateSafeOp],
      sample [ecStateOperational, ecStateOperational]]
    AllOperational s'.2 ∧ s'.1.ended = none ∧ s'.1.docheckstate = false := by
  intro s sample s'
  have hplain (a b : BitVec 16) (ha : a ∈ ecStates) (hb : b ∈ ecStates) :
      ∀ al ∈ [a, b], PlainState al := by
    intro al h
    rcases List.mem_pair.mp h with rfl | rfl
    · exact List.mem_append_left _ ha
    · exact List.mem_append_left _ hb
  have hreads (s : Check × List (BitVec 16)) (h : ∀ al ∈ s.2, PlainState al) :
      Reads s (sample s.2) :=
    reads_of_answered h fun k => by
      show (answered s.2).getD (k + 1 - 1) 0 = _
      rw [Nat.add_sub_cancel]
  have hstart : ∀ al ∈ s.2, PlainState al := hplain _ _ (by decide) (by decide)
  have hrunning : Running s := by
    refine ⟨rfl, rfl, ?_, hstart, le_refl 0, by decide⟩
    exact fun slave h => (List.eq_of_mem_replicate h) ▸ ⟨rfl, rfl⟩
  have hfirst : (loop s (sample s.2)).1.2 = [ecStateSafeOp, ecStateSafeOp] := by decide +kernel
  have hsecond : (loop (loop s (sample s.2)).1 (sample [ecStateSafeOp, ecStateSafeOp])).1.2 =
      [ecStateOperational, ecStateOperational] := by decide +kernel
  have halong : Mealy.Along loop Reads s [sample s.2, sample [ecStateSafeOp, ecStateSafeOp],
      sample [ecStateOperational, ecStateOperational]] := by
    refine ⟨hreads s hstart, ?_, ?_, trivial⟩
    · have hread := hreads (loop s (sample s.2)).1
        (by rw [hfirst]; exact hplain _ _ (by decide) (by decide))
      rwa [hfirst] at hread
    · have hread := hreads (loop (loop s (sample s.2)).1
        (sample [ecStateSafeOp, ecStateSafeOp])).1
        (by rw [hsecond]; exact hplain _ _ (by decide) (by decide))
      rwa [hsecond] at hread
  exact slaves_recover hrunning halong (by decide)

end TienKung.Ecatcheck
