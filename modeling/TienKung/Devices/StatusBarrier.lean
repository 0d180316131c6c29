import TienKung.Devices.StatusManager
import TienKung.Lib.Barrier

/-!
# The aggregators are gated barriers

A manager's flags and pending message are a barrier over the registered
names, and its gate is `IsReady`: `callback_simulates`. What every run of a
barrier keeps then holds of every sequence of device callbacks: no status is
lost or reordered, publications come at the end of each full round, and a
message repeats a name only where a device reported twice before it was sent.
-/

namespace TienKung.Manager

variable {K : ManagerKind}

-- ---------------------------------------------------------------------------
-- Registration
-- ---------------------------------------------------------------------------

/-- What `NewDevice` sets up and no callback changes: the devices carry the
registered names, and these are the keys of `statusReady`. -/
structure Registered (names : List Int) (m : Manager K) : Prop where
  devs : m.devs.map ManagedDevice.name = names
  keys : m.statusReady.keys.toFinset = names.toFinset

theorem Registered.init : Registered [] (init : Manager K) := ⟨rfl, rfl⟩

theorem Registered.newDevice {m : Manager K} (h : Registered names m) (name : Int) :
    Registered (names ++ [name]) (m.newDevice name) := by
  refine ⟨by simp [Manager.newDevice, h.devs], ?_⟩
  have hk : (m.newDevice name).statusReady.keys.toFinset =
      insert name m.statusReady.keys.toFinset := by
    simp only [Manager.newDevice, Flags.keys_set]
    split
    · rename_i hm; simp [Finset.insert_eq_of_mem, hm]
    · simp
  rw [hk, h.keys]
  ext x
  simp

theorem create_append (names : List Int) (name : Int) :
    (create (names ++ [name]) : Manager K) = (create names).newDevice name := by simp [create]

theorem create_registered (names : List Int) : Registered names (create names : Manager K) := by
  induction names using List.reverseRecOn with
  | nil => exact .init
  | append_singleton names name ih => rw [create_append]; exact ih.newDevice name

theorem create_start (names : List Int) : (create names : Manager K).statusReady.raised = ∅ ∧
    (create names : Manager K).msgStatus = [] := by
  induction names using List.reverseRecOn with
  | nil => exact ⟨rfl, rfl⟩
  | append_singleton names name ih => rw [create_append]; simp [newDevice, ih]

theorem Registered.dev {m : Manager K} (h : Registered names m) (i : Nat) :
    (m.devs[i]?).map ManagedDevice.name = names[i]? := by rw [← h.devs, List.getElem?_map]

theorem Registered.mem_keys {m : Manager K} {i : Nat} {d : ManagedDevice} (h : Registered names m)
    (hi : m.devs[i]? = some d) :
    d.name ∈ m.statusReady.keys := by
  have hn : names[i]? = some d.name := by rw [← h.dev, hi]; rfl
  rw [← List.mem_toFinset, h.keys, List.mem_toFinset]
  exact List.mem_of_getElem? hn

-- ---------------------------------------------------------------------------
-- The pieces of a callback
-- ---------------------------------------------------------------------------

theorem isReady_fst (m : Manager K) : m.isReady.1 = { m with ready := m.isReady.2 } := by
  unfold isReady
  split
  · rename_i h; simp [← h]
  · rfl

theorem isReady_of_ready {m : Manager K} (h : m.ready = true) : m.isReady.2 = true := by
  simp [isReady, h]

theorem isReady_congr (m : Manager K) (t : Flags Int) (l : List K.Entry) :
    ({ m with statusReady := t, msgStatus := l } : Manager K).isReady.2 = m.isReady.2 := by
  simp only [isReady, deviceReady]
  split <;> rfl

theorem checkAndSendStatus_publish {m : Manager K} (hr : m.isReady.2 = true)
    (ha : m.statusReady.all = true) :
    m.checkAndSendStatus =
      ({ m with statusReady := m.statusReady.clear, msgStatus := [], ready := true },
        [m.msgStatus]) := by
  simp [checkAndSendStatus, isReady_fst, hr, ha]

theorem checkAndSendStatus_hold {m : Manager K}
    (h : ¬ (m.isReady.2 = true ∧ m.statusReady.all = true)) :
    m.checkAndSendStatus = ({ m with ready := m.isReady.2 }, []) := by
  by_cases hr : m.isReady.2 = true
  · have ha : ¬ m.statusReady.all = true := fun ha => h ⟨hr, ha⟩
    simp [checkAndSendStatus, isReady_fst, hr, ha]
  · simp [checkAndSendStatus, isReady_fst, hr]

def toBarrier (m : Manager K) : Barrier.State Int K.Entry := ⟨m.statusReady.raised, m.msgStatus⟩

/-- A callback as the arrivals it makes at the barrier: none or one. -/
def arrivals (m : Manager K) (cb : Callback K) : List (Barrier.Arrival Int K.Entry) :=
  match cb with
  | .setReady _ => []
  | .status i report =>
    (m.devs[i]?).toList.map fun d => ⟨d.name, some (K.entry d.name report), m.isReady.2⟩
  | .miss i _ => (m.devs[i]?).toList.map fun d => ⟨d.name, none, m.isReady.2⟩

/-- Raising a flag, adding at most one entry and checking is one arrival. -/
theorem checkAndSendStatus_arrive {m : Manager K} {name : Int} (item : Option K.Entry)
    (h : Registered names m) (hn : name ∈ m.statusReady.keys) :
    let m' : Manager K := { m with
      msgStatus := m.msgStatus ++ item.toList, statusReady := m.statusReady.set name true }
    Registered names m'.checkAndSendStatus.1 ∧
      Barrier.arrive names.toFinset m.toBarrier ⟨name, item, m.isReady.2⟩ =
        (m'.checkAndSendStatus.1.toBarrier, m'.checkAndSendStatus.2) := by
  intro m'
  have hkeys : m'.statusReady.keys = m.statusReady.keys := Flags.keys_set_of_mem hn true
  have hready : m'.isReady.2 = m.isReady.2 := isReady_congr m _ _
  have hall : m'.statusReady.all = true ↔ names.toFinset ⊆ insert name m.statusReady.raised := by
    rw [Flags.all_iff, hkeys, h.keys]
    simp [m']
  by_cases hp : m'.isReady.2 = true ∧ m'.statusReady.all = true
  · rw [checkAndSendStatus_publish hp.1 hp.2, Barrier.arrive_release (hready ▸ hp.1) (hall.mp hp.2)]
    exact ⟨⟨h.devs, by simp [hkeys, h.keys]⟩, by simp [toBarrier, Barrier.State.start, m']⟩
  · have hp' : ¬ (m.isReady.2 = true ∧ names.toFinset ⊆ insert name m.statusReady.raised) := by
      rw [← hready, ← hall]; exact hp
    rw [checkAndSendStatus_hold hp, Barrier.arrive_hold hp']
    exact ⟨⟨h.devs, by simp [hkeys, h.keys]⟩, by simp [toBarrier, m']⟩

theorem callback_arrive {m : Manager K} (h : Registered names m) (cb : Callback K) :
    Registered names (m.callback cb).1 ∧
      Mealy.final (Barrier.arrive names.toFinset) m.toBarrier (m.arrivals cb) =
        (m.callback cb).1.toBarrier ∧
      Mealy.emitted (Barrier.arrive names.toFinset) m.toBarrier (m.arrivals cb) =
        (m.callback cb).2 := by
  cases cb with
  | setReady i =>
    refine ⟨⟨?_, h.keys⟩, rfl, rfl⟩
    simp only [callback, setReady, ← h.devs]
    apply List.ext_getElem?
    intro j
    simp only [List.getElem?_map, List.getElem?_modify]
    split <;> simp [Option.map_map, Function.comp_def]
  | status i report =>
    cases hi : m.devs[i]? with
    | none => simpa [callback, arrivals, hi] using h
    | some d =>
      obtain ⟨hr, ha⟩ := checkAndSendStatus_arrive (some (K.entry d.name report)) h (h.mem_keys hi)
      simp only [callback, arrivals, hi, Option.toList_some, List.map_cons, List.map_nil,
        Mealy.final_cons, Mealy.final_nil, Mealy.emitted_cons, Mealy.emitted_nil, List.append_nil, ha]
      exact ⟨hr, rfl, rfl⟩
  | miss i why =>
    cases hi : m.devs[i]? with
    | none => simpa [callback, arrivals, hi] using h
    | some d =>
      obtain ⟨hr, ha⟩ := checkAndSendStatus_arrive none h (h.mem_keys hi)
      simp only [Option.toList_none, List.append_nil] at hr ha
      simp only [callback, arrivals, hi, Option.toList_some, List.map_cons, List.map_nil,
        Mealy.final_cons, Mealy.final_nil, Mealy.emitted_cons, Mealy.emitted_nil, List.append_nil, ha]
      exact ⟨hr, rfl, rfl⟩

theorem callback_simulates (names : List Int) :
    Mealy.Simulates (callback (K := K)) (Barrier.arrive names.toFinset) (Registered names)
      toBarrier arrivals :=
  ⟨fun _ cb h => (callback_arrive h cb).1, fun _ cb h => (callback_arrive h cb).2.1,
    fun _ cb h => (callback_arrive h cb).2.2⟩

-- ---------------------------------------------------------------------------
-- Runs
-- ---------------------------------------------------------------------------

abbrev arrivalsOf (m : Manager K) (cbs : List (Callback K)) :
    List (Barrier.Arrival Int K.Entry) := Mealy.translated callback arrivals m cbs

theorem registered_final {m : Manager K} (h : Registered names m) (cbs : List (Callback K)) :
    Registered names (Mealy.final callback m cbs) :=
  Mealy.final_invariant h fun _ cb h => (callback_arrive h cb).1

theorem arrivals_item {m : Manager K} (h : Registered names m) (cb : Callback K) :
    Barrier.items (m.arrivals cb) = (cb.entry? names).toList := by
  cases cb with
  | setReady i => rfl
  | status i report =>
    have hd := h.dev i
    cases hi : m.devs[i]? <;> rw [hi] at hd <;>
      simp [arrivals, Barrier.items, Callback.entry?, hi, ← hd]
  | miss i why => cases hi : m.devs[i]? <;> simp [arrivals, Barrier.items, Callback.entry?, hi]

theorem arrivals_member {m : Manager K} (h : Registered names m) (cb : Callback K) :
    (m.arrivals cb).map Barrier.Arrival.member = (cb.flag? names).toList := by
  cases cb with
  | setReady i => rfl
  | status i report =>
    have hd := h.dev i
    cases hi : m.devs[i]? <;> rw [hi] at hd <;> simp [arrivals, Callback.flag?, hi, ← hd]
  | miss i why =>
    have hd := h.dev i
    cases hi : m.devs[i]? <;> rw [hi] at hd <;> simp [arrivals, Callback.flag?, hi, ← hd]

theorem items_arrivalsOf {m : Manager K} (h : Registered names m) (cbs : List (Callback K)) :
    Barrier.items (m.arrivalsOf cbs) = received names cbs := by
  induction cbs generalizing m with
  | nil => rfl
  | cons cb cbs ih =>
    rw [arrivalsOf, Mealy.translated, Barrier.items_append, arrivals_item h,
      ih (callback_arrive h cb).1]
    cases he : cb.entry? names <;> simp [received, he]

theorem members_arrivalsOf {m : Manager K} (h : Registered names m) (cbs : List (Callback K)) :
    (m.arrivalsOf cbs).map Barrier.Arrival.member = cbs.filterMap (Callback.flag? names) := by
  induction cbs generalizing m with
  | nil => rfl
  | cons cb cbs ih =>
    rw [arrivalsOf, Mealy.translated, List.map_append, arrivals_member h,
      ih (callback_arrive h cb).1]
    cases he : cb.flag? names <;> simp [he]

theorem received_eq {m : Manager K} (h : Registered names m) (cbs : List (Callback K)) :
    (Mealy.emitted callback m cbs).flatten ++ (Mealy.final callback m cbs).msgStatus =
      m.msgStatus ++ received names cbs := by
  rw [← (callback_simulates names).emitted h, ← items_arrivalsOf h]
  have hfin : Mealy.final (Barrier.arrive names.toFinset) m.toBarrier (m.arrivalsOf cbs) =
      (Mealy.final callback m cbs).toBarrier := (callback_simulates names).final h
  have hpending : (Mealy.final callback m cbs).msgStatus =
      (Mealy.final (Barrier.arrive names.toFinset) m.toBarrier (m.arrivalsOf cbs)).pending := by
    rw [hfin]; rfl
  rw [hpending]
  exact Barrier.conserve _

theorem callback_ready {m : Manager K} (h : m.ready = true) (cb : Callback K) :
    (m.callback cb).1.ready = true := by
  have hcheck : ∀ m' : Manager K, m'.ready = true → m'.checkAndSendStatus.1.ready = true := by
    intro m' hm'
    by_cases hp : m'.isReady.2 = true ∧ m'.statusReady.all = true
    · rw [checkAndSendStatus_publish hp.1 hp.2]
    · rw [checkAndSendStatus_hold hp]
      exact isReady_of_ready hm'
  cases cb with
  | setReady i => exact h
  | status i report =>
    simp only [callback]
    split
    · exact hcheck _ h
    · exact h
  | miss i why =>
    simp only [callback]
    split
    · exact hcheck _ h
    · exact h

theorem final_ready {m : Manager K} (h : m.ready = true) (cbs : List (Callback K)) :
    (Mealy.final callback m cbs).ready = true :=
  Mealy.final_invariant (P := fun m : Manager K => m.ready = true) h fun _ cb h => callback_ready h cb

theorem arrivals_gate {m : Manager K} {cb : Callback K} (ha : a ∈ m.arrivals cb) :
    a.gate = m.isReady.2 := by
  cases cb with
  | setReady i => cases ha
  | status i report =>
    obtain ⟨d, -, rfl⟩ := List.mem_map.mp ha
    rfl
  | miss i why =>
    obtain ⟨d, -, rfl⟩ := List.mem_map.mp ha
    rfl

theorem arrivals_open {m : Manager K} (h : m.ready = true) (cb : Callback K) :
    Barrier.Open (m.arrivals cb) := fun _ ha => (arrivals_gate ha).trans (isReady_of_ready h)

theorem arrivalsOf_open {m : Manager K} (h : m.ready = true) (cbs : List (Callback K)) :
    Barrier.Open (m.arrivalsOf cbs) := by
  induction cbs generalizing m with
  | nil => intro a ha; cases ha
  | cons cb cbs ih => exact Barrier.Open.append.mpr ⟨arrivals_open h cb, ih (callback_ready h cb)⟩

/-- What a callback brings to the barrier once the gate is open. -/
def Callback.arrival? (names : List Int) (cb : Callback K) :
    Option (Barrier.Arrival Int K.Entry) :=
  (cb.flag? names).map fun name => ⟨name, cb.entry? names, true⟩

theorem arrivalsOf_of_ready {m : Manager K} (h : Registered names m) (hr : m.ready = true)
    (cbs : List (Callback K)) : m.arrivalsOf cbs = cbs.filterMap (Callback.arrival? names) := by
  have hone : ∀ (m : Manager K) (cb : Callback K), Registered names m ∧ m.ready = true →
      m.arrivals cb = (cb.arrival? names).toList := by
    rintro m cb ⟨h, hr⟩
    have hg := isReady_of_ready hr
    cases cb with
    | setReady i => rfl
    | status i report =>
      have hd := h.dev i
      cases hi : m.devs[i]? <;> rw [hi] at hd <;>
        simp [arrivals, Callback.arrival?, Callback.flag?, Callback.entry?, hi, hg, ← hd]
    | miss i why =>
      have hd := h.dev i
      cases hi : m.devs[i]? <;> rw [hi] at hd <;>
        simp [arrivals, Callback.arrival?, Callback.flag?, Callback.entry?, hi, hg, ← hd]
  induction cbs generalizing m with
  | nil => rfl
  | cons cb cbs ih =>
    have htail := ih (callback_arrive h cb).1 (callback_ready hr cb)
    rw [arrivalsOf] at htail
    rw [arrivalsOf, Mealy.translated, hone m cb ⟨h, hr⟩, htail]
    cases he : cb.arrival? names <;> simp [he]

/-- A manager that has just published: latched, with no flag up and nothing
pending. -/
structure Fresh (m : Manager K) : Prop where
  ready : m.ready = true
  start : m.toBarrier = .start

theorem Fresh.not_all_raised {m : Manager K} (hf : Fresh m) (h : Registered names m)
    (hn : names ≠ []) (cbs : List (Callback K)) :
    ¬ names.toFinset ⊆ (Mealy.final callback m cbs).statusReady.raised := by
  have hne : names.toFinset.Nonempty := by
    obtain ⟨name, hname⟩ := List.exists_mem_of_ne_nil names hn
    exact ⟨name, List.mem_toFinset.mpr hname⟩
  have hopen : Barrier.Open ((m.arrivalsOf cbs).map id) := by
    rw [List.map_id]; exact arrivalsOf_open hf.ready cbs
  obtain ⟨_, _, -, -, -, hfin, hrest⟩ := Barrier.segments hne hopen
  rw [List.map_id, ← hf.start, (callback_simulates names).final h] at hfin
  have hflag : (Mealy.final callback m cbs).statusReady.raised = _ :=
    congrArg Barrier.State.flagged hfin
  rw [hflag]
  exact hrest

theorem callback_publish {m : Manager K} {cb : Callback K} (hp : (m.callback cb).2 ≠ []) :
    Fresh (m.callback cb).1 ∧ ∃ msg, (m.callback cb).2 = [msg] := by
  have hcheck : ∀ m' : Manager K, m'.checkAndSendStatus.2 ≠ [] →
      Fresh m'.checkAndSendStatus.1 ∧ ∃ msg, m'.checkAndSendStatus.2 = [msg] := by
    intro m' hm'
    by_cases hp : m'.isReady.2 = true ∧ m'.statusReady.all = true
    · rw [checkAndSendStatus_publish hp.1 hp.2]
      exact ⟨⟨rfl, by simp [toBarrier, Barrier.State.start]⟩, _, rfl⟩
    · rw [checkAndSendStatus_hold hp] at hm'
      exact absurd rfl hm'
  cases cb with
  | setReady i => exact absurd rfl hp
  | status i report =>
    simp only [callback] at hp ⊢
    split at hp
    · exact hcheck _ hp
    · exact absurd rfl hp
  | miss i why =>
    simp only [callback] at hp ⊢
    split at hp
    · exact hcheck _ hp
    · exact absurd rfl hp

-- ---------------------------------------------------------------------------
-- Readiness
-- ---------------------------------------------------------------------------

theorem mapByName_lt (names : List Int) :
    ∀ e ∈ (create names : Manager K).mapByName, e.2 < names.length := by
  induction names using List.reverseRecOn with
  | nil => intro e he; cases he
  | append_singleton names name ih =>
    intro e he
    rw [create_append] at he
    have hlen : (create names : Manager K).devs.length = names.length := by
      rw [← List.length_map (f := ManagedDevice.name), (create_registered names).devs]
    have hold := fun h => (ih e h).trans (Nat.lt_succ_self _)
    rw [List.length_append, List.length_singleton]
    simp only [newDevice] at he
    split at he
    · exact hold he
    · rcases List.mem_append.mp he with h | h
      · exact hold h
      · rw [List.mem_singleton.mp h, hlen]
        exact Nat.lt_succ_self _

theorem checkAndSendStatus_devs (m : Manager K) :
    m.checkAndSendStatus.1.devs = m.devs ∧ m.checkAndSendStatus.1.mapByName = m.mapByName := by
  by_cases hp : m.isReady.2 = true ∧ m.statusReady.all = true
  · rw [checkAndSendStatus_publish hp.1 hp.2]
    exact ⟨rfl, rfl⟩
  · rw [checkAndSendStatus_hold hp]
    exact ⟨rfl, rfl⟩

def Callback.readied? : Callback K → Option Nat
  | .setReady i => some i
  | _ => none

theorem callback_devs (m : Manager K) (cb : Callback K) :
    (m.callback cb).1.mapByName = m.mapByName ∧
      ∀ i < m.devs.length, (m.deviceReady i = true ∨ cb.readied? = some i) →
        (m.callback cb).1.deviceReady i = true := by
  cases cb with
  | setReady j =>
    refine ⟨rfl, fun i hi h => ?_⟩
    simp only [callback, setReady, deviceReady, List.getElem?_modify]
    rw [List.getElem?_eq_getElem hi]
    rcases h with h | h
    · rw [deviceReady, List.getElem?_eq_getElem hi] at h
      split
      · rfl
      · exact h
    · rw [Callback.readied?, Option.some.injEq] at h
      simp [h]
  | status j report =>
    simp only [callback, onStatus, Callback.readied?, reduceCtorEq, or_false]
    split
    · obtain ⟨hdevs, hmap⟩ := checkAndSendStatus_devs (K := K) { m with
        msgStatus := m.msgStatus ++ [K.entry _ report], statusReady := m.statusReady.set _ true }
      exact ⟨hmap, fun i _ h => by rw [deviceReady, hdevs]; exact h⟩
    · exact ⟨rfl, fun i _ h => h⟩
  | miss j why =>
    simp only [callback, onMiss, Callback.readied?, reduceCtorEq, or_false]
    split
    · obtain ⟨hdevs, hmap⟩ := checkAndSendStatus_devs (K := K) { m with
        statusReady := m.statusReady.set _ true }
      exact ⟨hmap, fun i _ h => by rw [deviceReady, hdevs]; exact h⟩
    · exact ⟨rfl, fun i _ h => h⟩

def AllReady (names : List Int) (cbs : List (Callback K)) : Prop :=
  ∀ i < names.length, i ∈ cbs.filterMap Callback.readied?

instance (names : List Int) (cbs : List (Callback K)) : Decidable (AllReady names cbs) := by
  unfold AllReady; infer_instance

theorem Registered.length {m : Manager K} (h : Registered names m) :
    m.devs.length = names.length := by rw [← h.devs, List.length_map]

theorem deviceReady_final {m : Manager K} (h : Registered names m) {i : Nat}
    (hi : i < names.length) {cbs : List (Callback K)}
    (hready : m.deviceReady i = true ∨ i ∈ cbs.filterMap Callback.readied?) :
    (Mealy.final callback m cbs).deviceReady i = true := by
  induction cbs generalizing m with
  | nil => simpa using hready
  | cons cb cbs ih =>
    have hstep := (callback_devs m cb).2 i (h.length ▸ hi)
    refine ih (callback_arrive h cb).1 ?_
    cases hcb : cb.readied? with
    | none =>
      rw [List.filterMap_cons_none hcb] at hready
      exact hready.imp (fun h => hstep (.inl h)) id
    | some j =>
      rw [List.filterMap_cons_some hcb, List.mem_cons] at hready
      rcases hready with h | rfl | h
      · exact .inl (hstep (.inl h))
      · exact .inl (hstep (.inr hcb))
      · exact .inr h

theorem isReady_of_allReady {cbs : List (Callback K)} (h : AllReady names cbs) :
    (after K names cbs).isReady.2 = true := by
  have hmap : (after K names cbs).mapByName = (create names : Manager K).mapByName :=
    Mealy.final_invariant (P := fun m : Manager K => m.mapByName = (create names).mapByName) rfl
      fun m cb hm => (callback_devs m cb).1.trans hm
  rw [isReady]
  split
  · rfl
  · refine List.all_eq_true.mpr fun e he => ?_
    rw [hmap] at he
    have hlt := mapByName_lt names e he
    exact deviceReady_final (create_registered names) hlt (.inr (h e.2 hlt))

end TienKung.Manager
