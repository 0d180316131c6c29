import TienKung.FastRos.FastConnection
import Mathlib.Algebra.Group.Nat.Defs

/-!
# What a publish delivers

One call after the other, `FastConnection` is a registry: subscriptions are
added at the end, a shutdown closure removes its own, and a publish calls those
of its topic in order. The registry numbers its subscriptions; the connection
does so modulo 2³², which is why their number is bounded.
-/

namespace TienKung.FastRos

variable {κ μ : Type}

/-- A call of the connection. Closures are named by the `subscribe` that returned them. -/
inductive Operation (κ μ : Type)
  | subscribe (topic : String) (func : κ)
  | shutdown (subscription : Nat)
  | publish (topic : String) (message : μ)

def Operation.isSubscribe : Operation κ μ → Bool
  | .subscribe .. => true
  | _ => false

-- ---------------------------------------------------------------------------
-- The connection
-- ---------------------------------------------------------------------------

def quiet (func : κ) (message : μ) : List (κ × μ) × Bool := ([(func, message)], false)

/-- A connection and the closures it returned; each publish emits the calls it made. -/
def FastConnection.step : Mealy.Step (FastConnection κ × List Shutdown) (Operation κ μ) (List (κ × μ))
  | (c, closures), .subscribe topic func =>
    let (c, closure) := c.subscribe topic func
    ((c, closures ++ [closure]), [])
  | (c, closures), .shutdown k =>
    match closures[k]? with
    | some closure => ((c.shutdown closure, closures), [])
    | none => ((c, closures), [])
  | (c, closures), .publish topic message =>
    let (c, calls) := c.publish quiet topic message
    ((c, closures), [calls])

-- ---------------------------------------------------------------------------
-- The registry
-- ---------------------------------------------------------------------------

structure Subscription (κ : Type) where
  serial : Nat
  topic : String
  func : κ

/-- The subscriptions not shut down, in subscription order. -/
structure Registry (κ : Type) where
  count : Nat := 0
  live : List (Subscription κ) := []

def Registry.step : Mealy.Step (Registry κ) (Operation κ μ) (List (κ × μ))
  | r, .subscribe topic func => (⟨r.count + 1, r.live ++ [⟨r.count, topic, func⟩]⟩, [])
  | r, .shutdown k => ({ r with live := r.live.filter (·.serial ≠ k) }, [])
  | r, .publish topic message =>
    (r, [(r.live.filter (·.topic = topic)).map fun s => (s.func, message)])

-- ---------------------------------------------------------------------------
-- Identifiers
-- ---------------------------------------------------------------------------

def idOf (serial : Nat) : UInt32 := UInt32.ofNat (serial + 1)

theorem idOf_inj {i j : Nat} (hi : i + 1 < 2 ^ 32) (hj : j + 1 < 2 ^ 32) (h : idOf i = idOf j) :
    i = j := by
  have hnat := congrArg UInt32.toNat h
  simp only [idOf, UInt32.toNat_ofNat', Nat.mod_eq_of_lt hi, Nat.mod_eq_of_lt hj] at hnat
  omega

def entries (topic : String) (live : List (Subscription κ)) : List (FunctionPair κ) :=
  (live.filter (·.topic = topic)).map fun s => ⟨idOf s.serial, s.func⟩

theorem entries_append (topic : String) (live : List (Subscription κ)) (s : Subscription κ) :
    entries topic (live ++ [s]) =
      entries topic live ++ if s.topic = topic then [⟨idOf s.serial, s.func⟩] else [] := by
  by_cases h : s.topic = topic <;> simp [entries, h]

/-- Erasing the first of several distinct keys erases every such key. -/
theorem eraseP_eq_filter {l : List (FunctionPair κ)} (h : (l.map FunctionPair.id).Nodup)
    (id : UInt32) : (l.eraseP fun fp => fp.id = id) = l.filter fun fp => fp.id ≠ id := by
  induction l with
  | nil => rfl
  | cons fp l ih =>
    obtain ⟨hnew, hrest⟩ := List.nodup_cons.mp h
    by_cases hid : fp.id = id
    · have hall : ∀ x ∈ l, x.id ≠ id := fun x hx he =>
        hnew (List.mem_map.mpr ⟨x, hx, he.trans hid.symm⟩)
      simpa [hid] using (List.filter_eq_self.mpr fun x hx => by simpa using hall x hx).symm
    · simpa [hid] using ih hrest

theorem callAll_quiet (message : μ) (fps : List (FunctionPair κ)) :
    FastConnection.callAll quiet message fps = fps.map fun fp => (fp.func, message) := by
  induction fps with
  | nil => rfl
  | cons fp fps ih => simpa [FastConnection.callAll, quiet] using ih

-- ---------------------------------------------------------------------------
-- The invariant
-- ---------------------------------------------------------------------------

/-- The last matrix holds the live subscriptions, and it is what the publisher takes over
next; before the first subscription there is nothing to take over. -/
structure Agrees (c : FastConnection κ) (closures : List Shutdown) (r : Registry κ) : Prop where
  idGen : c.idGen = UInt32.ofNat r.count
  subsLast : c.subsLast < c.matrices.length
  table : ∀ topic, (c.matrix c.subsLast topic).getD [] = entries topic r.live
  latest : c.latest = some c.subsLast ∨ c.latest = none ∧ r.live = []
  serials : (r.live.map Subscription.serial).Nodup
  below : ∀ s ∈ r.live, s.serial < r.count
  returned : closures.length = r.count
  ids : ∀ k s, closures[k]? = some s → s.id = idOf k
  topics : ∀ s ∈ r.live, closures[s.serial]? = some ⟨s.topic, idOf s.serial⟩

theorem agrees_new : Agrees (FastConnection.new : FastConnection κ) [] {} where
  idGen := rfl
  subsLast := Nat.zero_lt_one
  table _ := rfl
  latest := .inr ⟨rfl, rfl⟩
  serials := List.nodup_nil
  below s hs := by cases hs
  returned := rfl
  ids k s hs := by cases hs
  topics s hs := by cases hs

section
variable {c : FastConnection κ} {closures : List Shutdown} {r : Registry κ}

theorem Agrees.subscribe (h : Agrees c closures r) (topic : String) (func : κ) :
    Agrees (c.subscribe topic func).1 (closures ++ [(c.subscribe topic func).2])
      ⟨r.count + 1, r.live ++ [⟨r.count, topic, func⟩]⟩ where
  idGen := by
    show c.idGen + 1 = _
    rw [h.idGen]
    simp
  subsLast := by simp [FastConnection.subscribe]
  table t := by
    rw [FastConnection.matrix_subscribe, entries_append, h.idGen]
    by_cases ht : t = topic
    · subst ht
      simp [h.table, idOf]
    · simp [Function.update_of_ne ht, h.table, Ne.symm ht]
  latest := .inl (FastConnection.latest_push rfl)
  serials := by
    rw [List.map_append, List.nodup_append]
    refine ⟨h.serials, by simp, ?_⟩
    rintro _ hs _ hn rfl
    obtain ⟨s, hs, hserial⟩ := List.mem_map.mp hs
    have hlt := h.below s hs
    simp [hserial] at hn hlt
    omega
  below s hs := by
    rcases List.mem_append.mp hs with hs | hs
    · exact Nat.lt_succ_of_lt (h.below s hs)
    · rw [List.mem_singleton.mp hs]
      exact Nat.lt_succ_self _
  returned := by simp [h.returned]
  ids k s hs := by
    rcases Nat.lt_or_ge k closures.length with hk | hk
    · rw [List.getElem?_append_left hk] at hs
      exact h.ids k s hs
    · rw [List.getElem?_append_right hk, List.getElem?_singleton] at hs
      split_ifs at hs with hzero
      obtain rfl : k = r.count := by have := h.returned; omega
      cases hs
      show c.idGen + 1 = _
      rw [h.idGen]
      simp [idOf]
  topics s hs := by
    rcases List.mem_append.mp hs with hs | hs
    · have hlt := h.below s hs
      rw [← h.returned] at hlt
      rw [List.getElem?_append_left hlt]
      exact h.topics s hs
    · rw [List.mem_singleton.mp hs]
      show (closures ++ _)[r.count]? = some ⟨topic, _⟩
      rw [← h.returned, List.getElem?_append_right (Nat.le_refl _)]
      simp [FastConnection.subscribe, h.idGen, h.returned, idOf]

theorem Agrees.entries_nodup (h : Agrees c closures r) (hr : r.count < 2 ^ 32) (topic : String) :
    ((entries topic r.live).map FunctionPair.id).Nodup := by
  have hmap : (entries topic r.live).map FunctionPair.id =
      ((r.live.filter (·.topic = topic)).map Subscription.serial).map idOf := by simp [entries]
  have hserials : ((r.live.filter (·.topic = topic)).map Subscription.serial).Nodup :=
    h.serials.sublist (List.filter_sublist.map _)
  have hlt : ∀ i ∈ (r.live.filter (·.topic = topic)).map Subscription.serial, i + 1 < 2 ^ 32 := by
    intro i hi
    obtain ⟨s, hs, rfl⟩ := List.mem_map.mp hi
    have hbelow := h.below s (List.mem_of_mem_filter hs)
    omega
  rw [hmap]
  exact List.Nodup.map_on (fun i hi j hj => idOf_inj (hlt i hi) (hlt j hj)) hserials

theorem Agrees.entries_drop (h : Agrees c closures r) (hr : r.count < 2 ^ 32) {k : Nat}
    {s : Shutdown} (hs : closures[k]? = some s) (topic : String) :
    entries topic (r.live.filter (·.serial ≠ k)) =
      if topic = s.topic then (entries topic r.live).filter fun fp => fp.id ≠ s.id
      else entries topic r.live := by
  have hk : k < r.count := by
    rw [← h.returned]
    exact (List.getElem?_eq_some_iff.mp hs).1
  rw [h.ids k s hs]
  by_cases ht : topic = s.topic
  · rw [if_pos ht, entries, entries, List.filter_map, List.filter_comm]
    congr 1
    apply List.filter_congr
    intro x hx
    have hx := h.below x (List.mem_of_mem_filter hx)
    have hiff : idOf x.serial = idOf k ↔ x.serial = k :=
      ⟨idOf_inj (by omega) (by omega), congrArg idOf⟩
    simp [hiff]
  · rw [if_neg ht, entries, entries, List.filter_comm]
    congr 1
    apply List.filter_eq_self.mpr
    intro x hx
    obtain ⟨hlive, htopic⟩ := List.mem_filter.mp hx
    have hne : x.serial ≠ k := by
      rintro rfl
      rw [h.topics x hlive] at hs
      cases hs
      exact ht (of_decide_eq_true htopic).symm
    simpa using hne

theorem Agrees.shutdown (h : Agrees c closures r) (hr : r.count < 2 ^ 32) {k : Nat} {s : Shutdown}
    (hs : closures[k]? = some s) :
    Agrees (c.shutdown s) closures { r with live := r.live.filter (·.serial ≠ k) } := by
  have hlive : ∀ x ∈ r.live.filter (·.serial ≠ k), x ∈ r.live := fun x => List.mem_of_mem_filter
  have hserials : ((r.live.filter (·.serial ≠ k)).map Subscription.serial).Nodup :=
    h.serials.sublist (List.filter_sublist.map _)
  by_cases hrem : c.Removes s
  · have hshut := FastConnection.shutdown_of_removes hrem
    refine ⟨?_, ?_, fun topic => ?_, .inl (FastConnection.latest_push (q := c.queueSubs) ?_),
      hserials, fun x hx => h.below x (hlive x hx), h.returned, h.ids,
      fun x hx => h.topics x (hlive x hx)⟩
    · rw [hshut]
      exact h.idGen
    · rw [hshut]
      simpa using h.subsLast
    · have hlast : (c.shutdown s).subsLast = c.subsLast := by rw [hshut]
      rw [hlast, FastConnection.matrix_shutdown hrem h.subsLast, if_pos rfl, h.entries_drop hr hs]
      by_cases ht : topic = s.topic
      · subst ht
        simp [h.table, eraseP_eq_filter (h.entries_nodup hr _)]
      · rw [Function.update_of_ne ht, if_neg ht, h.table]
    · rw [hshut]
  · rw [FastConnection.shutdown_of_not_removes hrem]
    refine ⟨h.idGen, h.subsLast, fun topic => ?_, ?_, hserials,
      fun x hx => h.below x (hlive x hx), h.returned, h.ids, fun x hx => h.topics x (hlive x hx)⟩
    · rw [h.entries_drop hr hs, h.table]
      by_cases ht : topic = s.topic
      · subst ht
        rw [if_pos rfl]
        refine (List.filter_eq_self.mpr fun fp hfp => ?_).symm
        rw [FastConnection.Removes, h.table] at hrem
        exact decide_eq_true fun hid => hrem ⟨fp, hfp, hid⟩
      · rw [if_neg ht]
    · exact h.latest.imp_right fun hnone => ⟨hnone.1, by simp [hnone.2]⟩

theorem Agrees.drain (h : Agrees c closures r) : Agrees c.drain closures r ∧
    ∀ topic, c.drain.subscribers topic = entries topic r.live := by
  obtain ⟨q, hnil, hdrain⟩ := c.drain_eq
  have hlatest : c.drain.latest = c.latest := by simp [hdrain, FastConnection.latest, hnil]
  have hagrees : Agrees c.drain closures r := by
    refine ⟨?_, ?_, ?_, ?_, h.serials, h.below, h.returned, h.ids, h.topics⟩
    · rw [hdrain]
      exact h.idGen
    · rw [hdrain]
      exact h.subsLast
    · rw [hdrain]
      exact h.table
    · have hlast : c.drain.subsLast = c.subsLast := by rw [hdrain]
      rw [hlatest, hlast]
      exact h.latest
  refine ⟨hagrees, fun topic => ?_⟩
  have hcurrent : c.drain.subsCurrent = c.drain.latest := by rw [hlatest, hdrain]
  rcases hagrees.latest with hl | ⟨hl, hempty⟩
  · simp [FastConnection.subscribers, FastConnection.atTopic, hcurrent, hl, hagrees.table]
  · simp [FastConnection.subscribers, FastConnection.atTopic, hcurrent, hl, hempty, entries]

theorem Agrees.publish (h : Agrees c closures r) (topic : String) (message : μ) :
    (c.publish quiet topic message).2 =
      (r.live.filter (·.topic = topic)).map fun s => (s.func, message) := by
  simp [FastConnection.publish, callAll_quiet, h.drain.2, entries]

theorem Agrees.shutdown_dead (h : Agrees c closures r) (hr : r.count < 2 ^ 32) {k : Nat}
    {s : Shutdown} (hs : closures[k]? = some s) (hdead : ∀ x ∈ r.live, x.serial ≠ k) :
    c.shutdown s = c := by
  refine FastConnection.shutdown_of_not_removes ?_
  rintro ⟨fp, hfp, hid⟩
  have hall : r.live.filter (·.serial ≠ k) = r.live :=
    List.filter_eq_self.mpr fun x hx => decide_eq_true (hdead x hx)
  have hdrop := h.entries_drop hr hs s.topic
  rw [hall, if_pos rfl] at hdrop
  rw [h.table, hdrop] at hfp
  exact of_decide_eq_true (List.mem_filter.mp hfp).2 hid

-- ---------------------------------------------------------------------------
-- Runs
-- ---------------------------------------------------------------------------

theorem Agrees.step (h : Agrees c closures r) (hr : r.count < 2 ^ 32) (op : Operation κ μ) :
    Agrees (FastConnection.step (c, closures) op).1.1 (FastConnection.step (c, closures) op).1.2
        (Registry.step r op).1 ∧
      (FastConnection.step (c, closures) op).2 = (Registry.step r op).2 := by
  cases op with
  | subscribe topic func => exact ⟨h.subscribe topic func, rfl⟩
  | shutdown k =>
    cases hk : closures[k]? with
    | some s =>
      simp only [FastConnection.step, Registry.step, hk]
      exact ⟨h.shutdown hr hk, trivial⟩
    | none =>
      have hall : r.live.filter (·.serial ≠ k) = r.live := by
        refine List.filter_eq_self.mpr fun x hx => decide_eq_true ?_
        rintro rfl
        rw [h.topics x hx] at hk
        cases hk
      simp only [FastConnection.step, Registry.step, hk, hall]
      exact ⟨h, trivial⟩
  | publish topic message =>
    exact ⟨h.drain.1, congrArg (fun calls => [calls]) (h.publish topic message)⟩

end

@[simp] theorem count_step (r : Registry κ) (op : Operation κ μ) :
    (r.step op).1.count = r.count + op.isSubscribe.toNat := by
  cases op <;> rfl

theorem Agrees.run (h : Agrees c closures r) (ops : List (Operation κ μ))
    (hops : r.count + ops.countP Operation.isSubscribe < 2 ^ 32) :
    Agrees (Mealy.final FastConnection.step (c, closures) ops).1
        (Mealy.final FastConnection.step (c, closures) ops).2 (Mealy.final Registry.step r ops) ∧
      (Mealy.final Registry.step r ops).count < 2 ^ 32 ∧
      Mealy.emitted FastConnection.step (c, closures) ops = Mealy.emitted Registry.step r ops := by
  induction ops generalizing c closures r with
  | nil => exact ⟨h, by simpa using hops, rfl⟩
  | cons op ops ih =>
    have hcount : r.count + op.isSubscribe.toNat + ops.countP Operation.isSubscribe < 2 ^ 32 := by
      cases hop : op.isSubscribe <;> simp [hop] at hops ⊢ <;> omega
    obtain ⟨hstep, hout⟩ := h.step (by omega) op
    obtain ⟨hagrees, hlt, hrest⟩ := ih hstep (by rw [count_step]; exact hcount)
    refine ⟨hagrees, hlt, ?_⟩
    rw [Mealy.emitted_cons, Mealy.emitted_cons, hout]
    exact congrArg _ hrest

/-- A publish calls what is subscribed to its topic, and a closure called again does
nothing. -/
theorem publish_delivers_live (ops : List (Operation κ μ))
    (hops : ops.countP Operation.isSubscribe < 2 ^ 32) :
    Mealy.emitted FastConnection.step (.new, []) ops = Mealy.emitted Registry.step {} ops ∧
      ∀ k, (∀ s ∈ (Mealy.final Registry.step {} ops).live, s.serial ≠ k) →
        FastConnection.step (Mealy.final FastConnection.step (.new, []) ops)
          (.shutdown k : Operation κ μ) =
          (Mealy.final FastConnection.step (.new, []) ops, []) := by
  obtain ⟨hagrees, hlt, hout⟩ := agrees_new.run ops (by simpa using hops)
  refine ⟨hout, fun k hdead => ?_⟩
  generalize Mealy.final FastConnection.step (.new, []) ops = s at hagrees ⊢
  cases hk : s.2[k]? with
  | some closure => simp only [FastConnection.step, hk, hagrees.shutdown_dead hlt hk hdead]
  | none => simp only [FastConnection.step, hk]

theorem publish_delivers_live_two :
    Mealy.emitted FastConnection.step (.new, [])
        [.subscribe "a" 1, .subscribe "b" 2, .subscribe "a" 3, .publish "a" true, .shutdown 0,
          .shutdown 0, .publish "a" false] = [[(1, true), (3, true)], [(3, false)]] :=
  (publish_delivers_live _ (by decide)).1.trans (by decide)

end TienKung.FastRos
