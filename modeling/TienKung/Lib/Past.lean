import TienKung.Lib.Mealy
import Mathlib.Data.List.Induction

/-!
# Traces and their past

`Since` is the operator of temporal logic: an event has occurred and no reset
after it. `Latest` is the last event of a kind, `LastPrefix` the past up to it
where the kind depends on what came before. `Throughout` asks something of every
event of a trace in view of all that came before it. A recorded machine keeps
its past in its state, so that what a run needs can be said of the past as well.
-/

namespace Past

variable {σ ι κ ω : Type*}

/-- `a` is in the past and no `reset` after it. -/
def Since (a reset : ω) (past : List ω) : Prop :=
  ∃ before after, past = before ++ a :: after ∧ reset ∉ after

@[simp] theorem since_nil : ¬ Since a reset ([] : List ω) := by
  rintro ⟨before, after, h, -⟩
  simp at h

theorem since_concat {past : List ω} :
    Since a reset (past ++ [e]) ↔ e = a ∨ e ≠ reset ∧ Since a reset past := by
  constructor
  · rintro ⟨before, after, heq, hreset⟩
    rcases List.eq_nil_or_concat after with rfl | ⟨after, last, rfl⟩
    · exact .inl (List.append_inj_right' heq rfl |> List.singleton_inj.mp)
    · rw [List.concat_eq_append, ← List.cons_append, ← List.append_assoc] at heq
      obtain ⟨hpast, hlast⟩ := List.append_inj' heq rfl
      obtain rfl := List.singleton_inj.mp hlast
      simp only [List.concat_eq_append, List.mem_append, List.mem_singleton, not_or] at hreset
      exact .inr ⟨Ne.symm hreset.2, before, after, hpast, hreset.1⟩
  · rintro (rfl | ⟨hne, before, after, rfl, hreset⟩)
    · exact ⟨past, [], rfl, List.not_mem_nil⟩
    · refine ⟨before, after ++ [e], by simp, ?_⟩
      simp [hreset, Ne.symm hne]

theorem Since.concat {past : List ω} (h : Since a reset past) (hne : e ≠ reset) :
    Since a reset (past ++ [e]) :=
  since_concat.mpr (.inr ⟨hne, h⟩)

/-- The latest event that `p` holds of, and what came after it. -/
structure Latest (p : ω → Prop) (a : ω) (after past : List ω) : Prop where
  split : ∃ before, past = before ++ a :: after
  holds : p a
  none_after : ∀ e ∈ after, ¬ p e

theorem latest_concat {p : ω → Prop} {after past : List ω} :
    Latest p a after (past ++ [e]) ↔
      p e ∧ a = e ∧ after = [] ∨ ¬ p e ∧ ∃ rest, after = rest ++ [e] ∧ Latest p a rest past := by
  constructor
  · rintro ⟨⟨before, heq⟩, hholds, hnone⟩
    rcases List.eq_nil_or_concat after with rfl | ⟨rest, last, rfl⟩
    · obtain rfl : e = a := List.append_inj_right' heq rfl |> List.singleton_inj.mp
      exact .inl ⟨hholds, rfl, rfl⟩
    · rw [List.concat_eq_append] at heq hnone ⊢
      rw [← List.cons_append, ← List.append_assoc] at heq
      obtain ⟨hpast, hlast⟩ := List.append_inj' heq rfl
      obtain rfl := List.singleton_inj.mp hlast
      refine .inr ⟨hnone e (by simp), rest, rfl, ⟨before, hpast⟩, hholds, fun x hx => ?_⟩
      exact hnone x (List.mem_append_left _ hx)
  · rintro (⟨hholds, rfl, rfl⟩ | ⟨hnot, rest, rfl, ⟨before, rfl⟩, hholds, hnone⟩)
    · exact ⟨⟨past, rfl⟩, hholds, fun _ h => nomatch h⟩
    · refine ⟨⟨before, by simp⟩, hholds, fun x hx => ?_⟩
      rcases List.mem_append.mp hx with hx | hx
      · exact hnone x hx
      · rwa [List.mem_singleton.mp hx]

@[simp] theorem not_latest_nil {p : ω → Prop} {after : List ω} : ¬ Latest p a after [] := by
  rintro ⟨⟨before, h⟩, -, -⟩
  simp at h

theorem Latest.mem {p : ω → Prop} {after past : List ω} (h : Latest p a after past) : a ∈ past := by
  obtain ⟨before, rfl⟩ := h.split
  simp

theorem latest_congr {p q : ω → Prop} {after past : List ω} (h : ∀ e ∈ past, p e ↔ q e) :
    Latest p a after past ↔ Latest q a after past := by
  have himp {p q : ω → Prop} (h : ∀ e ∈ past, p e ↔ q e) (hp : Latest p a after past) :
      Latest q a after past := by
    refine ⟨hp.split, (h a hp.mem).mp hp.holds, fun e he => ?_⟩
    obtain ⟨before, heq⟩ := hp.split
    exact mt (h e (by simp [heq, he])).mpr (hp.none_after e he)
  exact ⟨himp h, himp fun e he => (h e he).symm⟩

/-- The last value that a trace yields is that of its latest event to yield one. -/
theorem getLast?_filterMap {f : ω → Option κ} {past : List ω} :
    (past.filterMap f).getLast? = some b ↔
      ∃ a after, Latest (fun e => (f e).isSome) a after past ∧ f a = some b := by
  induction past using List.reverseRecOn with
  | nil => simp
  | append_singleton past e ih =>
    rw [List.filterMap_append, List.getLast?_append]
    constructor
    · intro h
      cases he : f e with
      | some b' =>
        obtain rfl : b' = b := by simpa [he] using h
        exact ⟨e, [], latest_concat.mpr (.inl ⟨by simp [he], rfl, rfl⟩), he⟩
      | none =>
        obtain ⟨a, after, hlatest, ha⟩ := ih.mp (by simpa [he] using h)
        exact ⟨a, after ++ [e], latest_concat.mpr (.inr ⟨by simp [he], after, rfl, hlatest⟩), ha⟩
    · rintro ⟨a, after, hlatest, ha⟩
      rcases latest_concat.mp hlatest with ⟨-, rfl, -⟩ | ⟨hnone, rest, -, hlatest⟩
      · simp [ha]
      · have he : f e = none := by simpa using hnone
        simpa [he] using ih.mpr ⟨a, rest, hlatest, ha⟩

/-- The longest prefix of `past` that `p` holds of. -/
structure LastPrefix (p : List ω → Prop) (before past : List ω) : Prop where
  isPrefix : before <+: past
  holds : p before
  last : ∀ xs, xs <+: past → p xs → xs <+: before

theorem lastPrefix_concat {p : List ω → Prop} {before past : List ω} :
    LastPrefix p before (past ++ [e]) ↔
      p (past ++ [e]) ∧ before = past ++ [e] ∨ ¬ p (past ++ [e]) ∧ LastPrefix p before past := by
  by_cases hp : p (past ++ [e])
  · simp only [hp, true_and, not_true_eq_false, false_and, or_false]
    constructor
    · exact fun h => h.isPrefix.eq_of_length_le (h.last _ List.prefix_rfl hp).length_le
    · rintro rfl
      exact ⟨List.prefix_rfl, hp, fun xs hxs _ => hxs⟩
  · simp only [hp, false_and, not_false_eq_true, true_and, false_or]
    constructor
    · intro h
      refine ⟨?_, h.holds, fun xs hxs => h.last xs (hxs.trans (List.prefix_append ..))⟩
      rcases List.prefix_concat_iff.mp h.isPrefix with rfl | hbefore
      · exact absurd h.holds hp
      · exact hbefore
    · intro h
      refine ⟨h.isPrefix.trans (List.prefix_append ..), h.holds, fun xs hxs hholds => ?_⟩
      rcases List.prefix_concat_iff.mp hxs with rfl | hxs
      · exact absurd hholds hp
      · exact h.last xs hxs hholds

/-- Every event of the trace is `ok` after what came before it. -/
def Throughout (ok : List ω → ω → Prop) (past : List ω) : List ω → Prop
  | [] => True
  | e :: rest => ok past e ∧ Throughout ok (past ++ [e]) rest

section
variable {ok : List ω → ω → Prop} {past xs ys : List ω}

@[simp] theorem throughout_nil : Throughout ok past [] := trivial

@[simp] theorem throughout_cons :
    Throughout ok past (e :: xs) ↔ ok past e ∧ Throughout ok (past ++ [e]) xs := Iff.rfl

theorem throughout_append :
    Throughout ok past (xs ++ ys) ↔ Throughout ok past xs ∧ Throughout ok (past ++ xs) ys := by
  induction xs generalizing past with
  | nil => simp
  | cons x xs ih => simp [ih, and_assoc]

/-- Two demands agree on a trace when they do after events that `P` holds of. -/
theorem throughout_congr {ok' : List ω → ω → Prop} {P : ω → Prop} (hpast : ∀ x ∈ past, P x)
    (hxs : ∀ x ∈ xs, P x)
    (h : ∀ past x, (∀ y ∈ past, P y) → P x → (ok past x ↔ ok' past x)) :
    Throughout ok past xs ↔ Throughout ok' past xs := by
  induction xs generalizing past with
  | nil => exact Iff.rfl
  | cons x xs ih =>
    obtain ⟨hx, hxs⟩ := List.forall_mem_cons.mp hxs
    have hnext : ∀ y ∈ past ++ [x], P y := by simpa [or_imp, forall_and] using ⟨hpast, hx⟩
    exact and_congr (h past x hpast hx) (ih hnext hxs)

end

/-- The machine with its outputs so far in its state. -/
def recorded (step : Mealy.Step σ ι ω) : Mealy.Step (σ × List ω) ι ω := fun (s, past) i =>
  (((step s i).1, past ++ (step s i).2), (step s i).2)

/-- An invariant of the state and the past that makes every step's outputs `ok`. -/
theorem throughout_of_invariant {step : Mealy.Step σ ι ω} {P : σ → List ω → Prop}
    (hs : P s past)
    (hstep : ∀ s past i, P s past → Throughout ok past (step s i).2 ∧
      P (step s i).1 (past ++ (step s i).2)) :
    Throughout ok past (Mealy.emitted step s is) := by
  induction is generalizing s past with
  | nil => trivial
  | cons i is ih =>
    obtain ⟨hout, hnext⟩ := hstep s past i hs
    rw [Mealy.emitted_cons, throughout_append]
    exact ⟨hout, ih hnext⟩

/-- If a step's outputs are `ok` exactly when the input is good, then a run's
are exactly when all its inputs are. -/
theorem throughout_iff_along {step : Mealy.Step σ ι ω} {P : σ → List ω → Prop}
    {good : σ × List ω → ι → Prop} (hs : P s past)
    (hout : ∀ s past i, P s past → (Throughout ok past (step s i).2 ↔ good (s, past) i))
    (hkeep : ∀ s past i, P s past → good (s, past) i → P (step s i).1 (past ++ (step s i).2)) :
    Throughout ok past (Mealy.emitted step s is) ↔
      Mealy.Along (recorded step) good (s, past) is := by
  induction is generalizing s past with
  | nil => simp
  | cons i is ih =>
    rw [Mealy.emitted_cons, throughout_append, Mealy.along_cons, hout s past i hs]
    exact and_congr_right fun hgood => ih (hkeep s past i hs hgood)

end Past
