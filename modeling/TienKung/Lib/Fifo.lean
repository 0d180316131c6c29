import TienKung.Lib.Mealy

/-!
# Queues between two paces

One side puts, the other gets at a pace of its own, and a trace says in which
order they did. Two disciplines are described on traces: a queue of values that
holds the last one, and a queue of blocks that is read value by value, with a
filler where there is none. The rules of a discipline are the steps of its
queue; what they say about a whole trace follows.
-/

namespace Fifo

variable {α β : Type*}

inductive Io (β α : Type*)
  | put (b : β)
  | get (a : α)
  deriving DecidableEq

def puts : List (Io β α) → List β
  | [] => []
  | .put b :: rest => b :: puts rest
  | .get _ :: rest => puts rest

def gets : List (Io β α) → List α
  | [] => []
  | .put _ :: rest => gets rest
  | .get a :: rest => a :: gets rest

/-- How many puts there had been at each get, `n` before the first of them. -/
def putBefore (n : ℕ) : List (Io β α) → List ℕ
  | [] => []
  | .put _ :: rest => putBefore (n + 1) rest
  | .get _ :: rest => n :: putBefore n rest

-- ---------------------------------------------------------------------------
-- Holding the last value
-- ---------------------------------------------------------------------------

/-- The gets `out` go through `values`: `sent` of them have been got, and at
each get the number put so far is known. -/
inductive Stutter (values : List α) : (sent : ℕ) → (put : List ℕ) → (out : List α) → Prop
  | nil : Stutter values sent [] []
  | next (hput : sent < n) (hnext : values[sent]? = some a) :
      Stutter values (sent + 1) put out → Stutter values sent (n :: put) (a :: out)
  | again (hput : sent + 1 = n) (hlast : values[sent]? = some a) :
      Stutter values (sent + 1) put out → Stutter values (sent + 1) (n :: put) (a :: out)

structure Hold (α : Type*) where
  pending : List α
  last : α

def Hold.step : Mealy.Step (Hold α) (Option α) (Io α α) := fun h i =>
  match i with
  | some a => ({ h with pending := h.pending ++ [a] }, [.put a])
  | none =>
    match h.pending with
    | [] => (h, [.get h.last])
    | a :: rest => (⟨rest, a⟩, [.get a])

/-- From a state that has sent some values, the last of which it holds. -/
theorem Hold.stutter (sent : List α) (h : Hold α) (is : List (Option α))
    (hlast : sent ≠ [] → sent.getLast? = some h.last) (hfirst : sent = [] → h.pending ≠ []) :
    Stutter (sent ++ h.pending ++ puts (Mealy.emitted step h is)) sent.length
      (putBefore (sent.length + h.pending.length) (Mealy.emitted step h is))
      (gets (Mealy.emitted step h is)) := by
  induction is generalizing sent h with
  | nil => exact .nil
  | cons i is ih =>
    obtain ⟨pending, last⟩ := h
    cases i with
    | some a =>
      have := ih sent ⟨pending ++ [a], last⟩ hlast (by simp)
      simpa [step, puts, gets, putBefore, Nat.add_assoc] using this
    | none =>
      cases pending with
      | nil =>
        have hne : sent ≠ [] := fun he => hfirst he rfl
        obtain ⟨front, rfl⟩ := List.getLast?_eq_some_iff.mp (hlast hne)
        have := ih (front ++ [last]) ⟨[], last⟩ hlast hfirst
        rw [List.length_append] at this ⊢
        exact .again rfl (by simp) this
      | cons a rest =>
        have := ih (sent ++ [a]) ⟨rest, a⟩ (by simp) (by simp)
        have hsum : (sent ++ [a]).length + rest.length = sent.length + (a :: rest).length := by
          simp only [List.length_append, List.length_cons, List.length_nil]
          omega
        rw [hsum, List.append_assoc sent, List.length_append] at this
        exact .next (by simp) (by simp) this

/-- While more has been put than is asked for, each get brings the next value. -/
theorem Stutter.getElem?_eq (h : Stutter values sent put out) (hput : ∀ n ∈ put, j < n)
    (hsent : sent ≤ j) (hlen : j - sent < out.length) : out[j - sent]? = values[j]? := by
  induction h with
  | nil => cases hlen
  | @next sent n a put out _ hnext _ ih =>
    rcases Nat.eq_or_lt_of_le hsent with rfl | hlt
    · rw [Nat.sub_self, List.getElem?_cons_zero, hnext]
    · have hsub : j - sent = j - (sent + 1) + 1 := by omega
      rw [List.length_cons] at hlen
      rw [hsub, List.getElem?_cons_succ]
      exact ih (fun m hm => hput m (List.mem_cons_of_mem _ hm)) hlt (by omega)
  | @again sent n a put out hlast _ _ _ =>
    have := hput n List.mem_cons_self
    omega

/-- What was put as number `j` before the `i`th get is got with the `i + j`th at the latest. -/
theorem Stutter.reaches (h : Stutter values sent put out) (hmono : put.Pairwise (· ≤ ·))
    (hi : put[i]? = some n) (hj : j < n) (hsent : sent ≤ j) (hlen : i + (j - sent) < out.length) :
    ∃ a ∈ out.take (i + (j - sent) + 1), values[j]? = some a := by
  induction h generalizing i with
  | nil => cases hi
  | @next sent m a put out hput hnext hrest ih =>
    cases i with
    | zero =>
      have hall : ∀ m' ∈ m :: put, j < m' := by
        intro m' hm'
        rw [List.getElem?_cons_zero, Option.some_inj] at hi
        rcases List.mem_cons.mp hm' with rfl | hm'
        · omega
        · have := List.rel_of_pairwise_cons hmono hm'
          omega
      have hget := (Stutter.next hput hnext hrest).getElem?_eq hall hsent (by omega)
      rw [Nat.zero_add] at hlen ⊢
      rw [List.getElem?_eq_getElem hlen] at hget
      exact ⟨_, List.mem_take_iff_getElem.mpr ⟨j - sent, by omega, rfl⟩, hget.symm⟩
    | succ i =>
      rw [List.take_succ_cons]
      rcases Nat.eq_or_lt_of_le hsent with rfl | hlt
      · exact ⟨a, List.mem_cons_self, hnext⟩
      · rw [List.length_cons] at hlen
        obtain ⟨b, hb, heq⟩ := ih hmono.of_cons hi hlt (by omega)
        exact ⟨b, List.mem_cons_of_mem _ (List.take_subset_take_left _ (by omega) hb), heq⟩
  | @again sent m a put out hput hlast _ ih =>
    cases i with
    | zero =>
      rw [List.getElem?_cons_zero, Option.some_inj] at hi
      omega
    | succ i =>
      rw [List.take_succ_cons]
      rw [List.length_cons] at hlen
      obtain ⟨b, hb, heq⟩ := ih hmono.of_cons hi hsent (by omega)
      exact ⟨b, List.mem_cons_of_mem _ (List.take_subset_take_left _ (by omega) hb), heq⟩

theorem le_of_mem_putBefore {trace : List (Io β α)} (h : m ∈ putBefore n trace) : n ≤ m := by
  induction trace generalizing n with
  | nil => cases h
  | cons x trace ih =>
    cases x with
    | put b => exact Nat.le_of_succ_le (ih h)
    | get a =>
      rcases List.mem_cons.mp h with rfl | h
      · exact Nat.le_refl _
      · exact ih h

theorem pairwise_putBefore (n : ℕ) (trace : List (Io β α)) : (putBefore n trace).Pairwise (· ≤ ·) := by
  induction trace generalizing n with
  | nil => exact List.Pairwise.nil
  | cons x trace ih =>
    cases x with
    | put b => exact ih (n + 1)
    | get a => exact List.pairwise_cons.mpr ⟨fun _ => le_of_mem_putBefore, ih n⟩

theorem Stutter.length_eq (h : Stutter values sent put out) : out.length = put.length := by
  induction h with
  | nil => rfl
  | next _ _ _ ih => exact congrArg _ ih
  | again _ _ _ ih => exact congrArg _ ih

theorem Stutter.mem (h : Stutter values sent put out) (ha : a ∈ out) : a ∈ values := by
  induction h with
  | nil => cases ha
  | next _ hnext _ ih =>
    rcases List.mem_cons.mp ha with rfl | ha
    · exact List.mem_of_getElem? hnext
    · exact ih ha
  | again _ hlast _ ih =>
    rcases List.mem_cons.mp ha with rfl | ha
    · exact List.mem_of_getElem? hlast
    · exact ih ha

-- ---------------------------------------------------------------------------
-- Blocks and fillers
-- ---------------------------------------------------------------------------

/-- The blocks put are got one after the other, whole and in order, and a filler
is got only while no block waits. -/
inductive Serves (filler : α → Prop) :
    (waiting : List (List α)) → (current : List α) → List (Io (List α) α) → Prop
  | nil : Serves filler waiting current []
  | put : Serves filler (waiting ++ [block]) current rest →
      Serves filler waiting current (.put block :: rest)
  | go : Serves filler waiting current rest →
      Serves filler waiting (a :: current) (.get a :: rest)
  | next : Serves filler waiting current rest →
      Serves filler ((a :: current) :: waiting) [] (.get a :: rest)
  | fill (hfill : filler a) : Serves filler [] [] rest → Serves filler [] [] (.get a :: rest)

inductive Segment (α : Type*)
  | block (as : List α)
  | fill (a : α)
  deriving DecidableEq

def Segment.values : Segment α → List α
  | .block as => as
  | .fill a => [a]

def Segment.block? : Segment α → Option (List α)
  | .block as => some as
  | .fill _ => none

/-- The row ends within its last segment, `left` being what comes after. -/
def CutShort (segments : List (Segment α)) (left : List α) : Prop :=
  ∃ s ∈ segments.getLast?, left <:+ s.values ∧ left ≠ s.values

theorem CutShort.cons (h : CutShort segments left) : CutShort (s :: segments) left := by
  obtain ⟨last, hlast, hcut⟩ := h
  refine ⟨last, ?_, hcut⟩
  rw [Option.mem_def] at hlast ⊢
  rw [List.getLast?_cons, hlast, Option.getD_some]

/-- With a block begun before. -/
theorem Serves.segments_of_current {waiting : List (List α)} {current : List α}
    {trace : List (Io (List α) α)} (h : Serves filler waiting current trace) :
    ∃ segments left unsent, gets trace ++ left = current ++ segments.flatMap Segment.values ∧
      waiting ++ puts trace = segments.filterMap Segment.block? ++ unsent ∧
      (∀ a, Segment.fill a ∈ segments → filler a) ∧
      (segments = [] ∧ left <:+ current ∨ CutShort segments left) := by
  induction h with
  | @nil waiting current =>
    exact ⟨[], current, waiting, by simp [gets], by simp [puts], by simp,
      .inl ⟨rfl, List.suffix_refl _⟩⟩
  | put _ ih =>
    obtain ⟨segments, left, unsent, hgets, hputs, hfill, hend⟩ := ih
    exact ⟨segments, left, unsent, hgets, by simpa [puts] using hputs, hfill, hend⟩
  | @go waiting current rest a _ ih =>
    obtain ⟨segments, left, unsent, hgets, hputs, hfill, hend⟩ := ih
    refine ⟨segments, left, unsent, by simp [gets, hgets], hputs, hfill, ?_⟩
    exact hend.imp_left fun hl => ⟨hl.1, hl.2.trans (List.suffix_cons a current)⟩
  | @next waiting current rest a _ ih =>
    obtain ⟨segments, left, unsent, hgets, hputs, hfill, hend⟩ := ih
    refine ⟨.block (a :: current) :: segments, left, unsent, ?_, ?_, by simpa using hfill, .inr ?_⟩
    · simp [gets, hgets, Segment.values]
    · simpa [puts, Segment.block?] using hputs
    · rcases hend with ⟨rfl, hl⟩ | hcut
      · refine ⟨_, rfl, hl.trans (List.suffix_cons a current), fun he => ?_⟩
        have hle := hl.length_le
        rw [he] at hle
        exact absurd hle (by simp [Segment.values])
      · exact hcut.cons
  | @fill a rest hfiller _ ih =>
    obtain ⟨segments, left, unsent, hgets, hputs, hfill, hend⟩ := ih
    refine ⟨.fill a :: segments, left, unsent, ?_, hputs, ?_, .inr ?_⟩
    · simpa [gets, Segment.values] using hgets
    · simpa [hfiller] using hfill
    · rcases hend with ⟨rfl, hl⟩ | hcut
      · obtain rfl := List.suffix_nil.mp hl
        exact ⟨_, rfl, List.nil_suffix, nofun⟩
      · exact hcut.cons

/-- What was got is a row of whole blocks and fillers, the blocks being the
first ones put, in order. The last of them may not be finished. -/
theorem Serves.segments {waiting : List (List α)} {trace : List (Io (List α) α)}
    (h : Serves filler waiting [] trace) :
    ∃ segments left unsent, gets trace ++ left = segments.flatMap Segment.values ∧
      waiting ++ puts trace = segments.filterMap Segment.block? ++ unsent ∧
      (∀ a, Segment.fill a ∈ segments → filler a) ∧ (left = [] ∨ CutShort segments left) := by
  obtain ⟨segments, left, unsent, hgets, hputs, hfill, hend⟩ := h.segments_of_current
  exact ⟨segments, left, unsent, hgets, hputs, hfill,
    hend.imp_left fun hl => List.suffix_nil.mp hl.2⟩

end Fifo
