import TienKung.Lib.Mealy
import Mathlib.Logic.Function.Basic

/-!
# Frames in flight

Several calls have frames on the wire at a time. Each takes an index, writes its
frame to the transmit buffer of the index, sends it and polls for the reply, and
a call that reads the reply of another leaves it in the receive buffer of the
other's index. Frames may come back in any order, late, or not at all, and the
steps of the calls interleave; only the choice of an index and the reading of
the socket are under a mutex.

A call never takes the reply of another for its own, provided every frame is
sent, an index is free when one is taken, and a call does not leave while its
frames are still on the wire: nothing but the index tells frames apart.
-/

namespace TienKung.Nic

abbrev ecMaxbuf : Nat := 16

inductive BufStat
  | empty | alloc | tx | rcvd | complete
  deriving DecidableEq

/-- What comes back is the frame that was sent, with other data and working counter. -/
structure Frame where
  index : Fin ecMaxbuf
  data : List (BitVec 8)
  wkc : Nat
  /-- The call that has sent it, which the code does not see. -/
  sender : Nat
  deriving DecidableEq

inductive Pc
  | getindex
  /-- `ecx_outframe`, which marks the buffer before it sends. -/
  | mark | send
  /-- `ecx_inframe`, which looks for a reply that was left before it reads the socket. -/
  | look | receive
  /-- The caller copies the reply from the receive buffer, and then gives the index back. -/
  | read | leave
  | done
  deriving DecidableEq

structure Call where
  pc : Pc
  idx : Fin ecMaxbuf
  reply : Option Frame
  deriving DecidableEq

/-- `ecx_portt` without redundancy, the wire, and the calls, all of them with numbers. -/
structure Port where
  rxbufstat : Fin ecMaxbuf → BufStat
  rxbuf : Fin ecMaxbuf → Frame
  lastidx : Fin ecMaxbuf
  wire : List Frame
  calls : Nat → Call

def Port.start : Port where
  rxbufstat _ := .empty
  rxbuf _ := ⟨0, [], 0, 0⟩
  lastidx := 0
  wire := []
  calls _ := ⟨.getindex, 0, none⟩

-- ---------------------------------------------------------------------------
-- Functions
-- ---------------------------------------------------------------------------

/-- The loop of `ecx_getindex`, with `cnt` counting down. -/
def findIndex (stat : Fin ecMaxbuf → BufStat) : (cnt : Nat) → Fin ecMaxbuf → Fin ecMaxbuf
  | 0, idx => idx
  | cnt + 1, idx => if stat idx ≠ .empty then findIndex stat cnt (idx + 1) else idx

def getindex (p : Port) : Fin ecMaxbuf := findIndex p.rxbufstat ecMaxbuf (p.lastidx + 1)

def Port.setStat (p : Port) (idx : Fin ecMaxbuf) (stat : BufStat) : Port :=
  { p with rxbufstat := Function.update p.rxbufstat idx stat }

def Port.setCall (p : Port) (k : Nat) (c : Call) : Port :=
  { p with calls := Function.update p.calls k c }

def Port.store (p : Port) (idx : Fin ecMaxbuf) (stat : BufStat) (f : Frame) : Port :=
  { p.setStat idx stat with rxbuf := Function.update p.rxbuf idx f }

/-- What the world does in a step. -/
structure Choice where
  data : List (BitVec 8)
  sends : Bool
  /-- Which of the frames on the wire comes in, if any, and what it brings. -/
  packet : Option Nat
  brings : List (BitVec 8)
  wkc : Nat
  /-- What a call without a reply does: poll again, send again, or leave. -/
  next : Pc

def retry (c : Call) (next : Pc) : Call :=
  { c with pc := if next = .mark ∨ next = .leave then next else .look }

/-- The part of `ecx_inframe` under the mutex, with the frame that comes in. -/
def receive (p : Port) (k : Nat) (c : Call) (f : Frame) (next : Pc) : Port :=
  if f.index = c.idx then (p.store c.idx .complete f).setCall k { c with pc := .read }
  else if p.rxbufstat f.index = .tx then (p.store f.index .rcvd f).setCall k (retry c next)
  else p.setCall k (retry c next)

def incoming (p : Port) (x : Choice) : Option (Nat × Frame) := do
  let i ← x.packet
  let sent ← p.wire[i]?
  return (i, { sent with data := x.brings, wkc := x.wkc })

def turn (p : Port) (k : Nat) (x : Choice) : Port :=
  let c := p.calls k
  match c.pc with
  | .getindex =>
    let idx := getindex p
    Port.setCall { p.setStat idx .alloc with lastidx := idx } k { c with pc := .mark, idx }
  | .mark => (p.setStat c.idx .tx).setCall k { c with pc := .send }
  | .send =>
    if x.sends then
      Port.setCall { p with wire := p.wire ++ [⟨c.idx, x.data, 0, k⟩] } k { c with pc := .look }
    else (p.setStat c.idx .empty).setCall k { c with pc := .look }
  | .look =>
    if p.rxbufstat c.idx = .rcvd then
      (p.setStat c.idx .complete).setCall k { c with pc := .read }
    else p.setCall k { c with pc := .receive }
  | .receive =>
    match incoming p x with
    | none => p.setCall k (retry c x.next)
    | some (i, f) => receive { p with wire := p.wire.eraseIdx i } k c f x.next
  | .read => p.setCall k { c with pc := .leave, reply := some (p.rxbuf c.idx) }
  | .leave => (p.setStat c.idx .empty).setCall k { c with pc := .done }
  | .done => p

inductive Event
  | turn (k : Nat) (x : Choice)
  | lose (i : Nat)

def step : Mealy.Step Port Event Empty := fun p e =>
  match e with
  | .turn k x => (turn p k x, [])
  | .lose i => ({ p with wire := p.wire.eraseIdx i }, [])

-- ---------------------------------------------------------------------------
-- Assumptions
-- ---------------------------------------------------------------------------

/-- The call has an index. -/
def Call.Open (c : Call) : Prop := c.pc ≠ .getindex ∧ c.pc ≠ .done

/-- An index is free, the frame is sent, and no frame outlives its call. -/
def Ready (p : Port) (k : Nat) (x : Choice) : Pc → Prop
  | .getindex => ∃ i, p.rxbufstat i = .empty
  | .send => x.sends = true
  | .leave => ∀ f ∈ p.wire, f.sender ≠ k
  | _ => True

instance (p : Port) (k : Nat) (x : Choice) : (q : Pc) → Decidable (Ready p k x q)
  | .getindex => inferInstanceAs (Decidable (∃ i, p.rxbufstat i = .empty))
  | .send => inferInstanceAs (Decidable (x.sends = true))
  | .leave => inferInstanceAs (Decidable (∀ f ∈ p.wire, f.sender ≠ k))
  | .mark | .look | .receive | .read | .done => isTrue trivial

def Allowed (p : Port) : Event → Prop
  | .turn k x => Ready p k x (p.calls k).pc
  | .lose _ => True

instance (p : Port) : (e : Event) → Decidable (Allowed p e)
  | .turn k x => inferInstanceAs (Decidable (Ready p k x (p.calls k).pc))
  | .lose _ => isTrue trivial

-- ---------------------------------------------------------------------------
-- Indices
-- ---------------------------------------------------------------------------

theorem sub_succ_lt {i idx : Fin ecMaxbuf} (hne : i ≠ idx) (h : (i - idx).val < cnt + 1) :
    (i - (idx + 1)).val < cnt := by
  have hone : (1 : Fin ecMaxbuf).val = 1 := rfl
  have hi : i.val < 16 := i.isLt
  have hidx : idx.val < 16 := idx.isLt
  simp only [Fin.sub_def, Fin.add_def, ne_eq, Fin.ext_iff, hone, ecMaxbuf] at h hne ⊢
  omega

theorem findIndex_spec (stat : Fin ecMaxbuf → BufStat) (cnt : Nat) (idx : Fin ecMaxbuf) :
    stat (findIndex stat cnt idx) = .empty ∨ ∀ i, (i - idx).val < cnt → stat i ≠ .empty := by
  induction cnt generalizing idx with
  | zero => exact .inr fun _ h => absurd h (Nat.not_lt_zero _)
  | succ cnt ih =>
    rw [findIndex]
    by_cases hidx : stat idx ≠ .empty
    · rw [if_pos hidx]
      refine (ih (idx + 1)).imp_right fun hall i hi => ?_
      by_cases hne : i = idx
      · exact hne ▸ hidx
      · exact hall i (sub_succ_lt hne hi)
    · rw [if_neg hidx]
      exact .inl (not_not.mp hidx)

/-- If an index is free, a free one is taken. -/
theorem getindex_empty {p : Port} (h : ∃ i, p.rxbufstat i = .empty) :
    p.rxbufstat (getindex p) = .empty := by
  obtain ⟨i, hi⟩ := h
  refine (findIndex_spec p.rxbufstat ecMaxbuf (p.lastidx + 1)).resolve_right fun hall => ?_
  exact hall i (i - (p.lastidx + 1)).isLt hi

-- ---------------------------------------------------------------------------
-- Indices are held by one call
-- ---------------------------------------------------------------------------

/-- Each index in use belongs to one open call, and each frame to the call that has its index. -/
structure Owned (p : Port) : Prop where
  held : ∀ k, (p.calls k).Open → p.rxbufstat (p.calls k).idx ≠ .empty
  unique : ∀ j k, (p.calls j).Open → (p.calls k).Open → (p.calls j).idx = (p.calls k).idx → j = k
  wire : ∀ f ∈ p.wire, (p.calls f.sender).Open ∧ (p.calls f.sender).idx = f.index

/-- What has come in is for the call that has its index, and stays while this reads it. -/
structure Replied (p : Port) : Prop where
  stored : ∀ k, (p.calls k).Open →
    p.rxbufstat (p.calls k).idx = .rcvd ∨ p.rxbufstat (p.calls k).idx = .complete →
      (p.rxbuf (p.calls k).idx).sender = k
  reading : ∀ k, (p.calls k).pc = .read → p.rxbufstat (p.calls k).idx = .complete
  reply : ∀ k, ∀ f ∈ (p.calls k).reply, f.sender = k

section
variable {p : Port} {k : Nat} {x : Choice}

theorem calls_self (p : Port) (k : Nat) (c : Call) : (p.setCall k c).calls k = c :=
  Function.update_self ..

theorem calls_ne (p : Port) (c : Call) (h : j ≠ k) : (p.setCall k c).calls j = p.calls j :=
  Function.update_of_ne h ..

theorem Owned.go (h : Owned p) (hopen : (p.calls k).Open) (p' : Port) (c : Call) (hc : c.Open)
    (hidx : c.idx = (p.calls k).idx) (hcalls : p'.calls = p.calls)
    (hstat : ∀ i, p.rxbufstat i ≠ .empty → p'.rxbufstat i ≠ .empty)
    (hwire : ∀ f ∈ p'.wire, f ∈ p.wire ∨ f.sender = k ∧ f.index = c.idx) :
    Owned (p'.setCall k c) := by
  have hcall : ∀ j, ((p'.setCall k c).calls j).Open →
      (p.calls j).Open ∧ ((p'.setCall k c).calls j).idx = (p.calls j).idx := by
    intro j hj
    by_cases hjk : j = k
    · subst hjk
      rw [calls_self]
      exact ⟨hopen, hidx⟩
    · rw [calls_ne _ _ hjk, hcalls] at hj ⊢
      exact ⟨hj, rfl⟩
  refine ⟨fun j hj => ?_, fun i j hi hj heq => ?_, fun f hf => ?_⟩
  · rw [(hcall j hj).2]
    exact hstat _ (h.held j (hcall j hj).1)
  · rw [(hcall i hi).2, (hcall j hj).2] at heq
    exact h.unique i j (hcall i hi).1 (hcall j hj).1 heq
  · by_cases hsender : f.sender = k
    · rw [hsender, calls_self]
      rcases hwire f hf with hf | ⟨-, hindex⟩
      · exact ⟨hc, hidx.trans (hsender ▸ (h.wire f hf).2)⟩
      · exact ⟨hc, hindex.symm⟩
    · rw [calls_ne _ _ hsender, hcalls]
      exact h.wire f ((hwire f hf).resolve_right fun hown => hsender hown.1)

theorem Owned.getindex (h : Owned p) (hpc : (p.calls k).pc = .getindex)
    (hfree : p.rxbufstat (Nic.getindex p) = .empty) :
    Owned (Port.setCall { p.setStat (Nic.getindex p) .alloc with lastidx := Nic.getindex p } k
      { p.calls k with pc := .mark, idx := Nic.getindex p }) := by
  have hclosed : ¬ (p.calls k).Open := fun hopen => hopen.1 hpc
  have hother : ∀ j, (p.calls j).Open → (p.calls j).idx ≠ Nic.getindex p :=
    fun j hj heq => h.held j hj (heq ▸ hfree)
  refine ⟨fun j hj => ?_, fun i j hi hj heq => ?_, fun f hf => ?_⟩
  · by_cases hjk : j = k
    · subst hjk
      rw [calls_self]
      show Function.update p.rxbufstat _ _ _ ≠ _
      rw [Function.update_self]
      decide
    · rw [calls_ne _ _ hjk] at hj ⊢
      show Function.update p.rxbufstat _ _ (p.calls j).idx ≠ .empty
      rw [Function.update_of_ne (hother j hj)]
      exact h.held j hj
  · by_cases hik : i = k <;> by_cases hjk : j = k
    · rw [hik, hjk]
    · subst hik
      rw [calls_self, calls_ne _ _ hjk] at heq
      rw [calls_ne _ _ hjk] at hj
      exact absurd heq.symm (hother j hj)
    · subst hjk
      rw [calls_self, calls_ne _ _ hik] at heq
      rw [calls_ne _ _ hik] at hi
      exact absurd heq (hother i hi)
    · rw [calls_ne _ _ hik, calls_ne _ _ hjk] at heq
      rw [calls_ne _ _ hik] at hi
      rw [calls_ne _ _ hjk] at hj
      exact h.unique i j hi hj heq
  · have hsender : f.sender ≠ k := fun heq => hclosed (heq ▸ (h.wire f hf).1)
    rw [calls_ne _ _ hsender]
    exact h.wire f hf

theorem Owned.leave (h : Owned p) (hopen : (p.calls k).Open)
    (hsettled : ∀ f ∈ p.wire, f.sender ≠ k) :
    Owned ((p.setStat (p.calls k).idx .empty).setCall k { p.calls k with pc := .done }) := by
  have hcall : ∀ j, (((p.setStat (p.calls k).idx .empty).setCall k
      { p.calls k with pc := .done }).calls j).Open → j ≠ k := by
    rintro j hj rfl
    rw [calls_self] at hj
    exact hj.2 rfl
  refine ⟨fun j hj => ?_, fun i j hi hj heq => ?_, fun f hf => ?_⟩
  · have hjk := hcall j hj
    rw [calls_ne _ _ hjk] at hj ⊢
    show Function.update p.rxbufstat _ _ (p.calls j).idx ≠ .empty
    rw [Function.update_of_ne fun heq => hjk (h.unique j k hj hopen heq)]
    exact h.held j hj
  · have hik := hcall i hi
    have hjk := hcall j hj
    rw [calls_ne _ _ hik] at hi heq
    rw [calls_ne _ _ hjk] at hj heq
    exact h.unique i j hi hj heq
  · rw [calls_ne _ _ (hsettled f hf)]
    exact h.wire f hf

theorem Replied.go (ho : Owned p) (h : Replied p) (hopen : (p.calls k).Open) (p' : Port) (c : Call)
    (hidx : c.idx = (p.calls k).idx) (hcalls : p'.calls = p.calls)
    (hframe : ∀ i ≠ c.idx, p'.rxbufstat i = p.rxbufstat i ∧ p'.rxbuf i = p.rxbuf i)
    (hstored : p'.rxbufstat c.idx = .rcvd ∨ p'.rxbufstat c.idx = .complete →
      (p'.rxbuf c.idx).sender = k)
    (hreading : c.pc = .read → p'.rxbufstat c.idx = .complete)
    (hreply : ∀ f ∈ c.reply, f.sender = k) : Replied (p'.setCall k c) := by
  have hother : ∀ j, j ≠ k → (p.calls j).Open → (p.calls j).idx ≠ c.idx :=
    fun j hjk hj heq => hjk (ho.unique j k hj hopen (heq.trans hidx))
  refine ⟨fun j hj hstat => ?_, fun j hj => ?_, fun j f hf => ?_⟩
  · by_cases hjk : j = k
    · subst hjk
      rw [calls_self] at hstat ⊢
      exact hstored hstat
    · rw [calls_ne _ _ hjk, hcalls] at hj hstat ⊢
      obtain ⟨hsame, hbuf⟩ := hframe _ (hother j hjk hj)
      show (p'.rxbuf _).sender = j
      rw [hbuf]
      exact h.stored j hj (hsame ▸ hstat)
  · by_cases hjk : j = k
    · subst hjk
      rw [calls_self] at hj ⊢
      exact hreading hj
    · rw [calls_ne _ _ hjk, hcalls] at hj ⊢
      have hjopen : (p.calls j).Open := ⟨by rw [hj]; decide, by rw [hj]; decide⟩
      exact (hframe _ (hother j hjk hjopen)).1.trans (h.reading j hj)
  · by_cases hjk : j = k
    · subst hjk
      rw [calls_self] at hf
      exact hreply f hf
    · rw [calls_ne _ _ hjk, hcalls] at hf
      exact h.reply j f hf

theorem Replied.leaveFor (ho : Owned p) (h : Replied p) {f : Frame} (hm : (p.calls f.sender).Open)
    (hindex : (p.calls f.sender).idx = f.index) (htx : p.rxbufstat f.index = .tx) :
    Replied (p.store f.index .rcvd f) := by
  refine ⟨fun j hj hstat => ?_, fun j hj => ?_, h.reply⟩
  · show (Function.update p.rxbuf f.index f (p.calls j).idx).sender = j
    by_cases hidx : (p.calls j).idx = f.index
    · rw [hidx, Function.update_self]
      exact (ho.unique j f.sender hj hm (hidx.trans hindex.symm)).symm
    · rw [Function.update_of_ne hidx]
      refine h.stored j hj ?_
      have hsame : Function.update p.rxbufstat f.index .rcvd (p.calls j).idx =
          p.rxbufstat (p.calls j).idx := Function.update_of_ne hidx ..
      exact hsame ▸ hstat
  · have hidx : (p.calls j).idx ≠ f.index := fun heq => by
      have hcomplete := h.reading j hj
      rw [heq, htx] at hcomplete
      cases hcomplete
    show Function.update p.rxbufstat f.index .rcvd (p.calls j).idx = .complete
    rw [Function.update_of_ne hidx]
    exact h.reading j hj

/-- Each index belongs to one call, and what is stored under it too. -/
structure Inv (p : Port) : Prop where
  owned : Owned p
  replied : Replied p

theorem inv_start : Inv .start where
  owned := ⟨fun _ hk => absurd rfl hk.1, fun _ _ hj => absurd rfl hj.1, by simp [Port.start]⟩
  replied := ⟨fun _ hk => absurd rfl hk.1, by simp [Port.start], by simp [Port.start]⟩

theorem inv_lose (h : Inv p) (i : Nat) : Inv { p with wire := p.wire.eraseIdx i } := by
  obtain ⟨⟨hheld, hunique, hwire⟩, ⟨hstored, hreading, hreply⟩⟩ := h
  exact ⟨⟨hheld, hunique, fun f hf => hwire f (List.mem_of_mem_eraseIdx hf)⟩,
    ⟨hstored, hreading, hreply⟩⟩

theorem setStat_ne_empty (idx : Fin ecMaxbuf) (stat : BufStat) (hstat : stat ≠ .empty)
    (i : Fin ecMaxbuf) (h : p.rxbufstat i ≠ .empty) : (p.setStat idx stat).rxbufstat i ≠ .empty := by
  show Function.update p.rxbufstat idx stat i ≠ .empty
  by_cases hi : i = idx
  · rw [hi, Function.update_self]
    exact hstat
  · rwa [Function.update_of_ne hi]

theorem open_retry (c : Call) (next : Pc) : (retry c next).Open ∧ (retry c next).pc ≠ .read := by
  unfold retry Call.Open
  dsimp only
  split_ifs with h
  · rcases h with rfl | rfl <;> decide
  · decide

theorem inv_go (h : Inv p) (hopen : (p.calls k).Open) (c : Call) (hc : c.Open)
    (hidx : c.idx = (p.calls k).idx) (hpc : c.pc ≠ .read) (hreply : c.reply = (p.calls k).reply) :
    Inv (p.setCall k c) where
  owned := h.owned.go hopen p c hc hidx rfl (fun _ hi => hi) fun _ hf => .inl hf
  replied := h.replied.go h.owned hopen p c hidx rfl (fun _ _ => ⟨rfl, rfl⟩)
    (fun hstat => by
      rw [hidx] at hstat ⊢
      exact h.replied.stored k hopen hstat)
    (fun hread => absurd hread hpc) (fun f hf => h.replied.reply k f (hreply ▸ hf))

theorem inv_receive (h : Inv p) (hpc : (p.calls k).pc = .receive) {f : Frame}
    (hf : (p.calls f.sender).Open ∧ (p.calls f.sender).idx = f.index) (next : Pc) :
    Inv (receive p k (p.calls k) f next) := by
  have hopen : (p.calls k).Open := ⟨by rw [hpc]; decide, by rw [hpc]; decide⟩
  have hretry := open_retry (p.calls k) next
  unfold receive
  split_ifs with hown htx
  · have hsender : f.sender = k := h.owned.unique _ _ hf.1 hopen (hf.2.trans hown)
    constructor
    · refine h.owned.go hopen (p.store (p.calls k).idx .complete f) _ ?_ rfl rfl ?_ ?_
      · exact ⟨nofun, nofun⟩
      · exact setStat_ne_empty _ .complete nofun
      · exact fun f hf => .inl hf
    · refine h.replied.go h.owned hopen (p.store (p.calls k).idx .complete f) _ rfl rfl ?_ ?_ ?_ ?_
      · exact fun i hi => ⟨Function.update_of_ne hi .., Function.update_of_ne hi ..⟩
      · intro _
        show (Function.update p.rxbuf _ f _).sender = k
        rw [Function.update_self]
        exact hsender
      · exact fun _ => Function.update_self ..
      · exact h.replied.reply k
  · have hleft : Inv (p.store f.index .rcvd f) :=
      ⟨⟨fun j hj => setStat_ne_empty _ .rcvd nofun _ (h.owned.held j hj), h.owned.unique,
        h.owned.wire⟩,
        h.replied.leaveFor h.owned hf.1 hf.2 htx⟩
    exact inv_go hleft hopen _ hretry.1 rfl hretry.2 rfl
  · exact inv_go h hopen _ hretry.1 rfl hretry.2 rfl

theorem inv_setStat (h : Inv p) (hopen : (p.calls k).Open) (stat : BufStat) (hstat : stat ≠ .empty)
    (c : Call) (hc : c.Open) (hidx : c.idx = (p.calls k).idx)
    (hstored : stat = .rcvd ∨ stat = .complete → (p.rxbuf c.idx).sender = k)
    (hreading : c.pc = .read → stat = .complete) (hreply : c.reply = (p.calls k).reply) :
    Inv ((p.setStat (p.calls k).idx stat).setCall k c) := by
  have hown : (p.setStat (p.calls k).idx stat).rxbufstat c.idx = stat := by
    rw [hidx]
    exact Function.update_self ..
  constructor
  · exact h.owned.go hopen _ c hc hidx rfl (setStat_ne_empty _ stat hstat) fun f hf => .inl hf
  · refine h.replied.go h.owned hopen _ c hidx rfl ?_ ?_ ?_ ?_
    · exact fun i hi => ⟨Function.update_of_ne (hidx ▸ hi) .., rfl⟩
    · exact fun hs => hstored (hown ▸ hs)
    · exact fun hread => hown.trans (hreading hread)
    · exact fun f hf => h.replied.reply k f (hreply ▸ hf)

theorem open_of_pc {c : Call} {q : Pc} (h : c.pc = q) (hfirst : q ≠ .getindex) (hlast : q ≠ .done) :
    c.Open := ⟨h ▸ hfirst, h ▸ hlast⟩

theorem inv_leave (h : Inv p) (hopen : (p.calls k).Open) (hsettled : ∀ f ∈ p.wire, f.sender ≠ k) :
    Inv ((p.setStat (p.calls k).idx .empty).setCall k { p.calls k with pc := .done }) := by
  refine ⟨h.owned.leave hopen hsettled, ?_⟩
  refine h.replied.go h.owned hopen _ _ rfl rfl ?_ ?_ nofun (h.replied.reply k)
  · exact fun i hi => ⟨Function.update_of_ne hi .., rfl⟩
  · have hempty : (p.setStat (p.calls k).idx .empty).rxbufstat (p.calls k).idx = .empty :=
      Function.update_self ..
    rw [hempty]
    exact fun hs => hs.elim nofun nofun

theorem inv_send (h : Inv p) (hopen : (p.calls k).Open) (data : List (BitVec 8)) :
    Inv (Port.setCall { p with wire := p.wire ++ [⟨(p.calls k).idx, data, 0, k⟩] } k
      { p.calls k with pc := .look }) := by
  have hc : ({ p.calls k with pc := .look } : Call).Open := ⟨nofun, nofun⟩
  constructor
  · refine h.owned.go hopen _ _ hc rfl rfl (fun _ hi => hi) fun f hf => ?_
    rcases List.mem_append.mp hf with hf | hf
    · exact .inl hf
    · rw [List.mem_singleton.mp hf]
      exact .inr ⟨rfl, rfl⟩
  · exact h.replied.go h.owned hopen _ _ rfl rfl (fun _ _ => ⟨rfl, rfl⟩)
      (fun hs => h.replied.stored k hopen hs) nofun (h.replied.reply k)

theorem inv_getindex (h : Inv p) (hpc : (p.calls k).pc = .getindex)
    (hfree : p.rxbufstat (getindex p) = .empty) :
    Inv (Port.setCall { p.setStat (getindex p) .alloc with lastidx := getindex p } k
      { p.calls k with pc := .mark, idx := getindex p }) := by
  have hother : ∀ j, (p.calls j).Open → (p.calls j).idx ≠ getindex p :=
    fun j hj heq => h.owned.held j hj (heq ▸ hfree)
  have hstat : ∀ j, (p.calls j).Open →
      Function.update p.rxbufstat (getindex p) .alloc (p.calls j).idx = p.rxbufstat (p.calls j).idx :=
    fun j hj => Function.update_of_ne (hother j hj) ..
  refine ⟨h.owned.getindex hpc hfree, ⟨fun j hj hs => ?_, fun j hj => ?_, fun j f hf => ?_⟩⟩
  · by_cases hjk : j = k
    · subst hjk
      rw [calls_self] at hs
      have halloc : (p.setStat (getindex p) .alloc).rxbufstat (getindex p) = .alloc :=
        Function.update_self ..
      exact absurd (halloc ▸ hs) (fun hs => hs.elim nofun nofun)
    · rw [calls_ne _ _ hjk] at hj hs ⊢
      exact h.replied.stored j hj (hstat j hj ▸ hs)
  · by_cases hjk : j = k
    · subst hjk
      rw [calls_self] at hj
      cases hj
    · rw [calls_ne _ _ hjk] at hj ⊢
      exact (hstat j (open_of_pc hj nofun nofun)).trans (h.replied.reading j hj)
  · by_cases hjk : j = k
    · subst hjk
      rw [calls_self] at hf
      exact h.replied.reply j f hf
    · rw [calls_ne _ _ hjk] at hf
      exact h.replied.reply j f hf

theorem inv_read (h : Inv p) (hpc : (p.calls k).pc = .read) :
    Inv (p.setCall k { p.calls k with pc := .leave, reply := some (p.rxbuf (p.calls k).idx) }) := by
  have hopen := open_of_pc hpc nofun nofun
  have hsender := h.replied.stored k hopen (.inr (h.replied.reading k hpc))
  constructor
  · exact h.owned.go hopen _ _ ⟨nofun, nofun⟩ rfl rfl (fun _ hi => hi) fun _ hf => .inl hf
  · refine h.replied.go h.owned hopen _ _ rfl rfl (fun _ _ => ⟨rfl, rfl⟩) (fun _ => hsender) nofun ?_
    intro f hf
    rw [← Option.some.inj hf]
    exact hsender

theorem incoming_spec (h : incoming p x = some (i, f)) :
    ∃ sent ∈ p.wire, f.sender = sent.sender ∧ f.index = sent.index := by
  obtain ⟨j, -, h⟩ := Option.bind_eq_some_iff.mp h
  obtain ⟨sent, hsent, h⟩ := Option.bind_eq_some_iff.mp h
  cases h
  exact ⟨sent, List.mem_of_getElem? hsent, rfl, rfl⟩

theorem inv_turn (h : Inv p) (hallowed : Allowed p (.turn k x)) : Inv (turn p k x) := by
  cases hpc : (p.calls k).pc with
  | getindex =>
    simp only [Allowed, Ready, turn, hpc] at hallowed ⊢
    exact inv_getindex h hpc (getindex_empty hallowed)
  | mark =>
    simp only [turn, hpc]
    refine inv_setStat h (open_of_pc hpc nofun nofun) .tx nofun _ ?_ rfl ?_ nofun rfl
    · exact ⟨nofun, nofun⟩
    · exact fun hs => hs.elim nofun nofun
  | send =>
    simp only [Allowed, Ready, turn, hpc] at hallowed ⊢
    rw [if_pos hallowed]
    exact inv_send h (open_of_pc hpc nofun nofun) x.data
  | look =>
    have hopen := open_of_pc hpc nofun nofun
    simp only [turn, hpc]
    split
    case isTrue hrcvd =>
      refine inv_setStat h hopen .complete nofun _ ?_ rfl ?_ ?_ rfl
      · exact ⟨nofun, nofun⟩
      · exact fun _ => h.replied.stored k hopen (.inl hrcvd)
      · exact fun _ => rfl
    case isFalse => exact inv_go h hopen _ ⟨nofun, nofun⟩ rfl nofun rfl
  | receive =>
    have hopen := open_of_pc hpc nofun nofun
    have hretry := open_retry (p.calls k) x.next
    simp only [turn, hpc]
    split
    · exact inv_go h hopen _ hretry.1 rfl hretry.2 rfl
    · rename_i i f hin
      obtain ⟨sent, hsent, hsender, hindex⟩ := incoming_spec hin
      have hf : (p.calls f.sender).Open ∧ (p.calls f.sender).idx = f.index := by
        rw [hsender, hindex]
        exact h.owned.wire sent hsent
      exact inv_receive (inv_lose h i) hpc hf x.next
  | read =>
    simp only [turn, hpc]
    exact inv_read h hpc
  | leave =>
    simp only [Allowed, Ready, turn, hpc] at hallowed ⊢
    exact inv_leave h (open_of_pc hpc nofun nofun) hallowed
  | done =>
    simp only [turn, hpc]
    exact h

def crossed : List Event :=
  let x (packet : Option Nat) : Choice := ⟨[], true, packet, [], 1, .look⟩
  [.turn 0 (x none), .turn 0 (x none), .turn 0 (x none), .turn 1 (x none), .turn 1 (x none),
    .turn 1 (x none), .turn 0 (x none), .turn 0 (x (some 1)), .turn 1 (x none), .turn 1 (x none),
    .turn 1 (x none)]

end

end TienKung.Nic
