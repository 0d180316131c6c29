import TienKung.Soem.ProcessData

/-!
# The exchange of process data

The datagrams go round the ring of slaves. A slave takes the bytes its output
FMMUs map, puts its inputs where its input FMMUs map them and adds to the
working counter: one for a read, one for a write and three for both, of which an
LRW datagram counts the write twice. Frames may be lost at any slave.

However the frames fare, no slave's process data is torn: its outputs and inputs
are all of this cycle, or all of the one before.
-/

namespace TienKung

-- ---------------------------------------------------------------------------
-- The ring
-- ---------------------------------------------------------------------------

/-- A slave on the ring. Its FMMUs map bytes from the first address of an area up to the second. -/
structure RingSlave where
  present : Bool
  outputs : Nat × Nat
  inputs : Nat × Nat
  /-- Its inputs, by logical address. -/
  answer : IoMap

def RingSlave.area (s : RingSlave) : Direction → Nat × Nat
  | .output => s.outputs
  | .input => s.inputs

def InArea (area : Nat × Nat) (a : Nat) : Prop := area.1 ≤ a ∧ a < area.2

instance (area : Nat × Nat) (a : Nat) : Decidable (InArea area a) :=
  inferInstanceAs (Decidable (_ ∧ _))

def Datagram.Meets (d : Datagram) (area : Nat × Nat) : Prop :=
  area.1 < area.2 ∧ 0 < d.data.length ∧ area.1 < d.logAdr + d.data.length ∧ d.logAdr < area.2

instance (d : Datagram) (area : Nat × Nat) : Decidable (d.Meets area) :=
  inferInstanceAs (Decidable (_ ∧ _))

def RingSlave.serves (s : RingSlave) (dir : Direction) (d : Datagram) : Bool :=
  s.present && d.cmd.carries dir && decide (d.Meets (s.area dir))

def RingSlave.fill (s : RingSlave) (d : Datagram) : Datagram :=
  if s.serves .input d then
    { d with data := d.data.mapIdx fun i x =>
        if InArea s.inputs (d.logAdr + i) then s.answer (d.logAdr + i) else x }
  else d

def RingSlave.take (s : RingSlave) (d : Datagram) (taken : IoMap) : IoMap := fun a =>
  if s.serves .output d ∧ InArea s.outputs a then Memory.write taken d.logAdr d.data a else taken a

def RingSlave.count (s : RingSlave) (d : Datagram) : Nat :=
  (if s.serves .input d then 1 else 0) +
    if s.serves .output d then (if d.cmd = .lrw then 2 else 1) else 0

def fills (ring : List RingSlave) (d : Datagram) : Datagram := ring.foldl (fun d s => s.fill d) d

def workingCounter (ring : List RingSlave) (d : Datagram) : Nat := (ring.map (·.count d)).sum

-- ---------------------------------------------------------------------------
-- Frames
-- ---------------------------------------------------------------------------

/-- A frame is lost behind a number of slaves, or comes back; what else is in its buffer then, and
the working counter of its second datagram, may be anything. -/
inductive Fate
  | lost (behind : Nat)
  | back (rest : Nat → UInt8) (frmw : Nat)

def Fate.reaches : Fate → Nat → Bool
  | .lost behind, i => i < behind
  | .back .., _ => true

def Fate.arrives : Fate → Bool
  | .lost _ => false
  | .back .. => true

def Fate.reply (second : Bool) (ring : List RingSlave) (d : Datagram) : Fate → Option RxBuf
  | .lost _ => none
  | .back rest frmw =>
    let wkc := workingCounter ring d
    some ⟨d.cmd.code, Memory.write rest 0 ((fills ring d).data ++ Words.low 2 wkc),
      if second then frmw else wkc % 256 ^ 2⟩

/-- The first frame has a second datagram when distributed clocks are used. -/
def replies (ring : List RingSlave) : (second : Bool) → List (Datagram × Fate) → List (Option RxBuf)
  | _, [] => []
  | second, (d, fate) :: frames => fate.reply second ring d :: replies ring false frames

def takes (ring : List RingSlave) (taken : Nat → IoMap) (frame : Datagram × Fate) : Nat → IoMap :=
  fun i => (ring[i]?).elim (taken i) fun s =>
    if frame.2.reaches i then s.take (fills (ring.take i) frame.1) (taken i) else taken i

structure Exchanged where
  iomap : IoMap
  wkc : Int
  taken : Nat → IoMap

/-- `ec_send_processdata` and `ec_receive_processdata`. -/
def exchange (g : EcGroup) (hasdc : Bool) (ring : List RingSlave) (fates : List Fate)
    (iomap : IoMap) (taken : Nat → IoMap) : Exchanged :=
  let ds := sendProcessdata g iomap
  let frames := ds.zip fates
  let received := receiveProcessdata hasdc (ds.head?.elim 0 (·.data.length)) iomap
    ((pushed ds).zip (replies ring hasdc frames))
  ⟨received.1, received.2, frames.foldl (takes ring) taken⟩

section
variable {ring : List RingSlave} {s : RingSlave} {d : Datagram} {m : IoMap} {a : Nat}
  {dir : Direction}

-- ---------------------------------------------------------------------------
-- What slaves make of datagrams
-- ---------------------------------------------------------------------------

@[simp] theorem fill_cmd : (s.fill d).cmd = d.cmd := by
  rw [RingSlave.fill]
  split_ifs <;> rfl

@[simp] theorem fill_logAdr : (s.fill d).logAdr = d.logAdr := by
  rw [RingSlave.fill]
  split_ifs <;> rfl

@[simp] theorem length_fill : (s.fill d).data.length = d.data.length := by
  rw [RingSlave.fill]
  split_ifs
  · exact List.length_mapIdx
  · rfl

theorem serves_iff : s.serves dir d ↔
    s.present ∧ d.cmd.carries dir ∧ d.Meets (s.area dir) := by
  simp [RingSlave.serves, and_assoc]

/-- Filling leaves all of a datagram but the data. -/
def Datagram.Alike (d e : Datagram) : Prop :=
  d.cmd = e.cmd ∧ d.logAdr = e.logAdr ∧ d.data.length = e.data.length

theorem fills_alike (ring : List RingSlave) (d : Datagram) : (fills ring d).Alike d := by
  induction ring generalizing d with
  | nil => exact ⟨rfl, rfl, rfl⟩
  | cons s ring ih =>
    obtain ⟨hcmd, hlog, hlen⟩ := ih (s.fill d)
    exact ⟨hcmd.trans fill_cmd, hlog.trans fill_logAdr, hlen.trans length_fill⟩

def RingSlave.onto (s : RingSlave) (m : IoMap) : IoMap := fun a =>
  if s.present ∧ InArea s.inputs a then s.answer a else m a

def answers (ring : List RingSlave) (m : IoMap) : IoMap := ring.foldl (fun m s => s.onto m) m

theorem meets_of_within {area : Nat × Nat} (h : Memory.Within a d.logAdr d.data.length)
    (ha : InArea area a) : d.Meets area := by
  obtain ⟨hle, hlt⟩ := h
  obtain ⟨hle', hlt'⟩ := ha
  exact ⟨by omega, by omega, by omega, by omega⟩

theorem fill_data (hd : d.data = Memory.read m d.logAdr d.data.length)
    (hin : d.cmd.carries .input) :
    (s.fill d).data = Memory.read (s.onto m) d.logAdr d.data.length := by
  rw [RingSlave.fill]
  split_ifs with hserves
  · have hpresent : s.present := by
      simp only [RingSlave.serves, Bool.and_eq_true] at hserves
      exact hserves.1.1
    refine List.ext_getElem? fun i => ?_
    by_cases hi : i < d.data.length
    · have hcell := congrArg (·[i]?) hd
      simp only [Memory.getElem?_read hi] at hcell
      simp only [List.getElem?_mapIdx, hcell, Memory.getElem?_read hi, Option.map_some,
        RingSlave.onto, hpresent, true_and]
    · rw [List.getElem?_eq_none (by simpa using hi), List.getElem?_eq_none (by simpa using hi)]
  · rw [hd, Memory.length_read]
    refine Memory.read_congr fun a ha => (if_neg fun hs => hserves ?_).symm
    have hmeets : d.Meets (s.area .input) := meets_of_within ha hs.2
    simp [RingSlave.serves, hs.1, hin, hmeets]

theorem fill_of_not_input (hin : d.cmd.carries .input = false) : s.fill d = d := by
  rw [RingSlave.fill, if_neg]
  simp [RingSlave.serves, hin]

theorem fills_of_not_input (hin : d.cmd.carries .input = false) : fills ring d = d := by
  induction ring with
  | nil => rfl
  | cons s ring ih => rwa [fills, List.foldl_cons, fill_of_not_input hin]

theorem fills_data (hd : d.data = Memory.read m d.logAdr d.data.length)
    (hin : d.cmd.carries .input) :
    (fills ring d).data = Memory.read (answers ring m) d.logAdr d.data.length := by
  induction ring generalizing d m with
  | nil => exact hd
  | cons s ring ih =>
    have hfill := fill_data (s := s) hd hin
    have h := ih (d := s.fill d) (m := s.onto m) (by rwa [fill_logAdr, length_fill])
      (by rwa [fill_cmd])
    rwa [fill_logAdr, length_fill] at h

theorem answers_of_not_in (h : ∀ s ∈ ring, ¬ InArea s.inputs a) : answers ring m a = m a := by
  induction ring generalizing m with
  | nil => rfl
  | cons s ring ih =>
    obtain ⟨hs, hring⟩ := List.forall_mem_cons.mp h
    refine (ih hring).trans (if_neg fun ha => hs ha.2)

theorem answers_of_in {before after : List RingSlave}
    (h : (before ++ s :: after).Pairwise fun s t => s.inputs.2 ≤ t.inputs.1)
    (ha : InArea s.inputs a) :
    answers (before ++ s :: after) m a = if s.present then s.answer a else m a := by
  obtain ⟨hle, hlt⟩ := ha
  obtain ⟨-, hrest, hbefore⟩ := List.pairwise_append.mp h
  have hafter := (List.pairwise_cons.mp hrest).1
  rw [answers, List.foldl_append, List.foldl_cons]
  refine (answers_of_not_in fun t ht hin => ?_).trans ?_
  · have := hafter t ht
    have := hin.1
    omega
  · rw [RingSlave.onto]
    have hm : answers before m a = m a := answers_of_not_in fun t ht hin => by
      have := hbefore t ht s (List.mem_cons_self ..)
      have := hin.2
      omega
    rw [answers] at hm
    simp only [hm, InArea, hle, hlt, and_self, and_true]

theorem take_of_not_output (hout : d.cmd.carries .output = false) (taken : IoMap) :
    s.take d taken = taken := by
  funext a
  simp [RingSlave.take, RingSlave.serves, hout]

theorem take_of_in (hd : d.data = Memory.read m d.logAdr d.data.length) (taken : IoMap)
    (ha : InArea s.outputs a) :
    s.take d taken a =
      if s.present ∧ d.cmd.carries .output ∧ Memory.Within a d.logAdr d.data.length then m a
      else taken a := by
  rw [RingSlave.take, hd, Memory.write_read, ← hd]
  by_cases hwithin : Memory.Within a d.logAdr d.data.length
  · have hmeets : d.Meets (s.area .output) := meets_of_within hwithin ha
    simp only [RingSlave.serves, ha, hwithin, hmeets, and_true, decide_true, Bool.and_true,
      Bool.and_eq_true, if_true]
  · simp [hwithin]

end

-- ---------------------------------------------------------------------------
-- What is received
-- ---------------------------------------------------------------------------

def credit (ring : List RingSlave) (frame : Datagram × Fate) : Nat :=
  if frame.2.arrives then
    workingCounter ring frame.1 % 256 ^ 2 * if frame.1.cmd = .lwr then 2 else 1
  else 0

def Brings (frame : Datagram × Fate) (a : Nat) : Prop :=
  frame.2.arrives ∧ frame.1.cmd.carries .input ∧ Memory.Within a frame.1.logAdr frame.1.data.length

instance (frame : Datagram × Fate) (a : Nat) : Decidable (Brings frame a) :=
  inferInstanceAs (Decidable (_ ∧ _))

def push (d : Datagram) : Pushed := ⟨d.logAdr, d.data.length⟩

def entries (ring : List RingSlave) (second : Bool) (frames : List (Datagram × Fate)) :
    List (Pushed × Option RxBuf) :=
  (frames.map fun x => push x.1).zip (replies ring second frames)

section
variable {ring : List RingSlave} {d : Datagram} {m iomap : IoMap} {a dcl : Nat}
  {second hasdc : Bool} {ds : List Datagram} {fates : List Fate}
  {frames : List (Datagram × Fate)} {r : Reception}

theorem pushed_zip (ring : List RingSlave) (second : Bool) (fates : List Fate)
    (h : ds.length ≤ Nic.ecMaxbuf) :
    (pushed ds).zip (replies ring second (ds.zip fates)) = entries ring second (ds.zip fates) := by
  have hpushed : pushed ds = ds.map push := by
    rw [pushed, List.take_of_length_le h]
    rfl
  rw [hpushed, entries]
  clear h hpushed
  induction ds generalizing fates second with
  | nil => rfl
  | cons d ds ih =>
    cases fates with
    | nil => simp [replies]
    | cons fate fates =>
      simp only [List.zip_cons_cons, List.map_cons, replies]
      exact congrArg _ (ih false fates)

theorem reply_spec (second : Bool) (ring : List RingSlave) (d : Datagram) (rest : Nat → UInt8)
    (frmw : Nat) {rx : RxBuf} (h : (Fate.back rest frmw).reply second ring d = some rx) :
    rx.cmd = d.cmd.code ∧ Memory.read rx.bytes 0 d.data.length = (fills ring d).data ∧
      rx.wkcAt d.data.length = workingCounter ring d % 256 ^ 2 ∧
      (second = false → rx.wkc = workingCounter ring d % 256 ^ 2) := by
  obtain rfl := Option.some.inj h
  have hlen := (fills_alike ring d).2.2
  have hall := Memory.read_write_self rest 0
    ((fills ring d).data ++ Words.low 2 (workingCounter ring d))
  rw [List.length_append, Words.length_low, hlen, Memory.read_add] at hall
  obtain ⟨hdata, hwkc⟩ := List.append_inj hall (by rw [Memory.length_read, hlen])
  rw [Nat.zero_add] at hwkc
  refine ⟨rfl, hdata, ?_, fun hsecond => if_neg (by simp [hsecond])⟩
  exact (congrArg Words.value hwkc).trans (Words.value_low ..)

theorem frame_back (r : Reception) (ring : List RingSlave) (d : Datagram) (rest : Nat → UInt8)
    (frmw : Nat) {rx : RxBuf} (h : (Fate.back rest frmw).reply r.first ring d = some rx)
    (hfirst : r.first = true → dcl = d.data.length ∧ r.wkc = 0) :
    r.frame dcl (push d) rx =
      ⟨if d.cmd.carries .input then Memory.write r.iomap d.logAdr (fills ring d).data else r.iomap,
        false, r.wkc + credit ring (d, .back rest frmw), true⟩ := by
  obtain ⟨hcmd, hdata, hat, hwkc⟩ := reply_spec _ ring d rest frmw h
  rw [Reception.frame, hcmd]
  cases hf : r.first with
  | true =>
    obtain ⟨rfl, hzero⟩ := hfirst hf
    cases hd : d.cmd <;>
      simp [Command.code, Command.carries, credit, Fate.arrives, hd, hat, hdata, hzero, push]
  | false =>
    cases hd : d.cmd <;>
      simp [Command.code, Command.carries, credit, Fate.arrives, hd, hwkc hf, hdata, push]

theorem entry_spec (r : Reception) (dcl : Nat) (ring : List RingSlave) {frame : Datagram × Fate}
    (hread : frame.1.cmd.carries .input →
      frame.1.data = Memory.read m frame.1.logAdr frame.1.data.length)
    (hfirst : r.first = true → frame.2.arrives → dcl = frame.1.data.length ∧ r.wkc = 0) :
    let r' := r.entry dcl (push frame.1, frame.2.reply r.first ring frame.1)
    (∀ a, r'.iomap a = if Brings frame a then answers ring m a else r.iomap a) ∧
      r'.wkc = r.wkc + credit ring frame ∧ r'.validWkc = (frame.2.arrives || r.validWkc) ∧
      r'.first = (!frame.2.arrives && r.first) := by
  obtain ⟨d, fate⟩ := frame
  cases fate with
  | lost behind => simp [Reception.entry, Fate.reply, Brings, credit, Fate.arrives]
  | back rest frmw =>
    have hframe := frame_back r ring d rest frmw rfl fun hf => hfirst hf rfl
    simp only [Reception.entry, Option.elim_some, Fate.reply, hframe, Fate.arrives, Bool.true_or,
      Bool.not_true, Bool.false_and, and_self, and_true]
    intro a
    cases hin : d.cmd.carries .input with
    | false => simp [Brings, hin]
    | true =>
      rw [if_pos rfl, fills_data (hread hin) hin, Memory.write_read]
      simp [Brings, hin, Fate.arrives]

theorem entries_cons (x : Datagram × Fate) : entries ring second (x :: frames) =
    (push x.1, x.2.reply second ring x.1) :: entries ring false frames := rfl

theorem foldl_lost (ring : List RingSlave) (second : Bool) (dcl : Nat) (r : Reception)
    (h : ∀ x ∈ frames, x.2.arrives = false) :
    (entries ring second frames).foldl (Reception.entry dcl) r = r := by
  induction frames generalizing second with
  | nil => rfl
  | cons x frames ih =>
    obtain ⟨hx, hframes⟩ := List.forall_mem_cons.mp h
    obtain ⟨d, fate⟩ := x
    cases fate with
    | lost behind => exact ih false hframes
    | back rest frmw => cases hx

theorem foldl_entries_of_lost (ring : List RingSlave) (a : Nat)
    (h : ∀ x ∈ frames, x.2.arrives = false) :
    (∀ x ∈ frames, ¬ Brings x a) ∧ (frames.map (credit ring)).sum = 0 ∧
      frames.any (·.2.arrives) = false := by
  refine ⟨fun x hx hbrings => ?_, ?_, by simpa using h⟩
  · exact Bool.false_ne_true ((h x hx).symm.trans hbrings.1)
  · refine List.sum_eq_zero fun n hn => ?_
    obtain ⟨x, hx, rfl⟩ := List.mem_map.mp hn
    rw [credit, if_neg (by simp [h x hx])]

/-- The first frame has come back with its second datagram, if any has. -/
def FirstArrives (frames : List (Datagram × Fate)) : Prop :=
  (∀ x ∈ frames.head?, x.2.arrives) ∨ ∀ x ∈ frames, x.2.arrives = false

theorem foldl_entries (r : Reception) (dcl : Nat) (ring : List RingSlave)
    (hread : ∀ x ∈ frames, x.1.cmd.carries .input →
      x.1.data = Memory.read m x.1.logAdr x.1.data.length)
    (hfirst : r.first = true →
      (∀ x ∈ frames.head?, dcl = x.1.data.length) ∧ r.wkc = 0 ∧ FirstArrives frames) :
    let r' := (entries ring r.first frames).foldl (Reception.entry dcl) r
    (∀ a, r'.iomap a = if ∃ x ∈ frames, Brings x a then answers ring m a else r.iomap a) ∧
      r'.wkc = r.wkc + (frames.map (credit ring)).sum ∧
      r'.validWkc = (frames.any (·.2.arrives) || r.validWkc) := by
  induction frames generalizing r with
  | nil => simp [entries, replies]
  | cons x frames ih =>
    by_cases hall : ∀ y ∈ x :: frames, y.2.arrives = false
    · rw [foldl_lost _ _ _ _ hall]
      obtain ⟨-, hsum, hany⟩ := foldl_entries_of_lost ring 0 hall
      rw [hsum, hany]
      refine ⟨fun a => (if_neg ?_).symm, rfl, (Bool.false_or _).symm⟩
      rintro ⟨y, hy, hbrings⟩
      exact (foldl_entries_of_lost ring a hall).1 y hy hbrings
    · obtain ⟨hx, hframes⟩ := List.forall_mem_cons.mp hread
      obtain ⟨hmap, hwkc, hvalid, hf⟩ := entry_spec r dcl ring hx
        fun hf _ => ⟨(hfirst hf).1 x rfl, (hfirst hf).2.1⟩
      have hnext : (r.entry dcl (push x.1, x.2.reply r.first ring x.1)).first = false := by
        rw [hf]
        cases hrf : r.first with
        | false => exact Bool.and_false _
        | true =>
          rcases (hfirst hrf).2.2 with harrives | hlost
          · rw [harrives x rfl]
            rfl
          · exact absurd hlost hall
      obtain ⟨hmap', hwkc', hvalid'⟩ := ih (r.entry dcl (push x.1, x.2.reply r.first ring x.1))
        hframes fun h => absurd (hnext.symm.trans h) Bool.false_ne_true
      rw [hnext] at hmap' hwkc' hvalid'
      refine ⟨fun a => (hmap' a).trans ?_, hwkc'.trans ?_, hvalid'.trans ?_⟩
      · by_cases hrest : ∃ y ∈ frames, Brings y a
        · obtain ⟨y, hy, hbrings⟩ := hrest
          rw [if_pos ⟨y, hy, hbrings⟩, if_pos ⟨y, List.mem_cons_of_mem x hy, hbrings⟩]
        · rw [if_neg hrest, hmap]
          refine if_congr ⟨fun h => ⟨x, List.mem_cons_self .., h⟩, ?_⟩ rfl rfl
          rintro ⟨y, hy, hbrings⟩
          rcases List.mem_cons.mp hy with rfl | hy
          · exact hbrings
          · exact absurd ⟨y, hy, hbrings⟩ hrest
      · rw [hwkc, List.map_cons, List.sum_cons, Nat.add_assoc]
      · rw [hvalid, List.any_cons, ← Bool.or_assoc, Bool.or_comm (List.any ..)]

theorem receive_spec
    (hread : ∀ x ∈ frames, x.1.cmd.carries .input →
      x.1.data = Memory.read m x.1.logAdr x.1.data.length)
    (hdcl : ∀ x ∈ frames.head?, dcl = x.1.data.length)
    (hdc : hasdc = true → FirstArrives frames) :
    let r := receiveProcessdata hasdc dcl iomap (entries ring hasdc frames)
    (∀ a, r.1 a = if ∃ x ∈ frames, Brings x a then answers ring m a else iomap a) ∧
      r.2 = if frames.any (·.2.arrives) then ((frames.map (credit ring)).sum : Int) else -1 := by
  obtain ⟨hmap, hwkc, hvalid⟩ := foldl_entries ⟨iomap, hasdc, 0, false⟩ dcl ring
    hread fun hf => ⟨hdcl, rfl, hdc hf⟩
  refine ⟨hmap, ?_⟩
  rw [Bool.or_false] at hvalid
  simp only [receiveProcessdata, hvalid, hwkc, Nat.zero_add]

end

-- ---------------------------------------------------------------------------
-- The frame of a slave's process data
-- ---------------------------------------------------------------------------

def Datagram.carriesSpan (dir : Direction) (start stop : Nat) (d : Datagram) : Bool :=
  d.cmd.carries dir && decide (d.logAdr ≤ start) && decide (stop ≤ d.logAdr + d.data.length)

/-- The number of the frame that carries a span, whatever the image holds. -/
def frameOf (g : EcGroup) (dir : Direction) (start stop : Nat) : Nat :=
  (sendProcessdata g fun _ => 0).findIdx (·.carriesSpan dir start stop)

/-- One frame at most has bytes of the span for the direction; it has all of them. `fate` is what
becomes of it, if anything. -/
def FramedOnce (dir : Direction) (frames : List (Datagram × Fate)) (area : Nat × Nat)
    (fate : Option Fate) : Prop :=
  ∃ before d after, frames = before ++ fate.elim [] (fun f => (d, f) :: after) ∧
    d.cmd.carries dir ∧ d.logAdr ≤ area.1 ∧ area.2 ≤ d.logAdr + d.data.length ∧
    ∀ x ∈ before ++ after, x.1.cmd.carries dir →
      x.1.logAdr + x.1.data.length ≤ area.1 ∨ area.2 ≤ x.1.logAdr

section
variable {dir : Direction} {ds : List Datagram} {d : Datagram} {fates : List Fate}
  {frames : List (Datagram × Fate)} {area : Nat × Nat} {fate : Option Fate} {a i : Nat}
  {s : RingSlave} {ring : List RingSlave} {m : IoMap}

theorem carriesSpan_iff {start stop : Nat} : d.carriesSpan dir start stop ↔
    d.cmd.carries dir ∧ d.logAdr ≤ start ∧ stop ≤ d.logAdr + d.data.length := by
  simp [Datagram.carriesSpan, and_assoc]

theorem frameOf_eq (g : EcGroup) (dir : Direction) (start stop : Nat) (iomap : IoMap) :
    frameOf g dir start stop =
      (sendProcessdata g iomap).findIdx (·.carriesSpan dir start stop) := by
  have hshape : ∀ ds : List Datagram, ds.findIdx (·.carriesSpan dir start stop) =
      (ds.map Datagram.shape).findIdx fun s =>
        s.1.carries dir && decide (s.2.1 ≤ start) && decide (stop ≤ s.2.1 + s.2.2) := by
    intro ds
    rw [List.findIdx_map]
    rfl
  rw [frameOf, hshape, hshape, sendProcessdata_shape g _ iomap]

theorem zip_split (before : List Datagram) (d : Datagram) (after : List Datagram)
    (fates : List Fate) : (before ++ d :: after).zip fates =
      before.zip fates ++ (fates[before.length]?).elim []
        fun f => (d, f) :: after.zip (fates.drop (before.length + 1)) := by
  induction before generalizing fates with
  | nil => cases fates <;> rfl
  | cons b before ih =>
    cases fates with
    | nil => rfl
    | cons f fates => exact congrArg ((b, f) :: ·) (ih fates)

theorem CarriedOnce.framed {start stop : Nat} (h : CarriedOnce dir ds start stop)
    (hlt : start < stop) (fates : List Fate) :
    let k := ds.findIdx (·.carriesSpan dir start stop)
    (∃ d, ds[k]? = some d ∧ d.cmd.carries dir ∧ d.logAdr ≤ start ∧
      stop ≤ d.logAdr + d.data.length) ∧ FramedOnce dir (ds.zip fates) (start, stop) fates[k]? := by
  obtain ⟨before, d, after, rfl, hcarries, hstart, hstop, hothers⟩ := h
  have hidx : (before ++ d :: after).findIdx (·.carriesSpan dir start stop) = before.length := by
    have hbefore : ∀ e ∈ before, e.carriesSpan dir start stop = false := fun e he =>
      Bool.eq_false_iff.mpr fun hspan => by
        obtain ⟨hdir, hle, hge⟩ := carriesSpan_iff.mp hspan
        rcases hothers e (List.mem_append_left _ he) hdir with h | h <;> omega
    rw [List.findIdx_append, if_neg, List.findIdx_cons,
      carriesSpan_iff.mpr ⟨hcarries, hstart, hstop⟩]
    · simp
    · rw [List.findIdx_eq_length_of_false hbefore]
      exact Nat.lt_irrefl _
  rw [hidx]
  refine ⟨⟨d, by simp, hcarries, hstart, hstop⟩, before.zip fates, d, _,
    zip_split before d after fates, hcarries, hstart, hstop, fun x hx => hothers x.1 ?_⟩
  rcases List.mem_append.mp hx with hx | hx
  · exact List.mem_append_left _ (List.of_mem_zip hx).1
  · exact List.mem_append_right _ (List.of_mem_zip hx).1

theorem FramedOnce.exists_iff (h : FramedOnce dir frames area fate) (ha : InArea area a)
    (p : Fate → Bool) : (∃ x ∈ frames, p x.2 ∧ x.1.cmd.carries dir ∧
      Memory.Within a x.1.logAdr x.1.data.length) ↔ fate.any p := by
  obtain ⟨before, d, after, rfl, hcarries, hstart, hstop, hothers⟩ := h
  obtain ⟨hle, hlt⟩ := ha
  constructor
  · rintro ⟨x, hx, hp, hdir, hwithin, hwithin'⟩
    have hnot : x ∉ before ++ after := fun hx => by
      rcases hothers x hx hdir with h | h <;> omega
    rcases List.mem_append.mp hx with hx | hx
    · exact absurd (List.mem_append_left _ hx) hnot
    · cases fate with
      | none => exact (List.not_mem_nil hx).elim
      | some f =>
        rcases List.mem_cons.mp hx with rfl | hx
        · exact hp
        · exact absurd (List.mem_append_right _ hx) hnot
  · intro hp
    obtain ⟨f, rfl, hp⟩ := (Option.any_eq_true ..).mp hp
    exact ⟨(d, f), by simp, hp, hcarries, hstart.trans hle, lt_of_lt_of_le hlt hstop⟩

theorem takes_eq
    (hread : ∀ x ∈ frames, x.1.cmd.carries .output →
      x.1.data = Memory.read m x.1.logAdr x.1.data.length)
    (hi : ring[i]? = some s) (ha : InArea s.outputs a) (hin : ∀ t ∈ ring, ¬ InArea t.inputs a)
    (taken : Nat → IoMap) :
    frames.foldl (takes ring) taken i a =
      if s.present ∧ ∃ x ∈ frames, x.2.reaches i ∧ x.1.cmd.carries .output ∧
        Memory.Within a x.1.logAdr x.1.data.length then m a else taken i a := by
  induction frames using List.reverseRecOn with
  | nil => simp
  | append_singleton frames x ih =>
    have ih := ih fun y hy => hread y (List.mem_append_left _ hy)
    have hx := hread x (by simp)
    have hstep : takes ring (frames.foldl (takes ring) taken) x i a =
        if s.present ∧ x.2.reaches i ∧ x.1.cmd.carries .output ∧
          Memory.Within a x.1.logAdr x.1.data.length then m a
        else frames.foldl (takes ring) taken i a := by
      rw [takes, hi, Option.elim_some]
      obtain ⟨hcmd, hlog, hlen⟩ := fills_alike (ring.take i) x.1
      cases hout : x.1.cmd.carries .output with
      | false => simp [take_of_not_output (hcmd ▸ hout)]
      | true =>
        have hdata : ∃ m', (fills (ring.take i) x.1).data =
            Memory.read m' x.1.logAdr x.1.data.length ∧ m' a = m a := by
          cases hcarries : x.1.cmd.carries .input with
          | true =>
            exact ⟨_, fills_data (hx hout) hcarries,
              answers_of_not_in fun t ht => hin t (List.mem_of_mem_take ht)⟩
          | false => exact ⟨m, by rw [fills_of_not_input hcarries]; exact hx hout, rfl⟩
        obtain ⟨m', hdata, hm'⟩ := hdata
        cases hreaches : x.2.reaches i with
        | false => simp
        | true =>
          rw [if_pos rfl, take_of_in (by rwa [hlog, hlen]) _ ha, hcmd, hlog, hlen, hm', hout]
          simp only [true_and]
    rw [List.foldl_append, List.foldl_cons, List.foldl_nil, hstep, ih]
    by_cases hlast : s.present ∧ x.2.reaches i ∧ x.1.cmd.carries .output ∧
        Memory.Within a x.1.logAdr x.1.data.length
    · rw [if_pos hlast, if_pos ⟨hlast.1, x, by simp, hlast.2⟩]
    · rw [if_neg hlast]
      refine if_congr ⟨fun ⟨hp, y, hy, h⟩ => ⟨hp, y, List.mem_append_left _ hy, h⟩, ?_⟩ rfl rfl
      rintro ⟨hp, y, hy, h⟩
      rcases List.mem_append.mp hy with hy | hy
      · exact ⟨hp, y, hy, h⟩
      · obtain rfl := List.mem_singleton.mp hy
        exact absurd ⟨hp, h⟩ hlast

end

-- ---------------------------------------------------------------------------
-- Nothing is torn
-- ---------------------------------------------------------------------------

/-- The slaves on the ring are those that have been mapped. All are byte oriented. -/
structure RingOf (slaves : List SlaveIo) (ring : List RingSlave) : Prop where
  bytes : ∀ s ∈ slaves, ∀ dir, s.bits dir = 0 ∨ s.bits dir > 7
  areas : ∀ dir, ring.map (·.area dir) = (layout slaves dir).map fun p => (p.1 / 8, p.2 / 8)

def readArea (m : IoMap) (area : Nat × Nat) : List UInt8 :=
  Memory.read m area.1 (area.2 - area.1)

section
variable {slaves : List SlaveIo} {ring : List RingSlave} {dir : Direction} {i a : Nat}
  {r : RingSlave} {m m' : IoMap} {area : Nat × Nat}

theorem readArea_congr (h : ∀ a, InArea area a → m a = m' a) : readArea m area = readArea m' area :=
  Memory.read_congr fun a ha => h a ⟨ha.1, by have := ha.1; have := ha.2; omega⟩

theorem RingOf.area_eq (h : RingOf slaves ring) {place : Nat × Nat}
    (hplace : (layout slaves dir)[i]? = some place) (hr : ring[i]? = some r) :
    r.area dir = (place.1 / 8, place.2 / 8) := by
  have hareas := congrArg (·[i]?) (h.areas dir)
  simp only [List.getElem?_map, hplace, hr, Option.map_some] at hareas
  exact Option.some.inj hareas

theorem RingOf.mem_layout (h : RingOf slaves ring) (dir : Direction) (hr : r ∈ ring) :
    ∃ place ∈ layout slaves dir, r.area dir = (place.1 / 8, place.2 / 8) := by
  have hmem : r.area dir ∈ ring.map (·.area dir) := List.mem_map_of_mem hr
  rw [h.areas] at hmem
  obtain ⟨place, hplace, heq⟩ := List.mem_map.mp hmem
  exact ⟨place, hplace, heq.symm⟩

theorem RingOf.length_eq (h : RingOf slaves ring) : ring.length = slaves.length := by
  have hareas := congrArg List.length (h.areas .output)
  rwa [List.length_map, List.length_map, layout, length_places, List.length_map] at hareas

theorem RingOf.pairwise (h : RingOf slaves ring) (dir : Direction) :
    ring.Pairwise fun s t => (s.area dir).2 ≤ (t.area dir).1 := by
  rw [← List.pairwise_map (R := fun a b : Nat × Nat => a.2 ≤ b.1), h.areas, List.pairwise_map]
  exact pairwise_places.imp Nat.div_le_div_right

theorem RingOf.apart (h : RingOf slaves ring) (hc : ∀ s ∈ slaves, ∀ dir, s.Covers dir)
    {t : RingSlave} (hr : r ∈ ring) (ht : t ∈ ring) (ha : InArea r.outputs a) :
    ¬ InArea t.inputs a := by
  obtain ⟨place, hplace, heq⟩ := h.mem_layout .output hr
  obtain ⟨place', hplace', heq'⟩ := h.mem_layout .input ht
  have hout := outputs_within hc place hplace
  have hin := (inputs_within hc place' hplace').1
  have hlt : a < r.outputs.2 := ha.2
  intro ha'
  have hle : t.inputs.1 ≤ a := ha'.1
  rw [show r.outputs = _ from heq] at hlt
  rw [show t.inputs = _ from heq'] at hle
  simp only at hlt hle
  omega

theorem RingOf.answers (h : RingOf slaves ring) (hr : ring[i]? = some r) (ha : InArea r.inputs a) :
    TienKung.answers ring m a = if r.present then r.answer a else m a := by
  obtain ⟨before, after, rfl⟩ := List.append_of_mem (List.mem_of_getElem? hr)
  exact answers_of_in (h.pairwise .input) ha

end

section
variable {slaves : List SlaveIo} {ring : List RingSlave} {g : EcGroup} {hasdc : Bool}
  {fates : List Fate} {iomap : IoMap} {i : Nat} {r : RingSlave} {fate : Option Fate}

theorem exchange_received (ring : List RingSlave) (taken : Nat → IoMap)
    (hframes : (sendProcessdata g iomap).length ≤ Nic.ecMaxbuf)
    (hdc : hasdc = true → FirstArrives ((sendProcessdata g iomap).zip fates)) :
    let frames := (sendProcessdata g iomap).zip fates
    let e := exchange g hasdc ring fates iomap taken
    (∀ a, e.iomap a =
      if ∃ x ∈ frames, Brings x a then answers ring (g.placeholder iomap) a else iomap a) ∧
      e.wkc = if frames.any (·.2.arrives) then ((frames.map (credit ring)).sum : Int) else -1 := by
  simp only [exchange, pushed_zip ring hasdc fates hframes]
  refine receive_spec (fun x hx => sendProcessdata_inputs x.1 (List.of_mem_zip hx).1) ?_ hdc
  intro x hx
  cases hds : sendProcessdata g iomap with
  | nil => simp [hds] at hx
  | cons d ds =>
    cases fates with
    | nil => simp [hds] at hx
    | cons f fates =>
      rw [hds] at hx
      obtain rfl := Option.some.inj hx
      rfl

theorem firstArrives_zip {fates : List Fate}
    (h : (∀ f ∈ fates.head?, f.arrives) ∨ ∀ f ∈ fates, f.arrives = false) (ds : List Datagram) :
    FirstArrives (ds.zip fates) := by
  refine h.imp (fun h x hx => ?_) fun h x hx => h x.2 (List.of_mem_zip hx).2
  cases ds with
  | nil => simp at hx
  | cons d ds =>
    cases fates with
    | nil => simp at hx
    | cons f fates =>
      obtain rfl := Option.some.inj hx
      exact h f rfl

/-- The outputs of a slave when the frames have been round. -/
theorem taken_framed (hc : ∀ s ∈ slaves, ∀ dir, s.Covers dir) (hring : RingOf slaves ring)
    (hr : ring[i]? = some r) (hasdc : Bool) (taken : Nat → IoMap)
    (h : FramedOnce .output ((sendProcessdata g iomap).zip fates) r.outputs fate) :
    readArea ((exchange g hasdc ring fates iomap taken).taken i) r.outputs =
      readArea (if r.present ∧ fate.any (·.reaches i) then iomap else taken i) r.outputs := by
  have hread : ∀ x ∈ (sendProcessdata g iomap).zip fates, x.1.cmd.carries .output →
      x.1.data = Memory.read iomap x.1.logAdr x.1.data.length :=
    fun x hx => sendProcessdata_outputs x.1 (List.of_mem_zip hx).1
  refine readArea_congr fun a ha => ?_
  have htaken := takes_eq hread hr ha
    (fun t ht => hring.apart hc (List.mem_of_getElem? hr) ht ha) taken
  rw [show (exchange g hasdc ring fates iomap taken).taken i a = _ from htaken, ite_apply]
  exact if_congr (and_congr_right' (h.exists_iff ha fun f => f.reaches i)) rfl rfl

/-- What the frame with its inputs brings back from a slave: the placeholder from one that takes no
part. -/
def brought (g : EcGroup) (iomap : IoMap) (r : RingSlave) : IoMap :=
  if r.present then r.answer else g.placeholder iomap

/-- The image where the inputs of a slave are when the frames have been received. -/
theorem image_framed (hring : RingOf slaves ring) (hr : ring[i]? = some r)
    (hframes : (sendProcessdata g iomap).length ≤ Nic.ecMaxbuf)
    (hdc : hasdc = true → FirstArrives ((sendProcessdata g iomap).zip fates))
    (taken : Nat → IoMap)
    (h : FramedOnce .input ((sendProcessdata g iomap).zip fates) r.inputs fate) :
    readArea (exchange g hasdc ring fates iomap taken).iomap r.inputs =
      readArea (if fate.any (·.arrives) then brought g iomap r else iomap) r.inputs := by
  refine readArea_congr fun a ha => ?_
  rw [(exchange_received ring taken hframes hdc).1, ite_apply, hring.answers hr ha, brought,
    ite_apply]
  exact if_congr (h.exists_iff ha fun f => f.arrives) rfl rfl

theorem image_kept (hc : ∀ s ∈ slaves, ∀ dir, s.Covers dir)
    (hroom : (configMapGroup slaves).ioSegment.length < ecMaxIoSegments)
    (hring : RingOf slaves ring) (blockLRW : Bool)
    (hframes : (sendProcessdata ((configMapGroup slaves).block blockLRW) iomap).length ≤
      Nic.ecMaxbuf)
    (hdc : hasdc = true →
      FirstArrives ((sendProcessdata ((configMapGroup slaves).block blockLRW) iomap).zip fates))
    (taken : Nat → IoMap) {a : Nat} (ha : ∀ r ∈ ring, ¬ InArea r.inputs a) :
    (exchange ((configMapGroup slaves).block blockLRW) hasdc ring fates iomap taken).iomap a =
      iomap a := by
  rw [(exchange_received ring taken hframes hdc).1, answers_of_not_in ha, EcGroup.placeholder,
    EcGroup.block]
  cases blockLRW with
  | false => exact ite_self _
  | true =>
    -- the bytes of the LRD datagrams all belong to slaves
    refine if_neg ?_
    rintro ⟨x, hx, -, hin, hle, hlt⟩
    have hd := (List.of_mem_zip hx).1
    have hcut := (configMapGroup_cut hc hroom).block true
    have hwithin : (configMapGroup slaves).oBytes ≤ x.1.logAdr ∧ x.1.logAdr + x.1.data.length ≤
        (configMapGroup slaves).oBytes + (configMapGroup slaves).iBytes := by
      rw [sendProcessdata] at hd
      split_ifs at hd with hsome hblock
      · rcases List.mem_append.mp hd with h | h
        · exact hcut.sendInputs_within x.1 h
        · rw [(sendOutputs_read x.1 h).1] at hin
          cases hin
      · exact absurd rfl hblock
      · exact (List.not_mem_nil hd).elim
    obtain ⟨place, hplace, hstart, hstop⟩ := exists_input_place hc
      (fun s hs => hring.bytes s hs .input) (hwithin.1.trans hle)
      (lt_of_lt_of_le hlt hwithin.2)
    have hmem : (place.1 / 8, place.2 / 8) ∈ ring.map (·.area .input) := by
      rw [hring.areas]
      exact List.mem_map_of_mem hplace
    obtain ⟨r, hr, harea⟩ := List.mem_map.mp hmem
    refine ha r hr ?_
    rw [show r.inputs = _ from harea]
    exact ⟨hstart, hstop⟩

/-- However the frames fare, a slave has the outputs of this cycle or those it had, and the image
has the inputs of this cycle or those it had: where the one frame that carries them has come.
Nothing else of the image changes. -/
theorem exchange_untorn (slaves : List SlaveIo) (hc : ∀ s ∈ slaves, ∀ dir, s.Covers dir)
    (hroom : (configMapGroup slaves).ioSegment.length < ecMaxIoSegments) (ring : List RingSlave)
    (hring : RingOf slaves ring) (blockLRW hasdc : Bool) (fates : List Fate) (iomap : IoMap)
    (taken : Nat → IoMap)
    (hframes : (sendProcessdata ((configMapGroup slaves).block blockLRW) iomap).length ≤
      Nic.ecMaxbuf)
    (hdc : hasdc = true →
      FirstArrives ((sendProcessdata ((configMapGroup slaves).block blockLRW) iomap).zip fates)) :
    let ds := sendProcessdata ((configMapGroup slaves).block blockLRW) iomap
    let e := exchange ((configMapGroup slaves).block blockLRW) hasdc ring fates iomap taken
    (∀ dir (i : Nat) s r, slaves[i]? = some s → ring[i]? = some r → s.bits dir > 7 →
      ∃ (k : Nat) (d : Datagram), ds[k]? = some d ∧ d.cmd.carries dir ∧
        d.logAdr ≤ (r.area dir).1 ∧ (r.area dir).2 ≤ d.logAdr + d.data.length ∧
        match dir with
        | .output => readArea (e.taken i) r.outputs =
            readArea (if r.present ∧ fates[k]?.any (·.reaches i) then iomap else taken i) r.outputs
        | .input => readArea e.iomap r.inputs =
            readArea (if fates[k]?.any (·.arrives) then
              brought ((configMapGroup slaves).block blockLRW) iomap r else iomap) r.inputs) ∧
      ∀ a, (∀ r ∈ ring, ¬ InArea r.inputs a) → e.iomap a = iomap a := by
  intro ds e
  constructor
  · intro dir i s r hi hr hbits
    obtain ⟨place, hplace, hsize, honce⟩ := slave_once hc hroom blockLRW iomap hi hbits
    have harea := hring.area_eq hplace hr
    obtain ⟨⟨d, hk, hcarries, hstart, hstop⟩, hframed⟩ := honce.framed (by omega) fates
    refine ⟨_, d, hk, hcarries, by rwa [harea], by rwa [harea], ?_⟩
    rw [← harea] at hframed
    cases dir with
    | output => exact taken_framed hc hring hr hasdc taken hframed
    | input => exact image_framed hring hr hframes hdc taken hframed
  · exact fun a ha => image_kept hc hroom hring blockLRW hframes hdc taken ha

/-- Two slaves that block LRW, the second of which takes no part: its inputs become zeros. -/
theorem exchange_untorn_of_two :
    let ring : List RingSlave := [⟨true, (0, 86), (172, 258), fun _ => 1⟩,
      ⟨false, (86, 172), (258, 344), fun _ => 2⟩]
    let back : Fate := .back (fun _ => 0) 0
    readArea (exchange ((configMapGroup [messageSlave, messageSlave]).block true) false ring
      [back, back] (fun _ => 7) fun _ _ => 0).iomap (258, 344) = List.replicate 86 0 := by
  intro ring back
  have hall : ∀ s ∈ [messageSlave, messageSlave], s = messageSlave := by simp
  have hcovers : ∀ s ∈ [messageSlave, messageSlave], ∀ dir, s.Covers dir := fun s hs dir => by
    rw [hall s hs]
    exact messageSlave_covers dir
  have hring : RingOf [messageSlave, messageSlave] ring :=
    ⟨fun s hs dir => by rw [hall s hs]; cases dir <;> decide, fun dir => by cases dir <;> decide⟩
  obtain ⟨k, d, hk, -, -, -, hread⟩ := (exchange_untorn [messageSlave, messageSlave] hcovers
    (by decide) ring hring true false [back, back] (fun _ => 7) (fun _ _ => 0) (by decide)
    fun h => absurd h Bool.false_ne_true).1 .input 1 messageSlave _ rfl rfl (by decide)
  have hfew : k < 2 := (List.getElem?_eq_some_iff.mp hk).1
  have hback : ([back, back][k]?).any (·.arrives) = true := by
    obtain rfl | rfl : k = 0 ∨ k = 1 := by omega
    · rfl
    · rfl
  rw [hback] at hread
  exact hread.trans rfl

/-- With distributed clocks, when the first frame is lost and only the second one comes back, this
one is read as if it had the length of the first: the rest of its inputs is left out, and the
working counter is two bytes of them. -/
theorem first_lost_misread (g : EcGroup) (ring : List RingSlave) (iomap : IoMap)
    (taken : Nat → IoMap) {d e : Datagram} {ds : List Datagram}
    (hsent : sendProcessdata g iomap = d :: e :: ds) (hfew : ds.length + 2 ≤ Nic.ecMaxbuf)
    (hin : e.cmd.carries .input) (hlong : d.data.length + 2 ≤ e.data.length) (behind : Nat)
    (rest : Nat → UInt8) (frmw : Nat) {fates : List Fate} (hlost : ∀ f ∈ fates, f.arrives = false) :
    let x := exchange g true ring (.lost behind :: .back rest frmw :: fates) iomap taken
    let back := answers ring (g.placeholder iomap)
    x.wkc = Words.value (Memory.read back (e.logAdr + d.data.length) 2) ∧
      ∀ a, x.iomap a = if Memory.Within a e.logAdr d.data.length then back a else iomap a := by
  have hmem : e ∈ sendProcessdata g iomap := by simp [hsent]
  have hread := sendProcessdata_inputs e hmem hin
  have hpushed := pushed_zip ring true (.lost behind :: .back rest frmw :: fates)
    (show (d :: e :: ds).length ≤ Nic.ecMaxbuf from hfew)
  obtain ⟨rx, hrx⟩ : ∃ rx, (Fate.back rest frmw).reply false ring e = some rx := ⟨_, rfl⟩
  obtain ⟨hcmd, hdata, -⟩ := reply_spec false ring e rest frmw hrx
  rw [fills_data hread hin] at hdata
  have hstored := Memory.read_window (i := 0) (k := d.data.length) hdata (by omega)
  have hwkc := Memory.read_window (i := d.data.length) (k := 2) hdata hlong
  simp only [Nat.zero_add, Nat.add_zero] at hstored hwkc
  have hinput : rx.cmd = Command.lrd.code ∨ rx.cmd = Command.lrw.code := by
    rw [hcmd]
    cases hd : e.cmd with
    | lrd => exact .inl rfl
    | lwr =>
      rw [hd] at hin
      exact absurd hin Bool.false_ne_true
    | lrw => exact .inr rfl
  have hfirst : Reception.entry d.data.length ⟨iomap, true, 0, false⟩
      (push d, (Fate.lost behind).reply true ring d) = ⟨iomap, true, 0, false⟩ := rfl
  have hsecond : Reception.entry d.data.length ⟨iomap, true, 0, false⟩
      (push e, (Fate.back rest frmw).reply false ring e) =
      ⟨Memory.write iomap e.logAdr
          (Memory.read (answers ring (g.placeholder iomap)) e.logAdr d.data.length), false,
        Words.value (Memory.read (answers ring (g.placeholder iomap)) (e.logAdr + d.data.length) 2),
        true⟩ := by
    rw [hrx, ← hwkc, ← hstored]
    exact if_pos hinput
  have hlater : ∀ x ∈ ds.zip fates, x.2.arrives = false :=
    fun x hx => hlost x.2 (List.of_mem_zip hx).2
  have hrest := fun r => foldl_lost ring false d.data.length r hlater
  simp only [exchange, hsent, hpushed]
  simp only [List.head?_cons, Option.elim_some, receiveProcessdata, List.zip_cons_cons,
    entries_cons, List.foldl_cons, hfirst, hsecond, hrest, if_true]
  exact ⟨True.intro, fun a => Memory.write_read a⟩

/-- The working counter of two frames to one slave, whose inputs are 2, 3, 4 and 5. -/
theorem first_lost_misread_of_two :
    (exchange ⟨2, 4, false, 0, 2, [2, 4], 1, 1⟩ true [⟨true, (0, 2), (2, 6), fun a => a.toUInt8⟩]
      [.lost 0, .back (fun _ => 0) 0] (fun _ => 0) fun _ _ => 0).wkc = 0x0504 :=
  (first_lost_misread ⟨2, 4, false, 0, 2, [2, 4], 1, 1⟩ _ _ _ rfl (by decide) rfl (by decide) 0
    (fun _ => 0) 0 fun f hf => (List.not_mem_nil hf).elim).1.trans (by decide)

end

end TienKung
