import TienKung.Lib.Memory
import TienKung.Lib.Words
import TienKung.Soem.Nic
import TienKung.Soem.ProcessImage

/-!
# Process data

`ecx_send_processdata_group` sends the image in datagrams, one for a segment:
LRW datagrams with outputs and inputs, or, when a slave blocks these, LRD
datagrams for the inputs and then LWR datagrams for the outputs.
`ecx_receive_processdata_group` puts the inputs that come back into their place
and adds up the working counters.

The process data of a byte oriented slave is in one datagram each way.
-/

namespace TienKung

-- ---------------------------------------------------------------------------
-- Sending
-- ---------------------------------------------------------------------------

inductive Command
  | lrd | lwr | lrw
  deriving DecidableEq

/-- `EC_CMD_LRD`, `EC_CMD_LWR` and `EC_CMD_LRW`. -/
def Command.code : Command → UInt8
  | .lrd => 10
  | .lwr => 11
  | .lrw => 12

structure Datagram where
  cmd : Command
  logAdr : Nat
  data : List UInt8
  deriving DecidableEq

/-- The bytes of `IOmap`. The logical address of a byte is its offset. -/
abbrev IoMap := Nat → UInt8

/-- What `ecx_writedatagramdata` takes the data from: a read carries zeros. -/
def Command.source (cmd : Command) (iomap : IoMap) : IoMap :=
  match cmd with
  | .lrd => fun _ => 0
  | .lwr | .lrw => iomap

/-- One of the loops over the segments; `sublength` has what is left and the size of the segment.
The loop body comes before its test. -/
def sendSegments (cmd : Command) (sublength : Int → Nat → Nat) (iomap : IoMap) :
    (length : Int) → (logAdr : Nat) → (segments : List Nat) → List Datagram
  | _, _, [] => []
  | length, logAdr, segment :: segments =>
    let n := sublength length segment
    ⟨cmd, logAdr, Memory.read (cmd.source iomap) logAdr n⟩ ::
      if length - n ≠ 0 then sendSegments cmd sublength iomap (length - n) (logAdr + n) segments
      else []

def wholeSegment (_ : Int) (segment : Nat) : Nat := segment

/-- The last segment of the outputs may go on with inputs. -/
def clampedSegment (length : Int) (segment : Nat) : Nat :=
  if length - segment < 0 then length.toNat else segment

/-- The segments from `Isegment` on, the first one without its outputs. -/
def EcGroup.inputSegments (g : EcGroup) : List Nat :=
  match g.ioSegment.drop g.iSegment with
  | [] => []
  | segment :: segments => (segment - g.iOffset) :: segments

def EcGroup.sendInputs (g : EcGroup) (iomap : IoMap) : List Datagram :=
  if g.iBytes ≠ 0 then sendSegments .lrd wholeSegment iomap g.iBytes g.oBytes g.inputSegments
  else []

def EcGroup.sendOutputs (g : EcGroup) (iomap : IoMap) : List Datagram :=
  if g.oBytes ≠ 0 then sendSegments .lwr clampedSegment iomap g.oBytes 0 g.ioSegment else []

def EcGroup.block (g : EcGroup) (blockLRW : Bool) : EcGroup := { g with blockLRW := blockLRW }

/-- What the datagrams for inputs carry on their way out. -/
def EcGroup.placeholder (g : EcGroup) (iomap : IoMap) : IoMap :=
  if g.blockLRW then fun _ => 0 else iomap

def sendProcessdata (g : EcGroup) (iomap : IoMap) : List Datagram :=
  if g.oBytes + g.iBytes ≠ 0 then
    if g.blockLRW then g.sendInputs iomap ++ g.sendOutputs iomap
    else sendSegments .lrw wholeSegment iomap ↑(g.oBytes + g.iBytes) 0 g.ioSegment
  else []

-- ---------------------------------------------------------------------------
-- Receiving
-- ---------------------------------------------------------------------------

/-- An entry of `idxstack`: the place and the length of a datagram. -/
structure Pushed where
  data : Nat
  length : Nat
  deriving DecidableEq

/-- `idxstack` when the datagrams have been sent. It is empty before. -/
def pushed (ds : List Datagram) : List Pushed :=
  (ds.take Nic.ecMaxbuf).map fun d => ⟨d.logAdr, d.data.length⟩

/-- A receive buffer, its bytes from `EC_HEADERSIZE` on, and what `ecx_waitinframe` returned. -/
structure RxBuf where
  cmd : UInt8
  bytes : Nat → UInt8
  wkc : Nat

structure Reception where
  iomap : IoMap
  first : Bool
  wkc : Nat
  validWkc : Bool

def RxBuf.wkcAt (rx : RxBuf) (dcl : Nat) : Nat := Words.value (Memory.read rx.bytes dcl 2)

/-- What is done with a frame that has arrived. The first one has a second datagram when distributed
clocks are used, and its length is `DCl`. -/
def Reception.frame (dcl : Nat) (r : Reception) (e : Pushed) (rx : RxBuf) : Reception :=
  if rx.cmd = Command.lrd.code ∨ rx.cmd = Command.lrw.code then
    if r.first then
      ⟨Memory.write r.iomap e.data (Memory.read rx.bytes 0 dcl), false, rx.wkcAt dcl, true⟩
    else
      ⟨Memory.write r.iomap e.data (Memory.read rx.bytes 0 e.length), false, r.wkc + rx.wkc, true⟩
  else if rx.cmd = Command.lwr.code then
    if r.first then ⟨r.iomap, false, rx.wkcAt dcl * 2, true⟩
    else ⟨r.iomap, false, r.wkc + rx.wkc * 2, true⟩
  else r

def Reception.entry (dcl : Nat) (r : Reception) (x : Pushed × Option RxBuf) : Reception :=
  x.2.elim r (r.frame dcl x.1)

/-- `ecx_receive_processdata_group`, with what is waited for at each entry of the stack; `DCl` is
the length of the first datagram that was sent. -/
def receiveProcessdata (hasdc : Bool) (dcl : Nat) (iomap : IoMap)
    (entries : List (Pushed × Option RxBuf)) : IoMap × Int :=
  let r := entries.foldl (Reception.entry dcl) ⟨iomap, hasdc, 0, false⟩
  (r.iomap, if r.validWkc then r.wkc else -1)

-- ---------------------------------------------------------------------------
-- What is sent
-- ---------------------------------------------------------------------------

def Command.carries : Command → Direction → Bool
  | .lrd, .output => false
  | .lwr, .input => false
  | _, _ => true

def Datagram.span (d : Datagram) : Nat × Nat := (d.logAdr, d.data.length)

/-- One of the datagrams for a direction has the whole span, the others have nothing of it. -/
def CarriedOnce (dir : Direction) (ds : List Datagram) (start stop : Nat) : Prop :=
  ∃ before d after, ds = before ++ d :: after ∧ d.cmd.carries dir ∧
    d.logAdr ≤ start ∧ stop ≤ d.logAdr + d.data.length ∧
    ∀ e ∈ before ++ after, e.cmd.carries dir → e.logAdr + e.data.length ≤ start ∨ stop ≤ e.logAdr

section
variable {cmd : Command} {iomap : IoMap} {sublength : Int → Nat → Nat} {length : Int} {a n : Nat}
  {segments : List Nat} {g : EcGroup} {dir : Direction} {start stop : Nat}

theorem sendSegments_read : ∀ d ∈ sendSegments cmd sublength iomap length a segments,
    d.cmd = cmd ∧ d.data = Memory.read (cmd.source iomap) d.logAdr d.data.length := by
  induction segments generalizing length a with
  | nil => exact fun _ h => (List.not_mem_nil h).elim
  | cons segment segments ih =>
    intro d hd
    rcases List.mem_cons.mp hd with rfl | hd
    · exact ⟨rfl, by rw [Memory.length_read]⟩
    · split_ifs at hd with hmore
      · exact ih d hd
      · exact (List.not_mem_nil hd).elim

theorem clampedSegment_eq (n segment : Nat) : clampedSegment n segment = min n segment := by
  rw [clampedSegment]
  split_ifs <;> omega

theorem sendSegments_whole (h : segments.sum = n) :
    sendSegments cmd wholeSegment iomap n a segments =
      sendSegments cmd clampedSegment iomap n a segments := by
  induction segments generalizing n a with
  | nil => rfl
  | cons segment segments ih =>
    rw [List.sum_cons] at h
    have hclamped : clampedSegment n segment = segment := by
      rw [clampedSegment_eq]
      omega
    have hrest : (n : Int) - segment = ↑(segments.sum) := by omega
    simp only [sendSegments, hclamped, wholeSegment, hrest, ih rfl]

theorem sendSegments_tiles (h : n ≤ segments.sum) :
    let ds := sendSegments cmd clampedSegment iomap n a segments
    ds.map Datagram.span = Memory.spans a (ds.map (·.data.length)) ∧
      (ds.map (·.data.length)).sum = n := by
  induction segments generalizing n a with
  | nil => exact ⟨rfl, (Nat.le_zero.mp h).symm⟩
  | cons segment segments ih =>
    rw [List.sum_cons] at h
    have hrest : (n : Int) - ↑(min n segment) = ↑(n - segment) := by omega
    simp only [sendSegments, clampedSegment_eq, hrest]
    split_ifs with hmore
    · obtain ⟨htiles, hsum⟩ := ih (n := n - segment) (a := a + min n segment) (by omega)
      simp only [List.map_cons, Memory.length_read, Memory.spans_cons, List.sum_cons]
      exact ⟨congrArg₂ _ (by rw [Datagram.span, Memory.length_read]) htiles, by omega⟩
    · simp only [List.map_cons, List.map_nil, Memory.length_read, Memory.spans_cons, List.sum_cons]
      exact ⟨by rw [Datagram.span, Memory.length_read]; rfl, by simp; omega⟩

theorem sendSegments_has (cmd : Command) (iomap : IoMap) (a segment : Nat) {before : List Nat}
    (after : List Nat) (h : before.sum < n) :
    ∃ d ∈ sendSegments cmd clampedSegment iomap n a (before ++ segment :: after),
      d.logAdr = a + before.sum ∧ d.data.length = min (n - before.sum) segment := by
  induction before generalizing n a with
  | nil => exact ⟨_, List.mem_cons_self .., rfl, by simp [clampedSegment_eq]⟩
  | cons b before ih =>
    rw [List.sum_cons] at h
    have hb : clampedSegment n b = b := by
      rw [clampedSegment_eq]
      omega
    have hrest : (n : Int) - b = ↑(n - b) := by omega
    have hmore : ((n - b : Nat) : Int) ≠ 0 := by omega
    obtain ⟨d, hd, hstart, hlen⟩ := ih (n := n - b) (a := a + b) (by omega)
    refine ⟨d, ?_, ?_, ?_⟩
    · simp only [List.cons_append, sendSegments, hb, hrest, if_pos hmore]
      exact List.mem_cons_of_mem _ hd
    · rw [hstart, List.sum_cons, Nat.add_assoc]
    · rw [hlen, List.sum_cons, Nat.sub_sub]

theorem carriedOnce_of_tiles {ds : List Datagram} {d : Datagram} (hd : d ∈ ds)
    (htiles : ds.map Datagram.span = Memory.spans a (ds.map (·.data.length)))
    (hcarries : d.cmd.carries dir) (hstart : d.logAdr ≤ start)
    (hstop : stop ≤ d.logAdr + d.data.length) : CarriedOnce dir ds start stop := by
  obtain ⟨before, after, rfl⟩ := List.append_of_mem hd
  have hpairs : (before ++ d :: after).Pairwise fun d e => d.logAdr + d.data.length ≤ e.logAdr := by
    have h := Memory.pairwise_spans a ((before ++ d :: after).map (·.data.length))
    rw [← htiles] at h
    exact List.pairwise_map.mp h
  obtain ⟨-, hafter, hbefore⟩ := List.pairwise_append.mp hpairs
  have hafter := (List.pairwise_cons.mp hafter).1
  refine ⟨before, d, after, rfl, hcarries, hstart, hstop, fun e he _ => ?_⟩
  rcases List.mem_append.mp he with he | he
  · exact .inl ((hbefore e he d (List.mem_cons_self ..)).trans hstart)
  · exact .inr (hstop.trans (hafter e he))

theorem CarriedOnce.append_left {ds : List Datagram} (h : CarriedOnce dir ds start stop)
    (es : List Datagram) (hes : ∀ e ∈ es, e.cmd.carries dir = false) :
    CarriedOnce dir (es ++ ds) start stop := by
  obtain ⟨before, d, after, rfl, hcarries, hstart, hstop, hothers⟩ := h
  refine ⟨es ++ before, d, after, by simp, hcarries, hstart, hstop, fun e he hdir => ?_⟩
  rw [List.append_assoc] at he
  rcases List.mem_append.mp he with he | he
  · rw [hes e he] at hdir
    exact absurd hdir Bool.false_ne_true
  · exact hothers e he hdir

theorem CarriedOnce.append_right {ds : List Datagram} (h : CarriedOnce dir ds start stop)
    (es : List Datagram) (hes : ∀ e ∈ es, e.cmd.carries dir = false) :
    CarriedOnce dir (ds ++ es) start stop := by
  obtain ⟨before, d, after, rfl, hcarries, hstart, hstop, hothers⟩ := h
  refine ⟨before, d, after ++ es, by simp, hcarries, hstart, hstop, fun e he hdir => ?_⟩
  rw [← List.append_assoc] at he
  rcases List.mem_append.mp he with he | he
  · exact hothers e he hdir
  · rw [hes e he] at hdir
    exact absurd hdir Bool.false_ne_true

theorem sendSegments_once {before after : List Nat} {segment : Nat} (hcarries : cmd.carries dir)
    (h : segments = before ++ segment :: after) (hn : n ≤ segments.sum) (hlt : start < stop)
    (hstop : stop ≤ a + n) (hle : a + before.sum ≤ start)
    (hseg : stop ≤ a + before.sum + segment) :
    CarriedOnce dir (sendSegments cmd clampedSegment iomap n a segments) start stop := by
  subst h
  have hbefore : before.sum < n := by omega
  obtain ⟨d, hd, hlog, hlen⟩ := sendSegments_has cmd iomap a segment after hbefore
  refine carriedOnce_of_tiles hd (sendSegments_tiles hn).1 ?_ (hlog ▸ hle) ?_
  · rwa [(sendSegments_read d hd).1]
  · rw [hlog, hlen]
    omega

theorem EcGroup.Cut.block (h : g.Cut) (blockLRW : Bool) : (g.block blockLRW).Cut :=
  ⟨h.sum, h.split⟩

theorem EcGroup.Cut.inputSegments_sum (h : g.Cut) : g.inputSegments.sum = g.iBytes := by
  obtain ⟨before, n, after, heq, hlen, hsum, hle⟩ := h.split
  have hall := h.sum
  rw [heq, List.sum_append, List.sum_cons] at hall
  rw [EcGroup.inputSegments, heq, ← hlen, List.drop_left, List.sum_cons]
  omega

theorem EcGroup.Cut.sendInputs_within (h : g.Cut) : ∀ d ∈ g.sendInputs iomap,
    g.oBytes ≤ d.logAdr ∧ d.logAdr + d.data.length ≤ g.oBytes + g.iBytes := by
  intro d hd
  rw [EcGroup.sendInputs] at hd
  split_ifs at hd
  · rw [sendSegments_whole h.inputSegments_sum] at hd
    obtain ⟨htiles, hsum⟩ :
        let ds := sendSegments .lrd clampedSegment iomap g.iBytes g.oBytes g.inputSegments
        ds.map Datagram.span = Memory.spans g.oBytes (ds.map (·.data.length)) ∧
          (ds.map (·.data.length)).sum = g.iBytes := sendSegments_tiles h.inputSegments_sum.ge
    have hspan := List.mem_map_of_mem (f := Datagram.span) hd
    rw [htiles] at hspan
    have hend := Memory.mem_spans_le hspan
    rw [hsum] at hend
    exact ⟨Memory.le_of_mem_spans hspan, hend⟩
  · exact (List.not_mem_nil hd).elim

theorem EcGroup.Cut.inputSegments_split (h : g.Cut) {before after : List Nat} {segment : Nat}
    (heq : g.ioSegment = before ++ segment :: after) (hstart : g.oBytes ≤ start)
    (hlt : start < stop) (hle : before.sum ≤ start) (hseg : stop ≤ before.sum + segment) :
    ∃ before segment after, g.inputSegments = before ++ segment :: after ∧
      g.oBytes + before.sum ≤ start ∧ stop ≤ g.oBytes + before.sum + segment := by
  obtain ⟨outs, n, rest, hsplit, hlen, hsum, hoff⟩ := h.split
  have hinputs : g.inputSegments = (n - g.iOffset) :: rest := by
    rw [EcGroup.inputSegments, hsplit, ← hlen, List.drop_left]
  rw [hsplit] at heq
  rcases List.append_eq_append_iff.mp heq with ⟨mid, hbefore, hrest⟩ | ⟨mid, houts, hrest⟩
  · cases mid with
    | nil =>
      obtain ⟨rfl, rfl⟩ := List.cons.inj hrest
      rw [List.append_nil] at hbefore
      subst hbefore
      exact ⟨[], _, _, hinputs, by simpa using hstart, by rw [List.sum_nil]; omega⟩
    | cons m mid =>
      obtain ⟨rfl, rfl⟩ := List.cons.inj hrest
      rw [hbefore, List.sum_append, List.sum_cons] at hle hseg
      refine ⟨(n - g.iOffset) :: mid, segment, after, hinputs, ?_, ?_⟩
      · rw [List.sum_cons]
        omega
      · rw [List.sum_cons]
        omega
  · -- a segment that ends before the inputs
    cases mid with
    | nil =>
      obtain ⟨rfl, rfl⟩ := List.cons.inj hrest
      rw [List.append_nil] at houts
      subst houts
      exact ⟨[], _, _, hinputs, by simpa using hstart, by rw [List.sum_nil]; omega⟩
    | cons m mid =>
      obtain ⟨rfl, rfl⟩ := List.cons.inj hrest
      rw [houts, List.sum_append, List.sum_cons] at hsum
      omega

theorem sendSegments_fits {most : Nat} (hsub : ∀ length n, sublength length n ≤ n)
    (h : ∀ n ∈ segments, n ≤ most) :
    ∀ d ∈ sendSegments cmd sublength iomap length a segments, d.data.length ≤ most := by
  induction segments generalizing length a with
  | nil => exact fun _ h => (List.not_mem_nil h).elim
  | cons segment segments ih =>
    intro d hd
    rcases List.mem_cons.mp hd with rfl | hd
    · rw [Memory.length_read]
      exact (hsub ..).trans (h segment (List.mem_cons_self ..))
    · split_ifs at hd with hmore
      · exact ih (fun n hn => h n (List.mem_cons_of_mem _ hn)) d hd
      · exact (List.not_mem_nil hd).elim

theorem sendInputs_read : ∀ d ∈ g.sendInputs iomap,
    d.cmd = .lrd ∧ d.data = Memory.read (fun _ => 0) d.logAdr d.data.length := by
  rw [EcGroup.sendInputs]
  split_ifs
  · exact sendSegments_read
  · exact fun _ h => (List.not_mem_nil h).elim

theorem sendOutputs_read : ∀ d ∈ g.sendOutputs iomap,
    d.cmd = .lwr ∧ d.data = Memory.read iomap d.logAdr d.data.length := by
  rw [EcGroup.sendOutputs]
  split_ifs
  · exact sendSegments_read
  · exact fun _ h => (List.not_mem_nil h).elim

theorem sendProcessdata_outputs : ∀ d ∈ sendProcessdata g iomap, d.cmd.carries .output →
    d.data = Memory.read iomap d.logAdr d.data.length := by
  intro d hd hout
  rw [sendProcessdata] at hd
  split_ifs at hd
  · rcases List.mem_append.mp hd with h | h
    · rw [(sendInputs_read d h).1] at hout
      cases hout
    · exact (sendOutputs_read d h).2
  · exact (sendSegments_read d hd).2
  · exact (List.not_mem_nil hd).elim

theorem sendProcessdata_inputs : ∀ d ∈ sendProcessdata g iomap, d.cmd.carries .input →
    d.data = Memory.read (g.placeholder iomap) d.logAdr d.data.length := by
  intro d hd hin
  rw [EcGroup.placeholder]
  rw [sendProcessdata] at hd
  split_ifs at hd ⊢
  · rcases List.mem_append.mp hd with h | h
    · exact (sendInputs_read d h).2
    · rw [(sendOutputs_read d h).1] at hin
      cases hin
  · exact (List.not_mem_nil hd).elim
  · exact (sendSegments_read d hd).2
  · exact (List.not_mem_nil hd).elim

/-- What a datagram carries and where, whatever the image holds. -/
def Datagram.shape (d : Datagram) : Command × Nat × Nat := (d.cmd, d.logAdr, d.data.length)

theorem sendSegments_shape (cmd : Command) (sublength : Int → Nat → Nat) (iomap iomap' : IoMap)
    (length : Int) (a : Nat) (segments : List Nat) :
    (sendSegments cmd sublength iomap length a segments).map Datagram.shape =
      (sendSegments cmd sublength iomap' length a segments).map Datagram.shape := by
  induction segments generalizing length a with
  | nil => rfl
  | cons segment segments ih =>
    simp only [sendSegments, List.map_cons, Datagram.shape, Memory.length_read]
    split_ifs
    · rw [ih]
    · rfl

theorem sendProcessdata_shape (g : EcGroup) (iomap iomap' : IoMap) :
    (sendProcessdata g iomap).map Datagram.shape =
      (sendProcessdata g iomap').map Datagram.shape := by
  rw [sendProcessdata, sendProcessdata]
  split_ifs
  · simp only [List.map_append, EcGroup.sendInputs, EcGroup.sendOutputs]
    split_ifs <;> simp only [List.map_nil, sendSegments_shape _ _ iomap iomap']
  · exact sendSegments_shape ..
  · rfl

/-- Outputs or inputs within one of the segments are in one datagram, whichever commands are
used. -/
theorem sendProcessdata_once (h : g.Cut) {before after : List Nat} {segment : Nat}
    (heq : g.ioSegment = before ++ segment :: after) (hlt : start < stop) (hle : before.sum ≤ start)
    (hseg : stop ≤ before.sum + segment)
    (hdir : match dir with
      | .output => stop ≤ g.oBytes
      | .input => g.oBytes ≤ start ∧ stop ≤ g.oBytes + g.iBytes) :
    CarriedOnce dir (sendProcessdata g iomap) start stop := by
  have hsum := h.sum
  have hne : g.oBytes + g.iBytes ≠ 0 := by
    cases dir <;> simp only at hdir <;> omega
  rw [sendProcessdata, if_pos hne]
  split_ifs
  · cases dir with
    | output =>
      simp only at hdir
      refine CarriedOnce.append_left ?_ _ fun e he => by rw [(sendInputs_read e he).1]; rfl
      rw [EcGroup.sendOutputs, if_pos (by omega)]
      exact sendSegments_once rfl heq (by omega) hlt (by omega) (by omega) (by omega)
    | input =>
      obtain ⟨hstart, hstop⟩ := hdir
      refine CarriedOnce.append_right ?_ _ fun e he => by rw [(sendOutputs_read e he).1]; rfl
      obtain ⟨before, segment, after, heq, hle, hseg⟩ :=
        h.inputSegments_split heq hstart hlt hle hseg
      rw [EcGroup.sendInputs, if_pos (by omega), sendSegments_whole h.inputSegments_sum]
      exact sendSegments_once rfl heq h.inputSegments_sum.ge hlt hstop hle hseg
  · rw [sendSegments_whole hsum]
    have hstop : stop ≤ 0 + (g.oBytes + g.iBytes) := by
      cases dir <;> simp only at hdir <;> omega
    exact sendSegments_once (by cases dir <;> rfl) heq hsum.ge hlt hstop (by omega) (by omega)

theorem clampedSegment_le (length : Int) (n : Nat) : clampedSegment length n ≤ n := by
  rw [clampedSegment]
  split_ifs <;> omega

theorem inputSegments_fits {most : Nat} (h : ∀ n ∈ g.ioSegment, n ≤ most) :
    ∀ n ∈ g.inputSegments, n ≤ most := by
  have hdrop : ∀ n ∈ g.ioSegment.drop g.iSegment, n ≤ most :=
    fun n hn => h n (List.mem_of_mem_drop hn)
  rw [EcGroup.inputSegments]
  revert hdrop
  cases g.ioSegment.drop g.iSegment with
  | nil => exact id
  | cons segment segments =>
    intro hdrop
    obtain ⟨hsegment, hrest⟩ := List.forall_mem_cons.mp hdrop
    exact List.forall_mem_cons.mpr ⟨(Nat.sub_le ..).trans hsegment, hrest⟩

theorem sendProcessdata_fits {most : Nat} (h : ∀ n ∈ g.ioSegment, n ≤ most) :
    ∀ d ∈ sendProcessdata g iomap, d.data.length ≤ most := by
  have hwhole : ∀ length n, wholeSegment length n ≤ n := fun _ n => Nat.le_refl n
  intro d hd
  rw [sendProcessdata] at hd
  split_ifs at hd
  · rw [EcGroup.sendInputs, EcGroup.sendOutputs] at hd
    rcases List.mem_append.mp hd with hd | hd
    · split_ifs at hd
      · exact sendSegments_fits hwhole (inputSegments_fits h) d hd
      · exact (List.not_mem_nil hd).elim
    · split_ifs at hd
      · exact sendSegments_fits clampedSegment_le h d hd
      · exact (List.not_mem_nil hd).elim
  · exact sendSegments_fits hwhole h d hd
  · exact (List.not_mem_nil hd).elim

end

section
variable {slaves : List SlaveIo} {dir : Direction}

/-- A slave's process data is in one datagram each way, whichever commands are used. -/
theorem slave_once (hc : ∀ s ∈ slaves, ∀ dir, s.Covers dir)
    (hroom : (configMapGroup slaves).ioSegment.length < ecMaxIoSegments) (blockLRW : Bool)
    (iomap : IoMap) {i : Nat} {s : SlaveIo} (hi : slaves[i]? = some s) (hbits : s.bits dir > 7) :
    ∃ place ∈ (layout slaves dir)[i]?, place.2 / 8 = place.1 / 8 + (s.bits dir + 7) / 8 ∧
      CarriedOnce dir (sendProcessdata ((configMapGroup slaves).block blockLRW) iomap)
        (place.1 / 8) (place.2 / 8) := by
  obtain ⟨place, hplace, -, -, -, hseg⟩ := slave_placed dir hc hroom hi (Nat.ne_zero_of_lt hbits)
  obtain ⟨before, segment, after, heq, hle, hstop⟩ := hseg hbits
  have hmem := List.mem_of_getElem? hplace
  obtain ⟨p, hget⟩ := layout_get dir hi
  obtain rfl := Option.some.inj ((Option.mem_def.mp hplace).symm.trans hget)
  have hbytes := bytes_of_place p hbits
  have hcut := (configMapGroup_cut hc hroom).block blockLRW
  refine ⟨_, hplace, hbytes.1, sendProcessdata_once hcut heq (by omega) hle hstop ?_⟩
  cases dir with
  | output =>
    have hwithin := outputs_within hc _ hmem
    simp only [EcGroup.block]
    omega
  | input =>
    have hwithin := inputs_within hc _ hmem
    simp only [EcGroup.block]
    omega

/-- What is sent in a cycle are the outputs of the image and a placeholder for the inputs, in
datagrams that fit into frames. The process data of a byte oriented slave is in one datagram each
way. -/
theorem slaves_sent_whole (slaves : List SlaveIo) (hc : ∀ s ∈ slaves, ∀ dir, s.Covers dir)
    (hroom : (configMapGroup slaves).ioSegment.length < ecMaxIoSegments)
    (hs : ∀ s ∈ slaves, ∀ dir, (s.bits dir + 7) / 8 < segmentLimit) (iomap : IoMap) :
    let g := configMapGroup slaves
    let ds := sendProcessdata g iomap
    (∀ d ∈ ds, (d.cmd.carries .output → d.data = Memory.read iomap d.logAdr d.data.length) ∧
      (d.cmd.carries .input → d.data = Memory.read (g.placeholder iomap) d.logAdr d.data.length) ∧
      d.data.length ≤ segmentLimit) ∧
      ∀ dir (i : Nat) s, slaves[i]? = some s → s.bits dir > 7 →
        ∃ place ∈ (layout slaves dir)[i]?, CarriedOnce dir ds (place.1 / 8) (place.2 / 8) := by
  refine ⟨fun d hd => ⟨sendProcessdata_outputs d hd, sendProcessdata_inputs d hd, ?_⟩,
    fun dir i s hi hbits => ?_⟩
  · exact sendProcessdata_fits (configMapGroup_fits hc hs) d hd
  · obtain ⟨place, hplace, -, honce⟩ :=
      slave_once hc hroom (configMapGroup slaves).blockLRW iomap hi hbits
    exact ⟨place, hplace, honce⟩

theorem slaves_sent_whole_of_two :
    let slaves := [messageSlave, messageSlave]
    ∃ place ∈ (layout slaves .input)[1]?, CarriedOnce .input
      (sendProcessdata (configMapGroup slaves) fun _ => 0) (place.1 / 8) (place.2 / 8) := by
  intro slaves
  have hall : ∀ s ∈ slaves, s = messageSlave := by simp [slaves]
  refine (slaves_sent_whole slaves (fun s hs dir => ?_) (by decide) (fun s hs dir => ?_)
    fun _ => 0).2 .input 1 messageSlave rfl (by decide)
  · rw [hall s hs]
    exact messageSlave_covers dir
  · rw [hall s hs]
    cases dir <;> decide

end

end TienKung
