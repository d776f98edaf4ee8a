/-
  The layer pipeline (cgn-infer `src/pipeline/mod.rs`): a coordinator and the workers that
  hold the KV of their own layers.

  `pipeline_agrees`: in every run whose steps are `shielded`, after every successful prefill or
  decode each worker's KV of the sequence has as many positions as the coordinator's and comes
  from chunks of that sequence only, and every reply used answers the chunk just sent. A step
  is shielded if a chunk left over from a stream that is gone is refused by its worker whenever
  the coordinator has a sequence in use under the chunk's id. Otherwise the guard is too weak:
  the worker only compares the number of positions, and a leftover chunk at position 0 replaces
  the KV of a live sequence.

  A KV is the list of the sequences its positions come from; what a failed forward has left in
  some layers is `residue`. A worker without a KV for an id behaves as with an empty one. Each
  `prefill` at position 0 begins a new sequence, numbered by `inst`. The caller makes one call
  at a time and none on a sequence with an error that it has not dropped. A reset reaches the
  worker or is lost. Positions fit the `u32` of the wire. A worker step that panics is a stream
  that ends. `serial` and `origin` of a chunk are history variables; its request id is left out,
  since nobody compares it.
-/
import Cognitora.Core.Error
import Cognitora.Lib.Run

namespace Cognitora.Infer

open Cognitora.Core Cognitora.Lib

/-! ## The KV of one sequence -/

structure SeqKv where
  positions : List Nat
  residue : List Nat
  deriving DecidableEq

namespace SeqKv

def empty : SeqKv := ⟨[], []⟩

/-- Number of positions cached. -/
def len (kv : SeqKv) : Nat := kv.positions.length

/-- A forward of `t` positions. -/
def extend (kv : SeqKv) (origin t : Nat) : SeqKv :=
  { kv with positions := kv.positions ++ List.replicate t origin }

/-- A forward that fails after some layers; the count of positions stays. -/
def spoil (kv : SeqKv) (origin layers : Nat) : SeqKv :=
  { kv with residue := kv.residue ++ List.replicate layers origin }

/-- Built from `n` positions of one sequence only. -/
def whole (inst n : Nat) : SeqKv := ⟨List.replicate n inst, []⟩

theorem whole_zero (inst : Nat) : whole inst 0 = empty := rfl

theorem len_whole (inst n : Nat) : (whole inst n).len = n := List.length_replicate

theorem extend_whole (inst n t : Nat) : (whole inst n).extend inst t = whole inst (n + t) := by
  simp [extend, whole, List.replicate_append_replicate]

end SeqKv

/-! ## The worker -/

structure Chunk where
  serial : Nat
  seqId : Nat
  indexPos : Nat
  seqLen : Nat
  origin : Nat

/-- How the computation of a worker step goes. -/
inductive Outcome where
  | undecodable (e : Error)
  /-- The forward fails after some layers. -/
  | forwardFails (e : Error) (layers : Nat)
  | encodeFails (e : Error)
  | done

/-- `WorkerService::step` on the KV of the chunk's id: the error it returns, and the KV. -/
def workerStep (c : Chunk) (o : Outcome) (kv : SeqKv) : Option Error × SeqKv :=
  match o with
  | .undecodable e => (some e, kv)
  | o =>
    let kv := if c.indexPos = 0 then SeqKv.empty else kv
    if kv.len ≠ c.indexPos then
      (some (.invalidArgument ("seq " ++ toString c.seqId ++ ": worker KV holds " ++
        toString kv.len ++ " positions but coordinator sent index_pos " ++
        toString c.indexPos)), kv)
    else
      match o with
      | .undecodable e => (some e, kv)
      | .forwardFails e layers => (some e, kv.spoil c.origin layers)
      | .encodeFails e => (some e, kv.extend c.origin c.seqLen)
      | .done => (none, kv.extend c.origin c.seqLen)

/-- The worker refuses the chunk before it touches the KV. -/
def refused (c : Chunk) (kv : SeqKv) : Outcome → Bool
  | .undecodable _ => true
  | _ => c.indexPos != 0 && kv.len != c.indexPos

/-! ## The system -/

/-- A reply; `error` is empty in the source when the step succeeded. -/
structure Reply where
  serial : Nat
  error : Option Error

/-- The stream to one worker: chunks not processed, replies not read. -/
structure Link where
  inbox : List Chunk
  outbox : List Reply
  closed : Bool

/-- The coordinator's own KV of a sequence. -/
structure Own where
  kv : SeqKv
  inst : Nat

/-- A call between its local layers and its result: the worker it has come to, and the serial
    of the chunk it waits for. -/
structure Forward where
  seq : Nat
  indexPos : Nat
  seqLen : Nat
  next : Nat
  awaiting : Option Nat

structure Pipeline where
  own : Nat → Option Own
  /-- Sequences with an error that the caller has not dropped. -/
  failed : Nat → Bool
  forward : Option Forward
  result : Option (Except Error Unit)
  links : Nat → Link
  /-- The KV of each worker for each id. -/
  kvs : Nat → Nat → SeqKv
  /-- Chunks of streams that are gone, with the worker that may still process them. -/
  leftover : List (Nat × Chunk)
  nextInst : Nat
  nextSerial : Nat

namespace Pipeline

def noLink : Link := ⟨[], [], false⟩

def new : Pipeline where
  own := fun _ => none
  failed := fun _ => false
  forward := none
  result := none
  links := fun _ => noLink
  kvs := fun _ _ => SeqKv.empty
  leftover := []
  nextInst := 0
  nextSerial := 0

/-- A call on the sequence returns an error. -/
def fail (s : Pipeline) (seq : Nat) (e : Error) : Pipeline :=
  { s with
    forward := none
    failed := Function.update s.failed seq true
    result := some (.error e) }

/-- The coordinator's own layers; `outcome` is the error of a forward that fails, and the
    layers it got to. -/
def runLocal (s : Pipeline) (seq : Nat) (o : Own) (t : Nat) (outcome : Option (Error × Nat)) :
    Pipeline :=
  match outcome with
  | some (e, layers) =>
    { s with
      own := Function.update s.own seq (some { o with kv := o.kv.spoil o.inst layers }) }.fail seq e
  | none =>
    { s with
      own := Function.update s.own seq (some { o with kv := o.kv.extend o.inst t })
      forward := some ⟨seq, o.kv.len, t, 0, none⟩ }

/-- `prefill`, up to the first worker. -/
def prefill (s : Pipeline) (seq t startPos : Nat) (outcome : Option (Error × Nat)) : Pipeline :=
  let s :=
    if startPos = 0 then
      { s with
        own := Function.update s.own seq (some ⟨SeqKv.empty, s.nextInst⟩)
        nextInst := s.nextInst + 1 }
    else s
  match s.own seq with
  | none => s.fail seq (.internal ("prefill of unknown seq " ++ toString seq))
  | some o =>
    if o.kv.len ≠ startPos then
      s.fail seq (.internal ("prefill position mismatch for seq " ++ toString seq ++ ": kv " ++
        toString o.kv.len ++ " vs start_pos " ++ toString startPos))
    else s.runLocal seq o t outcome

/-- `decode`, up to the first worker. -/
def decode (s : Pipeline) (batch : List Nat) (outcome : Option (Error × Nat)) : Pipeline :=
  match batch with
  | [] => { s with result := some (.ok ()) }
  | [seq] =>
    match s.own seq with
    | none => s.fail seq (.internal ("decode of unknown seq " ++ toString seq))
    | some o => s.runLocal seq o 1 outcome
  | _ =>
    let e := Error.internal "pipeline runtime cannot decode a batch larger than 1"
    { s with result := some (.error e) }

def setLink (s : Pipeline) (w : Nat) (link : Link) : Pipeline :=
  { s with links := Function.update s.links w link }

def setKv (s : Pipeline) (w seq : Nat) (kv : SeqKv) : Pipeline :=
  { s with kvs := Function.update s.kvs w (Function.update (s.kvs w) seq kv) }

/-- The chunk that the call sends to its next worker. -/
def chunk (s : Pipeline) (f : Forward) (o : Own) : Chunk :=
  ⟨s.nextSerial, f.seq, f.indexPos, f.seqLen, o.inst⟩

/-- The next send of `forward_remote`; `encodeErr` is the error of encoding the activations. -/
def send (endpoint : Nat → String) (n : Nat) (s : Pipeline) (encodeErr : Option Error) : Pipeline :=
  match s.forward with
  | some f =>
    if f.next < n ∧ f.awaiting = none then
      match encodeErr, s.own f.seq with
      | some e, _ => s.fail f.seq e
      | none, none => s
      | none, some o =>
        if (s.links f.next).closed then
          s.fail f.seq (.unavailable ("worker " ++ endpoint f.next ++ " stream closed"))
        else
          { s.setLink f.next { s.links f.next with
              inbox := (s.links f.next).inbox ++ [s.chunk f o] } with
            forward := some { f with awaiting := some s.nextSerial }
            nextSerial := s.nextSerial + 1 }
    else s
  | none => s

/-- A worker processes the next chunk of its stream. -/
def process (s : Pipeline) (w : Nat) (o : Outcome) : Pipeline :=
  match (s.links w).inbox with
  | [] => s
  | c :: inbox =>
    let r := workerStep c o (s.kvs w c.seqId)
    (s.setKv w c.seqId r.2).setLink w
      { s.links w with inbox, outbox := (s.links w).outbox ++ [⟨c.serial, r.1⟩] }

/-- The coordinator reads a reply, or finds the stream closed; `decodeErr` is the error of
    decoding the reply. -/
def receive (endpoint : Nat → String) (s : Pipeline) (decodeErr : Option Error) : Pipeline :=
  match s.forward with
  | some f =>
    match f.awaiting, (s.links f.next).outbox with
    | none, _ => s
    | some _, [] =>
      if (s.links f.next).closed then
        s.fail f.seq (.unavailable ("worker " ++ endpoint f.next ++ " closed the stream"))
      else s
    | some _, reply :: outbox =>
      let s := s.setLink f.next { s.links f.next with outbox }
      match reply.error, decodeErr with
      | some e, _ => s.fail f.seq (.internal ("worker " ++ endpoint f.next ++ ": " ++ e.text))
      | none, some e => s.fail f.seq e
      | none, none => { s with forward := some { f with next := f.next + 1, awaiting := none } }
  | none => s

/-- All workers have answered; `outputErr` is the error of the LM head. -/
def finish (n : Nat) (s : Pipeline) (outputErr : Option Error) : Pipeline :=
  match s.forward with
  | some f =>
    if f.next = n then
      match outputErr with
      | some e => s.fail f.seq e
      | none => { s with forward := none, result := some (.ok ()) }
    else s
  | none => s

/-- `drop_seq`; `resets` tells which workers the reset reaches. -/
def dropSeq (s : Pipeline) (seq : Nat) (resets : Nat → Bool) : Pipeline :=
  { s with
    own := Function.update s.own seq none
    failed := Function.update s.failed seq false
    kvs := fun w id =>
      if (s.own seq).isSome ∧ resets w = true ∧ id = seq then SeqKv.empty else s.kvs w id }

/-- A stream ends; `late` tells whether the worker may still process what it has received, and
    `kept` whether replies on their way can still be read. -/
def close (s : Pipeline) (w : Nat) (late kept : Bool) : Pipeline :=
  { s.setLink w ⟨[], if kept then (s.links w).outbox else [], true⟩ with
    leftover := s.leftover ++ if late then (s.links w).inbox.map (w, ·) else [] }

/-- The coordinator crashes and starts again, with new streams. -/
def crash (n : Nat) (s : Pipeline) : Pipeline :=
  { s with
    own := fun _ => none
    failed := fun _ => false
    forward := none
    result := none
    links := fun _ => noLink
    leftover := s.leftover ++ (List.range n).flatMap fun w => (s.links w).inbox.map (w, ·) }

/-- A worker processes a chunk of a stream that is gone; nobody reads its reply. -/
def late (s : Pipeline) (i : Nat) (o : Outcome) : Pipeline :=
  match s.leftover[i]? with
  | none => s
  | some (w, c) =>
    { s.setKv w c.seqId (workerStep c o (s.kvs w c.seqId)).2 with
      leftover := s.leftover.eraseIdx i }

inductive Event where
  | prefill (seq t startPos : Nat) (outcome : Option (Error × Nat))
  | decode (batch : List Nat) (outcome : Option (Error × Nat))
  | send (encodeErr : Option Error)
  | process (w : Nat) (o : Outcome)
  | receive (decodeErr : Option Error)
  | finish (outputErr : Option Error)
  | dropSeq (seq : Nat) (resets : Nat → Bool)
  | close (w : Nat) (late kept : Bool)
  | crash
  | late (i : Nat) (o : Outcome)

def step (endpoint : Nat → String) (n : Nat) (s : Pipeline) : Event → Pipeline
  | .prefill seq t startPos outcome =>
    if s.forward.isSome || s.failed seq then s else s.prefill seq t startPos outcome
  | .decode batch outcome =>
    if s.forward.isSome || batch.any s.failed then s else s.decode batch outcome
  | .send encodeErr => s.send endpoint n encodeErr
  | .process w o => s.process w o
  | .receive decodeErr => s.receive endpoint decodeErr
  | .finish outputErr => s.finish n outputErr
  | .dropSeq seq resets => if s.forward.isSome then s else s.dropSeq seq resets
  | .close w late kept => s.close w late kept
  | .crash => s.crash n
  | .late i o => s.late i o

/-! ## What is to hold -/

/-- The worker's KV has as many positions as the coordinator's, all from its sequence. -/
def Agrees (kv : SeqKv) (o : Own) : Prop :=
  kv.len = o.kv.len ∧ kv.residue = [] ∧ ∀ origin ∈ kv.positions, origin = o.inst

/-- A successful call leaves every worker in agreement, and a reply that is used answers the
    chunk just sent. -/
def Good (n : Nat) (s : Pipeline) : Event → Prop
  | .finish none => ∀ f o, s.forward = some f → f.next = n → s.own f.seq = some o →
    ∀ w < n, Agrees (s.kvs w f.seq) o
  | .receive _ => ∀ f serial reply outbox, s.forward = some f → f.awaiting = some serial →
    (s.links f.next).outbox = reply :: outbox → reply.serial = serial
  | _ => True

/-- The coordinator has a sequence under the id, without an error. -/
def inUse (s : Pipeline) (seq : Nat) : Bool :=
  (s.own seq).isSome && !s.failed seq

/-- A leftover chunk for an id in use is refused. -/
def shielded (s : Pipeline) : Event → Bool
  | .late i o =>
    match s.leftover[i]? with
    | some (w, c) => !s.inUse c.seqId || refused c (s.kvs w c.seqId) o
    | none => true
  | _ => true

/-! ## Worker steps -/

/-- The worker's KV is what a chunk at the position needs. -/
def Ready (kv : SeqKv) (inst indexPos : Nat) : Prop :=
  indexPos = 0 ∨ kv = .whole inst indexPos

theorem workerStep_ready {c : Chunk} {kv : SeqKv} (h : Ready kv c.origin c.indexPos) (o : Outcome)
    (hok : (workerStep c o kv).1 = none) :
    (workerStep c o kv).2 = .whole c.origin (c.indexPos + c.seqLen) := by
  have hkv : (if c.indexPos = 0 then SeqKv.empty else kv) = .whole c.origin c.indexPos := by
    split
    · next hzero => rw [hzero, SeqKv.whole_zero]
    · next hpos => exact h.resolve_left hpos
  cases o with
  | undecodable e => exact absurd hok (by simp [workerStep])
  | forwardFails e layers =>
    simp only [workerStep, hkv, SeqKv.len_whole] at hok
    exact absurd hok (by simp)
  | encodeFails e =>
    simp only [workerStep, hkv, SeqKv.len_whole] at hok
    exact absurd hok (by simp)
  | done => simp [workerStep, hkv, SeqKv.len_whole, SeqKv.extend_whole]

theorem workerStep_refused {c : Chunk} {kv : SeqKv} {o : Outcome} (h : refused c kv o = true) :
    (workerStep c o kv).2 = kv := by
  cases o with
  | undecodable e => rfl
  | _ =>
    obtain ⟨hpos, hlen⟩ : c.indexPos ≠ 0 ∧ kv.len ≠ c.indexPos := by simpa [refused] using h
    simp [workerStep, hpos, hlen]

/-! ## What shielded steps keep -/

/-- The chunk a call waits for is on its way, answered, or lost with its stream. -/
inductive Awaited (link : Link) (kv goal : SeqKv) (c : Chunk) : Prop where
  | sent (hopen : link.closed = false) (hin : link.inbox = [c]) (hout : link.outbox = [])
      (hready : Ready kv c.origin c.indexPos)
  | answered (r : Reply) (hin : link.inbox = []) (hout : link.outbox = [r])
      (hserial : r.serial = c.serial) (hgoal : r.error = none → kv = goal)
  | lost (hin : link.inbox = []) (hout : link.outbox = [])

/-- The worker that a call has come to. -/
def Front (n : Nat) (s : Pipeline) (f : Forward) (o : Own) : Prop :=
  match f.awaiting with
  | none => f.next < n → Ready (s.kvs f.next f.seq) o.inst f.indexPos
  | some serial =>
    f.next < n ∧ Awaited (s.links f.next) (s.kvs f.next f.seq) o.kv
      ⟨serial, f.seq, f.indexPos, f.seqLen, o.inst⟩

/-- A call that has passed the workers before `next`. -/
structure Busy (n : Nat) (s : Pipeline) (f : Forward) (o : Own) : Prop where
  own : s.own f.seq = some o
  failed : s.failed f.seq = false
  kv : o.kv = .whole o.inst (f.indexPos + f.seqLen)
  next_le : f.next ≤ n
  passed : ∀ w < f.next, s.kvs w f.seq = o.kv
  ahead : ∀ w, f.next < w → w < n → Ready (s.kvs w f.seq) o.inst f.indexPos
  front : Front n s f o

structure Sound (n : Nat) (s : Pipeline) : Prop where
  owned : ∀ seq o, s.own seq = some o → s.failed seq = false → ∃ len, o.kv = .whole o.inst len
  idle : ∀ seq o, s.own seq = some o → s.failed seq = false →
    (∀ f, s.forward = some f → f.seq ≠ seq) → ∀ w < n, s.kvs w seq = o.kv
  busy : ∀ f, s.forward = some f → ∃ o, Busy n s f o
  quiet : ∀ w, (∀ f, s.forward = some f → f.awaiting ≠ none → f.next ≠ w) →
    (s.links w).inbox = [] ∧ (s.links w).outbox = []

variable {n : Nat} {s : Pipeline}

theorem sound_new (n : Nat) : Sound n new :=
  ⟨fun _ _ h => absurd h (by simp [new]), fun _ _ h => absurd h (by simp [new]),
    fun _ h => absurd h (by simp [new]), fun _ _ => ⟨rfl, rfl⟩⟩

/-- The failed sequences are those from before, and the one that fails now. -/
theorem failed_update {failed : Nat → Bool} {seq id : Nat}
    (h : Function.update failed seq true id = false) : failed id = false ∧ id ≠ seq := by
  by_cases heq : id = seq
  · rw [heq, Function.update_self] at h
    exact absurd h (by simp)
  · exact ⟨(Function.update_of_ne heq _ _).symm.trans h, heq⟩

/-- A call that ends with an error says nothing of its sequence any more; the streams must be
    empty by then. -/
theorem sound_failed {s' : Pipeline} (h : Sound n s) {seq : Nat}
    (hseq : ∀ f, s.forward = some f → f.seq = seq) (hown : ∀ id, id ≠ seq → s'.own id = s.own id)
    (hfailed : s'.failed = Function.update s.failed seq true) (hforward : s'.forward = none)
    (hkvs : s'.kvs = s.kvs)
    (hlinks : ∀ w, (s'.links w).inbox = [] ∧ (s'.links w).outbox = []) : Sound n s' := by
  have hother : ∀ id o, s'.own id = some o → s'.failed id = false →
      id ≠ seq ∧ s.own id = some o ∧ s.failed id = false := by
    intro id o ho hid
    rw [hfailed] at hid
    obtain ⟨hid, hne⟩ := failed_update hid
    exact ⟨hne, (hown id hne).symm.trans ho, hid⟩
  refine ⟨fun id o ho hid => ?_, fun id o ho hid _ => ?_,
    fun f hf => absurd hf (by simp [hforward]), fun w _ => hlinks w⟩
  · obtain ⟨_, ho, hid⟩ := hother id o ho hid
    exact h.owned id o ho hid
  · obtain ⟨hne, ho, hid⟩ := hother id o ho hid
    rw [hkvs]
    exact h.idle id o ho hid fun f hf heq => hne (heq.symm.trans (hseq f hf))

theorem sound_fail (h : Sound n s) {seq : Nat} (hseq : ∀ f, s.forward = some f → f.seq = seq)
    (hlinks : ∀ w, (s.links w).inbox = [] ∧ (s.links w).outbox = []) (e : Error) :
    Sound n (s.fail seq e) :=
  sound_failed h hseq (fun _ _ => rfl) rfl rfl rfl hlinks

theorem quiet_of_idle (h : Sound n s) (hidle : s.forward = none) (w : Nat) :
    (s.links w).inbox = [] ∧ (s.links w).outbox = [] :=
  h.quiet w fun f hf => absurd hf (by simp [hidle])

theorem sound_fail_idle (h : Sound n s) (hidle : s.forward = none) (seq : Nat) (e : Error) :
    Sound n (s.fail seq e) :=
  sound_fail h (fun f hf => absurd hf (by simp [hidle])) (quiet_of_idle h hidle) e

/-! ## Calls -/

/-- The local layers of a call on `o`, which replaces what the coordinator had for the id. -/
theorem sound_runLocal (h : Sound n s) (hidle : s.forward = none) {seq : Nat}
    (hseq : s.failed seq = false) {o : Own} {pos : Nat} (hkv : o.kv = .whole o.inst pos)
    (hready : ∀ w < n, Ready (s.kvs w seq) o.inst pos) (x : Option Own) (nextInst t : Nat)
    (outcome : Option (Error × Nat)) :
    Sound n ({ s with own := Function.update s.own seq x, nextInst := nextInst }.runLocal seq o t
      outcome) := by
  have hown : ∀ o' : Option Own, ∀ id, id ≠ seq →
      Function.update (Function.update s.own seq x) seq o' id = s.own id := by
    intro o' id hne
    rw [Function.update_of_ne hne, Function.update_of_ne hne]
  cases outcome with
  | some failure =>
    obtain ⟨e, layers⟩ := failure
    have hquiet := quiet_of_idle h hidle
    exact sound_failed h (fun f hf => absurd hf (by simp [hidle])) (hown _) rfl rfl rfl hquiet
  | none =>
    have hlen : o.kv.len = pos := by rw [hkv, SeqKv.len_whole]
    have hextend : o.kv.extend o.inst t = .whole o.inst (pos + t) := by
      rw [hkv, SeqKv.extend_whole]
    refine ⟨fun id o' ho hid => ?_, fun id o' ho hid hbusy => ?_, fun f hf => ?_, fun w _ =>
      quiet_of_idle h hidle w⟩
    · by_cases hne : id = seq
      · subst hne
        have ho : { o with kv := o.kv.extend o.inst t } = o' := by simpa [runLocal] using ho
        exact ⟨pos + t, by rw [← ho]; exact hextend⟩
      · exact h.owned id o' ((hown _ id hne).symm.trans ho) hid
    · have hne : id ≠ seq := fun heq => hbusy _ rfl heq.symm
      exact h.idle id o' ((hown _ id hne).symm.trans ho) hid fun f hf =>
        absurd hf (by simp [hidle])
    · obtain rfl : (⟨seq, o.kv.len, t, 0, none⟩ : Forward) = f := Option.some.inj hf
      refine ⟨{ o with kv := o.kv.extend o.inst t }, ?_⟩
      rw [hlen]
      exact
        { own := Function.update_self _ _ _
          failed := hseq
          kv := hextend
          next_le := Nat.zero_le n
          passed := fun w hw => absurd hw (Nat.not_lt_zero w)
          ahead := fun w _ hw => hready w hw
          front := fun hpos => hready 0 hpos }

/-- The coordinator's KV of an id in use, and what its workers have. -/
theorem ready_of_own (h : Sound n s) (hidle : s.forward = none) {seq : Nat} {o : Own}
    (ho : s.own seq = some o) (hseq : s.failed seq = false) :
    o.kv = .whole o.inst o.kv.len ∧ ∀ w < n, Ready (s.kvs w seq) o.inst o.kv.len := by
  obtain ⟨len, hkv⟩ := h.owned seq o ho hseq
  have hlen : o.kv.len = len := by rw [hkv, SeqKv.len_whole]
  refine ⟨by rw [hlen]; exact hkv, fun w hw => .inr ?_⟩
  rw [h.idle seq o ho hseq (fun f hf => absurd hf (by simp [hidle])) w hw, hlen]
  exact hkv

/-- A call that goes on with what the coordinator has. -/
theorem sound_runLocal_own (h : Sound n s) (hidle : s.forward = none) {seq : Nat} {o : Own}
    (ho : s.own seq = some o) (hseq : s.failed seq = false) (t : Nat)
    (outcome : Option (Error × Nat)) : Sound n (s.runLocal seq o t outcome) := by
  obtain ⟨hkv, hready⟩ := ready_of_own h hidle ho hseq
  have hrun := sound_runLocal h hidle hseq hkv hready (s.own seq) s.nextInst t outcome
  rwa [Function.update_eq_self] at hrun

theorem sound_prefill (h : Sound n s) (hidle : s.forward = none) {seq : Nat}
    (hseq : s.failed seq = false) (t startPos : Nat) (outcome : Option (Error × Nat)) :
    Sound n (s.prefill seq t startPos outcome) := by
  unfold prefill
  by_cases hzero : startPos = 0
  · -- a new sequence, whatever the workers hold for its id
    simp only [hzero, if_true, Function.update_self, SeqKv.empty, SeqKv.len, List.length_nil,
      ne_eq, not_true_eq_false, if_false]
    exact sound_runLocal h hidle hseq rfl (fun w _ => .inl rfl) _ _ t outcome
  · simp only [hzero, if_false]
    split
    · exact sound_fail_idle h hidle seq _
    · next o ho =>
      split
      · exact sound_fail_idle h hidle seq _
      · exact sound_runLocal_own h hidle ho hseq t outcome

theorem sound_result (h : Sound n s) (hidle : s.forward = none)
    (result : Option (Except Error Unit)) : Sound n { s with result := result } :=
  ⟨h.owned, h.idle, fun _ hf => absurd hf (by simp [hidle]), h.quiet⟩

theorem sound_decode (h : Sound n s) (hidle : s.forward = none) (batch : List Nat)
    (hbatch : ∀ seq ∈ batch, s.failed seq = false) (outcome : Option (Error × Nat)) :
    Sound n (s.decode batch outcome) := by
  unfold decode
  split
  · exact sound_result h hidle _
  · next seq =>
    split
    · exact sound_fail_idle h hidle seq _
    · next o ho => exact sound_runLocal_own h hidle ho (hbatch seq List.mem_cons_self) 1 outcome
  · exact sound_result h hidle _

/-! ## The way through the workers -/

theorem seq_of_forward {f : Forward} (hf : s.forward = some f) (f' : Forward)
    (hf' : s.forward = some f') : f'.seq = f.seq := by
  rw [Option.some.inj (hf.symm.trans hf')]

/-- The other workers' streams carry nothing. -/
theorem quiet_of_ne_next (h : Sound n s) {f : Forward} (hf : s.forward = some f) {w : Nat}
    (hne : w ≠ f.next) : (s.links w).inbox = [] ∧ (s.links w).outbox = [] := by
  refine h.quiet w fun f' hf' _ hnext => hne ?_
  rw [← hnext, Option.some.inj (hf.symm.trans hf')]

/-- A call that waits is at a worker. -/
theorem Busy.awaited {f : Forward} {o : Own} (hbusy : Busy n s f o) {serial : Nat}
    (hserial : f.awaiting = some serial) :
    f.next < n ∧ Awaited (s.links f.next) (s.kvs f.next f.seq) o.kv
      ⟨serial, f.seq, f.indexPos, f.seqLen, o.inst⟩ := by
  have hfront := hbusy.front
  rwa [Front, hserial] at hfront

/-- Between two chunks no stream carries anything. -/
theorem quiet_of_not_awaiting (h : Sound n s) {f : Forward} (hf : s.forward = some f)
    (hnone : f.awaiting = none) (w : Nat) :
    (s.links w).inbox = [] ∧ (s.links w).outbox = [] := by
  refine h.quiet w fun f' hf' hsome => ?_
  rw [← Option.some.inj (hf.symm.trans hf')] at hsome
  exact absurd hnone hsome

theorem sound_send (endpoint : Nat → String) (h : Sound n s) (encodeErr : Option Error) :
    Sound n (s.send endpoint n encodeErr) := by
  unfold send
  split
  · next f hf =>
    have hseq := seq_of_forward hf
    split
    · next hnext =>
      obtain ⟨hlt, hnone⟩ := hnext
      have hquiet := quiet_of_not_awaiting h hf hnone
      split
      · exact sound_fail h hseq hquiet _
      · exact h
      · next o ho =>
        split
        · exact sound_fail h hseq hquiet _
        · next hopen =>
          obtain ⟨o', hbusy⟩ := h.busy f hf
          obtain rfl : o' = o := Option.some.inj (hbusy.own.symm.trans ho)
          have hready : Ready (s.kvs f.next f.seq) o'.inst f.indexPos := by
            have hfront := hbusy.front
            rw [Front, hnone] at hfront
            exact hfront hlt
          refine ⟨h.owned, fun id o ho hid hother => ?_, fun f' hf' => ?_, fun w hw => ?_⟩
          · refine h.idle id o ho hid fun f' hf' heq => ?_
            exact hother { f with awaiting := some s.nextSerial } rfl ((hseq f' hf').symm.trans heq)
          · obtain rfl := Option.some.inj hf'
            refine ⟨o', hbusy.own, hbusy.failed, hbusy.kv, hbusy.next_le, hbusy.passed,
              hbusy.ahead, hlt, ?_⟩
            refine .sent ?_ ?_ ?_ hready
            · simpa [setLink] using hopen
            · simp [setLink, chunk, hquiet f.next]
            · simp [setLink, hquiet f.next]
          · have hne : w ≠ f.next := fun heq => hw _ rfl (by simp) heq.symm
            simp only [setLink, Function.update_of_ne hne]
            exact hquiet w
    · exact h
  · exact h

theorem kvs_setKv (s : Pipeline) (w seq : Nat) (kv : SeqKv) (w' id : Nat) :
    (s.setKv w seq kv).kvs w' id = if w' = w ∧ id = seq then kv else s.kvs w' id := by
  unfold setKv
  by_cases hw : w' = w
  · subst hw
    by_cases hid : id = seq
    · subst hid
      simp
    · simp [hid]
  · simp [hw]

/-- A chunk in a stream is the one that the call waits for. -/
theorem awaited_of_inbox (h : Sound n s) {w : Nat} {c : Chunk} {inbox : List Chunk}
    (hin : (s.links w).inbox = c :: inbox) :
    ∃ f o, s.forward = some f ∧ Busy n s f o ∧ f.next = w ∧ f.awaiting = some c.serial ∧
      c = ⟨c.serial, f.seq, f.indexPos, f.seqLen, o.inst⟩ ∧ inbox = [] ∧
      (s.links w).outbox = [] ∧ Ready (s.kvs w f.seq) o.inst f.indexPos := by
  by_cases hcall : ∃ f, s.forward = some f ∧ f.awaiting ≠ none ∧ f.next = w
  · obtain ⟨f, hf, hsome, rfl⟩ := hcall
    obtain ⟨o, hbusy⟩ := h.busy f hf
    obtain ⟨serial, hserial⟩ := Option.ne_none_iff_exists'.mp hsome
    cases (hbusy.awaited hserial).2 with
    | sent hopen hsent hout hready =>
      obtain ⟨rfl, hnil⟩ := List.cons.inj (hin.symm.trans hsent)
      exact ⟨f, o, hf, hbusy, rfl, hserial, rfl, hnil, hout, hready⟩
    | answered r hempty _ _ _ => exact absurd (hin.symm.trans hempty) (by simp)
    | lost hempty _ => exact absurd (hin.symm.trans hempty) (by simp)
  · have hempty := (h.quiet w fun f hf hsome hnext => hcall ⟨f, hf, hsome, hnext⟩).1
    exact absurd (hin.symm.trans hempty) (by simp)

theorem sound_process (h : Sound n s) (w : Nat) (o : Outcome) : Sound n (s.process w o) := by
  unfold process
  split
  · exact h
  · next c inbox hin =>
    obtain ⟨f, own, hf, hbusy, rfl, hserial, hc, hinbox, hout, hready⟩ := awaited_of_inbox h hin
    have hseq : c.seqId = f.seq := congrArg Chunk.seqId hc
    -- only the KV of the call's sequence at this worker changes
    have hkvs : ∀ w id, (w ≠ f.next ∨ id ≠ f.seq) →
        (s.setKv f.next c.seqId (workerStep c o (s.kvs f.next c.seqId)).2).kvs w id =
          s.kvs w id := by
      intro w id hne
      rw [kvs_setKv, if_neg]
      rw [hseq]
      exact fun hboth => hne.elim (fun hw => hw hboth.1) fun hid => hid hboth.2
    refine ⟨h.owned, fun id o' ho hid hother => fun w hw => ?_, fun f' hf' => ?_, fun w hw => ?_⟩
    · have hne : id ≠ f.seq := fun heq => hother f hf heq.symm
      exact (hkvs w id (.inr hne)).trans (h.idle id o' ho hid hother w hw)
    · obtain rfl : f = f' := Option.some.inj (hf.symm.trans hf')
      refine ⟨own, hbusy.own, hbusy.failed, hbusy.kv, hbusy.next_le, fun w hw => ?_,
        fun w hlt hw => ?_, ?_⟩
      · exact (hkvs w f.seq (.inl (Nat.ne_of_lt hw))).trans (hbusy.passed w hw)
      · have hsame := hkvs w f.seq (.inl (Nat.ne_of_gt hlt))
        simp only [setLink] at hsame ⊢
        rw [hsame]
        exact hbusy.ahead w hlt hw
      · have hfront := hbusy.front
        rw [Front, hserial] at hfront ⊢
        refine ⟨hfront.1, .answered ⟨c.serial, (workerStep c o (s.kvs f.next c.seqId)).1⟩ ?_ ?_ rfl
          fun hok => ?_⟩
        · simp [setLink, hinbox]
        · simp [setLink, setKv, hout]
        · have hready : Ready (s.kvs f.next c.seqId) c.origin c.indexPos := by
            rw [hc]
            exact hready
          show (s.setKv f.next c.seqId (workerStep c o (s.kvs f.next c.seqId)).2).kvs f.next f.seq =
            own.kv
          rw [kvs_setKv, if_pos ⟨rfl, hseq.symm⟩, workerStep_ready hready o hok, hc, hbusy.kv]
    · have hne : w ≠ f.next := fun heq => hw f hf (by simp [hserial]) heq.symm
      simp only [setLink, setKv, Function.update_of_ne hne]
      exact h.quiet w hw

/-- A reply in the stream of the call is the only one, and answers the chunk it waits for. -/
theorem answered_of_outbox (h : Sound n s) {f : Forward} (hf : s.forward = some f)
    {serial : Nat} (hserial : f.awaiting = some serial) {reply : Reply} {outbox : List Reply}
    (hout : (s.links f.next).outbox = reply :: outbox) :
    ∃ o, Busy n s f o ∧ f.next < n ∧ outbox = [] ∧ (s.links f.next).inbox = [] ∧
      reply.serial = serial ∧ (reply.error = none → s.kvs f.next f.seq = o.kv) := by
  obtain ⟨o, hbusy⟩ := h.busy f hf
  obtain ⟨hlt, hawaited⟩ := hbusy.awaited hserial
  cases hawaited with
  | sent _ _ hnone _ => exact absurd (hnone.symm.trans hout) (by simp)
  | lost _ hnone => exact absurd (hnone.symm.trans hout) (by simp)
  | answered r hin hone hreply hgoal =>
    obtain ⟨rfl, hnil⟩ := List.cons.inj (hone.symm.trans hout)
    exact ⟨o, hbusy, hlt, hnil.symm, hin, hreply, hgoal⟩

/-- A stream that closed with nothing to read has lost the chunk. -/
theorem quiet_of_closed (h : Sound n s) {f : Forward} (hf : s.forward = some f) {serial : Nat}
    (hserial : f.awaiting = some serial) (hout : (s.links f.next).outbox = [])
    (hclosed : (s.links f.next).closed = true) (w : Nat) :
    (s.links w).inbox = [] ∧ (s.links w).outbox = [] := by
  by_cases hne : w = f.next
  · subst hne
    obtain ⟨o, hbusy⟩ := h.busy f hf
    cases (hbusy.awaited hserial).2 with
    | sent hopen _ _ _ => exact absurd (hopen.symm.trans hclosed) (by simp)
    | answered r _ hone _ _ => exact absurd (hone.symm.trans hout) (by simp)
    | lost hin _ => exact ⟨hin, hout⟩
  · exact quiet_of_ne_next h hf hne

theorem sound_receive (endpoint : Nat → String) (h : Sound n s) (decodeErr : Option Error) :
    Sound n (s.receive endpoint decodeErr) := by
  unfold receive
  split
  · next f hf =>
    have hseq := seq_of_forward hf
    split
    · exact h
    · next serial hserial hout =>
      split
      · next hclosed => exact sound_fail h hseq (quiet_of_closed h hf hserial hout hclosed) _
      · exact h
    · next serial reply outbox hserial hout =>
      obtain ⟨o, hbusy, hlt, rfl, hin, _, hgoal⟩ := answered_of_outbox h hf hserial hout
      have hlinks : ∀ w, ((s.setLink f.next { s.links f.next with outbox := [] }).links w).inbox =
          [] ∧ ((s.setLink f.next { s.links f.next with outbox := [] }).links w).outbox = [] := by
        intro w
        by_cases hne : w = f.next
        · rw [hne]
          simp [setLink, hin]
        · simp only [setLink, Function.update_of_ne hne]
          exact quiet_of_ne_next h hf hne
      dsimp only
      split
      · exact sound_failed h hseq (fun _ _ => rfl) rfl rfl rfl hlinks
      · exact sound_failed h hseq (fun _ _ => rfl) rfl rfl rfl hlinks
      · next hok =>
        refine ⟨h.owned, fun id o ho hid hbusyid => ?_, fun f' hf' => ?_, fun w _ => hlinks w⟩
        · refine h.idle id o ho hid fun f' hf' heq => ?_
          exact hbusyid { f with next := f.next + 1, awaiting := none } rfl
            ((hseq f' hf').symm.trans heq)
        · obtain rfl := Option.some.inj hf'
          refine ⟨o, hbusy.own, hbusy.failed, hbusy.kv, hlt, fun w hw => ?_,
            fun w hlt hw => hbusy.ahead w (Nat.lt_of_succ_lt hlt) hw,
            fun hlt => hbusy.ahead (f.next + 1) (Nat.lt_succ_self _) hlt⟩
          rcases Nat.lt_succ_iff_lt_or_eq.mp hw with hlt | rfl
          · exact hbusy.passed w hlt
          · exact hgoal hok
  · exact h

theorem sound_finish (h : Sound n s) (outputErr : Option Error) :
    Sound n (s.finish n outputErr) := by
  unfold finish
  split
  · next f hf =>
    split
    · next hnext =>
      obtain ⟨o, hbusy⟩ := h.busy f hf
      -- past the last worker there is nothing to wait for
      have hnone : f.awaiting = none := by
        cases hawait : f.awaiting with
        | none => rfl
        | some serial => exact absurd (hbusy.awaited hawait).1 (by omega)
      have hquiet := quiet_of_not_awaiting h hf hnone
      split
      · exact sound_fail h (seq_of_forward hf) hquiet _
      · refine ⟨h.owned, fun id o' ho hid _ w hw => ?_, fun f hf => absurd hf (by simp),
          fun w _ => hquiet w⟩
        by_cases hid' : id = f.seq
        · subst hid'
          obtain rfl : o = o' := Option.some.inj (hbusy.own.symm.trans ho)
          exact hbusy.passed w (hnext ▸ hw)
        · exact h.idle id o' ho hid
            (fun f' hf' heq => hid' (heq.symm.trans (seq_of_forward hf f' hf'))) w hw
    · exact h
  · exact h

/-! ## Drops, streams that end, crashes and leftovers -/

theorem sound_dropSeq (h : Sound n s) (hidle : s.forward = none) (seq : Nat)
    (resets : Nat → Bool) : Sound n (s.dropSeq seq resets) := by
  have hother : ∀ id o, (s.dropSeq seq resets).own id = some o →
      (s.dropSeq seq resets).failed id = false →
      id ≠ seq ∧ s.own id = some o ∧ s.failed id = false := by
    intro id o ho hid
    have hne : id ≠ seq := by
      rintro rfl
      exact absurd ho (by simp [dropSeq])
    exact ⟨hne, (Function.update_of_ne hne _ _).symm.trans ho,
      (Function.update_of_ne hne _ _).symm.trans hid⟩
  refine ⟨fun id o ho hid => ?_, fun id o ho hid _ w hw => ?_,
    fun f hf => absurd hf (by simp [dropSeq, hidle]), fun w _ => quiet_of_idle h hidle w⟩
  · obtain ⟨_, ho, hid⟩ := hother id o ho hid
    exact h.owned id o ho hid
  · obtain ⟨hne, ho, hid⟩ := hother id o ho hid
    have hkv : (s.dropSeq seq resets).kvs w id = s.kvs w id := by
      simp [dropSeq, hne]
    rw [hkv]
    exact h.idle id o ho hid (fun f hf => absurd hf (by simp [hidle])) w hw

theorem awaited_close {link : Link} {kv goal : SeqKv} {c : Chunk} (h : Awaited link kv goal c)
    (kept : Bool) : Awaited ⟨[], if kept then link.outbox else [], true⟩ kv goal c := by
  cases h with
  | sent _ _ hout _ => exact .lost rfl (by simp [hout])
  | answered r _ hout hserial hgoal =>
    cases kept with
    | false => exact .lost rfl rfl
    | true => exact .answered r rfl hout hserial hgoal
  | lost _ hout => exact .lost rfl (by simp [hout])

theorem sound_close (h : Sound n s) (w : Nat) (late kept : Bool) :
    Sound n (s.close w late kept) := by
  refine ⟨h.owned, h.idle, fun f hf => ?_, fun w' hw' => ?_⟩
  · obtain ⟨o, hbusy⟩ := h.busy f hf
    refine ⟨o, hbusy.own, hbusy.failed, hbusy.kv, hbusy.next_le, hbusy.passed, hbusy.ahead, ?_⟩
    have hfront := hbusy.front
    unfold Front at hfront ⊢
    cases hawait : f.awaiting with
    | none =>
      rw [hawait] at hfront
      exact hfront
    | some serial =>
      rw [hawait] at hfront
      refine ⟨hfront.1, ?_⟩
      by_cases hw : f.next = w
      · subst hw
        simpa [close, setLink] using awaited_close hfront.2 kept
      · simpa [close, setLink, hw] using hfront.2
  · have hquiet := h.quiet w' hw'
    by_cases hw : w' = w
    · subst hw
      simp [close, setLink, hquiet]
    · simpa [close, setLink, hw] using hquiet

theorem sound_crash (n : Nat) (s : Pipeline) : Sound n (s.crash n) :=
  ⟨fun _ _ h => absurd h (by simp [crash]), fun _ _ h => absurd h (by simp [crash]),
    fun _ h => absurd h (by simp [crash]), fun _ _ => ⟨rfl, rfl⟩⟩

/-- A leftover chunk that is refused, or whose id is not in use, touches no KV in use. -/
theorem kvs_late {i : Nat} {o : Outcome} (hs : s.shielded (.late i o) = true) (w id : Nat)
    (hid : s.inUse id = true) :
    (s.late i o).kvs w id = s.kvs w id := by
  unfold late
  split
  · rfl
  · next w' c hleft =>
    simp only [shielded, hleft, Bool.or_eq_true, Bool.not_eq_true'] at hs
    show (s.setKv w' c.seqId _).kvs w id = s.kvs w id
    rw [kvs_setKv]
    split
    · next hboth =>
      obtain ⟨rfl, rfl⟩ := hboth
      exact workerStep_refused (hs.resolve_left (by simp [hid]))
    · rfl

theorem sound_late (h : Sound n s) {i : Nat} {o : Outcome} (hs : s.shielded (.late i o) = true) :
    Sound n (s.late i o) := by
  have hkvs := kvs_late hs
  have hsame : (s.late i o).own = s.own ∧ (s.late i o).failed = s.failed ∧
      (s.late i o).forward = s.forward ∧ (s.late i o).links = s.links := by
    unfold late
    split <;> exact ⟨rfl, rfl, rfl, rfl⟩
  obtain ⟨hown, hfailed, hforward, hlinks⟩ := hsame
  refine ⟨fun id o' ho hid => ?_, fun id o' ho hid hother w hw => ?_, fun f hf => ?_,
    fun w hw => ?_⟩
  · rw [hown] at ho
    rw [hfailed] at hid
    exact h.owned id o' ho hid
  · rw [hown] at ho
    rw [hfailed] at hid
    rw [hforward] at hother
    rw [hkvs w id (by simp [inUse, ho, hid])]
    exact h.idle id o' ho hid hother w hw
  · rw [hforward] at hf
    obtain ⟨own, hbusy⟩ := h.busy f hf
    have hkv : ∀ w, (s.late i o).kvs w f.seq = s.kvs w f.seq :=
      fun w => hkvs w f.seq (by simp [inUse, hbusy.own, hbusy.failed])
    refine ⟨own, hown ▸ hbusy.own, hfailed ▸ hbusy.failed, hbusy.kv, hbusy.next_le,
      fun w hw => (hkv w).trans (hbusy.passed w hw), fun w hlt hw => ?_, ?_⟩
    · rw [hkv]
      exact hbusy.ahead w hlt hw
    · have hfront := hbusy.front
      unfold Front at hfront ⊢
      rw [hkv, hlinks]
      exact hfront
  · rw [hforward] at hw
    rw [hlinks]
    exact h.quiet w hw

/-! ## Runs -/

theorem sound_step (endpoint : Nat → String) (h : Sound n s) (e : Event)
    (hs : s.shielded e = true) : Sound n (s.step endpoint n e) := by
  cases e with
  | prefill seq t startPos outcome =>
    unfold step
    dsimp only
    split
    · exact h
    · next hfree =>
      obtain ⟨hidle, hseq⟩ : s.forward = none ∧ s.failed seq = false := by simpa using hfree
      exact sound_prefill h hidle hseq t startPos outcome
  | decode batch outcome =>
    unfold step
    dsimp only
    split
    · exact h
    · next hfree =>
      obtain ⟨hidle, hbatch⟩ : s.forward = none ∧ ∀ seq ∈ batch, s.failed seq = false := by
        simpa using hfree
      exact sound_decode h hidle batch hbatch outcome
  | send encodeErr => exact sound_send endpoint h encodeErr
  | process w o => exact sound_process h w o
  | receive decodeErr => exact sound_receive endpoint h decodeErr
  | finish outputErr => exact sound_finish h outputErr
  | dropSeq seq resets =>
    unfold step
    dsimp only
    split
    · exact h
    · next hfree => exact sound_dropSeq h (by simpa using hfree) seq resets
  | close w late kept => exact sound_close h w late kept
  | crash => exact sound_crash n s
  | late i o => exact sound_late h hs

theorem agrees_of_eq {o : Own} {len : Nat} (hkv : o.kv = .whole o.inst len) : Agrees o.kv o := by
  refine ⟨rfl, by rw [hkv]; rfl, fun origin horigin => ?_⟩
  rw [hkv] at horigin
  exact (List.mem_replicate.mp horigin).2

theorem good_of_sound (h : Sound n s) (e : Event) : s.Good n e := by
  cases e with
  | finish outputErr =>
    cases outputErr with
    | some e => trivial
    | none =>
      intro f o hf hnext ho w hw
      obtain ⟨o', hbusy⟩ := h.busy f hf
      obtain rfl : o' = o := Option.some.inj (hbusy.own.symm.trans ho)
      rw [hbusy.passed w (hnext ▸ hw)]
      exact agrees_of_eq hbusy.kv
  | receive decodeErr =>
    intro f serial reply outbox hf hserial hout
    obtain ⟨o, _, _, _, _, hreply, _⟩ := answered_of_outbox h hf hserial hout
    exact hreply
  | _ => trivial

/-- In every run of shielded steps, a successful call leaves the workers in agreement with the
    coordinator, and every reply used answers the chunk just sent. -/
theorem pipeline_agrees (endpoint : Nat → String) (n : Nat) (events : List Event)
    (h : Along (step endpoint n) (fun s e => s.shielded e = true) new events) :
    Along (step endpoint n) (Good n) new events :=
  h.of_invariant (fun _ e hs => good_of_sound hs e) (fun _ e hs he => sound_step endpoint hs e he)
    (sound_new n)

/-- One worker answers every chunk of a call. -/
def answered : List Event := [.send none, .process 0 .done, .receive none, .finish none]

/-- The first coordinator crashes with a chunk on its way, and the next one starts again at
    sequence 1. -/
def restarted : List Event :=
  [.prefill 1 2 0 none, .send none, .crash, .prefill 1 2 0 none] ++ answered

theorem pipeline_agrees_restarted :
    Along (step (fun _ => "http://w0") 1) (fun s e => s.shielded e = true) new restarted ∧
      Along (step (fun _ => "http://w0") 1) (Good 1) new restarted :=
  ⟨by decide, pipeline_agrees _ 1 _ (by decide)⟩

/-- The chunk of the first coordinator is processed after the second prefill; the decode that
    follows passes the position check on a KV of another sequence. -/
theorem leftover_replaces_kv :
    ¬ Along (step (fun _ => "http://w0") 1) (Good 1) new
      (restarted ++ [.late 0 .done, .decode [1] none] ++ answered) := by
  intro h
  rw [answered, show ([.send none, .process 0 .done, .receive none, .finish none] : List Event) =
    [.send none, .process 0 .done, .receive none] ++ [.finish none] from rfl, ← List.append_assoc,
    along_append] at h
  have hagrees := h.2.1 ⟨1, 2, 1, 1, none⟩ ⟨.whole 1 3, 1⟩ rfl rfl rfl 0 (by decide)
  exact absurd (hagrees.2.2 0 (by decide)) (by decide)

end Pipeline

end Cognitora.Infer
