/-
  The batched runtime and its forward pass (cgn-infer `src/model/llama.rs`, `QLlama` and
  `SeqKv`; `src/runtime/mod.rs`, `BatchedLlama`).

  A tensor is the list of its rows, one per token: hidden states of any type `H`, rows of
  heads of any type `P`. The weights are arbitrary functions on rows, and `mix` is what
  attention makes of a query and the keys and values it is let to see: a score masked with
  minus infinity has no weight. Every tensor operation may fail, as `fails` has it, and so
  does one on shapes that do not fit; operations in a row that change nothing in between are
  one `attempt`. A failure leaves the caches as they are at that moment: a layer whose entry
  was taken out and not put back has none.

  `reads` is a history variable: what every query of the last call has seen.
-/
import Cognitora.Infer.Runtime
import Cognitora.Lib.Faulty

namespace Cognitora.Infer.Llama

open Cognitora.Lib Cognitora.Lib.Faulty

/-! ## Caches and weights -/

/-- Per-sequence KV cache: the keys and values of each layer, grown by concatenation. -/
structure SeqKv (P : Type) where
  entries : List (Option (List P × List P))
  tokens : Nat

namespace SeqKv

variable {P : Type}

def new (nLayers : Nat) : SeqKv P where
  entries := List.replicate nLayers none
  tokens := 0

/-- Number of positions cached. -/
def len (kv : SeqKv P) : Nat :=
  kv.tokens

def clear (kv : SeqKv P) : SeqKv P where
  entries := kv.entries.map fun _ => none
  tokens := 0

def setEntry (kv : SeqKv P) (layer : Nat) (slot : Option (List P × List P)) : SeqKv P :=
  { kv with entries := kv.entries.set layer slot }

end SeqKv

structure Block (H P : Type) where
  attnNorm : H → H
  wq : H → P
  wk : H → P
  wv : H → P
  wo : P → H
  ffnNorm : H → H
  mlp : H → H

/-- A quantized Llama-family model with external KV. -/
structure QLlama (H P Λ : Type) where
  /-- Rows of the rotation tables. -/
  contextLength : Nat
  blocks : List (Block H P)
  embed : Token → H
  /-- RoPE with one row of the tables. -/
  rotate : Nat → P → P
  /-- Scores, softmax and the weighted sum. -/
  mix : P → List (P × P) → P
  add : H → H → H
  outNorm : H → H
  head : H → Λ

/-- What one query has attended to: the query of the token at `pos` of a sequence, the
    `member`-th of the call, in one layer. -/
structure Read (P : Type) where
  member : Nat
  layer : Nat
  pos : Nat
  query : P
  seen : List (P × P)
  deriving DecidableEq

/-- A forward pass at work: the caches lent to it, and what has been read. -/
structure Pass (P : Type) where
  kvs : List (SeqKv P)
  reads : List (Read P)

/-- The entry of one layer of one of the caches. -/
def Pass.slot {P : Type} (w : Pass P) (member layer : Nat) : Option (List P × List P) :=
  (w.kvs[member]?.bind fun kv => kv.entries[layer]?).join

def Pass.setSlot {P : Type} (member layer : Nat) (w : Pass P)
    (slot : Option (List P × List P)) : Pass P :=
  { w with kvs := w.kvs.modify member fun kv => kv.setEntry layer slot }

variable {H P Λ : Type}

/-- The keys and values that a row of the mask leaves visible; without a mask, all. -/
def visible (k v : List P) : Option (List Bool) → List (P × P)
  | none => k.zip v
  | some row => ((k.zip v).zip row).filterMap fun c => if c.2 then none else some c.1

/-! ## One layer -/

namespace QLlama

variable (net : QLlama H P Λ) (fails : Nat → Bool)

def rope (x : List P) (pos t : Nat) : Faulty (Pass P) (List P) := do
  -- `narrow` of the tables
  require (pos + t ≤ net.contextLength)
  attempt fails (x.mapIdx fun i p => net.rotate (pos + i) p)

/-- Entry `(i, j)` is set for positions the query at `startPos + i` must not attend to. -/
def causalMask (t startPos : Nat) : Faulty (Pass P) (Option (List (List Bool))) :=
  if t = 1 then pure none
  else attempt fails (some ((List.range t).map fun i =>
    (List.range (startPos + t)).map fun j => decide (startPos + i < j)))

/-- `member`, `layer` and `pos` are for `reads` only. -/
def attend (member layer pos : Nat) (q k v : List P) (mask : Option (List (List Bool))) :
    Faulty (Pass P) (List P) := do
  let seen := fun i => visible k v (mask.map fun m => m.getD i [])
  alter fun w => { w with
    reads := w.reads ++ q.mapIdx fun i p => ⟨member, layer, pos + i, p, seen i⟩ }
  attempt fails ()
  -- the mask is broadcast to the shape of the scores
  require (∀ m ∈ mask, ∀ row ∈ m, row.length = k.length)
  attempt fails (q.mapIdx fun i p => net.mix p (seen i))

/-- The new keys and values after those of the entry, unless the sequence starts. -/
def concat (pos : Nat) (slot : Option (List P × List P)) (k v : List P) :
    Faulty (Pass P) (List P × List P) :=
  match slot with
  | some (kc, vc) =>
    if 0 < pos then do
      let k ← attempt fails (kc ++ k)
      let v ← attempt fails (vc ++ v)
      pure (k, v)
    else pure (k, v)
  | none => pure (k, v)

/-- The part of a layer that both `block_forward_*` do per sequence: RoPE, the cache entry,
    attention. The entry is taken out before it is extended and put back afterwards. -/
def attendCached (member layer pos t : Nat) (q k v : List P) (mask : Option (List (List Bool))) :
    Faulty (Pass P) (List P) := do
  let q ← net.rope fails q pos t
  let k ← net.rope fails k pos t
  let v ← attempt fails v
  let w ← read
  alter fun w => w.setSlot member layer none
  let kv ← concat fails pos (w.slot member layer) k v
  alter fun w => w.setSlot member layer (some kv)
  net.attend fails member layer pos q kv.1 kv.2 mask

/-- Queries, keys and values of all rows. -/
def project (b : Block H P) (x : List H) : Faulty (Pass P) (List P × List P × List P) := do
  let xn ← attempt fails (x.map b.attnNorm)
  let q ← attempt fails (xn.map b.wq)
  let k ← attempt fails (xn.map b.wk)
  let v ← attempt fails (xn.map b.wv)
  attempt fails (q, k, v)

def addRows (y x : List H) : Faulty (Pass P) (List H) := do
  require (y.length = x.length)
  attempt fails (List.zipWith net.add y x)

/-- A layer after its attention. -/
def closeBlock (b : Block H P) (x : List H) (y : List P) : Faulty (Pass P) (List H) := do
  let y ← attempt fails (y.map b.wo)
  let x ← net.addRows fails y x
  let xn ← attempt fails (x.map b.ffnNorm)
  let y ← attempt fails (xn.map b.mlp)
  net.addRows fails y x

def blockForwardSingle (b : Block H P) (layer : Nat) (x : List H) (startPos t : Nat)
    (mask : Option (List (List Bool))) : Faulty (Pass P) (List H) := do
  let r ← project fails b x
  let y ← net.attendCached fails 0 layer startPos t r.1 r.2.1 r.2.2 mask
  net.closeBlock fails b x y

/-- `x.i(i..i + 1)`. -/
def rowAt (x : List P) (i : Nat) : Faulty (Pass P) (List P) := do
  require (i < x.length)
  attempt fails ((x.drop i).take 1)

def blockForwardBatch (b : Block H P) (layer : Nat) (x : List H) (positions : List Nat) :
    Faulty (Pass P) (List H) := do
  let r ← project fails b x
  let ys ← positions.zipIdx.foldlM (fun ys p => do
    let qi ← rowAt fails r.1 p.2
    let ki ← rowAt fails r.2.1 p.2
    let vi ← rowAt fails r.2.2 p.2
    let y ← net.attendCached fails p.2 layer p.1 1 qi ki vi none
    pure (ys ++ y)) []
  let y ← attempt fails ys
  net.closeBlock fails b x y

/-! ## All layers -/

def embedTokens (tokens : List Token) : Faulty (Pass P) (List H) :=
  attempt fails (tokens.map net.embed)

/-- Run the layers over `hidden` for a single sequence, the only one lent, whose KV already
    covers `startPos` positions. -/
def forwardHidden (hidden : List H) (startPos : Nat) : Faulty (Pass P) (List H) := do
  let w ← read
  require (∀ kv ∈ w.kvs, kv.entries.length = net.blocks.length)
  let t := hidden.length
  let mask ← causalMask fails t startPos
  let x ← net.blocks.zipIdx.foldlM (fun x b =>
    net.blockForwardSingle fails b.1 b.2 x startPos t mask) hidden
  alter fun w => { w with kvs := w.kvs.map fun kv => { kv with tokens := startPos + t } }
  pure x

/-- Batched decode: one new token per sequence. -/
def decodeStep (hiddens : List H) (positions : List Nat) : Faulty (Pass P) (List H) := do
  let w ← read
  require (hiddens.length = positions.length ∧ hiddens.length = w.kvs.length)
  let x ← net.blocks.zipIdx.foldlM (fun x b =>
    net.blockForwardBatch fails b.1 b.2 x positions) hiddens
  alter fun w => { w with kvs := w.kvs.map fun kv => { kv with tokens := kv.tokens + 1 } }
  pure x

/-- Final norm and LM head over the rows of the last position. -/
def output (last : List H) : Faulty (Pass P) (List Λ) := do
  let x ← attempt fails (last.map net.outNorm)
  attempt fails (x.map net.head)

/-! ## The runtime -/

/-- `prefill` once the cache is found to end at `startPos`. -/
def prefillPass (tokens : List Token) (startPos : Nat) (wantLogits : Bool) :
    Faulty (Pass P) (Option Λ) := do
  let hidden ← net.embedTokens fails tokens
  let hidden ← net.forwardHidden fails hidden startPos
  if wantLogits then do
    -- the last position of no rows is out of range
    require (hidden ≠ [])
    let logits ← net.output fails (hidden.drop (hidden.length - 1))
    attempt fails logits.head?
  else pure none

/-- `decode` once the caches have been taken out. -/
def decodePass (tokens : List Token) (positions : List Nat) : Faulty (Pass P) (List Λ) := do
  let hidden ← net.embedTokens fails tokens
  let hidden ← net.decodeStep fails hidden positions
  let logits ← net.output fails hidden
  attempt fails logits

/-! ## Rows -/

/-- One row of a layer after its attention. -/
def closeRow (b : Block H P) (x : H) (y : P) : H :=
  let x := net.add (b.wo y) x
  net.add (b.mlp (b.ffnNorm x)) x

theorem zipWith_closeRow (b : Block H P) (x : List H) (y : List P) :
    List.zipWith net.add (((List.zipWith net.add (y.map b.wo) x).map b.ffnNorm).map b.mlp)
      (List.zipWith net.add (y.map b.wo) x) = List.zipWith (net.closeRow b) x y := by
  induction x generalizing y with
  | nil => simp
  | cons x xs ih =>
    cases y with
    | nil => rfl
    | cons y ys => exact congrArg (net.closeRow b x y :: ·) (ih ys)

variable {fails} {w : Pass P} {E : Pass P → Prop}

theorem meets_addRows (y x : List H) (hE : E w) :
    Meets (net.addRows fails y x) w
      (fun z w' => z = List.zipWith net.add y x ∧ y.length = x.length ∧ w = w') E :=
  Meets.require_bind (fun h => meets_attempt ⟨rfl, h, rfl⟩ hE) fun _ => hE

theorem meets_closeBlock (b : Block H P) (x : List H) (y : List P) (hE : E w) :
    Meets (net.closeBlock fails b x y) w
      (fun z w' => z = List.zipWith (net.closeRow b) x y ∧ y.length = x.length ∧ w = w') E := by
  rw [← zipWith_closeRow]
  refine Meets.attempt_bind hE ((net.meets_addRows _ x hE).bind ?_)
  rintro z _ ⟨rfl, hlen, rfl⟩
  rw [List.length_map] at hlen
  refine Meets.attempt_bind hE (Meets.attempt_bind hE ?_)
  refine (net.meets_addRows _ _ hE).mono ?_ fun _ h => h
  rintro z _ ⟨rfl, _, rfl⟩
  exact ⟨rfl, hlen, rfl⟩

theorem meets_output (last : List H) (hE : E w) :
    Meets (net.output fails last) w (fun l w' => l.length = last.length ∧ w = w') E := by
  refine Meets.attempt_bind hE (meets_attempt ⟨?_, rfl⟩ hE)
  rw [List.length_map, List.length_map]

theorem meets_decodeStep_length (hiddens : List H) (positions : List Nat) :
    Meets (net.decodeStep fails hiddens positions) w (fun x _ => x.length = hiddens.length)
      fun _ => True := by
  refine Meets.read_bind (Meets.require_bind (fun _ => ?_) fun _ => trivial)
  refine (meets_foldlM (fun _ x _ => x.length = hiddens.length) net.blocks.zipIdx ?_ rfl).bind ?_
  · intro i b x w _ hx
    refine meets_trivial.bind fun r _ _ => meets_trivial.bind fun ys _ _ => ?_
    refine Meets.attempt_bind trivial ((net.meets_closeBlock b.1 x ys trivial).mono ?_ fun _ h => h)
    rintro z _ ⟨rfl, hlen, _⟩
    rw [List.length_zipWith, hlen, Nat.min_self, hx]
  · intro x _ hx
    exact Meets.alter_bind (meets_pure hx)

theorem meets_decodePass_length (tokens : List Token) (positions : List Nat) :
    Meets (net.decodePass fails tokens positions) w (fun l _ => l.length = tokens.length)
      fun _ => True := by
  refine Meets.attempt_bind trivial ?_
  refine (net.meets_decodeStep_length _ positions).bind ?_
  intro x _ hx
  refine (net.meets_output x trivial).bind ?_
  rintro l _ ⟨hl, _⟩
  refine meets_attempt ?_ trivial
  rw [hl, hx, List.length_map]

/-- Logits are returned exactly when asked for. -/
theorem meets_prefillPass_logits (tokens : List Token) (startPos : Nat) (wantLogits : Bool) :
    Meets (net.prefillPass fails tokens startPos wantLogits) w
      (fun l _ => l.isSome = wantLogits) fun _ => True := by
  refine Meets.attempt_bind trivial (meets_trivial.bind fun x _ _ => ?_)
  cases wantLogits with
  | false => exact meets_pure rfl
  | true =>
    refine Meets.require_bind (fun hx => ?_) fun _ => trivial
    refine (net.meets_output _ trivial).bind ?_
    rintro l _ ⟨hl, _⟩
    refine meets_attempt ?_ trivial
    have hpos := List.length_pos_iff.mpr hx
    have hone : l.length = 1 := by
      rw [hl, List.length_drop]
      omega
    obtain ⟨a, rfl⟩ := List.length_eq_one_iff.mp hone
    rfl

end QLlama

/-- The state of the runtime. -/
structure BatchedLlama (P : Type) where
  kvs : Nat → Option (SeqKv P)
  /-- Tensor operations tried so far. -/
  ops : Nat
  reads : List (Read P)

namespace BatchedLlama

def new : BatchedLlama P where
  kvs := fun _ => none
  ops := 0
  reads := []

/-- The caches of a batch, taken out of the map one after the other; at an unknown id those
    already taken out are lost. -/
def takeKvs (kvs : Nat → Option (SeqKv P)) :
    List (Nat × Token) → Option (List (SeqKv P)) × (Nat → Option (SeqKv P))
  | [] => (some [], kvs)
  | (seq, _) :: batch =>
    match kvs seq with
    | none => (none, kvs)
    | some kv =>
      let r := takeKvs (Function.update kvs seq none) batch
      (r.1.map (kv :: ·), r.2)

/-- They are put back whatever the result. -/
def putKvs (kvs : Nat → Option (SeqKv P)) (batch : List (Nat × Token)) (taken : List (SeqKv P)) :
    Nat → Option (SeqKv P) :=
  (batch.zip taken).foldl (fun kvs p => Function.update kvs p.1.1 (some p.2)) kvs

variable (net : QLlama H P Λ) (fails : Nat → Bool) (m : BatchedLlama P)

/-- The cache of `seq`, a new one if there is none, cleared if the sequence starts. -/
def entry (seq startPos : Nat) : SeqKv P :=
  let kv := (m.kvs seq).getD (SeqKv.new net.blocks.length)
  if startPos = 0 then kv.clear else kv

def prefill (seq : Nat) (tokens : List Token) (startPos : Nat) (wantLogits : Bool) :
    Option (Option Λ) × BatchedLlama P :=
  let kv := m.entry net seq startPos
  if kv.len ≠ startPos then
    (none, { m with kvs := Function.update m.kvs seq (some kv), reads := [] })
  else
    let r := net.prefillPass fails tokens startPos wantLogits (m.ops, ⟨[kv], []⟩)
    (r.1, ⟨Function.update m.kvs seq r.2.2.kvs.head?, r.2.1, r.2.2.reads⟩)

def decode (batch : List (Nat × Token)) : Option (List Λ) × BatchedLlama P :=
  if batch = [] then (some [], { m with reads := [] })
  else
    let taken := takeKvs m.kvs batch
    match taken.1 with
    | none => (none, { m with kvs := taken.2, reads := [] })
    | some kvs =>
      let r := net.decodePass fails (batch.map Prod.snd) (kvs.map SeqKv.len) (m.ops, ⟨kvs, []⟩)
      (r.1, ⟨putKvs taken.2 batch r.2.2.kvs, r.2.1, r.2.2.reads⟩)

def dropSeq (seq : Nat) : BatchedLlama P :=
  { m with kvs := Function.update m.kvs seq none, reads := [] }

/-- Continuous-batching runtime over the crate's own forward pass, as `load` sets it up. -/
def runtime (ctx maxBatch : Nat) : BatchModel (BatchedLlama P) Λ where
  maxBatch := max maxBatch 1
  maxSeqLen := max (min ctx net.contextLength) 1
  prefill := prefill net fails
  decode := decode net fails
  dropSeq := dropSeq
  maxBatch_pos := Nat.le_max_right _ _
  prefill_logits := by
    intro m seq tokens startPos wantLogits l h
    unfold prefill at h
    dsimp only at h
    split at h
    · exact absurd h (by simp)
    · exact (net.meets_prefillPass_logits tokens startPos wantLogits _).1 l h
  decode_rows := by
    intro m batch rows h
    unfold decode at h
    dsimp only at h
    split at h
    · next hb =>
      cases h
      rw [hb]
      rfl
    · split at h
      · exact absurd h (by simp)
      · have hlen := (net.meets_decodePass_length (batch.map Prod.snd) _ _).1 rows h
        rw [hlen, List.length_map]

end BatchedLlama

end Cognitora.Infer.Llama
