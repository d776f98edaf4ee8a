/-
  The tiered block store (cgn-kvcached `src/tiers.rs`; cgn-kv `src/block.rs`, `src/tier.rs`,
  `src/ssd.rs`): a RAM map keyed by the full block address over SSD files named after the
  first 8 bytes of the digest and the layer.

  The async functions are `Code`: a file operation is awaited, takes effect in a segment of
  its own, and the function goes on in a later one. The environment's answer `Env` says
  whether the operation succeeds, what the clock shows and in which order a map is iterated.
  A failed file operation leaves the files as they are. `pathFor` is relative to the tier's
  root directory, which exists.

  The index is the in-memory `IndexImpl`, whose operations do not fail. `target` of
  `evictPass` stands for `(cap * high_watermark) as u64`. Not modelled: the counters of
  `KvStats`, `cold_block_count` and the tiers' capacity reports.
-/
import Cognitora.Core.Hash
import Cognitora.Lib.Task
import Mathlib.Data.List.AList

namespace Cognitora.KvCached

open Cognitora.Lib Cognitora.Core

/-- Stable address of a KV block. -/
structure BlockAddress where
  digest : Digest
  layer : UInt32
  deriving DecidableEq

inductive TierKind where
  | gpu
  | ram
  | ssd
  deriving DecidableEq

structure BlockMeta where
  model : String
  layer : UInt32
  bytes : Nat
  createdUnix : Nat
  lastSeenUnix : Nat
  tier : TierKind

/-- What the environment answers to one segment. -/
structure Env where
  /-- The awaited file operation succeeds. -/
  ok : Bool
  now : Nat
  /-- The order in which a map with the given keys is iterated. -/
  iter : List BlockAddress → List BlockAddress
  iter_perm : ∀ keys, (iter keys).Perm keys

/-- What a lookup says about a block. -/
structure BlockHandle where
  info : BlockMeta
  addr : BlockAddress

/-! ## RAM -/

structure RamSlot where
  bytes : Bytes
  last : Nat

structure RamTier where
  inner : AList fun _ : BlockAddress => RamSlot
  capacity : Nat
  used : Nat

namespace RamTier

def new (capacityBytes : Nat) : RamTier where
  inner := ∅
  capacity := capacityBytes
  used := 0

def bytesAt (r : RamTier) (addr : BlockAddress) : Option Bytes :=
  (r.inner.lookup addr).map RamSlot.bytes

/-- The handle `get` returns; it touches the slot as well. -/
def handleAt (r : RamTier) (now : Nat) (addr : BlockAddress) : Option BlockHandle :=
  (r.inner.lookup addr).map fun slot =>
    { addr
      info :=
        { model := "", layer := addr.layer, bytes := slot.bytes.length, createdUnix := 0,
          lastSeenUnix := now, tier := .ram } }

/-- The touch of `get` and `get_bytes`. -/
def touch (r : RamTier) (now : Nat) (addr : BlockAddress) : RamTier :=
  match r.inner.lookup addr with
  | none => r
  | some slot => { r with inner := r.inner.insert addr { slot with last := now } }

def put (r : RamTier) (now : Nat) (addr : BlockAddress) (bytes : Bytes) : RamTier :=
  { r with
    inner := r.inner.insert addr { bytes, last := now }
    used := r.used + bytes.length - ((r.bytesAt addr).getD []).length }

def evict (r : RamTier) (addr : BlockAddress) : RamTier :=
  match r.inner.lookup addr with
  | none => r
  | some slot => { r with inner := r.inner.erase addr, used := r.used - slot.bytes.length }

/-- Up to `n` addresses, those with the oldest touch first. -/
def coldest (r : RamTier) (iter : List BlockAddress → List BlockAddress) (n : Nat) :
    List BlockAddress :=
  let entries := (iter r.inner.keys).map fun a =>
    (a, ((r.inner.lookup a).map RamSlot.last).getD 0)
  ((entries.mergeSort fun x y => decide (x.2 ≤ y.2)).take n).map Prod.fst

end RamTier

structure Store where
  ram : RamTier
  /-- The files under the root of the SSD tier. -/
  files : AList fun _ : String => Bytes
  index : AList fun _ : BlockAddress => BlockMeta

/-! ## SSD -/

namespace SsdTier

/-- The call that failed. -/
inductive Failure where
  | read
  | mkdir
  | writeTmp
  | rename
  | evict
  deriving DecidableEq

def pathFor (addr : BlockAddress) : String :=
  short addr.digest ++ "-" ++ toString addr.layer ++ ".kvb"

/-- `path.with_extension("kvb.tmp")`. -/
def tmpFor (addr : BlockAddress) : String :=
  short addr.digest ++ "-" ++ toString addr.layer ++ ".kvb.tmp"

/-- Await a file operation; `possible` says whether it can succeed. -/
def fileOp (possible : Store → Bool) (effect : Store → Store) : Code Env Store Bool :=
  Code.perform (fun e s => if e.ok && possible s then effect s else s)
    (fun e s => e.ok && possible s)

def rename (s : Store) (source target : String) : Store :=
  match s.files.lookup source with
  | none => s
  | some b => { s with files := (s.files.erase source).insert target b }

/-- A file that is not there reads as `ok none`. -/
def read (addr : BlockAddress) : Code Env Store (Except Failure (Option Bytes)) :=
  Code.perform (fun _ s => s)
    (fun e s => if e.ok then .ok (s.files.lookup (pathFor addr)) else .error .read)

/-- The last step of `write`. -/
def renameTmp (addr : BlockAddress) : Code Env Store (Except Failure Unit) := do
  let renamed ← fileOp (fun s => (s.files.lookup (tmpFor addr)).isSome)
    fun s => rename s (tmpFor addr) (pathFor addr)
  if renamed then pure (.ok ()) else pure (.error .rename)

/-- `write` once the directory is there. -/
def writeTmp (addr : BlockAddress) (bytes : Bytes) : Code Env Store (Except Failure Unit) := do
  let written ← fileOp (fun _ => true)
    fun s => { s with files := s.files.insert (tmpFor addr) bytes }
  if written then renameTmp addr else pure (.error .writeTmp)

/-- Atomic write: temp file + rename. -/
def write (addr : BlockAddress) (bytes : Bytes) : Code Env Store (Except Failure Unit) := do
  let made ← fileOp (fun _ => true) id
  if made then writeTmp addr bytes else pure (.error .mkdir)

/-- Removing a file that is not there succeeds. -/
def evict (addr : BlockAddress) : Code Env Store (Except Failure Unit) := do
  let removed ← fileOp (fun _ => true)
    fun s => { s with files := s.files.erase (pathFor addr) }
  if removed then pure (.ok ()) else pure (.error .evict)

end SsdTier

/-! ## Store -/

namespace Store

/-- A store over an empty SSD directory and an empty index. -/
def new (ramBytes : Nat) : Store where
  ram := RamTier.new ramBytes
  files := ∅
  index := ∅

/-- The index entry all writers build. -/
def metaOf (addr : BlockAddress) (bytes : Bytes) (model : String) (now : Nat) (tier : TierKind) :
    BlockMeta where
  model := model
  layer := addr.layer
  bytes := bytes.length
  createdUnix := now
  lastSeenUnix := now
  tier := tier

/-- `ram.put` and the index entry of a block that is now in RAM. -/
def admitRam (s : Store) (now : Nat) (addr : BlockAddress) (bytes : Bytes) (model : String) :
    Store :=
  { s with
    ram := s.ram.put now addr bytes
    index := s.index.insert addr (metaOf addr bytes model now .ram) }

/-- The handle of a block that RAM or the index knows, and the store with the touch. -/
def lookup (s : Store) (now : Nat) (addr : BlockAddress) : Option BlockHandle × Store :=
  match s.ram.handleAt now addr with
  | some h => (some h, { s with ram := s.ram.touch now addr })
  | none => ((s.index.lookup addr).map fun info => { addr, info }, s)

def lookupWithPromote (addr : BlockAddress) : Code Env Store (Option Bytes) := do
  let e ← Code.answer
  let s ← Code.get
  match s.ram.bytesAt addr with
  | some b =>
    Code.modify fun s => { s with ram := s.ram.touch e.now addr }
    pure (some b)
  | none =>
    let found ← SsdTier.read addr
    match found with
    | .ok (some b) =>
      -- promote: bring back into RAM, update tier hint
      let e ← Code.answer
      Code.modify fun s => s.admitRam e.now addr b ""
      pure (some b)
    | _ => pure none

def putRam (addr : BlockAddress) (bytes : Bytes) (model : String) : Code Env Store Unit := do
  let e ← Code.answer
  Code.modify fun s => s.admitRam e.now addr bytes model

/-- The end of `spill_to_ssd`, once the file is written. -/
def spilled (s : Store) (now : Nat) (addr : BlockAddress) (bytes : Bytes) (model : String) :
    Store :=
  { s with
    ram := s.ram.evict addr
    index := s.index.insert addr (metaOf addr bytes model now .ssd) }

/-- `spill_to_ssd` after `ssd.write`. -/
def afterWrite (addr : BlockAddress) (bytes : Bytes) (model : String) :
    Except SsdTier.Failure Unit → Code Env Store (Except SsdTier.Failure Unit)
  | .error f => pure (.error f)
  | .ok () => do
    let e ← Code.answer
    Code.modify fun s => s.spilled e.now addr bytes model
    pure (.ok ())

def spillToSsd (addr : BlockAddress) (model : String) :
    Code Env Store (Except SsdTier.Failure Unit) := do
  let e ← Code.answer
  let s ← Code.get
  match s.ram.bytesAt addr with
  | none => pure (.ok ())
  | some bytes =>
    Code.modify fun s => { s with ram := s.ram.touch e.now addr }
    let written ← SsdTier.write addr bytes
    afterWrite addr bytes model written

def forget (addr : BlockAddress) : Code Env Store (Except SsdTier.Failure Unit) := do
  Code.modify fun s => { s with ram := s.ram.evict addr }
  let removed ← SsdTier.evict addr
  match removed with
  | .error f => pure (.error f)
  | .ok () =>
    Code.modify fun s => { s with index := s.index.erase addr }
    pure (.ok ())

/-- Spill one batch of victims; a failed spill is only logged. -/
def spillVictims : List BlockAddress → Code Env Store Unit
  | [] => pure ()
  | addr :: victims => do
    let s ← Code.get
    let _ ← spillToSsd addr (((s.index.lookup addr).map BlockMeta.model).getD "")
    spillVictims victims

/-- The spill loop of `evict_pass`. A round that does not lower `used_bytes` is the last, so
    there are at most as many rounds as bytes used when the loop starts. -/
def spillRounds (target : Nat) : Nat → Code Env Store Unit
  | 0 => pure ()
  | rounds + 1 => do
    let e ← Code.answer
    let s ← Code.get
    if s.ram.used > target then
      let victims := s.ram.coldest e.iter 32
      if victims.isEmpty then pure () else
        spillVictims victims
        let s' ← Code.get
        if s'.ram.used ≥ s.ram.used then pure () else spillRounds target rounds
    else pure ()

/-- The TTL sweep over a scan of the index. -/
def sweep (ssdTtlSecs now : Nat) : List (BlockAddress × BlockMeta) → Code Env Store Unit
  | [] => pure ()
  | (addr, info) :: scanned => do
    if info.tier = .ssd ∧ now - info.lastSeenUnix > ssdTtlSecs then
      let _ ← forget addr
      sweep ssdTtlSecs now scanned
    else sweep ssdTtlSecs now scanned

/-- The entries of the index in iteration order. -/
def scan (s : Store) (iter : List BlockAddress → List BlockAddress) :
    List (BlockAddress × BlockMeta) :=
  (iter s.index.keys).filterMap fun a => (s.index.lookup a).map fun m => (a, m)

/-- The second half of `evict_pass`. -/
def expireSsd (ssdTtlSecs : Nat) : Code Env Store Unit := do
  if ssdTtlSecs = 0 then pure () else
    let e ← Code.answer
    let s ← Code.get
    sweep ssdTtlSecs e.now (s.scan e.iter)

def evictPass (target ssdTtlSecs : Nat) : Code Env Store Unit := do
  let s ← Code.get
  (if s.ram.capacity > 0 ∧ s.ram.used > target then spillRounds target s.ram.used else pure ())
  expireSsd ssdTtlSecs

theorem spillRounds_idle (target n : Nat) (e : Env) {s : Store} (hused : s.ram.used = 0) :
    spillRounds target n e s = (s, .done ()) := by
  cases n with
  | zero => rfl
  | succ n =>
    show (if s.ram.used > target then _ else pure () : Code Env Store Unit) e s = _
    rw [if_neg (by omega)]
    rfl

/-- The bound on the rounds is never what ends the loop. -/
theorem spillRounds_of_le (target : Nat) {n m : Nat} (e : Env) (s : Store) (hn : s.ram.used ≤ n)
    (hm : s.ram.used ≤ m) : spillRounds target n e s = spillRounds target m e s := by
  induction n generalizing m e s with
  | zero => rw [spillRounds_idle target 0 e (by omega), spillRounds_idle target m e (by omega)]
  | succ n ih =>
    cases m with
    | zero =>
      rw [spillRounds_idle target 0 e (by omega), spillRounds_idle target (n + 1) e (by omega)]
    | succ m =>
      -- both sides go on only in states with less RAM in use
      have hrest : (Code.get >>= fun s' : Store =>
            if s'.ram.used ≥ s.ram.used then (pure () : Code Env Store Unit)
            else spillRounds target n) =
          Code.get >>= fun s' : Store =>
            if s'.ram.used ≥ s.ram.used then pure () else spillRounds target m := by
        funext e' s'
        show (if s'.ram.used ≥ s.ram.used then pure () else spillRounds target n :
            Code Env Store Unit) e' s' =
          (if s'.ram.used ≥ s.ram.used then pure () else spillRounds target m) e' s'
        split
        · rfl
        · exact ih e' s' (by omega) (by omega)
      show (if s.ram.used > target then
          (if (s.ram.coldest e.iter 32).isEmpty then pure () else
            spillVictims (s.ram.coldest e.iter 32) >>= fun _ => Code.get >>= fun s' : Store =>
              if s'.ram.used ≥ s.ram.used then pure () else spillRounds target n)
        else pure () : Code Env Store Unit) e s = _
      rw [hrest]
      rfl

end Store

/-! ## File names -/

namespace SsdTier

theorem pathFor_eq_iff (a b : BlockAddress) :
    pathFor a = pathFor b ↔
      a.digest.toList.take 8 = b.digest.toList.take 8 ∧ a.layer = b.layer := by
  constructor
  · intro h
    have hl := congrArg String.toList h
    unfold pathFor at hl
    rw [String.toList_append, String.toList_append, String.toList_append, String.toList_append,
      String.toList_append, String.toList_append, List.append_assoc, List.append_assoc,
      List.append_assoc (short b.digest).toList, List.append_assoc (short b.digest).toList] at hl
    obtain ⟨hshort, hrest⟩ := List.append_inj hl (by rw [length_short, length_short])
    have hlayer := List.append_cancel_right (List.append_cancel_left hrest)
    refine ⟨(short_eq_iff _ _).mp (String.toList_inj.mp hshort), ?_⟩
    have hdigits : Nat.toDigits 10 a.layer.toNat = Nat.toDigits 10 b.layer.toNat := by
      have hrepr : a.layer.toNat.repr = b.layer.toNat.repr := String.toList_inj.mp hlayer
      rw [Nat.repr_eq_ofList_toDigits, Nat.repr_eq_ofList_toDigits] at hrepr
      exact String.ofList_injective hrepr
    have hnat := congrArg (fun l => Nat.ofDigitChars 10 l 0) hdigits
    rw [Nat.ofDigitChars_ten_toDigits, Nat.ofDigitChars_ten_toDigits] at hnat
    exact UInt32.toNat_inj.mp hnat
  · rintro ⟨hdigest, hlayer⟩
    unfold pathFor
    rw [(short_eq_iff _ _).mpr hdigest, hlayer]

/-- A temporary file is no block's file. -/
theorem pathFor_ne_tmpFor (a b : BlockAddress) : pathFor a ≠ tmpFor b := by
  intro h
  have hsuffix : ∀ x y : String,
      (x ++ y).toList.getLast? = y.toList.getLast?.or x.toList.getLast? := by
    intro x y
    rw [String.toList_append, List.getLast?_append]
  have hlast := congrArg (fun s : String => s.toList.getLast?) h
  unfold pathFor tmpFor at hlast
  rw [hsuffix _ ".kvb", hsuffix _ ".kvb.tmp"] at hlast
  exact absurd hlast (by simp)

end SsdTier

/-! ## What RAM holds after each operation -/

namespace RamTier

theorem bytesAt_touch (r : RamTier) (now : Nat) (addr a : BlockAddress) :
    (r.touch now addr).bytesAt a = r.bytesAt a := by
  unfold touch bytesAt
  cases h : r.inner.lookup addr with
  | none => rfl
  | some slot =>
    by_cases ha : a = addr
    · rw [ha, h]
      dsimp only
      rw [AList.lookup_insert]
      rfl
    · dsimp only
      rw [AList.lookup_insert_ne ha]

theorem bytesAt_put (r : RamTier) (now : Nat) (addr a : BlockAddress) (bytes : Bytes) :
    (r.put now addr bytes).bytesAt a = if a = addr then some bytes else r.bytesAt a := by
  unfold put bytesAt
  dsimp only
  split
  · next h => rw [h, AList.lookup_insert]; rfl
  · next h => rw [AList.lookup_insert_ne h]

theorem bytesAt_evict (r : RamTier) (addr a : BlockAddress) :
    (r.evict addr).bytesAt a = if a = addr then none else r.bytesAt a := by
  unfold evict bytesAt
  cases h : r.inner.lookup addr with
  | none =>
    dsimp only
    split
    · next ha => rw [ha, h]; rfl
    · rfl
  | some slot =>
    dsimp only
    split
    · next ha => rw [ha, AList.lookup_erase]; rfl
    · next ha => rw [AList.lookup_erase_ne ha]

theorem isSome_handleAt (r : RamTier) (now : Nat) (addr : BlockAddress) :
    (r.handleAt now addr).isSome = (r.bytesAt addr).isSome := by
  unfold handleAt bytesAt
  rw [Option.isSome_map, Option.isSome_map]

end RamTier

theorem Store.isSome_lookup (s : Store) (now : Nat) (addr : BlockAddress) :
    (s.lookup now addr).1.isSome =
      ((s.ram.bytesAt addr).isSome || (s.index.lookup addr).isSome) := by
  rw [← RamTier.isSome_handleAt s.ram now addr]
  unfold Store.lookup
  cases s.ram.handleAt now addr with
  | some h => rfl
  | none =>
    dsimp only
    rw [Option.isSome_map]
    rfl

end Cognitora.KvCached
