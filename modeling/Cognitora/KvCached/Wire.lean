/-
  Frames as bytes (cgn-kvcached `src/transport.rs`: `read_frame`, `write_frame` and the exchanges
  built on them; cgn-kv `src/transport.rs`).

  A frame is sent as the length of its encoding, four bytes big endian, and the encoding, which is
  bincode's and here a parameter (`FrameCodec`). `read_frame_iff`: the reader takes exactly the
  streams that begin with the length of a payload of at most 16 KiB and the payload, if bincode
  decodes that. `wire_refines_frames`: pulls and pushes over bytes do what those over frames do,
  if bincode reads back the frames that are sent.

  A stream holds the bytes that arrive before its end. A daemon that fails on a stream closes the
  connection, and the peer finds no bytes to read.
-/
import Cognitora.KvCached.Transfer
import Cognitora.Lib.Bytes

namespace Cognitora.KvCached

open Cognitora.Lib Cognitora.Core

/-! ## Frames in a stream -/

/-- bincode at `Frame`. -/
structure FrameCodec where
  serialize : Frame → Bytes
  /-- Bytes after the value are ignored. -/
  deserialize : Bytes → Option Frame

/-- The longest encoding a reader takes. -/
def maxFrameBytes : Nat :=
  16 * 1024

/-- The round trip: the encoding of the frame is not too long and is read back. -/
structure FrameCodec.RoundTrips (bincode : FrameCodec) (f : Frame) : Prop where
  length : (bincode.serialize f).length ≤ maxFrameBytes
  deserialize : bincode.deserialize (bincode.serialize f) = some f

section

variable (bincode : FrameCodec)

def writeFrame (f : Frame) : Bytes :=
  bigEndian 4 (bincode.serialize f).length ++ bincode.serialize f

/-- The frame at the beginning of a stream, and the rest of the stream. -/
def readFrame (stream : Bytes) : Except Error (Frame × Bytes) :=
  match next 4 stream with
  | none => .error (.internal "read hdr")
  | some (hdr, stream) =>
    if ofBigEndian hdr > maxFrameBytes then
      .error (.invalidArgument ("frame header too big: " ++ toString (ofBigEndian hdr)))
    else
      match next (ofBigEndian hdr) stream with
      | none => .error (.internal "read frame")
      | some (payload, stream) =>
        match bincode.deserialize payload with
        | none => .error (.invalidArgument "decode frame")
        | some frame => .ok (frame, stream)

end

/-- A reader takes exactly the streams that begin with a payload that decodes to the frame, under
its length, which is at most 16 KiB. -/
theorem read_frame_iff (bincode : FrameCodec) (stream rest : Bytes) (f : Frame) :
    readFrame bincode stream = .ok (f, rest) ↔
      ∃ payload, stream = bigEndian 4 payload.length ++ (payload ++ rest) ∧
        payload.length ≤ maxFrameBytes ∧ bincode.deserialize payload = some f := by
  unfold readFrame
  constructor
  · intro h
    split at h
    · exact nomatch h
    · next hdr stream' hhdr =>
      obtain ⟨rfl, hlen⟩ := next_eq_some.mp hhdr
      split at h
      · exact nomatch h
      · next hmax =>
        split at h
        · exact nomatch h
        · next payload stream' hpayload =>
          obtain ⟨rfl, hlen'⟩ := next_eq_some.mp hpayload
          split at h
          · exact nomatch h
          · next frame hdecode =>
            cases h
            refine ⟨payload, ?_, hlen' ▸ Nat.le_of_not_gt hmax, hdecode⟩
            rw [hlen', ← hlen, bigEndian_ofBigEndian]
  · rintro ⟨payload, rfl, hmax, hdecode⟩
    have hlen : ofBigEndian (bigEndian 4 payload.length) = payload.length :=
      ofBigEndian_bigEndian (Nat.lt_of_le_of_lt hmax (by decide))
    rw [next_append (length_bigEndian _ _)]
    dsimp only
    rw [hlen, if_neg (Nat.not_lt.mpr hmax), next_append rfl]
    dsimp only
    rw [hdecode]

variable {bincode : FrameCodec}

/-- What is written is read back. -/
theorem readFrame_writeFrame {f : Frame} (h : bincode.RoundTrips f) (rest : Bytes) :
    readFrame bincode (writeFrame bincode f ++ rest) = .ok (f, rest) := by
  have hlen : ofBigEndian (bigEndian 4 (bincode.serialize f).length) =
      (bincode.serialize f).length :=
    ofBigEndian_bigEndian (Nat.lt_of_le_of_lt h.length (by decide))
  unfold readFrame writeFrame
  rw [List.append_assoc, next_append (length_bigEndian _ _)]
  dsimp only
  rw [hlen, if_neg (Nat.not_lt.mpr h.length), next_append rfl]
  dsimp only
  rw [h.deserialize]

/-! ## Exchanges -/

section

variable (bincode : FrameCodec)

/-- One stream of `handle_connection`: the bytes received, the bytes sent back and the store. -/
def serveStream (s : Store) (now : Nat) (stream : Bytes) : Except Error Bytes × Store :=
  match readFrame bincode stream with
  | .error e => (.error e, s)
  | .ok (frame, rest) =>
    match handleStream s now frame rest with
    | (.error e, s') => (.error e, s')
    | (.ok none, s') => (.ok [], s')
    | (.ok (some (resp, body)), s') => (.ok (writeFrame bincode resp ++ body), s')

/-- The bytes a client finds on the stream. -/
def received : Except Error Bytes → Bytes
  | .error _ => []
  | .ok out => out

/-- `peer_pull` over bytes. -/
def peerPullWire (peer : Store) (now : Nat) (addr : BlockAddress) : Except Error Bytes × Store :=
  let (reply, peer') := serveStream bincode peer now (writeFrame bincode ⟨.pull, addr, 0⟩)
  match readFrame bincode (received reply) with
  | .error e => (.error e, peer')
  | .ok (resp, rest) =>
    if resp.bodyLen > maxBlockBytes then
      (.error (.invalidArgument ("peer pulled too much: " ++ toString resp.bodyLen ++ " bytes")),
        peer')
    else
      match readExact rest resp.bodyLen with
      | none => (.error (.internal "read body"), peer')
      | some bytes => (.ok bytes, peer')

/-- `peer_push` over bytes. -/
def peerPushWire (peer : Store) (now : Nat) (addr : BlockAddress) (bytes : Bytes) :
    Except Error Unit × Store :=
  let (reply, peer') :=
    serveStream bincode peer now (writeFrame bincode ⟨.push, addr, bytes.length⟩ ++ bytes)
  match readFrame bincode (received reply) with
  | .error e => (.error e, peer')
  | .ok _ => (.ok (), peer')

end

theorem serveStream_writeFrame (s : Store) (now : Nat) {f : Frame} (h : bincode.RoundTrips f)
    (body : Bytes) :
    serveStream bincode s now (writeFrame bincode f ++ body) =
      ((handleStream s now f body).1.map fun reply =>
          reply.elim [] fun r => writeFrame bincode r.1 ++ r.2,
        (handleStream s now f body).2) := by
  rw [serveStream, readFrame_writeFrame h]
  dsimp only
  split
  · next h => rw [h]; rfl
  · next h => rw [h]; rfl
  · next h => rw [h]; rfl

/-- The block a daemon sends for a pull; a miss is an empty one. -/
def pulled (peer : Store) (addr : BlockAddress) : Bytes :=
  (peer.ram.bytesAt addr).getD []

theorem peerPullWire_eq {peer : Store} {now : Nat} {addr : BlockAddress}
    (hpull : bincode.RoundTrips ⟨.pull, addr, 0⟩)
    (hreply : bincode.RoundTrips ⟨.push, addr, (pulled peer addr).length⟩) :
    peerPullWire bincode peer now addr = peerPull peer now addr := by
  have hserve := serveStream_writeFrame peer now hpull []
  rw [List.append_nil] at hserve
  rw [peerPullWire, hserve]
  unfold peerPull handleStream
  dsimp only [Except.map, Option.elim, received]
  rw [pulled] at hreply
  rewrite [readFrame_writeFrame hreply]
  rfl

theorem peerPushWire_eq {peer : Store} {now : Nat} {addr : BlockAddress} {bytes : Bytes}
    (hpush : bincode.RoundTrips ⟨.push, addr, bytes.length⟩)
    (hack : bincode.RoundTrips ⟨.ack, addr, 0⟩) :
    peerPushWire bincode peer now addr bytes = peerPush peer now addr bytes := by
  rw [peerPushWire, serveStream_writeFrame peer now hpush]
  by_cases hmax : bytes.length ≤ maxBlockBytes
  · rw [peerPush_of_le hmax]
    unfold handleStream
    dsimp only
    rw [if_neg (by omega), readExact_self]
    dsimp only [Except.map, Option.elim, received]
    rw [readFrame_writeFrame hack []]
  · rw [peerPush_of_gt (by omega)]
    unfold handleStream
    dsimp only
    rw [if_pos (by omega)]
    rfl

/-- The frames of a pull and of a push: the requests and the replies. -/
def framesOf (peer : Store) (addr : BlockAddress) (bytes : Bytes) : List Frame :=
  [⟨.pull, addr, 0⟩, ⟨.push, addr, (pulled peer addr).length⟩, ⟨.push, addr, bytes.length⟩,
    ⟨.ack, addr, 0⟩]

/-- Over bytes, a pull and a push do what they do over frames. -/
theorem wire_refines_frames (bincode : FrameCodec) (peer : Store) (now : Nat)
    (addr : BlockAddress) (bytes : Bytes)
    (hframes : ∀ f ∈ framesOf peer addr bytes, bincode.RoundTrips f) :
    peerPullWire bincode peer now addr = peerPull peer now addr ∧
      peerPushWire bincode peer now addr bytes = peerPush peer now addr bytes := by
  simp only [framesOf, List.forall_mem_cons] at hframes
  obtain ⟨hpull, hreply, hpush, hack, _⟩ := hframes
  exact ⟨peerPullWire_eq hpull hreply, peerPushWire_eq hpush hack⟩

/-- The encoding of a frame for the block of 32 zero bytes and layer 0: the variant, the address
and the length, with the integers little endian. -/
def zeroBlockFrame (variant bodyLen : UInt8) : Bytes :=
  [variant, 0, 0, 0] ++ List.replicate 36 0 ++ [bodyLen, 0, 0, 0, 0, 0, 0, 0]

/-- bincode at the frames of a pull of two bytes and a push of one. -/
def zeroBlockCodec : FrameCodec where
  serialize f :=
    match f.op with
    | .pull => zeroBlockFrame 0 0
    | .push => zeroBlockFrame 1 (UInt8.ofNat f.bodyLen)
    | .ack => zeroBlockFrame 2 0
  deserialize payload :=
    if payload = zeroBlockFrame 0 0 then some ⟨.pull, layerZero zeroDigest, 0⟩
    else if payload = zeroBlockFrame 1 2 then some ⟨.push, layerZero zeroDigest, 2⟩
    else if payload = zeroBlockFrame 1 1 then some ⟨.push, layerZero zeroDigest, 1⟩
    else if payload = zeroBlockFrame 2 0 then some ⟨.ack, layerZero zeroDigest, 0⟩
    else none

/-- A peer that holds two bytes under that address. -/
def holder : Store :=
  (Store.new 100).admitRam 0 (layerZero zeroDigest) [7, 8] ""

/-- The two bytes are pulled, and another is pushed in their place. -/
theorem wire_refines_frames_of_holder :
    (∀ f ∈ framesOf holder (layerZero zeroDigest) [9], zeroBlockCodec.RoundTrips f) ∧
      (peerPull holder 1 (layerZero zeroDigest)).1.toOption = some [7, 8] ∧
      peerPullWire zeroBlockCodec holder 1 (layerZero zeroDigest) =
        peerPull holder 1 (layerZero zeroDigest) ∧
      peerPushWire zeroBlockCodec holder 1 (layerZero zeroDigest) [9] =
        peerPush holder 1 (layerZero zeroDigest) [9] := by
  have hframes : ∀ f ∈ framesOf holder (layerZero zeroDigest) [9],
      zeroBlockCodec.RoundTrips f := by
    have hpulled : (pulled holder (layerZero zeroDigest)).length = 2 := by decide
    simp only [framesOf, hpulled, List.forall_mem_cons]
    exact ⟨⟨by decide, rfl⟩, ⟨by decide, rfl⟩, ⟨by decide, rfl⟩, ⟨by decide, rfl⟩, nofun⟩
  exact ⟨hframes, by decide, wire_refines_frames zeroBlockCodec holder 1 _ [9] hframes⟩

end Cognitora.KvCached
