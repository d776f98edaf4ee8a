/-
  Prompt flattening and approximate tokenisation (cgn-router `src/routing/prompt.rs`).

  `join_messages` ends every message with a newline. The tokeniser keeps a partial piece and
  its length across characters, and a newline closes the piece, so between two messages it is
  in its first state (`scan_joinMessages`). Hence the tokens of a conversation are a prefix of
  those of every continuation, and the digests of its full chunks stay where they are
  (`follow_up_keeps_digests`).

  BLAKE3 is the parameter `hash`, the JSON parser the parameter `r`. Texts that are built are
  lists of characters.
-/
import Cognitora.Auth.KeyFile
import Cognitora.Router.Render

namespace Cognitora.Router

open Cognitora.Core Cognitora.Lib
open Cognitora.Auth (isWhitespace)

/-- `PMessage`. -/
structure PMessage where
  role : String
  content : String
  contentJson : String

section

variable (hash : List UInt8 → Digest) (r : JsonReader)

/-! ## Joining messages -/

/-- What one part of a multimodal content adds. -/
def joinPart (p : Json) : List Char :=
  match (p.get "text").bind Json.asStr with
  | some t => t.toList ++ ['\n']
  | none =>
    match (p.get "image_url").bind (·.get "url") with
    | some url =>
      "<image:".toList ++ encodeHex (hash (utf8 (url.asStr.getD "").toList)).toList ++ ">\n".toList
    | none => []

/-- What the content of a message adds. -/
def joinContent (m : PMessage) : List Char :=
  if !m.contentJson.isEmpty then
    match (r.fromStr m.contentJson).bind Json.asArray with
    | some parts => parts.flatMap (joinPart hash)
    | none => []
  else m.content.toList

def joinMessage (m : PMessage) : List Char :=
  ['<'] ++ m.role.toList ++ ">\n".toList ++ joinContent hash r m ++ ['\n']

def joinMessages (msgs : List PMessage) : List Char :=
  msgs.flatMap (joinMessage hash r)

/-! ## Tokens -/

def charsPerToken : Nat := 4

/-- Scripts where one character is about one token. -/
def isCjk (c : Char) : Bool :=
  let n := c.toNat
  (0x3040 ≤ n && n ≤ 0x30ff) || (0x3400 ≤ n && n ≤ 0x4dbf) || (0x4e00 ≤ n && n ≤ 0x9fff) ||
    (0xac00 ≤ n && n ≤ 0xd7af) || (0xf900 ≤ n && n ≤ 0xfaff) || (0x20000 ≤ n && n ≤ 0x2ffff)

/-- `u32::from_le_bytes` of the first four bytes of the piece's hash. -/
def pieceToken (piece : List Char) : UInt32 :=
  let b := hash (utf8 piece)
  b[0].toUInt32 ||| (b[1].toUInt32 <<< 8) ||| (b[2].toUInt32 <<< 16) ||| (b[3].toUInt32 <<< 24)

/-- The variables of the loop of `approximate_token_ids`. -/
@[ext]
structure Scan where
  out : List UInt32
  piece : List Char
  chars : Nat

namespace Scan

def new : Scan where
  out := []
  piece := []
  chars := 0

/-- `emit`, `piece.clear()` and `chars = 0`. -/
def emit (s : Scan) : Scan where
  out := s.out ++ [pieceToken hash s.piece]
  piece := []
  chars := 0

/-- Close the piece before a character that does not belong to it. -/
def cut (s : Scan) (c : Char) : Scan :=
  if isWhitespace c || isCjk c || s.chars == charsPerToken then
    if s.piece.isEmpty then s else s.emit hash
  else s

/-- Add a character to the piece; a CJK character is a piece of its own. -/
def push (s : Scan) (c : Char) : Scan :=
  let s := { s with piece := s.piece ++ [c], chars := s.chars + 1 }
  if isCjk c then s.emit hash else s

/-- One character. -/
def step (s : Scan) (c : Char) : Scan :=
  let s := s.cut hash c
  if isWhitespace c then s else s.push hash c

/-- The tokens once the text has ended. -/
def finish (s : Scan) : List UInt32 :=
  if s.piece.isEmpty then s.out else (s.emit hash).out

end Scan

def approximateTokenIds (text : List Char) : List UInt32 :=
  (text.foldl (Scan.step hash) Scan.new).finish hash

end

/-! ## The state between messages -/

namespace Scan

variable {hash : List UInt8 → Digest}

/-- The same scan after the tokens `out`. -/
def after (out : List UInt32) (s : Scan) : Scan :=
  { s with out := out ++ s.out }

theorem emit_after (out : List UInt32) (s : Scan) :
    (s.after out).emit hash = (s.emit hash).after out := by
  unfold emit after
  rw [List.append_assoc]

theorem cut_after (out : List UInt32) (s : Scan) (c : Char) :
    (s.after out).cut hash c = (s.cut hash c).after out := by
  unfold cut
  rw [emit_after]
  show (if isWhitespace c || isCjk c || s.chars == charsPerToken then
    if s.piece.isEmpty then _ else _ else _) = _
  split
  · split <;> rfl
  · rfl

theorem push_after (out : List UInt32) (s : Scan) (c : Char) :
    (s.after out).push hash c = (s.push hash c).after out := by
  unfold push
  dsimp only
  split
  · exact emit_after out { s with piece := s.piece ++ [c], chars := s.chars + 1 }
  · rfl

/-- Tokens already emitted play no part. -/
theorem step_after (out : List UInt32) (s : Scan) (c : Char) :
    (s.after out).step hash c = (s.step hash c).after out := by
  unfold step
  dsimp only
  rw [cut_after, push_after]
  split <;> rfl

theorem foldl_after (out : List UInt32) (text : List Char) (s : Scan) :
    text.foldl (step hash) (s.after out) = (text.foldl (step hash) s).after out := by
  induction text generalizing s with
  | nil => rfl
  | cons c text ih => rw [List.foldl_cons, List.foldl_cons, step_after, ih]

theorem finish_after (out : List UInt32) (s : Scan) :
    (s.after out).finish hash = out ++ s.finish hash := by
  unfold finish
  rw [emit_after]
  show (if s.piece.isEmpty then _ else _) = _
  split <;> rfl

/-- The counter is the length of the piece. -/
theorem chars_step {s : Scan} (h : s.chars = s.piece.length) (c : Char) :
    (s.step hash c).chars = (s.step hash c).piece.length := by
  have hcut : (s.cut hash c).chars = (s.cut hash c).piece.length := by
    unfold cut
    split
    · split
      · exact h
      · rfl
    · exact h
  unfold step
  dsimp only
  split
  · exact hcut
  · unfold push
    dsimp only
    split
    · rfl
    · rw [List.length_append, hcut]
      rfl

theorem chars_foldl (text : List Char) {s : Scan} (h : s.chars = s.piece.length) :
    (text.foldl (step hash) s).chars = (text.foldl (step hash) s).piece.length := by
  induction text generalizing s with
  | nil => exact h
  | cons c text ih => exact ih (chars_step h c)

/-- White space closes the piece. -/
theorem step_whitespace {s : Scan} (h : s.chars = s.piece.length) {c : Char}
    (hc : isWhitespace c = true) : ∃ out, s.step hash c = new.after out := by
  refine ⟨(s.step hash c).out, ?_⟩
  have hclosed : (s.step hash c).piece = [] ∧ (s.step hash c).chars = 0 := by
    unfold step cut
    rw [hc, Bool.true_or, Bool.true_or, if_pos rfl, if_pos rfl]
    split
    · next hp =>
      have hpiece := List.isEmpty_iff.mp hp
      rw [hpiece] at h
      exact ⟨hpiece, h⟩
    · exact ⟨rfl, rfl⟩
  exact Scan.ext (List.append_nil _).symm hclosed.1 hclosed.2

end Scan

section

variable (hash : List UInt8 → Digest) (r : JsonReader)

/-- A message ends with a newline, so the tokeniser has no piece open after it. -/
theorem scan_joinMessage (m : PMessage) :
    ∃ out, (joinMessage hash r m).foldl (Scan.step hash) Scan.new = Scan.new.after out := by
  unfold joinMessage
  rw [List.foldl_append]
  exact Scan.step_whitespace (@Scan.chars_foldl hash _ Scan.new rfl) (c := '\n') (by decide)

theorem scan_joinMessages (msgs : List PMessage) :
    ∃ out, (joinMessages hash r msgs).foldl (Scan.step hash) Scan.new = Scan.new.after out := by
  induction msgs with
  | nil => exact ⟨[], rfl⟩
  | cons m msgs ih =>
    obtain ⟨out, hout⟩ := scan_joinMessage hash r m
    obtain ⟨rest, hrest⟩ := ih
    refine ⟨out ++ rest, ?_⟩
    rw [joinMessages, List.flatMap_cons, List.foldl_append, hout, Scan.foldl_after, ← joinMessages,
      hrest]
    simp [Scan.after, Scan.new]

/-- The tokens of a conversation and its continuation. -/
theorem approximateTokenIds_joinMessages_append (m m2 : List PMessage) :
    approximateTokenIds hash (joinMessages hash r (m ++ m2)) =
      approximateTokenIds hash (joinMessages hash r m) ++
        approximateTokenIds hash (joinMessages hash r m2) := by
  obtain ⟨out, hout⟩ := scan_joinMessages hash r m
  have hfirst : approximateTokenIds hash (joinMessages hash r m) = out := by
    rw [approximateTokenIds, hout]
    exact List.append_nil out
  rw [hfirst, approximateTokenIds, joinMessages, List.flatMap_append, List.foldl_append,
    ← joinMessages, hout, Scan.foldl_after, Scan.finish_after]
  rfl

/-- The tokens of a conversation are a prefix of those of its continuation, and each digest of
    one of its full chunks is found at the same position. -/
theorem follow_up_keeps_digests (m m2 : List PMessage) :
    approximateTokenIds hash (joinMessages hash r m) <+:
        approximateTokenIds hash (joinMessages hash r (m ++ m2)) ∧
      ∀ (salt : String) (i : Nat),
        (i + 1) * tokensPerChunk ≤ (approximateTokenIds hash (joinMessages hash r m)).length →
        ∃ d, (hashSeqChunks hash salt (approximateTokenIds hash (joinMessages hash r m)))[i]? =
              some d ∧
            (hashSeqChunks hash salt
              (approximateTokenIds hash (joinMessages hash r (m ++ m2))))[i]? = some d := by
  rw [approximateTokenIds_joinMessages_append]
  exact ⟨List.prefix_append _ _, fun salt i hi => hashSeqChunks_append_getElem? _ hi⟩

end

end Cognitora.Router
