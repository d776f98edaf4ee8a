/-
  The prefix index (cgn-core `src/prefix.rs`): which nodes claim which chunk digest.

  `lookup_longestPrefixOverlap`: the walk of `longest_prefix_overlap` gives each node the
  number of leading digests that `lookup` finds it under.

  An `Instant` is a number and `duration_since` the truncated difference; the clock reading
  of an operation is its argument `now`. A `HashSet` is the list of its members. Not
  modelled: `is_empty`.
-/
import Cognitora.Core.Hash
import Cognitora.Lib.Dict

namespace Cognitora.Core

open Cognitora.Lib

/-- Per-node entry stored under each prefix. -/
structure NodeEntry where
  nodeId : String
  lastSeen : Nat

structure PrefixIndex where
  inner : AList fun _ : Digest => List NodeEntry
  ttl : Nat

namespace PrefixIndex

def new (ttl : Nat) : PrefixIndex where
  inner := ∅
  ttl := ttl

/-- The first entry of the node gets the new time; without one, an entry is pushed. -/
def touch (now : Nat) (nodeId : String) : List NodeEntry → List NodeEntry
  | [] => [{ nodeId, lastSeen := now }]
  | e :: v => if e.nodeId = nodeId then { e with lastSeen := now } :: v else e :: touch now nodeId v

def insert (ix : PrefixIndex) (now : Nat) (digest : Digest) (nodeId : String) : PrefixIndex :=
  { ix with
    inner := ix.inner.insert digest (touch now nodeId ((ix.inner.lookup digest).getD [])) }

/-- Keep the entries of a digest that `keep` accepts; without any, the digest goes. -/
def retain (keep : NodeEntry → Bool) (v : List NodeEntry) : Option (List NodeEntry) :=
  if (v.filter keep).isEmpty then none else some (v.filter keep)

def forgetClaim (ix : PrefixIndex) (digest : Digest) (nodeId : String) : PrefixIndex :=
  { ix with
    inner :=
      match ix.inner.lookup digest with
      | none => ix.inner
      | some v =>
        match retain (fun n => n.nodeId != nodeId) v with
        | none => ix.inner.erase digest
        | some v => ix.inner.insert digest v }

def forgetNode (ix : PrefixIndex) (nodeId : String) : PrefixIndex :=
  { ix with inner := updateAll (retain fun n => n.nodeId != nodeId) ix.inner }

def forgetNodeStale (ix : PrefixIndex) (now : Nat) (nodeId : String) (olderThan : Nat) :
    PrefixIndex :=
  { ix with
    inner := updateAll
      (retain fun n => n.nodeId != nodeId || decide (now - n.lastSeen < olderThan)) ix.inner }

def gc (ix : PrefixIndex) (now : Nat) : PrefixIndex :=
  { ix with inner := updateAll (retain fun n => decide (now - n.lastSeen < ix.ttl)) ix.inner }

/-- The live nodes that currently hold `digest`. -/
def lookup (ix : PrefixIndex) (now : Nat) (digest : Digest) : List String :=
  match ix.inner.lookup digest with
  | none => []
  | some v => (v.filter fun n => decide (now - n.lastSeen < ix.ttl)).map NodeEntry.nodeId

/-- For every node, how many of `digests` it holds, wherever they stand. -/
def overlap (ix : PrefixIndex) (now : Nat) (digests : List Digest) :
    AList fun _ : String => Nat :=
  digests.foldl (fun out d => (ix.lookup now d).foldl bump out) ∅

/-- Walk forward from digest number `i`, intersecting `active` with the holders. -/
def walk (ix : PrefixIndex) (now : Nat) :
    Nat → List String → (AList fun _ : String => Nat) → List Digest → AList fun _ : String => Nat
  | _, _, out, [] => out
  | i, active, out, d :: ds =>
    if active.isEmpty then out else
      let active := active.filter fun n => (ix.lookup now d).contains n
      ix.walk now (i + 1) active (active.foldl (fun out n => out.insert n (i + 1)) out) ds

def longestPrefixOverlap (ix : PrefixIndex) (now : Nat) (digests : List Digest) :
    AList fun _ : String => Nat :=
  match digests with
  | [] => ∅
  | d :: ds =>
    match ix.inner.lookup d with
    | none => ∅
    | some _ =>
      let active := ix.lookup now d
      ix.walk now 1 active (active.foldl (fun out n => out.insert n 1) ∅) ds

/-- Total tracked digests. -/
def len (ix : PrefixIndex) : Nat :=
  ix.inner.entries.length

/-! ## The walk -/

/-- How many leading digests `lookup` finds the node under. -/
def leading (ix : PrefixIndex) (now : Nat) (n : String) (digests : List Digest) : Nat :=
  (digests.takeWhile fun d => (ix.lookup now d).contains n).length

theorem leading_cons (ix : PrefixIndex) (now : Nat) (n : String) (d : Digest) (ds : List Digest) :
    ix.leading now n (d :: ds) = if n ∈ ix.lookup now d then ix.leading now n ds + 1 else 0 := by
  unfold leading
  rw [List.takeWhile_cons]
  by_cases hd : n ∈ ix.lookup now d
  · rw [if_pos (List.contains_iff_mem.mpr hd), if_pos hd, List.length_cons]
  · rw [if_neg fun hc => hd (List.contains_iff_mem.mp hc), if_neg hd, List.length_nil]

/-- A node's entry after the walk: it grows with each digest the node is found under, and
    stays once the node has dropped out. -/
theorem lookup_walk (ix : PrefixIndex) (now i : Nat) (active : List String)
    (out : AList fun _ : String => Nat) (ds : List Digest) (n : String) :
    (ix.walk now i active out ds).lookup n =
      if n ∈ active ∧ ix.leading now n ds ≠ 0 then some (i + ix.leading now n ds)
      else out.lookup n := by
  induction ds generalizing i active out with
  | nil => simp [walk, leading]
  | cons d ds ih =>
    unfold walk
    split
    · next h =>
      rw [List.isEmpty_iff.mp h]
      simp
    · dsimp only
      have hmem : (n ∈ active.filter fun n => (ix.lookup now d).contains n) ↔
          n ∈ active ∧ n ∈ ix.lookup now d := by
        rw [List.mem_filter, List.contains_iff_mem]
      rw [ih, Lib.lookup_foldl_insert, leading_cons]
      simp only [hmem]
      by_cases hn : n ∈ active ∧ n ∈ ix.lookup now d
      · by_cases hz : ix.leading now n ds = 0
        · simp [hn, hz]
        · simp only [hn, hz, and_self, ne_eq, not_false_eq_true, if_true, Nat.add_one_ne_zero]
          congr 1
          omega
      · by_cases ha : n ∈ active
        · simp [show n ∉ ix.lookup now d from fun hd => hn ⟨ha, hd⟩]
        · simp [ha]

/-- Each node is mapped to the number of leading digests it is found under. -/
theorem lookup_longestPrefixOverlap (ix : PrefixIndex) (now : Nat) (digests : List Digest)
    (n : String) :
    (ix.longestPrefixOverlap now digests).lookup n =
      if ix.leading now n digests = 0 then none else some (ix.leading now n digests) := by
  cases digests with
  | nil => rfl
  | cons d ds =>
    unfold longestPrefixOverlap
    dsimp only
    rw [leading_cons]
    split
    · next h =>
      have hnil : ix.lookup now d = [] := by
        unfold lookup
        rw [h]
      rw [hnil]
      rfl
    · rw [lookup_walk, Lib.lookup_foldl_insert]
      by_cases hd : n ∈ ix.lookup now d
      · by_cases hz : ix.leading now n ds = 0
        · simp [hd, hz]
        · simp only [hd, hz, ne_eq, not_false_eq_true, and_self, if_true, Nat.add_one_ne_zero,
            if_false]
          congr 1
          omega
      · simp [hd]

end PrefixIndex

end Cognitora.Core
