/-
  `KvPool` (cgn-infer `src/kv/mod.rs`): paged KV accounting of the scheduler.

  Blocks of `blockTokens` positions are taken from a fixed budget, `held` records how many
  each sequence id holds. The counters are `usize` in the source. They are `Nat` here,
  and the two subtractions (`free_blocks`, `release`) record in `underflow` when the
  unsigned one would have wrapped or panicked.

  `KvPool.Wf`: the counter is the sum of `held`, the sum fits the budget, and no
  subtraction underflowed. `reserve` and `release` keep it.
-/
import Cognitora.Lib.MapSum
import Mathlib.Tactic.Common

namespace Cognitora.Infer

open Cognitora.Lib

/-- Tokens per KV block. -/
def blockTokens : Nat := 16

/-- Paged KV block accounting. `held` maps a sequence id to the blocks it holds. -/
structure KvPool where
  totalBlocks : Nat
  usedBlocks : Nat
  held : AList fun _ : Nat => Nat
  underflow : Bool := false

namespace KvPool

def new (totalBlocks : Nat) : KvPool where
  totalBlocks := totalBlocks
  usedBlocks := 0
  held := ∅

/-- Blocks needed to hold `tokens` positions (`div_ceil`). -/
def blocksFor (tokens : Nat) : Nat :=
  (tokens + (blockTokens - 1)) / blockTokens

def freeBlocks (p : KvPool) : Nat :=
  p.totalBlocks - p.usedBlocks

/-- Blocks currently held by `seq`. -/
def heldBy (p : KvPool) (seq : Nat) : Nat :=
  (p.held.lookup seq).getD 0

/-- Grow (or create) `seq`'s reservation so that it covers `tokens` positions. -/
def reserve (p : KvPool) (seq tokens : Nat) : Bool × KvPool :=
  let want := blocksFor tokens
  let cur := p.heldBy seq
  if want ≤ cur then (true, p)
  else
    let extra := want - cur
    -- `free_blocks` is only evaluated on this path
    let p := { p with underflow := p.underflow || decide (p.totalBlocks < p.usedBlocks) }
    if extra > p.freeBlocks then (false, p)
    else (true, { p with usedBlocks := p.usedBlocks + extra, held := p.held.insert seq want })

/-- Release everything held by `seq`. -/
def release (p : KvPool) (seq : Nat) : KvPool :=
  match p.held.lookup seq with
  | none => p
  | some blocks =>
    { p with
      usedBlocks := p.usedBlocks - blocks
      held := p.held.erase seq
      underflow := p.underflow || decide (p.usedBlocks < blocks) }

/-! ## Well-formed pools -/

/-- The counter is the sum of the reservations and fits the budget, and no subtraction
    so far underflowed. -/
structure Wf (p : KvPool) : Prop where
  used_eq : p.usedBlocks = mapSum p.held
  used_le : p.usedBlocks ≤ p.totalBlocks
  no_underflow : p.underflow = false

theorem new_wf (n : Nat) : (new n).Wf where
  used_eq := mapSum_empty.symm
  used_le := Nat.zero_le n
  no_underflow := rfl

theorem le_blockTokens_mul_blocksFor (n : Nat) : n ≤ blockTokens * blocksFor n := by
  unfold blocksFor blockTokens
  omega

theorem blocksFor_succ_pos (n : Nat) : 0 < blocksFor (n + 1) := by
  unfold blocksFor blockTokens
  omega

/-- What `reserve` does on a well-formed pool: nothing when it answers `false`; otherwise
    `seq` covers the request, no other id changes, and no id loses blocks. -/
theorem reserve_cases {p : KvPool} (hp : p.Wf) (seq tokens : Nat) :
    (p.reserve seq tokens = (false, p) ∧ p.freeBlocks < blocksFor tokens - p.heldBy seq) ∨
    (p.reserve seq tokens = (true, p) ∧ blocksFor tokens ≤ p.heldBy seq) ∨
    (p.heldBy seq < blocksFor tokens ∧ blocksFor tokens - p.heldBy seq ≤ p.freeBlocks ∧
      p.reserve seq tokens = (true, { p with
        usedBlocks := p.usedBlocks + (blocksFor tokens - p.heldBy seq)
        held := p.held.insert seq (blocksFor tokens) })) := by
  have hflag : (p.underflow || decide (p.totalBlocks < p.usedBlocks)) = p.underflow := by
    rw [decide_eq_false (Nat.not_lt.mpr hp.used_le), Bool.or_false]
  unfold reserve
  dsimp only
  rw [hflag]
  by_cases hle : blocksFor tokens ≤ p.heldBy seq
  · exact Or.inr (Or.inl ⟨if_pos hle, hle⟩)
  · rw [if_neg hle]
    by_cases hfree : blocksFor tokens - p.heldBy seq > p.freeBlocks
    · exact Or.inl ⟨if_pos hfree, hfree⟩
    · exact Or.inr (Or.inr ⟨by omega, by omega, if_neg hfree⟩)

theorem heldBy_insert (p : KvPool) (used seq n id : Nat) :
    { p with usedBlocks := used, held := p.held.insert seq n }.heldBy id =
      if id = seq then n else p.heldBy id := by
  unfold heldBy
  split
  · next h => rw [h, AList.lookup_insert, Option.getD_some]
  · next h => rw [AList.lookup_insert_ne h]

theorem reserve_wf {p : KvPool} (hp : p.Wf) (seq tokens : Nat) : (p.reserve seq tokens).2.Wf := by
  rcases reserve_cases hp seq tokens with ⟨h, _⟩ | ⟨h, _⟩ | ⟨hlt, hfree, h⟩
  · rw [h]; exact hp
  · rw [h]; exact hp
  · rw [h]
    have hs := mapSum_insert p.held seq (blocksFor tokens)
    have hu := hp.used_eq
    have hl := hp.used_le
    unfold heldBy at hlt hfree ⊢
    unfold freeBlocks at hfree
    exact ⟨by dsimp only; omega, by dsimp only; omega, hp.no_underflow⟩

@[simp] theorem reserve_totalBlocks (p : KvPool) (seq tokens : Nat) :
    (p.reserve seq tokens).2.totalBlocks = p.totalBlocks := by
  unfold reserve
  dsimp only
  split
  · rfl
  · split <;> rfl

/-- A granted reservation covers the request. -/
theorem reserve_covers {p : KvPool} (hp : p.Wf) {seq tokens : Nat}
    (h : (p.reserve seq tokens).1 = true) :
    blocksFor tokens ≤ (p.reserve seq tokens).2.heldBy seq := by
  rcases reserve_cases hp seq tokens with ⟨e, _⟩ | ⟨e, hle⟩ | ⟨_, _, e⟩
  · rw [e] at h; exact absurd h Bool.false_ne_true
  · rw [e]; exact hle
  · rw [e, heldBy_insert, if_pos rfl]

theorem heldBy_le_reserve {p : KvPool} (hp : p.Wf) (seq tokens id : Nat) :
    p.heldBy id ≤ (p.reserve seq tokens).2.heldBy id := by
  rcases reserve_cases hp seq tokens with ⟨e, _⟩ | ⟨e, _⟩ | ⟨hlt, _, e⟩
  · rw [e]
  · rw [e]
  · rw [e, heldBy_insert]
    split
    · next h => rw [h]; omega
    · exact Nat.le_refl _

theorem reserve_of_false {p : KvPool} (hp : p.Wf) {seq tokens : Nat}
    (h : (p.reserve seq tokens).1 = false) : (p.reserve seq tokens).2 = p := by
  rcases reserve_cases hp seq tokens with ⟨e, _⟩ | ⟨e, _⟩ | ⟨_, _, e⟩
  · rw [e]
  · rw [e]
  · rw [e] at h; exact Bool.noConfusion h

/-- Only the id that asked can become a key, and it does when it asks for a position. -/
theorem mem_held_reserve {p : KvPool} (hp : p.Wf) {seq tokens : Nat} (hpos : 0 < blocksFor tokens)
    (h : (p.reserve seq tokens).1 = true) (id : Nat) :
    id ∈ (p.reserve seq tokens).2.held ↔ id = seq ∨ id ∈ p.held := by
  rcases reserve_cases hp seq tokens with ⟨e, _⟩ | ⟨e, hle⟩ | ⟨_, _, e⟩
  · rw [e] at h; exact absurd h Bool.false_ne_true
  · rw [e]
    refine ⟨Or.inr, ?_⟩
    rintro (rfl | hid)
    · rw [← AList.lookup_isSome]
      unfold heldBy at hle
      cases hl : p.held.lookup id with
      | none => rw [hl, Option.getD_none] at hle; omega
      | some v => rfl
    · exact hid
  · rw [e]
    exact AList.mem_insert p.held

theorem release_wf {p : KvPool} (hp : p.Wf) (seq : Nat) : (p.release seq).Wf := by
  unfold release
  cases h : p.held.lookup seq with
  | none => exact hp
  | some blocks =>
    have hs := mapSum_erase p.held h
    have hu := hp.used_eq
    have hl := hp.used_le
    refine ⟨by dsimp only; omega, by dsimp only; omega, ?_⟩
    dsimp only
    rw [hp.no_underflow, decide_eq_false (by omega), Bool.or_false]

@[simp] theorem release_totalBlocks (p : KvPool) (seq : Nat) :
    (p.release seq).totalBlocks = p.totalBlocks := by
  unfold release
  split <;> rfl

theorem mem_held_release (p : KvPool) (seq id : Nat) :
    id ∈ (p.release seq).held ↔ id ≠ seq ∧ id ∈ p.held := by
  unfold release
  cases h : p.held.lookup seq with
  | none =>
    refine ⟨fun hid => ⟨?_, hid⟩, And.right⟩
    rintro rfl
    exact AList.lookup_eq_none.mp h hid
  | some blocks => exact AList.mem_erase

theorem heldBy_release_ne (p : KvPool) {seq id : Nat} (h : id ≠ seq) :
    (p.release seq).heldBy id = p.heldBy id := by
  unfold release
  cases p.held.lookup seq with
  | none => rfl
  | some blocks => exact congrArg (Option.getD · 0) (AList.lookup_erase_ne h)

/-- A well-formed pool without keys has its whole budget free. -/
theorem usedBlocks_of_no_keys {p : KvPool} (hp : p.Wf) (h : ∀ id, id ∉ p.held) :
    p.usedBlocks = 0 := by
  rw [hp.used_eq]
  have he : p.held.entries = [] := by
    cases hl : p.held.entries with
    | nil => rfl
    | cons e l =>
      refine absurd ?_ (h e.1)
      rw [AList.mem_keys]
      show e.1 ∈ p.held.entries.keys
      rw [hl, List.keys_cons]
      exact List.mem_cons_self
  unfold mapSum
  rw [he]
  rfl

end KvPool

end Cognitora.Infer
