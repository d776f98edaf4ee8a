/-
  The `BatchModel` seam (cgn-infer `src/runtime/mod.rs`): what the scheduler calls, and
  what the trait's contract says about it.

  A runtime is an arbitrary state type `μ` with arbitrary behaviour: logits are of any
  type `Λ`, and every call may fail. The contract a runtime owes its caller is carried by
  the structure (`prefill_logits`, `decode_rows`, `maxBatch_pos`). What the caller owes the
  runtime is stated over the history of calls: `BatchModel.recorded` runs any runtime with
  a recorder in front, `kvAfter` replays a history into the KV the runtime holds for each
  id, and `Obeyed` says that every call of a history was allowed by the contract.

  A failed call is replayed as if the runtime had stored all it was given: the KV held is
  then an upper bound, and the scheduler drops the sequence before it uses it again.
-/
import Cognitora.Lib.Run
import Mathlib.Data.List.Induction

namespace Cognitora.Infer

open Cognitora.Lib

abbrev Token := UInt32

/-- A loaded model that serves multiple sequences, each identified by a
    scheduler-assigned id. A `none` result is an `Err`. -/
structure BatchModel (μ Λ : Type) where
  maxBatch : Nat
  maxSeqLen : Nat
  prefill : μ → (seq : Nat) → (tokens : List Token) → (startPos : Nat) → (wantLogits : Bool) →
    Option (Option Λ) × μ
  decode : μ → (batch : List (Nat × Token)) → Option (List Λ) × μ
  dropSeq : μ → (seq : Nat) → μ
  /-- `1` is the sequential runtime. -/
  maxBatch_pos : 0 < maxBatch
  /-- Logits are returned exactly when asked for. -/
  prefill_logits : ∀ m seq tokens startPos wantLogits l,
    (prefill m seq tokens startPos wantLogits).1 = some l → l.isSome = wantLogits
  /-- One row of logits per listed sequence. -/
  decode_rows : ∀ m batch rows, (decode m batch).1 = some rows → rows.length = batch.length

/-- A runtime that never fails and whose logits carry nothing, for concrete runs. -/
def BatchModel.silent (maxSeqLen : Nat) : BatchModel Unit Unit where
  maxBatch := 8
  maxSeqLen := maxSeqLen
  prefill := fun _ _ _ _ wantLogits => (some (if wantLogits then some () else none), ())
  decode := fun _ batch => (some (batch.map fun _ => ()), ())
  dropSeq := fun _ _ => ()
  maxBatch_pos := by decide
  prefill_logits := by
    intro m seq tokens startPos wantLogits l h
    cases wantLogits <;> cases h <;> rfl
  decode_rows := by
    intro m batch rows h
    cases h
    exact List.length_map _

/-- One call made to a runtime. -/
inductive Call where
  | prefill (seq : Nat) (tokens : List Token) (startPos : Nat) (wantLogits : Bool)
  | decode (batch : List (Nat × Token))
  | dropSeq (seq : Nat)
  deriving DecidableEq

variable {μ ν Λ : Type}

/-- The runtime `M` with every call written to a history. -/
def BatchModel.recorded (M : BatchModel μ Λ) : BatchModel (μ × List Call) Λ where
  maxBatch := M.maxBatch
  maxSeqLen := M.maxSeqLen
  prefill := fun m seq tokens startPos wantLogits =>
    let r := M.prefill m.1 seq tokens startPos wantLogits
    (r.1, r.2, m.2 ++ [.prefill seq tokens startPos wantLogits])
  decode := fun m batch =>
    let r := M.decode m.1 batch
    (r.1, r.2, m.2 ++ [.decode batch])
  dropSeq := fun m seq => (M.dropSeq m.1 seq, m.2 ++ [.dropSeq seq])
  maxBatch_pos := M.maxBatch_pos
  prefill_logits := fun m => M.prefill_logits m.1
  decode_rows := fun m => M.decode_rows m.1

/-- `f` translates the states of `M` to those of `N` call by call. -/
structure BatchModel.Hom (M : BatchModel μ Λ) (N : BatchModel ν Λ) (f : μ → ν) : Prop where
  maxBatch : N.maxBatch = M.maxBatch
  maxSeqLen : N.maxSeqLen = M.maxSeqLen
  prefill : ∀ m seq tokens startPos wantLogits,
    N.prefill (f m) seq tokens startPos wantLogits =
      ((M.prefill m seq tokens startPos wantLogits).1,
        f (M.prefill m seq tokens startPos wantLogits).2)
  decode : ∀ m batch, N.decode (f m) batch = ((M.decode m batch).1, f (M.decode m batch).2)
  dropSeq : ∀ m seq, N.dropSeq (f m) seq = f (M.dropSeq m seq)

/-- Recording changes nothing else. -/
theorem BatchModel.recorded_hom (M : BatchModel μ Λ) : M.recorded.Hom M Prod.fst :=
  ⟨rfl, rfl, fun _ _ _ _ _ => rfl, fun _ _ => rfl, fun _ _ => rfl⟩

/-! ## The KV a runtime holds -/

/-- The tokens that `batch` appends to `id`. -/
def batchTokens (batch : List (Nat × Token)) (id : Nat) : List Token :=
  (batch.filter fun p => p.1 == id).map Prod.snd

/-- What a runtime holds for one sequence. -/
structure Held where
  tokens : List Token
  /-- The final chunk of the prompt, the one that asks for logits, has been processed. -/
  prefilled : Bool

/-- The effect of a call on the KV held per id. -/
def Call.store (kv : Nat → Option Held) : Call → Nat → Option Held
  | .prefill seq tokens startPos wantLogits =>
    Function.update kv seq (some {
      tokens := if startPos = 0 then tokens else ((kv seq).map Held.tokens).getD [] ++ tokens
      prefilled := wantLogits })
  | .decode batch => fun id =>
    (kv id).map fun h => { h with tokens := h.tokens ++ batchTokens batch id }
  | .dropSeq seq => Function.update kv seq none

/-- The KV held per id after a history, from an empty runtime. -/
def kvAfter (calls : List Call) : Nat → Option Held :=
  calls.foldl Call.store fun _ => none

/-- What the trait's contract asks of a call, given the KV held before it. -/
def Call.Allowed (maxBatch : Nat) (kv : Nat → Option Held) : Call → Prop
  | .prefill seq _ startPos _ =>
    startPos = 0 ∨ (kv seq).map (fun h => h.tokens.length) = some startPos
  | .decode batch => (batch.map Prod.fst).Nodup ∧
      (∀ p ∈ batch, ∃ h, kv p.1 = some h ∧ h.prefilled = true) ∧ batch.length ≤ maxBatch
  | .dropSeq _ => True

/-- Every call of the history was allowed when it was made. -/
def Obeyed (maxBatch : Nat) (calls : List Call) : Prop :=
  Along Call.store (Call.Allowed maxBatch) (fun _ => none) calls

theorem kvAfter_append (calls : List Call) (c : Call) :
    kvAfter (calls ++ [c]) = c.store (kvAfter calls) := by
  unfold kvAfter
  rw [List.foldl_append]
  rfl

theorem obeyed_append {maxBatch : Nat} {calls : List Call} {c : Call} :
    Obeyed maxBatch (calls ++ [c]) ↔
      Obeyed maxBatch calls ∧ c.Allowed maxBatch (kvAfter calls) := by
  unfold Obeyed
  rw [along_append]
  simp only [Along, and_true, kvAfter]

/-! ## Tokens fed since the last restart -/

/-- The effect of a call on the tokens fed per id since its most recent prefill at
    position 0. A drop feeds nothing. -/
def Call.feed (fed : Nat → List Token) : Call → Nat → List Token
  | .prefill seq tokens startPos _ =>
    Function.update fed seq (if startPos = 0 then tokens else fed seq ++ tokens)
  | .decode batch => fun id => fed id ++ batchTokens batch id
  | .dropSeq _ => fed

/-- The tokens fed to the runtime for each id since its most recent prefill at position 0. -/
def fedSince (calls : List Call) : Nat → List Token :=
  calls.foldl Call.feed fun _ => []

theorem fedSince_append (calls : List Call) (c : Call) :
    fedSince (calls ++ [c]) = c.feed (fedSince calls) := by
  unfold fedSince
  rw [List.foldl_append]
  rfl

theorem mem_of_batchTokens_ne_nil {batch : List (Nat × Token)} {id : Nat}
    (h : batchTokens batch id ≠ []) : ∃ p ∈ batch, p.1 = id := by
  obtain ⟨t, ht⟩ := List.exists_mem_of_ne_nil _ h
  obtain ⟨p, hp, _⟩ := List.mem_map.mp ht
  obtain ⟨hm, he⟩ := List.mem_filter.mp hp
  exact ⟨p, hm, by simpa using he⟩

theorem batchTokens_eq_nil {batch : List (Nat × Token)} {id : Nat}
    (h : id ∉ batch.map Prod.fst) : batchTokens batch id = [] := by
  by_contra hne
  obtain ⟨p, hp, he⟩ := mem_of_batchTokens_ne_nil hne
  exact h (he ▸ List.mem_map_of_mem hp)

/-- A sequence that is once in the batch is fed its token. -/
theorem batchTokens_eq_singleton {batch : List (Nat × Token)} (hn : (batch.map Prod.fst).Nodup)
    {p : Nat × Token} (hp : p ∈ batch) : batchTokens batch p.1 = [p.2] := by
  induction batch with
  | nil => exact absurd hp List.not_mem_nil
  | cons q batch ih =>
    rw [List.map_cons, List.nodup_cons] at hn
    unfold batchTokens
    rcases List.mem_cons.mp hp with rfl | hp
    · rw [List.filter_cons_of_pos (by simp), List.map_cons]
      exact congrArg (p.2 :: ·) (batchTokens_eq_nil hn.1)
    · have hne : q.1 ≠ p.1 := fun he => hn.1 (he ▸ List.mem_map_of_mem hp)
      rw [List.filter_cons_of_neg (by simpa using hne)]
      exact ih hn.2 hp

/-- On a history that obeys the contract, what the runtime holds for an id is what it was
    fed since the last restart. -/
theorem fedSince_of_kvAfter {maxBatch : Nat} (calls : List Call) (h : Obeyed maxBatch calls)
    (id : Nat) (k : Held) (hk : kvAfter calls id = some k) : fedSince calls id = k.tokens := by
  induction calls using List.reverseRecOn generalizing k with
  | nil => exact absurd hk (by simp [kvAfter])
  | append_singleton calls c ih =>
    obtain ⟨hob, hc⟩ := obeyed_append.mp h
    rw [kvAfter_append] at hk
    rw [fedSince_append]
    cases c with
    | prefill seq tokens startPos wantLogits =>
      simp only [Call.store, Call.feed, Function.update_apply] at hk ⊢
      split at hk
      · next hid =>
        subst hid
        rw [if_pos rfl, ← Option.some.inj hk]
        dsimp only
        split
        · rfl
        · next h0 =>
          -- a continuation chunk: the contract says the id is held
          obtain ⟨j, hj, _⟩ := Option.map_eq_some_iff.mp (hc.resolve_left h0)
          rw [ih hob j hj, hj, Option.map_some, Option.getD_some]
      · next hid =>
        rw [if_neg hid]
        exact ih hob k hk
    | decode batch =>
      obtain ⟨j, hj, he⟩ := Option.map_eq_some_iff.mp hk
      simp only [Call.feed]
      rw [ih hob j hj, ← he]
    | dropSeq seq =>
      simp only [Call.store, Call.feed, Function.update_apply] at hk ⊢
      split at hk
      · exact absurd hk (by simp)
      · exact ih hob k hk

end Cognitora.Infer
