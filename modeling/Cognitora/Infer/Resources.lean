/-
  What the scheduler holds, in every state it reaches.

  `run_resourcesKept`: whatever is enqueued, sampled or fails, and however requests and
  steps alternate, the ids are distinct, the pool holds blocks for exactly the running
  ids and counts them right, the batch limit is kept, the runtime holds KV for running ids
  only and never more positions than their blocks cover, and every call the runtime
  received was one its contract allows.

  The relation between KV and sequence needed for that is a weak one: the runtime lags
  at least one token behind. Which tokens it holds is the subject of `Context`.
-/
import Cognitora.Infer.Ledger
import Cognitora.Infer.Recording

namespace Cognitora.Infer.Scheduler

open Cognitora.Lib

variable {μ Λ σ : Type} {M : BatchModel μ Λ} {s : Scheduler (μ × List Call) σ}

/-- The runtime is behind the sequence. -/
def Shorter (l ts : List Token) : Prop :=
  l.length < ts.length

theorem shorter_grows : Grows Shorter where
  bounded := fun _ _ h => h
  fed := by
    intro l ts t h _ x
    unfold Shorter at h ⊢
    rw [List.length_append, List.length_append, List.length_singleton, List.length_singleton]
    exact Nat.succ_lt_succ h

theorem shorter_starts (s : Scheduler (μ × List Call) σ) : Starts Shorter s := by
  intro idx q done _ _ x
  unfold Shorter
  rw [List.length_append, List.length_singleton, List.length_take]
  exact Nat.lt_succ_of_le (Nat.min_le_right _ _)

variable (sample : σ → Λ → List Token → Token × σ)

theorem Inv.act (h : Inv Shorter M s) (a : Action σ) :
    Inv Shorter M (act M.recorded sample s a) := by
  cases a with
  | enqueue req => exact h.enqueue req
  | step => exact h.step sample shorter_grows (shorter_starts _)

theorem run_inv (model : μ) (cfg : SchedulerConfig) (acts : List (Action σ)) :
    Inv Shorter M (run M.recorded sample (model, []) cfg acts) :=
  List.foldlRecOn acts _ (Inv.new model cfg) fun _ h a _ => h.act sample a

/-- Nothing is leaked, counted twice or used without being held. -/
structure ResourcesKept (M : BatchModel μ Λ) (s : Scheduler (μ × List Call) σ) : Prop where
  ids_nodup : ((s.waiting ++ s.running).map Sequence.id).Nodup
  held_iff : ∀ id, id ∈ s.pool.held ↔ id ∈ s.running.map Sequence.id
  used_eq : s.pool.usedBlocks = mapSum s.pool.held
  used_le : s.pool.usedBlocks ≤ s.pool.totalBlocks
  no_underflow : s.pool.underflow = false
  running_le : s.running.length ≤ s.cfg.maxBatch
  kv_running : ∀ id, s.kv id ≠ none → id ∈ s.running.map Sequence.id
  kv_fits : ∀ q ∈ s.running, ∀ h, s.kv q.id = some h →
    h.tokens.length ≤ blockTokens * s.pool.heldBy q.id
  obeyed : Obeyed M.maxBatch s.calls

/-- A tracked sequence fits the blocks it holds. -/
theorem Tracked.kv_fits {D : List Token → List Token → Prop} {q : Sequence σ}
    (ht : Tracked D s q) (hw : SeqWf M.maxSeqLen q) {h : Held} (hk : s.kv q.id = some h) :
    h.tokens.length ≤ blockTokens * s.pool.heldBy q.id := by
  cases hp : q.phase with
  | decode =>
    obtain ⟨l, hl, _, hlen⟩ := ht.decoding hp
    rw [hk] at hl
    cases hl
    exact hlen
  | prefill d =>
    have hkv := ht.prefilling d hp
    rw [hk] at hkv
    split at hkv
    · exact absurd hkv (by simp)
    · cases hkv
      have h1 := hw.done_lt d hp
      have h2 := KvPool.le_blockTokens_mul_blocksFor (q.promptLen + 1)
      have h3 := Nat.mul_le_mul_left blockTokens ht.covered
      rw [List.length_take]
      omega

theorem Inv.resourcesKept (h : Inv Shorter M s) : ResourcesKept M s where
  ids_nodup := h.ids_nodup
  held_iff := h.held_iff
  used_eq := h.pool_wf.used_eq
  used_le := h.pool_wf.used_le
  no_underflow := h.pool_wf.no_underflow
  running_le := h.running_le
  kv_running := h.kv_running
  kv_fits := fun q hq _ hk => (h.tracked q hq).kv_fits (M := M) (h.seq_wf_running hq) hk
  obeyed := h.obeyed

/-- In every state reached from `new` by `enqueue` and `step` calls. -/
theorem run_resourcesKept (M : BatchModel μ Λ) (model : μ) (cfg : SchedulerConfig)
    (acts : List (Action σ)) :
    ResourcesKept M (run M.recorded sample (model, []) cfg acts) :=
  (run_inv sample model cfg acts).resourcesKept

end Cognitora.Infer.Scheduler
