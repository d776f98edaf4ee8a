/-
  What attention sees when the scheduler runs over `BatchedLlama`.

  `run_attends_to_past`: in every run, whatever the chunk size, the batches, the preemptions
  and the tensor operations that fail, a query at position `p` of a sequence sees in every
  layer the keys and values of the tokens fed for that sequence since its last prefill at
  position 0, from position 0 to its own, each key rotated with its position. A cache that a
  failed call has left behind is not read again.

  The runtime is faithful as long as it is called on clean caches (`Infer/LlamaCache`); that
  the scheduler calls it so is `Infer/Outcomes`.
-/
import Cognitora.Infer.LlamaCache
import Cognitora.Infer.Outcomes

namespace Cognitora.Infer.Llama

open Cognitora.Lib

variable {H P Λ σ : Type}

/-- What a prefill call that is ready builds on. -/
theorem prefill_ready {holds : Nat → List Token → Prop} {fed : Nat → List Token} {seq : Nat}
    {tokens : List Token} {startPos : Nat} {wantLogits : Bool}
    (h : (Call.prefill seq tokens startPos wantLogits).Ready holds fed) :
    ∃ old, (startPos = 0 ∧ old = [] ∨ holds seq old ∧ old.length = startPos) ∧
      (Call.prefill seq tokens startPos wantLogits).feed fed seq = old ++ tokens := by
  have hfeed : (Call.prefill seq tokens startPos wantLogits).feed fed seq =
      if startPos = 0 then tokens else fed seq ++ tokens := Function.update_self _ _ _
  rw [hfeed]
  by_cases h0 : startPos = 0
  · exact ⟨[], Or.inl ⟨h0, rfl⟩, if_pos h0⟩
  · exact ⟨fed seq, Or.inr (h.resolve_left h0), if_neg h0⟩

/-- The batched runtime keeps clean caches clean, and its queries read the past of their
    tokens. -/
theorem BatchedLlama.faithful (net : QLlama H P Λ) (fails : Nat → Bool) (ctx maxBatch : Nat) :
    (BatchedLlama.runtime net fails ctx maxBatch).Faithful BatchedLlama.reads
      (BatchedLlama.Holds net) fun tss r => ∃ ts b, Exact net tss r ts b where
  holds := by
    intro m c fed hdrop hready hok id hid
    cases c with
    | prefill seq tokens startPos wantLogits =>
      obtain ⟨old, hold, hfeed⟩ := prefill_ready hready
      rw [List.mem_singleton.mp hid, hfeed]
      exact (prefill_exact hold tokens wantLogits).1 hok
    | decode batch =>
      obtain ⟨hn, hold⟩ := hready
      obtain ⟨p, hp, rfl⟩ := List.mem_map.mp hid
      show Holds net _ p.1 (fed p.1 ++ batchTokens batch p.1)
      rw [batchTokens_eq_singleton hn hp]
      exact (decode_exact hn hold).1 hok p hp
    | dropSeq seq => exact absurd trivial hdrop
  frame := by
    intro m c id hid ts hts
    obtain ⟨kv, hkv, hclean⟩ := hts
    refine ⟨kv, ?_, hclean⟩
    rw [← hkv]
    cases c with
    | prefill seq tokens startPos wantLogits =>
      exact prefill_frame net fails m (fun he => hid (List.mem_singleton.mpr he)) _ _ _
    | decode batch => exact decode_frame net fails m hid
    | dropSeq seq => exact Function.update_of_ne (fun he => hid (List.mem_singleton.mpr he)) _ _
  right := by
    intro m c fed hready r hr
    cases c with
    | prefill seq tokens startPos wantLogits =>
      obtain ⟨old, hold, hfeed⟩ := prefill_ready hready
      rw [Call.seqs, List.map_singleton, hfeed]
      exact (prefill_exact hold tokens wantLogits).2 r hr
    | decode batch =>
      obtain ⟨hn, hold⟩ := hready
      have hfed : (batch.map Prod.fst).map (fun id => fed id ++ batchTokens batch id) =
          batch.map fun p => fed p.1 ++ [p.2] := by
        rw [List.map_map]
        refine List.map_congr_left fun p hp => ?_
        rw [Function.comp_apply, batchTokens_eq_singleton hn hp]
      show ∃ ts b,
        Exact net ((batch.map Prod.fst).map fun id => fed id ++ batchTokens batch id) r ts b
      rw [hfed]
      exact (decode_exact hn hold).2 r hr
    | dropSeq seq => exact absurd hr List.not_mem_nil

/-- What the query of a call `e`, made after the calls `past`, is to see: it is the query of
    the token at `r.pos` of `seq`, and it sees the positions `0..r.pos` of what was fed for
    `seq` since its last prefill at position 0. If an earlier call on `seq` has failed, `seq`
    has been started anew since. -/
structure SeesPast (net : QLlama H P Λ) (past : List (Served (Read P))) (e : Served (Read P))
    (r : Read P) (seq : Nat) (b : Block H P) : Prop where
  member : e.call.seqs[r.member]? = some seq
  block : net.blocks[r.layer]? = some b
  pos_lt : r.pos < (fedSince ((past ++ [e]).map Served.call) seq).length
  query : (net.queries b (net.states r.layer
    (fedSince ((past ++ [e]).map Served.call) seq)))[r.pos]? = some r.query
  seen : r.seen = net.past b (net.states r.layer
    (fedSince ((past ++ [e]).map Served.call) seq)) r.pos
  restarted : ∀ before f between, past = before ++ f :: between → f.ok = false →
    seq ∈ f.call.seqs → ∃ g ∈ between ++ [e], g.call.Restarts seq

/-- Every query of every call sees its past. -/
def AttendsToPast (net : QLlama H P Λ) (history : List (Served (Read P))) : Prop :=
  ∀ past e rest, history = past ++ e :: rest →
    ∀ r ∈ e.seen, ∃ seq b, SeesPast net past e r seq b

/-- A drop does not fail and shows nothing. -/
theorem not_isDrop {net : QLlama H P Λ} {fails : Nat → Bool} {ctx maxBatch : Nat}
    {calls : List Call} {e : Served (Read P)}
    (he : e ∈ ((BatchedLlama.runtime net fails ctx maxBatch).served BatchedLlama.reads
      BatchedLlama.new calls).2) (h : e.ok = false ∨ e.seen ≠ []) : ¬ e.call.IsDrop := by
  intro hdrop
  obtain ⟨seq, hseq⟩ := hdrop.eq
  obtain ⟨m, hok, hseen⟩ := BatchModel.exec_of_mem_served he
  rw [hseq] at hok hseen
  rcases h with h | h
  · rw [hok] at h
    exact absurd h (by simp [Call.exec])
  · exact h hseen

/-- In every run of the scheduler over the batched model, whichever operations fail: whenever a
    query attends, it sees exactly its past. -/
theorem run_attends_to_past (net : QLlama H P Λ) (fails : Nat → Bool) (ctx maxBatch : Nat)
    (sample : σ → Λ → List Token → Token × σ) (cfg : SchedulerConfig)
    (acts : List (Scheduler.Action σ)) :
    AttendsToPast net (Scheduler.run
      ((BatchedLlama.runtime net fails ctx maxBatch).observed BatchedLlama.reads) sample
      (BatchedLlama.new, []) cfg acts).model.2 := by
  obtain ⟨calls, hrun, hob, hquiet⟩ := run_served (BatchedLlama.runtime net fails ctx maxBatch)
    BatchedLlama.reads sample BatchedLlama.new cfg acts
  have hshown := ((BatchedLlama.faithful net fails ctx maxBatch).trusted BatchedLlama.new calls
    hob hquiet).shown
  have hcalls := BatchModel.map_call_served (BatchedLlama.runtime net fails ctx maxBatch)
    BatchedLlama.reads BatchedLlama.new calls
  rw [hrun]
  intro past e rest hhistory r hr
  have hmem : ∀ f ∈ past ++ e :: rest, f.ok = false ∨ f.seen ≠ [] → ¬ f.call.IsDrop := by
    rw [← hhistory]
    exact fun f hf => not_isDrop hf
  rw [hhistory] at hquiet hshown hcalls
  obtain ⟨ts, b, hexact⟩ := ((along_append _ past _).mp hshown).2.1 r hr
  rw [fold_calls] at hexact
  have htokens := hexact.tokens
  rw [List.getElem?_map] at htokens
  obtain ⟨seq, hseq, hts⟩ := Option.map_eq_some_iff.mp htokens
  have hfed : fedSince ((past ++ [e]).map Served.call) seq = ts := by
    rw [List.map_append]
    exact hts
  refine ⟨seq, b, hseq, hexact.block, ?_, ?_, ?_, ?_⟩
  · rw [hfed]
    exact hexact.pos_lt
  · rw [hfed]
    exact hexact.query
  · rw [hfed]
    exact hexact.seen
  · rintro before f between rfl hok hf
    rw [← hcalls] at hob
    have hfdrop : ¬ f.call.IsDrop := hmem f (by simp) (Or.inl hok)
    have hedrop : ¬ e.call.IsDrop := hmem e (by simp) (Or.inr (List.ne_nil_of_mem hr))
    exact restarted_of_failed hquiet hob hfdrop hok hf hedrop (List.mem_of_getElem? hseq)

/-- A model of one layer whose rows are labels: a hidden state is its token, a row of heads its
    token and the position it has been rotated with. -/
def labelled : QLlama Token (Token × Nat) Unit where
  contextLength := 16
  blocks := [{
    attnNorm := id
    wq := fun t => (t, 0)
    wk := fun t => (t, 0)
    wv := fun t => (t, 0)
    wo := Prod.fst
    ffnNorm := id
    mlp := id }]
  embed := id
  rotate := fun pos p => (p.1, pos)
  mix := fun q _ => q
  add := fun _ x => x
  outNorm := id
  head := fun _ => ()

/-- Keys seen, call by call: a prompt of three tokens in chunks of two, then one decode call. -/
example : (Scheduler.run
    ((BatchedLlama.runtime labelled (fun _ => false) 16 8).observed BatchedLlama.reads)
    (fun s _ _ => (5, s)) (BatchedLlama.new, []) { prefillChunk := 2 }
    [.enqueue { Request.plain 3 2 with promptTokens := [7, 8, 9] }, .step, .step]).model.2.map
      (fun e => e.seen.map fun r => (r.pos, r.seen.map Prod.fst)) =
    [[(0, [(7, 0)]), (1, [(7, 0), (8, 1)])],
      [(2, [(7, 0), (8, 1), (9, 2)])],
      [(3, [(7, 0), (8, 1), (9, 2), (5, 3)])],
      []] := by
  decide +kernel

end Cognitora.Infer.Llama
