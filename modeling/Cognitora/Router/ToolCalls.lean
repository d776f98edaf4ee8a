/-
  Merging streamed tool calls (cgn-router `src/gateway/generate.rs`, `ToolCallAggregator`).

  A fragment is an object with an integer `index`; fragments arrive in deltas, arrays of any
  length. `as_u64` reads no negative number, and such a fragment goes to slot 0.
  `tool_calls_order_robust`: the result depends only on the sequence of fragments of each slot, not
  on how calls are interleaved or grouped into deltas. It has one entry for each slot that occurs,
  in ascending order, with the arguments joined and the last id, type and name given. With the
  index in place of the slot this fails (`negative_index_joins_first`).

  The aggregator is in `Router/Render`. It keeps its slots sorted by index, so two of them are
  equal as soon as every index has the same slot in both.
-/
import Cognitora.Router.Render

namespace Cognitora.Router

open Cognitora.Core

/-- The integer a number of `serde_json` stands for; an `i64` is only kept below zero. -/
def integer? : Json → Option Int
  | .uint n => some n.toNat
  | .int n => if n < 0 then some n.toInt else none
  | _ => none

/-- A well-formed tool call fragment. -/
structure Fragment where
  json : Json
  index : Int
  indexed : (json.get "index").bind integer? = some index

namespace Fragment

/-- The slot of a fragment: its index, 0 for a negative one. -/
def slot (f : Fragment) : UInt64 :=
  UInt64.ofNat f.index.toNat

def id (f : Fragment) : Option String :=
  (f.json.get "id").bind Json.asStr

def type (f : Fragment) : Option String :=
  (f.json.get "type").bind Json.asStr

def name (f : Fragment) : Option String :=
  ((f.json.get "function").bind (·.get "name")).bind Json.asStr

def arguments (f : Fragment) : Option String :=
  ((f.json.get "function").bind (·.get "arguments")).bind Json.asStr

end Fragment

/-- Push the deltas one after another and finish. -/
def aggregate (deltas : List (List Fragment)) : Option Json :=
  (deltas.foldl (fun agg delta => agg.push (.arr (delta.map Fragment.json)))
    ToolCallAggregator.empty).finish

/-- The last string given for a field. -/
def lastGiven (field : Fragment → Option String) (fs : List Fragment) (default : String) : String :=
  (fs.filterMap field).getLast?.getD default

/-- What the fragments of one call say. -/
def ToolCall.ofFragments (fs : List Fragment) : ToolCall where
  id := lastGiven Fragment.id fs ""
  type := lastGiven Fragment.type fs "function"
  name := lastGiven Fragment.name fs ""
  arguments := String.join (fs.filterMap Fragment.arguments)

/-- The fragments of one index, or of one slot, in order. -/
def ofIndex {ι : Type} [DecidableEq ι] (index : Fragment → ι) (fs : List Fragment) (n : ι) :
    List Fragment :=
  fs.filter (index · = n)

/-! ## Slots -/

section

variable {calls calls' : List (UInt64 × ToolCall)}

theorem lookup_cons_if (n k : UInt64) (call : ToolCall) (calls : List (UInt64 × ToolCall)) :
    ((k, call) :: calls).lookup n = if n = k then some call else calls.lookup n := by
  rw [List.lookup_cons]
  by_cases hn : n = k
  · rw [if_pos hn, beq_iff_eq.mpr hn]
  · rw [if_neg hn, beq_false_of_ne hn]

theorem lookup_eq_none_of_lt {n : UInt64} (h : ∀ slot ∈ calls, n < slot.1) :
    calls.lookup n = none := by
  induction calls with
  | nil => rfl
  | cons slot calls ih =>
    have hlt := h slot List.mem_cons_self
    rw [lookup_cons_if, if_neg (UInt64.ne_of_lt hlt)]
    exact ih fun old hold => h old (List.mem_cons_of_mem _ hold)

theorem lookup_mergeAt (h : calls.Pairwise (·.1 < ·.1)) (idx : UInt64) (e : Json) (n : UInt64) :
    (mergeAt idx e calls).lookup n =
      if n = idx then some (((calls.lookup idx).getD ToolCall.empty).merge e)
      else calls.lookup n := by
  fun_induction mergeAt idx e calls with
  | case1 => exact lookup_cons_if _ _ _ _
  | case2 k call rest hlt =>
    have hnone : ((k, call) :: rest).lookup idx = none := by
      refine lookup_eq_none_of_lt fun slot hslot => ?_
      rcases List.mem_cons.mp hslot with rfl | hrest
      · exact hlt
      · exact UInt64.lt_trans hlt ((List.pairwise_cons.mp h).1 slot hrest)
    rw [hnone]
    exact lookup_cons_if _ _ _ _
  | case3 call rest hge =>
    rw [lookup_cons_if, lookup_cons_if, if_pos rfl]
    split
    · rfl
    · next hn => rw [lookup_cons_if, if_neg hn]
  | case4 k call rest hge hne ih =>
    rw [lookup_cons_if, lookup_cons_if, if_neg hne, ih (List.pairwise_cons.mp h).2]
    by_cases hk : n = k
    · have hidx : ¬ n = idx := fun hn => hne (hn.symm.trans hk)
      rw [if_pos hk, if_neg hidx, lookup_cons_if, if_pos hk]
    · rw [if_neg hk, lookup_cons_if, if_neg hk]

theorem mem_iff_lookup (h : calls.Pairwise (·.1 < ·.1)) (slot : UInt64 × ToolCall) :
    slot ∈ calls ↔ calls.lookup slot.1 = some slot.2 := by
  induction calls with
  | nil => simp
  | cons old calls ih =>
    obtain ⟨hfirst, hrest⟩ := List.pairwise_cons.mp h
    rw [List.mem_cons, lookup_cons_if, ih hrest]
    by_cases hk : slot.1 = old.1
    · have hnone := lookup_eq_none_of_lt hfirst
      rw [if_pos hk, hk, hnone, Option.some.injEq, Prod.ext_iff]
      simp [hk, eq_comm]
    · rw [if_neg hk]
      exact or_iff_right fun heq => hk (congrArg Prod.fst heq)

/-- Sorted slots are determined by what is found under each index. -/
theorem calls_ext (h : calls.Pairwise (·.1 < ·.1)) (h' : calls'.Pairwise (·.1 < ·.1))
    (hlookup : ∀ n, calls.lookup n = calls'.lookup n) : calls = calls' := by
  have hmem : ∀ slot, slot ∈ calls ↔ slot ∈ calls' := by
    intro slot
    rw [mem_iff_lookup h, mem_iff_lookup h', hlookup]
  have hnodup : ∀ {l : List (UInt64 × ToolCall)}, l.Pairwise (·.1 < ·.1) → l.Nodup :=
    fun hl => hl.imp fun hlt heq => UInt64.ne_of_lt hlt (congrArg Prod.fst heq)
  exact ((List.perm_ext_iff_of_nodup (hnodup h) (hnodup h')).mpr hmem).eq_of_pairwise
    (fun _ _ _ _ hab hba => absurd (UInt64.lt_trans hab hba) (UInt64.lt_irrefl _)) h h'

end

/-! ## Merging fragments -/

theorem lastGiven_concat (field : Fragment → Option String) (fs : List Fragment) (f : Fragment)
    (default : String) :
    lastGiven field (fs ++ [f]) default = (field f).getD (lastGiven field fs default) := by
  unfold lastGiven
  rw [List.filterMap_append]
  cases hf : field f with
  | none => simp [hf]
  | some t => simp [hf]

theorem join_filterMap_concat (field : Fragment → Option String) (fs : List Fragment)
    (f : Fragment) :
    String.join ((fs ++ [f]).filterMap field) =
      String.join (fs.filterMap field) ++ (field f).getD "" := by
  rw [List.filterMap_append]
  cases hf : field f with
  | none => simp [hf]
  | some t => simp [hf, String.join]

/-- One more fragment of a call. -/
theorem ToolCall.ofFragments_concat (fs : List Fragment) (f : Fragment) :
    ToolCall.ofFragments (fs ++ [f]) = (ToolCall.ofFragments fs).merge f.json := by
  unfold ToolCall.ofFragments ToolCall.merge
  rw [lastGiven_concat, lastGiven_concat, lastGiven_concat, join_filterMap_concat]
  rfl

/-- The aggregator after some fragments. -/
def merged (fs : List Fragment) : ToolCallAggregator :=
  fs.foldl (fun agg f => agg.merge f.json) ToolCallAggregator.empty

theorem asU64_index (f : Fragment) : ((f.json.get "index").bind Json.asU64).getD 0 = f.slot := by
  have hindexed := f.indexed
  unfold Fragment.slot
  cases hget : f.json.get "index" with
  | none =>
    rw [hget] at hindexed
    cases hindexed
  | some v =>
    rw [hget, Option.bind_some] at hindexed
    rw [Option.bind_some]
    cases v with
    | uint n =>
      rw [← Option.some.inj hindexed, Int.toNat_natCast, UInt64.ofNat_toNat]
      rfl
    | int n =>
      rw [integer?] at hindexed
      split at hindexed
      · next hneg =>
        have hlt : n.toInt < 0 := Int64.lt_iff_toInt_lt.mp hneg
        rw [← Option.some.inj hindexed, Int.toNat_of_nonpos (Int.le_of_lt hlt)]
        rfl
      · cases hindexed
    | _ => cases hindexed

theorem merged_concat (fs : List Fragment) (f : Fragment) :
    (merged (fs ++ [f])).calls = mergeAt f.slot f.json (merged fs).calls := by
  unfold merged
  rw [List.foldl_concat, ← asU64_index]
  rfl

/-- A slot holds what its fragments say, and there is none without one. -/
theorem lookup_merged (fs : List Fragment) (n : UInt64) :
    (merged fs).calls.lookup n =
      if ofIndex Fragment.slot fs n = [] then none
      else some (ToolCall.ofFragments (ofIndex Fragment.slot fs n)) := by
  induction fs using List.reverseRecOn with
  | nil => rfl
  | append_singleton fs f ih =>
    rw [merged_concat, lookup_mergeAt (merged fs).sorted]
    by_cases hn : n = f.slot
    · have hof : ofIndex Fragment.slot (fs ++ [f]) n = ofIndex Fragment.slot fs n ++ [f] := by
        simp [ofIndex, hn]
      have hslot : ((merged fs).calls.lookup n).getD ToolCall.empty =
          ToolCall.ofFragments (ofIndex Fragment.slot fs n) := by
        rw [ih]
        split
        · next hnil => rw [hnil]; rfl
        · rfl
      rw [if_pos hn, ← hn, hslot, hof, ToolCall.ofFragments_concat]
      exact (if_neg (List.concat_ne_nil _ _)).symm
    · have hof : ofIndex Fragment.slot (fs ++ [f]) n = ofIndex Fragment.slot fs n := by
        simp [ofIndex, Ne.symm hn]
      rw [if_neg hn, ih, hof]

theorem ofIndex_ne_nil_iff (fs : List Fragment) (n : UInt64) :
    ofIndex Fragment.slot fs n ≠ [] ↔ ∃ f ∈ fs, f.slot = n := by
  simp [ofIndex]

theorem push_fragments (agg : ToolCallAggregator) (delta : List Fragment) :
    agg.push (.arr (delta.map Fragment.json)) =
      delta.foldl (fun agg f => agg.merge f.json) agg := by
  rw [ToolCallAggregator.push_eq]
  exact List.foldl_map

/-- The grouping into deltas does not matter. -/
theorem aggregate_eq (deltas : List (List Fragment)) :
    aggregate deltas = (merged deltas.flatten).finish := by
  unfold aggregate merged
  rw [List.foldl_flatten]
  simp only [push_fragments]

/-- Deltas whose fragments of each slot are the same, in the same order, give the same result;
    it has an entry for each slot that occurs, in ascending order, made of the fragments of that
    slot. -/
theorem tool_calls_order_robust :
    (∀ deltas deltas' : List (List Fragment),
        (∀ n, ofIndex Fragment.slot deltas.flatten n = ofIndex Fragment.slot deltas'.flatten n) →
          aggregate deltas = aggregate deltas') ∧
      ∀ deltas : List (List Fragment), ∃ calls : List (UInt64 × ToolCall),
        (aggregate deltas =
          if calls = [] then none else some (.arr (calls.map fun slot => slot.2.toJson))) ∧
        calls.Pairwise (·.1 < ·.1) ∧
        (∀ n, n ∈ calls.map Prod.fst ↔ ∃ f ∈ deltas.flatten, f.slot = n) ∧
        ∀ slot ∈ calls,
          slot.2 = ToolCall.ofFragments (ofIndex Fragment.slot deltas.flatten slot.1) := by
  refine ⟨fun deltas deltas' hsame => ?order, fun deltas => ?entries⟩
  case order =>
    have hcalls : (merged deltas.flatten).calls = (merged deltas'.flatten).calls := by
      refine calls_ext (merged deltas.flatten).sorted (merged deltas'.flatten).sorted fun n => ?_
      rw [lookup_merged, lookup_merged, hsame]
    rw [aggregate_eq, aggregate_eq, ToolCallAggregator.finish, ToolCallAggregator.finish, hcalls]
  case entries =>
    have hsorted := (merged deltas.flatten).sorted
    refine ⟨(merged deltas.flatten).calls, ?_, hsorted, fun n => ?_, fun slot hslot => ?_⟩
    · rw [aggregate_eq, ToolCallAggregator.finish]
      simp only [List.isEmpty_iff]
    · rw [← ofIndex_ne_nil_iff, List.mem_map]
      constructor
      · rintro ⟨slot, hslot, rfl⟩ hnil
        have hfound := (mem_iff_lookup hsorted slot).mp hslot
        rw [lookup_merged, if_pos hnil] at hfound
        cases hfound
      · intro hne
        refine ⟨(n, ToolCall.ofFragments (ofIndex Fragment.slot deltas.flatten n)), ?_, rfl⟩
        rw [mem_iff_lookup hsorted, lookup_merged, if_neg hne]
    · have hfound := (mem_iff_lookup hsorted slot).mp hslot
      rw [lookup_merged] at hfound
      split at hfound
      · cases hfound
      · exact (Option.some.inj hfound).symm

/-- The start of a call of index 0. -/
def firstCall : Fragment where
  json := .obj [("index", .uint 0), ("id", .str "a")]
  index := 0
  indexed := rfl

/-- The start of a call of index -1. -/
def negativeCall : Fragment where
  json := .obj [("index", .int (-1)), ("id", .str "b")]
  index := -1
  indexed := rfl

/-- Calls of the indices 0 and -1 become one, whose id is that of the later fragment: the order
    of the two matters, and there is no entry for each index. -/
theorem negative_index_joins_first :
    (¬ ∀ deltas deltas' : List (List Fragment),
        (∀ n, ofIndex Fragment.index deltas.flatten n =
          ofIndex Fragment.index deltas'.flatten n) → aggregate deltas = aggregate deltas') ∧
      ¬ ∀ deltas : List (List Fragment), ∃ calls : List (Int × ToolCall),
        (aggregate deltas =
          if calls = [] then none else some (.arr (calls.map fun slot => slot.2.toJson))) ∧
        calls.Pairwise (·.1 < ·.1) ∧
        (∀ n, n ∈ calls.map Prod.fst ↔ ∃ f ∈ deltas.flatten, f.index = n) ∧
        ∀ slot ∈ calls,
          slot.2 = ToolCall.ofFragments (ofIndex Fragment.index deltas.flatten slot.1) := by
  have hone : aggregate [[firstCall], [negativeCall]] =
      some (.arr [({ ToolCall.empty with id := "b" } : ToolCall).toJson]) := rfl
  constructor
  · intro h
    have hother : aggregate [[negativeCall], [firstCall]] =
        some (.arr [({ ToolCall.empty with id := "a" } : ToolCall).toJson]) := rfl
    have hsame := h [[firstCall], [negativeCall]] [[negativeCall], [firstCall]] fun n => by
      have hfirst : firstCall.index = 0 := rfl
      have hnegative : negativeCall.index = -1 := rfl
      by_cases hzero : (0 : Int) = n
      · simp [ofIndex, hfirst, hnegative, ← hzero]
      · simp [ofIndex, List.filter_cons, hfirst, hzero]
    rw [hone, hother] at hsame
    simp [ToolCall.toJson] at hsame
  · intro h
    obtain ⟨calls, hresult, -, hindices, -⟩ := h [[firstCall], [negativeCall]]
    have hzero : (0 : Int) ∈ calls.map Prod.fst :=
      (hindices 0).mpr ⟨firstCall, List.mem_cons_self, rfl⟩
    have hneg : (-1 : Int) ∈ calls.map Prod.fst :=
      (hindices (-1)).mpr ⟨negativeCall, List.mem_cons_of_mem _ List.mem_cons_self, rfl⟩
    -- the result has one entry
    match calls with
    | [] => cases hzero
    | [slot] =>
      have h0 := List.mem_singleton.mp hzero
      have h1 := List.mem_singleton.mp hneg
      rw [← h0] at h1
      exact absurd h1 (by decide)
    | _ :: _ :: _ =>
      rw [hone, if_neg (List.cons_ne_nil _ _)] at hresult
      simp at hresult

end Cognitora.Router
