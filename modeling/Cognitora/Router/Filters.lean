/-
  Which filters a picked node has passed (cgn-router `src/routing/selector.rs`).

  `pickExcluding_passes`: the node of `pick_excluding` passes all of them. `pickPair_passes`:
  so does the prefill node of a pair, and the decode node passes all but the capability
  constraints, which its loop does not apply. `picks_pass_iff`: for given nodes, reports and model
  configuration, every node picked in any state of the router passes every filter exactly if no
  two nodes that the filters leave for the halves of a pair have a decode node that reports less
  VRAM or another GPU than the model asks for.

  A node over its watt limit is one that `under_cap` rejects. The order in which the registry is
  gone through is not fixed by its contents. A score weight may be NaN: `ScoreWeights::validate`
  lets it pass, and with it no node keeps its place against the next.
-/
import Cognitora.Router.Selector

namespace Cognitora.Router

open Cognitora.Lib Cognitora.Core

namespace SharedState

/-- The filters on a node alone but for its capabilities: registered, routable, serving the
    model and not excluded. -/
structure Serving (σ : SharedState) (model : String) (exclude : List String) (n : NodeEntry) :
    Prop where
  registered : σ.nodes.get n.nodeId = some n
  not_excluded : n.nodeId ∉ exclude
  not_cordoned : n.cordoned = false
  not_draining : n.draining = false
  ready : n.ready = true
  serves : n.serves model = true

/-- All filters on a node alone: it also reports no less VRAM and no other GPU than the model
    asks for. -/
structure Fit (σ : SharedState) (model : String) (exclude : List String) (n : NodeEntry) : Prop
    extends σ.Serving model exclude n where
  vram : ∀ mc minVram, σ.models model = some mc → mc.minVramMb = some minVram →
    (σ.reports n.nodeId).vramTotalMb ≠ 0 → minVram ≤ (σ.reports n.nodeId).vramTotalMb
  gpu : ∀ mc req, σ.models model = some mc → mc.requireGpu = some req →
    (σ.reports n.nodeId).gpuName ≠ "" ∨ (σ.reports n.nodeId).gpuVendor ≠ "" →
    (asciiLower req).toList <:+: (asciiLower (σ.reports n.nodeId).gpuName).toList ∨
      (asciiLower req).toList <:+: (asciiLower (σ.reports n.nodeId).gpuVendor).toList

/-- A request for the role takes the node. -/
def Takes (role : NodeRole) (n : NodeEntry) : Prop :=
  role = .unspecified ∨ n.roleEnum = role ∨ n.roleEnum = .both

/-- All filters: the node is fit, and over its watt limit only if every fit node for the role,
    other than the paired one, is over its own. -/
structure Passes (σ : SharedState) (model : String) (exclude : List String) (role : NodeRole)
    (paired : Option String) (n : NodeEntry) : Prop where
  fit : σ.Fit model exclude n
  watts : σ.underCap n = false → ∀ m, σ.Fit model exclude m → Takes role m →
    some m.nodeId ≠ paired → σ.underCap m = false

/-- The watt cap leaves the node: it is under its limit, or none of the nodes is. -/
def Left (σ : SharedState) (among : NodeEntry → Prop) (n : NodeEntry) : Prop :=
  among n ∧ (σ.underCap n = false → ∀ m, among m → σ.underCap m = false)

/-- The filters leave `p` for the prefill half of a pair and `d` beside it for the decode half,
    and `d` reports less VRAM or another GPU than the model asks for. -/
structure Mispairs (σ : SharedState) (model : String) (exclude : List String)
    (prefillRole decodeRole : NodeRole) (p d : NodeEntry) : Prop where
  prefill : σ.Left (fun n => σ.Fit model exclude n ∧ Takes prefillRole n) p
  decode : σ.Left
    (fun n => σ.Serving model exclude n ∧ Takes decodeRole n ∧ n.nodeId ≠ p.nodeId) d
  unfit : ¬ σ.Fit model exclude d

/-- The second state has the nodes, reports and model configuration of the first. -/
structure SameFleet (σ σ' : SharedState) : Prop where
  nodes : ∀ id, σ'.nodes.get id = σ.nodes.get id
  reports : σ'.reports = σ.reports
  models : σ'.models = σ.models

/-! ## Candidates are fit -/

section

variable {σ : SharedState} {model : String} {exclude : List String} {role : NodeRole}
  {n : NodeEntry}

theorem routable_iff : n.routable = true ↔
    n.cordoned = false ∧ n.draining = false ∧ n.ready = true := by
  unfold NodeEntry.routable
  cases n.cordoned
  · cases n.draining
    · simp
    · simp
  · simp

theorem mem_nodesFor_iff :
    n ∈ σ.nodes.nodesFor role (some model) ↔
      σ.nodes.get n.nodeId = some n ∧ (n.cordoned = false ∧ n.draining = false ∧ n.ready = true) ∧
        Takes role n ∧ n.serves model = true := by
  rw [NodeRegistry.mem_nodesFor, routable_iff]
  unfold NodeEntry.matchesRequest Takes
  simp [or_assoc]

theorem meetsVram_iff (r : NodeReport) (minVram : UInt64) :
    r.meetsVram minVram = true ↔ (r.vramTotalMb ≠ 0 → minVram ≤ r.vramTotalMb) := by
  unfold NodeReport.meetsVram
  rw [Bool.or_eq_true, beq_iff_eq, decide_eq_true_eq, or_iff_not_imp_left]

theorem meetsGpu_iff (r : NodeReport) (req : String) :
    r.meetsGpu req = true ↔ (r.gpuName ≠ "" ∨ r.gpuVendor ≠ "" →
      (asciiLower req).toList <:+: (asciiLower r.gpuName).toList ∨
        (asciiLower req).toList <:+: (asciiLower r.gpuVendor).toList) := by
  unfold NodeReport.meetsGpu containsText
  rw [Bool.or_eq_true, Bool.or_eq_true, Bool.and_eq_true, String.isEmpty_iff, String.isEmpty_iff,
    decide_eq_true_eq, decide_eq_true_eq, or_assoc, ← not_and_or, or_iff_not_imp_left]

theorem capable_iff :
    σ.capable model n = true ↔
      (∀ mc minVram, σ.models model = some mc → mc.minVramMb = some minVram →
        (σ.reports n.nodeId).meetsVram minVram = true) ∧
      ∀ mc req, σ.models model = some mc → mc.requireGpu = some req →
        (σ.reports n.nodeId).meetsGpu req = true := by
  unfold capable
  cases σ.models model with
  | none => simp
  | some mc =>
    simp only [Option.all_some, Bool.and_eq_true, Option.all_eq_true, Option.some.injEq]
    constructor
    · rintro ⟨hvram, hgpu⟩
      refine ⟨?_, ?_⟩
      · rintro _ minVram rfl hmin
        exact hvram minVram hmin
      · rintro _ req rfl hreq
        exact hgpu req hreq
    · rintro ⟨hvram, hgpu⟩
      exact ⟨fun minVram hmin => hvram mc minVram rfl hmin, fun req hreq => hgpu mc req rfl hreq⟩

theorem mem_nodesFor_serving :
    n ∈ σ.nodes.nodesFor role (some model) ∧ n.nodeId ∉ exclude ↔
      σ.Serving model exclude n ∧ Takes role n := by
  rw [mem_nodesFor_iff]
  constructor
  · rintro ⟨⟨hget, ⟨hc, hd, hr⟩, htakes, hserves⟩, hex⟩
    exact ⟨⟨hget, hex, hc, hd, hr, hserves⟩, htakes⟩
  · rintro ⟨h, htakes⟩
    exact ⟨⟨h.registered, ⟨h.not_cordoned, h.not_draining, h.ready⟩, htakes, h.serves⟩,
      h.not_excluded⟩

theorem Serving.mem_nodesFor (h : σ.Serving model exclude n) (htakes : Takes role n) :
    n ∈ σ.nodes.nodesFor role (some model) :=
  (mem_nodesFor_serving.mpr ⟨h, htakes⟩).1

theorem fit_iff : σ.Fit model exclude n ↔ σ.Serving model exclude n ∧ σ.capable model n = true := by
  rw [capable_iff]
  simp only [meetsVram_iff, meetsGpu_iff]
  exact ⟨fun h => ⟨h.toServing, h.vram, h.gpu⟩, fun h => ⟨h.1, h.2.1, h.2.2⟩⟩

theorem mem_candidates_iff :
    n ∈ σ.candidates model role exclude ↔ σ.Fit model exclude n ∧ Takes role n := by
  rw [mem_candidates, ← and_assoc, mem_nodesFor_serving, fit_iff]
  exact and_right_comm

theorem Fit.capable (h : σ.Fit model exclude n) : σ.capable model n = true :=
  (fit_iff.mp h).2

theorem mem_distinct_iff {prefillId : String} :
    n ∈ σ.distinct model role exclude prefillId ↔
      σ.Serving model exclude n ∧ Takes role n ∧ n.nodeId ≠ prefillId := by
  rw [mem_distinct, and_comm (a := n.nodeId ≠ prefillId), ← and_assoc, mem_nodesFor_serving,
    and_assoc]

theorem left_congr {among among' : NodeEntry → Prop} (h : ∀ n, among n ↔ among' n) :
    σ.Left among n ↔ σ.Left among' n := by
  unfold Left
  simp only [h]

end

end SharedState

/-! ## Picked nodes -/

section

open SharedState

variable {hash : List UInt8 → Digest} {σ : SharedState} {key : RouteKey} {exclude : List String}

theorem pickExcluding_passes {role : NodeRole} {d : RoutingDecision}
    (h : pickExcluding hash σ key role exclude = .ok d) :
    σ.Passes key.model exclude role none d.node := by
  have hmem := (pickExcluding_ok h).1
  refine ⟨(mem_candidates_iff.mp (mem_of_mem_retainIfAny hmem)).1, ?_⟩
  intro hover m hfit htakes _
  exact retainIfAny_passes hmem hover m (mem_candidates_iff.mpr ⟨hfit, htakes⟩)

/-- The decode node of a pair passes unless it makes the pair one that the filters should have
    left out. -/
theorem pickPair_passes {prefillRole decodeRole : NodeRole} {p d : RoutingDecision}
    (h : pickPair hash σ key prefillRole decodeRole exclude = .ok (p, d)) :
    σ.Passes key.model exclude prefillRole none p.node ∧
      (¬ σ.Mispairs key.model exclude prefillRole decodeRole p.node d.node →
        σ.Passes key.model exclude decodeRole (some p.node.nodeId) d.node) := by
  obtain ⟨hpick, _, hdecode⟩ := pickPair_ok h
  have hp := pickExcluding_passes hpick
  have hother : ∀ m, σ.Fit key.model exclude m → Takes decodeRole m →
      some m.nodeId ≠ some p.node.nodeId →
      m ∈ σ.distinct key.model decodeRole exclude p.node.nodeId := by
    intro m hfit htakes hne
    exact mem_distinct_iff.mpr ⟨hfit.toServing, htakes, fun heq => hne (by rw [heq])⟩
  refine ⟨hp, fun hpair => ?_⟩
  rcases hdecode with ⟨hnone, heq⟩ | hmem
  · rw [heq]
    refine ⟨hp.fit, fun _ m hfit htakes hne => ?_⟩
    have hm := hother m hfit htakes hne
    rw [hnone] at hm
    exact absurd hm List.not_mem_nil
  · have hfit : σ.Fit key.model exclude d.node := by
      by_contra hunfit
      exact hpair ⟨(left_congr fun _ => mem_candidates_iff).mp
          (mem_retainIfAny_iff.mp (pickExcluding_ok hpick).1),
        (left_congr fun _ => mem_distinct_iff).mp (mem_retainIfAny_iff.mp hmem), hunfit⟩
    exact ⟨hfit, fun hover m hm htakes hne =>
      retainIfAny_passes hmem hover m (hother m hm htakes hne)⟩

end

/-! ## Any two nodes that are left can be paired -/

/-- The last two entries can be any two: the registry's order is not fixed by its contents. -/
theorem NodeRegistry.exists_ending (r : NodeRegistry) {p d : NodeEntry}
    (hp : r.get p.nodeId = some p) (hd : r.get d.nodeId = some d) (hne : d.nodeId ≠ p.nodeId) :
    ∃ r' : NodeRegistry, (∀ id, r'.get id = r.get id) ∧
      ∃ l, r'.inner.entries.map Sigma.snd = l ++ [p, d] := by
  have hp' : (⟨p.nodeId, p⟩ : Sigma fun _ : String => NodeEntry) ∈ r.inner.entries :=
    AList.mem_lookup_iff.mp hp
  have hd' : (⟨d.nodeId, d⟩ : Sigma fun _ : String => NodeEntry) ∈ r.inner.entries :=
    AList.mem_lookup_iff.mp hd
  have hrest : ∀ {l : List (Sigma fun _ : String => NodeEntry)} {x}, x ∈ l →
      ∃ l', (x :: l').Perm l := by
    intro l x hx
    obtain ⟨s, t, rfl⟩ := List.append_of_mem hx
    exact ⟨s ++ t, List.perm_middle.symm⟩
  obtain ⟨l₁, hl₁⟩ := hrest hp'
  have hd₁ : (⟨d.nodeId, d⟩ : Sigma fun _ : String => NodeEntry) ∈ l₁ := by
    rcases List.mem_cons.mp (hl₁.mem_iff.mpr hd') with heq | hmem
    · exact absurd (congrArg Sigma.fst heq) hne
    · exact hmem
  obtain ⟨l₂, hl₂⟩ := hrest hd₁
  have hperm : List.Perm (l₂ ++ [⟨p.nodeId, p⟩, ⟨d.nodeId, d⟩]) r.inner.entries :=
    (List.perm_append_comm.trans (hl₂.cons _)).trans hl₁
  have hlookup : ∀ id, (AList.mk _ ((List.perm_nodupKeys hperm).mpr r.inner.nodupKeys)).lookup id =
      r.inner.lookup id := fun _ => AList.perm_lookup hperm
  refine ⟨⟨⟨_, (List.perm_nodupKeys hperm).mpr r.inner.nodupKeys⟩, ?_⟩, hlookup,
    l₂.map Sigma.snd, by simp⟩
  intro id e he
  rw [hlookup] at he
  exact r.keyed id e he

/-- `f32::NAN`. -/
def nan32 : Float32 :=
  Float32.ofBits 0x7fc00000

theorem unpack_nan32 : nan32.toModel.unpack = .notANumber := rfl

theorem nan32_add (x : Float32) : nan32 + x = nan32 := by
  show Float32.ofModel (.pack (Float.Model.UnpackedFloat.add _ nan32.toModel.unpack _)) = nan32
  rw [unpack_nan32]
  rfl

theorem nan32_mul (x : Float32) : nan32 * x = nan32 := by
  show Float32.ofModel (.pack (Float.Model.UnpackedFloat.mul _ nan32.toModel.unpack _)) = nan32
  rw [unpack_nan32]
  rfl

theorem not_ge_nan32 (x : Float32) : ¬ x ≥ nan32 := by
  intro h
  have hle : nan32.toModel.unpack.le x.toModel.unpack = true := of_decide_eq_true h
  rw [unpack_nan32] at hle
  exact Bool.false_ne_true hle

/-- A last node whose score is no number is taken. -/
theorem best_nan {l : List (NodeEntry × Score)} {x : NodeEntry × Score} (h : x.2.total = nan32) :
    best (fun prev s : NodeEntry × Score => decide (prev.2.total ≥ s.2.total)) (l ++ [x]) =
      some x :=
  best_concat fun _ => decide_eq_false (h ▸ not_ge_nan32 _)

/-- The policy with a weight that is no number. -/
def nanPolicy : RoutingPolicy :=
  ⟨nan32, 0, 0, 0, 0⟩

theorem total_nanPolicy (node : NodeReport) (queueDepth : UInt32)
    (kvOverlap peerMaxPower : Float32) :
    (scoreNode nanPolicy node queueDepth kvOverlap peerMaxPower).total = nan32 := by
  unfold scoreNode nanPolicy
  dsimp only
  rw [nan32_mul, nan32_add, nan32_add, nan32_add]

section

open SharedState

variable {hash : List UInt8 → Digest} {σ : SharedState} {key : RouteKey} {exclude : List String}
  {prefillRole decodeRole : NodeRole} {p d : NodeEntry}

theorem total_scoreOf_nanPolicy (h : σ.policy = nanPolicy) (nodes : List NodeEntry)
    (n : NodeEntry) : (scoreOf hash σ key nodes n).total = nan32 := by
  unfold scoreOf
  dsimp only
  rw [h]
  split
  · dsimp only
    rw [total_nanPolicy, nan32_add]
  · exact total_nanPolicy _ _ _ _

theorem SharedState.Serving.routes {n : NodeEntry} {model : String} {role : NodeRole}
    (hn : σ.Serving model exclude n) (htakes : Takes role n) :
    (n.routable && n.matchesRequest role (some model)) = true := by
  obtain ⟨_, hroutable, hmatches⟩ := NodeRegistry.mem_nodesFor.mp (hn.mem_nodesFor htakes)
  rw [hroutable, hmatches]
  rfl

theorem candidates_ending (h : σ.Mispairs key.model exclude prefillRole decodeRole p d)
    {l : List NodeEntry} (hend : σ.nodes.inner.entries.map Sigma.snd = l ++ [p, d]) :
    ∃ l₁, σ.candidates key.model prefillRole exclude = l₁ ++ [p] := by
  obtain ⟨hp, htakes⟩ := h.prefill.1
  have hcap : σ.capable key.model d = false := by
    by_contra hcap
    exact h.unfit (fit_iff.mpr ⟨h.decode.1.1, Bool.not_eq_false _ ▸ hcap⟩)
  unfold candidates NodeRegistry.nodesFor
  rw [List.filter_filter, List.filter_filter, hend, List.filter_append,
    List.filter_cons_of_pos (by simp [hp.capable, hp.not_excluded, hp.toServing.routes htakes]),
    List.filter_cons_of_neg (by simp [hcap]), List.filter_nil]
  exact ⟨_, rfl⟩

theorem distinct_ending (h : σ.Mispairs key.model exclude prefillRole decodeRole p d)
    {l : List NodeEntry} (hend : σ.nodes.inner.entries.map Sigma.snd = l ++ [p, d]) :
    ∃ l₂, σ.distinct key.model decodeRole exclude p.nodeId = l₂ ++ [d] := by
  obtain ⟨hd, htakes, hne⟩ := h.decode.1
  unfold distinct NodeRegistry.nodesFor
  rw [List.filter_filter, hend, List.filter_append, List.filter_cons_of_neg (by simp),
    List.filter_cons_of_pos (by simp [hne, hd.not_excluded, hd.routes htakes]), List.filter_nil]
  exact ⟨_, rfl⟩

/-- With such a policy and `p` and `d` at the end, the pair is `p` and `d`. -/
theorem pickPair_ending (hash : List UInt8 → Digest)
    (h : σ.Mispairs key.model exclude prefillRole decodeRole p d)
    (hpolicy : σ.policy = nanPolicy) {l : List NodeEntry}
    (hend : σ.nodes.inner.entries.map Sigma.snd = l ++ [p, d]) :
    ∃ p' d', pickPair hash σ key prefillRole decodeRole exclude = .ok (p', d') ∧
      p'.node = p ∧ d'.node = d := by
  obtain ⟨l₁, hl₁⟩ := candidates_ending h hend
  obtain ⟨l₂, hl₂⟩ := distinct_ending h hend
  obtain ⟨l₃, hl₃⟩ := retainIfAny_concat (p := σ.underCap) (l := l₁) (x := p) fun hover m hm => by
    rw [← hl₁] at hm
    exact h.prefill.2 hover m (mem_candidates_iff.mp hm)
  obtain ⟨l₄, hl₄⟩ := retainIfAny_concat (p := σ.underCap) (l := l₂) (x := d) fun hover m hm => by
    rw [← hl₂] at hm
    exact h.decode.2 hover m (mem_distinct_iff.mp hm)
  have hpick : pickExcluding hash σ key prefillRole exclude = .ok
      { node := p
        score := scoreOf hash σ key (l₃ ++ [p]) p
        overlap := overlapOf hash σ key p
        nCandidates := (l₃ ++ [p]).length
        digests := hashSeqChunks hash key.salt key.tokenIds } := by
    unfold pickExcluding
    dsimp only
    rw [hl₁, hl₃, List.map_append, List.map_singleton,
      best_nan (total_scoreOf_nanPolicy hpolicy _ _)]
  unfold pickPair
  rw [hpick]
  dsimp only
  rw [hl₂, hl₄, List.map_append, List.map_singleton, hpolicy, best_nan (total_nanPolicy _ _ _ _)]
  exact ⟨_, _, rfl, rfl, rfl⟩

end

namespace SharedState

variable {σ σ' : SharedState} {model : String} {exclude : List String} {n : NodeEntry}

theorem SameFleet.symm (h : σ.SameFleet σ') : σ'.SameFleet σ :=
  ⟨fun id => (h.nodes id).symm, h.reports.symm, h.models.symm⟩

theorem SameFleet.serving (h : σ.SameFleet σ') (hn : σ.Serving model exclude n) :
    σ'.Serving model exclude n :=
  { hn with registered := (h.nodes _).trans hn.registered }

theorem SameFleet.fit (h : σ.SameFleet σ') (hn : σ.Fit model exclude n) :
    σ'.Fit model exclude n := by
  refine fit_iff.mpr ⟨h.serving hn.toServing, ?_⟩
  unfold capable
  rw [h.models, h.reports]
  exact hn.capable

theorem SameFleet.left (h : σ.SameFleet σ') {among among' : NodeEntry → Prop}
    (hall : ∀ m, among m ↔ among' m) (hn : σ.Left among n) : σ'.Left among' n := by
  have hcap : σ'.underCap = σ.underCap := by
    funext n
    unfold underCap
    rw [h.reports]
  refine ⟨(hall n).mp hn.1, fun hover m hm => ?_⟩
  rw [hcap] at hover ⊢
  exact hn.2 hover m ((hall m).mpr hm)

theorem SameFleet.mispairs (h : σ.SameFleet σ') {prefillRole decodeRole : NodeRole}
    {p d : NodeEntry} (hpair : σ.Mispairs model exclude prefillRole decodeRole p d) :
    σ'.Mispairs model exclude prefillRole decodeRole p d where
  prefill := h.left (fun _ => and_congr_left' ⟨h.fit, h.symm.fit⟩) hpair.prefill
  decode := h.left (fun _ => and_congr_left' ⟨h.serving, h.symm.serving⟩) hpair.decode
  unfit := fun hfit => hpair.unfit (h.symm.fit hfit)

end SharedState

/-- A pair that the filters should have left out is picked in some state. -/
theorem exists_pair_unfit (hash : List UInt8 → Digest) {σ : SharedState} {key : RouteKey}
    {prefillRole decodeRole : NodeRole} {exclude : List String} {p d : NodeEntry}
    (h : σ.Mispairs key.model exclude prefillRole decodeRole p d) :
    ∃ σ' : SharedState, σ.SameFleet σ' ∧
      ∃ p' d', pickPair hash σ' key prefillRole decodeRole exclude = .ok (p', d') ∧
        ¬ σ'.Fit key.model exclude d'.node := by
  obtain ⟨nodes, hget, l, hend⟩ := σ.nodes.exists_ending h.prefill.1.1.registered
    h.decode.1.1.registered h.decode.1.2.2
  have hsame : σ.SameFleet { σ with nodes := nodes, policy := nanPolicy } := ⟨hget, rfl, rfl⟩
  have hmis := hsame.mispairs h
  obtain ⟨p', d', hpair, _, rfl⟩ := pickPair_ending hash hmis rfl hend
  exact ⟨_, hsame, p', d', hpair, hmis.unfit⟩

/-- For given nodes, reports and model configuration: whatever else the router's state is, every
    picked node passes every filter, exactly if the filters leave no two nodes for a pair whose
    decode node reports less VRAM or another GPU than the model asks for. -/
theorem picks_pass_iff (hash : List UInt8 → Digest) (σ : SharedState) (key : RouteKey)
    (prefillRole decodeRole : NodeRole) (exclude : List String) :
    (∀ σ' : SharedState, σ.SameFleet σ' →
      (∀ role d, pickExcluding hash σ' key role exclude = .ok d →
        σ'.Passes key.model exclude role none d.node) ∧
      ∀ p d, pickPair hash σ' key prefillRole decodeRole exclude = .ok (p, d) →
        σ'.Passes key.model exclude prefillRole none p.node ∧
          σ'.Passes key.model exclude decodeRole (some p.node.nodeId) d.node) ↔
    ¬ ∃ p d, σ.Mispairs key.model exclude prefillRole decodeRole p d := by
  constructor
  · rintro hpasses ⟨p, d, h⟩
    obtain ⟨σ', hsame, p', d', hpair, hunfit⟩ := exists_pair_unfit hash h
    exact hunfit ((hpasses σ' hsame).2 p' d' hpair).2.fit
  · intro hnone σ' hsame
    refine ⟨fun role d h => pickExcluding_passes h, fun p d h => ?_⟩
    obtain ⟨hp, hd⟩ := pickPair_passes h
    exact ⟨hp, hd fun hmis => hnone ⟨_, _, hsame.symm.mispairs hmis⟩⟩

/-! ## A decode node with too little VRAM -/

/-- A report of nothing. -/
def silentReport : NodeReport where
  address := ""
  queueDepth := 0
  freeBlocks := 0
  totalBlocks := 0
  powerWatts := 0
  wattLimit := 0
  gpuName := ""
  gpuVendor := ""
  vramTotalMb := 0

/-- An idle router over the given fleet. -/
def idleState (nodes : NodeRegistry) (models : String → Option ModelConfig)
    (reports : String → NodeReport) : SharedState where
  nodes := nodes
  reports := reports
  models := models
  disagg := ⟨true, 0⟩
  policy := ⟨0, 0, 0, 0, 0⟩
  index := PrefixIndex.new 0
  clock := 0
  nodeInflight := fun _ => 0

/-- A ready node of the given role that serves the model `m`. -/
def readyNode (id : String) (role : Int) : NodeEntry where
  nodeId := id
  role := role
  model := some "m"
  cordoned := false
  ready := true
  draining := false
  adapters := []

/-- One prefill node and one decode node. -/
def splitFleet : NodeRegistry :=
  (NodeRegistry.new.upsert (readyNode "p" 1)).upsert (readyNode "d" 2)

theorem get_splitFleet (id : String) :
    splitFleet.get id = if id = "d" then some (readyNode "d" 2) else
      if id = "p" then some (readyNode "p" 1) else none := by
  unfold splitFleet
  rw [NodeRegistry.get_upsert, NodeRegistry.get_upsert]
  rfl

/-- A request for the model `m`. -/
def plainKey (tokenIds : List UInt32) : RouteKey where
  model := "m"
  salt := "m"
  session := none
  tokenIds := tokenIds

/-- Both nodes of the fleet, the decode node with 1 MiB, and `min_vram_mb = 2`. -/
def smallDecode : SharedState :=
  idleState splitFleet (fun _ => some ⟨some 2, none⟩) fun id =>
    if id = "d" then { silentReport with vramTotalMb := 1 } else silentReport

theorem smallDecode_paired :
    (pickPair (fun _ => zeroDigest) smallDecode (plainKey []) .prefill .decode []).toOption.map
        (fun pd => (pd.1.node.nodeId, pd.2.node.nodeId)) = some ("p", "d") := by
  decide +kernel

/-- With `min_vram_mb = 2`, a decode node that reports 1 MiB is paired. -/
theorem decode_node_unfit :
    ¬ ∀ (hash : List UInt8 → Digest) (σ : SharedState) (key : RouteKey) (exclude : List String),
      (∀ role d, pickExcluding hash σ key role exclude = .ok d →
        σ.Passes key.model exclude role none d.node) ∧
      ∀ p d, pickPair hash σ key .prefill .decode exclude = .ok (p, d) →
        σ.Passes key.model exclude .prefill none p.node ∧
          σ.Passes key.model exclude .decode (some p.node.nodeId) d.node := by
  intro hpasses
  have hids := smallDecode_paired
  cases hpair : pickPair (fun _ => zeroDigest) smallDecode (plainKey []) .prefill .decode [] with
  | error e =>
    rw [hpair] at hids
    cases hids
  | ok pd =>
    have hvram := ((hpasses _ smallDecode (plainKey []) []).2 _ _ hpair).2.fit.vram
      ⟨some 2, none⟩ 2 rfl rfl
    rw [hpair] at hids
    rw [(Prod.mk.inj (Option.some.inj hids)).2] at hvram
    exact absurd (hvram (by decide)) (by decide)

end Cognitora.Router
