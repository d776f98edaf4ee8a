/-
  Roles of the nodes a request goes to (cgn-router `src/gateway/generate.rs`,
  `src/routing/grpc.rs`, `src/disagg.rs`).

  `generation_nodes_iff`: over all reports, model configurations and call outcomes, generation
  goes to nodes of role Decode or Both only, from the HTTP gateway exactly if the prompt is not
  split, or some decode candidate is left, or no prefill candidate is; from the gRPC surface,
  which sends a split prompt to its prefill pick, exactly if the prompt is not split or every
  prefill candidate has role Both. `routing_succeeds_iff`: with a routable prefill node and a
  routable decode node and no capability constraints, routing succeeds exactly if the prompt is
  split or some routable node has role Both.
-/
import Cognitora.Router.Dispatch
import Cognitora.Router.Filters

namespace Cognitora.Router

open Cognitora.Lib Cognitora.Core SharedState

/-- The prompt is split between two nodes. -/
def Split (disagg : DisaggConfig) (key : RouteKey) : Prop :=
  disagg.enabled = true ∧ disagg.colocateBelowTokens ≤ UInt32.ofNat key.tokenIds.length

/-- The node may generate. -/
def DecodeCapable (n : NodeEntry) : Prop :=
  n.roleEnum = .decode ∨ n.roleEnum = .both

section

variable {hash : List UInt8 → Digest} {σ : SharedState} {key : RouteKey} {exclude : List String}
  {limits : DeadlineConfig} {req : GenerateRequest} {env : Outcomes}

theorem plan_of_split (h : Split σ.disagg key) :
    plan σ.disagg.enabled σ.disagg.colocateBelowTokens (UInt32.ofNat key.tokenIds.length) =
      .split .prefill .decode := by
  unfold plan
  rw [h.1, if_neg]
  simp [UInt32.not_lt.mpr h.2]

theorem plan_of_not_split (h : ¬ Split σ.disagg key) :
    plan σ.disagg.enabled σ.disagg.colocateBelowTokens (UInt32.ofNat key.tokenIds.length) =
      .colocate := by
  unfold plan
  rw [if_pos]
  rw [Bool.or_eq_true, Bool.not_eq_true', decide_eq_true_eq, ← Bool.not_eq_true]
  by_cases hen : σ.disagg.enabled = true
  · exact Or.inr (UInt32.not_le.mp fun hle => h ⟨hen, hle⟩)
  · exact Or.inl hen

/-- Without a split both nodes are the pick for role Both. -/
theorem routeOnce_of_not_split (h : ¬ Split σ.disagg key) {p d : RoutingDecision}
    (hroute : routeOnce hash σ key exclude = .ok (p, d)) :
    pickExcluding hash σ key .both exclude = .ok d ∧ p = d := by
  unfold routeOnce at hroute
  rw [plan_of_not_split h] at hroute
  dsimp only at hroute
  split at hroute
  · cases hroute
  · next hpick =>
    cases hroute
    exact ⟨hpick, rfl⟩

theorem routeOnce_of_split (h : Split σ.disagg key) :
    routeOnce hash σ key exclude = pickPair hash σ key .prefill .decode exclude := by
  unfold routeOnce
  rw [plan_of_split h]

theorem prefillOnly_of_runPrefill {node : NodeEntry} {call : PrefillCall} {r : AgentRequest}
    (h : r ∈ (runPrefill node call).sent) : r.prefillOnly = true := by
  cases call with
  | connectFailed => cases h
  | callFailed => rw [List.mem_singleton.mp h]
  | answered item => rw [List.mem_singleton.mp h]

/-- An attempt sends its prefill call, then one request to the decode node. -/
theorem mem_sent_callNodes {p d : RoutingDecision} {r : AgentRequest}
    (h : r ∈ (callNodes σ p d env).sent) :
    r ∈ (runPrefill p.node env.prefill).sent ∨ r.node = d.node := by
  unfold callNodes at h
  dsimp only at h
  generalize hpre : (if (p.node.nodeId != d.node.nodeId) = true then
      runPrefill p.node env.prefill else .skipped) = pre at h
  have hprefill : r ∈ pre.sent → r ∈ (runPrefill p.node env.prefill).sent := by
    intro hr
    rw [← hpre] at hr
    split at hr
    · exact hr
    · cases hr
  have hboth : ∀ request : AgentRequest, request.node = d.node → r ∈ pre.sent ++ [request] →
      r ∈ (runPrefill p.node env.prefill).sent ∨ r.node = d.node := by
    intro request hnode hr
    rcases List.mem_append.mp hr with hr | hr
    · exact Or.inl (hprefill hr)
    · rw [List.mem_singleton.mp hr]
      exact Or.inr hnode
  split at h
  · exact Or.inl (hprefill h)
  · split at h
    · exact hboth _ rfl h
    · exact hboth _ rfl h

/-- Generation goes to the decode node of the routing step. -/
theorem mem_sent_dispatchOnce {r : AgentRequest}
    (h : r ∈ (dispatchOnce hash limits σ req key exclude env).sent) (hgen : r.prefillOnly = false) :
    ∃ p d, routeOnce hash σ key exclude = .ok (p, d) ∧ r.node = d.node := by
  unfold dispatchOnce at h
  split at h
  · cases h
  · next p d hroute =>
    refine ⟨p, d, hroute, ?_⟩
    split at h
    · cases h
    · cases h
    · rcases mem_sent_callNodes h with hpre | hnode
      · rw [prefillOnly_of_runPrefill hpre] at hgen
        exact absurd hgen (by simp)
      · exact hnode

/-- No deadline admission. -/
def lenient : DeadlineConfig where
  deadlineAdmission := false
  ttftSloMs := 0
  maxConcurrentPerReplica := 0

/-- Every call succeeds. -/
def smooth : Outcomes where
  prefill := .answered none
  connect := none
  call := none

/-- When nothing fails, the decode node of the routing step is asked to generate. -/
theorem exists_sent_dispatchOnce (req : GenerateRequest) {p d : RoutingDecision}
    (hroute : routeOnce hash σ key exclude = .ok (p, d)) :
    ∃ r ∈ (dispatchOnce hash lenient σ req key exclude smooth).sent,
      r.prefillOnly = false ∧ r.node = d.node := by
  unfold dispatchOnce
  rw [hroute]
  exact ⟨_, List.mem_append_right _ (List.mem_singleton.mpr rfl), rfl, rfl⟩

/-- The role the gRPC surface picks for. -/
theorem forward_sent {r : AgentRequest} (h : r ∈ (forward hash σ key env).sent) :
    ∃ d, r.node = d.node ∧ (Split σ.disagg key ∧ pickExcluding hash σ key .prefill [] = .ok d ∨
      ¬ Split σ.disagg key ∧ pickExcluding hash σ key .both [] = .ok d) := by
  unfold forward pick at h
  dsimp only at h
  split at h
  · cases h
  · next d hpick =>
    have hnode : r.node = d.node := by
      split at h
      · cases h
      · split at h
        · rw [List.mem_singleton.mp h]
        · rw [List.mem_singleton.mp h]
    refine ⟨d, hnode, ?_⟩
    split at hpick
    · next hsplit =>
      rw [Bool.and_eq_true, decide_eq_true_eq] at hsplit
      exact Or.inl ⟨hsplit, hpick⟩
    · next hsplit =>
      rw [Bool.and_eq_true, decide_eq_true_eq] at hsplit
      exact Or.inr ⟨hsplit, hpick⟩

theorem exists_sent_forward (hsplit : Split σ.disagg key) {d : RoutingDecision}
    (hpick : pickExcluding hash σ key .prefill [] = .ok d) :
    ∃ r ∈ (forward hash σ key smooth).sent, r.prefillOnly = false ∧ r.node = d.node := by
  have hrole : (σ.disagg.enabled &&
      decide (UInt32.ofNat key.tokenIds.length ≥ σ.disagg.colocateBelowTokens)) = true := by
    rw [Bool.and_eq_true, decide_eq_true_eq]
    exact hsplit
  unfold forward pick
  dsimp only
  rw [if_pos hrole, hpick]
  exact ⟨_, List.mem_singleton.mpr rfl, rfl, rfl⟩

end

/-! ## Roles of picked nodes -/

section

variable {nodes : NodeRegistry} {model : String} {n : NodeEntry}

theorem role_of_mem_nodesFor {role : NodeRole} (hrole : role ≠ .unspecified)
    (h : n ∈ nodes.nodesFor role (some model)) : n.roleEnum = role ∨ n.roleEnum = .both := by
  have hmatch := (NodeRegistry.mem_nodesFor.mp h).2.2
  unfold NodeEntry.matchesRequest at hmatch
  simp only [Bool.and_eq_true, Bool.or_eq_true, beq_iff_eq] at hmatch
  rcases hmatch.1 with (hun | heq) | hboth
  · exact absurd hun hrole
  · exact Or.inl heq
  · exact Or.inr hboth

/-- A node of role Both is a candidate for every role. -/
theorem mem_nodesFor_of_both {role : NodeRole} (role' : NodeRole)
    (h : n ∈ nodes.nodesFor role (some model)) (hboth : n.roleEnum = .both) :
    n ∈ nodes.nodesFor role' (some model) := by
  obtain ⟨hget, hroutable, hmatch⟩ := NodeRegistry.mem_nodesFor.mp h
  refine NodeRegistry.mem_nodesFor.mpr ⟨hget, hroutable, ?_⟩
  unfold NodeEntry.matchesRequest at hmatch ⊢
  rw [Bool.and_eq_true] at hmatch ⊢
  exact ⟨by simp [hboth], hmatch.2⟩

end

/-! ## Where generation goes -/

/-- A split prompt goes whole to a prefill node when no decode candidate is left. -/
theorem gateway_falls_back (hash : List UInt8 → Digest) (nodes : NodeRegistry)
    (disagg : DisaggConfig) (key : RouteKey) (exclude : List String) (req : GenerateRequest)
    (hsplit : Split disagg key)
    (hdecode : ¬ ∃ n ∈ nodes.nodesFor .decode (some key.model), n.nodeId ∉ exclude)
    (hprefill : ∃ n ∈ nodes.nodesFor .prefill (some key.model), n.nodeId ∉ exclude) :
    ∃ σ : SharedState, σ.nodes = nodes ∧ σ.disagg = disagg ∧
      ∃ r ∈ (dispatchOnce hash lenient σ req key exclude smooth).sent,
        r.prefillOnly = false ∧ ¬ DecodeCapable r.node := by
  let σ : SharedState := { idleState nodes (fun _ => none) fun _ => silentReport with disagg }
  have hcap : ∀ n, σ.capable key.model n = true := fun _ => rfl
  obtain ⟨n, hn, hnex⟩ := hprefill
  obtain ⟨⟨p, d⟩, hpair⟩ := (pickPair_isOk_iff hash σ key .prefill .decode exclude).mpr
    (List.ne_nil_of_mem (mem_candidates.mpr ⟨hn, hnex, hcap n⟩))
  obtain ⟨hpick, _, hor⟩ := pickPair_ok hpair
  have hp := mem_candidates.mp (mem_of_mem_retainIfAny (pickExcluding_ok hpick).1)
  have hrole : p.node.roleEnum = .prefill := by
    rcases role_of_mem_nodesFor (by simp) hp.1 with h | h
    · exact h
    · exact absurd ⟨p.node, mem_nodesFor_of_both .decode hp.1 h, hp.2.1⟩ hdecode
  have hd : d = p := by
    rcases hor with ⟨_, heq⟩ | hmem
    · exact heq
    · obtain ⟨hdn, _, hdex⟩ := mem_distinct.mp (mem_of_mem_retainIfAny hmem)
      exact absurd ⟨d.node, hdn, hdex⟩ hdecode
  rw [hd] at hpair
  have hroute : routeOnce hash σ key exclude = .ok (p, p) :=
    (routeOnce_of_split (show Split σ.disagg key from hsplit)).trans hpair
  obtain ⟨r, hr, hgen, hnode⟩ := exists_sent_dispatchOnce req hroute
  refine ⟨σ, rfl, rfl, r, hr, hgen, ?_⟩
  unfold DecodeCapable
  rw [hnode, hrole]
  simp

/-- The model asks for 2 MiB, and every node but `n` reports less. -/
def onlyState (nodes : NodeRegistry) (n : NodeEntry) : SharedState :=
  idleState nodes (fun _ => some ⟨some 2, none⟩) fun id =>
    if id = n.nodeId then silentReport else { silentReport with vramTotalMb := 1 }

theorem capable_onlyState (nodes : NodeRegistry) (model : String) (n m : NodeEntry) :
    (onlyState nodes n).capable model m = true ↔ m.nodeId = n.nodeId := by
  unfold onlyState idleState capable
  by_cases h : m.nodeId = n.nodeId
  · simp [h, silentReport, NodeReport.meetsVram]
  · simp [h, silentReport, NodeReport.meetsVram]

/-- The gRPC surface sends a split prompt to a prefill node. -/
theorem grpc_generates_on_prefill (hash : List UInt8 → Digest) (nodes : NodeRegistry)
    (disagg : DisaggConfig) (key : RouteKey) (hsplit : Split disagg key) {n : NodeEntry}
    (hn : n ∈ nodes.nodesFor .prefill (some key.model)) (hrole : n.roleEnum ≠ .both) :
    ∃ σ : SharedState, σ.nodes = nodes ∧ σ.disagg = disagg ∧
      ∃ r ∈ (forward hash σ key smooth).sent, r.prefillOnly = false ∧ ¬ DecodeCapable r.node := by
  let σ : SharedState := { onlyState nodes n with disagg }
  have hcap : ∀ m, σ.capable key.model m = true ↔ m.nodeId = n.nodeId :=
    capable_onlyState nodes key.model n
  obtain ⟨d, hpick⟩ := (pickExcluding_isOk_iff hash σ key .prefill []).mpr
    (List.ne_nil_of_mem (mem_candidates.mpr ⟨hn, List.not_mem_nil, (hcap n).mpr rfl⟩))
  have hd := mem_candidates.mp (mem_of_mem_retainIfAny (pickExcluding_ok hpick).1)
  have hid : d.node.nodeId = n.nodeId := (hcap d.node).mp hd.2.2
  have hnode : d.node = n := by
    have hget := (NodeRegistry.mem_nodesFor.mp hd.1).1
    rw [hid, show σ.nodes.get n.nodeId = some n from (NodeRegistry.mem_nodesFor.mp hn).1] at hget
    exact (Option.some.inj hget).symm
  obtain ⟨q, hq, hgen, hqn⟩ := exists_sent_forward (show Split σ.disagg key from hsplit) hpick
  refine ⟨σ, rfl, rfl, q, hq, hgen, ?_⟩
  unfold DecodeCapable
  rw [hqn, hnode]
  rcases role_of_mem_nodesFor (by simp) hn with h | h
  · rw [h]
    simp
  · exact absurd h hrole

theorem decodeCapable_dispatchOnce {hash : List UInt8 → Digest} {σ : SharedState}
    {key : RouteKey} {exclude : List String} {limits : DeadlineConfig} {req : GenerateRequest}
    {env : Outcomes} (hcond : ¬ Split σ.disagg key ∨
      (∃ n ∈ σ.nodes.nodesFor .decode (some key.model), n.nodeId ∉ exclude) ∨
        ¬ ∃ n ∈ σ.nodes.nodesFor .prefill (some key.model), n.nodeId ∉ exclude)
    {r : AgentRequest} (h : r ∈ (dispatchOnce hash limits σ req key exclude env).sent)
    (hgen : r.prefillOnly = false) : DecodeCapable r.node := by
  obtain ⟨p, d, hroute, hnode⟩ := mem_sent_dispatchOnce h hgen
  rw [hnode]
  by_cases hsplit : Split σ.disagg key
  · rw [routeOnce_of_split hsplit] at hroute
    obtain ⟨hpick, _, hor⟩ := pickPair_ok hroute
    have hp := mem_candidates.mp (mem_of_mem_retainIfAny (pickExcluding_ok hpick).1)
    rcases hor with ⟨hnone, heq⟩ | hmem
    · -- the fallback: the decode candidate that is left can only be the prefill node
      rcases hcond with hns | ⟨n, hn, hnex⟩ | hno
      · exact absurd hsplit hns
      · have hid : n.nodeId = p.node.nodeId := by
          by_contra hne
          have hmem := mem_distinct.mpr ⟨hn, hne, hnex⟩
          rw [hnone] at hmem
          exact absurd hmem List.not_mem_nil
        have hget := (NodeRegistry.mem_nodesFor.mp hn).1
        rw [hid, (NodeRegistry.mem_nodesFor.mp hp.1).1] at hget
        rw [heq, Option.some.inj hget]
        exact role_of_mem_nodesFor (by simp) hn
      · exact absurd ⟨p.node, hp.1, hp.2.1⟩ hno
    · exact role_of_mem_nodesFor (by simp) (mem_distinct.mp (mem_of_mem_retainIfAny hmem)).1
  · have hpick := (routeOnce_of_not_split hsplit hroute).1
    have hd := mem_candidates.mp (mem_of_mem_retainIfAny (pickExcluding_ok hpick).1)
    rcases role_of_mem_nodesFor (by simp) hd.1 with h | h
    · exact Or.inr h
    · exact Or.inr h

theorem decodeCapable_forward {hash : List UInt8 → Digest} {σ : SharedState} {key : RouteKey}
    {env : Outcomes} (hcond : ¬ Split σ.disagg key ∨
      ∀ n ∈ σ.nodes.nodesFor .prefill (some key.model), n.roleEnum = .both)
    {r : AgentRequest} (h : r ∈ (forward hash σ key env).sent) : DecodeCapable r.node := by
  obtain ⟨d, hnode, hpick⟩ := forward_sent h
  rw [hnode]
  rcases hpick with ⟨hsplit, hpick⟩ | ⟨_, hpick⟩
  · have hd := mem_candidates.mp (mem_of_mem_retainIfAny (pickExcluding_ok hpick).1)
    rcases hcond with hns | hboth
    · exact absurd hsplit hns
    · exact Or.inr (hboth d.node hd.1)
  · have hd := mem_candidates.mp (mem_of_mem_retainIfAny (pickExcluding_ok hpick).1)
    rcases role_of_mem_nodesFor (by simp) hd.1 with h | h
    · exact Or.inr h
    · exact Or.inr h

/-- For a registry, a disaggregation setting, a request and an exclude list: generation goes to
    nodes of role Decode or Both only, whatever the nodes report, the models are configured to
    require and the calls come to, exactly if the stated nodes are there. -/
theorem generation_nodes_iff (hash : List UInt8 → Digest) (nodes : NodeRegistry)
    (disagg : DisaggConfig) (key : RouteKey) (exclude : List String) :
    ((∀ σ : SharedState, σ.nodes = nodes → σ.disagg = disagg → ∀ limits req env,
        ∀ r ∈ (dispatchOnce hash limits σ req key exclude env).sent, r.prefillOnly = false →
          DecodeCapable r.node) ↔
      ¬ Split disagg key ∨ (∃ n ∈ nodes.nodesFor .decode (some key.model), n.nodeId ∉ exclude) ∨
        ¬ ∃ n ∈ nodes.nodesFor .prefill (some key.model), n.nodeId ∉ exclude) ∧
    ((∀ σ : SharedState, σ.nodes = nodes → σ.disagg = disagg → ∀ env,
        ∀ r ∈ (forward hash σ key env).sent, r.prefillOnly = false → DecodeCapable r.node) ↔
      ¬ Split disagg key ∨
        ∀ n ∈ nodes.nodesFor .prefill (some key.model), n.roleEnum = .both) := by
  refine ⟨⟨fun hall => ?_, fun hcond => ?_⟩, ⟨fun hall => ?_, fun hcond => ?_⟩⟩
  · by_contra hcond
    rw [not_or, not_or, not_not, not_not] at hcond
    obtain ⟨σ, hnodes, hdis, r, hr, hgen, hbad⟩ := gateway_falls_back hash nodes disagg key exclude
      ⟨0, none⟩ hcond.1 hcond.2.1 hcond.2.2
    exact hbad (hall σ hnodes hdis _ _ _ r hr hgen)
  · rintro σ rfl rfl limits req env r hr hgen
    exact decodeCapable_dispatchOnce hcond hr hgen
  · by_contra hcond
    rw [not_or, not_not] at hcond
    obtain ⟨hsplit, hnot⟩ := hcond
    obtain ⟨n, hn⟩ := not_forall.mp hnot
    rw [Classical.not_imp] at hn
    obtain ⟨σ, hnodes, hdis, r, hr, hgen, hbad⟩ :=
      grpc_generates_on_prefill hash nodes disagg key hsplit hn.1 hn.2
    exact hbad (hall σ hnodes hdis _ r hr hgen)
  · rintro σ rfl rfl env r hr _
    exact decodeCapable_forward hcond hr

/-- One prefill node and a split prompt: both surfaces generate on the prefill node. -/
theorem prefill_node_generates :
    ¬ ∀ (hash : List UInt8 → Digest) (σ : SharedState) (key : RouteKey) (exclude : List String)
      (limits : DeadlineConfig) (req : GenerateRequest) (env : Outcomes),
      (∀ r ∈ (dispatchOnce hash limits σ req key exclude env).sent, r.prefillOnly = false →
        DecodeCapable r.node) ∧
      ∀ r ∈ (forward hash σ key env).sent, r.prefillOnly = false → DecodeCapable r.node := by
  intro hall
  have hn : readyNode "p" 1 ∈
      (NodeRegistry.new.upsert (readyNode "p" 1)).nodesFor .prefill (some "m") :=
    NodeRegistry.mem_nodesFor.mpr ⟨by rw [NodeRegistry.get_upsert]; rfl, by decide, by decide⟩
  obtain ⟨σ, _, _, r, hr, hgen, hbad⟩ := grpc_generates_on_prefill (fun _ => zeroDigest)
    (NodeRegistry.new.upsert (readyNode "p" 1)) ⟨true, 1⟩ (plainKey [7]) ⟨rfl, by decide⟩ hn
    (by decide)
  exact hbad ((hall _ σ _ [] lenient ⟨0, none⟩ smooth).2 r hr hgen)

/-! ## Whether routing finds nodes -/

/-- A registered node that takes new traffic for the model. -/
structure Serving (nodes : NodeRegistry) (model : String) (role : NodeRole) (n : NodeEntry) :
    Prop where
  registered : nodes.get n.nodeId = some n
  ready : n.ready = true
  not_cordoned : n.cordoned = false
  not_draining : n.draining = false
  serves : n.serves model = true
  role : n.roleEnum = role

theorem Serving.mem_nodesFor {nodes : NodeRegistry} {model : String} {role : NodeRole}
    {n : NodeEntry} (h : Serving nodes model role n) :
    n ∈ nodes.nodesFor role (some model) := by
  refine NodeRegistry.mem_nodesFor.mpr ⟨h.registered, ?_, ?_⟩
  · rw [routable_iff]
    exact ⟨h.not_cordoned, h.not_draining, h.ready⟩
  · unfold NodeEntry.matchesRequest
    simp [h.role, h.serves]

theorem serving_of_mem_nodesFor {nodes : NodeRegistry} {model : String} {n : NodeEntry}
    (h : n ∈ nodes.nodesFor .both (some model)) : Serving nodes model .both n := by
  obtain ⟨hget, hroutable, hmatch⟩ := NodeRegistry.mem_nodesFor.mp h
  obtain ⟨hc, hd, hr⟩ := routable_iff.mp hroutable
  refine ⟨hget, hr, hc, hd, ?_, ?_⟩
  · unfold NodeEntry.matchesRequest at hmatch
    rw [Bool.and_eq_true] at hmatch
    exact hmatch.2
  · rcases role_of_mem_nodesFor (by simp) h with h | h
    · exact h
    · exact h

theorem routeOnce_isOk_iff (hash : List UInt8 → Digest) (σ : SharedState) (key : RouteKey)
    (exclude : List String) :
    (∃ pd, routeOnce hash σ key exclude = .ok pd) ↔
      Split σ.disagg key ∧ σ.candidates key.model .prefill exclude ≠ [] ∨
        ¬ Split σ.disagg key ∧ σ.candidates key.model .both exclude ≠ [] := by
  by_cases hsplit : Split σ.disagg key
  · rw [routeOnce_of_split hsplit, pickPair_isOk_iff]
    simp [hsplit]
  · rw [← pickExcluding_isOk_iff hash σ key .both]
    simp only [hsplit, false_and, not_false_eq_true, true_and, false_or]
    unfold routeOnce
    rw [plan_of_not_split hsplit]
    dsimp only
    cases pickExcluding hash σ key .both exclude with
    | error e => simp
    | ok d => simp

/-- With disaggregation on, no capability constraints, and a prefill node that takes traffic,
    routing finds nodes exactly if the prompt is long enough to be split or some node that
    takes traffic has role Both. -/
theorem routing_succeeds_iff (hash : List UInt8 → Digest) (σ : SharedState) (key : RouteKey)
    (hen : σ.disagg.enabled = true)
    (hfree : ∀ mc, σ.models key.model = some mc → mc.minVramMb = none ∧ mc.requireGpu = none)
    (hprefill : ∃ n, Serving σ.nodes key.model .prefill n) :
    (∃ pd, routeOnce hash σ key [] = .ok pd) ↔
      σ.disagg.colocateBelowTokens ≤ UInt32.ofNat key.tokenIds.length ∨
        ∃ n, Serving σ.nodes key.model .both n := by
  have hcap : ∀ n, σ.capable key.model n = true := by
    intro n
    refine capable_iff.mpr ⟨fun mc _ hmc hmin => ?_, fun mc _ hmc hreq => ?_⟩
    · rw [(hfree mc hmc).1] at hmin
      cases hmin
    · rw [(hfree mc hmc).2] at hreq
      cases hreq
  have hcands : ∀ {role n}, Serving σ.nodes key.model role n →
      σ.candidates key.model role [] ≠ [] := fun {_ n} hn =>
    List.ne_nil_of_mem (mem_candidates.mpr ⟨hn.mem_nodesFor, List.not_mem_nil, hcap n⟩)
  rw [routeOnce_isOk_iff]
  constructor
  · rintro (⟨hsplit, _⟩ | ⟨_, hboth⟩)
    · exact Or.inl hsplit.2
    · obtain ⟨n, hn⟩ := List.exists_mem_of_ne_nil _ hboth
      exact Or.inr ⟨n, serving_of_mem_nodesFor (mem_candidates.mp hn).1⟩
  · intro h
    by_cases hsplit : Split σ.disagg key
    · obtain ⟨n, hn⟩ := hprefill
      exact Or.inl ⟨hsplit, hcands hn⟩
    · rcases h with hle | ⟨n, hn⟩
      · exact absurd ⟨hen, hle⟩ hsplit
      · exact Or.inr ⟨hsplit, hcands hn⟩

/-- The fleet of one prefill and one decode node, which splits prompts of at least `below`
    tokens. -/
def splitState (below : UInt32) : SharedState :=
  { idleState splitFleet (fun _ => none) fun _ => silentReport with disagg := ⟨true, below⟩ }

theorem splitFleet_serves :
    Serving splitFleet "m" .prefill (readyNode "p" 1) ∧
      Serving splitFleet "m" .decode (readyNode "d" 2) :=
  ⟨⟨by rw [get_splitFleet]; rfl, rfl, rfl, rfl, by decide, by decide⟩,
    ⟨by rw [get_splitFleet]; rfl, rfl, rfl, rfl, by decide, by decide⟩⟩

/-- A prompt of as many tokens as `colocate_below_tokens` is split. -/
theorem routing_succeeds_split :
    (splitState 2).disagg.enabled = true ∧
      (∀ mc, (splitState 2).models "m" = some mc → mc.minVramMb = none ∧ mc.requireGpu = none) ∧
      (∃ n, Serving (splitState 2).nodes "m" .prefill n) ∧
      ∃ pd, routeOnce (fun _ => zeroDigest) (splitState 2) (plainKey [7, 8]) [] = .ok pd :=
  ⟨rfl, fun _ h => absurd h (by simp [splitState, idleState]), ⟨_, splitFleet_serves.1⟩,
    (routing_succeeds_iff _ (splitState 2) (plainKey [7, 8]) rfl
      (fun _ h => absurd h (by simp [splitState, idleState])) ⟨_, splitFleet_serves.1⟩).mpr
      (Or.inl (by decide))⟩

/-- A prompt below the threshold finds no node of role Both. -/
theorem short_prompt_unavailable :
    ¬ ∀ (hash : List UInt8 → Digest) (σ : SharedState) (key : RouteKey),
      σ.disagg.enabled = true →
      (∀ mc, σ.models key.model = some mc → mc.minVramMb = none ∧ mc.requireGpu = none) →
      (∃ n, Serving σ.nodes key.model .prefill n) → (∃ n, Serving σ.nodes key.model .decode n) →
      ∃ pd, routeOnce hash σ key [] = .ok pd := by
  intro hall
  have hroute := hall (fun _ => zeroDigest) (splitState 1) (plainKey []) rfl
    (fun _ h => absurd h (by simp [splitState, idleState])) ⟨_, splitFleet_serves.1⟩
    ⟨_, splitFleet_serves.2⟩
  rcases (routeOnce_isOk_iff _ _ _ _).mp hroute with ⟨hsplit, _⟩ | ⟨_, hboth⟩
  · exact absurd hsplit.2 (by decide)
  · obtain ⟨n, hn⟩ := List.exists_mem_of_ne_nil _ hboth
    have hserving := serving_of_mem_nodesFor (mem_candidates.mp hn).1
    have hget : splitFleet.get n.nodeId = some n := hserving.registered
    rw [get_splitFleet] at hget
    split at hget
    · cases hget
      exact absurd hserving.role (by decide)
    · split at hget
      · cases hget
        exact absurd hserving.role (by decide)
      · cases hget

end Cognitora.Router
