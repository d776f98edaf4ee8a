/-
  The closed loop of the energy-aware autoscaler: the router's tick writes drain hints
  (`Router.Autoscaler`), the operator's tick turns them into cordons (cgn-operator
  `src/autoscaler.rs`, `tick`), and the router's cordon watch sets the flags of its registry.

  Neither tick looks at models. `keeps_models_served_iff`: from a registry without cordons,
  every run leaves every model that has a ready, non-draining node one that is not cordoned
  exactly if every such model has one that no tick can drain.

  `Loop.feed` are the cordon events etcd has for the watch, oldest first. A tick of the
  operator takes the hints in some order, each of them touches its node's key only; it may
  stop after any number of them, because its calls to etcd fail.
-/
import Cognitora.Lib.Dict
import Cognitora.Operator.Cordons
import Cognitora.Router.Autoscaler
import Cognitora.Router.Cordon

namespace Cognitora.Operator

open Cognitora.Core Cognitora.Router

structure Loop (K : Type*) where
  router : TickState K
  /-- The hints in etcd by node. -/
  hints : AList fun _ : String => Hint
  /-- The cordon values in etcd by node. -/
  cordons : String → Option Json
  feed : List WatchEvent

inductive LoopAct where
  /-- A tick of the router; `nodes` is the snapshot. -/
  | routerTick (nodes : List String) (env : TickEnv)
  /-- A tick of the operator that gets to the first `applied` hints. -/
  | operatorTick (applied : Nat) (stamp : String → String)
  /-- The watch processes its next event. -/
  | watch

namespace Loop

section

variable {K : Type*}

/-- No hints and no cordons yet. -/
def start (σ : TickState K) : Loop K where
  router := σ
  hints := ∅
  cordons := fun _ => none
  feed := []

/-- An uninterrupted `apply_hint`. -/
def apply (w : Loop K) (node : String) (hint : Hint) (stamp : String) : Loop K :=
  match applyHint (w.cordons node) hint stamp with
  | .nothing => w
  | .put value => { w with
      cordons := Function.update w.cordons node (some value)
      feed := w.feed ++ [.cordonPut node] }
  | .delete => { w with
      cordons := Function.update w.cordons node none
      feed := w.feed ++ [.cordonDelete node] }

/-- The loop of the operator's tick over some hints. -/
def applyAll (stamp : String → String) (w : Loop K) (hints : List (Sigma fun _ : String => Hint)) :
    Loop K :=
  hints.foldl (fun w e => w.apply e.1 e.2 (stamp e.1)) w

def watch (w : Loop K) : Loop K :=
  match w.feed with
  | [] => w
  | ev :: rest => { w with
      router := { w.router with nodes := ev.apply w.router.nodes }
      feed := rest }

variable [Add K] [Mul K] [Div K] [Min K] [NatCast K] [LT K] [DecidableLT K]
  (fmt : Nat → K → String)

/-- The router's loop runs only if the autoscaler is enabled. -/
def routerTick (w : Loop K) (nodes : List String) (env : TickEnv) : Loop K :=
  if w.router.autoscaler.enabled = true ∧ nodes.Perm w.router.nodes.ids then
    match w.router.tick fmt nodes env with
    | .ok hints => { w with
        hints := hints.foldl (fun m x => m.insert x.1 ⟨x.2.drain, x.2.reason⟩) w.hints }
    | .error _ => w
  else w

def step (w : Loop K) : LoopAct → Loop K
  | .routerTick nodes env => w.routerTick fmt nodes env
  | .operatorTick applied stamp =>
    if w.router.etcdEndpoints.isEmpty then w
    else w.applyAll stamp (w.hints.entries.take applied)
  | .watch => w.watch

def run (σ : TickState K) (acts : List LoopAct) : Loop K :=
  acts.foldl (step fmt) (start σ)

end

/-! ## Models and the nodes that serve them -/

/-- A ready, non-draining node that serves `model`. -/
def Available (r : NodeRegistry) (model id : String) : Prop :=
  ∃ n, r.get id = some n ∧ n.ready = true ∧ n.draining = false ∧ n.serves model = true

/-- The registry has the node and it is cordoned. -/
def Cordoned (r : NodeRegistry) (id : String) : Prop :=
  ∃ n, r.get id = some n ∧ n.cordoned = true

/-- Every model with an available node has one that is not cordoned. -/
def Served (r : NodeRegistry) : Prop :=
  ∀ model, (∃ id, Available r model id) → ∃ id, Available r model id ∧ ¬ Cordoned r id

theorem available_setCordon (r : NodeRegistry) (id : String) (cordoned : Bool)
    (model j : String) : Available (r.setCordon id cordoned) model j ↔ Available r model j := by
  unfold Available
  rw [NodeRegistry.get_setCordon]
  split
  · next h =>
    subst h
    cases r.get j with
    | none => simp
    | some n => simp [NodeEntry.serves]
  · rfl

theorem cordoned_setCordon (r : NodeRegistry) (id : String) (cordoned : Bool) (j : String)
    (h : Cordoned (r.setCordon id cordoned) j) :
    j = id ∧ cordoned = true ∨ Cordoned r j := by
  obtain ⟨n, hn, hc⟩ := h
  rw [NodeRegistry.get_setCordon] at hn
  split at hn
  · next hj =>
    obtain ⟨m, _, rfl⟩ := Option.map_eq_some_iff.mp hn
    exact Or.inl ⟨hj, hc⟩
  · exact Or.inr ⟨n, hn, hc⟩

/-- Cordoning some nodes cordons those of them that are registered. -/
theorem cordoned_foldl (nodes : List String) (r : NodeRegistry) {id : String} {n : Router.NodeEntry}
    (hn : r.get id = some n) (h : id ∈ nodes ∨ n.cordoned = true) :
    Cordoned ((nodes.map WatchEvent.cordonPut).foldl WatchEvent.apply r) id := by
  induction nodes generalizing r n with
  | nil => exact ⟨n, hn, h.resolve_left List.not_mem_nil⟩
  | cons node nodes ih =>
    have hget := NodeRegistry.get_setCordon r node id true
    by_cases hid : id = node
    · subst hid
      rw [if_pos rfl, hn] at hget
      exact ih (r.setCordon id true) hget (Or.inr rfl)
    · rw [if_neg hid, hn] at hget
      refine ih (r.setCordon node true) hget (h.imp_left fun hm => ?_)
      exact (List.mem_cons.mp hm).resolve_left hid

/-! ## Hints stored and applied -/

section

variable {K : Type*}

/-- What is stored after some hints is one of them or was stored before. -/
theorem lookup_store (hints : List (String × HintBody K)) (m : AList fun _ : String => Hint)
    {id : String} {h : Hint}
    (hl : (hints.foldl (fun m x => m.insert x.1 ⟨x.2.drain, x.2.reason⟩) m).lookup id = some h) :
    (∃ x ∈ hints, x.1 = id ∧ x.2.drain = h.drain) ∨ m.lookup id = some h := by
  induction hints generalizing m with
  | nil => exact Or.inr hl
  | cons x hints ih =>
    rcases ih _ hl with ⟨y, hy, hid⟩ | hold
    · exact Or.inl ⟨y, List.mem_cons_of_mem _ hy, hid⟩
    · by_cases hid : id = x.1
      · rw [hid, AList.lookup_insert] at hold
        exact Or.inl ⟨x, List.mem_cons_self, hid.symm, congrArg Hint.drain (Option.some.inj hold)⟩
      · rw [AList.lookup_insert_ne hid] at hold
        exact Or.inr hold

theorem hints_apply (w : Loop K) (node : String) (hint : Hint) (stamp : String) :
    (w.apply node hint stamp).hints = w.hints := by
  unfold Loop.apply
  split <;> rfl

theorem router_applyAll (stamp : String → String) (hints : List (Sigma fun _ : String => Hint))
    (w : Loop K) : (w.applyAll stamp hints).router = w.router := by
  induction hints generalizing w with
  | nil => rfl
  | cons e hints ih =>
    have hone : (w.apply e.1 e.2 (stamp e.1)).router = w.router := by
      unfold Loop.apply
      split <;> rfl
    exact (ih _).trans hone

/-- Hints of distinct nodes, none of them cordoned: the drain hints become events in order. -/
theorem feed_applyAll (stamp : String → String) (hints : List (Sigma fun _ : String => Hint))
    (hnodup : hints.NodupKeys) (w : Loop K) (hfree : ∀ e ∈ hints, w.cordons e.1 = none) :
    (w.applyAll stamp hints).feed =
      w.feed ++ ((hints.filter fun e => e.2.drain).map Sigma.fst).map WatchEvent.cordonPut := by
  induction hints generalizing w with
  | nil => simp [applyAll]
  | cons e hints ih =>
    obtain ⟨node, hint⟩ := e
    obtain ⟨hnotin, hnodup⟩ := List.nodupKeys_cons.mp hnodup
    have hnone := hfree ⟨node, hint⟩ List.mem_cons_self
    have hrest : ∀ e ∈ hints, w.cordons e.1 = none :=
      fun e he => hfree e (List.mem_cons_of_mem _ he)
    have hcons : w.applyAll stamp (⟨node, hint⟩ :: hints) =
      (w.apply node hint (stamp node)).applyAll stamp hints := rfl
    rw [hcons]
    cases hd : hint.drain with
    | true =>
      have happly : w.apply node hint (stamp node) = { w with
          cordons := Function.update w.cordons node (some (autoscalerBody hint.reason (stamp node)))
          feed := w.feed ++ [.cordonPut node] } := by
        unfold apply
        rw [hnone, applyHint_drain hd]
      rw [happly, ih hnodup, List.filter_cons, if_pos hd, List.map_cons, List.map_cons,
        List.append_assoc]
      · rfl
      · intro e he
        have hne : e.1 ≠ node := fun heq => hnotin (heq ▸ List.mem_keys_of_mem (s := e) he)
        show Function.update w.cordons node _ e.1 = none
        rw [Function.update_of_ne hne, hrest e he]
    | false =>
      have happly : w.apply node hint (stamp node) = w := by
        unfold apply
        rw [hnone, applyHint_no_drain hd]
      rw [happly, ih hnodup w hrest, List.filter_cons_of_neg (by simp [hd])]

end

/-! ## Runs drain only what a tick can drain -/

section

variable {K : Type*} [Add K] [Mul K] [Div K] [Min K] [NatCast K] [LT K] [DecidableLT K]

/-- Some tick can write a drain hint for the node: the autoscaler is on, etcd is configured,
    the node draws too much and some order of the nodes makes the cluster idle. -/
def Drainable (σ : TickState K) (id : String) : Prop :=
  σ.autoscaler.enabled = true ∧ σ.etcdEndpoints ≠ [] ∧ σ.hot id = true ∧
    ∃ nodes, nodes.Perm σ.nodes.ids ∧ σ.clusterIdle nodes = true

/-- An event that the cordon watch may get. -/
def FeedOk (σ : TickState K) : WatchEvent → Prop
  | .cordonPut id => Drainable σ id
  | .cordonDelete _ => True
  | _ => False

/-- What every state of the loop shares with the router's first state `σ`, and that hints,
    cordons, events and flags that take a node out of service are of drainable nodes. -/
structure Inv (σ : TickState K) (w : Loop K) : Prop where
  router_eq : w.router = { σ with nodes := w.router.nodes }
  ids_perm : w.router.nodes.ids.Perm σ.nodes.ids
  available_iff : ∀ model id, Available w.router.nodes model id ↔ Available σ.nodes model id
  hints_ok : ∀ id h, w.hints.lookup id = some h → h.drain = true → Drainable σ id
  feed_ok : ∀ ev ∈ w.feed, FeedOk σ ev
  cordoned_ok : ∀ id, Cordoned w.router.nodes id → Drainable σ id

variable {σ : TickState K} {w : Loop K}

theorem inv_start (hfree : ∀ id, ¬ Cordoned σ.nodes id) : Inv σ (start σ) where
  router_eq := rfl
  ids_perm := List.Perm.refl _
  available_iff := fun _ _ => Iff.rfl
  hints_ok := fun _ _ h => absurd h (by simp [start])
  feed_ok := fun _ h => absurd h List.not_mem_nil
  cordoned_ok := fun id h => absurd h (hfree id)

theorem Inv.hot_eq (h : Inv σ w) (id : String) : w.router.hot id = σ.hot id := by
  rw [h.router_eq]
  rfl

theorem Inv.clusterIdle_eq (h : Inv σ w) (nodes : List String) :
    w.router.clusterIdle nodes = σ.clusterIdle nodes := by
  rw [h.router_eq]
  rfl

/-- A drain hint of a tick is for a drainable node. -/
theorem Inv.drainable (h : Inv σ w) {fmt : Nat → K → String} {nodes : List String}
    (henabled : w.router.autoscaler.enabled = true) (hperm : nodes.Perm w.router.nodes.ids)
    {env : TickEnv} {hints : List (String × HintBody K)}
    (htick : w.router.tick fmt nodes env = .ok hints) {x : String × HintBody K} (hx : x ∈ hints)
    (hdrain : x.2.drain = true) : Drainable σ x.1 := by
  obtain ⟨hends, _, hhint⟩ := w.router.mem_tick fmt htick hx
  rw [hhint] at hdrain
  obtain ⟨hidle, hhot⟩ := Bool.and_eq_true_iff.mp hdrain
  rw [h.router_eq] at henabled hends
  exact ⟨henabled, hends, h.hot_eq x.1 ▸ hhot, nodes, hperm.trans h.ids_perm,
    h.clusterIdle_eq nodes ▸ hidle⟩

theorem Inv.routerTick (h : Inv σ w) (fmt : Nat → K → String) (nodes : List String)
    (env : TickEnv) : Inv σ (w.routerTick fmt nodes env) := by
  unfold Loop.routerTick
  split
  · next hon =>
    split
    · next hints htick =>
      refine { h with hints_ok := ?_ }
      intro id hint hl hdrain
      rcases lookup_store hints w.hints hl with ⟨x, hx, rfl, hd⟩ | hold
      · exact h.drainable hon.1 hon.2 htick hx (hd.trans hdrain)
      · exact h.hints_ok id hint hold hdrain
    · exact h
  · exact h

/-- `apply_hint` cordons the node of a drain hint, or changes no more than adding the event
    of a cleared cordon. -/
theorem Inv.apply (h : Inv σ w) {node : String} {hint : Hint}
    (hh : w.hints.lookup node = some hint) (stamp : String) :
    Inv σ (w.apply node hint stamp) := by
  have hfeed : ∀ ev, FeedOk σ ev → ∀ ev' ∈ w.feed ++ [ev], FeedOk σ ev' := by
    intro ev hev ev' hev'
    rcases List.mem_append.mp hev' with hold | hnew
    · exact h.feed_ok ev' hold
    · rw [List.mem_singleton.mp hnew]
      exact hev
  unfold Loop.apply
  cases hop : applyHint (w.cordons node) hint stamp with
  | nothing => exact h
  | put value =>
    exact { h with feed_ok := hfeed (.cordonPut node) (h.hints_ok node hint hh (drain_of_put hop)) }
  | delete => exact { h with feed_ok := hfeed (.cordonDelete node) trivial }

theorem Inv.applyAll (h : Inv σ w) (stamp : String → String)
    {hints : List (Sigma fun _ : String => Hint)}
    (hh : ∀ e ∈ hints, w.hints.lookup e.1 = some e.2) : Inv σ (w.applyAll stamp hints) := by
  induction hints generalizing w with
  | nil => exact h
  | cons e hints ih =>
    refine ih (h.apply (hh e List.mem_cons_self) (stamp e.1)) ?_
    intro e' he'
    rw [hints_apply]
    exact hh e' (List.mem_cons_of_mem _ he')

theorem Inv.setCordon (h : Inv σ w) {id : String} {cordoned : Bool} {feed : List WatchEvent}
    (hc : cordoned = true → Drainable σ id) (hfeed : ∀ ev ∈ feed, FeedOk σ ev) :
    Inv σ { w with
      router := { w.router with nodes := w.router.nodes.setCordon id cordoned }
      feed := feed } where
  router_eq := by rw [h.router_eq]
  ids_perm := (NodeRegistry.ids_setCordon_perm _ id cordoned).trans h.ids_perm
  available_iff := by
    intro model j
    rw [available_setCordon, h.available_iff]
  hints_ok := h.hints_ok
  feed_ok := hfeed
  cordoned_ok := by
    intro j hj
    rcases cordoned_setCordon _ id cordoned j hj with ⟨rfl, hon⟩ | hold
    · exact hc hon
    · exact h.cordoned_ok j hold

theorem Inv.watch (h : Inv σ w) : Inv σ w.watch := by
  unfold Loop.watch
  split
  · exact h
  · next ev rest hf =>
    have hok : ∀ e ∈ ev :: rest, FeedOk σ e := hf ▸ h.feed_ok
    have hrest : ∀ e ∈ rest, FeedOk σ e := fun e he => hok e (List.mem_cons_of_mem _ he)
    have hev := hok ev List.mem_cons_self
    cases ev with
    | cordonPut id => exact h.setCordon (fun _ => hev) hrest
    | cordonDelete id => exact h.setCordon nofun hrest
    | nodePut record => exact hev.elim
    | nodeDelete id => exact hev.elim

theorem Inv.step (h : Inv σ w) (fmt : Nat → K → String) (act : LoopAct) :
    Inv σ (w.step fmt act) := by
  cases act with
  | routerTick nodes env => exact h.routerTick fmt nodes env
  | operatorTick applied stamp =>
    unfold Loop.step
    dsimp only
    split
    · exact h
    · refine h.applyAll stamp fun e he => ?_
      exact AList.mem_lookup_iff.mpr (List.mem_of_mem_take he)
  | watch => exact h.watch

theorem inv_run (hfree : ∀ id, ¬ Cordoned σ.nodes id) (fmt : Nat → K → String)
    (acts : List LoopAct) : Inv σ (run fmt σ acts) :=
  List.foldlRecOn acts _ (inv_start hfree) fun _ h act _ => h.step fmt act

/-! ## A run that drains all it can -/

/-- The watch works through its events. -/
theorem nodes_watchAll (fmt : Nat → K → String) (w : Loop K) :
    ((List.replicate w.feed.length LoopAct.watch).foldl (step fmt) w).router.nodes =
      w.feed.foldl WatchEvent.apply w.router.nodes := by
  induction hf : w.feed generalizing w with
  | nil => rfl
  | cons ev rest ih =>
    have hwatch : w.step fmt .watch = { w with
        router := { w.router with nodes := ev.apply w.router.nodes }
        feed := rest } := by
      unfold step watch
      rw [hf]
    rw [List.length_cons, List.replicate_succ, List.foldl_cons, hwatch, ih _ rfl]
    rfl

/-- The hints of a tick whose puts all succeed. -/
def tickHints (fmt : Nat → K → String) (σ : TickState K) (nodes : List String) :
    AList fun _ : String => Hint :=
  nodes.foldl (fun m id => m.insert id
    ⟨(σ.hint fmt nodes "" id).drain, (σ.hint fmt nodes "" id).reason⟩) ∅

/-- A tick of each kind, with an etcd that answers. -/
def ticked (fmt : Nat → K → String) (σ : TickState K) (nodes : List String) : Loop K :=
  ({ start σ with hints := tickHints fmt σ nodes } : Loop K).applyAll (fun _ => "")
    (tickHints fmt σ nodes).entries

theorem run_ticked (fmt : Nat → K → String) {nodes : List String}
    (henabled : σ.autoscaler.enabled = true) (hends : σ.etcdEndpoints ≠ [])
    (hperm : nodes.Perm σ.nodes.ids) :
    run fmt σ [.routerTick nodes (TickState.answering fun _ => ""),
      .operatorTick (tickHints fmt σ nodes).entries.length fun _ => ""] = ticked fmt σ nodes := by
  have hrouter : (start σ).routerTick fmt nodes (TickState.answering fun _ => "") =
      { start σ with hints := tickHints fmt σ nodes } := by
    unfold routerTick
    rw [if_pos ⟨henabled, hperm⟩]
    show (match σ.tick fmt nodes _ with | .ok hints => _ | .error _ => _) = _
    rw [σ.tick_answering fmt hends]
    dsimp only
    rw [List.foldl_map]
    rfl
  have hoperator : ({ start σ with hints := tickHints fmt σ nodes } : Loop K).step fmt
      (.operatorTick (tickHints fmt σ nodes).entries.length fun _ => "") =
        ticked fmt σ nodes := by
    unfold step
    dsimp only
    rw [if_neg (by simpa [start] using hends), List.take_length]
    rfl
  rw [run, List.foldl_cons, List.foldl_cons, List.foldl_nil, step, hrouter, hoperator]

/-- In an idle cluster a tick of each kind is enough to cordon every node that draws too
    much. -/
theorem exists_run_cordons (fmt : Nat → K → String) {nodes : List String}
    (henabled : σ.autoscaler.enabled = true) (hends : σ.etcdEndpoints ≠ [])
    (hperm : nodes.Perm σ.nodes.ids) (hidle : σ.clusterIdle nodes = true) :
    ∃ acts, ∀ id ∈ σ.nodes.ids, σ.hot id = true → Cordoned (run fmt σ acts).router.nodes id := by
  refine ⟨[.routerTick nodes (TickState.answering fun _ => ""),
    .operatorTick (tickHints fmt σ nodes).entries.length fun _ => ""] ++
      List.replicate (ticked fmt σ nodes).feed.length .watch, ?_⟩
  intro id hid hhot
  obtain ⟨n, hn⟩ := NodeRegistry.mem_ids.mp hid
  have hlookup := Lib.lookup_foldl_insert (fun id => (⟨(σ.hint fmt nodes "" id).drain,
    (σ.hint fmt nodes "" id).reason⟩ : Hint)) nodes ∅ id
  rw [if_pos (hperm.symm.subset hid)] at hlookup
  rw [run, List.foldl_append]
  have hrun := run_ticked fmt henabled hends hperm
  rw [run] at hrun
  rw [hrun, nodes_watchAll, ticked, feed_applyAll _ _ (tickHints fmt σ nodes).nodupKeys _
    fun _ _ => rfl, router_applyAll]
  refine cordoned_foldl _ σ.nodes hn (Or.inl (List.mem_map.mpr ⟨⟨id, _⟩, List.mem_filter.mpr
    ⟨AList.mem_lookup_iff.mp hlookup, ?_⟩, rfl⟩))
  exact Bool.and_eq_true_iff.mpr ⟨hidle, hhot⟩

/-- A model that only drainable nodes serve is left without any by some run. -/
theorem exists_unserved (fmt : Nat → K → String) (hfree : ∀ id, ¬ Cordoned σ.nodes id)
    {model : String} (hmodel : ∃ id, Available σ.nodes model id)
    (hall : ∀ id, Available σ.nodes model id → Drainable σ id) :
    ∃ acts, ¬ Served (run fmt σ acts).router.nodes := by
  obtain ⟨id, hid⟩ := hmodel
  obtain ⟨henabled, hends, _, nodes, hperm, hidle⟩ := hall id hid
  obtain ⟨acts, hcordons⟩ := exists_run_cordons fmt henabled hends hperm hidle
  have hinv := inv_run hfree fmt acts
  refine ⟨acts, fun hserved => ?_⟩
  obtain ⟨j, hj, hnot⟩ := hserved model ⟨id, (hinv.available_iff model id).mpr hid⟩
  have havailable := (hinv.available_iff model j).mp hj
  have hhot := (hall j havailable).2.2.1
  obtain ⟨n, hn, _⟩ := havailable
  exact hnot (hcordons j (NodeRegistry.mem_ids.mpr ⟨n, hn⟩) hhot)

/-- From a registry without cordons, every run keeps every model served exactly if every
    model with an available node has one that no tick can drain. -/
theorem keeps_models_served_iff (fmt : Nat → K → String) (σ : TickState K)
    (hfree : ∀ id, ¬ Cordoned σ.nodes id) :
    (∀ acts, Served (run fmt σ acts).router.nodes) ↔
      ∀ model, (∃ id, Available σ.nodes model id) →
        ∃ id, Available σ.nodes model id ∧ ¬ Drainable σ id := by
  constructor
  · intro h model hmodel
    by_contra hno
    push Not at hno
    obtain ⟨acts, hacts⟩ := exists_unserved fmt hfree hmodel hno
    exact hacts (h acts)
  · rintro h acts model ⟨id, hid⟩
    have hinv := inv_run hfree fmt acts
    obtain ⟨j, hj, hspared⟩ := h model ⟨id, (hinv.available_iff model id).mp hid⟩
    exact ⟨j, (hinv.available_iff model j).mpr hj, fun hc => hspared (hinv.cordoned_ok j hc)⟩

end

/-- Nodes that serve `m`, with nothing queued. `hot` draws 400 W, every other node 200 W. -/
def cluster (ids : List String) : TickState ℚ where
  autoscaler := { enabled := true, idleUtilPct := 15, highWattThreshold := 350 }
  etcdEndpoints := ["etcd:2379"]
  nodes := ids.foldl (fun r id => r.upsert
    { nodeId := id, role := 3, model := some "m", cordoned := false, ready := true,
      draining := false, adapters := [] }) NodeRegistry.new
  loads := fun id =>
    { queueDepth := 0, totalBlocks := 64, powerWatts := if id = "hot" then 400 else 200 }
  admission := { maxQueue := 1024, waitQueuePerTenant := 0 }
  pools := fun _ _ => none

theorem cluster_free (ids : List String) (id : String) : ¬ Cordoned (cluster ids).nodes id := by
  refine List.foldlRecOn (motive := fun r => ¬ Cordoned r id) ids _ ?_ fun r hr i _ => ?_
  · rintro ⟨n, hn, _⟩
    cases hn
  · rintro ⟨n, hn, hc⟩
    rw [NodeRegistry.get_upsert] at hn
    split at hn
    · cases hn
      cases hc
    · exact hr ⟨n, hn, hc⟩

theorem cluster_hot (ids : List String) (id : String) :
    (cluster ids).hot id = decide (id = "hot") := by
  show decide ((350 : ℚ) < if id = "hot" then 400 else 200) = _
  split
  · next h => rw [decide_eq_true h, decide_eq_true (by decide +kernel)]
  · next h => rw [decide_eq_false h, decide_eq_false (by decide +kernel)]

/-- The hot one of two nodes can be cordoned, and the model they serve stays served. -/
theorem keeps_models_served_pair :
    (∀ id, ¬ Cordoned (cluster ["hot", "cool"]).nodes id) ∧
      (∃ acts, Cordoned (run (fun _ _ => "") (cluster ["hot", "cool"]) acts).router.nodes "hot") ∧
      ∀ acts, Served (run (fun _ _ => "") (cluster ["hot", "cool"]) acts).router.nodes := by
  refine ⟨cluster_free _, ?_, (keeps_models_served_iff _ _ (cluster_free _)).mpr ?_⟩
  · obtain ⟨acts, hcordons⟩ := exists_run_cordons (fun _ _ => "") (σ := cluster ["hot", "cool"])
      rfl (by decide) (List.Perm.refl _) (by decide +kernel)
    exact ⟨acts, hcordons "hot" (by decide +kernel) (cluster_hot _ _)⟩
  · rintro model ⟨id, n, hn, _, _, hserves⟩
    -- the two nodes serve the same models
    have hsame : n.model = some "m" ∧ n.adapters = [] := by
      change (NodeRegistry.upsert _ _).get id = _ at hn
      rw [NodeRegistry.get_upsert, NodeRegistry.get_upsert] at hn
      split at hn
      · cases hn
        exact ⟨rfl, rfl⟩
      · split at hn
        · cases hn
          exact ⟨rfl, rfl⟩
        · cases hn
    refine ⟨"cool", ⟨_, rfl, rfl, rfl, ?_⟩, fun hd => ?_⟩
    · rw [NodeEntry.serves, hsame.1, hsame.2] at hserves
      exact hserves
    · have hhot := hd.2.2.1
      rw [cluster_hot] at hhot
      cases hhot

/-- The only node of a model is cordoned as soon as the cluster is idle. -/
theorem lone_hot_node_cordoned :
    ¬ ∀ (fmt : Nat → ℚ → String) (σ : TickState ℚ), (∀ id, ¬ Cordoned σ.nodes id) →
      ∀ acts, Served (run fmt σ acts).router.nodes := by
  intro h
  have hmodel : Available (cluster ["hot"]).nodes "m" "hot" := ⟨_, rfl, rfl, rfl, rfl⟩
  have hdrainable : ∀ id, Available (cluster ["hot"]).nodes "m" id →
      Drainable (cluster ["hot"]) id := by
    rintro id ⟨n, hn, _⟩
    change (NodeRegistry.upsert _ _).get id = _ at hn
    rw [NodeRegistry.get_upsert] at hn
    split at hn
    · next hid =>
      subst hid
      exact ⟨rfl, by decide, cluster_hot _ _, ["hot"], List.Perm.refl _, by decide +kernel⟩
    · cases hn
  obtain ⟨acts, hacts⟩ := exists_unserved (fun _ _ => "") (cluster_free _) ⟨"hot", hmodel⟩
    hdrainable
  exact hacts (h _ _ (cluster_free _) acts)

end Loop

end Cognitora.Operator
