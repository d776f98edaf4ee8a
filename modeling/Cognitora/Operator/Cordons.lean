/-
  Cordon keys in etcd: the operator's hint consumer (cgn-operator `src/autoscaler.rs`,
  `apply_hint`) and the cordon commands (cgn-ctl `src/cluster.rs`, `set_cordon`).

  `apply_hint` reads the cordon key of a node and later writes or deletes it without looking
  again, so an execution is two steps here, and any number of executions and commands may act
  in between. `manual_cordons_survive_iff`: no execution touches a value of `cgn-ctl` exactly
  if, at each write it makes, the latest write to the key since its read is not a cordon
  command.

  A value is the JSON its text parses to. `Cordon.writer`, `World.writes` and
  `Applying.since` are history: no step reads them. An execution whose second operation fails
  or never happens is one that stays in `applying`.
-/
import Cognitora.Core.Json
import Cognitora.Lib.Run
import Mathlib.Data.List.Induction
import Mathlib.Logic.Function.Basic

namespace Cognitora.Operator

open Cognitora.Core Cognitora.Lib

/-! ## The values -/

/-- An autoscaler hint as the operator reads it. -/
structure Hint where
  drain : Bool
  reason : String

/-- What `apply_hint` puts. -/
def autoscalerBody (reason stamp : String) : Json :=
  .obj [("set_by", .str "autoscaler"), ("reason", .str reason), ("stamp", .str stamp)]

/-- What `cgn-ctl cluster cordon` puts. -/
def ctlBody (nodeId stamp actor : String) : Json :=
  .obj [("node_id", .str nodeId), ("stamp", .str stamp), ("actor", .str actor)]

def isAutoscalerCordon (value : Json) : Bool :=
  ((value.get "set_by").bind Json.asStr) == some "autoscaler"

/-- A value of the command carries no `set_by`. -/
theorem isAutoscalerCordon_ctlBody (nodeId stamp actor : String) :
    isAutoscalerCordon (ctlBody nodeId stamp actor) = false := rfl

/-- What `apply_hint` does after its read. -/
inductive CordonOp where
  | nothing
  | put (value : Json)
  | delete

/-- The decision of `apply_hint` on the value it read. -/
def applyHint (existing : Option Json) (hint : Hint) (stamp : String) : CordonOp :=
  if hint.drain then
    -- already cordoned, by anyone
    if existing.isSome then .nothing else .put (autoscalerBody hint.reason stamp)
  else if (existing.map isAutoscalerCordon).getD false then .delete else .nothing

/-- It acts only where it read no value or one of its own. -/
theorem applyHint_of_ne_nothing {existing : Option Json} {hint : Hint} {stamp : String}
    (h : applyHint existing hint stamp ≠ .nothing) :
    ∀ v, existing = some v → isAutoscalerCordon v = true := by
  rintro v rfl
  unfold applyHint at h
  cases hd : hint.drain with
  | true => exact absurd (by rw [hd]; rfl) h
  | false =>
    cases hv : isAutoscalerCordon v with
    | true => rfl
    | false => exact absurd (by rw [hd, Option.map_some, hv]; rfl) h

/-- It puts a value only for a drain hint. -/
theorem drain_of_put {existing : Option Json} {hint : Hint} {stamp : String} {value : Json}
    (h : applyHint existing hint stamp = .put value) : hint.drain = true := by
  unfold applyHint at h
  split at h
  · next hd => exact hd
  · split at h <;> cases h

/-- A drain hint cordons a node that is not cordoned. -/
theorem applyHint_drain {hint : Hint} (h : hint.drain = true) (stamp : String) :
    applyHint none hint stamp = .put (autoscalerBody hint.reason stamp) := by
  unfold applyHint
  rw [if_pos h]
  rfl

/-- Without a cordon, another hint changes nothing. -/
theorem applyHint_no_drain {hint : Hint} (h : hint.drain = false) (stamp : String) :
    applyHint none hint stamp = .nothing := by
  unfold applyHint
  rw [h]
  rfl

/-! ## Executions and commands -/

inductive Writer where
  | ctl
  | autoscaler
  deriving DecidableEq

/-- A stored value and who wrote it. -/
structure Cordon where
  writer : Writer
  value : Json

/-- A write that reached etcd: the key's node and what is stored there since. -/
structure Write where
  node : String
  cordon : Option Cordon

/-- An `apply_hint` execution between its two operations. -/
structure Applying where
  node : String
  hint : Hint
  /-- The value it read. -/
  existing : Option Json
  /-- How many writes came before its read. -/
  since : Nat

structure World where
  cordons : String → Option Cordon
  applying : List Applying
  /-- Every write so far. -/
  writes : List Write

inductive Act where
  /-- An `apply_hint` execution starts and reads the key. -/
  | read (node : String) (hint : Hint)
  /-- Execution `i` goes on after its read. -/
  | write (i : Nat) (stamp : String)
  /-- `cgn-ctl cluster cordon`. -/
  | cordon (node stamp actor : String)
  /-- `cgn-ctl cluster uncordon`. -/
  | uncordon (node : String)

namespace World

def init : World where
  cordons := fun _ => none
  applying := []
  writes := []

def store (w : World) (node : String) (cordon : Option Cordon) : World :=
  { w with
    cordons := Function.update w.cordons node cordon
    writes := w.writes ++ [⟨node, cordon⟩] }

/-- The second operation of an execution. -/
def perform (w : World) (node : String) : CordonOp → World
  | .nothing => w
  | .put value => w.store node (some ⟨.autoscaler, value⟩)
  | .delete => w.store node none

def step (w : World) : Act → World
  | .read node hint =>
    { w with applying := w.applying ++
      [⟨node, hint, (w.cordons node).map Cordon.value, w.writes.length⟩] }
  | .write i stamp =>
    match w.applying[i]? with
    | none => w
    | some a =>
      ({ w with applying := w.applying.eraseIdx i }).perform a.node
        (applyHint a.existing a.hint stamp)
  | .cordon node stamp actor => w.store node (some ⟨.ctl, ctlBody node stamp actor⟩)
  | .uncordon node => w.store node none

/-- The stored value of `node` is one `cgn-ctl` wrote. -/
def Manual (w : World) (node : String) : Prop :=
  ∃ c, w.cordons node = some c ∧ c.writer = .ctl

/-- The step is no `apply_hint` write onto a value of `cgn-ctl`. -/
def KeepsManual (w : World) : Act → Prop
  | .write i stamp => ∀ a, w.applying[i]? = some a →
      applyHint a.existing a.hint stamp ≠ .nothing → ¬ w.Manual a.node
  | _ => True

/-- What the latest of some writes to the key of `node` stored, if there is one. -/
def latest (node : String) (writes : List Write) : Option (Option Cordon) :=
  ((writes.filter (·.node == node)).getLast?).map Write.cordon

/-- The step is no `apply_hint` write that a cordon command has overtaken: one whose latest
    write to the key since the read is such a command. -/
def NotOvertaken (w : World) : Act → Prop
  | .write i stamp => ∀ a, w.applying[i]? = some a →
      applyHint a.existing a.hint stamp ≠ .nothing →
        ∀ c, latest a.node (w.writes.drop a.since) = some (some c) → c.writer ≠ .ctl
  | _ => True

/-! ## What is stored -/

theorem latest_append (node : String) (xs ys : List Write) :
    latest node (xs ++ ys) = (latest node ys).or (latest node xs) := by
  unfold latest
  rw [List.filter_append, List.getLast?_append]
  cases (ys.filter (·.node == node)).getLast? <;> rfl

theorem latest_singleton (node : String) (x : Write) :
    latest node [x] = if node = x.node then some x.cordon else none := by
  unfold latest
  by_cases h : node = x.node
  · rw [if_pos h, List.filter_cons_of_pos (by simpa using h.symm)]
    rfl
  · rw [if_neg h, List.filter_cons_of_neg (by simpa using Ne.symm h)]
    rfl

/-- The store of a history that starts with no keys. -/
def stored (writes : List Write) (node : String) : Option Cordon :=
  (latest node writes).getD none

theorem stored_concat (writes : List Write) (x : Write) :
    stored (writes ++ [x]) = Function.update (stored writes) x.node x.cordon := by
  funext node
  unfold stored
  rw [latest_append, latest_singleton]
  by_cases h : node = x.node
  · rw [if_pos h, h, Function.update_self]
    rfl
  · rw [if_neg h, Function.update_of_ne h, Option.none_or]

/-- The store is that of its history, and each execution has read what the history before it
    stored. Values written by a command are not taken for the operator's own. -/
structure Inv (w : World) : Prop where
  cordons_eq : w.cordons = stored w.writes
  read_eq : ∀ a ∈ w.applying, a.since ≤ w.writes.length ∧
    a.existing = (stored (w.writes.take a.since) a.node).map Cordon.value
  ctl_untagged : ∀ x ∈ w.writes, ∀ c, x.cordon = some c → c.writer = .ctl →
    isAutoscalerCordon c.value = false

theorem inv_init : Inv init where
  cordons_eq := rfl
  read_eq := fun _ h => absurd h List.not_mem_nil
  ctl_untagged := fun _ h => absurd h List.not_mem_nil

theorem Inv.store {w : World} (h : Inv w) (node : String) (cordon : Option Cordon)
    (hc : ∀ c, cordon = some c → c.writer = .ctl → isAutoscalerCordon c.value = false) :
    Inv (w.store node cordon) where
  cordons_eq := by
    show Function.update w.cordons node cordon = stored (w.writes ++ [⟨node, cordon⟩])
    rw [stored_concat, h.cordons_eq]
  read_eq := by
    intro a ha
    obtain ⟨hle, heq⟩ := h.read_eq a ha
    refine ⟨?_, ?_⟩
    · show a.since ≤ (w.writes ++ [_]).length
      rw [List.length_append]
      omega
    · show a.existing = (stored ((w.writes ++ [_]).take a.since) a.node).map Cordon.value
      rw [List.take_append_of_le_length hle, heq]
  ctl_untagged := by
    intro x hx
    rcases List.mem_append.mp hx with hx | hx
    · exact h.ctl_untagged x hx
    · rw [List.mem_singleton.mp hx]
      exact hc

theorem Inv.perform {w : World} (h : Inv w) (node : String) (op : CordonOp) :
    Inv (w.perform node op) := by
  cases op with
  | nothing => exact h
  | put value => exact h.store node _ (by rintro c ⟨⟩; exact nofun)
  | delete => exact h.store node none nofun

theorem Inv.step {w : World} (h : Inv w) (act : Act) : Inv (w.step act) := by
  cases act with
  | read node hint =>
    refine ⟨h.cordons_eq, ?_, h.ctl_untagged⟩
    intro a ha
    rcases List.mem_append.mp ha with ha | ha
    · exact h.read_eq a ha
    · rw [List.mem_singleton.mp ha]
      refine ⟨Nat.le_refl _, ?_⟩
      show _ = (stored (w.writes.take w.writes.length) node).map Cordon.value
      rw [List.take_length, h.cordons_eq]
  | write i stamp =>
    unfold World.step
    dsimp only
    cases hi : w.applying[i]? with
    | none => exact h
    | some a =>
      have hrest : Inv { w with applying := w.applying.eraseIdx i } :=
        ⟨h.cordons_eq, fun b hb => h.read_eq b (List.mem_of_mem_eraseIdx hb), h.ctl_untagged⟩
      exact hrest.perform a.node _
  | cordon node stamp actor =>
    refine h.store node _ ?_
    rintro c ⟨⟩ _
    exact isAutoscalerCordon_ctlBody node stamp actor
  | uncordon node => exact h.store node none nofun

/-- A stored value of `cgn-ctl` is in the history and so not tagged as the operator's. -/
theorem Inv.untagged {w : World} (h : Inv w) {writes : List Write} (hw : writes <+: w.writes)
    {node : String} {c : Cordon} (hc : stored writes node = some c) (hctl : c.writer = .ctl) :
    isAutoscalerCordon c.value = false := by
  unfold stored latest at hc
  cases hl : (writes.filter (·.node == node)).getLast? with
  | none => rw [hl] at hc; cases hc
  | some x =>
    rw [hl, Option.map_some, Option.getD_some] at hc
    have hx := (List.mem_filter.mp (List.mem_of_getLast? hl)).1
    exact h.ctl_untagged x (hw.subset hx) c hc hctl

/-- An execution that acts meets a value of `cgn-ctl` exactly if a cordon command is the
    latest write since its read. -/
theorem Inv.manual_iff {w : World} (h : Inv w) {a : Applying} (ha : a ∈ w.applying)
    {stamp : String} (hop : applyHint a.existing a.hint stamp ≠ .nothing) :
    w.Manual a.node ↔
      ∃ c, latest a.node (w.writes.drop a.since) = some (some c) ∧ c.writer = .ctl := by
  obtain ⟨_, hread⟩ := h.read_eq a ha
  have hsplit : stored w.writes a.node =
      ((latest a.node (w.writes.drop a.since)).or (latest a.node (w.writes.take a.since))).getD
        none := by
    rw [← latest_append, List.take_append_drop]
    rfl
  unfold Manual
  rw [h.cordons_eq, hsplit]
  cases hl : latest a.node (w.writes.drop a.since) with
  | some x =>
    rw [Option.some_or, Option.getD_some]
    simp
  | none =>
    -- nothing was written since: the value is the one that was read
    rw [Option.none_or]
    constructor
    · rintro ⟨c, hc, hctl⟩
      have hv := applyHint_of_ne_nothing hop c.value (by rw [hread, stored, hc]; rfl)
      rw [h.untagged (List.take_prefix _ _) hc hctl] at hv
      cases hv
    · rintro ⟨c, hc, _⟩
      cases hc

theorem Inv.keepsManual_iff {w : World} (h : Inv w) (act : Act) :
    w.KeepsManual act ↔ w.NotOvertaken act := by
  cases act with
  | write i stamp =>
    refine forall_congr' fun a => forall_congr' fun hi => forall_congr' fun hop => ?_
    rw [h.manual_iff (List.mem_of_getElem? hi) hop]
    simp
  | _ => exact Iff.rfl

/-- In every interleaving, the executions leave the values of `cgn-ctl` alone exactly if none
    of their writes comes right after a cordon command on the key that followed the read. -/
theorem manual_cordons_survive_iff (acts : List Act) :
    Along step KeepsManual init acts ↔ Along step NotOvertaken init acts :=
  along_iff (fun _ act h => Inv.keepsManual_iff h act) (fun _ act h _ => h.step act) acts init
    inv_init

/-- A drain hint reads a free key, the command cordons the node, and the hint's put replaces
    the command's value. -/
theorem drain_hint_overwrites_cordon :
    ¬ ∀ acts : List Act, Along step KeepsManual init acts := by
  intro h
  have hstep := (h [.read "n" ⟨true, "idle"⟩, .cordon "n" "t1" "admin", .write 0 "t2"]).2.2.1
  exact hstep _ rfl nofun ⟨_, rfl, rfl⟩

end World

end Cognitora.Operator
