/-
  The engine's supervisor (cgn-agent `src/supervisor.rs`, `spawn_engine_for_default_model` and
  `supervise`).

  `supervise_attends_iff`: after a successful start, every iteration of the loop sees the whole
  group alive or attempts a respawn, exactly if no respawn ever fails. A respawn that fails
  leaves no children, and an iteration without children takes the agent for one that spawns
  nothing.

  The rendered command lines and the outcome of every system call are inputs. A group is the
  list of its command lines. Dropping the handles of a group that is not complete kills its
  processes.
-/
import Cognitora.Core.Error
import Mathlib.Tactic.Common

namespace Cognitora.Agent

open Cognitora.Core

inductive EngineKind where
  | vllm
  | sglang
  | llamaCpp
  | mlx
  | tensorrtLlm
  | cgnInfer
  | openaiCompat
  deriving DecidableEq

inductive KvOffload where
  | none
  | nixl
  | lmcache
  | hicache
  | kvbm
  | cgn
  deriving DecidableEq

inductive LmcacheMode where
  | v1
  | mp
  deriving DecidableEq

abbrev Argv := List String

/-- What the configuration says about the engine's processes. -/
structure Launch where
  kind : EngineKind
  kvOffload : KvOffload
  lmcacheMode : LmcacheMode
  spawnServer : Bool
  lmcacheServerArgv : Argv
  /-- The configured models, in the order of the map. -/
  models : List String
  renderPipelineWorkers : String → Except Error (List Argv)
  renderArgv : String → Except Error Argv

/-- What an attempt to spawn the group meets: the error of its `i`-th spawn, and that of waiting
    for the LMCache server. -/
structure Attempt where
  spawnErr : Nat → Option String
  waitErr : Option Error

namespace Launch

def shouldSpawn (l : Launch) : Bool :=
  l.kind != .openaiCompat

def shouldSpawnLmcacheServer (l : Launch) : Bool :=
  l.kind == .vllm && l.kvOffload == .lmcache && l.lmcacheMode == .mp && l.spawnServer

end Launch

def spawnChild (err : Option String) (argv : Argv) : Except Error Argv :=
  match err with
  | some e => .error (.internal ("spawn engine: " ++ e))
  | none => .ok argv

/-- The loop over the command lines; the first failed spawn ends it. -/
def spawnAll (a : Attempt) : Nat → List Argv → Except Error (List Argv)
  | _, [] => .ok []
  | i, argv :: argvs => do
    let child ← spawnChild (a.spawnErr i) argv
    let children ← spawnAll a (i + 1) argvs
    return child :: children

/-- The LMCache server, if there is to be one, spawned and healthy. -/
def spawnServer (l : Launch) (a : Attempt) : Except Error (List Argv) :=
  if l.shouldSpawnLmcacheServer then do
    let server ← spawnChild (a.spawnErr 0) l.lmcacheServerArgv
    match a.waitErr with
    | some e => throw e
    | none => return [server]
  else return []

def spawnGroup (l : Launch) (a : Attempt) (spec : String) : Except Error (List Argv) := do
  let server ← spawnServer l a
  let workers ← l.renderPipelineWorkers spec
  let coordinator ← l.renderArgv spec
  let children ← spawnAll a server.length (workers ++ [coordinator])
  return server ++ children

def spawnEngineForDefaultModel (l : Launch) (a : Attempt) (children : List Argv) :
    Except Error Unit × List Argv :=
  if !l.shouldSpawn then (.ok (), children)
  else
    match l.models.head? with
    | none => (.ok (), children)
    | some spec =>
      match spawnGroup l a spec with
      | .error e => (.error e, children)
      | .ok group => (.ok (), group)

/-- The supervisor's loop: the children, and the backoff in seconds. -/
structure Supervise where
  children : List Argv
  backoff : Nat

/-- What an iteration meets: the members that have exited, and the attempt if it makes one. -/
structure Iteration where
  exited : Nat → Bool
  attempt : Attempt

/-- What an iteration does. -/
inductive Seen where
  | nothing
  | alive
  | respawn (result : Except Error Unit)

/-- One iteration of `supervise`. -/
def superviseOnce (l : Launch) (s : Supervise) (it : Iteration) : Seen × Supervise :=
  if s.children.isEmpty then (.nothing, s)
  else if (List.range s.children.length).any it.exited then
    -- `kill_children` takes the handles
    let r := spawnEngineForDefaultModel l it.attempt []
    (.respawn r.1, { children := r.2, backoff := min (s.backoff * 2) 30 })
  else (.alive, { s with backoff := 1 })

/-- The state before iteration `n`. -/
def superviseAt (l : Launch) (start : Supervise) (its : Nat → Iteration) : Nat → Supervise
  | 0 => start
  | n + 1 => (superviseOnce l (superviseAt l start its n) (its n)).2

def seenAt (l : Launch) (start : Supervise) (its : Nat → Iteration) (n : Nat) : Seen :=
  (superviseOnce l (superviseAt l start its n) (its n)).1

/-- The iteration sees the whole group alive, or attempts a respawn. -/
def Attended (l : Launch) (group : List Argv) (s : Supervise) (it : Iteration) : Prop :=
  (s.children = group ∧ ∀ i < group.length, it.exited i = false) ∨
    ∃ result, (superviseOnce l s it).1 = .respawn result

/-! ## Spawning -/

theorem spawnChild_ok {err : Option String} {argv child : Argv}
    (h : spawnChild err argv = .ok child) : child = argv := by
  cases err with
  | some e => exact absurd h (by simp [spawnChild])
  | none => exact (Except.ok.inj h).symm

theorem spawnAll_ok {a : Attempt} {i : Nat} {argvs children : List Argv}
    (h : spawnAll a i argvs = .ok children) : children = argvs := by
  induction argvs generalizing i children with
  | nil => exact (Except.ok.inj h).symm
  | cons argv argvs ih =>
    obtain ⟨child, hchild, h⟩ := bind_eq_ok.mp h
    obtain ⟨rest, hrest, h⟩ := bind_eq_ok.mp h
    rw [← Except.ok.inj h, spawnChild_ok hchild, ih hrest]

theorem spawnServer_ok {l : Launch} {a : Attempt} {children : List Argv}
    (h : spawnServer l a = .ok children) :
    children = if l.shouldSpawnLmcacheServer then [l.lmcacheServerArgv] else [] := by
  unfold spawnServer at h
  split at h
  · next hserver =>
    rw [if_pos hserver]
    obtain ⟨server, hspawn, h⟩ := bind_eq_ok.mp h
    cases hwait : a.waitErr with
    | some e =>
      rw [hwait] at h
      exact absurd h (by simp [throw, throwThe, MonadExceptOf.throw])
    | none =>
      rw [hwait] at h
      rw [← Except.ok.inj h, spawnChild_ok hspawn]
  · next hserver =>
    rw [if_neg hserver]
    exact (Except.ok.inj h).symm

/-- A group that was spawned is complete: the server, the workers and the coordinator. -/
theorem spawnGroup_ok {l : Launch} {a : Attempt} {spec : String} {group : List Argv}
    (h : spawnGroup l a spec = .ok group) :
    ∃ workers coordinator, l.renderPipelineWorkers spec = .ok workers ∧
      l.renderArgv spec = .ok coordinator ∧
      group = (if l.shouldSpawnLmcacheServer then [l.lmcacheServerArgv] else []) ++
        (workers ++ [coordinator]) := by
  obtain ⟨server, hserver, h⟩ := bind_eq_ok.mp h
  obtain ⟨workers, hworkers, h⟩ := bind_eq_ok.mp h
  obtain ⟨coordinator, hcoordinator, h⟩ := bind_eq_ok.mp h
  obtain ⟨children, hall, h⟩ := bind_eq_ok.mp h
  refine ⟨workers, coordinator, hworkers, hcoordinator, ?_⟩
  rw [← spawnServer_ok hserver, ← spawnAll_ok hall]
  exact (Except.ok.inj h).symm

theorem spawnGroup_ne_nil {l : Launch} {a : Attempt} {spec : String} {group : List Argv}
    (h : spawnGroup l a spec = .ok group) : group ≠ [] := by
  obtain ⟨workers, coordinator, _, _, rfl⟩ := spawnGroup_ok h
  simp

/-- Two groups spawned for one configuration are the same command lines. -/
theorem spawnGroup_unique {l : Launch} {a b : Attempt} {spec : String} {group other : List Argv}
    (ha : spawnGroup l a spec = .ok group) (hb : spawnGroup l b spec = .ok other) :
    other = group := by
  obtain ⟨workers, coordinator, hworkers, hcoordinator, rfl⟩ := spawnGroup_ok ha
  obtain ⟨workers', coordinator', hworkers', hcoordinator', rfl⟩ := spawnGroup_ok hb
  obtain rfl : workers = workers' := Except.ok.inj (hworkers.symm.trans hworkers')
  obtain rfl : coordinator = coordinator' := Except.ok.inj (hcoordinator.symm.trans hcoordinator')
  rfl

/-- With a spawnable kind and a model, an attempt gives the whole group or nothing. -/
theorem spawnEngine_cases {l : Launch} (hkind : l.shouldSpawn = true) {spec : String}
    (hspec : l.models.head? = some spec) (a : Attempt) (children : List Argv) :
    (∃ group, spawnGroup l a spec = .ok group ∧
        spawnEngineForDefaultModel l a children = (.ok (), group)) ∨
      ∃ e, spawnEngineForDefaultModel l a children = (.error e, children) := by
  unfold spawnEngineForDefaultModel
  rw [hkind, hspec]
  cases hgroup : spawnGroup l a spec with
  | error e => exact .inr ⟨e, by simp [hgroup]⟩
  | ok group => exact .inl ⟨group, rfl, by simp [hgroup]⟩

/-! ## The loop -/

section Loop

variable {l : Launch} {group : List Argv} (hne : group ≠ [])
include hne

/-- With the whole group, an iteration is attended. -/
theorem attended_of_group {s : Supervise} (hs : s.children = group) (it : Iteration) :
    Attended l group s it := by
  unfold Attended superviseOnce
  rw [hs, if_neg (by simpa using hne)]
  by_cases hexit : (List.range group.length).any it.exited = true
  · exact .inr ⟨_, by rw [if_pos hexit]⟩
  · refine .inl ⟨rfl, fun i hi => ?_⟩
    by_contra hi'
    exact hexit (List.any_eq_true.mpr ⟨i, List.mem_range.mpr hi, by simpa using hi'⟩)

/-- Without children, it is not. -/
theorem not_attended_of_nil {s : Supervise} (hs : s.children = []) (it : Iteration) :
    ¬ Attended l group s it := by
  rintro (⟨hgroup, _⟩ | ⟨result, hresult⟩)
  · exact hne (hgroup.symm.trans hs)
  · rw [superviseOnce, hs] at hresult
    exact absurd hresult (by simp)

end Loop

/-- An iteration leaves the whole group, unless its respawn fails and leaves nothing. -/
theorem superviseOnce_children {l : Launch} (hkind : l.shouldSpawn = true) {spec : String}
    (hspec : l.models.head? = some spec) {a : Attempt} {group : List Argv}
    (hgroup : spawnGroup l a spec = .ok group) {s : Supervise} (hs : s.children = group)
    (it : Iteration) :
    ((superviseOnce l s it).2.children = group ∧
        ∀ e, (superviseOnce l s it).1 ≠ .respawn (.error e)) ∨
      ((superviseOnce l s it).2.children = [] ∧
        ∃ e, (superviseOnce l s it).1 = .respawn (.error e)) := by
  unfold superviseOnce
  rw [hs, if_neg (by simpa using spawnGroup_ne_nil hgroup)]
  by_cases hexit : (List.range group.length).any it.exited = true
  · rw [if_pos hexit]
    rcases spawnEngine_cases hkind hspec it.attempt [] with ⟨other, hother, hr⟩ | ⟨e, hr⟩
    · rw [hr]
      exact .inl ⟨spawnGroup_unique hgroup hother, by simp⟩
    · rw [hr]
      exact .inr ⟨rfl, e, rfl⟩
  · rw [if_neg hexit]
    exact .inl ⟨rfl, by simp⟩

/-- The whole group is there as long as no respawn has failed. -/
theorem children_superviseAt {l : Launch} (hkind : l.shouldSpawn = true) {spec : String}
    (hspec : l.models.head? = some spec) {a : Attempt} {group : List Argv}
    (hgroup : spawnGroup l a spec = .ok group) (its : Nat → Iteration) (n : Nat)
    (hok : ∀ m < n, ∀ e, seenAt l ⟨group, 1⟩ its m ≠ .respawn (.error e)) :
    (superviseAt l ⟨group, 1⟩ its n).children = group := by
  induction n with
  | zero => rfl
  | succ n ih =>
    have hbefore := ih fun m hm => hok m (Nat.lt_succ_of_lt hm)
    rcases superviseOnce_children hkind hspec hgroup hbefore (its n) with ⟨hnext, _⟩ | ⟨_, e, hfail⟩
    · exact hnext
    · exact absurd hfail (hok n (Nat.lt_succ_self n) e)

/-- After a successful start, every iteration sees the whole group alive or attempts a respawn,
    exactly if no respawn ever fails. -/
theorem supervise_attends_iff (l : Launch) (hkind : l.shouldSpawn = true) (hmodel : l.models ≠ [])
    (a : Attempt) (group : List Argv)
    (hstart : spawnEngineForDefaultModel l a [] = (.ok (), group)) (its : Nat → Iteration) :
    (∀ n, Attended l group (superviseAt l ⟨group, 1⟩ its n) (its n)) ↔
      ∀ n e, seenAt l ⟨group, 1⟩ its n ≠ .respawn (.error e) := by
  obtain ⟨spec, hspec⟩ : ∃ spec, l.models.head? = some spec :=
    Option.isSome_iff_exists.mp (by simpa using hmodel)
  have hgroup : spawnGroup l a spec = .ok group := by
    rcases spawnEngine_cases hkind hspec a [] with ⟨other, hother, hr⟩ | ⟨e, hr⟩
    · rw [hstart] at hr
      rw [hother, (Prod.mk.inj hr).2]
    · rw [hstart] at hr
      exact absurd (Prod.mk.inj hr).1 (by simp)
  have hne := spawnGroup_ne_nil hgroup
  constructor
  · intro hattended n
    induction n using Nat.strongRecOn with
    | _ n ih =>
      intro e hfail
      have hbefore := children_superviseAt hkind hspec hgroup its n ih
      rcases superviseOnce_children hkind hspec hgroup hbefore (its n) with ⟨_, hok⟩ | ⟨hnext, _⟩
      · exact hok e hfail
      · exact not_attended_of_nil hne hnext _ (hattended (n + 1))
  · intro hok n
    have hbefore := children_superviseAt hkind hspec hgroup its n fun m _ => hok m
    exact attended_of_group hne hbefore (its n)

/-- One process, an engine that is not a pipeline. -/
def plainLaunch : Launch where
  kind := .llamaCpp
  kvOffload := .none
  lmcacheMode := .v1
  spawnServer := false
  lmcacheServerArgv := []
  models := ["m"]
  renderPipelineWorkers := fun _ => .ok []
  renderArgv := fun m => .ok ["llama-server", "-m", m]

/-- The engine has exited by the first iteration, and its respawn meets `err`. -/
def crash (err : Option String) (n : Nat) : Iteration where
  exited := fun _ => n == 0
  attempt := ⟨fun _ => err, none⟩

theorem supervise_attends_crash :
    plainLaunch.shouldSpawn = true ∧ plainLaunch.models ≠ [] ∧
      spawnEngineForDefaultModel plainLaunch ⟨fun _ => none, none⟩ [] =
        (.ok (), [["llama-server", "-m", "m"]]) ∧
      ((∀ n, Attended plainLaunch [["llama-server", "-m", "m"]]
          (superviseAt plainLaunch ⟨[["llama-server", "-m", "m"]], 1⟩ (crash none) n)
          (crash none n)) ↔
        ∀ n e, seenAt plainLaunch ⟨[["llama-server", "-m", "m"]], 1⟩ (crash none) n ≠
          .respawn (.error e)) :=
  ⟨rfl, by decide, rfl,
    supervise_attends_iff plainLaunch rfl (by decide) ⟨fun _ => none, none⟩ _ rfl (crash none)⟩

/-- After one failed respawn the loop does nothing any more. -/
theorem supervise_gives_up :
    ¬ ∀ n, Attended plainLaunch [["llama-server", "-m", "m"]]
      (superviseAt plainLaunch ⟨[["llama-server", "-m", "m"]], 1⟩
        (crash (some "Resource temporarily unavailable")) n)
      (crash (some "Resource temporarily unavailable") n) := by
  intro h
  exact not_attended_of_nil (by decide) rfl _ (h 1)

end Cognitora.Agent
