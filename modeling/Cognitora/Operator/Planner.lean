/-
  The reactive queue-depth planner (cgn-operator `src/planner.rs`, `plan_pool` and
  `desired_replicas`): sizing of one `ModelPool` from the heartbeats of a tick.

  Without `maxReplicas` the ceiling is `decode_replicas`, the field the planner writes, so a
  scale down lowers the ceiling of every later tick; and the queue depths are summed in `u32`,
  which wraps in a release build. `sized_by_user_ceiling_iff`: over any ticks with elapsed
  cooldowns and successful patches, each one sizes the pool by the user's count exactly if the
  size due never exceeds the count at hand and the wrapped sum gives the same size.

  A tick hands `plan_pool` the pools that have `slo.maxQueuePerReplica`, read from the API
  server, and the heartbeats read from etcd; a tick that fails before changes nothing. The
  status patch and the logging are left out. `Instant`s are in nanoseconds.
-/
import Cognitora.Core.Error
import Cognitora.Lib.Run
import Mathlib.Algebra.Ring.Nat
import Mathlib.Logic.Function.Basic
import Mathlib.Order.Lattice

namespace Cognitora.Operator

open Cognitora.Core Cognitora.Lib

/-- The heartbeat fields the planner needs. -/
structure Heartbeat where
  model : Option String
  queueDepth : UInt32
  ready : Bool

structure SloSpec where
  maxQueuePerReplica : Option UInt32
  minReplicas : Option UInt32
  maxReplicas : Option UInt32
  scaleCooldownSecs : Option UInt64

structure ModelPool where
  name : String
  ns : Option String
  model : String
  decodeReplicas : UInt32
  slo : Option SloSpec

def defaultMinReplicas : UInt32 := 1

def defaultCooldownSecs : UInt64 := 120

/-! ## Sizing -/

/-- `u32::div_ceil`. -/
def divCeil (a b : UInt32) : UInt32 :=
  if a % b > 0 then a / b + 1 else a / b

/-- `Ord::max`. -/
def maxOf (a b : UInt32) : UInt32 :=
  if a ≤ b then b else a

/-- `Ord::clamp`, for `lo ≤ hi`. -/
def clamp (x lo hi : UInt32) : UInt32 :=
  if x < lo then lo else if hi < x then hi else x

/-- `min` above `max` resolves in favour of `min`. -/
def desiredReplicas (totalQueue maxQueuePerReplica min max : UInt32) : UInt32 :=
  clamp (divCeil totalQueue (maxOf maxQueuePerReplica 1)) min (maxOf max min)

/-- The queue depths of the ready nodes that serve `model`. -/
def queueDepths (model : String) (heartbeats : List Heartbeat) : List UInt32 :=
  (heartbeats.filter fun h => h.ready && h.model == some model).map Heartbeat.queueDepth

/-- `Iterator::sum` of `u32`, which wraps around. -/
def totalQueue (model : String) (heartbeats : List Heartbeat) : UInt32 :=
  (queueDepths model heartbeats).foldl (· + ·) 0

/-! ## One pool in one tick -/

/-- A pool in the API server, and `last_scale`. -/
structure Planned where
  pool : ModelPool
  lastScale : String → Option Nat

/-- What a tick brings for the pool. -/
structure PlanInput where
  heartbeats : List Heartbeat
  now : Nat
  /-- The error of the patch, if it fails. -/
  patchError : Option String

def ModelPool.key (pool : ModelPool) : String :=
  pool.ns.getD "default" ++ "/" ++ pool.name

def SloSpec.cooldown (slo : SloSpec) : Nat :=
  (slo.scaleCooldownSecs.getD defaultCooldownSecs).toNat * 1000000000

/-- The scale wanted comes too soon after the last one. -/
def Planned.cooling (s : Planned) (slo : SloSpec) (now : Nat) : Bool :=
  match s.lastScale s.pool.key with
  | some t => decide (now - t < slo.cooldown)
  | none => false

def planPool (s : Planned) (x : PlanInput) : Except Error Planned :=
  match s.pool.slo with
  -- the caller filtered on both
  | none => .ok s
  | some slo =>
    match slo.maxQueuePerReplica with
    | none => .ok s
    | some maxQueue =>
      if maxQueue = 0 then .ok s
      else
        let current := s.pool.decodeReplicas
        let min := slo.minReplicas.getD defaultMinReplicas
        let max := slo.maxReplicas.getD current
        let desired := desiredReplicas (totalQueue s.pool.model x.heartbeats) maxQueue min max
        if desired = current then .ok s
        else if s.cooling slo x.now then .ok s
        else
          match x.patchError with
          | some e => .error (.unavailable ("patch model pool spec: " ++ e))
          | none => .ok
              { pool := { s.pool with decodeReplicas := desired }
                lastScale := Function.update s.lastScale s.pool.key (some x.now) }

/-- A failed pool is logged and skipped. -/
def planStep (s : Planned) (x : PlanInput) : Planned :=
  match planPool s x with
  | .ok s' => s'
  | .error _ => s

/-! ## Sizing in numbers -/

/-- `⌈q / p⌉`. -/
def ceilDiv (q p : Nat) : Nat :=
  (q + p - 1) / p

/-- `⌈q / p⌉`, clamped to `[min, max(n, min)]`. -/
def sizeFor (q p min n : Nat) : Nat :=
  Max.max min (Min.min (ceilDiv q p) (Max.max n min))

theorem toNat_maxOf (a b : UInt32) : (maxOf a b).toNat = max a.toNat b.toNat := by
  unfold maxOf
  split
  · next h =>
    have := UInt32.le_iff_toNat_le.mp h
    omega
  · next h =>
    have := mt UInt32.le_iff_toNat_le.mpr h
    omega

theorem toNat_clamp (x lo hi : UInt32) (h : lo.toNat ≤ hi.toNat) :
    (clamp x lo hi).toNat = max lo.toNat (min x.toNat hi.toNat) := by
  unfold clamp
  split
  · next hx =>
    have := UInt32.lt_iff_toNat_lt.mp hx
    omega
  · next hx =>
    have := mt UInt32.lt_iff_toNat_lt.mpr hx
    split
    · next hhi =>
      have := UInt32.lt_iff_toNat_lt.mp hhi
      omega
    · next hhi =>
      have := mt UInt32.lt_iff_toNat_lt.mpr hhi
      omega

theorem ceilDiv_eq {q p : Nat} (hp : 0 < p) :
    ceilDiv q p = if q % p > 0 then q / p + 1 else q / p := by
  unfold ceilDiv
  have hq := Nat.div_add_mod q p
  have hlt := Nat.mod_lt q hp
  split
  · next h =>
    refine Nat.div_eq_of_lt_le ?_ ?_
    · rw [Nat.add_mul, Nat.mul_comm, Nat.one_mul]
      omega
    · rw [Nat.add_mul, Nat.add_mul, Nat.mul_comm, Nat.one_mul]
      omega
  · next h =>
    refine Nat.div_eq_of_lt_le ?_ ?_
    · rw [Nat.mul_comm]
      omega
    · rw [Nat.add_mul, Nat.mul_comm, Nat.one_mul]
      omega

theorem ceilDiv_mono {q q' : Nat} (h : q ≤ q') (p : Nat) : ceilDiv q p ≤ ceilDiv q' p :=
  Nat.div_le_div_right (by omega)

theorem toNat_divCeil (a : UInt32) {b : UInt32} (hb : 0 < b.toNat) :
    (divCeil a b).toNat = ceilDiv a.toNat b.toNat := by
  have hmod : a % b > 0 ↔ a.toNat % b.toNat > 0 := by
    rw [gt_iff_lt, UInt32.lt_iff_toNat_lt, UInt32.toNat_mod]
    rfl
  have hsucc : a.toNat % b.toNat > 0 → a.toNat / b.toNat + 1 < 2 ^ 32 := by
    intro h
    have ha := a.toNat_lt
    have hq := Nat.div_add_mod a.toNat b.toNat
    have hmul : a.toNat / b.toNat ≤ b.toNat * (a.toNat / b.toNat) := Nat.le_mul_of_pos_left _ hb
    omega
  rw [ceilDiv_eq hb]
  unfold divCeil
  simp only [hmod]
  split
  · next h =>
    rw [UInt32.toNat_add, UInt32.toNat_div]
    exact Nat.mod_eq_of_lt (hsucc h)
  · exact UInt32.toNat_div a b

/-- The sizing rule in numbers. -/
theorem toNat_desiredReplicas (q min n : UInt32) {p : UInt32} (hp : p ≠ 0) :
    (desiredReplicas q p min n).toNat = sizeFor q.toNat p.toNat min.toNat n.toNat := by
  have hpos : 0 < p.toNat := Nat.pos_of_ne_zero fun h => hp (UInt32.toNat_inj.mp h)
  have hone : (maxOf p 1).toNat = p.toNat := by
    rw [toNat_maxOf]
    exact Nat.max_eq_left hpos
  unfold desiredReplicas sizeFor
  rw [toNat_clamp _ _ _ (by rw [toNat_maxOf]; omega), toNat_divCeil _ (by omega), hone,
    toNat_maxOf]

/-- The sum of the queue depths, as a number. -/
def queued (model : String) (heartbeats : List Heartbeat) : Nat :=
  ((queueDepths model heartbeats).map UInt32.toNat).sum

theorem toNat_foldl_add (depths : List UInt32) (a : UInt32) :
    (depths.foldl (· + ·) a).toNat = (a.toNat + (depths.map UInt32.toNat).sum) % 2 ^ 32 := by
  induction depths generalizing a with
  | nil => exact (Nat.mod_eq_of_lt a.toNat_lt).symm
  | cons d depths ih =>
    rw [List.foldl_cons, ih, UInt32.toNat_add, Nat.mod_add_mod, List.map_cons, List.sum_cons,
      Nat.add_assoc]

theorem toNat_totalQueue (model : String) (heartbeats : List Heartbeat) :
    (totalQueue model heartbeats).toNat = queued model heartbeats % 2 ^ 32 := by
  unfold totalQueue queued
  rw [toNat_foldl_add]
  exact congrArg (· % 2 ^ 32) (Nat.zero_add _)

/-! ## Runs -/

/-- A pool with a queue bound and no ceiling of its own. -/
def Unbounded (pool : ModelPool) (p : UInt32) (slo : SloSpec) : Prop :=
  pool.slo = some slo ∧ slo.maxQueuePerReplica = some p ∧ slo.maxReplicas = none

/-- The patch succeeds, and the cooldown is over. -/
def Undisturbed (s : Planned) (x : PlanInput) : Prop :=
  x.patchError = none ∧ s.pool.slo.any (fun slo => s.cooling slo x.now) = false

instance (s : Planned) (x : PlanInput) : Decidable (Undisturbed s x) :=
  inferInstanceAs (Decidable (_ ∧ _))

/-- The floor of a pool's size. -/
def SloSpec.floor (slo : SloSpec) : Nat :=
  (slo.minReplicas.getD defaultMinReplicas).toNat

/-- The size due at a tick, under the user's count. -/
def sizeDue (pool : ModelPool) (p : UInt32) (slo : SloSpec) (x : PlanInput) : Nat :=
  sizeFor (queued pool.model x.heartbeats) p.toNat slo.floor pool.decodeReplicas.toNat

/-- The size the wrapped sum of the queue depths gives. -/
def sizeDueWrapped (pool : ModelPool) (p : UInt32) (slo : SloSpec) (x : PlanInput) : Nat :=
  sizeFor (queued pool.model x.heartbeats % 2 ^ 32) p.toNat slo.floor pool.decodeReplicas.toNat

/-- What an undisturbed tick makes of a pool without a ceiling. -/
theorem pool_planStep {s : Planned} {x : PlanInput} {p : UInt32} {slo : SloSpec}
    (hpool : Unbounded s.pool p slo) (hp : p ≠ 0) (hx : Undisturbed s x) :
    (planStep s x).pool = { s.pool with
      decodeReplicas := desiredReplicas (totalQueue s.pool.model x.heartbeats) p
        (slo.minReplicas.getD defaultMinReplicas) s.pool.decodeReplicas } := by
  obtain ⟨hslo, hmaxq, hmax⟩ := hpool
  obtain ⟨hpatch, hcool⟩ := hx
  rw [hslo, Option.any_some] at hcool
  unfold planStep planPool
  rw [hslo]
  dsimp only
  rw [hmaxq]
  dsimp only
  rw [if_neg hp, hmax, Option.getD_none]
  split
  · next s' h =>
    split at h
    · next hsame =>
      cases h
      rw [hsame]
    · rw [hcool, if_neg (by simp), hpatch] at h
      cases h
      rfl
  · next e h =>
    split at h
    · cases h
    · rw [hcool, if_neg (by simp), hpatch] at h
      cases h

/-- The states of a run that sizes the pool `pool`: only the count changes, and it never
    exceeds the user's count or the floor. -/
structure Sizing (pool : ModelPool) (slo : SloSpec) (s : Planned) : Prop where
  pool_eq : { s.pool with decodeReplicas := pool.decodeReplicas } = pool
  count_le : s.pool.decodeReplicas.toNat ≤ max pool.decodeReplicas.toNat slo.floor

section

variable {pool : ModelPool} {p : UInt32} {slo : SloSpec} {s : Planned} {x : PlanInput}

theorem Sizing.unbounded (h : Sizing pool slo s) (hpool : Unbounded pool p slo) :
    Unbounded s.pool p slo := by
  have hslo : s.pool.slo = pool.slo := (congrArg ModelPool.slo h.pool_eq :)
  unfold Unbounded
  rw [hslo]
  exact hpool

/-- The count after a tick: the sizing rule with the count before it as the ceiling. -/
theorem Sizing.count_planStep (h : Sizing pool slo s) (hpool : Unbounded pool p slo) (hp : p ≠ 0)
    (hx : Undisturbed s x) :
    (planStep s x).pool.decodeReplicas.toNat =
      sizeFor (queued pool.model x.heartbeats % 2 ^ 32) p.toNat slo.floor
        s.pool.decodeReplicas.toNat := by
  have hmodel : s.pool.model = pool.model := (congrArg ModelPool.model h.pool_eq :)
  rw [pool_planStep (h.unbounded hpool) hp hx, ← hmodel, ← toNat_totalQueue]
  exact toNat_desiredReplicas _ _ _ hp

theorem Sizing.planStep (h : Sizing pool slo s) (hpool : Unbounded pool p slo) (hp : p ≠ 0)
    (hx : Undisturbed s x) : Sizing pool slo (planStep s x) where
  pool_eq := by
    rw [pool_planStep (h.unbounded hpool) hp hx]
    exact h.pool_eq
  count_le := by
    have hle := h.count_le
    rw [h.count_planStep hpool hp hx]
    unfold sizeFor
    omega

end

/-- A lower ceiling and a smaller sum give the size due only if that size is under the ceiling
    and the smaller sum gives it too. -/
theorem sizeFor_eq_iff {q q' p min n c : Nat} (hq : q' ≤ q) (hc : c ≤ max n min) :
    sizeFor q' p min c = sizeFor q p min n ↔
      sizeFor q' p min n = sizeFor q p min n ∧ sizeFor q p min n ≤ max c min := by
  have hmono := ceilDiv_mono hq p
  unfold sizeFor
  -- the ceiling in force is the floor or the count
  rcases Nat.le_total c min with hcm | hcm
  · rw [Nat.max_eq_right hcm, Nat.max_eq_left (Nat.min_le_right _ _)]
    omega
  · rw [Nat.max_eq_left hcm]
    omega

/-- Over ticks with elapsed cooldowns and successful patches, the pool is sized by the user's
    count after each of them exactly if, at each, the wrapped sum gives the size due and that
    size is at most the count before the tick or the floor. -/
theorem sized_by_user_ceiling_iff (s : Planned) {p : UInt32} {slo : SloSpec}
    (hpool : Unbounded s.pool p slo) (hp : p ≠ 0) {inputs : List PlanInput}
    (hrun : Along planStep Undisturbed s inputs) :
    Along planStep (fun t x => (planStep t x).pool.decodeReplicas.toNat = sizeDue s.pool p slo x)
        s inputs ↔
      Along planStep (fun t x => sizeDueWrapped s.pool p slo x = sizeDue s.pool p slo x ∧
        sizeDue s.pool p slo x ≤ max t.pool.decodeReplicas.toNat slo.floor) s inputs := by
  refine Along.iff_of (I := Sizing s.pool slo) ?_ ?_ hrun ⟨rfl, by omega⟩
  · intro t x ht hx
    rw [ht.count_planStep hpool hp hx]
    exact sizeFor_eq_iff (Nat.mod_le _ _) ht.count_le
  · intro t x ht hx _
    exact ht.planStep hpool hp hx

/-- A pool of 5 replicas for `m`, with 8 queued requests for each at most. -/
def fivePool : Planned where
  pool :=
    { name := "pool", ns := none, model := "m", decodeReplicas := 5
      slo := some { maxQueuePerReplica := some 8, minReplicas := some 1, maxReplicas := none,
                    scaleCooldownSecs := none } }
  lastScale := fun _ => none

/-- A tick at `now` that finds `depth` requests queued. -/
def queueTick (depth : UInt32) (now : Nat) : PlanInput where
  heartbeats := [{ model := some "m", queueDepth := depth, ready := true }]
  now := now
  patchError := none

/-- A queue that only shrinks: 40, then 12 requests. -/
theorem sized_by_user_ceiling_shrinking :
    Along planStep Undisturbed fivePool [queueTick 40 0, queueTick 12 300000000000] ∧
      Along planStep (fun t x => (planStep t x).pool.decodeReplicas.toNat =
        sizeDue fivePool.pool 8 ⟨some 8, some 1, none, none⟩ x) fivePool
        [queueTick 40 0, queueTick 12 300000000000] :=
  ⟨by decide, (sized_by_user_ceiling_iff fivePool ⟨rfl, rfl, rfl⟩ (by decide) (by decide)).mpr
    (by decide)⟩

/-- An idle tick takes the pool of 5 down to 1, and 40 queued requests later keep it there. -/
theorem idle_tick_lowers_ceiling :
    ¬ ∀ (s : Planned) (p : UInt32) (slo : SloSpec) (inputs : List PlanInput),
      Unbounded s.pool p slo → p ≠ 0 → Along planStep Undisturbed s inputs →
      Along planStep (fun t x => (planStep t x).pool.decodeReplicas.toNat = sizeDue s.pool p slo x)
        s inputs := by
  intro h
  have hsized := h fivePool 8 ⟨some 8, some 1, none, none⟩
    [queueTick 0 0, queueTick 40 300000000000] ⟨rfl, rfl, rfl⟩ (by decide) (by decide)
  exact absurd hsized.2.1 (by decide)

end Cognitora.Operator
