/-
  The cache epoch an agent reports (cgn-agent `src/kv_cache_state.rs`).

  `observe` raises the epoch when the engine goes away or comes back, when the block pool
  changes its size and when many blocks become free at once. `observe_mono`: within one
  `KvCacheState` the epoch never falls.

  A state keeps the last pair of free and total blocks and takes zeros in it for a missing
  report. `resets_detected_iff`: a reset between two reports raises the epoch exactly if the
  engine was seen not ready in between, or no heartbeat came in between and the pool changed its
  size or had a free block. A failed scrape in between, which is observed as zeros, hides it.

  The epoch is a `u64` that saturates.
-/
import Mathlib.Algebra.Ring.Nat
import Mathlib.Data.Nat.Basic

namespace Cognitora.Agent

/-- What the engine reports about itself. -/
structure EngineStats where
  queueDepth : UInt32
  freeBlocks : UInt32
  totalBlocks : UInt32

/-- The ratio of free blocks is below 5 %, in `f32`. -/
def EngineStats.lowOnBlocks (freeBlocks totalBlocks : UInt32) : Bool :=
  freeBlocks.toFloat32 / totalBlocks.toFloat32 < 0.05

structure KvCacheState where
  kvEpoch : Nat
  wasReady : Bool
  sawReady : Bool
  lastFree : UInt32
  lastTotal : UInt32

namespace KvCacheState

/-- `KvCacheState::default`. -/
def fresh : KvCacheState where
  kvEpoch := 0
  wasReady := false
  sawReady := false
  lastFree := 0
  lastTotal := 0

def u64Max : Nat := 2 ^ 64 - 1

def bump (s : KvCacheState) : KvCacheState :=
  { s with kvEpoch := min (s.kvEpoch + 1) u64Max }

def bumpIf (cond : Bool) (s : KvCacheState) : KvCacheState :=
  if cond then s.bump else s

/-- Many more blocks are free than at the last heartbeat. -/
def jumped (s : KvCacheState) (stats : EngineStats) : Bool :=
  let delta : Int := stats.freeBlocks.toNat - s.lastFree.toNat
  let threshold : Int := max (stats.totalBlocks.toNat / 6) 32
  threshold ≤ delta

/-- A heartbeat of a ready engine, after the checks of its readiness. -/
def observeBlocks (s : KvCacheState) (stats : EngineStats) : KvCacheState :=
  if 0 < stats.totalBlocks then
    let s := s.bumpIf (0 < s.lastTotal && stats.totalBlocks != s.lastTotal)
    s.bumpIf (0 < s.lastTotal && 0 < s.lastFree && s.jumped stats)
  else s

/-- `KvCacheState::observe`; the epoch it returns is that of the new state. -/
def observe (s : KvCacheState) (ready : Bool) (stats : EngineStats) : KvCacheState :=
  let s := s.bumpIf (s.sawReady && s.wasReady && !ready)
  let s :=
    if ready then
      let s := (s.bumpIf (s.sawReady && !s.wasReady)).observeBlocks stats
      { s with sawReady := true, lastFree := stats.freeBlocks, lastTotal := stats.totalBlocks }
    else s
  { s with wasReady := ready }

theorem bumpIf_mono (cond : Bool) {s : KvCacheState} (hs : s.kvEpoch ≤ u64Max) :
    s.kvEpoch ≤ (s.bumpIf cond).kvEpoch ∧ (s.bumpIf cond).kvEpoch ≤ u64Max := by
  unfold bumpIf bump
  split
  · dsimp only
    omega
  · exact ⟨Nat.le_refl _, hs⟩

theorem observeBlocks_mono {s : KvCacheState} (stats : EngineStats) (hs : s.kvEpoch ≤ u64Max) :
    s.kvEpoch ≤ (s.observeBlocks stats).kvEpoch ∧ (s.observeBlocks stats).kvEpoch ≤ u64Max := by
  unfold observeBlocks
  split
  · obtain ⟨hsize, hsizeMax⟩ :=
      bumpIf_mono (0 < s.lastTotal && stats.totalBlocks != s.lastTotal) hs
    dsimp only
    obtain ⟨hjump, hjumpMax⟩ := bumpIf_mono _ hsizeMax
    exact ⟨Nat.le_trans hsize hjump, hjumpMax⟩
  · exact ⟨Nat.le_refl _, hs⟩

/-- The epoch never falls within one state. -/
theorem observe_mono {s : KvCacheState} (ready : Bool) (stats : EngineStats)
    (hs : s.kvEpoch ≤ u64Max) :
    s.kvEpoch ≤ (s.observe ready stats).kvEpoch ∧ (s.observe ready stats).kvEpoch ≤ u64Max := by
  obtain ⟨hgone, hgoneMax⟩ := bumpIf_mono (s.sawReady && s.wasReady && !ready) hs
  unfold observe
  cases ready with
  | false => exact ⟨hgone, hgoneMax⟩
  | true =>
    obtain ⟨hback, hbackMax⟩ := bumpIf_mono _ hgoneMax
    obtain ⟨hblocks, hblocksMax⟩ := observeBlocks_mono stats hbackMax
    exact ⟨Nat.le_trans hgone (Nat.le_trans hback hblocks), hblocksMax⟩

/-- What a heartbeat shows of a restart: the engine goes away or comes back, its pool has another
    size, or many blocks are free at once. -/
def notices (s : KvCacheState) (ready : Bool) (stats : EngineStats) : Bool :=
  if ready then
    (s.sawReady && !s.wasReady) ||
      (0 < stats.totalBlocks && 0 < s.lastTotal &&
        (stats.totalBlocks != s.lastTotal || (0 < s.lastFree && s.jumped stats)))
  else s.sawReady && s.wasReady

theorem lt_bumpIf {cond : Bool} {s : KvCacheState} (hcond : cond = true)
    (hmax : s.kvEpoch < u64Max) : s.kvEpoch < (s.bumpIf cond).kvEpoch := by
  rw [hcond]
  show s.kvEpoch < min (s.kvEpoch + 1) u64Max
  omega

theorem lt_observeBlocks {s : KvCacheState} {stats : EngineStats} (hmax : s.kvEpoch < u64Max)
    (htotal : 0 < stats.totalBlocks) (hlast : 0 < s.lastTotal)
    (h : (stats.totalBlocks != s.lastTotal || (0 < s.lastFree && s.jumped stats)) = true) :
    s.kvEpoch < (s.observeBlocks stats).kvEpoch := by
  unfold observeBlocks
  rw [if_pos htotal, decide_eq_true hlast, Bool.true_and]
  dsimp only
  cases hsize : stats.totalBlocks != s.lastTotal with
  | true =>
    obtain ⟨_, hle⟩ := bumpIf_mono true (Nat.le_of_lt hmax)
    exact Nat.lt_of_lt_of_le (lt_bumpIf rfl hmax) (bumpIf_mono _ hle).1
  | false =>
    rw [hsize, Bool.false_or] at h
    refine lt_bumpIf (s := s) ?_ hmax
    show (decide (0 < s.lastTotal) && decide (0 < s.lastFree) && s.jumped stats) = true
    rw [decide_eq_true hlast, Bool.true_and, h]

/-- Short of the maximum, the epoch rises with what a heartbeat shows. -/
theorem lt_observe {s : KvCacheState} {ready : Bool} {stats : EngineStats}
    (hmax : s.kvEpoch < u64Max) (h : s.notices ready stats = true) :
    s.kvEpoch < (s.observe ready stats).kvEpoch := by
  unfold notices at h
  unfold observe
  cases ready with
  | false => exact lt_bumpIf (by simpa using h) hmax
  | true =>
    have hstays : (s.sawReady && s.wasReady && !true) = false := Bool.and_false _
    rw [hstays]
    show s.kvEpoch < ((s.bumpIf (s.sawReady && !s.wasReady)).observeBlocks stats).kvEpoch
    cases hback : s.sawReady && !s.wasReady with
    | true =>
      obtain ⟨_, hle⟩ := bumpIf_mono true (Nat.le_of_lt hmax)
      exact Nat.lt_of_lt_of_le (lt_bumpIf rfl hmax) (observeBlocks_mono stats hle).1
    | false =>
      rw [if_pos rfl, hback, Bool.false_or] at h
      simp only [Bool.and_eq_true, decide_eq_true_eq] at h
      exact lt_observeBlocks hmax h.1.1 h.1.2 h.2

/-- The first heartbeat of a fresh state has epoch 0, whatever the engine went through. -/
theorem observe_fresh (ready : Bool) (stats : EngineStats) :
    (fresh.observe ready stats).kvEpoch = 0 := by
  cases ready with
  | false => rfl
  | true =>
    -- The last totals of a fresh state are 0, so no comparison with them raises the epoch.
    simp [observe, observeBlocks, bumpIf, fresh]

/-! ## Resets across gaps -/

/-- What one heartbeat observes; a failed scrape gives all-zero stats. -/
structure Heartbeat where
  ready : Bool
  stats : EngineStats

/-- A ready engine that reports its block pool. -/
def Heartbeat.Reports (o : Heartbeat) : Prop :=
  o.ready = true ∧ 0 < o.stats.totalBlocks

def beat (s : KvCacheState) (o : Heartbeat) : KvCacheState :=
  s.observe o.ready o.stats

/-- The state after some heartbeats. -/
def after (beats : List Heartbeat) : KvCacheState :=
  beats.foldl beat fresh

/-- The pool changed its size, or at least `max(total / 6, 32)` more blocks are free. -/
def Reset (old new : EngineStats) : Prop :=
  new.totalBlocks ≠ old.totalBlocks ∨
    max (new.totalBlocks.toNat / 6 : Int) 32 ≤ new.freeBlocks.toNat - old.freeBlocks.toNat

/-- A reset between two reports with no other report in between. -/
structure Gap where
  before : List Heartbeat
  last : Heartbeat
  between : List Heartbeat
  now : Heartbeat
  last_reports : last.Reports
  between_silent : ∀ o ∈ between, ¬ o.Reports
  now_reports : now.Reports
  reset : Reset last.stats now.stats

namespace Gap

/-- The epoch right after the earlier report. -/
def oldEpoch (g : Gap) : Nat :=
  (after (g.before ++ [g.last])).kvEpoch

/-- The epoch after the current report. -/
def newEpoch (g : Gap) : Nat :=
  (after (g.before ++ [g.last] ++ g.between ++ [g.now])).kvEpoch

end Gap

theorem after_append (beats more : List Heartbeat) :
    after (beats ++ more) = more.foldl beat (after beats) :=
  List.foldl_append

theorem foldl_beat_mono (beats : List Heartbeat) {s : KvCacheState} (hs : s.kvEpoch ≤ u64Max) :
    s.kvEpoch ≤ (beats.foldl beat s).kvEpoch ∧ (beats.foldl beat s).kvEpoch ≤ u64Max := by
  induction beats generalizing s with
  | nil => exact ⟨Nat.le_refl _, hs⟩
  | cons o beats ih =>
    obtain ⟨hle, hmax⟩ := observe_mono o.ready o.stats hs
    obtain ⟨hrest, hrestMax⟩ := ih hmax
    exact ⟨Nat.le_trans hle hrest, hrestMax⟩

theorem after_le_max (beats : List Heartbeat) : (after beats).kvEpoch ≤ u64Max :=
  (foldl_beat_mono beats (Nat.zero_le _)).2

/-- The engine was ready at the last heartbeat. -/
def Awake (s : KvCacheState) : Prop :=
  s.sawReady = true ∧ s.wasReady = true

theorem awake_beat {o : Heartbeat} (ho : o.ready = true) (s : KvCacheState) : Awake (s.beat o) := by
  unfold beat observe
  rw [ho]
  exact ⟨rfl, rfl⟩

theorem last_beat {o : Heartbeat} (ho : o.ready = true) (s : KvCacheState) :
    (s.beat o).lastFree = o.stats.freeBlocks ∧ (s.beat o).lastTotal = o.stats.totalBlocks := by
  unfold beat observe
  rw [ho]
  exact ⟨rfl, rfl⟩

theorem epoch_bumpIf (cond : Bool) (s : KvCacheState) :
    (s.bumpIf cond).kvEpoch = if cond then min (s.kvEpoch + 1) u64Max else s.kvEpoch := by
  unfold bumpIf bump
  split
  · rfl
  · rfl

/-- An engine that goes away raises the epoch. -/
theorem epoch_beat_gone {s : KvCacheState} (hs : Awake s) {o : Heartbeat} (ho : o.ready = false) :
    (s.beat o).kvEpoch = min (s.kvEpoch + 1) u64Max := by
  have hgone : (s.sawReady && s.wasReady && !o.ready) = true := by
    rw [hs.1, hs.2, ho]
    rfl
  unfold beat observe
  rw [hgone, ho]
  rfl

/-- While the engine stays ready only its reports count. -/
theorem epoch_beat_awake {s : KvCacheState} (hs : Awake s) {o : Heartbeat} (ho : o.ready = true) :
    (s.beat o).kvEpoch = (s.observeBlocks o.stats).kvEpoch := by
  have hstays : (s.sawReady && s.wasReady && !o.ready) = false := by
    rw [ho]
    simp
  have hback : (s.sawReady && !s.wasReady) = false := by
    rw [hs.2]
    simp
  unfold beat observe bumpIf
  rw [hstays, ho, if_neg (by simp)]
  dsimp only
  rw [if_pos rfl, hback, if_neg (by simp)]

/-- Without a report before it, a report is compared with nothing. -/
theorem epoch_observeBlocks_unknown {s : KvCacheState} (hs : s.lastTotal = 0)
    (stats : EngineStats) : (s.observeBlocks stats).kvEpoch = s.kvEpoch := by
  unfold observeBlocks
  split
  · simp [bumpIf, hs]
  · rfl

/-- Ready heartbeats without a report leave the epoch alone, and nothing to compare with. -/
theorem foldl_beat_silent {beats : List Heartbeat} (hready : ∀ o ∈ beats, o.ready = true)
    (hsilent : ∀ o ∈ beats, ¬ o.Reports) {s : KvCacheState} (hs : Awake s) :
    Awake (beats.foldl beat s) ∧ (beats.foldl beat s).kvEpoch = s.kvEpoch ∧
      (beats ≠ [] → (beats.foldl beat s).lastTotal = 0) := by
  induction beats generalizing s with
  | nil => exact ⟨hs, rfl, fun h => absurd rfl h⟩
  | cons o beats ih =>
    have ho := hready o List.mem_cons_self
    have hzero : o.stats.totalBlocks = 0 := by
      by_contra hne
      exact hsilent o List.mem_cons_self ⟨ho, UInt32.pos_iff_ne_zero.mpr hne⟩
    have hepoch : (s.beat o).kvEpoch = s.kvEpoch := by
      rw [epoch_beat_awake hs ho, observeBlocks, hzero, if_neg (by decide)]
    obtain ⟨hawake, hsame, hlast⟩ := ih (fun p hp => hready p (List.mem_cons_of_mem _ hp))
      (fun p hp => hsilent p (List.mem_cons_of_mem _ hp)) (awake_beat ho s)
    refine ⟨hawake, hsame.trans hepoch, fun _ => ?_⟩
    by_cases hnil : beats = []
    · rw [hnil]
      exact (last_beat ho s).2.trans hzero
    · exact hlast hnil

/-- An engine that was ready and is not at one of the heartbeats raises the epoch. -/
theorem foldl_beat_gone {beats : List Heartbeat} (hgone : ∃ o ∈ beats, o.ready = false)
    {s : KvCacheState} (hs : Awake s) (hmax : s.kvEpoch < u64Max) :
    s.kvEpoch < (beats.foldl beat s).kvEpoch := by
  induction beats generalizing s with
  | nil =>
    obtain ⟨o, ho, _⟩ := hgone
    cases ho
  | cons o beats ih =>
    obtain ⟨hle, hle'⟩ := observe_mono o.ready o.stats (Nat.le_of_lt hmax)
    have hrest := (foldl_beat_mono beats hle').1
    cases ho : o.ready with
    | false =>
      have hbump := epoch_beat_gone hs ho
      have hfirst : s.kvEpoch < (s.beat o).kvEpoch := by omega
      exact Nat.lt_of_lt_of_le hfirst hrest
    | true =>
      by_cases hlt : s.kvEpoch < (s.beat o).kvEpoch
      · exact Nat.lt_of_lt_of_le hlt hrest
      · have hsame : (s.beat o).kvEpoch = s.kvEpoch := Nat.le_antisymm (Nat.not_lt.mp hlt) hle
        have hlater : ∃ p ∈ beats, p.ready = false := by
          obtain ⟨p, hp, hpr⟩ := hgone
          rcases List.mem_cons.mp hp with rfl | hp
          · rw [ho] at hpr
            cases hpr
          · exact ⟨p, hp, hpr⟩
        have hlt' := ih hlater (awake_beat ho s) (by omega)
        rwa [hsame] at hlt'

theorem jumped_bumpIf (cond : Bool) (s : KvCacheState) (stats : EngineStats) :
    (s.bumpIf cond).jumped stats = s.jumped stats := by
  unfold bumpIf
  split
  · rfl
  · rfl

theorem last_bumpIf (cond : Bool) (s : KvCacheState) :
    (s.bumpIf cond).lastFree = s.lastFree ∧ (s.bumpIf cond).lastTotal = s.lastTotal := by
  unfold bumpIf
  split
  · exact ⟨rfl, rfl⟩
  · exact ⟨rfl, rfl⟩

/-- A reset between two reports in a row is missed if no block was free at the first. -/
theorem epoch_reset_lt_iff {s : KvCacheState} {old new : EngineStats} (hs : s.kvEpoch ≤ u64Max)
    (hfree : s.lastFree = old.freeBlocks) (htotal : s.lastTotal = old.totalBlocks)
    (hold : 0 < old.totalBlocks) (hnew : 0 < new.totalBlocks) (hreset : Reset old new) :
    s.kvEpoch < (s.observeBlocks new).kvEpoch ↔
      s.kvEpoch < u64Max ∧ (new.totalBlocks ≠ old.totalBlocks ∨ 0 < old.freeBlocks) := by
  unfold observeBlocks
  rw [if_pos hnew]
  dsimp only
  rw [epoch_bumpIf, epoch_bumpIf, jumped_bumpIf, (last_bumpIf _ s).1, (last_bumpIf _ s).2, hfree,
    htotal, decide_eq_true hold, Bool.true_and, Bool.true_and]
  by_cases hsize : new.totalBlocks = old.totalBlocks
  · have hjumped : s.jumped new = true := by
      unfold jumped
      rw [hfree]
      exact decide_eq_true (hreset.resolve_left fun h => h hsize)
    rw [hjumped, Bool.and_true, hsize, bne_self_eq_false]
    by_cases hsome : 0 < old.freeBlocks
    · rw [decide_eq_true hsome, if_pos rfl, if_neg Bool.false_ne_true, and_iff_left (Or.inr hsome)]
      omega
    · rw [decide_eq_false hsome, if_neg Bool.false_ne_true, if_neg Bool.false_ne_true]
      exact iff_of_false (Nat.lt_irrefl _) fun h => h.2.elim (fun hne => hne rfl) hsome
  · have hne : (new.totalBlocks != old.totalBlocks) = true := by simpa using hsize
    rw [hne, if_pos rfl]
    have hcond : s.kvEpoch < u64Max ∧ (new.totalBlocks ≠ old.totalBlocks ∨ 0 < old.freeBlocks) ↔
        s.kvEpoch < u64Max := and_iff_left (Or.inl hsize)
    rw [hcond]
    split
    · omega
    · omega

/-- The first heartbeat at which the engine is away raises the epoch, and none lowers it. -/
theorem epoch_gone_lt_iff {s : KvCacheState} (hs : Awake s) (hmax : s.kvEpoch ≤ u64Max)
    {between : List Heartbeat} (hgone : ∃ o ∈ between, o.ready = false) (now : Heartbeat) :
    s.kvEpoch < ((between.foldl beat s).beat now).kvEpoch ↔ s.kvEpoch < u64Max := by
  obtain ⟨hlater, htop⟩ := observe_mono now.ready now.stats (foldl_beat_mono between hmax).2
  change (between.foldl beat s).kvEpoch ≤ ((between.foldl beat s).beat now).kvEpoch at hlater
  change ((between.foldl beat s).beat now).kvEpoch ≤ u64Max at htop
  constructor
  · intro h
    exact Nat.lt_of_lt_of_le h htop
  · intro h
    exact Nat.lt_of_lt_of_le (foldl_beat_gone hgone hs h) hlater

/-- The epoch never falls; and it rises over a gap exactly if the engine was not ready at a
    heartbeat of the gap, or there is none and the size of the pool changed or a block was
    free. -/
theorem resets_detected_iff (beats more : List Heartbeat) (g : Gap) :
    (after beats).kvEpoch ≤ (after (beats ++ more)).kvEpoch ∧
      (g.oldEpoch < g.newEpoch ↔
        g.oldEpoch < u64Max ∧ ((∃ o ∈ g.between, o.ready = false) ∨
          g.between = [] ∧ (g.now.stats.totalBlocks ≠ g.last.stats.totalBlocks ∨
            0 < g.last.stats.freeBlocks))) := by
  refine ⟨?mono, ?gap⟩
  case mono =>
    rw [after_append]
    exact (foldl_beat_mono more (after_le_max beats)).1
  case gap =>
    obtain ⟨s, hs⟩ : ∃ s, after (g.before ++ [g.last]) = s := ⟨_, rfl⟩
    have hlast : s = (after g.before).beat g.last := by rw [← hs, after_append]; rfl
    have hmax : s.kvEpoch ≤ u64Max := hs ▸ after_le_max _
    have hawake : Awake s := hlast ▸ awake_beat g.last_reports.1 _
    have hnew : g.newEpoch = ((g.between.foldl beat s).beat g.now).kvEpoch := by
      unfold Gap.newEpoch
      rw [after_append, after_append, hs]
      rfl
    have hold : g.oldEpoch = s.kvEpoch := congrArg kvEpoch hs
    rw [hnew, hold]
    by_cases hgone : ∃ o ∈ g.between, o.ready = false
    · rw [epoch_gone_lt_iff hawake hmax hgone]
      exact (and_iff_left (Or.inl hgone)).symm
    · have hready : ∀ o ∈ g.between, o.ready = true := by
        intro o ho
        by_contra hne
        exact hgone ⟨o, ho, by simpa using hne⟩
      obtain ⟨hstill, hsame, hunknown⟩ := foldl_beat_silent hready g.between_silent hawake
      rw [epoch_beat_awake hstill g.now_reports.1]
      by_cases hnil : g.between = []
      · rw [hnil]
        have hstats := last_beat g.last_reports.1 (after g.before)
        rw [← hlast] at hstats
        have hiff := epoch_reset_lt_iff hmax hstats.1 hstats.2 g.last_reports.2 g.now_reports.2
          g.reset
        simpa using hiff
      · rw [epoch_observeBlocks_unknown (hunknown hnil), hsame]
        exact iff_of_false (Nat.lt_irrefl _) fun h => h.2.elim hgone fun h => hnil h.1

/-- A failed scrape hides that the engine came back with a pool of twice the size. -/
theorem failed_scrape_hides_reset : ¬ ∀ g : Gap, g.oldEpoch < g.newEpoch := by
  intro h
  exact absurd (h
    { before := []
      last := ⟨true, ⟨0, 500, 1000⟩⟩
      between := [⟨true, ⟨0, 0, 0⟩⟩]
      now := ⟨true, ⟨0, 500, 2000⟩⟩
      last_reports := ⟨rfl, by decide⟩
      between_silent := fun o ho => by
        rw [List.mem_singleton.mp ho]
        exact fun hr => absurd hr.2 (by decide)
      now_reports := ⟨rfl, by decide⟩
      reset := Or.inl (by decide) }) (by decide +kernel)

end KvCacheState

end Cognitora.Agent
