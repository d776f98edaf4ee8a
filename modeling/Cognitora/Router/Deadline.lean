/-
  Deadline admission (cgn-router `src/deadline.rs`): a request is let in if its estimated time
  to the first token is within its deadline.

  `check` compares 32-bit values: products saturate, the sum of the SLO and the token time
  wraps, and the estimate is divided after it has saturated, so that it never exceeds
  `u32::MAX / max_concurrent`. `deadline_admission_exact` says for every request when it is let in
  exactly if the estimate is within the deadline, both as numbers capped at `u32::MAX`, and when
  a request that allows more time is let in with it. Setting a deadline for the first time can
  allow less.

  The definitions of the source are in `Router/Dispatch`.
-/
import Cognitora.Router.Dispatch

namespace Cognitora.Router

/-- The deadline of a request, as a number. -/
def exactDeadlineMs (cfg : DeadlineConfig) (req : GenerateRequest) : Nat :=
  if req.deadlineMs > 0 then req.deadlineMs else cfg.ttftSloMs + 30 * req.maxTokens.getD 256

/-- The estimated time to the first token, as a number. -/
def exactTtftMs (cfg : DeadlineConfig) (queueDepth : Nat) : Nat :=
  100 * max queueDepth 1 / max cfg.maxConcurrentPerReplica 1

/-- The fields that are `u32` in the source. -/
structure IsU32 (cfg : DeadlineConfig) (req : GenerateRequest) (queueDepth : Nat) : Prop where
  maxConcurrent : cfg.maxConcurrentPerReplica ≤ u32Max
  deadline : req.deadlineMs ≤ u32Max
  maxTokens : req.maxTokens.getD 256 ≤ u32Max
  queueDepth : queueDepth ≤ u32Max

/-- The SLO and the token time of a request without a deadline, before the addition wraps. -/
def sloSumMs (cfg : DeadlineConfig) (req : GenerateRequest) : Nat :=
  min cfg.ttftSloMs u32Max + min (req.maxTokens.getD 256 * 30) u32Max

/-- What becomes of the estimate when its product saturates. -/
def ttftCapMs (cfg : DeadlineConfig) : Nat :=
  u32Max / max cfg.maxConcurrentPerReplica 1

/-- A sum that wraps has gone round far enough to cover the estimate again, and the deadline is
    not one that the saturated estimate meets and the true one misses. -/
structure Agrees (cfg : DeadlineConfig) (req : GenerateRequest) (queueDepth : Nat) : Prop where
  sum : req.deadlineMs = 0 → u32Max < sloSumMs cfg req →
    min (exactTtftMs cfg queueDepth) (ttftCapMs cfg) + 2 ^ 32 ≤ sloSumMs cfg req
  estimate : exactDeadlineMs cfg req < ttftCapMs cfg ∨
    min (exactTtftMs cfg queueDepth) u32Max ≤ exactDeadlineMs cfg req

theorem ttftCapMs_le (cfg : DeadlineConfig) : ttftCapMs cfg ≤ u32Max :=
  Nat.div_le_self _ _

theorem estimateTtftMs_eq (cfg : DeadlineConfig) (queueDepth : Nat) :
    estimateTtftMs cfg queueDepth = min (exactTtftMs cfg queueDepth) (ttftCapMs cfg) := by
  unfold estimateTtftMs exactTtftMs ttftCapMs
  rw [Nat.mul_comm 100]
  rcases Nat.le_total (max queueDepth 1 * 100) u32Max with hle | hle
  · rw [Nat.min_eq_left hle, Nat.min_eq_left (Nat.div_le_div_right hle)]
  · rw [Nat.min_eq_right hle, Nat.min_eq_right (Nat.div_le_div_right hle)]

theorem effectiveDeadlineMs_of_set {cfg : DeadlineConfig} {req : GenerateRequest}
    (hset : 0 < req.deadlineMs) : effectiveDeadlineMs cfg req = req.deadlineMs :=
  if_pos hset

theorem effectiveDeadlineMs_of_unset {cfg : DeadlineConfig} {req : GenerateRequest}
    (hunset : req.deadlineMs = 0) : effectiveDeadlineMs cfg req = sloSumMs cfg req % 2 ^ 32 :=
  if_neg (by omega)

/-- The addition wraps at most once. -/
theorem sloSumMs_mod (cfg : DeadlineConfig) (req : GenerateRequest) :
    sloSumMs cfg req % 2 ^ 32 =
      if sloSumMs cfg req ≤ u32Max then sloSumMs cfg req else sloSumMs cfg req - 2 ^ 32 := by
  have hle : sloSumMs cfg req ≤ 2 * u32Max := by
    unfold sloSumMs
    omega
  unfold u32Max at *
  split
  · omega
  · omega

theorem effectiveDeadlineMs_eq {cfg : DeadlineConfig} {req : GenerateRequest}
    (hreq : req.deadlineMs ≤ u32Max)
    (hsum : req.deadlineMs = 0 → sloSumMs cfg req ≤ u32Max) :
    effectiveDeadlineMs cfg req = min (exactDeadlineMs cfg req) u32Max := by
  rcases Nat.eq_zero_or_pos req.deadlineMs with hunset | hset
  · have hle := hsum hunset
    rw [effectiveDeadlineMs_of_unset hunset, sloSumMs_mod, if_pos hle, exactDeadlineMs,
      if_neg (by omega)]
    unfold sloSumMs at hle ⊢
    omega
  · rw [effectiveDeadlineMs_of_set hset, exactDeadlineMs, if_pos hset, Nat.min_eq_left hreq]

/-- A deadline that wraps is out of range as a number. -/
theorem u32Max_lt_exactDeadlineMs {cfg : DeadlineConfig} {req : GenerateRequest}
    (hunset : req.deadlineMs = 0) (hwraps : u32Max < sloSumMs cfg req) :
    u32Max < exactDeadlineMs cfg req := by
  rw [exactDeadlineMs, if_neg (by omega)]
  unfold sloSumMs at hwraps
  omega

theorem checkDeadline_eq_accept_iff {cfg : DeadlineConfig} (hon : cfg.deadlineAdmission = true)
    (req : GenerateRequest) (queueDepth : Nat) :
    checkDeadline cfg req queueDepth = .accept ↔
      min (exactTtftMs cfg queueDepth) (ttftCapMs cfg) ≤ effectiveDeadlineMs cfg req := by
  rw [← estimateTtftMs_eq]
  unfold checkDeadline
  rw [hon, if_neg (by simp)]
  dsimp only
  split
  · next hlate => exact iff_of_false (by simp) (Nat.not_le.mpr hlate)
  · next hgood => exact iff_of_true rfl (Nat.not_lt.mp hgood)

theorem accept_iff_of_wraps {cfg : DeadlineConfig} (hon : cfg.deadlineAdmission = true)
    {req : GenerateRequest} (queueDepth : Nat) (hunset : req.deadlineMs = 0)
    (hwraps : u32Max < sloSumMs cfg req) :
    checkDeadline cfg req queueDepth = .accept ↔
      min (exactTtftMs cfg queueDepth) (ttftCapMs cfg) + 2 ^ 32 ≤ sloSumMs cfg req := by
  rw [checkDeadline_eq_accept_iff hon, effectiveDeadlineMs_of_unset hunset, sloSumMs_mod,
    if_neg (Nat.not_le.mpr hwraps)]
  unfold u32Max at hwraps
  omega

/-- The comparison of `check`, against that of the numbers. -/
theorem accept_exact_iff {cfg : DeadlineConfig} (hon : cfg.deadlineAdmission = true)
    {req : GenerateRequest} {queueDepth : Nat} (hreq : req.deadlineMs ≤ u32Max) :
    (checkDeadline cfg req queueDepth = .accept ↔
        min (exactTtftMs cfg queueDepth) u32Max ≤ min (exactDeadlineMs cfg req) u32Max) ↔
      Agrees cfg req queueDepth := by
  by_cases hwraps : req.deadlineMs = 0 ∧ u32Max < sloSumMs cfg req
  · -- the numbers are in time, whatever the estimate
    have hlarge := u32Max_lt_exactDeadlineMs hwraps.1 hwraps.2
    have hintime : min (exactTtftMs cfg queueDepth) u32Max ≤ exactDeadlineMs cfg req := by omega
    rw [accept_iff_of_wraps hon queueDepth hwraps.1 hwraps.2,
      iff_true_right (Nat.le_min.mpr ⟨hintime, Nat.min_le_right _ _⟩)]
    exact ⟨fun h => ⟨fun _ _ => h, .inr hintime⟩, fun h => h.sum hwraps.1 hwraps.2⟩
  · have hsum : req.deadlineMs = 0 → sloSumMs cfg req ≤ u32Max := fun h => by
      by_contra hlt
      exact hwraps ⟨h, Nat.not_le.mp hlt⟩
    have hcap := ttftCapMs_le cfg
    rw [checkDeadline_eq_accept_iff hon, effectiveDeadlineMs_eq hreq hsum]
    constructor
    · intro h
      exact ⟨fun hunset hlt => absurd ⟨hunset, hlt⟩ hwraps, by omega⟩
    · rintro ⟨_, hestimate⟩
      omega

/-- The second configuration and request allow at least as much time as the first. -/
structure Laxer (cfg cfg' : DeadlineConfig) (req req' : GenerateRequest) : Prop where
  admission : cfg'.deadlineAdmission = cfg.deadlineAdmission
  maxConcurrent : cfg'.maxConcurrentPerReplica = cfg.maxConcurrentPerReplica
  ttftSlo : cfg.ttftSloMs ≤ cfg'.ttftSloMs
  maxTokens : req.maxTokens.getD 256 ≤ req'.maxTokens.getD 256
  deadline : req.deadlineMs ≤ req'.deadlineMs

theorem Laxer.sloSumMs_le {cfg cfg' : DeadlineConfig} {req req' : GenerateRequest}
    (h : Laxer cfg cfg' req req') : sloSumMs cfg req ≤ sloSumMs cfg' req' := by
  obtain ⟨_, _, httft, htokens, _⟩ := h
  unfold sloSumMs
  omega

/-- The request that allows more time is let in with the other: the deadline was set before, or
    the other is refused, or the new deadline covers the estimate, be it set for the first time or
    wrapped. -/
def StaysAdmitted (cfg cfg' : DeadlineConfig) (req req' : GenerateRequest) (queueDepth : Nat) :
    Prop :=
  0 < req.deadlineMs ∨
    sloSumMs cfg req % 2 ^ 32 < min (exactTtftMs cfg queueDepth) (ttftCapMs cfg) ∨
    if req'.deadlineMs = 0 then
      u32Max < sloSumMs cfg' req' →
        min (exactTtftMs cfg queueDepth) (ttftCapMs cfg) + 2 ^ 32 ≤ sloSumMs cfg' req'
    else min (exactTtftMs cfg queueDepth) (ttftCapMs cfg) ≤ req'.deadlineMs

theorem accept_of_laxer_iff {cfg cfg' : DeadlineConfig} (hon : cfg.deadlineAdmission = true)
    {req req' : GenerateRequest} (queueDepth : Nat) (h : Laxer cfg cfg' req req') :
    (checkDeadline cfg req queueDepth = .accept → checkDeadline cfg' req' queueDepth = .accept) ↔
      StaysAdmitted cfg cfg' req req' queueDepth := by
  have hestimate : min (exactTtftMs cfg' queueDepth) (ttftCapMs cfg') =
      min (exactTtftMs cfg queueDepth) (ttftCapMs cfg) := by
    unfold exactTtftMs ttftCapMs
    rw [h.maxConcurrent]
  have hmore := h.sloSumMs_le
  have hlater := h.deadline
  rw [checkDeadline_eq_accept_iff hon, checkDeadline_eq_accept_iff (h.admission.trans hon),
    hestimate, StaysAdmitted]
  rcases Nat.eq_zero_or_pos req.deadlineMs with hunset | hset
  · rw [effectiveDeadlineMs_of_unset hunset]
    split
    · next hunset' =>
      have hbefore := sloSumMs_mod cfg req
      rw [effectiveDeadlineMs_of_unset hunset', sloSumMs_mod cfg' req']
      by_cases hwraps' : sloSumMs cfg' req' ≤ u32Max
      · -- neither sum wraps
        rw [if_pos (Nat.le_trans hmore hwraps')] at hbefore
        rw [if_pos hwraps', hbefore]
        omega
      · rw [if_neg hwraps']
        unfold u32Max at *
        omega
    · next hset' =>
      rw [effectiveDeadlineMs_of_set (Nat.pos_of_ne_zero hset')]
      omega
  · rw [effectiveDeadlineMs_of_set hset,
      effectiveDeadlineMs_of_set (Nat.lt_of_lt_of_le hset hlater)]
    exact iff_of_true (fun hle => Nat.le_trans hle hlater) (.inl hset)

/-- With deadline admission on: when a request is let in exactly if the estimate is within its
    deadline, and when one that allows more time is let in with it. -/
theorem deadline_admission_exact (cfg : DeadlineConfig) (hon : cfg.deadlineAdmission = true)
    (req : GenerateRequest) (queueDepth : Nat) (hu : IsU32 cfg req queueDepth) :
    ((checkDeadline cfg req queueDepth = .accept ↔
        min (exactTtftMs cfg queueDepth) u32Max ≤ min (exactDeadlineMs cfg req) u32Max) ↔
      Agrees cfg req queueDepth) ∧
    ∀ cfg' req', Laxer cfg cfg' req req' → IsU32 cfg' req' queueDepth →
      ((checkDeadline cfg req queueDepth = .accept →
          checkDeadline cfg' req' queueDepth = .accept) ↔
        StaysAdmitted cfg cfg' req req' queueDepth) :=
  ⟨accept_exact_iff hon hu.deadline, fun _ _ hlax _ => accept_of_laxer_iff hon queueDepth hlax⟩

/-- The default limits with deadline admission on. -/
def defaultLimits : DeadlineConfig where
  deadlineAdmission := true
  ttftSloMs := 800
  maxConcurrentPerReplica := 16

theorem deadline_admission_exact_default :
    checkDeadline defaultLimits ⟨0, some 16⟩ 200 = .accept ∧
      checkDeadline { defaultLimits with ttftSloMs := 900 } ⟨0, some 17⟩ 200 = .accept := by
  have h := deadline_admission_exact defaultLimits rfl ⟨0, some 16⟩ 200
    ⟨by decide, by decide, by decide, by decide⟩
  have haccept := (h.1.mpr ⟨by decide, by decide⟩).mpr (by decide)
  refine ⟨haccept, (h.2 { defaultLimits with ttftSloMs := 900 } ⟨0, some 17⟩
    ⟨rfl, rfl, by decide, by decide, by decide⟩
    ⟨by decide, by decide, by decide, by decide⟩).mpr ?_ haccept⟩
  exact .inr (.inr (by decide))

/-- A request for `u32::MAX` tokens, without a deadline, is refused for want of time, whether
    the numbers are capped or not. -/
theorem token_time_wraps :
    ¬ (∀ cfg req queueDepth, cfg.deadlineAdmission = true → IsU32 cfg req queueDepth →
        (checkDeadline cfg req queueDepth = .accept ↔
          exactTtftMs cfg queueDepth ≤ exactDeadlineMs cfg req)) ∧
      ¬ ∀ cfg req queueDepth, cfg.deadlineAdmission = true → IsU32 cfg req queueDepth →
        (checkDeadline cfg req queueDepth = .accept ↔
          min (exactTtftMs cfg queueDepth) u32Max ≤ min (exactDeadlineMs cfg req) u32Max) := by
  have hu : IsU32 defaultLimits ⟨0, some u32Max⟩ 200 :=
    ⟨by decide, by decide, by decide, by decide⟩
  have hrefused : checkDeadline defaultLimits ⟨0, some u32Max⟩ 200 ≠ .accept := by
    rw [show checkDeadline defaultLimits ⟨0, some u32Max⟩ 200 =
      .deadlineExceeded 1250 799 by decide]
    exact fun h => by cases h
  constructor
  · intro h
    exact hrefused ((h defaultLimits ⟨0, some u32Max⟩ 200 rfl hu).mpr (by decide))
  · intro h
    exact hrefused ((h defaultLimits ⟨0, some u32Max⟩ 200 rfl hu).mpr (by decide))

end Cognitora.Router
