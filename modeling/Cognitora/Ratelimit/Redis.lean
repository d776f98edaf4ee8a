/-
  The token bucket that routers share in Redis (cgn-ratelimit `src/redis_backend.rs`).

  `check` is the script of one call, which Redis runs atomically: refill by the time since the
  last call, cap, take a token if there is one, and store the caller's clock as the last call.
  The key does not expire between calls, and numbers are exact.

  `admitted_le_forward`: the calls admitted are at most the burst and what the rate yields over
  the forward steps of the clock readings, in the order of the calls. A reading that goes back
  moves the last call back, so the time between is refilled again. For readings in order the
  forward steps add up to no more than the time from the first to the last, and `admitted_le` is
  the bound over an interval.
-/
import Mathlib.Algebra.Order.Field.Rat
import Mathlib.Tactic.Linarith
import Mathlib.Tactic.Positivity
import Mathlib.Tactic.Ring

namespace Cognitora.Ratelimit

structure RedisLimiter where
  burst : Nat
  rps : Nat

/-- `RedisLimiter::connect`. -/
def RedisLimiter.connect (rps burst : Nat) : RedisLimiter where
  burst := max burst 1
  rps := max rps 1

/-- The hash of a key. -/
structure Bucket where
  tokens : ℚ
  /-- In milliseconds. -/
  last : ℤ

namespace RedisLimiter

variable (l : RedisLimiter)

/-- What a call finds; `none` is an absent key. -/
def load (nowMs : ℤ) (data : Option Bucket) : Bucket :=
  data.getD ⟨l.burst, nowMs⟩

def refilled (nowMs : ℤ) (b : Bucket) : ℚ :=
  let delta := max 0 (nowMs - b.last)
  min l.burst (b.tokens + delta * l.rps / 1000)

/-- The script: whether the call is admitted, and the hash it leaves. -/
def check (nowMs : ℤ) (data : Option Bucket) : Bool × Bucket :=
  let tokens := l.refilled nowMs (l.load nowMs data)
  if 1 ≤ tokens then (true, ⟨tokens - 1, nowMs⟩) else (false, ⟨tokens, nowMs⟩)

/-- The number of calls admitted, for the clock readings of the calls in order. -/
def admitted : Option Bucket → List ℤ → Nat
  | _, [] => 0
  | data, nowMs :: rest =>
    (if (l.check nowMs data).1 then 1 else 0) + admitted (some (l.check nowMs data).2) rest

/-- The forward steps of the clock after a reading. -/
def forwardFrom : ℤ → List ℤ → ℤ
  | _, [] => 0
  | last, nowMs :: rest => max 0 (nowMs - last) + forwardFrom nowMs rest

/-- The forward steps of the clock, added up. -/
def forward : List ℤ → ℤ
  | [] => 0
  | first :: rest => forwardFrom first rest

variable {l}

/-- One call: the tokens taken and left are at most those found and those refilled. -/
theorem check_some (nowMs : ℤ) {b : Bucket} (hb : 0 ≤ b.tokens) :
    0 ≤ (l.check nowMs (some b)).2.tokens ∧ (l.check nowMs (some b)).2.last = nowMs ∧
      (if (l.check nowMs (some b)).1 then 1 else 0) + (l.check nowMs (some b)).2.tokens ≤
        b.tokens + (max 0 (nowMs - b.last) : ℤ) * l.rps / 1000 := by
  have hrefill : l.refilled nowMs b ≤ b.tokens + (max 0 (nowMs - b.last) : ℤ) * l.rps / 1000 :=
    min_le_right _ _
  have hdelta : (0 : ℚ) ≤ (max 0 (nowMs - b.last) : ℤ) := by exact_mod_cast le_max_left _ _
  have hnonneg : 0 ≤ l.refilled nowMs b := le_min (by positivity) (by positivity)
  unfold check load
  rw [Option.getD_some]
  dsimp only
  split
  · next hone =>
    refine ⟨by linarith, rfl, ?_⟩
    simp only [if_true]
    linarith
  · refine ⟨hnonneg, rfl, ?_⟩
    simpa using hrefill

/-- The calls after one that left `b`. -/
theorem admitted_some_le (nows : List ℤ) {b : Bucket} (hb : 0 ≤ b.tokens) :
    (l.admitted (some b) nows : ℚ) ≤ b.tokens + forwardFrom b.last nows * l.rps / 1000 := by
  induction nows generalizing b with
  | nil => simpa [admitted, forwardFrom] using hb
  | cons nowMs nows ih =>
    obtain ⟨hleft, hlast, hone⟩ := check_some (l := l) nowMs hb
    have hrest := ih hleft
    rw [hlast] at hrest
    unfold admitted forwardFrom
    push_cast at hone hrest ⊢
    have hsplit : (max 0 ((nowMs : ℚ) - b.last) + forwardFrom nowMs nows) * l.rps / 1000 =
        max 0 ((nowMs : ℚ) - b.last) * l.rps / 1000 + forwardFrom nowMs nows * l.rps / 1000 := by
      ring
    rw [hsplit]
    linarith

/-- From an absent key on, whatever the order of the clock readings. -/
theorem admitted_le_forward (nows : List ℤ) :
    (l.admitted none nows : ℚ) ≤ l.burst + forward nows * l.rps / 1000 := by
  cases nows with
  | nil => simp [admitted, forward]
  | cons first rest =>
    -- the first call finds a full bucket and refills nothing
    have hfull : l.admitted none (first :: rest) =
        l.admitted (some ⟨l.burst, first⟩) (first :: rest) := rfl
    have hle := admitted_some_le (l := l) (first :: rest) (b := ⟨l.burst, first⟩) (by positivity)
    rw [hfull]
    unfold forwardFrom at hle
    simpa [forward] using hle

/-- Readings in order step forward from the first to the last. -/
theorem forwardFrom_le_of_sorted {t₁ : ℤ} {nows : List ℤ} (last : ℤ) (hlast : last ≤ t₁)
    (hsorted : (last :: nows).Pairwise (· ≤ ·)) (hle : ∀ t ∈ nows, t ≤ t₁) :
    forwardFrom last nows ≤ t₁ - last := by
  induction nows generalizing last with
  | nil => simpa [forwardFrom] using hlast
  | cons nowMs nows ih =>
    obtain ⟨hhead, htail⟩ := List.pairwise_cons.mp hsorted
    have hstep := hhead nowMs List.mem_cons_self
    have hrest := ih nowMs (hle nowMs List.mem_cons_self) htail
      fun t ht => hle t (List.mem_cons_of_mem _ ht)
    unfold forwardFrom
    omega

/-- Calls whose clock readings are in order and lie within `[t₀, t₁]`. -/
theorem admitted_le (rps burst : Nat) (t₀ t₁ : ℤ) (nows : List ℤ) (hle : t₀ ≤ t₁)
    (hnows : ∀ t ∈ nows, t₀ ≤ t ∧ t ≤ t₁) (hsorted : nows.Pairwise (· ≤ ·)) :
    ((connect rps burst).admitted none nows : ℚ) ≤
      (connect rps burst).burst + (connect rps burst).rps * (t₁ - t₀) / 1000 := by
  have hforward : forward nows ≤ t₁ - t₀ := by
    cases nows with
    | nil => simpa [forward] using hle
    | cons first rest =>
      obtain ⟨hfirst, hfirst'⟩ := hnows first List.mem_cons_self
      have hsteps := forwardFrom_le_of_sorted first hfirst' hsorted
        fun t ht => (hnows t (List.mem_cons_of_mem _ ht)).2
      show forwardFrom first rest ≤ t₁ - t₀
      omega
  have hbound := admitted_le_forward (l := connect rps burst) nows
  have hcast : (forward nows : ℚ) ≤ t₁ - t₀ := by exact_mod_cast hforward
  have hrate : (0 : ℚ) ≤ (connect rps burst).rps := Nat.cast_nonneg _
  have hmul := mul_le_mul_of_nonneg_right hcast hrate
  linarith

theorem admitted_le_in_order :
    ((connect 1 2).admitted none [0, 0, 0, 1000, 1000] : ℚ) ≤
      (connect 1 2).burst + (connect 1 2).rps * ((1000 : ℤ) - (0 : ℤ)) / 1000 :=
  admitted_le 1 2 0 1000 [0, 0, 0, 1000, 1000] (by decide) (by decide) (by decide)

/-- Two routers whose clocks are a second apart take turns: the slow one's call moves the last
    call back, and the fast one's refills the second again. -/
theorem skewed_clocks_refill_twice :
    ¬ ∀ (rps burst : Nat) (t₀ t₁ : ℤ) (nows : List ℤ), t₀ ≤ t₁ →
      (∀ t ∈ nows, t₀ ≤ t ∧ t ≤ t₁) →
      ((connect rps burst).admitted none nows : ℚ) ≤
        (connect rps burst).burst + (connect rps burst).rps * (t₁ - t₀) / 1000 := by
  intro h
  have hle := h 1 1 0 1000 [0, 1000, 0, 1000] (by decide) (by decide)
  have hthree : (connect 1 1).admitted none [0, 1000, 0, 1000] = 3 := by decide +kernel
  rw [hthree] at hle
  norm_num [connect] at hle

end RedisLimiter

end Cognitora.Ratelimit
