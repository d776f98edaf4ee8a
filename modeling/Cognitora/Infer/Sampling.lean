/-
  The sampler (cgn-infer `src/sampling/mod.rs`), with logits as exact rationals.

  The repetition penalty is meant for every distinct token of the recent window. The loop walks
  the window itself, so a token is penalised once for each of its occurrences:
  `getElem?_applyRepetitionPenalty` gives the logit after the loop, with the number of
  occurrences as an exponent. `repetition_penalty_counts_once_iff` says when that is what one
  penalty per distinct token gives, and `repeated_token_changes_choice` is a pair of windows with
  the same tokens and different greedy choices. A penalty within `f32::EPSILON` of 1 is not
  applied at all.

  The exponential, the unstable sort and the weighted draw come from libraries; `Draws` has what
  is used of them. A panic is `none`. Nothing is proved of the draw itself: whether `f32` weights
  can be drawn from depends on overflow, which exact logits do not have (a penalty of 0 makes a
  logit infinite and the weights NaN).
-/
import Mathlib.Algebra.Order.Field.Rat
import Mathlib.Data.List.Nodup

namespace Cognitora.Infer.Sampling

/-! ## The repetition penalty -/

/-- `f32::EPSILON`. -/
def epsilon : ℚ := 1 / 2 ^ 23

def penalise (penalty l : ℚ) : ℚ :=
  if l > 0 then l / penalty else l * penalty

/-- One round of the loop: a token past the end of the logits is skipped. -/
def penaliseToken (penalty : ℚ) (logits : List ℚ) (tok : Nat) : List ℚ :=
  logits.modify tok (penalise penalty)

/-- The last `lastN` entries, or all of them. -/
def window (recent : List Nat) (lastN : Nat) : List Nat :=
  recent.drop (recent.length - lastN)

def applyRepetitionPenalty (logits : List ℚ) (recent : List Nat) (penalty : ℚ) (lastN : Nat) :
    List ℚ :=
  if |penalty - 1| < epsilon ∨ lastN = 0 then logits
  else (window recent lastN).foldl (penaliseToken penalty) logits

/-- The penalty as it is meant: once for each token that is in the window. -/
def penalisedOnce (penalty : ℚ) (win : List Nat) (logits : List ℚ) : List ℚ :=
  logits.mapIdx fun i l => if i ∈ win then penalise penalty l else l

/-- The logit after `k` penalties. -/
def scaled (penalty : ℚ) (k : Nat) (l : ℚ) : ℚ :=
  if l > 0 then l / penalty ^ k else l * penalty ^ k

theorem scaled_zero (penalty l : ℚ) : scaled penalty 0 l = l := by
  unfold scaled
  split <;> simp

theorem scaled_one (penalty l : ℚ) : scaled penalty 1 l = penalise penalty l := by
  unfold scaled penalise
  rw [pow_one]

/-- A penalty keeps the sign of the logit, so that penalties add up in the exponent. -/
theorem scaled_penalise {penalty : ℚ} (hpos : 0 < penalty) (k : Nat) (l : ℚ) :
    scaled penalty k (penalise penalty l) = scaled penalty (k + 1) l := by
  unfold scaled penalise
  by_cases hl : l > 0
  · have hl' : l / penalty > 0 := div_pos hl hpos
    rw [if_pos hl, if_pos hl', if_pos hl, div_div, pow_succ']
  · have hl' : ¬ l * penalty > 0 :=
      not_lt.mpr (mul_nonpos_of_nonpos_of_nonneg (not_lt.mp hl) hpos.le)
    rw [if_neg hl, if_neg hl', if_neg hl, mul_assoc, pow_succ']

/-- Away from 1, different numbers of penalties differ on every logit but zero. -/
theorem scaled_eq_scaled {penalty : ℚ} (hpos : 0 < penalty) (hne : penalty ≠ 1) (j k : Nat)
    (l : ℚ) : scaled penalty j l = scaled penalty k l ↔ l = 0 ∨ j = k := by
  have hpow : penalty ^ j = penalty ^ k ↔ j = k :=
    (pow_right_injective₀ hpos hne).eq_iff
  unfold scaled
  by_cases hl : l > 0
  · rw [if_pos hl, if_pos hl, div_eq_mul_inv, div_eq_mul_inv, mul_eq_mul_left_iff, inv_inj, hpow,
      or_comm]
  · rw [if_neg hl, if_neg hl, mul_eq_mul_left_iff, hpow, or_comm]

/-- What a whole window of penalties does to one logit. -/
theorem getElem?_foldl_penaliseToken {penalty : ℚ} (hpos : 0 < penalty) (win : List Nat)
    (logits : List ℚ) (i : Nat) :
    (win.foldl (penaliseToken penalty) logits)[i]? =
      logits[i]?.map (scaled penalty (win.count i)) := by
  induction win generalizing logits with
  | nil =>
    rw [List.foldl_nil, List.count_nil, funext (scaled_zero penalty)]
    exact Option.map_id'.symm
  | cons tok rest ih =>
    rw [List.foldl_cons, ih, penaliseToken, List.getElem?_modify, List.count_cons,
      Option.map_eq_map, Option.map_map]
    refine congrArg (Option.map · _) (funext fun l => ?_)
    show scaled penalty _ (if tok = i then penalise penalty l else l) = _
    by_cases htok : tok = i
    · rw [if_pos htok, if_pos (beq_iff_eq.mpr htok)]
      exact scaled_penalise hpos _ l
    · rw [if_neg htok, if_neg (fun h => htok (beq_iff_eq.mp h)), Nat.add_zero]

/-- How often the logit of token `i` is penalised. -/
def timesPenalised (penalty : ℚ) (win : List Nat) (i : Nat) : Nat :=
  if |penalty - 1| < epsilon then 0 else win.count i

theorem window_zero (recent : List Nat) : window recent 0 = [] :=
  List.drop_length

theorem getElem?_applyRepetitionPenalty {penalty : ℚ} (hpos : 0 < penalty) (logits : List ℚ)
    (recent : List Nat) (lastN i : Nat) :
    (applyRepetitionPenalty logits recent penalty lastN)[i]? =
      logits[i]?.map (scaled penalty (timesPenalised penalty (window recent lastN) i)) := by
  have hnone : logits[i]? = logits[i]?.map (scaled penalty 0) := by
    rw [funext (scaled_zero penalty)]
    exact Option.map_id'.symm
  unfold applyRepetitionPenalty timesPenalised
  by_cases heps : |penalty - 1| < epsilon
  · rw [if_pos (Or.inl heps), if_pos heps]
    exact hnone
  · by_cases hlast : lastN = 0
    · rw [if_pos (Or.inr hlast), if_neg heps, hlast, window_zero, List.count_nil]
      exact hnone
    · rw [if_neg (not_or.mpr ⟨heps, hlast⟩), if_neg heps]
      exact getElem?_foldl_penaliseToken hpos _ logits i

theorem getElem?_penalisedOnce (penalty : ℚ) (win : List Nat) (logits : List ℚ) (i : Nat) :
    (penalisedOnce penalty win logits)[i]? =
      logits[i]?.map (scaled penalty (if i ∈ win then 1 else 0)) := by
  rw [penalisedOnce, List.getElem?_mapIdx]
  by_cases hi : i ∈ win
  · simp only [if_pos hi, funext (scaled_one penalty)]
  · simp only [if_neg hi, funext (scaled_zero penalty)]

/-- Every token of the window that has a logit other than zero occurs once, and the penalty is
    not taken for 1. -/
def CountedOnce (logits : List ℚ) (penalty : ℚ) (win : List Nat) : Prop :=
  ∀ i l, logits[i]? = some l → l ≠ 0 → i ∈ win → epsilon ≤ |penalty - 1| ∧ win.count i = 1

theorem timesPenalised_eq_iff (penalty : ℚ) (win : List Nat) (i : Nat) :
    timesPenalised penalty win i = (if i ∈ win then 1 else 0) ↔
      (i ∈ win → epsilon ≤ |penalty - 1| ∧ win.count i = 1) := by
  unfold timesPenalised
  by_cases hi : i ∈ win
  · rw [if_pos hi]
    by_cases heps : |penalty - 1| < epsilon
    · rw [if_pos heps]
      exact iff_of_false Nat.zero_ne_one fun h => absurd heps (not_lt.mpr (h hi).1)
    · rw [if_neg heps]
      exact ⟨fun h _ => ⟨not_lt.mp heps, h⟩, fun h => (h hi).2⟩
  · rw [if_neg hi, List.count_eq_zero.mpr hi, ite_self]
    exact iff_of_true rfl fun h => absurd h hi

theorem applyRepetitionPenalty_eq_iff {penalty : ℚ} (hpos : 0 < penalty) (hne : penalty ≠ 1)
    (logits : List ℚ) (recent : List Nat) (lastN : Nat) :
    applyRepetitionPenalty logits recent penalty lastN =
        penalisedOnce penalty (window recent lastN) logits ↔
      CountedOnce logits penalty (window recent lastN) := by
  have hlogit : ∀ i l, scaled penalty (timesPenalised penalty (window recent lastN) i) l =
      scaled penalty (if i ∈ window recent lastN then 1 else 0) l ↔
        (l ≠ 0 → i ∈ window recent lastN →
          epsilon ≤ |penalty - 1| ∧ (window recent lastN).count i = 1) := by
    intro i l
    rw [scaled_eq_scaled hpos hne, timesPenalised_eq_iff]
    exact or_iff_not_imp_left
  constructor
  · intro h i l hl
    have hi := congrArg (·[i]?) h
    simp only [getElem?_applyRepetitionPenalty hpos, getElem?_penalisedOnce, hl,
      Option.map_some, Option.some.injEq] at hi
    exact (hlogit i l).mp hi
  · intro h
    apply List.ext_getElem?
    intro i
    rw [getElem?_applyRepetitionPenalty hpos, getElem?_penalisedOnce]
    cases hl : logits[i]? with
    | none => rfl
    | some l => exact congrArg some ((hlogit i l).mpr (h i l hl))

/-! ## The sampler -/

def greedyEps : ℚ := 1 / 10000

/-- The scan of `max_by`: the later of two equal logits stays. -/
def keepLater (best : Option (ℚ × Nat)) (x : ℚ × Nat) : Option (ℚ × Nat) :=
  match best with
  | none => some x
  | some b => if b.1 ≤ x.1 then some x else some b

def argmax (logits : List ℚ) : Nat :=
  ((logits.zipIdx.foldl keepLater none).map (·.2)).getD 0

structure SamplingParams where
  temperature : ℚ := 1
  topP : ℚ := 1
  topK : Nat := 0
  repetitionPenalty : ℚ := 1
  repeatLastN : Nat := 64
  seed : Option Nat := none

/-- What the sampler uses of the libraries: the exponential, a sort that leaves the order of equal
    logits open, and a draw of an index by weight. -/
structure Draws (ρ : Type) where
  exp : ℚ → ℚ
  exp_pos : ∀ x, 0 < exp x
  rank : List (ℚ × Nat) → List (ℚ × Nat)
  rank_perm : ∀ l, (rank l).Perm l
  rank_sorted : ∀ l, (rank l).Pairwise fun a b => b.1 ≤ a.1
  seedFromU64 : Nat → ρ
  draw : ρ → List ℚ → Nat × ρ
  draw_lt : ∀ rng weights, weights ≠ [] → (draw rng weights).1 < weights.length

structure Sampler (ρ : Type) where
  params : SamplingParams
  rng : ρ

variable {ρ : Type} (d : Draws ρ)

/-- `entropy` is the generator of an unseeded sampler. -/
def Sampler.new (entropy : ρ) (params : SamplingParams) : Sampler ρ :=
  ⟨params, (params.seed.map d.seedFromU64).getD entropy⟩

def softmax (logits : List ℚ) : List ℚ :=
  let top := logits.foldl max (logits.headD 0)
  let exps := logits.map fun l => d.exp (l - top)
  exps.map (· / exps.sum)

/-- How many tokens it takes to reach the mass `topP`, counted from the mass `cum`. -/
def nucleus (topP : ℚ) : ℚ → List ℚ → Nat
  | _, [] => 0
  | cum, p :: probs => if cum + p ≥ topP then 1 else nucleus topP (cum + p) probs + 1

/-- `WeightedIndex::new` accepts the weights. -/
def Weighable (weights : List ℚ) : Prop :=
  weights ≠ [] ∧ (∀ w ∈ weights, 0 ≤ w) ∧ 0 < weights.sum

instance (weights : List ℚ) : Decidable (Weighable weights) :=
  inferInstanceAs (Decidable (_ ∧ _))

def truncateTopK (topK : Nat) (ranked : List (ℚ × Nat)) : List (ℚ × Nat) :=
  if topK > 0 ∧ topK < ranked.length then ranked.take topK else ranked

def renormalise (probs : List ℚ) : List ℚ :=
  probs.map (· / probs.sum)

/-- The candidates left by `top_p`, with their weights. -/
def truncateTopP (topP : ℚ) (ranked : List (ℚ × Nat)) (probs : List ℚ) :
    List (ℚ × Nat) × List ℚ :=
  if topP < 1 then
    let keep := nucleus topP 0 probs
    (ranked.take keep, renormalise (probs.take keep))
  else (ranked, probs)

/-- The tokens that can be drawn for the penalised logits, best first, with their weights. -/
def Sampler.candidates (s : Sampler ρ) (logits : List ℚ) : List (ℚ × Nat) × List ℚ :=
  let ranked := truncateTopK s.params.topK
    (d.rank (logits.map (· / s.params.temperature)).zipIdx)
  truncateTopP s.params.topP ranked (softmax d (ranked.map (·.1)))

/-- The next token, from raw logits and the tokens already generated. -/
def Sampler.sample (s : Sampler ρ) (logits : List ℚ) (recent : List Nat) :
    Option (Nat × Sampler ρ) :=
  let logits := applyRepetitionPenalty logits recent s.params.repetitionPenalty
    s.params.repeatLastN
  if s.params.temperature < greedyEps then some (argmax logits, s)
  else
    let ranked := s.candidates d logits
    if Weighable ranked.2 then
      let drawn := d.draw s.rng ranked.2
      ranked.1[drawn.1]?.map fun picked => (picked.2, { s with rng := drawn.2 })
    else none

/-- Greedy decoding depends on the recent tokens only through the penalised logits. -/
theorem sample_greedy {s : Sampler ρ} (hgreedy : s.params.temperature < greedyEps)
    (logits : List ℚ) (recent : List Nat) :
    s.sample d logits recent =
      some (argmax (applyRepetitionPenalty logits recent s.params.repetitionPenalty
        s.params.repeatLastN), s) :=
  if_pos hgreedy

theorem penalisedOnce_congr (penalty : ℚ) {win win' : List Nat}
    (hsame : ∀ tok, tok ∈ win ↔ tok ∈ win') (logits : List ℚ) :
    penalisedOnce penalty win logits = penalisedOnce penalty win' logits := by
  unfold penalisedOnce
  simp only [hsame]

/-- The penalty is applied once per distinct token of the window exactly if no token with a
    logit other than zero is repeated in it (and the penalty is not within `f32::EPSILON` of 1).
    Two windows of the same tokens without such repetitions give the same logits and the same
    greedy choice. -/
theorem repetition_penalty_counts_once_iff (logits : List ℚ) (recent : List Nat) (penalty : ℚ)
    (lastN : Nat) (hpos : 0 < penalty) (hne : penalty ≠ 1) :
    (applyRepetitionPenalty logits recent penalty lastN =
        penalisedOnce penalty (window recent lastN) logits ↔
      CountedOnce logits penalty (window recent lastN)) ∧
    ∀ recent' : List Nat,
      (∀ tok, tok ∈ window recent lastN ↔ tok ∈ window recent' lastN) →
      CountedOnce logits penalty (window recent lastN) →
      CountedOnce logits penalty (window recent' lastN) →
        applyRepetitionPenalty logits recent penalty lastN =
          applyRepetitionPenalty logits recent' penalty lastN ∧
        ∀ s : Sampler ρ, s.params.repetitionPenalty = penalty → s.params.repeatLastN = lastN →
          s.params.temperature < greedyEps →
            s.sample d logits recent = s.sample d logits recent' := by
  refine ⟨applyRepetitionPenalty_eq_iff hpos hne logits recent lastN, ?_⟩
  intro recent' hsame honce honce'
  have heq : applyRepetitionPenalty logits recent penalty lastN =
      applyRepetitionPenalty logits recent' penalty lastN := by
    rw [(applyRepetitionPenalty_eq_iff hpos hne logits recent lastN).mpr honce,
      (applyRepetitionPenalty_eq_iff hpos hne logits recent' lastN).mpr honce']
    exact penalisedOnce_congr penalty hsame logits
  refine ⟨heq, ?_⟩
  intro s hpenalty hlast hgreedy
  rw [sample_greedy d hgreedy, sample_greedy d hgreedy, hpenalty, hlast, heq]

/-- Draws that always take the best token. -/
def bestOnly : Draws Unit where
  exp _ := 1
  exp_pos _ := zero_lt_one
  rank l := l.mergeSort fun a b => decide (b.1 ≤ a.1)
  rank_perm l := List.mergeSort_perm l _
  rank_sorted l := (List.pairwise_mergeSort
    (fun _ _ _ hab hbc => decide_eq_true ((of_decide_eq_true hbc).trans (of_decide_eq_true hab)))
    (fun a b => Bool.or_eq_true_iff.mpr ((le_total b.1 a.1).imp decide_eq_true decide_eq_true))
    l).imp of_decide_eq_true
  seedFromU64 _ := ()
  draw rng _ := (0, rng)
  draw_lt _ _ hne := List.length_pos_iff.mpr hne

theorem countedOnce_two_orders :
    CountedOnce [4, -3] 2 (window [0, 1] 64) ∧ CountedOnce [4, -3] 2 (window [1, 0] 64) := by
  have heps : epsilon ≤ |(2 : ℚ) - 1| := by decide +kernel
  refine ⟨fun i l _ _ hi => ⟨heps, ?_⟩, fun i l _ _ hi => ⟨heps, ?_⟩⟩
  · exact List.count_eq_one_of_mem (by decide) hi
  · exact List.count_eq_one_of_mem (by decide) hi

theorem repetition_penalty_two_orders :
    (0 : ℚ) < 2 ∧ (2 : ℚ) ≠ 1 ∧
    applyRepetitionPenalty [4, -3] [0, 1] 2 64 = penalisedOnce 2 (window [0, 1] 64) [4, -3] ∧
    applyRepetitionPenalty [4, -3] [0, 1] 2 64 = applyRepetitionPenalty [4, -3] [1, 0] 2 64 := by
  have hpos : (0 : ℚ) < 2 := two_pos
  have hne : (2 : ℚ) ≠ 1 := by decide +kernel
  have hresult := repetition_penalty_counts_once_iff bestOnly [4, -3] [0, 1] 2 64 hpos hne
  refine ⟨hpos, hne, hresult.1.mpr countedOnce_two_orders.1, ?_⟩
  exact (hresult.2 [1, 0] (fun tok => List.Perm.mem_iff (List.Perm.swap 1 0 []))
    countedOnce_two_orders.1 countedOnce_two_orders.2).1

/-- Windows with the same token, once and twice: the second penalty makes another token win. -/
theorem repeated_token_changes_choice :
    applyRepetitionPenalty [4, 3 / 2] [0, 0] 2 64 ≠ penalisedOnce 2 (window [0, 0] 64) [4, 3 / 2] ∧
    argmax (applyRepetitionPenalty [4, 3 / 2] [0] 2 64) = 0 ∧
    argmax (applyRepetitionPenalty [4, 3 / 2] [0, 0] 2 64) = 1 := by
  decide +kernel

end Cognitora.Infer.Sampling
