/-
  How a model's layers are divided among the stages of the pipeline (cgn-infer
  `src/model/llama.rs`, `src/pipeline/mod.rs`).

  `split_layers` proposes ranges, `validate_coverage` is what the coordinator asks of the ranges
  the workers report. Both are loops over a running offset, and they meet at `Tiles`: the ranges
  start where the one before has stopped, from the first layer to the last.

  * `foldlM_expectStart`: the coverage loop gets through exactly on a tiling.
  * `tiles_iff_flatMap_layers`: for non-empty ranges a tiling is what lists the layers in order.
  * `splitLoop_invariant`: what the splitting loop has built after `n` rounds.
  * `split_and_coverage_agree` puts the two ends together.
  * `connect_runs_every_layer`: a pipeline that `connect` assembles runs every layer once, in
    order.

  Offsets stay below the number of layers, so `usize` is `Nat`.
-/
import Cognitora.Core.Error
import Mathlib.Data.List.Range

namespace Cognitora.Infer

open Cognitora.Core

/-- Half-open layer interval `[start, stop)`. -/
structure LayerRange where
  start : Nat
  stop : Nat
  deriving DecidableEq

namespace LayerRange

/-- The `Display` text. -/
def text (r : LayerRange) : String := s!"{r.start}:{r.stop}"

def new (start stop : Nat) : Except Error LayerRange :=
  if start ≥ stop then .error (.invalidArgument s!"layer range {start}:{stop} is empty")
  else .ok ⟨start, stop⟩

def len (r : LayerRange) : Nat := r.stop - r.start

/-- At least one layer. -/
def NonEmpty (r : LayerRange) : Prop := r.start < r.stop

/-- The layers of the range, in order. -/
def layers (r : LayerRange) : List Nat := List.range' r.start r.len

theorem new_eq_ok {start stop : Nat} {r : LayerRange} (h : new start stop = .ok r) :
    r = ⟨start, stop⟩ ∧ r.NonEmpty := by
  unfold new at h
  split_ifs at h with hempty
  cases h
  exact ⟨rfl, Nat.lt_of_not_ge hempty⟩

theorem layers_of_nonEmpty {r : LayerRange} (hr : r.NonEmpty) :
    r.layers = r.start :: List.range' (r.start + 1) (r.len - 1) := by
  have hlen : r.len = r.len - 1 + 1 := by
    unfold NonEmpty at hr
    unfold len
    omega
  rw [layers, hlen, List.range'_succ, Nat.add_sub_cancel]

end LayerRange

/-! ## Splitting -/

/-- Size of the `i`-th range. -/
def share (base rem i : Nat) : Nat := base + (if i < rem then 1 else 0)

/-- One round of the loop of `split_layers`: the ranges so far, and where the next one starts. -/
def splitRound (base rem : Nat) (s : List LayerRange × Nat) (i : Nat) : List LayerRange × Nat :=
  let len := share base rem i
  (s.1 ++ [⟨s.2, s.2 + len⟩], s.2 + len)

/-- Split `total` layers into `parts` contiguous ranges, the remainder in front. -/
def splitLayers (total parts : Nat) : Except Error (List LayerRange) :=
  if parts = 0 ∨ parts > total then
    .error (.invalidArgument s!"cannot split {total} layers into {parts} parts")
  else
    let base := total / parts
    let rem := total % parts
    .ok ((List.range parts).foldl (splitRound base rem) ([], 0)).1

/-! ## The coverage check -/

/-- One round of the loop of `validate_coverage`: where the next range has to start. -/
def expectStart (next : Nat) (r : LayerRange) : Except Error Nat :=
  if r.start ≠ next then
    .error (.invalidArgument (s!"pipeline layer ranges must be contiguous: " ++
      s!"expected a range starting at {next}, got {r.text}"))
  else .ok r.stop

/-- Check that `ranges`, in order, exactly tile `[0, total)`. -/
def validateCoverage (total : Nat) (ranges : List LayerRange) : Except Error Unit := do
  let next ← ranges.foldlM expectStart 0
  if next ≠ total then
    .error (.invalidArgument
      s!"pipeline layer ranges cover [0, {next}) but the model has {total} layers")
  else .ok ()

/-- The ranges lead from `lo` to `hi`, each from where the one before has stopped. -/
def Tiles : Nat → List LayerRange → Nat → Prop
  | lo, [], hi => lo = hi
  | lo, r :: rs, hi => r.start = lo ∧ Tiles r.stop rs hi

theorem tiles_concat {lo hi : Nat} {rs : List LayerRange} (h : Tiles lo rs hi) (len : Nat) :
    Tiles lo (rs ++ [⟨hi, hi + len⟩]) (hi + len) := by
  induction rs generalizing lo with
  | nil => exact ⟨Eq.symm h, rfl⟩
  | cons r rs ih => exact ⟨h.1, ih h.2⟩

theorem foldlM_expectStart (ranges : List LayerRange) (lo hi : Nat) :
    ranges.foldlM expectStart lo = .ok hi ↔ Tiles lo ranges hi := by
  induction ranges generalizing lo with
  | nil => exact Except.ok.injEq lo hi ▸ Iff.rfl
  | cons r rs ih =>
    rw [List.foldlM_cons, expectStart]
    by_cases hstart : r.start = lo
    · rw [if_neg (not_not.mpr hstart)]
      exact (ih r.stop).trans ⟨fun h => ⟨hstart, h⟩, fun h => h.2⟩
    · rw [if_pos hstart]
      exact iff_of_false nofun fun h => hstart h.1

theorem validateCoverage_eq_ok (total : Nat) (ranges : List LayerRange) :
    validateCoverage total ranges = .ok () ↔ Tiles 0 ranges total := by
  rw [← foldlM_expectStart, validateCoverage]
  cases ranges.foldlM expectStart 0 with
  | error e => exact iff_of_false nofun nofun
  | ok next =>
    show (if next ≠ total then _ else _) = _ ↔ _
    by_cases hnext : next = total
    · rw [if_neg (not_not.mpr hnext), hnext]
      exact ⟨fun _ => rfl, fun _ => rfl⟩
    · rw [if_pos hnext]
      exact iff_of_false nofun fun h => hnext (Except.ok.inj h)

theorem Tiles.le {lo hi : Nat} {ranges : List LayerRange} (hne : ∀ r ∈ ranges, r.NonEmpty)
    (h : Tiles lo ranges hi) : lo ≤ hi := by
  induction ranges generalizing lo with
  | nil => exact Nat.le_of_eq h
  | cons r rs ih =>
    have hr : r.start < r.stop := hne r List.mem_cons_self
    have hle := ih (fun r hr => hne r (List.mem_cons_of_mem _ hr)) h.2
    have hlo := h.1
    omega

/-- Non-empty ranges tile `[lo, hi)` exactly if their layers, listed in order, are those from
    `lo` up to `hi`. An empty range would be invisible in the list. -/
theorem tiles_iff_flatMap_layers {ranges : List LayerRange} (hne : ∀ r ∈ ranges, r.NonEmpty)
    {lo hi : Nat} (hle : lo ≤ hi) :
    Tiles lo ranges hi ↔ ranges.flatMap LayerRange.layers = List.range' lo (hi - lo) := by
  induction ranges generalizing lo with
  | nil =>
    show lo = hi ↔ [] = _
    rw [eq_comm (a := []), List.range'_eq_nil_iff]
    omega
  | cons r rs ih =>
    have hr : r.start < r.stop := hne r List.mem_cons_self
    have hrs : ∀ r ∈ rs, r.NonEmpty := fun r hr => hne r (List.mem_cons_of_mem _ hr)
    have hlen : r.len = r.stop - r.start := rfl
    rw [List.flatMap_cons]
    constructor
    · intro h
      have hstop : r.stop ≤ hi := h.2.le hrs
      have hsize : hi - lo = r.len + (hi - r.stop) := by
        have := h.1
        omega
      rw [(ih hrs hstop).mp h.2, LayerRange.layers, h.1, hsize, ← List.range'_append_1]
      congr 2
      have := h.1
      omega
    · intro h
      -- the list is not empty, so the first layer of `r` is `lo`
      have hstart : r.start = lo := by
        rw [LayerRange.layers_of_nonEmpty hr, List.cons_append] at h
        have hpos : hi - lo ≠ 0 := fun h0 => by
          rw [h0] at h
          exact List.cons_ne_nil _ _ h
        rw [← Nat.succ_pred_eq_of_ne_zero hpos, List.range'_succ] at h
        exact (List.cons.inj h).1
      have hfits : r.len ≤ hi - lo := by
        have := congrArg List.length h
        rw [List.length_append, List.length_range', LayerRange.layers, List.length_range'] at this
        omega
      have hsize : hi - lo = r.len + (hi - r.stop) := by omega
      have hstop : lo + r.len = r.stop := by omega
      refine ⟨hstart, (ih hrs (by omega)).mpr ?_⟩
      rw [LayerRange.layers, hstart, hsize, ← List.range'_append_1, hstop] at h
      exact List.append_cancel_left h

theorem validateCoverage_iff_layers (total : Nat) {ranges : List LayerRange}
    (hne : ∀ r ∈ ranges, r.NonEmpty) :
    validateCoverage total ranges = .ok () ↔
      ranges.flatMap LayerRange.layers = List.range total := by
  rw [validateCoverage_eq_ok, tiles_iff_flatMap_layers hne (Nat.zero_le total),
    List.range_eq_range', Nat.sub_zero]

/-! ## What the splitting loop builds -/

theorem share_le_succ (base rem i j : Nat) : share base rem i ≤ share base rem j + 1 := by
  unfold share
  split <;> split <;> omega

theorem share_antitone (base rem : Nat) {i j : Nat} (hij : i ≤ j) :
    share base rem j ≤ share base rem i := by
  unfold share
  split <;> split <;> omega

/-- After `n` rounds the ranges tile the layers before the running offset, and have the sizes of
    the first `n` shares. -/
theorem splitLoop_invariant (base rem n : Nat) :
    let s := (List.range n).foldl (splitRound base rem) ([], 0)
    Tiles 0 s.1 s.2 ∧ s.1.map LayerRange.len = (List.range n).map (share base rem) ∧
      s.2 = n * base + min n rem := by
  induction n with
  | zero => exact ⟨rfl, rfl, by simp⟩
  | succ n ih =>
    obtain ⟨htiles, hlens, hoffset⟩ := ih
    simp only [List.range_succ, List.foldl_append, List.foldl_cons, List.foldl_nil,
      List.map_append, List.map_cons, List.map_nil]
    refine ⟨tiles_concat htiles _, ?_, ?_⟩
    · simp only [splitRound, List.map_append, List.map_cons, List.map_nil, hlens, LayerRange.len,
        Nat.add_sub_cancel_left]
    · simp only [splitRound, share, hoffset, Nat.succ_mul]
      split <;> omega

theorem splitLayers_eq_ok {total parts : Nat} (hpos : 1 ≤ parts) (hle : parts ≤ total) :
    ∃ ranges, splitLayers total parts = .ok ranges ∧ Tiles 0 ranges total ∧
      ranges.map LayerRange.len =
        (List.range parts).map (share (total / parts) (total % parts)) := by
  obtain ⟨htiles, hlens, hoffset⟩ := splitLoop_invariant (total / parts) (total % parts) parts
  have hrem : total % parts < parts := Nat.mod_lt total hpos
  have htotal : parts * (total / parts) + min parts (total % parts) = total := by
    rw [Nat.min_eq_right (Nat.le_of_lt hrem)]
    exact Nat.div_add_mod total parts
  rw [htotal] at hoffset
  rw [hoffset] at htiles
  exact ⟨_, if_neg (by omega), htiles, hlens⟩

theorem forall_len_eq_share {ranges : List LayerRange} {base rem parts : Nat}
    (hlens : ranges.map LayerRange.len = (List.range parts).map (share base rem)) :
    ∀ r ∈ ranges, ∃ i, r.len = share base rem i := by
  intro r hr
  have hmem : r.len ∈ (List.range parts).map (share base rem) :=
    hlens ▸ List.mem_map_of_mem hr
  obtain ⟨i, -, hi⟩ := List.mem_map.mp hmem
  exact ⟨i, hi.symm⟩

/-- The coverage check accepts non-empty ranges exactly if their layers in order are
    `0, …, total - 1`, and the splitter's ranges are non-empty, pass it, differ by at most one
    layer and never grow along the pipeline. -/
theorem split_and_coverage_agree :
    (∀ (total : Nat) (ranges : List LayerRange), (∀ r ∈ ranges, r.NonEmpty) →
      (validateCoverage total ranges = .ok () ↔
        ranges.flatMap LayerRange.layers = List.range total)) ∧
    ∀ total parts : Nat, 1 ≤ parts → parts ≤ total →
      ∃ ranges, splitLayers total parts = .ok ranges ∧ ranges.length = parts ∧
        (∀ r ∈ ranges, r.NonEmpty) ∧ validateCoverage total ranges = .ok () ∧
        (∀ r ∈ ranges, ∀ r' ∈ ranges, r.len ≤ r'.len + 1) ∧
        (ranges.map LayerRange.len).Pairwise (· ≥ ·) := by
  refine ⟨fun total ranges hne => validateCoverage_iff_layers total hne, ?_⟩
  intro total parts hpos hle
  obtain ⟨ranges, hok, htiles, hlens⟩ := splitLayers_eq_ok hpos hle
  have hshare := forall_len_eq_share hlens
  have hbase : 1 ≤ total / parts := Nat.div_pos hle hpos
  refine ⟨ranges, hok, ?_, ?_, (validateCoverage_eq_ok total ranges).mpr htiles, ?_, ?_⟩
  · simpa using congrArg List.length hlens
  · intro r hr
    obtain ⟨i, hi⟩ := hshare r hr
    have hlen : r.stop - r.start = share (total / parts) (total % parts) i := hi
    unfold share at hlen
    unfold LayerRange.NonEmpty
    omega
  · intro r hr r' hr'
    obtain ⟨i, hi⟩ := hshare r hr
    obtain ⟨j, hj⟩ := hshare r' hr'
    rw [hi, hj]
    exact share_le_succ _ _ i j
  · rw [hlens, List.pairwise_map]
    exact List.pairwise_lt_range.imp fun hij => share_antitone _ _ (Nat.le_of_lt hij)

example : splitLayers 10 3 = .ok [⟨0, 4⟩, ⟨4, 7⟩, ⟨7, 10⟩] := by decide

/-! ## Assembling the pipeline -/

/-- What `PipelinedModel::connect` checks of the layer ranges: the coordinator's own, then those
    the workers report, in the order of the configuration. -/
def connectRanges (own : LayerRange) (nLayers : Nat) (reported : List (Nat × Nat)) :
    Except Error (List LayerRange) :=
  if own.start ≠ 0 then
    .error (.config s!"coordinator layer range must start at 0, got {own.text}")
  else if own.stop > nLayers then
    -- the check of `QLlama::load`
    .error (.invalidArgument s!"layer range {own.text} exceeds model layer count {nLayers}")
  else do
    let workers ← reported.mapM fun info => LayerRange.new info.1 info.2
    validateCoverage nLayers (own :: workers)
    .ok (own :: workers)

theorem forall_nonEmpty_of_mapM_new {reported : List (Nat × Nat)} {workers : List LayerRange}
    (h : reported.mapM (fun info => LayerRange.new info.1 info.2) = .ok workers) :
    ∀ r ∈ workers, r.NonEmpty := by
  induction reported generalizing workers with
  | nil =>
    cases h
    exact nofun
  | cons info rest ih =>
    rw [List.mapM_cons] at h
    obtain ⟨r, hr, h⟩ := bind_eq_ok.mp h
    obtain ⟨rs, hrs, h⟩ := bind_eq_ok.mp h
    cases h
    exact List.forall_mem_cons.mpr ⟨(LayerRange.new_eq_ok hr).2, ih hrs⟩

/-- A pipeline that is assembled runs every layer of the model once, in order, whatever the
    workers report. -/
theorem connect_runs_every_layer {own : LayerRange} (hown : own.NonEmpty) {nLayers : Nat}
    {reported : List (Nat × Nat)} {ranges : List LayerRange}
    (h : connectRanges own nLayers reported = .ok ranges) :
    ranges.flatMap LayerRange.layers = List.range nLayers := by
  unfold connectRanges at h
  split_ifs at h
  obtain ⟨workers, hworkers, h⟩ := bind_eq_ok.mp h
  obtain ⟨_, hcover, h⟩ := bind_eq_ok.mp h
  cases h
  have hne : ∀ r ∈ own :: workers, r.NonEmpty :=
    List.forall_mem_cons.mpr ⟨hown, forall_nonEmpty_of_mapM_new hworkers⟩
  exact (validateCoverage_iff_layers nLayers hne).mp hcover

theorem connect_two_runs_every_layer :
    connectRanges ⟨0, 2⟩ 4 [(2, 4)] = .ok [⟨0, 2⟩, ⟨2, 4⟩] ∧
      [(⟨0, 2⟩ : LayerRange), ⟨2, 4⟩].flatMap LayerRange.layers = List.range 4 :=
  have hconnect : connectRanges ⟨0, 2⟩ 4 [(2, 4)] = .ok [⟨0, 2⟩, ⟨2, 4⟩] := rfl
  have hown : LayerRange.NonEmpty ⟨0, 2⟩ := Nat.zero_lt_two
  ⟨hconnect, connect_runs_every_layer hown hconnect⟩

end Cognitora.Infer
