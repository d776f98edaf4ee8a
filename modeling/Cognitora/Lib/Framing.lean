/-
  Cutting frames from a growing buffer.

  A `Cutter` finds the end of the first frame in a buffer, and more input does not move it. A
  reader appends each chunk it receives to what is left of its buffer and then handles every frame
  the buffer has; the handler may end the loop. `feed_eq`: what the reader does is a fold of the
  handler over the frames of the whole stream, so the chunks do not matter. `frames_flatten`: a
  stream of texts, each of which is cut at its end, has these texts as its frames.
-/
import Mathlib.Data.List.Basic

namespace Cognitora.Lib

variable {α S R : Type}

structure Cutter (α : Type) where
  /-- The end of the first frame. -/
  cut : List α → Option Nat
  pos : ∀ {buf : List α} {n : Nat}, cut buf = some n → 0 < n
  le : ∀ {buf : List α} {n : Nat}, cut buf = some n → n ≤ buf.length
  stable : ∀ {buf : List α} {n : Nat} (more : List α), cut buf = some n →
    cut (buf ++ more) = some n

namespace Cutter

variable (c : Cutter α)

/-- The first frames of a buffer, at most `fuel` of them, and what is left. -/
def framesWith : Nat → List α → List (List α) × List α
  | 0, buf => ([], buf)
  | fuel + 1, buf =>
    match c.cut buf with
    | none => ([], buf)
    | some n => (buf.take n :: (framesWith fuel (buf.drop n)).1, (framesWith fuel (buf.drop n)).2)

/-- The frames of a buffer, and what is left. -/
def frames (buf : List α) : List (List α) × List α :=
  c.framesWith buf.length buf

section

variable (handle : S → List α → Except R S)

/-- Handle the frames of the buffer, at most `fuel` of them. -/
def drain : Nat → S → List α → Except R (S × List α)
  | 0, s, buf => .ok (s, buf)
  | fuel + 1, s, buf =>
    match c.cut buf with
    | none => .ok (s, buf)
    | some n =>
      match handle s (buf.take n) with
      | .error r => .error r
      | .ok s' => drain fuel s' (buf.drop n)

/-- Append each chunk to the buffer and handle the frames it then has. -/
def feed : S → List α → List (List α) → Except R (S × List α)
  | s, buf, [] => .ok (s, buf)
  | s, buf, chunk :: chunks =>
    match c.drain handle (buf ++ chunk).length s (buf ++ chunk) with
    | .error r => .error r
    | .ok (s', buf') => feed s' buf' chunks

end

variable {c}

theorem cut_nil : c.cut [] = none := by
  cases h : c.cut [] with
  | none => rfl
  | some n =>
    have hpos := c.pos h
    have hle := c.le h
    rw [List.length_nil] at hle
    omega

/-- Each frame takes at least one element, so the bound does not matter. -/
theorem framesWith_congr {fuel fuel' : Nat} {buf : List α} (h : buf.length ≤ fuel)
    (h' : buf.length ≤ fuel') : c.framesWith fuel buf = c.framesWith fuel' buf := by
  induction fuel generalizing fuel' buf with
  | zero =>
    rw [List.eq_nil_of_length_eq_zero (Nat.le_zero.mp h)]
    cases fuel' with
    | zero => rfl
    | succ fuel' => rw [framesWith, framesWith, cut_nil]
  | succ fuel ih =>
    cases fuel' with
    | zero =>
      rw [List.eq_nil_of_length_eq_zero (Nat.le_zero.mp h'), framesWith, framesWith, cut_nil]
    | succ fuel' =>
      rw [framesWith, framesWith]
      cases hcut : c.cut buf with
      | none => rfl
      | some n =>
        have hpos := c.pos hcut
        have hlen : (buf.drop n).length = buf.length - n := List.length_drop
        dsimp only
        have hrest : c.framesWith fuel (buf.drop n) = c.framesWith fuel' (buf.drop n) :=
          ih (by omega) (by omega)
        rw [hrest]

theorem framesWith_eq {fuel : Nat} {buf : List α} (h : buf.length ≤ fuel) :
    c.framesWith fuel buf = c.frames buf :=
  framesWith_congr h (Nat.le_refl _)

theorem frames_of_none {buf : List α} (h : c.cut buf = none) : c.frames buf = ([], buf) := by
  rw [← framesWith_eq (Nat.le_succ buf.length), framesWith, h]

theorem frames_of_some {buf : List α} {n : Nat} (h : c.cut buf = some n) :
    c.frames buf = (buf.take n :: (c.frames (buf.drop n)).1, (c.frames (buf.drop n)).2) := by
  have hlen : (buf.drop n).length ≤ buf.length := List.length_drop ▸ Nat.sub_le _ _
  rw [← framesWith_eq (Nat.le_succ buf.length), framesWith, h]
  dsimp only
  rw [framesWith_eq hlen]

/-- Induction over a buffer, frame by frame. -/
theorem frames_induction {motive : List α → Prop} (none : ∀ buf, c.cut buf = none → motive buf)
    (some : ∀ buf n, c.cut buf = some n → motive (buf.drop n) → motive buf) (buf : List α) :
    motive buf := by
  induction hlen : buf.length using Nat.strongRecOn generalizing buf with
  | ind len ih =>
    cases hcut : c.cut buf with
    | none => exact none buf hcut
    | some n =>
      have hpos := c.pos hcut
      have hle := c.le hcut
      have hdrop : (buf.drop n).length = buf.length - n := List.length_drop
      exact some buf n hcut (ih _ (by omega) (buf.drop n) rfl)

/-- The frames of a buffer stay, whatever follows. -/
theorem frames_append (buf more : List α) :
    c.frames (buf ++ more) =
      ((c.frames buf).1 ++ (c.frames ((c.frames buf).2 ++ more)).1,
        (c.frames ((c.frames buf).2 ++ more)).2) := by
  induction buf using frames_induction (c := c) with
  | none buf hcut => rw [frames_of_none hcut, List.nil_append]
  | some buf n hcut ih =>
    have hle := c.le hcut
    rw [frames_of_some (c.stable more hcut), frames_of_some hcut,
      List.take_append_of_le_length hle, List.drop_append_of_le_length hle, ih]
    rfl

/-- What is left of a buffer has no frame. -/
theorem frames_left (buf : List α) : c.frames (c.frames buf).2 = ([], (c.frames buf).2) := by
  induction buf using frames_induction (c := c) with
  | none buf hcut =>
    rw [frames_of_none hcut]
    exact frames_of_none hcut
  | some buf n hcut ih =>
    rw [frames_of_some hcut]
    exact ih

/-- Texts that are cut at their end are read back. -/
theorem frames_flatten {texts : List (List α)} (h : ∀ t ∈ texts, c.cut t = some t.length) :
    c.frames texts.flatten = (texts, []) := by
  induction texts with
  | nil => exact frames_of_none cut_nil
  | cons t texts ih =>
    have hcut := c.stable texts.flatten (h t List.mem_cons_self)
    rw [List.flatten_cons, frames_of_some hcut, List.take_left, List.drop_left,
      ih fun u hu => h u (List.mem_cons_of_mem _ hu)]

section

variable {handle : S → List α → Except R S}

theorem drain_eq (fuel : Nat) (s : S) (buf : List α) :
    c.drain handle fuel s buf =
      ((c.framesWith fuel buf).1.foldlM handle s).map fun s' =>
        (s', (c.framesWith fuel buf).2) := by
  induction fuel generalizing s buf with
  | zero => rfl
  | succ fuel ih =>
    rw [drain, framesWith]
    cases c.cut buf with
    | none => rfl
    | some n =>
      dsimp only
      rw [List.foldlM_cons]
      cases handle s (buf.take n) with
      | error r => rfl
      | ok s' => exact ih s' (buf.drop n)

/-- From a buffer without a frame on, the loop is a fold over the frames of the stream. -/
theorem feed_eq {buf : List α} (hbuf : c.frames buf = ([], buf)) (s : S) (chunks : List (List α)) :
    c.feed handle s buf chunks =
      ((c.frames (buf ++ chunks.flatten)).1.foldlM handle s).map fun s' =>
        (s', (c.frames (buf ++ chunks.flatten)).2) := by
  induction chunks generalizing s buf with
  | nil =>
    rw [List.flatten_nil, List.append_nil, hbuf]
    rfl
  | cons chunk chunks ih =>
    rw [feed, drain_eq, List.flatten_cons, ← List.append_assoc, frames_append (buf ++ chunk),
      List.foldlM_append]
    rw [framesWith_eq (Nat.le_refl _)]
    cases (c.frames (buf ++ chunk)).1.foldlM handle s with
    | error r => rfl
    | ok s' => exact ih (frames_left (buf ++ chunk)) s'

end

end Cutter

end Cognitora.Lib
