/-
  Selecting from a list: a filter that yields when nothing passes it, and the survivor of a
  left-to-right comparison.

  The comparison is any Boolean function. Nothing before the last section needs it to be an
  order, so the lemmas also hold for scores whose comparison is none. The last section compares
  keys of a linear order: where no two elements have one key, the survivor is the maximum, so
  it depends on the elements only, and an element more or less matters only if it is it.
-/

namespace Cognitora.Lib

variable {α : Type}

/-- Keep the elements that `p` accepts, or all of them if it accepts none. -/
def retainIfAny (p : α → Bool) (l : List α) : List α :=
  if l.any p then l.filter p else l

theorem mem_of_mem_retainIfAny {p : α → Bool} {l : List α} {x : α} (h : x ∈ retainIfAny p l) :
    x ∈ l := by
  unfold retainIfAny at h
  split at h
  · exact (List.mem_filter.mp h).1
  · exact h

/-- What is kept passes the filter, or nothing does. -/
theorem retainIfAny_passes {p : α → Bool} {l : List α} {x : α} (h : x ∈ retainIfAny p l)
    (hx : p x = false) : ∀ y ∈ l, p y = false := by
  unfold retainIfAny at h
  split at h
  · rw [(List.mem_filter.mp h).2] at hx
    exact absurd hx (by simp)
  · next hnone =>
    intro y hy
    cases hp : p y with
    | false => rfl
    | true => exact absurd (List.any_eq_true.mpr ⟨y, hy, hp⟩) hnone

theorem eq_true_of_any {p : α → Bool} {l : List α} {x : α} (hany : l.any p = true)
    (h : p x = false → ∀ y ∈ l, p y = false) : p x = true := by
  obtain ⟨y, hy, hp⟩ := List.any_eq_true.mp hany
  cases hx : p x with
  | true => rfl
  | false =>
    rw [h hx y hy] at hp
    exact absurd hp Bool.false_ne_true

theorem mem_retainIfAny_iff {p : α → Bool} {l : List α} {x : α} :
    x ∈ retainIfAny p l ↔ x ∈ l ∧ (p x = false → ∀ y ∈ l, p y = false) := by
  refine ⟨fun h => ⟨mem_of_mem_retainIfAny h, retainIfAny_passes h⟩, ?_⟩
  rintro ⟨hx, hnone⟩
  unfold retainIfAny
  split
  · next hany => exact List.mem_filter.mpr ⟨hx, eq_true_of_any hany hnone⟩
  · exact hx

/-- The last element stays the last one, if it is kept. -/
theorem retainIfAny_concat {p : α → Bool} {l : List α} {x : α}
    (h : p x = false → ∀ y ∈ l ++ [x], p y = false) :
    ∃ l', retainIfAny p (l ++ [x]) = l' ++ [x] := by
  unfold retainIfAny
  split
  · next hany =>
    refine ⟨l.filter p, ?_⟩
    rw [List.filter_append, List.filter_cons_of_pos (eq_true_of_any hany h), List.filter_nil]
  · exact ⟨l, rfl⟩

theorem retainIfAny_eq_nil_iff (p : α → Bool) (l : List α) : retainIfAny p l = [] ↔ l = [] := by
  unfold retainIfAny
  split
  · next hany =>
    obtain ⟨x, hx, hp⟩ := List.any_eq_true.mp hany
    constructor
    · intro h
      have hmem := List.mem_filter.mpr ⟨hx, hp⟩
      rw [h] at hmem
      exact absurd hmem List.not_mem_nil
    · intro h
      rw [h] at hx
      exact absurd hx List.not_mem_nil
  · exact Iff.rfl

/-- Of the best so far and the next element, the first if `keep` says so. -/
def better (keep : α → α → Bool) : Option α → α → Option α
  | none, x => some x
  | some b, x => if keep b x then some b else some x

def best (keep : α → α → Bool) (l : List α) : Option α :=
  l.foldl (better keep) none

theorem better_eq_some (keep : α → α → Bool) (b : Option α) (x : α) :
    ∃ y, better keep b x = some y ∧ (y = x ∨ b = some y) := by
  cases b with
  | none => exact ⟨x, rfl, Or.inl rfl⟩
  | some b =>
    unfold better
    dsimp only
    split
    · exact ⟨b, rfl, Or.inr rfl⟩
    · exact ⟨x, rfl, Or.inl rfl⟩

theorem foldl_better (keep : α → α → Bool) (l : List α) (b : α) :
    ∃ y, l.foldl (better keep) (some b) = some y ∧ (y = b ∨ y ∈ l) := by
  induction l generalizing b with
  | nil => exact ⟨b, rfl, Or.inl rfl⟩
  | cons x l ih =>
    obtain ⟨c, hc, hcases⟩ := better_eq_some keep (some b) x
    obtain ⟨y, hy, hmem⟩ := ih c
    refine ⟨y, by rw [List.foldl_cons, hc, hy], ?_⟩
    rcases hmem with rfl | hmem
    · rcases hcases with rfl | hb
      · exact Or.inr List.mem_cons_self
      · exact Or.inl (Option.some.inj hb).symm
    · exact Or.inr (List.mem_cons_of_mem _ hmem)

theorem mem_of_best {keep : α → α → Bool} {l : List α} {y : α} (h : best keep l = some y) :
    y ∈ l := by
  cases l with
  | nil => exact absurd h (by simp [best])
  | cons x l =>
    obtain ⟨z, hz, hmem⟩ := foldl_better keep l x
    have hbest : best keep (x :: l) = some z := hz
    rw [h] at hbest
    rw [Option.some.inj hbest]
    exact List.mem_cons.mpr hmem

theorem best_eq_none_iff (keep : α → α → Bool) (l : List α) : best keep l = none ↔ l = [] := by
  cases l with
  | nil => exact ⟨fun _ => rfl, fun _ => rfl⟩
  | cons x l =>
    obtain ⟨z, hz, _⟩ := foldl_better keep l x
    have hbest : best keep (x :: l) = some z := hz
    rw [hbest]
    simp

/-- A comparison that keeps nothing leaves the last element. -/
theorem best_concat {keep : α → α → Bool} {l : List α} {x : α}
    (h : ∀ y, keep y x = false) : best keep (l ++ [x]) = some x := by
  unfold best
  rw [List.foldl_append, List.foldl_cons, List.foldl_nil]
  cases l.foldl (better keep) none with
  | none => rfl
  | some y =>
    rw [better, h y]
    rfl

/-! ## The greatest key -/

section

variable {κ : Type} [LT κ] [LE κ] [DecidableLT κ] [Std.IsLinearOrder κ] [Std.LawfulOrderLT κ]
  {key : α → κ}

theorem key_le_foldl_better {l : List α} {b w : α}
    (h : l.foldl (better fun prev x => decide (key x < key prev)) (some b) = some w) :
    key b ≤ key w ∧ ∀ x ∈ l, key x ≤ key w := by
  induction l generalizing b with
  | nil =>
    cases h
    exact ⟨Std.le_refl _, fun _ hx => absurd hx List.not_mem_nil⟩
  | cons x l ih =>
    rw [List.foldl_cons, better] at h
    split at h
    · next hlt =>
      obtain ⟨hb, hl⟩ := ih h
      have hx := Std.le_trans (Std.le_of_lt (of_decide_eq_true hlt)) hb
      exact ⟨hb, List.forall_mem_cons.mpr ⟨hx, hl⟩⟩
    · next hlt =>
      obtain ⟨hx, hl⟩ := ih h
      have hb := Std.le_trans (Std.not_lt.mp fun hxb => hlt (decide_eq_true hxb)) hx
      exact ⟨hb, List.forall_mem_cons.mpr ⟨hx, hl⟩⟩

theorem key_le_of_best {l : List α} {w : α}
    (h : best (fun prev x => decide (key x < key prev)) l = some w) :
    ∀ x ∈ l, key x ≤ key w := by
  cases l with
  | nil => exact fun _ hx => absurd hx List.not_mem_nil
  | cons x l => exact List.forall_mem_cons.mpr (key_le_foldl_better (b := x) h)

theorem best_eq_some_iff {l : List α} (hinj : ∀ x ∈ l, ∀ y ∈ l, key x = key y → x = y) {w : α} :
    best (fun prev x => decide (key x < key prev)) l = some w ↔
      w ∈ l ∧ ∀ x ∈ l, key x ≤ key w := by
  constructor
  · exact fun h => ⟨mem_of_best h, key_le_of_best h⟩
  · rintro ⟨hw, hmax⟩
    cases hbest : best (fun prev x => decide (key x < key prev)) l with
    | none =>
      rw [(best_eq_none_iff _ l).mp hbest] at hw
      exact absurd hw List.not_mem_nil
    | some v =>
      have hv := mem_of_best hbest
      rw [hinj v hv w hw (Std.le_antisymm (hmax v hv) (key_le_of_best hbest w hw))]

/-- The order of the list plays no part. -/
theorem best_perm {l m : List α} (hinj : ∀ x ∈ l, ∀ y ∈ l, key x = key y → x = y)
    (hperm : m.Perm l) :
    best (fun prev x => decide (key x < key prev)) m =
      best (fun prev x => decide (key x < key prev)) l := by
  have hinj' : ∀ x ∈ m, ∀ y ∈ m, key x = key y → x = y :=
    fun x hx y hy => hinj x (hperm.mem_iff.mp hx) y (hperm.mem_iff.mp hy)
  refine Option.ext fun w => ?_
  rw [best_eq_some_iff hinj, best_eq_some_iff hinj', hperm.mem_iff]
  simp only [hperm.mem_iff]

/-- One element more: it is the survivor, or nothing changes. -/
theorem best_insert {l r : List α} {x : α}
    (hinj : ∀ y ∈ l ++ x :: r, ∀ z ∈ l ++ x :: r, key y = key z → y = z) :
    best (fun prev x => decide (key x < key prev)) (l ++ x :: r) = some x ∨
      best (fun prev x => decide (key x < key prev)) (l ++ x :: r) =
        best (fun prev x => decide (key x < key prev)) (l ++ r) := by
  have hmem : ∀ y, y ∈ l ++ x :: r ↔ y = x ∨ y ∈ l ++ r := by
    intro y
    simp only [List.mem_append, List.mem_cons]
    exact or_left_comm
  cases hbest : best (fun prev x => decide (key x < key prev)) (l ++ x :: r) with
  | none => exact absurd ((best_eq_none_iff _ _).mp hbest) (by simp)
  | some w =>
    rcases (hmem w).mp (mem_of_best hbest) with rfl | hw
    · exact Or.inl rfl
    · have hinj' : ∀ y ∈ l ++ r, ∀ z ∈ l ++ r, key y = key z → y = z :=
        fun y hy z hz => hinj y ((hmem y).mpr (Or.inr hy)) z ((hmem z).mpr (Or.inr hz))
      have hmax : ∀ y ∈ l ++ r, key y ≤ key w :=
        fun y hy => key_le_of_best hbest y ((hmem y).mpr (Or.inr hy))
      exact Or.inr ((best_eq_some_iff hinj').mpr ⟨hw, hmax⟩).symm

end

end Cognitora.Lib
