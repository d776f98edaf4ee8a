/-
  Rust `str` as used by the scheduler's incremental output (cgn-infer
  `src/scheduler/mod.rs`): a text is the list of its characters, and every offset is a
  byte offset into its UTF-8 encoding. A slice that Rust would panic on (past the end, or
  inside a character) is `none`.

  An offset is on a character boundary if it is the length of a prefix, so the lemmas speak of
  splits `p ++ r`: slices at such offsets succeed, `find` returns the earliest of them at which
  the pattern starts, and `heldBackLen` the earliest from which on the text could still grow
  into a stop string.
-/
import Mathlib.Data.List.Basic
import Mathlib.Data.List.Infix

namespace Cognitora.Infer

/-- A Rust `str`, as its characters. -/
abbrev Text := List Char

/-- `text.len()`: length in bytes. -/
def byteLen : Text → Nat
  | [] => 0
  | c :: t => c.utf8Size + byteLen t

/-- `text[..n]`. -/
def takeBytes : Text → Nat → Option Text
  | _, 0 => some []
  | [], _ + 1 => none
  | c :: t, n + 1 =>
    if c.utf8Size ≤ n + 1 then (takeBytes t (n + 1 - c.utf8Size)).map (c :: ·) else none

/-- `text[n..]`. -/
def dropBytes : Text → Nat → Option Text
  | t, 0 => some t
  | [], _ + 1 => none
  | c :: t, n + 1 => if c.utf8Size ≤ n + 1 then dropBytes t (n + 1 - c.utf8Size) else none

/-- `text[a..b]`. -/
def slice (t : Text) (a b : Nat) : Option Text :=
  (takeBytes t b).bind (dropBytes · a)

/-- `text.find(pat)`: byte offset of the first occurrence. -/
def find : Text → Text → Option Nat
  | [], pat => if pat.isEmpty then some 0 else none
  | c :: t, pat =>
    if pat.isPrefixOf (c :: t) then some 0 else (find t pat).map (c.utf8Size + ·)

/-- `text.char_indices()` with the rest of the text from each index on. -/
def charTails : Text → Nat → List (Nat × Text)
  | [], _ => []
  | c :: t, i => (i, c :: t) :: charTails t (i + c.utf8Size)

/-- Length of the prefix of `text` that is safe to emit, holding back any suffix that
    could still grow into one of `stops`. -/
def heldBackLen (text : Text) (stops : List Text) : Nat :=
  stops.foldl (fun safe stop =>
    (charTails text 0).foldl (fun safe tail =>
      if tail.2.isPrefixOf stop && decide (tail.1 < safe) then tail.1 else safe) safe)
    (byteLen text)

/-- `text.ends_with('\u{FFFD}')`: the last character decoded is still incomplete. -/
def endsIncomplete (text : Text) : Bool :=
  text.getLast? == some '�'

/-! ## Offsets of prefixes -/

theorem byteLen_append (a b : Text) : byteLen (a ++ b) = byteLen a + byteLen b := by
  induction a with
  | nil => simp [byteLen]
  | cons c a ih =>
    rw [List.cons_append, byteLen, byteLen, ih]
    omega

theorem byteLen_pos {t : Text} (h : t ≠ []) : 0 < byteLen t := by
  cases t with
  | nil => exact absurd rfl h
  | cons c t =>
    have := c.utf8Size_pos
    rw [byteLen]
    omega

theorem byteLen_mono {a b : Text} (h : a <+: b) : byteLen a ≤ byteLen b := by
  obtain ⟨r, rfl⟩ := h
  rw [byteLen_append]
  omega

/-- A prefix is determined by its length. -/
theorem eq_of_prefix_of_byteLen_le {a b : Text} (h : a <+: b) (hle : byteLen b ≤ byteLen a) :
    a = b := by
  obtain ⟨r, rfl⟩ := h
  rw [byteLen_append] at hle
  by_cases hr : r = []
  · rw [hr, List.append_nil]
  · have := byteLen_pos hr
    omega

/-- Of two prefixes of one text the shorter is a prefix of the other. -/
theorem prefix_of_byteLen_le {a b t : Text} (ha : a <+: t) (hb : b <+: t)
    (hle : byteLen a ≤ byteLen b) : a <+: b := by
  rcases List.prefix_or_prefix_of_prefix ha hb with h | h
  · exact h
  · rw [eq_of_prefix_of_byteLen_le h hle]

/-- A text with a character in front, for the functions that count bytes down. -/
theorem exists_byteLen_cons (c : Char) (p : Text) :
    ∃ n, byteLen (c :: p) = n + 1 ∧ c.utf8Size ≤ n + 1 ∧ n + 1 - c.utf8Size = byteLen p := by
  have hpos := c.utf8Size_pos
  have hlen : byteLen (c :: p) = c.utf8Size + byteLen p := rfl
  refine ⟨byteLen (c :: p) - 1, ?_, ?_, ?_⟩
  all_goals omega

theorem takeBytes_append (p r : Text) : takeBytes (p ++ r) (byteLen p) = some p := by
  induction p with
  | nil =>
    rw [byteLen]
    cases r <;> rfl
  | cons c p ih =>
    obtain ⟨n, hn, hle, hsub⟩ := exists_byteLen_cons c p
    rw [List.cons_append, hn, takeBytes, if_pos hle, hsub, ih]
    rfl

theorem dropBytes_append (p r : Text) : dropBytes (p ++ r) (byteLen p) = some r := by
  induction p with
  | nil =>
    rw [byteLen]
    cases r <;> rfl
  | cons c p ih =>
    obtain ⟨n, hn, hle, hsub⟩ := exists_byteLen_cons c p
    rw [List.cons_append, hn, dropBytes, if_pos hle, hsub, ih]

theorem takeBytes_eq_some {t p : Text} {n : Nat} (h : takeBytes t n = some p) :
    p <+: t ∧ byteLen p = n := by
  fun_induction takeBytes t n generalizing p with
  | case1 => exact Option.some.inj h ▸ ⟨List.nil_prefix, rfl⟩
  | case2 => exact nomatch h
  | case3 c t n hle ih =>
    obtain ⟨q, hq, rfl⟩ := Option.map_eq_some_iff.mp h
    obtain ⟨hpre, hlen⟩ := ih hq
    refine ⟨(List.prefix_cons_inj c).mpr hpre, ?_⟩
    rw [byteLen, hlen]
    omega
  | case4 => exact nomatch h

/-- What a slice from a boundary on returns starts there. -/
theorem slice_eq_some {p t d : Text} {n : Nat}
    (h : slice (p ++ t) (byteLen p) (byteLen p + n) = some d) :
    ∃ r, t = d ++ r ∧ byteLen d = n := by
  obtain ⟨u, hu, hd⟩ := Option.bind_eq_some_iff.mp h
  obtain ⟨hpre, hlen⟩ := takeBytes_eq_some hu
  obtain ⟨v, rfl⟩ := prefix_of_byteLen_le (List.prefix_append p t) hpre (by omega)
  rw [dropBytes_append] at hd
  cases hd
  rw [byteLen_append] at hlen
  obtain ⟨r, hr⟩ := (List.prefix_append_right_inj p).mp hpre
  exact ⟨r, hr.symm, by omega⟩

/-- A slice between two boundaries. -/
theorem slice_append (p d r : Text) :
    slice (p ++ d ++ r) (byteLen p) (byteLen p + byteLen d) = some d := by
  rw [slice, ← byteLen_append, takeBytes_append]
  exact dropBytes_append p d

/-! ## First occurrences -/

theorem find_some {t pat : Text} {n : Nat} (h : find t pat = some n) :
    ∃ p r, t = p ++ (pat ++ r) ∧ byteLen p = n := by
  induction t generalizing n with
  | nil =>
    unfold find at h
    split at h
    · next hp =>
      rw [List.isEmpty_iff.mp hp]
      exact ⟨[], [], rfl, Option.some.inj h⟩
    · cases h
  | cons c t ih =>
    unfold find at h
    split at h
    · next hp =>
      obtain ⟨r, hr⟩ := List.isPrefixOf_iff_prefix.mp hp
      exact ⟨[], r, hr.symm, Option.some.inj h⟩
    · obtain ⟨m, hm, hn⟩ := Option.map_eq_some_iff.mp h
      obtain ⟨p, r, rfl, rfl⟩ := ih hm
      exact ⟨c :: p, r, rfl, hn⟩

/-- Every occurrence is found, or an earlier one. -/
theorem exists_find_le (p pat r : Text) :
    ∃ n, find (p ++ (pat ++ r)) pat = some n ∧ n ≤ byteLen p := by
  induction p with
  | nil =>
    refine ⟨0, ?_, Nat.zero_le _⟩
    rw [List.nil_append]
    cases h : pat ++ r with
    | nil =>
      rw [List.append_eq_nil_iff] at h
      rw [h.1]
      rfl
    | cons c t =>
      have hp : pat.isPrefixOf (c :: t) = true :=
        List.isPrefixOf_iff_prefix.mpr (h ▸ List.prefix_append pat r)
      rw [find, if_pos hp]
  | cons c p ih =>
    obtain ⟨n, hn, hle⟩ := ih
    rw [List.cons_append, find]
    split
    · exact ⟨0, rfl, Nat.zero_le _⟩
    · refine ⟨c.utf8Size + n, by rw [hn]; rfl, ?_⟩
      rw [byteLen]
      omega

theorem find_eq_none {t pat : Text} (h : find t pat = none) (p r : Text) :
    t ≠ p ++ (pat ++ r) := by
  rintro rfl
  obtain ⟨n, hn, _⟩ := exists_find_le p pat r
  rw [hn] at h
  cases h

/-! ## Text that could still grow into a stop string -/

theorem mem_charTails {t : Text} {i : Nat} {x : Nat × Text} :
    x ∈ charTails t i ↔ ∃ p, t = p ++ x.2 ∧ x.2 ≠ [] ∧ x.1 = i + byteLen p := by
  induction t generalizing i with
  | nil =>
    simp only [charTails, List.not_mem_nil, false_iff, not_exists, not_and]
    intro p hp hne
    exact absurd (List.append_eq_nil_iff.mp hp.symm).2 hne
  | cons c t ih =>
    rw [charTails, List.mem_cons, ih]
    constructor
    · rintro (rfl | ⟨p, rfl, hne, hi⟩)
      · exact ⟨[], rfl, List.cons_ne_nil _ _, rfl⟩
      · refine ⟨c :: p, rfl, hne, ?_⟩
        rw [hi, byteLen]
        omega
    · rintro ⟨p, hp, hne, hi⟩
      cases p with
      | nil => exact Or.inl (Prod.ext hi hp.symm)
      | cons d p =>
        obtain ⟨rfl, rfl⟩ := List.cons.inj hp
        refine Or.inr ⟨p, rfl, hne, ?_⟩
        rw [hi, byteLen]
        omega

/-- The inner loop of `held_back_len`: the least index that is kept, if it is below `safe`. -/
theorem foldl_least {α : Type} (keep : Nat × α → Bool) (xs : List (Nat × α)) (safe : Nat) :
    let least := xs.foldl (fun safe x => if keep x && decide (x.1 < safe) then x.1 else safe) safe
    (least = safe ∨ ∃ x ∈ xs, keep x = true ∧ least = x.1) ∧ least ≤ safe ∧
      ∀ x ∈ xs, keep x = true → least ≤ x.1 := by
  induction xs generalizing safe with
  | nil => exact ⟨Or.inl rfl, Nat.le_refl _, fun _ h => absurd h List.not_mem_nil⟩
  | cons x xs ih =>
    have hx : (if keep x && decide (x.1 < safe) then x.1 else safe) ≤ safe ∧
        (keep x = true → (if keep x && decide (x.1 < safe) then x.1 else safe) ≤ x.1) := by
      split
      · next h =>
        have := of_decide_eq_true (Bool.and_eq_true_iff.mp h).2
        exact ⟨by omega, fun _ => Nat.le_refl _⟩
      · next h =>
        refine ⟨Nat.le_refl _, fun hk => ?_⟩
        rw [hk, Bool.true_and, decide_eq_true_eq] at h
        omega
    obtain ⟨hcases, hle, hall⟩ := ih (if keep x && decide (x.1 < safe) then x.1 else safe)
    refine ⟨?_, Nat.le_trans hle hx.1, ?_⟩
    · rcases hcases with h | ⟨y, hy, hk, h⟩
      · rw [List.foldl_cons, h]
        split
        · next hkeep =>
          exact Or.inr ⟨x, List.mem_cons_self, (Bool.and_eq_true_iff.mp hkeep).1, rfl⟩
        · exact Or.inl rfl
      · exact Or.inr ⟨y, List.mem_cons_of_mem _ hy, hk, h⟩
    · intro y hy hk
      rcases List.mem_cons.mp hy with rfl | hy
      · exact Nat.le_trans hle (hx.2 hk)
      · exact hall y hy hk

/-- `w` is a non-empty end of the text and the beginning of a stop string. -/
def HeldBack (text : Text) (stops : List Text) (p w : Text) : Prop :=
  text = p ++ w ∧ w ≠ [] ∧ ∃ stop ∈ stops, w <+: stop

theorem heldBackLen_spec (text : Text) (stops : List Text) :
    (heldBackLen text stops = byteLen text ∨
      ∃ p w, HeldBack text stops p w ∧ heldBackLen text stops = byteLen p) ∧
    ∀ p w, HeldBack text stops p w → heldBackLen text stops ≤ byteLen p := by
  suffices h : ∀ safe, let held := stops.foldl (fun safe stop =>
      (charTails text 0).foldl (fun safe tail =>
        if tail.2.isPrefixOf stop && decide (tail.1 < safe) then tail.1 else safe) safe) safe
      (held = safe ∨ ∃ p w, HeldBack text stops p w ∧ held = byteLen p) ∧ held ≤ safe ∧
        ∀ p w, HeldBack text stops p w → held ≤ byteLen p from
    ⟨(h (byteLen text)).1, (h (byteLen text)).2.2⟩
  induction stops with
  | nil =>
    intro safe
    refine ⟨Or.inl rfl, Nat.le_refl _, ?_⟩
    rintro p w ⟨_, _, stop, hstop, _⟩
    cases hstop
  | cons stop stops ih =>
    intro safe
    obtain ⟨hone, hsafe, hleast⟩ :=
      foldl_least (fun tail : Nat × Text => tail.2.isPrefixOf stop) (charTails text 0) safe
    obtain ⟨hcases, hle, hall⟩ := ih ((charTails text 0).foldl (fun safe tail =>
      if tail.2.isPrefixOf stop && decide (tail.1 < safe) then tail.1 else safe) safe)
    refine ⟨?_, Nat.le_trans hle hsafe, ?_⟩
    · rcases hcases with h | ⟨p, w, ⟨ht, hw, stop', hstop', hp⟩, h⟩
      · rw [List.foldl_cons, h]
        rcases hone with hone | ⟨x, hx, hkeep, hone⟩
        · exact Or.inl hone
        · obtain ⟨p, hp, hne, hi⟩ := mem_charTails.mp hx
          refine Or.inr ⟨p, x.2, ⟨hp, hne, stop, List.mem_cons_self,
            List.isPrefixOf_iff_prefix.mp hkeep⟩, ?_⟩
          rw [hone, hi, Nat.zero_add]
      · exact Or.inr ⟨p, w, ⟨ht, hw, stop', List.mem_cons_of_mem _ hstop', hp⟩, h⟩
    · rintro p w ⟨ht, hw, stop', hstop', hp⟩
      rcases List.mem_cons.mp hstop' with rfl | hstop'
      · refine Nat.le_trans hle ?_
        have := hleast (byteLen p, w) (mem_charTails.mpr ⟨p, ht, hw, (Nat.zero_add _).symm⟩)
        exact this (List.isPrefixOf_iff_prefix.mpr hp)
      · exact hall p w ⟨ht, hw, stop', hstop', hp⟩

/-- The prefix that is safe to emit. -/
theorem exists_prefix_heldBackLen (text : Text) (stops : List Text) :
    ∃ p, p <+: text ∧ byteLen p = heldBackLen text stops := by
  rcases (heldBackLen_spec text stops).1 with h | ⟨p, w, hheld, h⟩
  · exact ⟨text, List.prefix_rfl, h.symm⟩
  · exact ⟨p, hheld.1 ▸ List.prefix_append p w, h.symm⟩

end Cognitora.Infer
