/-
  Texts as lists of characters: words, trimming and lines.

  Words are separated by one or more characters of a class `ws`. A line ends with a newline,
  or a carriage return and a newline; the last one may have no ending, and then a carriage
  return at its end belongs to it. `filterMap_lines_join`: lines without newlines that are
  joined by newlines are read back, as far as a reading is concerned that ignores empty lines
  and a carriage return at the end.
-/
import Mathlib.Data.List.DropRight
import Mathlib.Data.List.Basic

namespace Cognitora.Lib

/-! ## Words -/

section

variable {α : Type*} (ws : α → Bool)

/-- Drop the separators at both ends. -/
def trim (l : List α) : List α :=
  (l.dropWhile ws).rdropWhile ws

/-- The words of a text. -/
def words (l : List α) : List (List α) :=
  (l.splitOnP ws).filter fun w => !w.isEmpty

variable {ws}

@[simp] theorem words_nil : words ws [] = [] := by
  simp [words]

theorem words_append_cons (a b : List α) {c : α} (hc : ws c = true) :
    words ws (a ++ c :: b) = words ws a ++ words ws b := by
  rw [words, List.splitOnP_append_cons _ _ hc, List.filter_append]
  rfl

theorem words_cons (l : List α) {c : α} (hc : ws c = true) : words ws (c :: l) = words ws l := by
  simpa using words_append_cons [] l hc

theorem words_concat (l : List α) {c : α} (hc : ws c = true) :
    words ws (l ++ [c]) = words ws l := by
  simpa using words_append_cons l [] hc

theorem words_append_of_forall {a : List α} (ha : ∀ c ∈ a, ws c = true) (b : List α) :
    words ws (a ++ b) = words ws b := by
  induction a with
  | nil => rfl
  | cons c a ih =>
    rw [List.cons_append, words_cons _ (ha c List.mem_cons_self),
      ih fun d hd => ha d (List.mem_cons_of_mem _ hd)]

/-- A non-empty text without separators is one word. -/
theorem words_of_word {l : List α} (hne : l ≠ []) (hl : ∀ c ∈ l, ws c = false) :
    words ws l = [l] := by
  rw [words, List.splitOnP_eq_singleton hl, List.filter_cons_of_pos (by simpa using hne),
    List.filter_nil]

/-- A character that is no separator extends the word at the end of a text, or starts one. -/
theorem exists_lastWord (l : List α) :
    ∃ front w, words ws l = front ++ (if w = [] then [] else [w]) ∧
      ∀ c, ws c = false → words ws (l ++ [c]) = front ++ [w ++ [c]] := by
  have hword : ∀ w : List α, (∀ c ∈ w, ws c = false) →
      words ws w = (if w = [] then [] else [w]) ∧
        ∀ c, ws c = false → words ws (w ++ [c]) = [w ++ [c]] := by
    intro w hw
    refine ⟨?_, fun c hc => words_of_word (by simp) ?_⟩
    · split_ifs with hnil
      · rw [hnil, words_nil]
      · exact words_of_word hnil hw
    · intro d hd
      obtain hd | hd := List.mem_append.mp hd
      · exact hw d hd
      · rw [List.mem_singleton.mp hd, hc]
  have htake : ∀ c ∈ l.rtakeWhile (!ws ·), ws c = false := by
    intro c hc
    simpa using List.mem_rtakeWhile_imp hc
  obtain ⟨hlast, hmore⟩ := hword (l.rtakeWhile (!ws ·)) htake
  have hsplit : l.rdropWhile (!ws ·) ++ l.rtakeWhile (!ws ·) = l :=
    List.rdropWhile_append_rtakeWhile
  obtain hnil | ⟨front, x, hfront⟩ := List.eq_nil_or_concat' (l.rdropWhile (!ws ·))
  · rw [hnil, List.nil_append] at hsplit
    rw [hsplit] at hlast hmore
    exact ⟨[], l, hlast, hmore⟩
  · have hx : ws x = true := by
      have hne : l.rdropWhile (!ws ·) ≠ [] := by simp [hfront]
      have hlastx := List.rdropWhile_last_not (!ws ·) l hne
      simpa [hfront] using hlastx
    rw [hfront, List.append_assoc, List.singleton_append] at hsplit
    refine ⟨words ws front, l.rtakeWhile (!ws ·), ?_, fun c hc => ?_⟩
    · rw [← hlast, ← words_append_cons front _ hx, hsplit]
    · rw [← hmore c hc, ← words_append_cons front _ hx, ← List.cons_append, ← List.append_assoc,
        hsplit]

theorem words_dropWhile (l : List α) : words ws (l.dropWhile ws) = words ws l := by
  induction l with
  | nil => rfl
  | cons c l ih =>
    rw [List.dropWhile_cons]
    split
    · next hc => rw [ih, words_cons l hc]
    · rfl

theorem words_rdropWhile (l : List α) : words ws (l.rdropWhile ws) = words ws l := by
  induction l using List.reverseRecOn with
  | nil => rfl
  | append_singleton l c ih =>
    rw [List.rdropWhile_concat]
    split
    · next hc => rw [ih, words_concat l hc]
    · rfl

theorem words_trim (l : List α) : words ws (trim ws l) = words ws l := by
  rw [trim, words_rdropWhile, words_dropWhile]

/-- A text without words is made of separators. -/
theorem words_eq_nil_iff (l : List α) : words ws l = [] ↔ ∀ c ∈ l, ws c = true := by
  induction l with
  | nil => simp
  | cons c l ih =>
    rw [List.forall_mem_cons]
    by_cases hc : ws c = true
    · rw [words_cons l hc, ih, and_iff_right hc]
    · refine iff_of_false (fun hnil => ?_) fun h => hc h.1
      rw [words, List.splitOnP_cons_eq_if_modifyHead, if_neg hc] at hnil
      cases hsplit : l.splitOnP ws with
      | nil => exact List.splitOnP_ne_nil ws l hsplit
      | cons w rest =>
        rw [hsplit, List.modifyHead_cons, List.filter_cons_of_pos rfl] at hnil
        cases hnil

/-- A word, after separators and before a separator or the end, is the first one. -/
theorem words_append_word {blank w rest : List α} (hblank : ∀ c ∈ blank, ws c = true)
    (hne : w ≠ []) (hw : ∀ c ∈ w, ws c = false) (hrest : ∀ c ∈ rest.head?, ws c = true) :
    words ws (blank ++ (w ++ rest)) = w :: words ws rest := by
  rw [words_append_of_forall hblank]
  cases rest with
  | nil => rw [List.append_nil, words_of_word hne hw, words_nil]
  | cons c rest =>
    have hc : ws c = true := hrest c rfl
    rw [words_append_cons _ _ hc, words_of_word hne hw, words_cons _ hc]
    rfl

/-- Where the first word of a text stands. -/
theorem exists_words_cons {l w : List α} {tail : List (List α)} (h : words ws l = w :: tail) :
    ∃ blank rest, l = blank ++ (w ++ rest) ∧ (∀ c ∈ blank, ws c = true) ∧ w ≠ [] ∧
      (∀ c ∈ w, ws c = false) ∧ (∀ c ∈ rest.head?, ws c = true) ∧ words ws rest = tail := by
  have hblank : ∀ c ∈ l.takeWhile ws, ws c = true := fun c hc => List.mem_takeWhile_imp hc
  obtain ⟨first, hfirst⟩ : ∃ first, first = (l.dropWhile ws).takeWhile (!ws ·) := ⟨_, rfl⟩
  obtain ⟨rest, hrestEq⟩ : ∃ rest, rest = (l.dropWhile ws).dropWhile (!ws ·) := ⟨_, rfl⟩
  have hl : l = l.takeWhile ws ++ (first ++ rest) := by
    rw [hfirst, hrestEq, List.takeWhile_append_dropWhile, List.takeWhile_append_dropWhile]
  have hw : ∀ c ∈ first, ws c = false := by
    intro c hc
    rw [hfirst] at hc
    simpa using List.mem_takeWhile_imp hc
  have hrest : ∀ c ∈ rest.head?, ws c = true := by
    intro c hc
    rw [hrestEq] at hc
    have hnot := List.head?_dropWhile_not (!ws ·) (l.dropWhile ws)
    rw [Option.mem_def.mp hc] at hnot
    simpa using hnot
  have hne : first ≠ [] := by
    intro hnil
    -- the text without its leading separators would start with one
    have hdrop : l.dropWhile ws = [] := by
      cases hd : l.dropWhile ws with
      | nil => rfl
      | cons c t =>
        have hc := List.head?_dropWhile_not ws l
        rw [hd] at hc
        rw [hfirst, hd, List.takeWhile_cons_of_pos (by simpa using hc)] at hnil
        cases hnil
    rw [← words_dropWhile, hdrop, words_nil] at h
    cases h
  have hwords := words_append_word hblank hne hw hrest
  rw [← hl, h, List.cons.injEq] at hwords
  obtain ⟨rfl, rfl⟩ := hwords
  exact ⟨_, rest, hl, hblank, hne, hw, hrest, rfl⟩

theorem trim_eq_nil_iff (l : List α) : trim ws l = [] ↔ words ws l = [] := by
  constructor
  · intro h
    rw [← words_trim, h, words_nil]
  · intro h
    rw [trim, List.dropWhile_eq_nil_iff.mpr fun c hc => (words_eq_nil_iff l).mp h c hc]
    exact List.rdropWhile_nil _

end

/-! ## Lines -/

/-- `str::split_inclusive`: the pieces of a text, each with its newline. -/
def splitInclusive : List Char → List (List Char)
  | [] => []
  | c :: cs =>
    if c = '\n' then [c] :: splitInclusive cs
    else
      match splitInclusive cs with
      | [] => [[c]]
      | piece :: pieces => (c :: piece) :: pieces

/-- Take off a line ending. -/
def chomp (piece : List Char) : List Char :=
  if piece.getLast? = some '\n' then
    if piece.dropLast.getLast? = some '\r' then piece.dropLast.dropLast else piece.dropLast
  else piece

/-- `str::lines`. -/
def lines (text : List Char) : List (List Char) :=
  (splitInclusive text).map chomp

/-- `join("\n")`. -/
def joinLines (ls : List (List Char)) : List Char :=
  List.intercalate ['\n'] ls

theorem splitInclusive_line {l : List Char} (hl : '\n' ∉ l) (rest : List Char) :
    splitInclusive (l ++ '\n' :: rest) = (l ++ ['\n']) :: splitInclusive rest := by
  induction l with
  | nil => simp [splitInclusive]
  | cons c l ih =>
    rw [List.mem_cons, not_or] at hl
    rw [List.cons_append, splitInclusive, if_neg (Ne.symm hl.1), ih hl.2]
    rfl

theorem splitInclusive_last {l : List Char} (hl : '\n' ∉ l) (hne : l ≠ []) :
    splitInclusive l = [l] := by
  induction l with
  | nil => exact absurd rfl hne
  | cons c l ih =>
    rw [List.mem_cons, not_or] at hl
    rw [splitInclusive, if_neg (Ne.symm hl.1)]
    cases l with
    | nil => rfl
    | cons d l => rw [ih hl.2 (List.cons_ne_nil _ _)]

theorem splitInclusive_cons_ne_nil (c : Char) (l : List Char) : splitInclusive (c :: l) ≠ [] := by
  unfold splitInclusive
  split
  · exact List.cons_ne_nil _ _
  · split <;> exact List.cons_ne_nil _ _

/-- After a newline the text is read afresh. -/
theorem splitInclusive_append {a : List Char} (ha : ∀ c ∈ a.getLast?, c = '\n')
    (b : List Char) : splitInclusive (a ++ b) = splitInclusive a ++ splitInclusive b := by
  induction a with
  | nil => rfl
  | cons c a ih =>
    cases a with
    | nil =>
      rw [ha c rfl]
      simp [splitInclusive]
    | cons d a =>
      have ih := ih (by simpa using ha)
      rw [List.cons_append, splitInclusive, splitInclusive, ih]
      split
      · rfl
      · cases hpieces : splitInclusive (d :: a) with
        | nil => exact absurd hpieces (splitInclusive_cons_ne_nil d a)
        | cons piece pieces => rfl

theorem lines_append {a : List Char} (ha : ∀ c ∈ a.getLast?, c = '\n') (b : List Char) :
    lines (a ++ b) = lines a ++ lines b := by
  rw [lines, splitInclusive_append ha, List.map_append]
  rfl

/-- What follows the last newline. -/
def lastPiece (text : List Char) : List Char :=
  text.rtakeWhile (· ≠ '\n')

theorem newline_not_mem_lastPiece (text : List Char) : '\n' ∉ lastPiece text := by
  intro h
  rw [lastPiece, List.rtakeWhile, List.mem_reverse] at h
  have hne := List.mem_takeWhile_imp h
  simp at hne

/-- A text is what stands up to its last newline, and what follows. -/
theorem exists_append_lastPiece (text : List Char) :
    ∃ front, text = front ++ lastPiece text ∧ ∀ c ∈ front.getLast?, c = '\n' := by
  refine ⟨text.rdropWhile (· ≠ '\n'), List.rdropWhile_append_rtakeWhile.symm, fun c hc => ?_⟩
  have hne : text.rdropWhile (· ≠ '\n') ≠ [] := by
    intro hnil
    rw [hnil] at hc
    cases hc
  rw [List.getLast?_eq_some_getLast hne] at hc
  cases hc
  simpa using List.rdropWhile_last_not _ text hne

theorem chomp_line {l : List Char} :
    chomp (l ++ ['\n']) = l ∨ l = chomp (l ++ ['\n']) ++ ['\r'] := by
  unfold chomp
  rw [List.getLast?_concat, if_pos rfl, List.dropLast_concat]
  split
  · next h => exact Or.inr (List.dropLast_append_getLast? _ h).symm
  · exact Or.inl rfl

theorem newline_not_mem_dropLast {text piece : List Char} (h : piece ∈ splitInclusive text) :
    '\n' ∉ piece.dropLast := by
  induction text generalizing piece with
  | nil => cases h
  | cons c text ih =>
    unfold splitInclusive at h
    split at h
    · rcases List.mem_cons.mp h with rfl | h
      · exact List.not_mem_nil
      · exact ih h
    · next hc =>
      split at h
      · rw [List.mem_singleton.mp h]
        exact List.not_mem_nil
      · next first pieces hpieces =>
        rw [hpieces] at ih
        rcases List.mem_cons.mp h with rfl | h
        · cases first with
          | nil => exact List.not_mem_nil
          | cons d first =>
            rw [List.dropLast_cons_cons, List.mem_cons, not_or]
            exact ⟨Ne.symm hc, ih List.mem_cons_self⟩
        · exact ih (List.mem_cons_of_mem _ h)

theorem newline_not_mem_lines {text l : List Char} (h : l ∈ lines text) : '\n' ∉ l := by
  obtain ⟨piece, hpiece, rfl⟩ := List.mem_map.mp h
  have hinner := newline_not_mem_dropLast hpiece
  unfold chomp
  split
  · split
    · exact fun hmem => hinner ((List.dropLast_sublist _).subset hmem)
    · exact hinner
  · next hlast =>
    intro hmem
    rcases List.eq_nil_or_concat' piece with rfl | ⟨l, c, rfl⟩
    · cases hmem
    · rw [List.getLast?_concat] at hlast
      rw [List.dropLast_concat] at hinner
      rcases List.mem_append.mp hmem with hl | hc
      · exact hinner hl
      · exact hlast (congrArg some (List.mem_singleton.mp hc).symm)

/-- The text of some lines, each with its newline. -/
def endLines (ls : List (List Char)) : List Char :=
  ls.flatMap (· ++ ['\n'])

theorem splitInclusive_endLines {ls : List (List Char)} (hls : ∀ l ∈ ls, '\n' ∉ l) :
    splitInclusive (endLines ls) = ls.map (· ++ ['\n']) := by
  induction ls with
  | nil => rfl
  | cons l ls ih =>
    have hcons : endLines (l :: ls) = l ++ '\n' :: endLines ls := by
      simp [endLines]
    rw [hcons, splitInclusive_line (hls l List.mem_cons_self), List.map_cons,
      ih fun m hm => hls m (List.mem_cons_of_mem _ hm)]

theorem lines_endLines {ls : List (List Char)} (hls : ∀ l ∈ ls, '\n' ∉ l) :
    lines (endLines ls) = ls.map fun l => chomp (l ++ ['\n']) := by
  rw [lines, splitInclusive_endLines hls, List.map_map]
  rfl

theorem endLines_inj {ls ms : List (List Char)} (hls : ∀ l ∈ ls, '\n' ∉ l)
    (hms : ∀ l ∈ ms, '\n' ∉ l) (h : endLines ls = endLines ms) : ls = ms := by
  have hsplit := congrArg splitInclusive h
  rw [splitInclusive_endLines hls, splitInclusive_endLines hms] at hsplit
  exact List.map_injective_iff.mpr (fun _ _ => List.append_cancel_right) hsplit

/-- A text without a newline is one line. -/
theorem lines_of_line {l : List Char} (hl : '\n' ∉ l) (hne : l ≠ []) : lines l = [l] := by
  have hlast : ¬ l.getLast? = some '\n' := fun h => hl (List.mem_of_getLast? h)
  rw [lines, splitInclusive_last hl hne, List.map_singleton, chomp, if_neg hlast]

section

variable {β : Type*} {f : List Char → Option β}

/-- Lines picked by what is read from them, and what is read from the lines picked. -/
theorem filterMap_filter_of_agree {p : List Char → Bool} {q : β → Bool} (ls : List (List Char))
    (h : ∀ l ∈ ls, ∀ b, f l = some b → p l = q b) :
    (ls.filter p).filterMap f = (ls.filterMap f).filter q := by
  induction ls with
  | nil => rfl
  | cons l ls ih =>
    have ih := ih fun m hm => h m (List.mem_cons_of_mem _ hm)
    cases hf : f l with
    | none =>
      rw [List.filterMap_cons_none hf, ← ih, List.filter_cons]
      split
      · rw [List.filterMap_cons_none hf]
      · rfl
    | some b =>
      have hpq := h l List.mem_cons_self b hf
      rw [List.filterMap_cons_some hf, List.filter_cons, List.filter_cons, hpq]
      split
      · rw [List.filterMap_cons_some hf, ih]
      · exact ih

/-- Lines that are joined are read back, by a reading that ignores empty lines and a carriage
    return at the end. -/
theorem filterMap_lines_join (hnil : f [] = none) (hcr : ∀ l, f (l ++ ['\r']) = f l)
    (ls : List (List Char)) (hls : ∀ l ∈ ls, '\n' ∉ l) :
    (lines (joinLines ls)).filterMap f = ls.filterMap f := by
  induction ls with
  | nil => rfl
  | cons l ls ih =>
    have hl := hls l List.mem_cons_self
    have ih := ih fun m hm => hls m (List.mem_cons_of_mem _ hm)
    cases ls with
    | nil =>
      rw [joinLines, List.intercalate_singleton]
      by_cases hempty : l = []
      · rw [hempty, List.filterMap_cons_none hnil]
        rfl
      · rw [lines_of_line hl hempty]
    | cons m ls =>
      have hjoin : joinLines (l :: m :: ls) = l ++ '\n' :: joinLines (m :: ls) := by
        simp [joinLines, List.intercalate]
      have hline : f (chomp (l ++ ['\n'])) = f l := by
        rcases chomp_line (l := l) with h | h
        · rw [h]
        · rw [h, hcr, ← h]
      rw [hjoin, lines, splitInclusive_line hl, List.map_cons, List.filterMap_cons, hline,
        List.filterMap_cons]
      rw [show (splitInclusive (joinLines (m :: ls))).map chomp = lines (joinLines (m :: ls))
        from rfl, ih]

end

end Cognitora.Lib
