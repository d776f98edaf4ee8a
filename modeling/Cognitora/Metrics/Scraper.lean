/-
  The federation proxy's labels (cgn-metrics `src/scraper.rs`, `decorate_with_target`,
  `decorate_one`, `escape_label_value`).

  Every target's body is served again with `cgn_target` added to each sample.
  `decorate_keeps_samples_iff`: for a body that is valid and has no such label, what is served
  reads as the same samples with that one label more exactly when every sample line is `Plain`.
  The text is cut at the first closing brace of the line, also when that brace stands in a
  label's value; after a trailing comma a second comma is written; and a line without labels is
  split at its first white space, so a leading blank leaves no name.

  Numbers are read by any reader whose tokens have no brace and no carriage return.
-/
import Cognitora.Auth.KeyFile
import Cognitora.Lib.Exposition

namespace Cognitora.Metrics

open Cognitora.Auth (Text isWhitespace)
open Cognitora.Lib Cognitora.Lib.Exposition

/-- `str::replace`, of one character. -/
def replace (c : Char) (new v : Text) : Text :=
  v.flatMap fun d => if d = c then new else [d]

def escapeLabelValue (v : Text) : Text :=
  replace '\n' ['\\', 'n'] (replace '"' ['\\', '"'] (replace '\\' ['\\', '\\'] v))

def targetKey : Text := "cgn_target".toList

def labelKv (target : Text) : Text :=
  targetKey ++ '=' :: '"' :: escapeLabelValue target ++ ['"']

/-- `str::split_once(char::is_whitespace)`. -/
def splitOnce (line : Text) : Option (Text × Text) :=
  match line.dropWhile fun c => !isWhitespace c with
  | [] => none
  | _ :: rest => some (line.takeWhile fun c => !isWhitespace c, rest)

def decorateOne (line target : Text) : Option Text :=
  match line.findIdx? (· == '{') with
  | some opening =>
    match line.findIdx? (· == '}') with
    | none => none
    | some close =>
      if close < opening then none
      else
        let inside := (line.take close).drop (opening + 1)
        some (line.take (opening + 1) ++
          (if (trim isWhitespace inside).isEmpty then [] else inside ++ [',']) ++
          labelKv target ++ line.drop close)
  | none =>
    match splitOnce line with
    | none => none
    | some (name, rest) => some (name ++ '{' :: labelKv target ++ '}' :: ' ' :: rest)

def decorateLine (target line : Text) : Text :=
  let trimmed := line.dropWhile isWhitespace
  if trimmed.isEmpty || trimmed.head? == some '#' then line
  else (decorateOne line target).getD line

def headerText : Text := "# cgn-metrics: federated from target ".toList

def header (target : Text) : Text :=
  headerText ++ target

def decorateWithTarget (body target : Text) : Text :=
  header target ++ '\n' :: endLines ((lines body).map (decorateLine target))

/-! ## The lines it can decorate -/

/-- What stands between the first opening and the first closing brace. -/
def labelText (line : Text) : Text :=
  ((line.dropWhile (· ≠ '{')).drop 1).takeWhile (· ≠ '}')

/-- No label value has a closing brace and no comma stands before the closing one; a line
    without labels starts with its name. -/
def Plain (line : Text) : Prop :=
  if '{' ∈ line then
    line.count '}' = 1 ∧ ((labelText line).rdropWhile isBlank).getLast? ≠ some ','
  else line.head?.any isBlank = false

instance (line : Text) : Decidable (Plain line) :=
  inferInstanceAs (Decidable (if '{' ∈ line then _ ∧ _ else _ = false))

/-! ## Characters -/

theorem isNameChar_bounds {c : Char} (h : isNameChar c = true) : 48 ≤ c.toNat ∧ c.toNat ≤ 122 := by
  have hrange : ∀ a b : Char, a.val ≤ c.val ∧ c.val ≤ b.val → 48 ≤ a.toNat → b.toNat ≤ 122 →
      48 ≤ c.toNat ∧ c.toNat ≤ 122 := fun a b hc ha hb =>
    ⟨Nat.le_trans ha (UInt32.le_iff_toNat_le.mp hc.1),
      Nat.le_trans (UInt32.le_iff_toNat_le.mp hc.2) hb⟩
  simp only [isNameChar, isNameStart, isLabelStart, Bool.or_eq_true, beq_iff_eq] at h
  rcases h with ((halpha | rfl) | rfl) | hdigit
  · rcases Bool.or_eq_true_iff.mp halpha with hupper | hlower
    · exact hrange 'A' 'Z' (of_decide_eq_true hupper) (by decide) (by decide)
    · have hc := (Bool.and_eq_true_iff.mp hlower).imp of_decide_eq_true of_decide_eq_true
      exact hrange 'a' 'z' hc (by decide) (by decide)
  · decide
  · decide
  · have hc := (Bool.and_eq_true_iff.mp hdigit).imp of_decide_eq_true of_decide_eq_true
    exact hrange '0' '9' hc (by decide) (by decide)

theorem isWhitespace_of_isNameChar {c : Char} (h : isNameChar c = true) :
    isWhitespace c = false := by
  obtain ⟨h₁, h₂⟩ := isNameChar_bounds h
  rw [Bool.eq_false_iff]
  intro hws
  simp only [isWhitespace, Bool.or_eq_true, Bool.and_eq_true, decide_eq_true_eq,
    beq_iff_eq] at hws
  omega

theorem isWhitespace_of_isBlank {c : Char} (h : isBlank c = true) : isWhitespace c = true := by
  rcases isBlank_iff.mp h with rfl | rfl <;> decide

theorem not_isLabelStart_of_isWhitespace {c : Char} (h : isWhitespace c = true) :
    isLabelStart c = false := by
  rw [Bool.eq_false_iff]
  intro hstart
  have hname : isNameChar c = true := by
    simp [isNameChar, isNameStart, hstart]
  exact Bool.false_ne_true ((isWhitespace_of_isNameChar hname).symm.trans h)

/-- The characters that stand before the braces of a sample line. -/
theorem not_mem_of_head {front : Text} (h : ∀ c ∈ front, isBlank c = true ∨ isNameChar c = true) :
    '{' ∉ front ∧ '}' ∉ front ∧ '#' ∉ front := by
  refine ⟨fun hmem => ?_, fun hmem => ?_, fun hmem => ?_⟩
  all_goals exact absurd (h _ hmem) (by decide)

/-! ## The label -/

theorem escapeLabelValue_eq (v : Text) : escapeLabelValue v = v.flatMap Block.escapeChar := by
  unfold escapeLabelValue replace
  rw [List.flatMap_assoc, List.flatMap_assoc]
  refine congrArg (List.flatMap · v) (funext fun c => ?_)
  unfold Block.escapeChar
  split_ifs with hslash hquote hline
  · rfl
  · subst hquote
    rfl
  · subst hline
    rfl
  · simp [hquote, hline]

theorem labelKv_eq (target : Text) : labelKv target = Block.writeLabel targetKey target := by
  rw [labelKv, escapeLabelValue_eq, Block.writeLabel]

theorem run_labelKv (labels : Labels) (target : Text) :
    Block.run ⟨labels, .label⟩ (labelKv target) =
      some ⟨labels ++ [(targetKey, target)], .afterQuoted⟩ := by
  rw [labelKv_eq]
  exact Block.run_writeLabel (by decide) (List.all_eq_true.mp (by decide)) target

/-- The label, read where a label may stand. -/
theorem run_decorated {front mid post n : Text} {labels : Labels} {t : Tail} (target : Text)
    (hfront : State.start.run (front ++ ['{']) = some (.block n ⟨[], .label⟩))
    (hmid : Block.run ⟨[], .label⟩ mid = some ⟨labels, .label⟩)
    (hpost : Tail.before.run post = some t) :
    State.start.run (front ++ '{' :: (mid ++ (labelKv target ++ '}' :: post))) =
      some (.tail n (labels ++ [(targetKey, target)]) t) := by
  have hclose : (State.block n ⟨labels ++ [(targetKey, target)], .afterQuoted⟩).step '}' =
      some (.tail n (labels ++ [(targetKey, target)]) .before) := rfl
  have htail : (State.tail n (labels ++ [(targetKey, target)]) .before).run post =
      some (.tail n (labels ++ [(targetKey, target)]) t) := by
    rw [State.run_tail, hpost]
    rfl
  rw [← List.singleton_append, ← List.append_assoc]
  refine foldlM_append_eq_some.mpr ⟨_, hfront, ?_⟩
  refine foldlM_append_eq_some.mpr ⟨_, State.run_block_of_some n hmid, ?_⟩
  refine foldlM_append_eq_some.mpr ⟨_, State.run_block_of_some n (run_labelKv labels target), ?_⟩
  exact foldlM_cons_eq_some.mpr ⟨_, hclose, htail⟩

section

variable {V T : Type} {r : Readers V T} {smp : Sample V T} {target : Text}

theorem readSample_decorated {l : Text} {t : Tail}
    (hrun : State.start.run l =
      some (.tail smp.name (smp.labels ++ [(targetKey, target)]) t))
    (hnodup : (smp.labels.map Prod.fst).Nodup) (hfree : targetKey ∉ smp.labels.map Prod.fst)
    (ht : t.finish r = some (smp.value, smp.timestamp)) :
    readSample r l = some (smp.withLabel targetKey target) := by
  refine readSample_eq_some.mpr ⟨t, hrun, ?_, ht⟩
  show ((smp.labels ++ [(targetKey, target)]).map Prod.fst).Nodup
  rw [List.map_append, List.map_singleton, List.nodup_append]
  refine ⟨hnodup, List.nodup_singleton _, fun k hk k' hk' => ?_⟩
  rintro rfl
  rw [List.mem_singleton.mp hk'] at hk
  exact hfree hk

/-! ## Lines with braces -/

theorem findIdx?_append {front rest : Text} {c : Char} (hfront : c ∉ front) :
    (front ++ c :: rest).findIdx? (· == c) = some front.length := by
  have hnone : front.findIdx? (· == c) = none :=
    List.findIdx?_eq_none_iff.mpr fun d hd => beq_false_of_ne fun h => hfront (h ▸ hd)
  rw [List.findIdx?_append, hnone, List.findIdx?_cons, if_pos (beq_self_eq_true c)]
  simp

/-- What is kept of the text between the braces, with a comma for the label. -/
def keptText (inside : Text) : Text :=
  if (trim isWhitespace inside).isEmpty then [] else inside ++ [',']

/-- Where the label goes in a line with braces. -/
theorem decorateOne_braces {front inside post : Text} (hopen : '{' ∉ front) (hfront : '}' ∉ front)
    (hinside : '}' ∉ inside) (target : Text) :
    decorateOne (front ++ '{' :: (inside ++ '}' :: post)) target =
      some (front ++ '{' :: (keptText inside ++ (labelKv target ++ '}' :: post))) := by
  have hsplit : front ++ '{' :: (inside ++ '}' :: post) =
      (front ++ '{' :: inside) ++ '}' :: post := by simp
  have hclose : (front ++ '{' :: (inside ++ '}' :: post)).findIdx? (· == '}') =
      some (front ++ '{' :: inside).length := by
    rw [hsplit]
    refine findIdx?_append ?_
    simp [hfront, hinside]
  have hlt : ¬ (front ++ '{' :: inside).length < front.length := by simp
  have htake : (front ++ '{' :: (inside ++ '}' :: post)).take (front ++ '{' :: inside).length =
      front ++ '{' :: inside := by
    rw [hsplit, List.take_left]
  have hdrop : (front ++ '{' :: (inside ++ '}' :: post)).drop (front ++ '{' :: inside).length =
      '}' :: post := by
    rw [hsplit, List.drop_left]
  have hname : (front ++ '{' :: (inside ++ '}' :: post)).take (front.length + 1) =
      front ++ ['{'] := by
    simp [List.take_append]
  have htext : (front ++ '{' :: inside).drop (front.length + 1) = inside := by
    simp [List.drop_append]
  simp only [decorateOne, findIdx?_append hopen, hclose, if_neg hlt, htake, hdrop, hname, htext]
  simp [keptText]

theorem labelText_braces {front inside post : Text} (hopen : '{' ∉ front)
    (hinside : '}' ∉ inside) :
    labelText (front ++ '{' :: (inside ++ '}' :: post)) = inside := by
  have hfront : ∀ c ∈ front, decide (c ≠ '{') = true :=
    fun c hc => decide_eq_true fun h => hopen (h ▸ hc)
  have hin : ∀ c ∈ inside, decide (c ≠ '}') = true :=
    fun c hc => decide_eq_true fun h => hinside (h ▸ hc)
  rw [labelText, List.dropWhile_append_of_pos hfront, List.dropWhile_cons_of_neg (by simp),
    List.drop_one, List.tail_cons, List.takeWhile_append_of_pos hin,
    List.takeWhile_cons_of_neg (by simp), List.append_nil]

theorem plain_braces {front inside post : Text} (hopen : '{' ∉ front) (hfront : '}' ∉ front)
    (hinside : '}' ∉ inside) :
    Plain (front ++ '{' :: (inside ++ '}' :: post)) ↔
      '}' ∉ post ∧ (inside.rdropWhile isBlank).getLast? ≠ some ',' := by
  have hcount : (front ++ '{' :: (inside ++ '}' :: post)).count '}' = post.count '}' + 1 := by
    simp [List.count_eq_zero.mpr hfront, List.count_eq_zero.mpr hinside]
  rw [Plain, if_pos (by simp), labelText_braces hopen hinside, hcount, Nat.add_eq_right,
    List.count_eq_zero]

theorem isEmpty_trim_iff (l : Text) :
    (trim isWhitespace l).isEmpty = true ↔ ∀ c ∈ l, isWhitespace c = true := by
  rw [List.isEmpty_iff, trim_eq_nil_iff, words_eq_nil_iff]

theorem keptText_of_spaces {inside : Text} (h : ∀ c ∈ inside, isWhitespace c = true) :
    keptText inside = [] :=
  if_pos ((isEmpty_trim_iff inside).mpr h)

theorem keptText_of_mem {inside : Text} {c : Char} (hc : c ∈ inside)
    (hws : isWhitespace c = false) : keptText inside = inside ++ [','] := by
  refine if_neg ?_
  rw [isEmpty_trim_iff]
  intro hall
  exact Bool.false_ne_true (hws.symm.trans (hall c hc))

/-- After a trailing comma a second one cannot be read. -/
theorem readSample_second_comma {front inside rest n : Text} {b : Block}
    (hfront : State.start.run (front ++ ['{']) = some (.block n ⟨[], .label⟩))
    (hinside : Block.run ⟨[], .label⟩ inside = some b) (hb : b.place = .label) :
    readSample r (front ++ '{' :: (inside ++ [','] ++ rest)) = none := by
  have hstep : (State.block n b).step ',' = none := by
    have hcomma : b.step ',' = none := by
      simp only [Block.step, hb]
      rfl
    rw [State.step, if_neg (fun h => absurd h.1 (by decide)), hcomma]
    rfl
  rw [Option.eq_none_iff_forall_ne_some]
  intro x hx
  obtain ⟨t, hrun, -⟩ := readSample_eq_some.mp hx
  rw [← List.singleton_append, ← List.append_assoc, List.append_assoc inside] at hrun
  have hrun := (foldlM_append_of_some hfront _).symm.trans hrun
  have hrun := (foldlM_append_of_some (State.run_block_of_some n hinside) _).symm.trans hrun
  obtain ⟨s, hs, -⟩ := foldlM_cons_eq_some.mp hrun
  rw [hstep] at hs
  cases hs

/-- The text of the label up to its first quote. -/
def labelStart : Text := ',' :: (targetKey ++ ['='])

theorem run_labelStart (labels : Labels) (k v : Text) :
    Block.run ⟨labels, .quoted k v⟩ (labelStart ++ ['"']) =
      some ⟨labels ++ [(k, v ++ labelStart)], .afterQuoted⟩ := by
  have hplain : labelStart.flatMap Block.escapeChar = labelStart := by decide
  have hrun := @Block.run_escaped labels k v labelStart
  rw [hplain] at hrun
  exact foldlM_append_eq_some.mpr ⟨_, hrun, rfl⟩

/-- Inside a value the label's text becomes a part of that value. -/
theorem readSample_inside_value {front inside post n k v : Text} {labels : Labels}
    (hfront : State.start.run (front ++ ['{']) = some (.block n ⟨[], .label⟩))
    (hinside : Block.run ⟨[], .label⟩ inside = some ⟨labels, .quoted k v⟩)
    {x : Sample V T}
    (hx : readSample r (front ++ '{' :: (inside ++ [','] ++ (labelKv target ++ post))) = some x) :
    labels ++ [(k, v ++ labelStart)] <+: x.labels := by
  obtain ⟨t, hrun, -⟩ := readSample_eq_some.mp hx
  have hlabel : [','] ++ (labelKv target ++ post) =
      (labelStart ++ ['"']) ++ (escapeLabelValue target ++ ['"'] ++ post) := by
    simp [labelKv, labelStart]
  rw [← List.singleton_append, ← List.append_assoc, List.append_assoc inside, hlabel] at hrun
  have hvalue := State.run_block_of_some n (run_labelStart labels k v)
  have hrun := (foldlM_append_of_some hfront _).symm.trans hrun
  have hrun := (foldlM_append_of_some (State.run_block_of_some n hinside) _).symm.trans hrun
  have hrun := (foldlM_append_of_some hvalue _).symm.trans hrun
  exact State.run_labels hrun

theorem mem_of_getLast?_rdropWhile {p : Char → Bool} {l : Text} {c : Char}
    (h : (l.rdropWhile p).getLast? = some c) : c ∈ l :=
  (List.rdropWhile_prefix p l).subset (List.mem_of_getLast? h)

/-- Two different values of one label do not both stand in a list of labels. -/
theorem not_both_values {labels all : Labels} {k v w : Text}
    (h₁ : labels ++ [(k, v ++ labelStart)] <+: all)
    (h₂ : labels ++ [(k, v ++ ['}'] ++ w)] <+: all) : False := by
  have hle : (labels ++ [(k, v ++ labelStart)]).length ≤
      (labels ++ [(k, v ++ ['}'] ++ w)]).length := by simp
  have heq := (List.prefix_of_prefix_length_le h₁ h₂ hle).eq_of_length (by simp)
  rw [List.append_cancel_left_eq, List.cons.injEq, Prod.mk.injEq, List.append_assoc,
    List.append_cancel_left_eq] at heq
  exact absurd (List.cons.inj heq.1.2).1 (by decide)

/-- The first closing brace ends the labels: only a trailing comma spoils the line. -/
theorem readSample_closed_iff {front inside post : Text} {b : Block} {t : Tail}
    (hopen : State.start.run (front ++ ['{']) = some (.block smp.name ⟨[], .label⟩))
    (hb : Block.run ⟨[], .label⟩ inside = some b) (hcloses : b.closes = true)
    (hlabels : b.labels = smp.labels) (hpost : Tail.before.run post = some t)
    (hnodup : (smp.labels.map Prod.fst).Nodup) (hfree : targetKey ∉ smp.labels.map Prod.fst)
    (ht : t.finish r = some (smp.value, smp.timestamp)) :
    readSample r (front ++ '{' :: (keptText inside ++ (labelKv target ++ '}' :: post))) =
        some (smp.withLabel targetKey target) ↔
      (inside.rdropWhile isBlank).getLast? ≠ some ',' := by
  obtain ⟨labels, place⟩ := b
  obtain rfl : labels = smp.labels := hlabels
  rcases Block.run_last hb hcloses with ⟨-, hblank⟩ | ⟨hplace, hlast⟩ | ⟨hplace, hlast⟩
  · have hspaces : ∀ c ∈ inside, isWhitespace c = true :=
      fun c hc => isWhitespace_of_isBlank (hblank c hc)
    have hempty := Block.run_label_of_not_start
      (fun c hc => not_isLabelStart_of_isWhitespace (hspaces c hc)) hb
    have hdrop : inside.rdropWhile isBlank = [] := List.rdropWhile_eq_nil_iff.mpr hblank
    rw [keptText_of_spaces hspaces]
    refine iff_of_true (readSample_decorated ?_ hnodup hfree ht) (by simp [hdrop])
    rw [(Block.mk.inj hempty).1]
    exact run_decorated target hopen rfl hpost
  · rw [keptText_of_mem (mem_of_getLast?_rdropWhile hlast) (by decide),
      readSample_second_comma hopen hb hplace]
    exact iff_of_false (by simp) fun hplain => hplain hlast
  · obtain rfl : place = .afterQuoted := hplace
    rw [keptText_of_mem (mem_of_getLast?_rdropWhile hlast) (by decide), hlast]
    refine iff_of_true (readSample_decorated ?_ hnodup hfree ht) (by decide)
    exact run_decorated target hopen (foldlM_append_eq_some.mpr ⟨_, hb, rfl⟩) hpost

/-- The first closing brace stands in a value: that value is changed. -/
theorem readSample_value_ne {front inside post k v : Text} {labels : Labels} {t : Tail}
    (hopen : State.start.run (front ++ ['{']) = some (.block smp.name ⟨[], .label⟩))
    (hb : Block.run ⟨[], .label⟩ inside = some ⟨labels, .quoted k v⟩)
    (hpost : (State.block smp.name ⟨labels, .quoted k (v ++ ['}'])⟩).run post =
      some (.tail smp.name smp.labels t)) :
    readSample r (front ++ '{' :: (keptText inside ++ (labelKv target ++ '}' :: post))) ≠
      some (smp.withLabel targetKey target) := by
  have hkept : keptText inside = inside ++ [','] := by
    refine if_neg ?_
    rw [isEmpty_trim_iff]
    intro hspaces
    have hempty := Block.run_label_of_not_start
      (fun c hc => not_isLabelStart_of_isWhitespace (hspaces c hc)) hb
    cases (Block.mk.inj hempty).2
  obtain ⟨w, hw⟩ := State.run_value (Or.inl rfl) hpost
  rw [hkept]
  intro hx
  exact not_both_values (readSample_inside_value hopen hb hx) (hw.trans (List.prefix_append _ _))

/-- The label is read back from a line with braces exactly when the line is plain. -/
theorem decorateOne_braces_iff {l : Text} (h : readSample r l = some smp) (hl : '{' ∈ l)
    (hfree : targetKey ∉ smp.labels.map Prod.fst) (target : Text) :
    ∃ front rest, decorateOne l target = some (front ++ '{' :: rest) ∧ '#' ∉ front ∧
      (readSample r (front ++ '{' :: rest) = some (smp.withLabel targetKey target) ↔ Plain l) := by
  obtain ⟨front, inside, post, ⟨labels, place⟩, s, rfl, hfront, hinside, hopen, hb, hs, hpost⟩ :=
    exists_braces h hl
  obtain ⟨hbrace, hclose, hhash⟩ := not_mem_of_head hfront
  obtain ⟨s', hs', hfinish⟩ := Option.bind_eq_some_iff.mp hpost
  obtain ⟨t, rfl, hnodup, ht⟩ := State.finish_eq_some.mp hfinish
  refine ⟨front, _, decorateOne_braces hbrace hclose hinside target, hhash, ?_⟩
  rw [plain_braces hbrace hclose hinside]
  rw [State.step] at hs
  split_ifs at hs with hcloses
  · cases hs
    rw [State.run_tail] at hs'
    obtain ⟨t', ht', heq⟩ := Option.map_eq_some_iff.mp hs'
    obtain ⟨-, hlabels, rfl⟩ := State.tail.inj heq
    have hnone : '}' ∉ post := fun hmem =>
      ((Tail.run_tokens ht').2 _ hmem).elim (by decide) (Tail.tokens_of_finish ht).2.1
    rw [readSample_closed_iff hopen hb hcloses.2 hlabels ht' hnodup hfree ht]
    exact (and_iff_right hnone).symm
  · obtain ⟨b', hb', rfl⟩ := Option.map_eq_some_iff.mp hs
    obtain ⟨k, v, hplace, rfl⟩ := Block.step_brace hb'
    obtain rfl : place = .quoted k v := hplace
    have hsecond : '}' ∈ post := by
      by_contra hsecond
      rw [State.run_block _ _ hsecond] at hs'
      obtain ⟨b, -, heq⟩ := Option.map_eq_some_iff.mp hs'
      cases heq
    exact iff_of_false (readSample_value_ne hopen hb hs') fun hplain => hplain.1 hsecond

/-! ## Lines without braces -/

theorem splitOnce_append {name rest : Text} {c : Char} (hname : ∀ d ∈ name, isWhitespace d = false)
    (hc : isWhitespace c = true) : splitOnce (name ++ c :: rest) = some (name, rest) := by
  have hword : ∀ d ∈ name, (!isWhitespace d) = true := fun d hd => by simp [hname d hd]
  rw [splitOnce, List.dropWhile_append_of_pos hword, List.dropWhile_cons_of_neg (by simp [hc]),
    List.takeWhile_append_of_pos hword, List.takeWhile_cons_of_neg (by simp [hc]),
    List.append_nil]

theorem exists_of_splitOnce {line name rest : Text} (h : splitOnce line = some (name, rest)) :
    ∃ c, line = name ++ c :: rest := by
  unfold splitOnce at h
  split at h
  · cases h
  · next c _ hcons =>
    cases h
    exact ⟨c, by rw [← hcons, List.takeWhile_append_dropWhile]⟩

theorem decorateOne_name {name rest : Text} {c : Char} (hbrace : '{' ∉ name ++ c :: rest)
    (hname : ∀ d ∈ name, isWhitespace d = false) (hc : isWhitespace c = true) (target : Text) :
    decorateOne (name ++ c :: rest) target =
      some (name ++ '{' :: (labelKv target ++ '}' :: ' ' :: rest)) := by
  have hnone : (name ++ c :: rest).findIdx? (· == '{') = none :=
    List.findIdx?_eq_none_iff.mpr fun d hd => beq_false_of_ne fun h => hbrace (h ▸ hd)
  simp only [decorateOne, hnone, splitOnce_append hname hc]
  simp

/-- The label is read back from a line without braces exactly when the line is plain. -/
theorem decorateOne_name_iff {l : Text} (h : readSample r l = some smp) (hl : '{' ∉ l)
    (hfree : targetKey ∉ smp.labels.map Prod.fst) (target : Text) :
    ∃ front rest, decorateOne l target = some (front ++ '{' :: rest) ∧ '#' ∉ front ∧
      (readSample r (front ++ '{' :: rest) = some (smp.withLabel targetKey target) ↔ Plain l) := by
  cases hhead : l.head?.any isBlank with
  | false =>
    have hfirst : ∀ c ∈ l.head?, isBlank c = false := by
      intro c hc
      rwa [Option.mem_def.mp hc] at hhead
    obtain ⟨c, rest, t, hline, hc, hlabels, hname, hrun, htail, ht⟩ := exists_name h hl hfirst
    have hspace : Tail.before.run (' ' :: rest) = some t :=
      foldlM_cons_eq_some.mpr ⟨.before, rfl, htail⟩
    have hopen : State.start.run (smp.name ++ ['{']) = some (.block smp.name ⟨[], .label⟩) := by
      refine foldlM_append_eq_some.mpr ⟨_, hrun, ?_⟩
      rfl
    have hmid : Block.run ⟨[], .label⟩ [] = some ⟨[], .label⟩ := rfl
    have hnodup : (smp.labels.map Prod.fst).Nodup := by simp [hlabels]
    refine ⟨smp.name, labelKv target ++ '}' :: ' ' :: rest, ?_,
      (not_mem_of_head fun d hd => Or.inr (hname d hd)).2.2, ?_⟩
    · rw [hline] at hl ⊢
      exact decorateOne_name hl (fun d hd => isWhitespace_of_isNameChar (hname d hd))
        (isWhitespace_of_isBlank hc) target
    · refine iff_of_true (readSample_decorated ?_ hnodup hfree ht) ?_
      · rw [hlabels]
        exact run_decorated target hopen hmid hspace
      · rw [Plain, if_neg hl]
        exact hhead
  | true =>
    -- The name is then empty.
    obtain ⟨c, rest, rfl, hc⟩ : ∃ c rest, l = c :: rest ∧ isBlank c = true := by
      cases l with
      | nil => cases hhead
      | cons c rest => exact ⟨c, rest, rfl, hhead⟩
    have hnone : ∀ text, readSample r ('{' :: text) = none := fun text => rfl
    refine ⟨[], _, decorateOne_name hl (List.forall_mem_nil _) (isWhitespace_of_isBlank hc) target,
      List.not_mem_nil, ?_⟩
    rw [List.nil_append, hnone]
    refine iff_of_false (by simp) ?_
    rw [Plain, if_neg hl, hhead]
    exact Bool.noConfusion

/-! ## Bodies -/

theorem decorateLine_passedOver {line : Text} (h : passedOver line = true) (target : Text) :
    decorateLine target line = line := by
  obtain ⟨blanks, rest, rfl, hblanks, hrest⟩ := passedOver_iff.mp h
  have hspaces : ∀ c ∈ blanks, isWhitespace c = true :=
    fun c hc => isWhitespace_of_isBlank (hblanks c hc)
  rw [decorateLine, List.dropWhile_append_of_pos hspaces]
  rcases hrest with rfl | ⟨text, rfl⟩
  · rfl
  · exact if_pos rfl

/-- A sample line is decorated, and its label read back exactly when the line is plain. -/
theorem decorateLine_sample {line : Text} (h : readSample r line = some smp)
    (hfree : targetKey ∉ smp.labels.map Prod.fst) (target : Text) :
    passedOver (decorateLine target line) = false ∧
      (readSample r (decorateLine target line) = some (smp.withLabel targetKey target) ↔
        Plain line) := by
  have hdecorate : decorateLine target line = (decorateOne line target).getD line := by
    obtain ⟨blanks, c, rest, rfl, hblanks, hc⟩ := exists_start h
    have hspaces : ∀ d ∈ blanks, isWhitespace d = true :=
      fun d hd => isWhitespace_of_isBlank (hblanks d hd)
    have hhash : c ≠ '#' := by
      rintro rfl
      exact absurd hc (by decide)
    rw [decorateLine, List.dropWhile_append_of_pos hspaces,
      List.dropWhile_cons_of_neg (by simp [isWhitespace_of_isNameChar hc])]
    exact if_neg (by simp [hhash])
  obtain ⟨front, rest, hout, hhash, hiff⟩ : ∃ front rest,
      decorateOne line target = some (front ++ '{' :: rest) ∧ '#' ∉ front ∧
        (readSample r (front ++ '{' :: rest) = some (smp.withLabel targetKey target) ↔
          Plain line) := by
    by_cases hl : '{' ∈ line
    · exact decorateOne_braces_iff h hl hfree target
    · exact decorateOne_name_iff h hl hfree target
  rw [hdecorate, hout, Option.getD_some]
  exact ⟨passedOver_brace hhash rest, hiff⟩

theorem readLines_decorated_iff (pieces : List Text) {samples : List (Sample V T)}
    (h : readLines r (pieces.map unterminated) = some samples)
    (hfree : ∀ s ∈ samples, targetKey ∉ s.labels.map Prod.fst) (target : Text) :
    readLines r (pieces.map fun piece => decorateLine target (chomp piece)) =
        some (samples.map (·.withLabel targetKey target)) ↔
      ∀ line ∈ (pieces.map unterminated).filter fun l => !passedOver l, Plain line := by
  induction pieces generalizing samples with
  | nil =>
    obtain rfl := Option.some.inj h
    simp [readLines]
  | cons piece pieces ih =>
    obtain ⟨hpass, h⟩ | ⟨hpass, smp, rest, hsmp, hrest, rfl⟩ := readLines_cases h
    · have hchomp : passedOver (chomp piece) = true := by
        rcases chomp_or_unterminated piece with heq | heq
        · rw [heq, hpass]
        · exact passedOver_of_concat (heq ▸ hpass)
      rw [List.map_cons, List.map_cons, decorateLine_passedOver hchomp, readLines, if_pos hchomp,
        List.filter_cons_of_neg (by simp [hpass])]
      exact ih h hfree
    · have hchomp : chomp piece = unterminated piece := chomp_of_readSample hsmp
      obtain ⟨hout, hiff⟩ := decorateLine_sample hsmp (hfree smp List.mem_cons_self) target
      have ih := ih hrest fun s hs => hfree s (List.mem_cons_of_mem _ hs)
      rw [List.map_cons, List.map_cons, List.map_cons, hchomp, readLines_cons hout,
        List.filter_cons_of_pos (by simp [hpass]), List.forall_mem_cons, ← hiff, ← ih]
      rw [Option.bind_eq_some_iff]
      constructor
      · rintro ⟨x, hx, hmap⟩
        obtain ⟨xs, hxs, heq⟩ := Option.map_eq_some_iff.mp hmap
        obtain ⟨rfl, rfl⟩ := List.cons.inj heq
        exact ⟨hx, hxs⟩
      · rintro ⟨hx, hxs⟩
        exact ⟨_, hx, by rw [hxs]; rfl⟩

theorem newline_not_mem_labelKv (target : Text) : '\n' ∉ labelKv target := by
  have hkey : '\n' ∉ targetKey := by decide
  have hvalue : '\n' ∉ escapeLabelValue target := by
    rw [escapeLabelValue_eq]
    intro hmem
    obtain ⟨c, -, hc⟩ := List.mem_flatMap.mp hmem
    unfold Block.escapeChar at hc
    split_ifs at hc with hslash hquote hline
    · exact absurd hc (by decide)
    · exact absurd hc (by decide)
    · exact absurd hc (by decide)
    · exact hline (List.mem_singleton.mp hc).symm
  simp [labelKv, hkey, hvalue]

theorem newline_not_mem_decorateOne {line out : Text} (h : '\n' ∉ line)
    (hout : decorateOne line target = some out) : '\n' ∉ out := by
  have hkv := newline_not_mem_labelKv target
  unfold decorateOne at hout
  split at hout
  · split at hout
    · cases hout
    · split_ifs at hout
      have htake : ∀ n, '\n' ∉ line.take n := fun n hmem => h (List.mem_of_mem_take hmem)
      have hdrop : ∀ n, '\n' ∉ line.drop n := fun n hmem => h (List.mem_of_mem_drop hmem)
      have hinside : ∀ m n, '\n' ∉ (line.take m).drop n :=
        fun m n hmem => htake m (List.mem_of_mem_drop hmem)
      cases hout
      split_ifs <;> simp [hkv, htake, hdrop, hinside]
  · split at hout
    · cases hout
    · next hsplit =>
      obtain ⟨c, rfl⟩ := exists_of_splitOnce hsplit
      cases hout
      simp only [List.mem_append, List.mem_cons, not_or] at h
      simp [hkv, h]

theorem newline_not_mem_decorateLine {line : Text} (h : '\n' ∉ line) (target : Text) :
    '\n' ∉ decorateLine target line := by
  unfold decorateLine
  dsimp only
  split_ifs
  · exact h
  · cases hout : decorateOne line target with
    | none => exact h
    | some out => exact newline_not_mem_decorateOne h hout

theorem passedOver_header (target : Text) : passedOver (header target) = true :=
  passedOver_iff.mpr ⟨[], header target, rfl, List.forall_mem_nil _, Or.inr ⟨_, rfl⟩⟩

/-- The lines that are served for a body. -/
def decoratedLines (body target : Text) : List Text :=
  header target :: (lines body).map (decorateLine target)

theorem decorateWithTarget_eq (body target : Text) :
    decorateWithTarget body target = endLines (decoratedLines body target) := by
  simp [decorateWithTarget, decoratedLines, endLines]

theorem newline_not_mem_decoratedLines (body : Text) {target : Text} (hline : '\n' ∉ target) :
    ∀ l ∈ decoratedLines body target, '\n' ∉ l := by
  refine List.forall_mem_cons.mpr ⟨?_, fun l hl => ?_⟩
  · have htext : '\n' ∉ headerText := by decide
    exact List.not_mem_append htext hline
  · obtain ⟨line, hmem, rfl⟩ := List.mem_map.mp hl
    exact newline_not_mem_decorateLine (newline_not_mem_lines hmem) target

/-- The body that is served reads as the target's samples, each with the target's name as one
    more label, exactly when every sample line of the target's body is plain. -/
theorem decorate_keeps_samples_iff (r : Readers V T) (body target : Text)
    (samples : List (Sample V T)) (hbody : parse r body = some samples)
    (hfree : ∀ s ∈ samples, targetKey ∉ s.labels.map Prod.fst) (hline : '\n' ∉ target) :
    parse r (decorateWithTarget body target) =
        some (samples.map (·.withLabel targetKey target)) ↔
      ∀ line ∈ sampleLines body, Plain line := by
  rw [parse, decorateWithTarget_eq, bodyLines_endLines (newline_not_mem_decoratedLines body hline),
    decoratedLines, readLines, if_pos (passedOver_header target), lines, List.map_map]
  exact readLines_decorated_iff (splitInclusive body) hbody hfree target

end

/-- Numbers written with digits only. -/
def readDecimal (tok : Text) : Option Nat :=
  if tok ≠ [] ∧ tok.all Char.isDigit = true then
    some (tok.foldl (fun n c => 10 * n + (c.toNat - '0'.toNat)) 0)
  else none

theorem readDecimal_chars {tok : Text} {n : Nat} (h : readDecimal tok = some n) :
    '{' ∉ tok ∧ '}' ∉ tok ∧ '\r' ∉ tok := by
  unfold readDecimal at h
  split_ifs at h with hdigits
  refine ⟨fun hmem => ?_, fun hmem => ?_, fun hmem => ?_⟩
  all_goals exact absurd (List.all_eq_true.mp hdigits.2 _ hmem) (by decide)

def decimals : Readers Nat Nat where
  value := readDecimal
  stamp := readDecimal
  value_chars := readDecimal_chars
  stamp_chars := readDecimal_chars

theorem decorate_keeps_two_samples :
    parse decimals (decorateWithTarget "up 1\n#\nup\x7ba=\"b\"\x7d 0 7\n".toList "n\"1".toList) =
      some [⟨"up".toList, [(targetKey, "n\"1".toList)], 1, none⟩,
        ⟨"up".toList, [("a".toList, "b".toList), (targetKey, "n\"1".toList)], 0, some 7⟩] :=
  (decorate_keeps_samples_iff decimals _ "n\"1".toList
    [⟨"up".toList, [], 1, none⟩, ⟨"up".toList, [("a".toList, "b".toList)], 0, some 7⟩]
    (by decide +kernel) (by decide +kernel) (by decide +kernel)).mpr (by decide +kernel)

/-- A closing brace in a value, a trailing comma and a leading blank: each body has one sample,
    and what is served for it cannot be read. -/
theorem decorate_loses_sample :
    (parse decimals "up\x7ba=\"b\x7d\"\x7d 1\n".toList =
        some [⟨"up".toList, [("a".toList, "b\x7d".toList)], 1, none⟩] ∧
      decorateWithTarget "up\x7ba=\"b\x7d\"\x7d 1\n".toList "n1".toList =
        header "n1".toList ++ "\nup\x7ba=\"b,cgn_target=\"n1\"\x7d\"\x7d 1\n".toList ∧
      parse decimals (decorateWithTarget "up\x7ba=\"b\x7d\"\x7d 1\n".toList "n1".toList) = none) ∧
    (parse decimals "up\x7ba=\"b\",\x7d 1\n".toList =
        some [⟨"up".toList, [("a".toList, "b".toList)], 1, none⟩] ∧
      parse decimals (decorateWithTarget "up\x7ba=\"b\",\x7d 1\n".toList "n1".toList) = none) ∧
    (parse decimals " up 1\n".toList = some [⟨"up".toList, [], 1, none⟩] ∧
      parse decimals (decorateWithTarget " up 1\n".toList "n1".toList) = none) := by
  decide +kernel

end Cognitora.Metrics
