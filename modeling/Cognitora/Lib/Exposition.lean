/-
  The text format of metrics, version 0.0.4, as a reader.

  A body is lines. A line that is blank, or starts with `#` after blanks, is passed over; every
  other line is a sample: a name, labels in braces, a value and perhaps a timestamp, with blanks
  between them. A sample line is read one character at a time: `Block` is the machine inside the
  braces, `Tail` the one after them, `State` the whole. How a number is read is a parameter; a
  token that is a number has no brace and no carriage return.

  `run_writeLabel`: a label that is written with its value escaped is read back. `run_tail` and
  `run_block`: what stands after the braces, or inside them up to a closing brace, is read by
  the inner machine alone, whatever stands around it. `exists_braces` and `exists_name`: the
  parts of a sample line, with labels and without.
-/
import Cognitora.Lib.Lines
import Mathlib.Data.List.Infix

namespace Cognitora.Lib.Exposition

/-! ## Partial runs -/

section

variable {α σ : Type} {step : σ → α → Option σ}

/-- What every step keeps holds at the end of a run. -/
theorem foldlM_keeps {P : σ → Prop} {l : List α} {s s' : σ}
    (hstep : ∀ a ∈ l, ∀ s s', P s → step s a = some s' → P s') (hs : P s)
    (hrun : l.foldlM step s = some s') : P s' := by
  induction l generalizing s with
  | nil =>
    obtain rfl : s = s' := by simpa using hrun
    exact hs
  | cons a l ih =>
    rw [List.foldlM_cons] at hrun
    obtain ⟨t, ht, hrun⟩ := Option.bind_eq_some_iff.mp hrun
    exact ih (fun b hb => hstep b (List.mem_cons_of_mem _ hb))
      (hstep a List.mem_cons_self s t hs ht) hrun

theorem foldlM_append_eq_some {a b : List α} {s s' : σ} :
    (a ++ b).foldlM step s = some s' ↔
      ∃ t, a.foldlM step s = some t ∧ b.foldlM step t = some s' := by
  rw [List.foldlM_append]
  exact Option.bind_eq_some_iff

theorem foldlM_append_of_some {a : List α} {s t : σ} (h : a.foldlM step s = some t)
    (b : List α) : (a ++ b).foldlM step s = b.foldlM step t := by
  rw [List.foldlM_append, h]
  rfl

theorem foldlM_concat_eq_some {a : α} {l : List α} {s s' : σ} :
    (l ++ [a]).foldlM step s = some s' ↔ ∃ t, l.foldlM step s = some t ∧ step t a = some s' := by
  simp [List.foldlM_append, Option.bind_eq_some_iff]

theorem foldlM_cons_eq_some {a : α} {l : List α} {s s' : σ} :
    (a :: l).foldlM step s = some s' ↔ ∃ t, step s a = some t ∧ l.foldlM step t = some s' := by
  rw [List.foldlM_cons]
  exact Option.bind_eq_some_iff

/-- A machine inside another one. -/
theorem foldlM_map {τ : Type} {outer : τ → α → Option τ} (f : σ → τ) {l : List α}
    (hstep : ∀ a ∈ l, ∀ s, outer (f s) a = (step s a).map f) (s : σ) :
    l.foldlM outer (f s) = (l.foldlM step s).map f := by
  induction l generalizing s with
  | nil => rfl
  | cons a l ih =>
    have ih := ih fun b hb => hstep b (List.mem_cons_of_mem _ hb)
    rw [List.foldlM_cons, List.foldlM_cons, hstep a List.mem_cons_self s]
    show ((step s a).map f).bind (l.foldlM outer) = ((step s a).bind (l.foldlM step)).map f
    rw [Option.bind_map, Option.map_bind]
    exact congrArg _ (funext ih)

end

/-! ## Characters -/

def isBlank (c : Char) : Bool :=
  c == ' ' || c == '\t'

def isLabelStart (c : Char) : Bool :=
  c.isAlpha || c == '_'

def isLabelChar (c : Char) : Bool :=
  isLabelStart c || c.isDigit

def isNameStart (c : Char) : Bool :=
  isLabelStart c || c == ':'

def isNameChar (c : Char) : Bool :=
  isNameStart c || c.isDigit

/-- The character that a backslash and `c` stand for. -/
def unescape (c : Char) : Option Char :=
  if c = '\\' then some '\\'
  else if c = '"' then some '"'
  else if c = 'n' then some '\n'
  else none

/-! ## Inside the braces -/

abbrev Labels := List (List Char × List Char)

inductive Place where
  /-- A label's name or the closing brace is next. -/
  | label
  | key (k : List Char)
  | afterKey (k : List Char)
  | afterEq (k : List Char)
  | quoted (k v : List Char)
  /-- After a backslash in a value. -/
  | escaped (k v : List Char)
  | afterQuoted
  deriving DecidableEq

structure Block where
  labels : Labels
  place : Place
  deriving DecidableEq

namespace Block

/-- A character other than the closing brace. -/
def step (b : Block) (c : Char) : Option Block :=
  match b.place with
  | .label =>
    if isBlank c then some b
    else if isLabelStart c then some ⟨b.labels, .key [c]⟩
    else none
  | .key k =>
    if isLabelChar c then some ⟨b.labels, .key (k ++ [c])⟩
    else if isBlank c then some ⟨b.labels, .afterKey k⟩
    else if c = '=' then some ⟨b.labels, .afterEq k⟩
    else none
  | .afterKey k =>
    if isBlank c then some b
    else if c = '=' then some ⟨b.labels, .afterEq k⟩
    else none
  | .afterEq k =>
    if isBlank c then some b
    else if c = '"' then some ⟨b.labels, .quoted k []⟩
    else none
  | .quoted k v =>
    if c = '\\' then some ⟨b.labels, .escaped k v⟩
    else if c = '"' then some ⟨b.labels ++ [(k, v)], .afterQuoted⟩
    else some ⟨b.labels, .quoted k (v ++ [c])⟩
  | .escaped k v => (unescape c).map fun d => ⟨b.labels, .quoted k (v ++ [d])⟩
  | .afterQuoted =>
    if isBlank c then some b
    else if c = ',' then some ⟨b.labels, .label⟩
    else none

/-- A comma may stand before the closing brace. -/
def closes (b : Block) : Bool :=
  b.place = .label || b.place = .afterQuoted

def run (b : Block) (l : List Char) : Option Block :=
  l.foldlM step b

end Block

/-! ## After the braces -/

inductive Tail where
  | before
  | value (v : List Char)
  | afterValue (v : List Char)
  | stamp (v t : List Char)
  | afterStamp (v t : List Char)
  deriving DecidableEq

namespace Tail

def step : Tail → Char → Option Tail
  | .before, c => if isBlank c then some .before else some (.value [c])
  | .value v, c => if isBlank c then some (.afterValue v) else some (.value (v ++ [c]))
  | .afterValue v, c => if isBlank c then some (.afterValue v) else some (.stamp v [c])
  | .stamp v t, c => if isBlank c then some (.afterStamp v t) else some (.stamp v (t ++ [c]))
  | .afterStamp v t, c => if isBlank c then some (.afterStamp v t) else none

def run (t : Tail) (l : List Char) : Option Tail :=
  l.foldlM step t

/-- The tokens read so far. -/
def tokens : Tail → List Char
  | .before => []
  | .value v => v
  | .afterValue v => v
  | .stamp v t => v ++ t
  | .afterStamp v t => v ++ t

end Tail

/-! ## A sample line -/

inductive State where
  | start
  | name (n : List Char)
  | afterName (n : List Char)
  | block (n : List Char) (b : Block)
  | tail (n : List Char) (labels : Labels) (t : Tail)
  deriving DecidableEq

namespace State

def step : State → Char → Option State
  | .start, c =>
    if isBlank c then some .start
    else if isNameStart c then some (.name [c])
    else none
  | .name n, c =>
    if isNameChar c then some (.name (n ++ [c]))
    else if isBlank c then some (.afterName n)
    else if c = '{' then some (.block n ⟨[], .label⟩)
    else none
  | .afterName n, c =>
    if isBlank c then some (.afterName n)
    else if c = '{' then some (.block n ⟨[], .label⟩)
    else some (.tail n [] (.value [c]))
  | .block n b, c =>
    if c = '}' ∧ b.closes then some (.tail n b.labels .before)
    else (b.step c).map (.block n)
  | .tail n labels t, c => (t.step c).map (.tail n labels)

def run (s : State) (l : List Char) : Option State :=
  l.foldlM step s

/-- The labels that are complete. -/
def labels : State → Labels
  | .block _ b => b.labels
  | .tail _ labels _ => labels
  | _ => []

end State

/-- How the numbers of a sample are read. -/
structure Readers (V T : Type) where
  value : List Char → Option V
  stamp : List Char → Option T
  value_chars : ∀ {tok : List Char} {v : V}, value tok = some v →
    '{' ∉ tok ∧ '}' ∉ tok ∧ '\r' ∉ tok
  stamp_chars : ∀ {tok : List Char} {t : T}, stamp tok = some t →
    '{' ∉ tok ∧ '}' ∉ tok ∧ '\r' ∉ tok

structure Sample (V T : Type) where
  name : List Char
  labels : Labels
  value : V
  timestamp : Option T
  deriving DecidableEq

/-- The sample with one more label. -/
def Sample.withLabel {V T : Type} (s : Sample V T) (k v : List Char) : Sample V T :=
  { s with labels := s.labels ++ [(k, v)] }

section

variable {V T : Type} (r : Readers V T)

def Readers.unstamped (v : List Char) : Option (V × Option T) :=
  (r.value v).map (·, none)

def Readers.stamped (v t : List Char) : Option (V × Option T) :=
  (r.value v).bind fun x => (r.stamp t).map fun y => (x, some y)

def Tail.finish : Tail → Option (V × Option T)
  | .before => none
  | .value v => r.unstamped v
  | .afterValue v => r.unstamped v
  | .stamp v t => r.stamped v t
  | .afterStamp v t => r.stamped v t

/-- A sample's label names are distinct. -/
def State.finish : State → Option (Sample V T)
  | .tail n labels t =>
    if (labels.map Prod.fst).Nodup then (t.finish r).map fun x => ⟨n, labels, x.1, x.2⟩
    else none
  | _ => none

def readSample (l : List Char) : Option (Sample V T) :=
  (State.start.run l).bind (State.finish r)

/-! ## A body -/

/-- Blank lines and comments. -/
def passedOver (l : List Char) : Bool :=
  match l.dropWhile isBlank with
  | [] => true
  | c :: _ => c == '#'

def readLines : List (List Char) → Option (List (Sample V T))
  | [] => some []
  | l :: ls =>
    if passedOver l then readLines ls
    else (readSample r l).bind fun s => (readLines ls).map (s :: ·)

end

/-- Take off the newline. -/
def unterminated (piece : List Char) : List Char :=
  if piece.getLast? = some '\n' then piece.dropLast else piece

/-- The lines of a body. A carriage return belongs to its line. -/
def bodyLines (body : List Char) : List (List Char) :=
  (splitInclusive body).map unterminated

def sampleLines (body : List Char) : List (List Char) :=
  (bodyLines body).filter fun l => !passedOver l

def parse {V T : Type} (r : Readers V T) (body : List Char) : Option (List (Sample V T)) :=
  readLines r (bodyLines body)

/-! ## What the machines do -/

theorem isBlank_iff {c : Char} : isBlank c = true ↔ c = ' ' ∨ c = '\t' := by
  simp [isBlank]

namespace Block

variable {b b' : Block} {c : Char} {l : List Char} {labels : Labels}

/-- Labels that are complete stay. -/
theorem step_labels (h : b.step c = some b') : b.labels <+: b'.labels := by
  unfold step at h
  split at h
  case h_6 =>
    obtain ⟨d, -, rfl⟩ := Option.map_eq_some_iff.mp h
    exact List.prefix_rfl
  all_goals
    split_ifs at h <;> cases h <;> first | exact List.prefix_rfl | exact List.prefix_append _ _

/-- A brace that does not close the labels stands in a value. -/
theorem step_brace (h : b.step '}' = some b') :
    ∃ k v, b.place = .quoted k v ∧ b' = ⟨b.labels, .quoted k (v ++ ['}'])⟩ := by
  unfold step at h
  split at h
  case h_5 k v hplace =>
    rw [if_neg (by decide), if_neg (by decide)] at h
    cases h
    exact ⟨k, v, hplace, rfl⟩
  all_goals exact absurd h (by simp [isBlank, isLabelChar, isLabelStart, unescape])

/-- Before a label starts, nothing but its name or a comma moves the machine. -/
theorem run_label_of_not_start (hl : ∀ c ∈ l, isLabelStart c = false)
    (h : run ⟨labels, .label⟩ l = some b) : b = ⟨labels, .label⟩ := by
  refine foldlM_keeps (P := (· = ⟨labels, .label⟩)) ?_ rfl h
  rintro c hc _ b' rfl hstep
  simp only [step, hl c hc, Bool.false_eq_true, if_false] at hstep
  split_ifs at hstep
  exact (Option.some.inj hstep).symm

theorem closes_iff : b.closes = true ↔ b.place = .label ∨ b.place = .afterQuoted := by
  simp [closes]

/-- The braces may close at the start, after a comma and after a value, and after blanks there. -/
theorem step_closes (h : b.step c = some b') (hb : b'.closes = true) :
    (isBlank c = true ∧ b' = b) ∨ (c = ',' ∧ b'.place = .label) ∨
      (c = '"' ∧ b'.place = .afterQuoted) := by
  rw [closes_iff] at hb
  unfold step at h
  split at h
  case h_6 =>
    obtain ⟨d, -, rfl⟩ := Option.map_eq_some_iff.mp h
    simp at hb
  all_goals split_ifs at h <;> cases h <;> simp_all

/-- What stands last before the braces close. -/
theorem run_last (h : run ⟨[], .label⟩ l = some b) (hb : b.closes = true) :
    (b.place = .label ∧ (∀ c ∈ l, isBlank c = true)) ∨
    (b.place = .label ∧ (l.rdropWhile isBlank).getLast? = some ',') ∨
    (b.place = .afterQuoted ∧ (l.rdropWhile isBlank).getLast? = some '"') := by
  induction l using List.reverseRecOn generalizing b with
  | nil =>
    obtain rfl : (⟨[], .label⟩ : Block) = b := by simpa [run] using h
    exact Or.inl ⟨rfl, fun c hc => absurd hc List.not_mem_nil⟩
  | append_singleton l c ih =>
    obtain ⟨a, ha, hstep⟩ := foldlM_concat_eq_some.mp h
    rw [List.rdropWhile_concat]
    rcases step_closes hstep hb with ⟨hc, rfl⟩ | ⟨rfl, hplace⟩ | ⟨rfl, hplace⟩
    · rw [if_pos hc]
      refine (ih ha hb).imp_left fun ⟨hplace, hl⟩ => ⟨hplace, fun d hd => ?_⟩
      rcases List.mem_append.mp hd with hd | hd
      · exact hl d hd
      · rw [List.mem_singleton.mp hd, hc]
    · exact Or.inr (Or.inl ⟨hplace, by simp [isBlank]⟩)
    · exact Or.inr (Or.inr ⟨hplace, by simp [isBlank]⟩)

/-! ### Reading a label -/

/-- How a character of a value is written. -/
def escapeChar (c : Char) : List Char :=
  if c = '\\' then ['\\', '\\']
  else if c = '"' then ['\\', '"']
  else if c = '\n' then ['\\', 'n']
  else [c]

theorem run_escapeChar (k v : List Char) (c : Char) :
    run ⟨labels, .quoted k v⟩ (escapeChar c) = some ⟨labels, .quoted k (v ++ [c])⟩ := by
  unfold escapeChar
  split_ifs with hslash hquote hline
  · subst hslash
    rfl
  · subst hquote
    rfl
  · subst hline
    rfl
  · simp [run, step, hslash, hquote]

theorem run_escaped (k v w : List Char) :
    run ⟨labels, .quoted k v⟩ (w.flatMap escapeChar) = some ⟨labels, .quoted k (v ++ w)⟩ := by
  induction w generalizing v with
  | nil => simp [run]
  | cons c w ih =>
    rw [List.flatMap_cons, run, foldlM_append_eq_some]
    refine ⟨_, run_escapeChar k v c, ?_⟩
    rw [← run, ih (v ++ [c]), List.append_assoc, List.singleton_append]

theorem run_key (k : List Char) (hl : ∀ c ∈ l, isLabelChar c = true) :
    run ⟨labels, .key k⟩ l = some ⟨labels, .key (k ++ l)⟩ := by
  induction l generalizing k with
  | nil => simp [run]
  | cons c l ih =>
    have hc : step ⟨labels, .key k⟩ c = some ⟨labels, .key (k ++ [c])⟩ :=
      if_pos (hl c List.mem_cons_self)
    rw [run, foldlM_cons_eq_some]
    refine ⟨_, hc, ?_⟩
    rw [← run, ih (k ++ [c]) fun d hd => hl d (List.mem_cons_of_mem _ hd), List.append_assoc,
      List.singleton_append]

/-- How a label is written. -/
def writeLabel (k v : List Char) : List Char :=
  k ++ '=' :: '"' :: v.flatMap escapeChar ++ ['"']

/-- A label that is written is read back. -/
theorem run_writeLabel {c : Char} {k : List Char} (hc : isLabelStart c = true)
    (hk : ∀ d ∈ k, isLabelChar d = true) (v : List Char) :
    run ⟨labels, .label⟩ (writeLabel (c :: k) v) =
      some ⟨labels ++ [(c :: k, v)], .afterQuoted⟩ := by
  have hblank : isBlank c = false := by
    rw [Bool.eq_false_iff]
    intro hb
    rcases isBlank_iff.mp hb with rfl | rfl <;> exact absurd hc (by decide)
  have hstart : step ⟨labels, .label⟩ c = some ⟨labels, .key [c]⟩ := by
    simp [step, hblank, hc]
  unfold writeLabel
  rw [List.cons_append, List.cons_append, List.append_assoc, List.cons_append, List.cons_append]
  refine foldlM_cons_eq_some.mpr ⟨_, hstart, foldlM_append_eq_some.mpr ⟨_, run_key [c] hk, ?_⟩⟩
  refine foldlM_cons_eq_some.mpr ⟨⟨labels, .afterEq (c :: k)⟩, rfl, ?_⟩
  refine foldlM_cons_eq_some.mpr ⟨⟨labels, .quoted (c :: k) []⟩, rfl, ?_⟩
  exact foldlM_append_eq_some.mpr ⟨_, run_escaped (c :: k) [] v, rfl⟩

end Block

namespace Tail

variable {t t' : Tail} {c : Char} {l : List Char}

theorem step_tokens (h : t.step c = some t') :
    t.tokens ⊆ t'.tokens ∧ (isBlank c = true ∨ c ∈ t'.tokens) := by
  unfold step at h
  split at h <;> split_ifs at h with hc <;> cases h <;> simp [tokens, hc]

/-- Every character that is not a blank belongs to a token. -/
theorem run_tokens (h : t.run l = some t') :
    t.tokens ⊆ t'.tokens ∧ ∀ c ∈ l, isBlank c = true ∨ c ∈ t'.tokens := by
  induction l generalizing t with
  | nil =>
    obtain rfl : t = t' := by simpa [run] using h
    exact ⟨List.Subset.refl _, fun c hc => absurd hc List.not_mem_nil⟩
  | cons d l ih =>
    obtain ⟨s, hs, hl⟩ := foldlM_cons_eq_some.mp h
    obtain ⟨hsub, hd⟩ := step_tokens hs
    obtain ⟨hsub', hrest⟩ := ih hl
    refine ⟨List.Subset.trans hsub hsub', fun c hc => ?_⟩
    rcases List.mem_cons.mp hc with rfl | hc
    · exact hd.imp_right fun hmem => hsub' hmem
    · exact hrest c hc

theorem tokens_of_finish {V T : Type} {r : Readers V T} {x : V × Option T}
    (h : t.finish r = some x) : '{' ∉ t.tokens ∧ '}' ∉ t.tokens ∧ '\r' ∉ t.tokens := by
  have hunstamped : ∀ v, r.unstamped v = some x → '{' ∉ v ∧ '}' ∉ v ∧ '\r' ∉ v := by
    intro v hv
    obtain ⟨y, hy, -⟩ := Option.map_eq_some_iff.mp hv
    exact r.value_chars hy
  have hstamped : ∀ v s, r.stamped v s = some x → '{' ∉ v ++ s ∧ '}' ∉ v ++ s ∧ '\r' ∉ v ++ s := by
    intro v s hvs
    obtain ⟨y, hy, hvs⟩ := Option.bind_eq_some_iff.mp hvs
    obtain ⟨z, hz, -⟩ := Option.map_eq_some_iff.mp hvs
    have hvalue := r.value_chars hy
    have hstamp := r.stamp_chars hz
    simp only [List.mem_append, not_or]
    exact ⟨⟨hvalue.1, hstamp.1⟩, ⟨hvalue.2.1, hstamp.2.1⟩, hvalue.2.2, hstamp.2.2⟩
  cases t with
  | before => cases h
  | value v => exact hunstamped v h
  | afterValue v => exact hunstamped v h
  | stamp v s => exact hstamped v s h
  | afterStamp v s => exact hstamped v s h

end Tail

namespace State

variable {s s' : State} {c : Char} {l : List Char} {n : List Char}

theorem run_tail (n : List Char) (labels : Labels) (t : Tail) (l : List Char) :
    (State.tail n labels t).run l = (t.run l).map (.tail n labels) :=
  foldlM_map (State.tail n labels) (fun _ _ _ => rfl) t

/-- Up to a closing brace the labels are read by the machine inside the braces. -/
theorem run_block (n : List Char) (b : Block) (hl : '}' ∉ l) :
    (State.block n b).run l = (b.run l).map (.block n) := by
  refine foldlM_map (State.block n) (fun c hc b => ?_) b
  have hopen : ¬ (c = '}' ∧ b.closes = true) := fun h => hl (h.1 ▸ hc)
  exact if_neg hopen

/-- Nothing but the name has been read. -/
def isHead : State → Bool
  | .start => true
  | .name _ => true
  | .afterName _ => true
  | _ => false

/-- What a character can do. -/
inductive Moves : State → Char → State → Prop
  | head {s s' : State} {c : Char} : s.isHead = true → s'.isHead = true →
      (isBlank c = true ∨ isNameChar c = true) → Moves s c s'
  | opens {s : State} (n : List Char) : s.isHead = true → Moves s '{' (.block n ⟨[], .label⟩)
  | bare {s : State} {c : Char} (n : List Char) : s.isHead = true → c ≠ '{' →
      Moves s c (.tail n [] (.value [c]))
  | inside {b b' : Block} {c : Char} (n : List Char) : b.step c = some b' →
      Moves (.block n b) c (.block n b')
  | closes {b : Block} (n : List Char) : b.closes = true →
      Moves (.block n b) '}' (.tail n b.labels .before)
  | after {t t' : Tail} {c : Char} (n : List Char) (labels : Labels) : t.step c = some t' →
      Moves (.tail n labels t) c (.tail n labels t')

theorem moves_of_step (h : s.step c = some s') : Moves s c s' := by
  cases s with
  | start =>
    rw [step] at h
    split_ifs at h with hblank hname
    · cases h
      exact .head rfl rfl (Or.inl hblank)
    · cases h
      exact .head rfl rfl (Or.inr (by simp [isNameChar, hname]))
  | name n =>
    rw [step] at h
    split_ifs at h with hname hblank hbrace
    · cases h
      exact .head rfl rfl (Or.inr hname)
    · cases h
      exact .head rfl rfl (Or.inl hblank)
    · cases h
      exact hbrace ▸ .opens n rfl
  | afterName n =>
    rw [step] at h
    split_ifs at h with hblank hbrace
    · cases h
      exact .head rfl rfl (Or.inl hblank)
    · cases h
      exact hbrace ▸ .opens n rfl
    · cases h
      exact .bare n rfl hbrace
  | block n b =>
    rw [step] at h
    split_ifs at h with hclose
    · cases h
      exact hclose.1 ▸ .closes n hclose.2
    · obtain ⟨b', hb', rfl⟩ := Option.map_eq_some_iff.mp h
      exact .inside n hb'
  | tail n labels t =>
    obtain ⟨t', ht', rfl⟩ := Option.map_eq_some_iff.mp h
    exact .after n labels ht'

theorem labels_of_isHead (h : s.isHead = true) : s.labels = [] := by
  cases s with
  | block n b => cases h
  | tail n labels t => cases h
  | _ => rfl

theorem step_labels (h : s.step c = some s') : s.labels <+: s'.labels := by
  cases moves_of_step h with
  | inside n hb => exact Block.step_labels hb
  | closes n _ => exact List.prefix_rfl
  | after n labels _ => exact List.prefix_rfl
  | head hs _ _ | opens n hs | bare n hs _ =>
    rw [labels_of_isHead hs]
    exact List.nil_prefix

theorem run_labels (h : s.run l = some s') : s.labels <+: s'.labels :=
  foldlM_keeps (P := (s.labels <+: State.labels ·))
    (fun _ _ _ _ hs hstep => hs.trans (step_labels hstep)) List.prefix_rfl h

/-- A value under way becomes a label, with what is read after it. -/
theorem run_value {labels labels' : Labels} {p : Place} {k v m : List Char} {t : Tail}
    (hp : p = .quoted k v ∨ p = .escaped k v)
    (h : (State.block n ⟨labels, p⟩).run l = some (.tail m labels' t)) :
    ∃ w, labels ++ [(k, v ++ w)] <+: labels' := by
  induction l generalizing v p with
  | nil => cases h
  | cons c l ih =>
    obtain ⟨s, hs, hrest⟩ := foldlM_cons_eq_some.mp h
    have hopen : (⟨labels, p⟩ : Block).closes = false := by
      rcases hp with rfl | rfl <;> rfl
    rw [step, hopen, if_neg (fun h => Bool.false_ne_true h.2)] at hs
    obtain ⟨b, hb, rfl⟩ := Option.map_eq_some_iff.mp hs
    rcases hp with rfl | rfl
    · simp only [Block.step] at hb
      split_ifs at hb
      · cases hb
        exact ih (Or.inr rfl) hrest
      · cases hb
        refine ⟨[], ?_⟩
        rw [List.append_nil]
        exact run_labels hrest
      · cases hb
        obtain ⟨w, hw⟩ := ih (Or.inl rfl) hrest
        exact ⟨c :: w, by simpa using hw⟩
    · obtain ⟨d, -, rfl⟩ := Option.map_eq_some_iff.mp hb
      obtain ⟨w, hw⟩ := ih (Or.inl rfl) hrest
      exact ⟨d :: w, by simpa using hw⟩

theorem run_block_of_some {b b' : Block} (n : List Char) (h : b.run l = some b') :
    (State.block n b).run l = some (.block n b') := by
  induction l generalizing b with
  | nil =>
    obtain rfl := Option.some.inj h
    rfl
  | cons c l ih =>
    obtain ⟨a, ha, hrest⟩ := foldlM_cons_eq_some.mp h
    have hopen : ¬ (c = '}' ∧ b.closes = true) := by
      rintro ⟨rfl, hb⟩
      obtain ⟨k, v, hplace, -⟩ := Block.step_brace ha
      rw [Block.closes_iff, hplace] at hb
      simp at hb
    refine foldlM_cons_eq_some.mpr ⟨.block n a, ?_, ih hrest⟩
    rw [step, if_neg hopen, ha]
    rfl

/-- Inside the braces and after them the name is known. -/
def Named (n : List Char) (s : State) : Prop :=
  (∃ b, s = .block n b) ∨ ∃ labels t, s = .tail n labels t

theorem step_named (hs : Named n s) (h : s.step c = some s') : Named n s' := by
  obtain ⟨b, rfl⟩ | ⟨labels, t, rfl⟩ := hs
  · cases moves_of_step h with
    | inside n hb => exact Or.inl ⟨_, rfl⟩
    | closes n _ => exact Or.inr ⟨_, _, rfl⟩
    | head hs _ _ | opens n hs | bare n hs _ => cases hs
  · cases moves_of_step h with
    | after n labels _ => exact Or.inr ⟨_, _, rfl⟩
    | head hs _ _ | opens n hs | bare n hs _ => cases hs

theorem run_named (hs : Named n s) (h : s.run l = some s') : Named n s' :=
  foldlM_keeps (fun _ _ _ _ => step_named) hs h

/-! ### Before the braces -/

theorem step_isHead (h : s.step c = some s') (hs : s'.isHead = true) :
    s.isHead = true ∧ (isBlank c = true ∨ isNameChar c = true) := by
  cases moves_of_step h with
  | head hs' _ hc => exact ⟨hs', hc⟩
  | opens n _ | bare n _ _ | inside n _ | closes n _ | after n labels _ => cases hs

/-- An opening brace opens the labels. -/
theorem step_brace (hs : s.isHead = true) (h : s.step '{' = some s') :
    ∃ n, s' = .block n ⟨[], .label⟩ := by
  cases moves_of_step h with
  | opens n _ => exact ⟨n, rfl⟩
  | head _ _ hc => exact absurd hc (by decide)
  | bare n _ hne => exact absurd rfl hne
  | inside n _ | after n labels _ => cases hs

theorem run_isHead (h : State.start.run l = some s) (hs : s.isHead = true) :
    ∀ c ∈ l, isBlank c = true ∨ isNameChar c = true := by
  induction l using List.reverseRecOn generalizing s with
  | nil => exact fun c hc => absurd hc List.not_mem_nil
  | append_singleton l d ih =>
    obtain ⟨a, ha, hstep⟩ := foldlM_concat_eq_some.mp h
    obtain ⟨hhead, hd⟩ := step_isHead hstep hs
    intro c hc
    rcases List.mem_append.mp hc with hc | hc
    · exact ih ha hhead c hc
    · rw [List.mem_singleton.mp hc]
      exact hd

/-- Without an opening brace there are no labels. -/
theorem run_no_brace (hl : '{' ∉ l) (h : State.start.run l = some s) :
    s.isHead = true ∨ ∃ n t, s = .tail n [] t := by
  refine foldlM_keeps (P := fun s => s.isHead = true ∨ ∃ n t, s = .tail n [] t) ?_
    (Or.inl rfl) h
  intro c hc s s' hs hstep
  cases moves_of_step hstep with
  | head _ hs' _ => exact Or.inl hs'
  | opens n _ => exact absurd hc hl
  | bare n _ _ => exact Or.inr ⟨_, _, rfl⟩
  | inside n _ | closes n _ =>
    obtain hs | ⟨m, t, hs⟩ := hs
    · cases hs
    · cases hs
  | after n labels _ =>
    obtain hs | ⟨m, t, hs⟩ := hs
    · cases hs
    · cases hs
      exact Or.inr ⟨_, _, rfl⟩

theorem run_nameChars (n : List Char) (hl : ∀ c ∈ l, isNameChar c = true) :
    (State.name n).run l = some (.name (n ++ l)) := by
  induction l generalizing n with
  | nil =>
    rw [List.append_nil]
    rfl
  | cons c l ih =>
    have hc : (State.name n).step c = some (.name (n ++ [c])) := if_pos (hl c List.mem_cons_self)
    refine foldlM_cons_eq_some.mpr ⟨_, hc, ?_⟩
    rw [← run, ih (n ++ [c]) fun d hd => hl d (List.mem_cons_of_mem _ hd), List.append_assoc,
      List.singleton_append]

/-- Without braces a blank ends the name. -/
theorem run_name {m : List Char} {labels : Labels} {t : Tail} (hl : '{' ∉ l)
    (h : (State.name n).run l = some (.tail m labels t)) :
    ∃ w c rest, l = w ++ c :: rest ∧ (∀ d ∈ w, isNameChar d = true) ∧ isBlank c = true ∧
      (State.afterName (n ++ w)).run rest = some (.tail m labels t) := by
  induction l generalizing n with
  | nil => cases h
  | cons c l ih =>
    rw [List.mem_cons, not_or] at hl
    obtain ⟨s, hstep, hrest⟩ := foldlM_cons_eq_some.mp h
    rw [step, if_neg (Ne.symm hl.1)] at hstep
    split_ifs at hstep with hname hblank
    · cases hstep
      obtain ⟨w, d, rest, rfl, hw, hd, hrun⟩ := ih hl.2 hrest
      refine ⟨c :: w, d, rest, rfl, List.forall_mem_cons.mpr ⟨hname, hw⟩, hd, ?_⟩
      rwa [List.append_assoc, List.singleton_append] at hrun
    · cases hstep
      refine ⟨[], c, l, rfl, List.forall_mem_nil _, hblank, ?_⟩
      rwa [List.append_nil]

/-- After a name that has no braces, what follows is read as after braces. -/
theorem run_afterName {m : List Char} {labels : Labels} {t : Tail} (hl : '{' ∉ l)
    (h : (State.afterName n).run l = some (.tail m labels t)) :
    m = n ∧ labels = [] ∧ Tail.before.run l = some t := by
  induction l with
  | nil => cases h
  | cons c l ih =>
    rw [List.mem_cons, not_or] at hl
    obtain ⟨s, hstep, hrest⟩ := foldlM_cons_eq_some.mp h
    rw [step, if_neg (Ne.symm hl.1)] at hstep
    split_ifs at hstep with hblank
    · cases hstep
      obtain ⟨hm, hlabels, ht⟩ := ih hl.2 hrest
      exact ⟨hm, hlabels, foldlM_cons_eq_some.mpr ⟨.before, if_pos hblank, ht⟩⟩
    · cases hstep
      have hrun : (Tail.run (.value [c]) l).map (State.tail n []) = some (.tail m labels t) :=
        (run_tail n [] _ l).symm.trans hrest
      obtain ⟨u, hu, heq⟩ := Option.map_eq_some_iff.mp hrun
      cases heq
      exact ⟨rfl, rfl, foldlM_cons_eq_some.mpr ⟨.value [c], if_neg hblank, hu⟩⟩

/-- The last character of a line that has a value. -/
theorem step_to_tail {labels : Labels} {t : Tail} (h : s.step c = some (.tail n labels t)) :
    isBlank c = true ∨ c = '}' ∨ c ∈ t.tokens := by
  cases moves_of_step h with
  | head _ hs _ => cases hs
  | bare n _ _ => exact Or.inr (Or.inr (List.mem_singleton_self c))
  | closes n _ => exact Or.inr (Or.inl rfl)
  | after n labels ht => exact (Tail.step_tokens ht).2.imp_right Or.inr

end State

/-! ## Sample lines -/

section

variable {V T : Type} {r : Readers V T} {l : List Char} {smp : Sample V T}

theorem State.finish_eq_some {s : State} :
    s.finish r = some smp ↔ ∃ t, s = .tail smp.name smp.labels t ∧
      (smp.labels.map Prod.fst).Nodup ∧ t.finish r = some (smp.value, smp.timestamp) := by
  constructor
  · intro h
    cases s with
    | tail n labels t =>
      rw [State.finish] at h
      split_ifs at h with hnodup
      obtain ⟨x, hx, rfl⟩ := Option.map_eq_some_iff.mp h
      exact ⟨t, rfl, hnodup, hx⟩
    | _ => cases h
  · rintro ⟨t, rfl, hnodup, ht⟩
    rw [State.finish, if_pos hnodup, ht]
    rfl

theorem readSample_eq_some :
    readSample r l = some smp ↔ ∃ t, State.start.run l = some (.tail smp.name smp.labels t) ∧
      (smp.labels.map Prod.fst).Nodup ∧ t.finish r = some (smp.value, smp.timestamp) := by
  rw [readSample, Option.bind_eq_some_iff]
  constructor
  · rintro ⟨s, hs, hfinish⟩
    obtain ⟨t, rfl, hnodup, ht⟩ := State.finish_eq_some.mp hfinish
    exact ⟨t, hs, hnodup, ht⟩
  · rintro ⟨t, hs, hnodup, ht⟩
    exact ⟨_, hs, State.finish_eq_some.mpr ⟨t, rfl, hnodup, ht⟩⟩

theorem getLast?_ne_of_readSample (h : readSample r l = some smp) : l.getLast? ≠ some '\r' := by
  intro hlast
  obtain ⟨t, hrun, -, ht⟩ := readSample_eq_some.mp h
  rw [← List.dropLast_append_getLast? _ hlast] at hrun
  obtain ⟨s, -, hstep⟩ := foldlM_concat_eq_some.mp hrun
  rcases State.step_to_tail hstep with hblank | hbrace | htoken
  · exact absurd hblank (by decide)
  · exact absurd hbrace (by decide)
  · exact (Tail.tokens_of_finish ht).2.2 htoken

/-- A sample line with a brace: the name, the text up to the first closing brace, and the rest. -/
theorem exists_braces (h : readSample r l = some smp) (hl : '{' ∈ l) :
    ∃ pre inside post b s, l = pre ++ '{' :: (inside ++ '}' :: post) ∧
      (∀ c ∈ pre, isBlank c = true ∨ isNameChar c = true) ∧ '}' ∉ inside ∧
      State.start.run (pre ++ ['{']) = some (.block smp.name ⟨[], .label⟩) ∧
      Block.run ⟨[], .label⟩ inside = some b ∧
      (State.block smp.name b).step '}' = some s ∧
      (s.run post).bind (State.finish r) = some smp := by
  obtain ⟨t, hrun, hnodup, ht⟩ := readSample_eq_some.mp h
  obtain ⟨pre, rest, rfl, hpre⟩ := List.eq_append_cons_of_mem hl
  obtain ⟨s₁, hs₁, hrun⟩ := foldlM_append_eq_some.mp hrun
  obtain ⟨s₂, hs₂, hrest⟩ := foldlM_cons_eq_some.mp hrun
  -- In a number the brace would make the number unreadable.
  have hhead : s₁.isHead = true := by
    obtain hhead | ⟨n, u, rfl⟩ := State.run_no_brace hpre hs₁
    · exact hhead
    · obtain ⟨u', hu', rfl⟩ := Option.map_eq_some_iff.mp hs₂
      have hrun := (State.run_tail n [] u' rest).symm.trans hrest
      obtain ⟨t', ht', heq⟩ := Option.map_eq_some_iff.mp hrun
      obtain ⟨-, -, rfl⟩ := State.tail.inj heq
      have hmem : '{' ∈ u'.tokens := (Tail.step_tokens hu').2.resolve_left (by decide)
      exact absurd ((Tail.run_tokens ht').1 hmem) (Tail.tokens_of_finish ht).1
  obtain ⟨n, rfl⟩ := State.step_brace hhead hs₂
  have hname : n = smp.name := by
    obtain ⟨b, heq⟩ | ⟨labels, u, heq⟩ := State.run_named (Or.inl ⟨_, rfl⟩) hrest
    · cases heq
    · cases heq
      rfl
  subst hname
  have hclose : '}' ∈ rest := by
    by_contra hclose
    have hrun := (State.run_block smp.name ⟨[], .label⟩ hclose).symm.trans hrest
    obtain ⟨b, -, heq⟩ := Option.map_eq_some_iff.mp hrun
    cases heq
  obtain ⟨inside, post, rfl, hinside⟩ := List.eq_append_cons_of_mem hclose
  obtain ⟨s₃, hs₃, hrest⟩ := foldlM_append_eq_some.mp hrest
  obtain ⟨s₄, hs₄, hpost⟩ := foldlM_cons_eq_some.mp hrest
  have hrun := (State.run_block smp.name ⟨[], .label⟩ hinside).symm.trans hs₃
  obtain ⟨b, hb, rfl⟩ := Option.map_eq_some_iff.mp hrun
  refine ⟨pre, inside, post, b, s₄, rfl, State.run_isHead hs₁ hhead, hinside, ?_, hb, hs₄, ?_⟩
  · exact foldlM_append_eq_some.mpr ⟨s₁, hs₁, foldlM_cons_eq_some.mpr ⟨_, hs₂, rfl⟩⟩
  · exact Option.bind_eq_some_iff.mpr ⟨_, hpost, State.finish_eq_some.mpr ⟨t, rfl, hnodup, ht⟩⟩

/-- A sample line starts with blanks and a name. -/
theorem exists_start (h : readSample r l = some smp) :
    ∃ blanks c rest, l = blanks ++ c :: rest ∧ (∀ b ∈ blanks, isBlank b = true) ∧
      isNameChar c = true := by
  obtain ⟨t, hrun, -⟩ := readSample_eq_some.mp h
  clear h
  induction l with
  | nil => cases hrun
  | cons c l ih =>
    obtain ⟨s, hs, hrun⟩ := foldlM_cons_eq_some.mp hrun
    rw [State.step] at hs
    split_ifs at hs with hblank hname
    · cases hs
      obtain ⟨blanks, d, rest, rfl, hblanks, hd⟩ := ih hrun
      exact ⟨c :: blanks, d, rest, rfl, List.forall_mem_cons.mpr ⟨hblank, hblanks⟩, hd⟩
    · exact ⟨[], c, l, rfl, List.forall_mem_nil _, by simp [isNameChar, hname]⟩

/-- A sample line without braces that starts with its name: a blank and the numbers follow. -/
theorem exists_name (h : readSample r l = some smp) (hl : '{' ∉ l)
    (hhead : ∀ c ∈ l.head?, isBlank c = false) :
    ∃ c rest t, l = smp.name ++ c :: rest ∧ isBlank c = true ∧ smp.labels = [] ∧
      (∀ d ∈ smp.name, isNameChar d = true) ∧
      State.start.run smp.name = some (.name smp.name) ∧ Tail.before.run rest = some t ∧
      t.finish r = some (smp.value, smp.timestamp) := by
  obtain ⟨t, hrun, -, ht⟩ := readSample_eq_some.mp h
  cases l with
  | nil => cases hrun
  | cons d l =>
    obtain ⟨s, hstart, hrun⟩ := foldlM_cons_eq_some.mp hrun
    obtain ⟨hd, rfl⟩ : isNameStart d = true ∧ s = .name [d] := by
      have hblank : isBlank d = false := hhead d rfl
      simp only [State.step, hblank, Bool.false_eq_true, if_false] at hstart
      split_ifs at hstart with hd
      exact ⟨hd, (Option.some.inj hstart).symm⟩
    rw [List.mem_cons, not_or] at hl
    obtain ⟨w, c, rest, rfl, hw, hc, hafter⟩ := State.run_name hl.2 hrun
    have hrest : '{' ∉ rest := fun hmem =>
      hl.2 (List.mem_append_right _ (List.mem_cons_of_mem _ hmem))
    obtain ⟨hname, hlabels, htail⟩ := State.run_afterName hrest hafter
    have hchars : ∀ e ∈ d :: w, isNameChar e = true :=
      List.forall_mem_cons.mpr ⟨by simp [isNameChar, hd], hw⟩
    rw [hname]
    refine ⟨c, rest, t, rfl, hc, hlabels, hchars, ?_, htail, ht⟩
    exact foldlM_cons_eq_some.mpr ⟨_, hstart, State.run_nameChars [d] hw⟩

end

/-! ## Bodies -/

theorem passedOver_iff {l : List Char} :
    passedOver l = true ↔ ∃ blanks rest, l = blanks ++ rest ∧ (∀ c ∈ blanks, isBlank c = true) ∧
      (rest = [] ∨ ∃ text, rest = '#' :: text) := by
  constructor
  · intro h
    refine ⟨l.takeWhile isBlank, l.dropWhile isBlank, List.takeWhile_append_dropWhile.symm,
      fun c hc => List.mem_takeWhile_imp hc, ?_⟩
    rw [passedOver] at h
    split at h
    · next hnil => exact Or.inl hnil
    · next c text hcons =>
      rw [beq_iff_eq] at h
      exact Or.inr ⟨text, by rw [hcons, h]⟩
  · rintro ⟨blanks, rest, rfl, hblanks, hrest⟩
    rw [passedOver, List.dropWhile_append_of_pos hblanks]
    rcases hrest with rfl | ⟨text, rfl⟩ <;> rfl

/-- A line with a brace before any hash sign is a sample. -/
theorem passedOver_brace {front : List Char} (hfront : '#' ∉ front) (rest : List Char) :
    passedOver (front ++ '{' :: rest) = false := by
  rw [Bool.eq_false_iff]
  intro h
  obtain ⟨blanks, back, heq, hblanks, hback⟩ := passedOver_iff.mp h
  have hbrace : '{' ∉ blanks := fun hmem => absurd (hblanks _ hmem) (by decide)
  rcases List.append_eq_append_iff.mp heq with ⟨m, rfl, hm⟩ | ⟨m, rfl, hm⟩
  · rcases m with _ | ⟨c, m⟩
    · rcases hback with rfl | ⟨text, rfl⟩ <;> cases hm
    · cases hm
      exact hbrace (List.mem_append_right _ List.mem_cons_self)
  · rcases m with _ | ⟨c, m⟩
    · rcases hback with rfl | ⟨text, rfl⟩ <;> cases hm
    · rcases hback with rfl | ⟨text, rfl⟩
      · cases hm
      · cases hm
        exact hfront (List.mem_append_right _ List.mem_cons_self)

/-- A carriage return does not make a comment of a line, and nothing else. -/
theorem passedOver_of_concat {l : List Char} (h : passedOver (l ++ ['\r']) = true) :
    passedOver l = true := by
  obtain ⟨blanks, rest, heq, hblanks, hrest⟩ := passedOver_iff.mp h
  rcases hrest with rfl | ⟨text, rfl⟩
  · rw [List.append_nil] at heq
    have hmem : '\r' ∈ blanks := heq ▸ List.mem_append_right _ (List.mem_singleton_self _)
    exact absurd (hblanks _ hmem) (by decide)
  · rcases List.eq_nil_or_concat' text with rfl | ⟨text, c, rfl⟩
    · exact absurd (List.append_inj_right' heq rfl) (by decide)
    · rw [← List.cons_append, ← List.append_assoc] at heq
      exact passedOver_iff.mpr ⟨blanks, '#' :: text, List.append_inj_left' heq rfl, hblanks,
        Or.inr ⟨text, rfl⟩⟩

/-- A line of a body, and the line that `str::lines` makes of it. -/
theorem chomp_or_unterminated (piece : List Char) :
    chomp piece = unterminated piece ∨ unterminated piece = chomp piece ++ ['\r'] := by
  unfold chomp unterminated
  split_ifs with hlast hreturn
  · exact Or.inr (List.dropLast_append_getLast? _ hreturn).symm
  · exact Or.inl rfl
  · exact Or.inl rfl

/-- A sample line has no carriage return to take off. -/
theorem chomp_of_readSample {V T : Type} {r : Readers V T} {smp : Sample V T} {piece : List Char}
    (h : readSample r (unterminated piece) = some smp) : chomp piece = unterminated piece := by
  refine (chomp_or_unterminated piece).resolve_right fun heq => ?_
  refine getLast?_ne_of_readSample h ?_
  rw [heq, List.getLast?_concat]

theorem readLines_cons {V T : Type} {r : Readers V T} {l : List Char} (h : passedOver l = false)
    (ls : List (List Char)) :
    readLines r (l :: ls) = (readSample r l).bind fun s => (readLines r ls).map (s :: ·) := by
  rw [readLines, h]
  rfl

/-- The first of several lines that can be read is passed over, or is the first sample. -/
theorem readLines_cases {V T : Type} {r : Readers V T} {l : List Char} {ls : List (List Char)}
    {samples : List (Sample V T)} (h : readLines r (l :: ls) = some samples) :
    (passedOver l = true ∧ readLines r ls = some samples) ∨
      (passedOver l = false ∧ ∃ smp rest, readSample r l = some smp ∧
        readLines r ls = some rest ∧ smp :: rest = samples) := by
  cases hpass : passedOver l with
  | true =>
    rw [readLines, hpass, if_pos rfl] at h
    exact Or.inl ⟨rfl, h⟩
  | false =>
    rw [readLines_cons hpass] at h
    obtain ⟨smp, hsmp, h⟩ := Option.bind_eq_some_iff.mp h
    obtain ⟨rest, hrest, heq⟩ := Option.map_eq_some_iff.mp h
    exact Or.inr ⟨rfl, smp, rest, hsmp, hrest, heq⟩

theorem bodyLines_endLines {ls : List (List Char)} (hls : ∀ l ∈ ls, '\n' ∉ l) :
    bodyLines (endLines ls) = ls := by
  rw [bodyLines, splitInclusive_endLines hls, List.map_map]
  have hline : unterminated ∘ (· ++ ['\n']) = id := by
    funext l
    simp [unterminated]
  rw [hline, List.map_id]

end Cognitora.Lib.Exposition
