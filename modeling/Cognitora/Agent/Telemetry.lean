/-
  Engine telemetry (cgn-agent `src/telemetry.rs`): the gauges an agent reads from the metrics
  text of its engine.

  `find_metric` does not follow the format's grammar: on a line that starts with the name and a
  space or a brace it takes what stands after the last space for the value. `addends` is the
  list of numbers it adds up. `find_metric_reads_values_iff`: these are the values of the samples
  of that name, in order, exactly if every such line is `Readable`: a space or a brace follows
  the name, and the last field of the line stands after a space and is read as the value. A tab
  after the name or before the value, a value right after the closing brace and a timestamp break
  this. No other metric is ever counted.

  The format's numbers and `str::parse::<f64>` are a parameter (`Numbers`); the two need not take
  the same texts.
-/
import Cognitora.Agent.CacheState
import Cognitora.Agent.Supervisor
import Cognitora.Auth.KeyFile
import Cognitora.Lib.SampleFields
import Cognitora.Metrics.Scraper

namespace Cognitora.Agent

open Cognitora.Lib Cognitora.Lib.Exposition
open Cognitora.Auth (Text isWhitespace)
open Cognitora.Metrics (isWhitespace_of_isBlank isWhitespace_of_isNameChar)

/-! ## The extractor -/

/-- The line goes on after the name with a space or an opening brace. -/
def matchesName (name l : Text) : Bool :=
  name.isPrefixOf l &&
    (l[name.length]? == some ' ' || l[name.length]? == some '{')

/-- `line.rsplit(' ').next()`. -/
def valuePart (line : Text) : Text :=
  line.rtakeWhile (· ≠ ' ')

section

variable {F : Type} [Zero F] [Add F] (parseF64 : Text → Option F)

/-- The number that a line adds to the sum. -/
def lineValue (name line : Text) : Option F :=
  let line := trim isWhitespace line
  if line.isEmpty || line.head? == some '#' then none
  else if matchesName name line then parseF64 (valuePart line)
  else none

/-- One round of the loop of `find_metric`, on the sum and `seen`. -/
def addLine (name : Text) (s : F × Bool) (line : Text) : F × Bool :=
  match lineValue parseF64 name line with
  | some v => (s.1 + v, true)
  | none => s

def findMetric (text name : Text) : Option F :=
  let s := (lines text).foldl (addLine parseF64 name) (0, false)
  if s.2 then some s.1 else none

/-- The numbers that are added up. -/
def addends (text name : Text) : List F :=
  (lines text).filterMap (lineValue parseF64 name)

/-- The sum of at least one number. -/
def total (vs : List F) : Option F :=
  if vs.isEmpty then none else some (vs.foldl (· + ·) 0)

omit [Zero F] in
theorem foldl_addLine (name : Text) (ls : List Text) (s : F × Bool) :
    ls.foldl (addLine parseF64 name) s =
      ((ls.filterMap (lineValue parseF64 name)).foldl (· + ·) s.1,
        s.2 || !(ls.filterMap (lineValue parseF64 name)).isEmpty) := by
  induction ls generalizing s with
  | nil => simp
  | cons l ls ih =>
    rw [List.foldl_cons, ih, addLine]
    cases hl : lineValue parseF64 name l with
    | none => simp [hl]
    | some v => simp [hl]

theorem findMetric_eq (text name : Text) :
    findMetric parseF64 text name = total (addends parseF64 text name) := by
  unfold findMetric total addends
  rw [foldl_addLine]
  cases ((lines text).filterMap (lineValue parseF64 name)).isEmpty <;> rfl

end

/-! ## Numbers -/

/-- How numbers are read: by the format, and by `str::parse::<f64>`. A number has no white space
    in it, and one that Rust reads has no brace. -/
structure Numbers (F T : Type) extends Readers F T where
  parseF64 : Text → Option F
  value_solid : ∀ {tok v}, value tok = some v → ∀ c ∈ tok, isWhitespace c = false
  stamp_solid : ∀ {tok t}, stamp tok = some t → ∀ c ∈ tok, isWhitespace c = false
  parseF64_chars : ∀ {tok v}, parseF64 tok = some v →
    ∀ c ∈ tok, isWhitespace c = false ∧ c ≠ '}'

/-- A name of a metric, such as every name the agent asks for. -/
def MetricName (name : Text) : Prop :=
  name.all isNameChar = true

instance (name : Text) : Decidable (MetricName name) :=
  inferInstanceAs (Decidable (_ = _))

/-- The extractor finds the sample's value where it looks for it. -/
def Numbers.Readable {F T : Type} (n : Numbers F T) (l : Text) (smp : Sample F T) : Prop :=
  (∃ c rest, trim isWhitespace l = smp.name ++ c :: rest ∧ (c = ' ' ∨ c = '{')) ∧
    ∃ tok, LastField ' ' tok l ∧ n.parseF64 tok = some smp.value

/-- Every line of the metric is readable. -/
def Numbers.ReadableIn {F T : Type} (n : Numbers F T) (body name : Text) : Prop :=
  ∀ l ∈ sampleLines body, ∀ smp, readSample n.toReaders l = some smp → smp.name = name →
    n.Readable l smp

/-- The values of the samples of a metric, in order. -/
def valuesOf {F T : Type} (name : Text) (samples : List (Sample F T)) : List F :=
  (samples.filter (·.name == name)).map (·.value)

/-! ## A sample line -/

theorem not_isNameChar {c : Char} (hc : isBlank c = true ∨ c = '{') : isNameChar c = false := by
  obtain hc | rfl := hc
  · obtain rfl | rfl := isBlank_iff.mp hc <;> rfl
  · rfl

/-- A line of another metric does not match, whichever of the two names is the longer one. -/
theorem matchesName_iff {name sample rest : Text} {c : Char} (hname : MetricName name)
    (hsample : ∀ d ∈ sample, isNameChar d = true) (hc : isBlank c = true ∨ c = '{') :
    matchesName name (sample ++ c :: rest) = true ↔ sample = name ∧ (c = ' ' ∨ c = '{') := by
  have hchars : ∀ d ∈ name, isNameChar d = true := List.all_eq_true.mp hname
  have hnot : ∀ d, (d = ' ' ∨ d = '{') → isNameChar d = false := by
    intro d hd
    obtain rfl | rfl := hd <;> rfl
  have hmatch : matchesName name (sample ++ c :: rest) = true ↔
      name <+: sample ++ c :: rest ∧
        ((sample ++ c :: rest)[name.length]? = some ' ' ∨
          (sample ++ c :: rest)[name.length]? = some '{') := by
    simp [matchesName]
  rw [hmatch]
  constructor
  · rintro ⟨hpre, hnext⟩
    obtain ⟨tail, htail⟩ := hpre
    obtain ⟨d, tail', rfl, hd⟩ : ∃ d tail', tail = d :: tail' ∧ (d = ' ' ∨ d = '{') := by
      rw [← htail] at hnext
      cases tail with
      | nil => simp at hnext
      | cons d tail' => exact ⟨d, tail', rfl, by simpa using hnext⟩
    -- both are the characters up to the first one that no name has
    have htakeName : (name ++ d :: tail').takeWhile isNameChar = name := by
      rw [List.takeWhile_append_of_pos hchars, List.takeWhile_cons_of_neg (by simp [hnot d hd]),
        List.append_nil]
    have htakeSample : (sample ++ c :: rest).takeWhile isNameChar = sample := by
      rw [List.takeWhile_append_of_pos hsample,
        List.takeWhile_cons_of_neg (by simp [not_isNameChar hc]), List.append_nil]
    have heq : sample = name := by
      rw [← htakeSample, ← htail, htakeName]
    rw [heq] at htail
    obtain ⟨rfl, -⟩ := List.cons.inj (List.append_cancel_left htail)
    exact ⟨heq, hd⟩
  · rintro ⟨rfl, hspace⟩
    refine ⟨List.prefix_append _ _, ?_⟩
    rw [List.getElem?_append_right (Nat.le_refl _), Nat.sub_self, List.getElem?_cons_zero]
    exact hspace.imp (congrArg some) (congrArg some)

theorem rtakeWhile_append {p : Char → Bool} (a : Text) {b : Text} (hb : ∀ c ∈ b, p c = true) :
    (a ++ b).rtakeWhile p = a.rtakeWhile p ++ b := by
  rw [List.rtakeWhile, List.rtakeWhile, List.reverse_append,
    List.takeWhile_append_of_pos (by simpa using hb), List.reverse_append, List.reverse_reverse]

theorem ne_space {tok : Text} (htok : ∀ c ∈ tok, isBlank c = false) :
    ∀ c ∈ tok, decide (c ≠ ' ') = true := by
  intro c hc
  refine decide_eq_true fun h => ?_
  have hblank := htok c hc
  rw [h] at hblank
  exact Bool.false_ne_true hblank.symm

theorem valuePart_space (front : Text) {tok : Text} (htok : ∀ c ∈ tok, isBlank c = false) :
    valuePart (front ++ ' ' :: tok) = tok := by
  have hsplit : front ++ ' ' :: tok = (front ++ [' ']) ++ tok := by simp
  rw [valuePart, hsplit, rtakeWhile_append _ (ne_space htok),
    List.rtakeWhile_concat_neg _ _ _ (by simp), List.nil_append]

theorem mem_valuePart (front : Text) {tok : Text} {d : Char} (hd : d ≠ ' ')
    (htok : ∀ c ∈ tok, isBlank c = false) : d ∈ valuePart (front ++ d :: tok) := by
  have hall : ∀ c ∈ d :: tok, decide (c ≠ ' ') = true :=
    List.forall_mem_cons.mpr ⟨decide_eq_true hd, ne_space htok⟩
  rw [valuePart, rtakeWhile_append _ hall]
  exact List.mem_append_right _ List.mem_cons_self

section

variable {F T : Type} {n : Numbers F T} {l name : Text} {smp : Sample F T} {v : F}

/-- What Rust reads as a number does not reach back over the separator of the last field. -/
theorem Numbers.parseF64_separator {tok : Text} (h : n.parseF64 tok = some v) {d : Char}
    (hd : separates d = true) : d ∉ tok := by
  intro hmem
  obtain ⟨hws, hbrace⟩ := n.parseF64_chars h d hmem
  obtain hblank | heq := Bool.or_eq_true_iff.mp hd
  · rw [isWhitespace_of_isBlank hblank] at hws
    exact Bool.false_ne_true hws.symm
  · exact hbrace (beq_iff_eq.mp heq)

theorem Numbers.readsLast_solid {tok : Text} (h : n.ReadsLast tok smp) :
    ∀ c ∈ tok, isWhitespace c = false := by
  obtain ⟨-, hvalue⟩ | ⟨t, -, hstamp⟩ := h
  · exact n.value_solid hvalue
  · exact n.stamp_solid hstamp

/-- What the extractor adds for a sample line. -/
theorem lineValue_sample (hname : MetricName name)
    (h : readSample n.toReaders l = some smp) :
    lineValue n.parseF64 name l = some v ↔ smp.name = name ∧
      (∃ c rest, trim isWhitespace l = smp.name ++ c :: rest ∧ (c = ' ' ∨ c = '{')) ∧
      ∃ tok, LastField ' ' tok l ∧ n.parseF64 tok = some v := by
  obtain ⟨-, -, -, -, -, hne, hchars, -⟩ := exists_head h
  obtain ⟨c, rest, d, front, tok, htrim, hc, hend, hfield, hreads⟩ :=
    exists_trimmed (fun _ => isWhitespace_of_isBlank) (fun _ => isWhitespace_of_isNameChar)
      (fun _ => Numbers.readsLast_solid) h
  have hsample : ((trim isWhitespace l).isEmpty ||
      (trim isWhitespace l).head? == some '#') = false := by
    obtain ⟨x, xs, hx⟩ := List.exists_cons_of_ne_nil hne
    have hhash : x ≠ '#' := by
      rintro rfl
      exact absurd (hchars '#' (hx ▸ List.mem_cons_self)) (by decide)
    rw [htrim, hx]
    simpa using hhash
  have hmatch : matchesName name (trim isWhitespace l) = true ↔
      smp.name = name ∧ (c = ' ' ∨ c = '{') := htrim ▸ matchesName_iff hname hchars hc
  obtain ⟨-, -, -, hd, -, htok, -⟩ := id hfield
  rw [lineValue, if_neg (Bool.eq_false_iff.mp hsample)]
  constructor
  · intro hv
    split_ifs at hv with hm
    obtain ⟨heq, hnext⟩ := hmatch.mp hm
    rw [hend] at hv
    obtain rfl : d = ' ' := by
      by_contra hne
      exact Numbers.parseF64_separator hv hd (mem_valuePart front hne htok)
    rw [valuePart_space front htok] at hv
    exact ⟨heq, ⟨c, rest, htrim, hnext⟩, tok, hfield, hv⟩
  · rintro ⟨heq, ⟨c', rest', htrim', hnext⟩, tok', hfield', hv⟩
    obtain ⟨rfl, -⟩ := List.cons.inj (List.append_cancel_left (htrim.symm.trans htrim'))
    have hspace : ' ' ∉ tok := fun hmem => Bool.false_ne_true (htok ' ' hmem).symm
    obtain ⟨rfl, rfl⟩ := hfield.unique hfield' (Numbers.parseF64_separator hv hd) hspace
    rw [if_pos (hmatch.mpr ⟨heq, hnext⟩), hend, valuePart_space front htok, hv]

theorem lineValue_other (hname : MetricName name) (h : readSample n.toReaders l = some smp)
    (hne : smp.name ≠ name) : lineValue n.parseF64 name l = none := by
  rw [Option.eq_none_iff_forall_ne_some]
  intro v hv
  exact hne ((lineValue_sample hname h).mp hv).1

theorem lineValue_readable (hname : MetricName name) (h : readSample n.toReaders l = some smp)
    (heq : smp.name = name) :
    lineValue n.parseF64 name l = some smp.value ↔ n.Readable l smp := by
  rw [lineValue_sample hname h]
  exact ⟨fun hv => hv.2, fun hv => ⟨heq, hv⟩⟩

/-! ## A body -/

theorem lineValue_passedOver (h : passedOver l = true) : lineValue n.parseF64 name l = none := by
  obtain ⟨blanks, rest, rfl, hblanks, hrest⟩ := passedOver_iff.mp h
  have hws : ∀ c ∈ blanks, isWhitespace c = true :=
    fun c hc => isWhitespace_of_isBlank (hblanks c hc)
  have htrim : trim isWhitespace (blanks ++ rest) = [] ∨
      (trim isWhitespace (blanks ++ rest)).head? = some '#' := by
    rw [trim, List.dropWhile_append_of_pos hws]
    obtain rfl | ⟨text, rfl⟩ := hrest
    · exact Or.inl rfl
    · have hhash : isWhitespace '#' = false := by decide
      rw [List.dropWhile_cons_of_neg (Bool.eq_false_iff.mp hhash)]
      exact Or.inr (head?_rdropWhile hhash text)
  rw [lineValue, if_pos]
  obtain hnil | hhead := htrim
  · rw [hnil]
    rfl
  · rw [hhead, beq_self_eq_true, Bool.or_true]

/-- The line that `str::lines` makes of a piece of the body gives what the line itself gives. -/
theorem lineValue_chomp_passedOver {piece : Text} (h : passedOver (unterminated piece) = true) :
    lineValue n.parseF64 name (chomp piece) = none := by
  obtain hsame | hreturn := chomp_or_unterminated piece
  · rw [hsame]
    exact lineValue_passedOver h
  · rw [hreturn] at h
    exact lineValue_passedOver (passedOver_of_concat h)

/-- The numbers added for the pieces of a body. -/
def addendsOf (n : Numbers F T) (name : Text) (pieces : List Text) : List F :=
  pieces.filterMap fun piece => lineValue n.parseF64 name (chomp piece)

theorem valuesOf_cons (name : Text) (smp : Sample F T) (samples : List (Sample F T)) :
    valuesOf name (smp :: samples) =
      (if smp.name = name then [smp.value] else []) ++ valuesOf name samples := by
  unfold valuesOf
  rw [List.filter_cons]
  by_cases h : smp.name = name
  · rw [if_pos (beq_iff_eq.mpr h), if_pos h]
    rfl
  · rw [if_neg (fun heq => h (beq_iff_eq.mp heq)), if_neg h]
    rfl

theorem addendsOf_cons (n : Numbers F T) (name piece : Text) (pieces : List Text) :
    addendsOf n name (piece :: pieces) =
      (lineValue n.parseF64 name (chomp piece)).toList ++ addendsOf n name pieces := by
  unfold addendsOf
  rw [List.filterMap_cons]
  cases lineValue n.parseF64 name (chomp piece) <;> rfl

/-- Each sample of the metric gives at most one number. -/
theorem length_addendsOf_le (hname : MetricName name) (pieces : List Text)
    {samples : List (Sample F T)}
    (h : readLines n.toReaders (pieces.map unterminated) = some samples) :
    (addendsOf n name pieces).length ≤ (valuesOf name samples).length := by
  induction pieces generalizing samples with
  | nil => exact Nat.zero_le _
  | cons piece pieces ih =>
    rw [addendsOf_cons, List.length_append]
    obtain ⟨hpass, h⟩ | ⟨-, smp, rest, hsmp, hrest, rfl⟩ := readLines_cases h
    · rw [lineValue_chomp_passedOver hpass]
      simpa using ih h
    · have ih := ih hrest
      rw [valuesOf_cons, List.length_append, chomp_of_readSample hsmp]
      by_cases heq : smp.name = name
      · have hone : (lineValue n.parseF64 name (unterminated piece)).toList.length ≤ 1 := by
          cases lineValue n.parseF64 name (unterminated piece) <;> simp
        rw [if_pos heq, List.length_singleton]
        omega
      · rw [if_neg heq, lineValue_other hname hsmp heq]
        simpa using ih

/-- The numbers added are the values of the metric's samples exactly if every line of the metric
    is readable. -/
theorem addendsOf_eq_iff (hname : MetricName name) (pieces : List Text)
    {samples : List (Sample F T)}
    (h : readLines n.toReaders (pieces.map unterminated) = some samples) :
    addendsOf n name pieces = valuesOf name samples ↔
      ∀ l ∈ (pieces.map unterminated).filter fun l => !passedOver l,
        ∀ smp, readSample n.toReaders l = some smp → smp.name = name → n.Readable l smp := by
  induction pieces generalizing samples with
  | nil =>
    obtain rfl := Option.some.inj h
    simp [addendsOf, valuesOf]
  | cons piece pieces ih =>
    rw [addendsOf_cons, List.map_cons]
    obtain ⟨hpass, h⟩ | ⟨hpass, smp, rest, hsmp, hrest, rfl⟩ := readLines_cases h
    · rw [lineValue_chomp_passedOver hpass, List.filter_cons_of_neg (by simp [hpass])]
      exact ih h
    · have hline : (∀ smp', readSample n.toReaders (unterminated piece) = some smp' →
          smp'.name = name → n.Readable (unterminated piece) smp') ↔
          (smp.name = name → n.Readable (unterminated piece) smp) := by
        constructor
        · exact fun hall => hall smp hsmp
        · intro hone smp' hsmp'
          obtain rfl := Option.some.inj (hsmp.symm.trans hsmp')
          exact hone
      rw [List.filter_cons_of_pos (by simp [hpass]), List.forall_mem_cons, hline, ← ih hrest,
        valuesOf_cons, chomp_of_readSample hsmp]
      by_cases heq : smp.name = name
      · rw [if_pos heq, ← lineValue_readable hname hsmp heq]
        cases hvalue : lineValue n.parseF64 name (unterminated piece) with
        | none =>
          -- a line that gives no number would have to be made up for by a later one
          have hle := length_addendsOf_le hname pieces hrest
          refine iff_of_false (fun hlists => ?_) fun hboth => nomatch hboth.1 heq
          have := congrArg List.length hlists
          simp only [Option.toList_none, List.nil_append, List.length_append,
            List.length_singleton] at this
          omega
        | some v => simp [heq]
      · rw [if_neg heq, lineValue_other hname hsmp heq]
        simp [heq]

theorem addends_eq_iff {body : Text} {samples : List (Sample F T)}
    (hparse : parse n.toReaders body = some samples) (hname : MetricName name) :
    addends n.parseF64 body name = valuesOf name samples ↔ n.ReadableIn body name := by
  have hpieces : addends n.parseF64 body name = addendsOf n name (splitInclusive body) := by
    rw [addends, lines, List.filterMap_map]
    rfl
  rw [hpieces]
  exact addendsOf_eq_iff hname (splitInclusive body) hparse

theorem valuesOf_eq_nil_iff (name : Text) (samples : List (Sample F T)) :
    valuesOf name samples = [] ↔ ∀ smp ∈ samples, smp.name ≠ name := by
  simp [valuesOf]

variable [Zero F] [Add F]

theorem total_eq_none_iff (vs : List F) : total vs = none ↔ vs = [] := by
  cases vs <;> simp [total]

theorem findMetric_of_readable {body : Text} {samples : List (Sample F T)}
    (hparse : parse n.toReaders body = some samples) (hname : MetricName name)
    (hread : n.ReadableIn body name) :
    findMetric n.parseF64 body name = total (valuesOf name samples) := by
  rw [findMetric_eq, (addends_eq_iff hparse hname).mpr hread]

/-- The extractor adds up the values of the metric's samples, each once and in order, exactly if
    each of their lines is readable. Then the result is their sum, and `none` if there is no such
    sample. -/
theorem find_metric_reads_values_iff (n : Numbers F T) (body name : Text)
    {samples : List (Sample F T)} (hparse : parse n.toReaders body = some samples)
    (hname : MetricName name) :
    (addends n.parseF64 body name = valuesOf name samples ↔ n.ReadableIn body name) ∧
    (n.ReadableIn body name →
      findMetric n.parseF64 body name = total (valuesOf name samples) ∧
      (findMetric n.parseF64 body name = none ↔ ∀ smp ∈ samples, smp.name ≠ name)) := by
  refine ⟨addends_eq_iff hparse hname, fun hread => ?_⟩
  have hsum := findMetric_of_readable hparse hname hread
  refine ⟨hsum, ?_⟩
  rw [hsum, total_eq_none_iff, valuesOf_eq_nil_iff]

end

/-! ## Decimal numbers -/

theorem readDecimal_digits {tok : Text} {k : Nat} (h : Metrics.readDecimal tok = some k) :
    ∀ c ∈ tok, isWhitespace c = false ∧ c ≠ '}' := by
  intro c hc
  refine ⟨?_, fun heq => (Metrics.readDecimal_chars h).2.1 (heq ▸ hc)⟩
  unfold Metrics.readDecimal at h
  split_ifs at h with hdigits
  have hdigit : c.isDigit = true := List.all_eq_true.mp hdigits.2 c hc
  exact isWhitespace_of_isNameChar (by rw [isNameChar, hdigit, Bool.or_true])

def decimalNumbers : Numbers Nat Nat where
  toReaders := Metrics.decimals
  parseF64 := Metrics.readDecimal
  value_solid h c hc := (readDecimal_digits h c hc).1
  stamp_solid h c hc := (readDecimal_digits h c hc).1
  parseF64_chars := readDecimal_digits

/-- Labels with spaces and braces, a comment and another metric. -/
def twoSamples : Text :=
  "# up\nup\x7ba=\"b \x7d c\"\x7d 3\nup_total 9\n\tup 4\n".toList

theorem readableIn_twoSamples : decimalNumbers.ReadableIn twoSamples "up".toList := by
  have hlines : sampleLines twoSamples =
      ["up\x7ba=\"b \x7d c\"\x7d 3".toList, "up_total 9".toList, "\tup 4".toList] := by
    decide +kernel
  have hfield : ∀ (front : Text) (c : Char), c ≠ ' ' ∧ c ≠ '\t' →
      LastField ' ' [c] (front ++ [' ', c]) := by
    intro front c hc
    refine ⟨front, [], rfl, rfl, List.cons_ne_nil _ _, ?_, List.forall_mem_nil _⟩
    refine List.forall_mem_singleton.mpr (Bool.eq_false_iff.mpr fun h => ?_)
    exact (isBlank_iff.mp h).elim hc.1 hc.2
  intro l hl smp hsmp hname
  rw [hlines, List.mem_cons, List.mem_cons, List.mem_singleton] at hl
  obtain rfl | rfl | rfl := hl
  · have hread : readSample decimalNumbers.toReaders
        "up\x7ba=\"b \x7d c\"\x7d 3".toList =
          some ⟨"up".toList, [("a".toList, "b \x7d c".toList)], 3, none⟩ := by decide +kernel
    obtain rfl := Option.some.inj (hread.symm.trans hsmp)
    exact ⟨⟨'{', "a=\"b \x7d c\"\x7d 3".toList, by decide +kernel, Or.inr rfl⟩, ['3'],
      hfield "up\x7ba=\"b \x7d c\"\x7d".toList '3' (by decide), by decide +kernel⟩
  · have hread : readSample decimalNumbers.toReaders "up_total 9".toList =
        some ⟨"up_total".toList, [], 9, none⟩ := by decide +kernel
    obtain rfl := Option.some.inj (hread.symm.trans hsmp)
    exact absurd hname (by decide)
  · have hread : readSample decimalNumbers.toReaders "\tup 4".toList =
        some ⟨"up".toList, [], 4, none⟩ := by decide +kernel
    obtain rfl := Option.some.inj (hread.symm.trans hsmp)
    exact ⟨⟨' ', "4".toList, by decide +kernel, Or.inl rfl⟩, ['4'],
      hfield "\tup".toList '4' (by decide), by decide +kernel⟩

theorem find_metric_two_samples :
    findMetric Metrics.readDecimal twoSamples "up".toList = some 7 := by
  have hparse : parse decimalNumbers.toReaders twoSamples =
      some [⟨"up".toList, [("a".toList, "b \x7d c".toList)], 3, none⟩,
        ⟨"up_total".toList, [], 9, none⟩, ⟨"up".toList, [], 4, none⟩] := by decide +kernel
  exact ((find_metric_reads_values_iff decimalNumbers twoSamples "up".toList hparse
    (by decide)).2 readableIn_twoSamples).1.trans (by decide +kernel)

/-- A timestamp is taken for the value; a tab after the name, and a value right after the closing
    brace, hide the sample. -/
theorem find_metric_takes_timestamp :
    (parse Metrics.decimals "up 3 1700\n".toList = some [⟨"up".toList, [], 3, some 1700⟩] ∧
      findMetric Metrics.readDecimal "up 3 1700\n".toList "up".toList = some 1700) ∧
    (parse Metrics.decimals "up\t3\n".toList = some [⟨"up".toList, [], 3, none⟩] ∧
      findMetric Metrics.readDecimal "up\t3\n".toList "up".toList = none) ∧
    (parse Metrics.decimals "up\x7ba=\"b\"\x7d3\n".toList =
        some [⟨"up".toList, [("a".toList, "b".toList)], 3, none⟩] ∧
      findMetric Metrics.readDecimal "up\x7ba=\"b\"\x7d3\n".toList "up".toList = none) := by
  decide +kernel

/-! ## Engine statistics -/

def syntheticTotalBlocks : UInt32 := 10000

/-- `f64::max(x, 0.0)`; of a number that is none, zero. -/
def atLeastZero (x : Float) : Float :=
  if x > 0 then x else 0

/-- `f64::clamp(u, 0.0, 1.0)`. -/
def clampUnit (u : Float) : Float :=
  if u < 0 then 0 else if u > 1 then 1 else u

/-- At least one signal must be present. -/
def build (waiting running usage : Option Float) : Option EngineStats :=
  if waiting.isNone && running.isNone && usage.isNone then none
  else
    let blocks : UInt32 × UInt32 :=
      match usage with
      | some u =>
        (((1 - clampUnit u) * syntheticTotalBlocks.toFloat).round.toUInt32, syntheticTotalBlocks)
      | none => (0, 0)
    some {
      queueDepth := (atLeastZero (waiting.getD 0 + running.getD 0)).toUInt32
      freeBlocks := blocks.1
      totalBlocks := blocks.2 }

/-- The names of an engine's gauges: requests that wait, requests that run, and the use of the
    KV cache. -/
def gaugeNames : EngineKind → Option (Text × Text × Text)
  | .vllm => some ("vllm:num_requests_waiting".toList, "vllm:num_requests_running".toList,
      "vllm:gpu_cache_usage_perc".toList)
  | .sglang => some ("sglang:num_queue_reqs".toList, "sglang:num_running_reqs".toList,
      "sglang:token_usage".toList)
  | _ => none

def parseMetrics (parseF64 : Text → Option Float) (kind : EngineKind) (text : Text) :
    Option EngineStats :=
  (gaugeNames kind).bind fun (waiting, running, usage) =>
    build (findMetric parseF64 text waiting) (findMetric parseF64 text running)
      (findMetric parseF64 text usage)

def hasPrometheusMetrics : EngineKind → Bool
  | .vllm => true
  | .sglang => true
  | _ => false

/-- `response` is the body that the engine answers with, if it answers. -/
def scrape (parseF64 : Text → Option Float) (kind : EngineKind) (response : Option Text) :
    Option EngineStats :=
  if hasPrometheusMetrics kind then response.bind (parseMetrics parseF64 kind) else none

/-- The gauges an engine is asked for have names of metrics. -/
theorem metricName_gaugeNames {kind : EngineKind} {waiting running usage : Text}
    (h : gaugeNames kind = some (waiting, running, usage)) :
    MetricName waiting ∧ MetricName running ∧ MetricName usage := by
  cases kind with
  | vllm =>
    cases h
    decide
  | sglang =>
    cases h
    decide
  | _ => exact nomatch h

/-- Where the lines of the three gauges are readable, the statistics are built from the sums of
    their samples. -/
theorem parseMetrics_of_readable {T : Type} (n : Numbers Float T) {kind : EngineKind} {body : Text}
    {samples : List (Sample Float T)} {waiting running usage : Text}
    (hnames : gaugeNames kind = some (waiting, running, usage))
    (hparse : parse n.toReaders body = some samples) (hwaiting : n.ReadableIn body waiting)
    (hrunning : n.ReadableIn body running) (husage : n.ReadableIn body usage) :
    parseMetrics n.parseF64 kind body =
      build (total (valuesOf waiting samples)) (total (valuesOf running samples))
        (total (valuesOf usage samples)) := by
  obtain ⟨hw, hr, hu⟩ := metricName_gaugeNames hnames
  rw [parseMetrics, hnames, Option.bind_some, ← findMetric_of_readable hparse hw hwaiting,
    ← findMetric_of_readable hparse hr hrunning, ← findMetric_of_readable hparse hu husage]

/-- An engine without metrics of its own gives no statistics, whatever it answers. -/
theorem scrape_of_gaugeNames (parseF64 : Text → Option Float) (kind : EngineKind)
    (response : Option Text) :
    scrape parseF64 kind response = response.bind (parseMetrics parseF64 kind) := by
  unfold scrape
  split_ifs with hkind
  · rfl
  · have hnone : gaugeNames kind = none := by
      cases kind with
      | vllm => exact absurd rfl hkind
      | sglang => exact absurd rfl hkind
      | _ => rfl
    cases response with
    | none => rfl
    | some text => rw [Option.bind_some, parseMetrics, hnone, Option.bind_none]

end Cognitora.Agent
