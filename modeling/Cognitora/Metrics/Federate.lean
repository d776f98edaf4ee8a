/-
  The federated body (cgn-metrics `src/scraper.rs`, `scrape_once`; `src/main.rs`, `federate`).

  The decorated bodies of the targets that answered are served one after the other. Each keeps
  its HELP and TYPE lines and its own order of samples. `federation_valid`: what is served is valid
  exactly if each body is valid with the families of all TYPE lines, no family has a HELP line, or
  a TYPE line, in two bodies or behind its samples in another one, and a family with samples in
  two bodies stands at the end of the one and at the beginning of the other. So it is if no family
  occurs in two targets (`compatible_of_separate`).

  A family may be shared through a TYPE line alone: with `x` declared a summary by one target,
  the sample `x_sum` of another belongs to it.
-/
import Cognitora.Lib.MetricFamilies
import Cognitora.Metrics.Scraper

namespace Cognitora.Metrics

open Cognitora.Auth (Text isWhitespace)
open Cognitora.Lib Cognitora.Lib.Exposition

/-! ## The federated body -/

/-- One round of the loop over the handles. -/
def pushBody (out : Text) : Option Text → Text
  | none => out
  | some body => (if out.isEmpty then out else out ++ ['\n']) ++ body

/-- `scrape_once`, for targets with the body that `fetch` returns, if it does. -/
def scrapeOnce (targets : List (Text × Option Text)) : Text :=
  (targets.map fun t => t.2.map (decorateWithTarget · t.1)).foldl pushBody []

/-- `federate`: the status and the body, for the cache's snapshot. -/
def federate (cache : Text) : Nat × Text :=
  if cache.isEmpty then (503, "no scrape targets configured or first scrape pending".toList)
  else (200, cache)

/-- The targets that answered, with their bodies. -/
def answered (targets : List (Text × Option Text)) : List (Text × Text) :=
  targets.filterMap fun t => t.2.map (t.1, ·)

section

variable {V T : Type}

/-- The entries of a body that can be read. -/
def entriesOf (r : Readers V T) (body : Text) : List (Entry V T) :=
  (entries r body).getD []

/-- A target with a valid body whose lines can be decorated. -/
structure Federable (r : Readers V T) (t : Text × Text) : Prop where
  valid : ValidBody r t.2
  plain : ∀ line ∈ sampleLines t.2, Plain line
  free : ∀ s ∈ (entriesOf r t.2).filterMap Entry.sample?, targetKey ∉ s.labels.map Prod.fst
  oneLine : '\n' ∉ t.1

/-- The TYPE lines of all targets. -/
def typesOf (r : Readers V T) (ts : List (Text × Text)) : List (Text × Kind) :=
  ts.flatMap fun t => (entriesOf r t.2).filterMap Entry.declared

/-- The families a target has lines of, among the other targets. -/
def familiesOf (r : Readers V T) (ts : List (Text × Text)) (t : Text × Text) : List Text :=
  (entriesOf r t.2).map (Entry.family (familyOf (typesOf r ts)))

/-- No family occurs in two targets. -/
def Separate (r : Readers V T) (ts : List (Text × Text)) : Prop :=
  ts.Pairwise fun a b => (familiesOf r ts a).Disjoint (familiesOf r ts b)

/-- The bodies are valid with the TYPE lines of all of them, and each joins those behind it. -/
structure Compatible (r : Readers V T) (ts : List (Text × Text)) : Prop where
  own : ∀ t ∈ ts, ValidFor (familyOf (typesOf r ts)) (entriesOf r t.2)
  chained : Chained (familyOf (typesOf r ts)) (ts.map fun t => entriesOf r t.2)

/-- The entries served for a target. -/
def served (r : Readers V T) (t : Text × Text) : List (Entry V T) :=
  (entriesOf r t.2).map (Entry.withLabel targetKey t.1)

instance (r : Readers V T) (t : Text × Text) : Decidable (Federable r t) :=
  decidable_of_iff
    (ValidBody r t.2 ∧ (∀ line ∈ sampleLines t.2, Plain line) ∧
      (∀ s ∈ (entriesOf r t.2).filterMap Entry.sample?, targetKey ∉ s.labels.map Prod.fst) ∧
      '\n' ∉ t.1)
    ⟨fun ⟨h₁, h₂, h₃, h₄⟩ => ⟨h₁, h₂, h₃, h₄⟩, fun ⟨h₁, h₂, h₃, h₄⟩ => ⟨h₁, h₂, h₃, h₄⟩⟩

instance (r : Readers V T) (ts : List (Text × Text)) : Decidable (Compatible r ts) :=
  decidable_of_iff
    ((∀ t ∈ ts, ValidFor (familyOf (typesOf r ts)) (entriesOf r t.2)) ∧
      Chained (familyOf (typesOf r ts)) (ts.map fun t => entriesOf r t.2))
    ⟨fun ⟨h₁, h₂⟩ => ⟨h₁, h₂⟩, fun ⟨h₁, h₂⟩ => ⟨h₁, h₂⟩⟩

end

/-! ## The lines served for one target -/

theorem readComment_of_keyword {text keyword : List Char} {tail : List (List Char)}
    (h : words isBlank text = keyword :: tail) (hhelp : keyword ≠ "HELP".toList)
    (htype : keyword ≠ "TYPE".toList) : readComment text = some .other := by
  unfold readComment
  rw [h]
  cases tail with
  | nil => rfl
  | cons name rest =>
    dsimp only
    rw [if_neg hhelp, if_neg htype]

section

variable {V T : Type} {r : Readers V T}

/-- The header is a comment that declares nothing, whatever the target's name. -/
theorem readEntry_header (target : Text) : readEntry r (header target) = some [] := by
  have hsolid : ∀ c ∈ "cgn-metrics:".toList, isBlank c = false := by
    have hall : ("cgn-metrics:".toList.all fun c => !isBlank c) = true := by decide
    intro c hc
    simpa using List.all_eq_true.mp hall c hc
  have hblank : ∀ c ∈ ((" federated from target ".toList ++ target).head?), isBlank c = true := by
    intro c hc
    obtain rfl : ' ' = c := Option.some.inj hc
    rfl
  have hwords : words isBlank (" cgn-metrics: federated from target ".toList ++ target) =
      "cgn-metrics:".toList :: words isBlank (" federated from target ".toList ++ target) :=
    words_append_word (List.forall_mem_singleton.mpr (rfl : isBlank ' ' = true)) (by decide)
      hsolid hblank
  have hcomment := readComment_of_keyword hwords (by decide) (by decide)
  have hdrop : (header target).dropWhile isBlank =
      '#' :: (" cgn-metrics: federated from target ".toList ++ target) := rfl
  rw [readEntry_passedOver (passedOver_header target), hdrop]
  show (readComment _).map Comment.entries = _
  rw [hcomment]
  rfl

theorem map_withLabel_of_passedOver {l : Text} {es : List (Entry V T)} (k v : Text)
    (hpass : passedOver l = true) (h : readEntry r l = some es) :
    es.map (Entry.withLabel k v) = es := by
  rw [readEntry_passedOver hpass] at h
  cases hrest : l.dropWhile isBlank with
  | nil =>
    rw [hrest] at h
    exact Option.some.inj h ▸ rfl
  | cons c text =>
    rw [hrest] at h
    obtain ⟨comment, -, rfl⟩ := Option.map_eq_some_iff.mp h
    cases comment <;> rfl

/-- The entry of a line that is served. -/
theorem readEntry_decorated {piece : Text} {es : List (Entry V T)} (target : Text)
    (h : readEntry r (unterminated piece) = some es)
    (hplain : passedOver (unterminated piece) = false → Plain (unterminated piece))
    (hfree : ∀ s ∈ es.filterMap Entry.sample?, targetKey ∉ s.labels.map Prod.fst) :
    readEntry r (decorateLine target (chomp piece)) =
      some (es.map (Entry.withLabel targetKey target)) := by
  cases hpass : passedOver (unterminated piece) with
  | true =>
    rw [map_withLabel_of_passedOver targetKey target hpass h]
    obtain heq | heq := chomp_or_unterminated piece
    · rw [heq, decorateLine_passedOver hpass, h]
    · rw [heq] at hpass h
      rw [decorateLine_passedOver (passedOver_of_concat hpass)]
      exact readEntry_of_concat hpass h
  | false =>
    rw [readEntry, hpass, if_neg Bool.false_ne_true] at h
    obtain ⟨smp, hsmp, rfl⟩ := Option.map_eq_some_iff.mp h
    have hkey : targetKey ∉ smp.labels.map Prod.fst := hfree smp List.mem_cons_self
    obtain ⟨hout, hiff⟩ := decorateLine_sample hsmp hkey target
    rw [chomp_of_readSample hsmp, readEntry, hout, if_neg Bool.false_ne_true,
      hiff.mpr (hplain hpass)]
    rfl

theorem readEntries_decorated (pieces : List Text) {es : List (Entry V T)} (target : Text)
    (h : readEntries r (pieces.map unterminated) = some es)
    (hplain : ∀ line ∈ (pieces.map unterminated).filter fun l => !passedOver l, Plain line)
    (hfree : ∀ s ∈ es.filterMap Entry.sample?, targetKey ∉ s.labels.map Prod.fst) :
    readEntries r (pieces.map fun piece => decorateLine target (chomp piece)) =
      some (es.map (Entry.withLabel targetKey target)) := by
  induction pieces generalizing es with
  | nil => exact Option.some.inj h ▸ rfl
  | cons piece pieces ih =>
    rw [List.map_cons, readEntries] at h
    obtain ⟨e, he, h⟩ := Option.bind_eq_some_iff.mp h
    obtain ⟨rest, hrest, rfl⟩ := Option.map_eq_some_iff.mp h
    rw [List.filterMap_append] at hfree
    have hline : passedOver (unterminated piece) = false → Plain (unterminated piece) := by
      intro hpass
      exact hplain _ (List.mem_filter.mpr ⟨List.mem_cons_self, by rw [hpass]; rfl⟩)
    have hlines : ∀ line ∈ (pieces.map unterminated).filter fun l => !passedOver l,
        Plain line := by
      intro line hmem
      obtain ⟨hmem, hpass⟩ := List.mem_filter.mp hmem
      exact hplain line (List.mem_filter.mpr ⟨List.mem_cons_of_mem _ hmem, hpass⟩)
    have hfirst := readEntry_decorated target he hline
      fun s hs => hfree s (List.mem_append_left _ hs)
    have hothers := ih hrest hlines fun s hs => hfree s (List.mem_append_right _ hs)
    rw [List.map_cons, readEntries, hfirst, hothers, List.map_append]
    rfl

theorem entries_eq_of_federable {t : Text × Text} (h : Federable r t) :
    entries r t.2 = some (entriesOf r t.2) := by
  obtain ⟨es, hes, -⟩ := h.valid
  rw [entriesOf, hes]
  rfl

/-- The lines of a target are read as its entries, the samples with the target's label. -/
theorem readEntries_decoratedLines {name body : Text} (h : Federable r (name, body)) :
    readEntries r (decoratedLines body name) = some (served r (name, body)) := by
  have hlines : readEntries r ((splitInclusive body).map (decorateLine name ∘ chomp)) =
      some (served r (name, body)) :=
    readEntries_decorated (splitInclusive body) name (entries_eq_of_federable h) h.plain h.free
  rw [decoratedLines, readEntries, readEntry_header, lines, List.map_map, Option.bind_some, hlines]
  rfl

/-! ## The loop -/

/-- The lines so far and those of one more target, with an empty line between them. -/
def joined (ls more : List Text) : List Text :=
  if ls = [] then more else ls ++ [] :: more

theorem newline_not_mem_joined {ls more : List Text} (hls : ∀ l ∈ ls, '\n' ∉ l)
    (hmore : ∀ l ∈ more, '\n' ∉ l) : ∀ l ∈ joined ls more, '\n' ∉ l := by
  unfold joined
  split_ifs
  · exact hmore
  · refine List.forall_mem_append.mpr ⟨hls, List.forall_mem_cons.mpr ⟨?_, hmore⟩⟩
    exact List.not_mem_nil

theorem readEntries_joined {ls more : List Text} {es es' : List (Entry V T)}
    (hls : readEntries r ls = some es) (hmore : readEntries r more = some es') :
    readEntries r (joined ls more) = some (es ++ es') := by
  unfold joined
  split_ifs with hnil
  · rw [hnil] at hls
    rw [hmore, ← Option.some.inj hls]
    rfl
  · rw [readEntries_append, hls, Option.bind_some, readEntries, hmore]
    rfl

/-- One round: the lines of the target are added. -/
theorem pushBody_endLines (ls : List Text) (body target : Text) :
    pushBody (endLines ls) (some (decorateWithTarget body target)) =
      endLines (joined ls (decoratedLines body target)) := by
  rw [decorateWithTarget_eq, pushBody, joined]
  by_cases hnil : ls = []
  · rw [if_pos hnil, hnil]
    rfl
  · have hne : (endLines ls).isEmpty = false := by
      obtain ⟨l, rest, rfl⟩ := List.exists_cons_of_ne_nil hnil
      simp [endLines]
    rw [if_neg hnil, hne, if_neg Bool.false_ne_true]
    simp [endLines]

theorem answered_cons_some (name body : Text) (rest : List (Text × Option Text)) :
    answered ((name, some body) :: rest) = (name, body) :: answered rest := rfl

/-- What the loop has put together can be read, and has the entries of the targets so far. -/
theorem exists_foldl_pushBody (targets : List (Text × Option Text))
    (hgood : ∀ t ∈ answered targets, Federable r t) {ls : List Text} {es : List (Entry V T)}
    (hls : ∀ l ∈ ls, '\n' ∉ l) (hes : readEntries r ls = some es) :
    ∃ ls', (targets.map fun t => t.2.map (decorateWithTarget · t.1)).foldl pushBody
        (endLines ls) = endLines ls' ∧ (∀ l ∈ ls', '\n' ∉ l) ∧
      readEntries r ls' = some (es ++ (answered targets).flatMap (served r)) := by
  induction targets generalizing ls es with
  | nil => exact ⟨ls, rfl, hls, by rw [hes]; simp [answered]⟩
  | cons t targets ih =>
    obtain ⟨name, response⟩ := t
    cases response with
    | none => exact ih hgood hls hes
    | some body =>
      rw [answered_cons_some] at hgood ⊢
      obtain ⟨ht, hrest⟩ := List.forall_mem_cons.mp hgood
      have hlines := newline_not_mem_joined hls (newline_not_mem_decoratedLines body ht.oneLine)
      have hentries := readEntries_joined hes (readEntries_decoratedLines ht)
      rw [List.map_cons, List.foldl_cons, Option.map_some, pushBody_endLines, List.flatMap_cons,
        ← List.append_assoc]
      exact ih hrest hlines hentries

theorem entries_scrapeOnce (targets : List (Text × Option Text))
    (hgood : ∀ t ∈ answered targets, Federable r t) :
    entries r (scrapeOnce targets) = some ((answered targets).flatMap (served r)) := by
  have hstart : readEntries r [] = some [] := rfl
  obtain ⟨ls, hout, hls, hes⟩ :=
    exists_foldl_pushBody targets hgood (List.forall_mem_nil _) hstart
  have hscrape : scrapeOnce targets = endLines ls := hout
  rw [entries, hscrape, bodyLines_endLines hls, hes, List.nil_append]

theorem pushBody_decorated_ne_nil (out body target : Text) :
    pushBody out (some (decorateWithTarget body target)) ≠ [] := by
  rw [decorateWithTarget_eq, pushBody, decoratedLines]
  intro h
  exact absurd (List.append_eq_nil_iff.mp h).2 (by simp [endLines])

theorem foldl_pushBody_eq_nil_iff (targets : List (Text × Option Text)) (out : Text) :
    (targets.map fun t => t.2.map (decorateWithTarget · t.1)).foldl pushBody out = [] ↔
      out = [] ∧ answered targets = [] := by
  induction targets generalizing out with
  | nil => exact (and_iff_left rfl).symm
  | cons t targets ih =>
    obtain ⟨name, response⟩ := t
    cases response with
    | none => exact ih out
    | some body =>
      rw [List.map_cons, List.foldl_cons, ih, answered_cons_some]
      refine iff_of_false (fun h => ?_) (fun h => nomatch h.2)
      exact pushBody_decorated_ne_nil out body name h.1

theorem scrapeOnce_eq_nil_iff (targets : List (Text × Option Text)) :
    scrapeOnce targets = [] ↔ answered targets = [] :=
  (foldl_pushBody_eq_nil_iff targets []).trans (and_iff_right rfl)

/-- Once a target has answered, what the scraper put together is what `/federate` serves. -/
theorem federate_scrapeOnce {targets : List (Text × Option Text)} (h : answered targets ≠ []) :
    federate (scrapeOnce targets) = (200, scrapeOnce targets) := by
  have hne : (scrapeOnce targets).isEmpty = false := by
    rw [List.isEmpty_eq_false_iff, Ne, scrapeOnce_eq_nil_iff]
    exact h
  rw [federate, hne, if_neg Bool.false_ne_true]

/-! ## Validity of the whole -/

theorem answered_names_sublist (targets : List (Text × Option Text)) :
    ((answered targets).map Prod.fst).Sublist (targets.map Prod.fst) := by
  induction targets with
  | nil => exact List.Sublist.refl _
  | cons t targets ih =>
    obtain ⟨name, response⟩ := t
    cases response with
    | none => exact ih.cons name
    | some body => exact ih.cons_cons name

variable {ts : List (Text × Text)}

theorem declared_served (ts : List (Text × Text)) :
    (ts.flatMap (served r)).filterMap Entry.declared = typesOf r ts := by
  rw [List.filterMap_flatMap]
  exact congrArg ts.flatMap (funext fun t => filterMap_declared_withLabel _ _ _)

theorem declared_subset_typesOf {t : Text × Text} (ht : t ∈ ts) :
    (entriesOf r t.2).filterMap Entry.declared ⊆ typesOf r ts :=
  fun _ hd => List.mem_flatMap.mpr ⟨t, ht, hd⟩

/-- The body is valid if the entries are, with the families of all TYPE lines. -/
theorem validBody_scrapeOnce_iff {targets : List (Text × Option Text)}
    (hgood : ∀ t ∈ answered targets, Federable r t) :
    ValidBody r (scrapeOnce targets) ↔ ValidFor (familyOf (typesOf r (answered targets)))
      ((answered targets).flatMap (served r)) := by
  rw [ValidBody, entries_scrapeOnce targets hgood, ← declared_served]
  constructor
  · rintro ⟨es, hes, hvalid⟩
    rw [Option.some.inj hes]
    exact hvalid
  · intro hvalid
    exact ⟨_, rfl, hvalid⟩

/-- The samples of two targets are of different series, by the label of the target. -/
theorem served_series_ne {a b : Text × Text} (hb : Federable r b) (hne : a.1 ≠ b.1) :
    ∀ s ∈ (served r a).filterMap Entry.sample?, ∀ t ∈ (served r b).filterMap Entry.sample?,
      ¬ s.SameSeries t := by
  rw [served, served, filterMap_sample_withLabel, filterMap_sample_withLabel]
  intro s hs t ht
  obtain ⟨s₀, -, rfl⟩ := List.mem_map.mp hs
  obtain ⟨t₀, ht₀, rfl⟩ := List.mem_map.mp ht
  exact not_sameSeries_withLabel targetKey a.1 (hb.free t₀ ht₀) hne

/-- The label of the target plays no part in how its entries join others. -/
theorem chained_served_iff {fam : Text → Text} :
    Chained fam (ts.map (served r)) ↔ Chained fam (ts.map fun t => entriesOf r t.2) := by
  induction ts with
  | nil => exact Iff.rfl
  | cons t ts ih =>
    have hhelp : helpNames (ts.map (served r)).flatten =
        helpNames (ts.map fun t => entriesOf r t.2).flatten := by
      simp only [helpNames, List.filterMap_flatten, List.map_map]
      exact congrArg (fun f => (ts.map f).flatten) (funext fun t => helpNames_withLabel _ _ _)
    have htype : typeNames (ts.map (served r)).flatten =
        typeNames (ts.map fun t => entriesOf r t.2).flatten := by
      simp only [typeNames, List.filterMap_flatten, List.map_map, List.map_flatten]
      exact congrArg (fun f => (ts.map f).flatten) (funext fun t => typeNames_withLabel _ _ _)
    have hsampled : sampled fam (ts.map (served r)).flatten =
        sampled fam (ts.map fun t => entriesOf r t.2).flatten := by
      simp only [sampled, List.filter_flatten, List.map_map, List.map_flatten]
      exact congrArg (fun f => (ts.map f).flatten) (funext fun t => sampled_withLabel _ _ _)
    rw [List.map_cons, List.map_cons, Chained, Chained, ih]
    refine and_congr_left fun _ => ⟨fun h => ?_, fun h => ?_⟩
    · obtain ⟨h₁, h₂, h₃, h₄⟩ := h
      rw [served, helpNames_withLabel, hhelp] at h₁
      rw [served, typeNames_withLabel, htype] at h₂
      rw [served, sampled_withLabel, hhelp, htype] at h₃
      rw [served, sampled_withLabel, hsampled] at h₄
      exact ⟨h₁, h₂, h₃, h₄⟩
    · obtain ⟨h₁, h₂, h₃, h₄⟩ := h
      refine ⟨?_, ?_, ?_, ?_⟩
      · rw [served, helpNames_withLabel, hhelp]
        exact h₁
      · rw [served, typeNames_withLabel, htype]
        exact h₂
      · rw [served, sampled_withLabel, hhelp, htype]
        exact h₃
      · rw [served, sampled_withLabel, hsampled]
        exact h₄

theorem validFor_served_iff (hnames : ts.Pairwise fun a b => a.1 ≠ b.1)
    (hgood : ∀ t ∈ ts, Federable r t) :
    ValidFor (familyOf (typesOf r ts)) (ts.flatMap (served r)) ↔ Compatible r ts := by
  have hseries : (ts.map (served r)).Pairwise fun a b => ∀ s ∈ a.filterMap Entry.sample?,
      ∀ t ∈ b.filterMap Entry.sample?, ¬ s.SameSeries t := by
    rw [List.pairwise_map]
    exact hnames.imp_of_mem fun _ hb hne => served_series_ne (hgood _ hb) hne
  rw [List.flatMap_def, validFor_flatten_iff hseries, chained_served_iff, List.forall_mem_map]
  simp only [served, validFor_withLabel_iff]
  exact ⟨fun h => ⟨h.1, h.2⟩, fun h => ⟨h.own, h.chained⟩⟩

/-! ## Targets with nothing in common -/

/-- Among targets with nothing in common, a name is in the family it has in its own body: a TYPE
    line elsewhere that says otherwise would be a line of that family. -/
theorem familyOf_of_separate (hsep : Separate r ts) {t : Text × Text} (ht : t ∈ ts)
    {s : Sample V T} (hs : s ∈ (entriesOf r t.2).filterMap Entry.sample?) :
    familyOf ((entriesOf r t.2).filterMap Entry.declared) s.name =
      familyOf (typesOf r ts) s.name := by
  refine familyOf_congr (declared_subset_typesOf ht) fun kind hkind => ?_
  obtain ⟨u, hu, hdecl⟩ := List.mem_flatMap.mp hkind
  have hin : familyOf (typesOf r ts) s.name ∈ familiesOf r ts u :=
    mem_families_of_declared (List.mem_map_of_mem hdecl)
  have hown : familyOf (typesOf r ts) s.name ∈ familiesOf r ts t := by
    obtain ⟨e, he, hes⟩ := List.mem_filterMap.mp hs
    exact List.mem_map.mpr ⟨e, he, family_of_sample hes⟩
  by_cases heq : t = u
  · rw [heq]
    exact hdecl
  · have hsymm : Std.Symm fun a b => (familiesOf r ts a).Disjoint (familiesOf r ts b) :=
      ⟨fun _ _ h => List.disjoint_symm h⟩
    exact absurd hin (hsep.forall ht hu heq hown)

theorem compatible_of_separate (hgood : ∀ t ∈ ts, Federable r t) (hsep : Separate r ts) :
    Compatible r ts := by
  refine ⟨fun t ht => ?_, Chained.of_disjoint (List.pairwise_map.mpr hsep)⟩
  obtain ⟨es, hes, hvalid⟩ := (hgood t ht).valid
  have hown : entriesOf r t.2 = es := by
    rw [entriesOf, hes]
    rfl
  rw [← hown] at hvalid
  exact hvalid.congr fun s hs => familyOf_of_separate hsep ht hs

end

/-- Targets with distinct names and valid bodies: what is served for those that answered is valid
    exactly if their bodies are compatible. -/
theorem federation_valid {V T : Type} (r : Readers V T) (targets : List (Text × Option Text))
    (hnames : (targets.map Prod.fst).Nodup) (hgood : ∀ t ∈ answered targets, Federable r t) :
    ValidBody r (scrapeOnce targets) ↔ Compatible r (answered targets) := by
  have hdistinct : (answered targets).Pairwise fun a b => a.1 ≠ b.1 :=
    List.pairwise_map.mp (hnames.sublist (answered_names_sublist targets))
  rw [validBody_scrapeOnce_iff hgood, validFor_served_iff hdistinct hgood]

/-- The samples of `up` stand at the end of the first body and at the beginning of the last. -/
theorem federation_of_neighbours :
    ValidBody decimals (scrapeOnce [("a".toList, some "# TYPE x gauge\nx 1\nup 1\n".toList),
      ("b".toList, none), ("c".toList, some "up 1\ny\x7bk=\"v\"\x7d 2\n".toList)]) :=
  (federation_valid decimals _ (by decide +kernel) (by decide +kernel)).mpr (by decide +kernel)

/-- Two targets that answer the same. -/
def alike (body : Text) : List (Text × Option Text) :=
  [("a".toList, some body), ("b".toList, some body)]

/-- Two targets with the same body: it is served with two TYPE lines for `up`, and without TYPE
    lines the samples of `up` are in two groups. -/
theorem shared_family_breaks_federation :
    ((∀ t ∈ answered (alike "# TYPE up gauge\nup 1\n".toList), Federable decimals t) ∧
      (federate (scrapeOnce (alike "# TYPE up gauge\nup 1\n".toList))).1 = 200 ∧
      ¬ ValidBody decimals (federate (scrapeOnce (alike "# TYPE up gauge\nup 1\n".toList))).2) ∧
    (∀ t ∈ answered (alike "up 1\nx 1\n".toList), Federable decimals t) ∧
      (federate (scrapeOnce (alike "up 1\nx 1\n".toList))).1 = 200 ∧
      ¬ ValidBody decimals (federate (scrapeOnce (alike "up 1\nx 1\n".toList))).2 := by
  decide +kernel

end Cognitora.Metrics
