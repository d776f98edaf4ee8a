/-
  Metric families of the text format, version 0.0.4.

  A body is read as entries: the HELP and TYPE lines among its comments, and its samples. A
  sample belongs to the family of its name, or, if the name ends as the parts of a histogram or a
  summary do, to the family that is declared as such. A body is valid if every line can be read
  and its entries are: at most one HELP and one TYPE line for a family, each before the family's
  samples, the samples of a family in one group, and no series twice.

  `Valid` takes the families from the TYPE lines of the whole body. `ValidFor` has them as a
  parameter, and then holds of bodies one after the other exactly if it holds of each and each
  one joins those behind it, where no series occurs in two (`validFor_append_iff`,
  `validFor_flatten_iff`). `familyOf_congr` says when more TYPE lines leave the family of a name
  alone.

  A comment that stops before its name or type is no declaration. Docstrings are only checked for
  their escapes.
-/
import Cognitora.Lib.Exposition
import Mathlib.Data.List.Nodup

namespace Cognitora.Lib.Exposition

/-! ## Comments -/

inductive Kind where
  | counter
  | gauge
  | histogram
  | summary
  | untyped
  deriving DecidableEq

def Kind.read (tok : List Char) : Option Kind :=
  if tok = "counter".toList then some .counter
  else if tok = "gauge".toList then some .gauge
  else if tok = "histogram".toList then some .histogram
  else if tok = "summary".toList then some .summary
  else if tok = "untyped".toList then some .untyped
  else none

inductive Comment where
  | help (name : List Char)
  | type (name : List Char) (kind : Kind)
  | other
  deriving DecidableEq

def isMetricName : List Char → Bool
  | [] => false
  | c :: rest => isNameStart c && rest.all isNameChar

/-- One character of a docstring; the state says whether a backslash is open, and is lost after
    one that escapes nothing. -/
def escapeStep : Option Bool → Char → Option Bool
  | none, _ => none
  | some true, c => if c = '\\' ∨ c = 'n' then some false else none
  | some false, c => some (c == '\\')

def escapesWell (text : List Char) : Bool :=
  text.foldl escapeStep (some false) == some false

def readKind (name : List Char) : List (List Char) → Option Comment
  | [] => some .other
  | [kind] => (Kind.read kind).map (.type name)
  | _ => none

/-- What stands after the hash sign. -/
def readComment (text : List Char) : Option Comment :=
  match words isBlank text with
  | keyword :: name :: rest =>
    if keyword = "HELP".toList then
      if isMetricName name && escapesWell text then some (.help name) else none
    else if keyword = "TYPE".toList then
      if isMetricName name then readKind name rest else none
    else some .other
  | _ => some .other

/-! ## Entries -/

inductive Entry (V T : Type) where
  | help (name : List Char)
  | type (name : List Char) (kind : Kind)
  | sample (s : Sample V T)
  deriving DecidableEq

section

variable {V T : Type}

def Comment.entries : Comment → List (Entry V T)
  | .help name => [.help name]
  | .type name kind => [.type name kind]
  | .other => []

variable (r : Readers V T)

/-- The entry of a line, if it has one. -/
def readEntry (l : List Char) : Option (List (Entry V T)) :=
  if passedOver l then
    match l.dropWhile isBlank with
    | [] => some []
    | _ :: text => (readComment text).map Comment.entries
  else (readSample r l).map fun s => [.sample s]

def readEntries : List (List Char) → Option (List (Entry V T))
  | [] => some []
  | l :: ls => (readEntry r l).bind fun e => (readEntries ls).map (e ++ ·)

def entries (body : List Char) : Option (List (Entry V T)) :=
  readEntries r (bodyLines body)

end

namespace Entry

variable {V T : Type}

def helpName : Entry V T → Option (List Char)
  | .help name => some name
  | _ => none

def declared : Entry V T → Option (List Char × Kind)
  | .type name kind => some (name, kind)
  | _ => none

def sample? : Entry V T → Option (Sample V T)
  | .sample s => some s
  | _ => none

def isSample : Entry V T → Bool
  | .sample _ => true
  | _ => false

/-- The family the entry is about, where `fam` gives that of a sample's name. -/
def family (fam : List Char → List Char) : Entry V T → List Char
  | .help name => name
  | .type name _ => name
  | .sample s => fam s.name

end Entry

/-! ## Validity -/

/-- Equal elements stand together. -/
def Contiguous {α : Type} [DecidableEq α] : List α → Prop
  | [] => True
  | x :: l => x ∉ l.dropWhile (· = x) ∧ Contiguous l

instance decidableContiguous {α : Type} [DecidableEq α] :
    (l : List α) → Decidable (Contiguous l)
  | [] => isTrue trivial
  | x :: l =>
    have := decidableContiguous l
    inferInstanceAs (Decidable (x ∉ l.dropWhile (· = x) ∧ Contiguous l))

section

variable {V T : Type}

/-- The same name and labels, in any order. -/
def Sample.SameSeries (s t : Sample V T) : Prop :=
  s.name = t.name ∧ s.labels.Perm t.labels

/-- The families with a HELP line, in order. -/
def helpNames (es : List (Entry V T)) : List (List Char) :=
  es.filterMap Entry.helpName

/-- The families with a TYPE line, in order. -/
def typeNames (es : List (Entry V T)) : List (List Char) :=
  (es.filterMap Entry.declared).map Prod.fst

/-- The families of the samples, in order. -/
def sampled (fam : List Char → List Char) (es : List (Entry V T)) : List (List Char) :=
  (es.filter Entry.isSample).map (Entry.family fam)

structure ValidFor (fam : List Char → List Char) (es : List (Entry V T)) : Prop where
  help_once : (helpNames es).Nodup
  type_once : (typeNames es).Nodup
  declared_first : es.Pairwise fun a b =>
    a.isSample = true → b.isSample = false → a.family fam ≠ b.family fam
  contiguous : Contiguous (sampled fam es)
  distinct : (es.filterMap Entry.sample?).Pairwise fun s t => ¬ s.SameSeries t

end

section

variable {V T : Type}

instance (s t : Sample V T) : Decidable (s.SameSeries t) :=
  inferInstanceAs (Decidable (s.name = t.name ∧ s.labels.Perm t.labels))

instance (fam : List Char → List Char) (es : List (Entry V T)) : Decidable (ValidFor fam es) :=
  decidable_of_iff
    ((helpNames es).Nodup ∧ (typeNames es).Nodup ∧
      (es.Pairwise fun a b =>
        a.isSample = true → b.isSample = false → a.family fam ≠ b.family fam) ∧
      Contiguous (sampled fam es) ∧
      (es.filterMap Entry.sample?).Pairwise fun s t => ¬ s.SameSeries t)
    ⟨fun ⟨h₁, h₂, h₃, h₄, h₅⟩ => ⟨h₁, h₂, h₃, h₄, h₅⟩,
      fun ⟨h₁, h₂, h₃, h₄, h₅⟩ => ⟨h₁, h₂, h₃, h₄, h₅⟩⟩

end

/-- The endings of the names in a histogram or a summary, with the types that have them. -/
def partEndings : List (List Char × List Kind) :=
  [("_sum".toList, [.summary, .histogram]), ("_count".toList, [.summary, .histogram]),
    ("_bucket".toList, [.histogram])]

/-- The declared family that has `name` as a part with this ending. -/
def partOf (types : List (List Char × Kind)) (name : List Char)
    (ending : List Char × List Kind) : Option (List Char) :=
  let base := name.take (name.length - ending.1.length)
  if base ++ ending.1 = name ∧ ending.2.any (fun k => types.contains (base, k)) = true then
    some base
  else none

/-- The family of a sample's name. -/
def familyOf (types : List (List Char × Kind)) (name : List Char) : List Char :=
  if (types.map Prod.fst).contains name then name
  else (partEndings.findSome? (partOf types name)).getD name

section

variable {V T : Type}

def Valid (es : List (Entry V T)) : Prop :=
  ValidFor (familyOf (es.filterMap Entry.declared)) es

/-- A body that is valid in the format. -/
def ValidBody (r : Readers V T) (body : List Char) : Prop :=
  ∃ es, entries r body = some es ∧ Valid es

instance (es : List (Entry V T)) : Decidable (Valid es) :=
  inferInstanceAs (Decidable (ValidFor _ es))

instance (r : Readers V T) (body : List Char) : Decidable (ValidBody r body) :=
  decidable_of_iff ((entries r body).any fun es => decide (Valid es))
    ((Option.any_eq_true _ _).trans
      (exists_congr fun _ => and_congr_right fun _ => decide_eq_true_iff))

end

/-! ## A carriage return at the end of a comment -/

theorem Kind.return_not_mem {tok : List Char} {kind : Kind} (h : Kind.read tok = some kind) :
    '\r' ∉ tok := by
  unfold Kind.read at h
  split_ifs at h with h₁ h₂ h₃ h₄ h₅
  · exact h₁ ▸ by decide
  · exact h₂ ▸ by decide
  · exact h₃ ▸ by decide
  · exact h₄ ▸ by decide
  · exact h₅ ▸ by decide

theorem isMetricName_concat_return (w : List Char) : isMetricName (w ++ ['\r']) = false := by
  cases w with
  | nil => rfl
  | cons c w =>
    have hreturn : isNameChar '\r' = false := by decide
    rw [List.cons_append, isMetricName, List.all_append, List.all_cons, hreturn, Bool.false_and,
      Bool.and_false, Bool.and_false]

theorem escapesWell_of_concat {text : List Char} (h : escapesWell (text ++ ['\r']) = true) :
    escapesWell text = true := by
  unfold escapesWell at h ⊢
  rw [List.foldl_append] at h
  cases hstate : text.foldl escapeStep (some false) with
  | none =>
    rw [hstate] at h
    exact absurd h (by decide)
  | some openSlash =>
    cases openSlash with
    | false => rfl
    | true =>
      rw [hstate] at h
      exact absurd h (by decide)

theorem readKind_concat {name : List Char} {rest : List (List Char)} {w : List Char} :
    readKind name (rest ++ [w ++ ['\r']]) = none := by
  cases rest with
  | nil =>
    rw [List.nil_append, readKind, Option.map_eq_none_iff, Option.eq_none_iff_forall_ne_some]
    intro kind hkind
    exact Kind.return_not_mem hkind (List.mem_append_right _ List.mem_cons_self)
  | cons x rest =>
    cases rest with
    | nil => rfl
    | cons y rest => rfl

/-- A comment that can be read with a carriage return at its end says the same without it. -/
theorem readComment_of_concat {text : List Char} {c : Comment}
    (h : readComment (text ++ ['\r']) = some c) : readComment text = some c := by
  obtain ⟨front, w, hwords, hmore⟩ := @exists_lastWord _ isBlank text
  unfold readComment at h ⊢
  rw [hmore '\r' (by decide)] at h
  rw [hwords]
  cases front with
  | nil =>
    by_cases hw : w = []
    · rw [if_pos hw]
      exact h
    · rw [if_neg hw]
      exact h
  | cons keyword front =>
    cases front with
    | nil =>
      simp only [List.cons_append, List.nil_append, isMetricName_concat_return, Bool.false_and,
        Bool.false_eq_true, if_false] at h
      split_ifs at h with hhelp htype
      by_cases hw : w = []
      · rw [if_pos hw]
        exact h
      · rw [if_neg hw]
        simp only [List.cons_append, List.nil_append, if_neg hhelp, if_neg htype]
        exact h
    | cons name rest =>
      simp only [List.cons_append, readKind_concat] at h ⊢
      by_cases hhelp : keyword = "HELP".toList
      · rw [if_pos hhelp] at h ⊢
        split_ifs at h with hgood
        obtain ⟨hname, hescapes⟩ := Bool.and_eq_true_iff.mp hgood
        rw [hname, escapesWell_of_concat hescapes]
        exact h
      · rw [if_neg hhelp] at h ⊢
        by_cases htype : keyword = "TYPE".toList
        · rw [if_pos htype, ite_self] at h
          exact nomatch h
        · rw [if_neg htype] at h ⊢
          exact h

/-! ## Reading entries -/

section

variable {V T : Type} {r : Readers V T}

theorem readEntries_append (a b : List (List Char)) :
    readEntries r (a ++ b) = (readEntries r a).bind fun x => (readEntries r b).map (x ++ ·) := by
  induction a with
  | nil =>
    rw [List.nil_append, readEntries, Option.bind_some]
    exact Option.map_id'.symm
  | cons l a ih =>
    rw [List.cons_append, readEntries, readEntries, ih]
    cases readEntry r l with
    | none => rfl
    | some e =>
      cases readEntries r a with
      | none => rfl
      | some x =>
        cases readEntries r b with
        | none => rfl
        | some y => simp

theorem readEntry_passedOver {l : List Char} (h : passedOver l = true) :
    readEntry r l = match l.dropWhile isBlank with
      | [] => some []
      | _ :: text => (readComment text).map Comment.entries :=
  if_pos h

/-- A blank line or comment is read alike with and without a carriage return at its end. -/
theorem readEntry_of_concat {l : List Char} {es : List (Entry V T)}
    (hpass : passedOver (l ++ ['\r']) = true) (h : readEntry r (l ++ ['\r']) = some es) :
    readEntry r l = some es := by
  have hpass' := passedOver_of_concat hpass
  obtain ⟨blanks, rest, rfl, hblanks, hrest⟩ := passedOver_iff.mp hpass'
  rw [readEntry_passedOver hpass, List.append_assoc, List.dropWhile_append_of_pos hblanks] at h
  rw [readEntry_passedOver hpass', List.dropWhile_append_of_pos hblanks]
  obtain rfl | ⟨text, rfl⟩ := hrest
  · -- then the line with the carriage return would be no comment
    rw [passedOver, List.append_assoc, List.dropWhile_append_of_pos hblanks] at hpass
    exact absurd hpass (by decide)
  · obtain ⟨c, hc, rfl⟩ := Option.map_eq_some_iff.mp h
    show (readComment text).map Comment.entries = _
    rw [readComment_of_concat hc]
    rfl

end

/-! ## Families -/

section

variable {types types' : List (List Char × Kind)} {name : List Char}

theorem partOf_eq_some {ending : List Char × List Kind} {base : List Char} :
    partOf types name ending = some base ↔
      base ++ ending.1 = name ∧ ∃ kind ∈ ending.2, (base, kind) ∈ types := by
  have htake : ∀ b : List Char, b ++ ending.1 = name →
      name.take (name.length - ending.1.length) = b := by
    rintro b rfl
    rw [List.length_append, Nat.add_sub_cancel]
    exact List.take_left
  have hany : ∀ b : List Char, ending.2.any (fun k => types.contains (b, k)) = true ↔
      ∃ kind ∈ ending.2, (b, kind) ∈ types := by
    intro b
    simp
  unfold partOf
  constructor
  · intro h
    dsimp only at h
    split_ifs at h with hpart
    obtain rfl := Option.some.inj h
    exact ⟨hpart.1, (hany _).mp hpart.2⟩
  · rintro ⟨hname, hkind⟩
    rw [htake base hname]
    exact if_pos ⟨hname, (hany base).mpr hkind⟩

/-- The part of a family is found alike with more types, if these do not declare the family. -/
theorem findSome_partOf_congr (hsub : types ⊆ types') (endings : List (List Char × List Kind))
    (hback : ∀ base kind, endings.findSome? (partOf types' name) = some base →
      (base, kind) ∈ types' → (base, kind) ∈ types) :
    endings.findSome? (partOf types name) = endings.findSome? (partOf types' name) := by
  induction endings with
  | nil => rfl
  | cons ending endings ih =>
    rw [List.findSome?_cons, List.findSome?_cons]
    cases hpart : partOf types' name ending with
    | some base =>
      obtain ⟨hname, kind, hkind, hmem⟩ := partOf_eq_some.mp hpart
      have hfound : (ending :: endings).findSome? (partOf types' name) = some base := by
        rw [List.findSome?_cons, hpart]
      rw [partOf_eq_some.mpr ⟨hname, kind, hkind, hback base kind hfound hmem⟩]
    | none =>
      have hnone : partOf types name ending = none := by
        rw [Option.eq_none_iff_forall_ne_some]
        intro base hbase
        obtain ⟨hname, kind, hkind, hmem⟩ := partOf_eq_some.mp hbase
        rw [partOf_eq_some.mpr ⟨hname, kind, hkind, hsub hmem⟩] at hpart
        exact nomatch hpart
      rw [hnone]
      refine ih fun base kind hfound => hback base kind ?_
      rw [List.findSome?_cons, hpart]
      exact hfound

/-- More TYPE lines leave the family of a name alone if they do not declare that family. -/
theorem familyOf_congr (hsub : types ⊆ types')
    (hback : ∀ kind, (familyOf types' name, kind) ∈ types' → (familyOf types' name, kind) ∈ types) :
    familyOf types name = familyOf types' name := by
  have hcontains : ∀ ts : List (List Char × Kind),
      (ts.map Prod.fst).contains name = true ↔ ∃ kind, (name, kind) ∈ ts := by
    intro ts
    simp
  by_cases hname : (types'.map Prod.fst).contains name = true
  · have hself : familyOf types' name = name := if_pos hname
    obtain ⟨kind, hkind⟩ := (hcontains types').mp hname
    rw [hself] at hback ⊢
    exact if_pos ((hcontains types).mpr ⟨kind, hback kind hkind⟩)
  · have hname' : ¬ (types.map Prod.fst).contains name = true := by
      intro h
      obtain ⟨kind, hkind⟩ := (hcontains types).mp h
      exact hname ((hcontains types').mpr ⟨kind, hsub hkind⟩)
    have hparts : familyOf types' name =
        (partEndings.findSome? (partOf types' name)).getD name := if_neg hname
    rw [familyOf, if_neg hname', hparts]
    refine congrArg (Option.getD · name) (findSome_partOf_congr hsub partEndings ?_)
    intro base kind hbase
    rw [hparts, hbase] at hback
    exact hback kind

end

/-! ## Bodies one after the other -/

section

variable {α : Type} [DecidableEq α] {a b : List α} {x : α}

theorem eq_of_dropWhile_nil (h : a.dropWhile (· = x) = []) : ∀ y ∈ a, y = x := by
  simpa using h

/-- Where the first element occurs in one group, nothing else stands before its last occurrence. -/
theorem eq_of_getLast? (hx : x ∉ a.dropWhile (· = x)) (hlast : (x :: a).getLast? = some x) :
    ∀ y ∈ a, y = x := by
  refine eq_of_dropWhile_nil (Classical.byContradiction fun hne => hx ?_)
  obtain ⟨front, hfront⟩ := List.dropWhile_suffix (l := a) (· = x)
  have hsome : (x :: a).getLast? = (a.dropWhile (· = x)).getLast? := by
    conv_lhs => rw [← hfront, ← List.cons_append, List.getLast?_append_of_ne_nil _ hne]
  exact List.mem_of_getLast? (hsome ▸ hlast)

theorem notMem_dropWhile_append :
    x ∉ (a ++ b).dropWhile (· = x) ↔ x ∉ a.dropWhile (· = x) ∧
      (x ∈ b → (∀ y ∈ a, y = x) ∧ x ∉ b.dropWhile (· = x)) := by
  rw [List.dropWhile_append]
  split_ifs with hall
  · rw [List.isEmpty_iff] at hall
    have hsub : x ∈ b.dropWhile (· = x) → x ∈ b := fun h => (List.dropWhile_sublist _).subset h
    rw [hall]
    exact ⟨fun h => ⟨List.not_mem_nil, fun _ => ⟨eq_of_dropWhile_nil hall, h⟩⟩,
      fun h hmem => (h.2 (hsub hmem)).2 hmem⟩
  · rw [List.mem_append, not_or]
    refine and_congr_right fun _ => ⟨fun h hmem => absurd hmem h, fun h hmem => hall ?_⟩
    rw [List.isEmpty_iff, List.dropWhile_eq_nil_iff]
    simpa using (h hmem).1

/-- In a list whose equal elements stand together, the group of the first element is at the
    front. -/
theorem notMem_dropWhile_iff_head? (hb : Contiguous b) (hx : x ∈ b) :
    x ∉ b.dropWhile (· = x) ↔ b.head? = some x := by
  cases b with
  | nil => exact absurd hx List.not_mem_nil
  | cons y b =>
    rw [List.head?_cons, Option.some.injEq, List.dropWhile_cons]
    by_cases hy : y = x
    · rw [hy] at hb
      simpa [hy] using hb.1
    · simpa [hy, Ne.symm hy] using hx

theorem contiguous_append_iff :
    Contiguous (a ++ b) ↔ Contiguous a ∧ Contiguous b ∧
      ∀ x ∈ a, x ∈ b → a.getLast? = some x ∧ b.head? = some x := by
  induction a with
  | nil => simp [Contiguous]
  | cons y a ih =>
    rw [List.cons_append, Contiguous, Contiguous, ih, notMem_dropWhile_append]
    have hlast : ∀ x ∈ a, (y :: a).getLast? = a.getLast? := by
      intro x hx
      obtain ⟨z, rest, rfl⟩ := List.exists_cons_of_ne_nil (List.ne_nil_of_mem hx)
      exact List.getLast?_cons_cons
    constructor
    · rintro ⟨⟨hy, hyb⟩, ha, hb, hcross⟩
      refine ⟨⟨hy, ha⟩, hb, fun x hx hxb => ?_⟩
      rcases List.mem_cons.mp hx with rfl | hxa
      · obtain ⟨hall, hfirst⟩ := hyb hxb
        refine ⟨?_, (notMem_dropWhile_iff_head? hb hxb).mp hfirst⟩
        rw [List.getLast?_eq_some_getLast (List.cons_ne_nil _ _)]
        refine congrArg some ?_
        rcases List.mem_cons.mp (List.getLast_mem (List.cons_ne_nil x a)) with heq | hmem
        · exact heq
        · exact hall _ hmem
      · rw [hlast x hxa]
        exact hcross x hxa hxb
    · rintro ⟨⟨hy, ha⟩, hb, hcross⟩
      refine ⟨⟨hy, fun hyb => ?_⟩, ha, hb, fun x hxa hxb => ?_⟩
      · obtain ⟨hend, hfirst⟩ := hcross y List.mem_cons_self hyb
        exact ⟨eq_of_getLast? hy hend, (notMem_dropWhile_iff_head? hb hyb).mpr hfirst⟩
      · rw [← hlast x hxa]
        exact hcross x (List.mem_cons_of_mem _ hxa) hxb

end

section

variable {V T : Type} {fam fam' : List Char → List Char} {a b es : List (Entry V T)}

theorem family_of_helpName {e : Entry V T} {name : List Char} (h : e.helpName = some name) :
    e.family fam = name := by
  cases e with
  | help n => exact Option.some.inj h
  | type n kind => exact nomatch h
  | sample s => exact nomatch h

theorem family_of_declared {e : Entry V T} {name : List Char} {kind : Kind}
    (h : e.declared = some (name, kind)) : e.family fam = name := by
  cases e with
  | help n => exact nomatch h
  | type n k => exact (Prod.mk.inj (Option.some.inj h)).1
  | sample s => exact nomatch h

theorem family_of_sample {e : Entry V T} {s : Sample V T} (h : e.sample? = some s) :
    e.family fam = fam s.name := by
  cases e with
  | help n => exact nomatch h
  | type n kind => exact nomatch h
  | sample t => exact congrArg (fam ·.name) (Option.some.inj h)

theorem mem_families_of_help {name : List Char} (h : name ∈ helpNames es) :
    name ∈ es.map (Entry.family fam) := by
  obtain ⟨e, he, hname⟩ := List.mem_filterMap.mp h
  exact List.mem_map.mpr ⟨e, he, family_of_helpName hname⟩

theorem mem_families_of_declared {name : List Char} (h : name ∈ typeNames es) :
    name ∈ es.map (Entry.family fam) := by
  obtain ⟨⟨n, kind⟩, hmem, rfl⟩ := List.mem_map.mp h
  obtain ⟨e, he, hname⟩ := List.mem_filterMap.mp hmem
  exact List.mem_map.mpr ⟨e, he, family_of_declared hname⟩

theorem mem_families_of_sampled {name : List Char} (h : name ∈ sampled fam es) :
    name ∈ es.map (Entry.family fam) := by
  obtain ⟨e, he, hname⟩ := List.mem_map.mp h
  exact List.mem_map.mpr ⟨e, List.mem_of_mem_filter he, hname⟩

theorem helpNames_append : helpNames (a ++ b) = helpNames a ++ helpNames b :=
  List.filterMap_append

theorem typeNames_append : typeNames (a ++ b) = typeNames a ++ typeNames b := by
  unfold typeNames
  rw [List.filterMap_append, List.map_append]

theorem sampled_append : sampled fam (a ++ b) = sampled fam a ++ sampled fam b := by
  unfold sampled
  rw [List.filter_append, List.map_append]

/-- A HELP or TYPE line of the second body is for a family that the first has samples of. -/
theorem declared_after_iff :
    (∀ x ∈ a, ∀ y ∈ b, x.isSample = true → y.isSample = false → x.family fam ≠ y.family fam) ↔
      ∀ name ∈ sampled fam a, name ∉ helpNames b ∧ name ∉ typeNames b := by
  constructor
  · intro h name hname
    obtain ⟨x, hx, rfl⟩ := List.mem_map.mp hname
    obtain ⟨hx, hsample⟩ := List.mem_filter.mp hx
    refine ⟨fun hhelp => ?_, fun htype => ?_⟩
    · obtain ⟨y, hy, hyname⟩ := List.mem_filterMap.mp hhelp
      refine h x hx y hy hsample ?_ (family_of_helpName hyname).symm
      cases y <;> first | rfl | exact nomatch hyname
    · obtain ⟨⟨n, kind⟩, hmem, heq⟩ := List.mem_map.mp htype
      obtain ⟨y, hy, hyname⟩ := List.mem_filterMap.mp hmem
      refine h x hx y hy hsample ?_ (heq.symm.trans (family_of_declared hyname).symm)
      cases y <;> first | rfl | exact nomatch hyname
  · intro h x hx y hy hsample hdecl heq
    obtain ⟨hhelp, htype⟩ :=
      h (x.family fam) (List.mem_map_of_mem (List.mem_filter.mpr ⟨hx, hsample⟩))
    cases y with
    | help n => exact hhelp (List.mem_filterMap.mpr ⟨_, hy, congrArg some heq.symm⟩)
    | type n kind =>
      refine htype (List.mem_map.mpr ⟨(n, kind), List.mem_filterMap.mpr ⟨_, hy, rfl⟩, ?_⟩)
      exact heq.symm
    | sample s => exact nomatch hdecl

/-- The second body can stand behind the first: no family has a HELP line, or a TYPE line, in
    both; none with samples in the first has such a line in the second; and one with samples in
    both is the last of the first and the first of the second. -/
structure Joins (fam : List Char → List Char) (a b : List (Entry V T)) : Prop where
  help : ∀ name ∈ helpNames a, name ∉ helpNames b
  type : ∀ name ∈ typeNames a, name ∉ typeNames b
  declared : ∀ name ∈ sampled fam a, name ∉ helpNames b ∧ name ∉ typeNames b
  groups : ∀ name ∈ sampled fam a, name ∈ sampled fam b →
    (sampled fam a).getLast? = some name ∧ (sampled fam b).head? = some name

/-- Each of the bodies joins those behind it. -/
def Chained (fam : List Char → List Char) : List (List (Entry V T)) → Prop
  | [] => True
  | es :: blocks => Joins fam es blocks.flatten ∧ Chained fam blocks

instance : Decidable (Joins fam a b) :=
  decidable_of_iff
    ((∀ name ∈ helpNames a, name ∉ helpNames b) ∧ (∀ name ∈ typeNames a, name ∉ typeNames b) ∧
      (∀ name ∈ sampled fam a, name ∉ helpNames b ∧ name ∉ typeNames b) ∧
      ∀ name ∈ sampled fam a, name ∈ sampled fam b →
        (sampled fam a).getLast? = some name ∧ (sampled fam b).head? = some name)
    ⟨fun ⟨h₁, h₂, h₃, h₄⟩ => ⟨h₁, h₂, h₃, h₄⟩, fun ⟨h₁, h₂, h₃, h₄⟩ => ⟨h₁, h₂, h₃, h₄⟩⟩

instance decidableChained : (blocks : List (List (Entry V T))) → Decidable (Chained fam blocks)
  | [] => isTrue trivial
  | es :: blocks =>
    have := decidableChained blocks
    inferInstanceAs (Decidable (Joins fam es blocks.flatten ∧ Chained fam blocks))

theorem validFor_append_iff
    (hseries : ∀ s ∈ a.filterMap Entry.sample?, ∀ t ∈ b.filterMap Entry.sample?,
      ¬ s.SameSeries t) :
    ValidFor fam (a ++ b) ↔ ValidFor fam a ∧ ValidFor fam b ∧ Joins fam a b := by
  constructor
  · rintro ⟨hhelp, htype, hfirst, hgroups, hdistinct⟩
    rw [helpNames_append, List.nodup_append'] at hhelp
    rw [typeNames_append, List.nodup_append'] at htype
    rw [List.pairwise_append, declared_after_iff] at hfirst
    rw [sampled_append, contiguous_append_iff] at hgroups
    rw [List.filterMap_append, List.pairwise_append] at hdistinct
    exact ⟨⟨hhelp.1, htype.1, hfirst.1, hgroups.1, hdistinct.1⟩,
      ⟨hhelp.2.1, htype.2.1, hfirst.2.1, hgroups.2.1, hdistinct.2.1⟩,
      ⟨hhelp.2.2, htype.2.2, hfirst.2.2, hgroups.2.2⟩⟩
  · rintro ⟨ha, hb, hjoins⟩
    refine ⟨?_, ?_, ?_, ?_, ?_⟩
    · rw [helpNames_append, List.nodup_append']
      exact ⟨ha.help_once, hb.help_once, hjoins.help⟩
    · rw [typeNames_append, List.nodup_append']
      exact ⟨ha.type_once, hb.type_once, hjoins.type⟩
    · rw [List.pairwise_append, declared_after_iff]
      exact ⟨ha.declared_first, hb.declared_first, hjoins.declared⟩
    · rw [sampled_append, contiguous_append_iff]
      exact ⟨ha.contiguous, hb.contiguous, hjoins.groups⟩
    · rw [List.filterMap_append, List.pairwise_append]
      exact ⟨ha.distinct, hb.distinct, hseries⟩

theorem validFor_nil : ValidFor fam ([] : List (Entry V T)) :=
  ⟨List.nodup_nil, List.nodup_nil, List.Pairwise.nil, trivial, List.Pairwise.nil⟩

theorem validFor_flatten_iff {blocks : List (List (Entry V T))}
    (hseries : blocks.Pairwise fun a b => ∀ s ∈ a.filterMap Entry.sample?,
      ∀ t ∈ b.filterMap Entry.sample?, ¬ s.SameSeries t) :
    ValidFor fam blocks.flatten ↔ (∀ es ∈ blocks, ValidFor fam es) ∧ Chained fam blocks := by
  induction blocks with
  | nil => exact iff_of_true validFor_nil ⟨fun _ h => absurd h List.not_mem_nil, trivial⟩
  | cons es blocks ih =>
    obtain ⟨hses, hsblocks⟩ := List.pairwise_cons.mp hseries
    have hrest : ∀ s ∈ es.filterMap Entry.sample?,
        ∀ t ∈ blocks.flatten.filterMap Entry.sample?, ¬ s.SameSeries t := by
      intro s hs t ht
      obtain ⟨e, he, hte⟩ := List.mem_filterMap.mp ht
      obtain ⟨other, hother, hmem⟩ := List.mem_flatten.mp he
      exact hses other hother s hs t (List.mem_filterMap.mpr ⟨e, hmem, hte⟩)
    rw [List.flatten_cons, validFor_append_iff hrest, ih hsblocks, List.forall_mem_cons, Chained]
    constructor
    · rintro ⟨hes, ⟨hblocks, hchained⟩, hjoins⟩
      exact ⟨⟨hes, hblocks⟩, hjoins, hchained⟩
    · rintro ⟨⟨hes, hblocks⟩, hjoins, hchained⟩
      exact ⟨hes, ⟨hblocks, hchained⟩, hjoins⟩

/-- Bodies that share no family join. -/
theorem Joins.of_disjoint
    (h : (a.map (Entry.family fam)).Disjoint (b.map (Entry.family fam))) : Joins fam a b where
  help := fun _ ha hb => h (mem_families_of_help ha) (mem_families_of_help hb)
  type := fun _ ha hb => h (mem_families_of_declared ha) (mem_families_of_declared hb)
  declared := fun _ ha =>
    ⟨fun hb => h (mem_families_of_sampled ha) (mem_families_of_help hb),
      fun hb => h (mem_families_of_sampled ha) (mem_families_of_declared hb)⟩
  groups := fun _ ha hb => absurd (mem_families_of_sampled hb) (h (mem_families_of_sampled ha))

theorem Chained.of_disjoint {blocks : List (List (Entry V T))}
    (h : blocks.Pairwise fun a b =>
      (a.map (Entry.family fam)).Disjoint (b.map (Entry.family fam))) : Chained fam blocks := by
  induction blocks with
  | nil => trivial
  | cons es blocks ih =>
    obtain ⟨hes, hblocks⟩ := List.pairwise_cons.mp h
    refine ⟨Joins.of_disjoint fun name hn hn' => ?_, ih hblocks⟩
    obtain ⟨e, he, rfl⟩ := List.mem_map.mp hn'
    obtain ⟨other, hother, hmem⟩ := List.mem_flatten.mp he
    exact hes other hother hn (List.mem_map_of_mem hmem)

theorem family_congr (h : ∀ s ∈ es.filterMap Entry.sample?, fam s.name = fam' s.name) :
    ∀ e ∈ es, e.family fam = e.family fam' := by
  intro e he
  cases e with
  | help name => rfl
  | type name kind => rfl
  | sample s => exact h s (List.mem_filterMap.mpr ⟨.sample s, he, rfl⟩)

/-- Only the families of the names in the body matter. -/
theorem ValidFor.congr (hes : ValidFor fam es)
    (h : ∀ s ∈ es.filterMap Entry.sample?, fam s.name = fam' s.name) : ValidFor fam' es where
  help_once := hes.help_once
  type_once := hes.type_once
  declared_first := by
    refine hes.declared_first.imp_of_mem ?_
    intro x y hx hy hxy hsample hdecl
    rw [← family_congr h x hx, ← family_congr h y hy]
    exact hxy hsample hdecl
  contiguous := by
    have heq : sampled fam' es = sampled fam es :=
      List.map_congr_left fun e he => (family_congr h e (List.mem_of_mem_filter he)).symm
    rw [heq]
    exact hes.contiguous
  distinct := hes.distinct

/-! ## One more label -/

/-- The entry with one more label, if it is a sample. -/
def Entry.withLabel (k v : List Char) : Entry V T → Entry V T
  | .sample s => .sample (s.withLabel k v)
  | e => e

variable (k v : List Char)

theorem helpName_withLabel (e : Entry V T) : (e.withLabel k v).helpName = e.helpName := by
  cases e <;> rfl

theorem declared_withLabel (e : Entry V T) : (e.withLabel k v).declared = e.declared := by
  cases e <;> rfl

theorem isSample_withLabel (e : Entry V T) : (e.withLabel k v).isSample = e.isSample := by
  cases e <;> rfl

theorem family_withLabel (e : Entry V T) : (e.withLabel k v).family fam = e.family fam := by
  cases e <;> rfl

theorem sample_withLabel (e : Entry V T) :
    (e.withLabel k v).sample? = e.sample?.map (·.withLabel k v) := by
  cases e <;> rfl

theorem helpNames_withLabel (es : List (Entry V T)) :
    helpNames (es.map (Entry.withLabel k v)) = helpNames es := by
  unfold helpNames
  rw [List.filterMap_map]
  exact congrArg (List.filterMap · es) (funext (helpName_withLabel k v))

theorem filterMap_declared_withLabel (es : List (Entry V T)) :
    (es.map (Entry.withLabel k v)).filterMap Entry.declared = es.filterMap Entry.declared := by
  rw [List.filterMap_map]
  exact congrArg (List.filterMap · es) (funext (declared_withLabel k v))

theorem typeNames_withLabel (es : List (Entry V T)) :
    typeNames (es.map (Entry.withLabel k v)) = typeNames es := by
  unfold typeNames
  rw [filterMap_declared_withLabel]

theorem sampled_withLabel (es : List (Entry V T)) :
    sampled fam (es.map (Entry.withLabel k v)) = sampled fam es := by
  have hfilter : (es.map (Entry.withLabel k v)).filter Entry.isSample =
      (es.filter Entry.isSample).map (Entry.withLabel k v) := by
    rw [List.filter_map]
    exact congrArg (fun p => (es.filter p).map _) (funext (isSample_withLabel k v))
  unfold sampled
  rw [hfilter, List.map_map]
  exact congrArg (List.map · _) (funext (family_withLabel k v))

theorem filterMap_sample_withLabel (es : List (Entry V T)) :
    (es.map (Entry.withLabel k v)).filterMap Entry.sample? =
      (es.filterMap Entry.sample?).map (·.withLabel k v) := by
  rw [List.filterMap_map, List.map_filterMap]
  exact congrArg (List.filterMap · es) (funext (sample_withLabel k v))

theorem sameSeries_withLabel {s t : Sample V T} :
    (s.withLabel k v).SameSeries (t.withLabel k v) ↔ s.SameSeries t :=
  and_congr_right fun _ => List.perm_append_right_iff _

/-- Two values of a label that was in neither sample keep them apart. -/
theorem not_sameSeries_withLabel {s t : Sample V T} {w : List Char}
    (hfree : k ∉ t.labels.map Prod.fst) (hne : v ≠ w) :
    ¬ (s.withLabel k v).SameSeries (t.withLabel k w) := by
  intro hsame
  have hmem : (k, v) ∈ t.labels ++ [(k, w)] :=
    hsame.2.subset (List.mem_append_right _ List.mem_cons_self)
  obtain hmem | hmem := List.mem_append.mp hmem
  · exact hfree (List.mem_map_of_mem hmem)
  · exact hne (Prod.mk.inj (List.mem_singleton.mp hmem)).2

/-- A body is as valid with a label that every sample of it gets. -/
theorem validFor_withLabel_iff :
    ValidFor fam (es.map (Entry.withLabel k v)) ↔ ValidFor fam es := by
  have hfirst : ((es.map (Entry.withLabel k v)).Pairwise fun a b =>
      a.isSample = true → b.isSample = false → a.family fam ≠ b.family fam) ↔
        es.Pairwise fun a b =>
          a.isSample = true → b.isSample = false → a.family fam ≠ b.family fam := by
    rw [List.pairwise_map]
    simp only [isSample_withLabel, family_withLabel]
  have hdistinct : (((es.map (Entry.withLabel k v)).filterMap Entry.sample?).Pairwise
      fun s t => ¬ s.SameSeries t) ↔
        (es.filterMap Entry.sample?).Pairwise fun s t => ¬ s.SameSeries t := by
    rw [filterMap_sample_withLabel, List.pairwise_map]
    simp only [sameSeries_withLabel]
  constructor
  · rintro ⟨h₁, h₂, h₃, h₄, h₅⟩
    exact ⟨helpNames_withLabel k v es ▸ h₁, typeNames_withLabel k v es ▸ h₂, hfirst.mp h₃,
      sampled_withLabel k v es ▸ h₄, hdistinct.mp h₅⟩
  · rintro ⟨h₁, h₂, h₃, h₄, h₅⟩
    exact ⟨(helpNames_withLabel k v es).symm ▸ h₁, (typeNames_withLabel k v es).symm ▸ h₂,
      hfirst.mpr h₃, (sampled_withLabel k v es).symm ▸ h₄, hdistinct.mpr h₅⟩

end

end Cognitora.Lib.Exposition
