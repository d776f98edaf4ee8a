/-
  Where the fields of a sample line stand, for readers that cut the line up instead of following
  the grammar.

  `exists_head`: after blanks the line has its name, with a blank or an opening brace after it.
  `exists_lastField`: it ends with its last field, the timestamp or else the value, with a blank
  or a closing brace before it. `exists_trimmed` says both of the line without the white space at
  its ends, for a class of white space that leaves names and numbers alone.
-/
import Cognitora.Lib.Exposition

namespace Cognitora.Lib.Exposition

/-! ## The name -/

namespace State

variable {s s' : State} {c : Char} {l n : List Char}

/-- The name has been read, or the labels and numbers after it. -/
def PastName (n : List Char) (s : State) : Prop :=
  s = .afterName n ∨ Named n s

theorem step_pastName (hs : PastName n s) (h : s.step c = some s') : PastName n s' := by
  obtain rfl | hs := hs
  · rw [step] at h
    split_ifs at h
    · exact Or.inl (Option.some.inj h).symm
    · exact Or.inr (Or.inl ⟨_, (Option.some.inj h).symm⟩)
    · exact Or.inr (Or.inr ⟨_, _, (Option.some.inj h).symm⟩)
  · exact Or.inr (step_named hs h)

theorem name_of_pastName {m : List Char} {labels : Labels} {t : Tail} (hs : PastName n s)
    (h : s.run l = some (.tail m labels t)) : m = n := by
  have hpast : PastName n (.tail m labels t) := foldlM_keeps (fun _ _ _ _ => step_pastName) hs h
  obtain heq | ⟨b, heq⟩ | ⟨_, _, heq⟩ := hpast
  · cases heq
  · cases heq
  · exact (State.tail.inj heq).1

/-- A name goes on up to a blank or an opening brace. -/
theorem run_name_head {m : List Char} {labels : Labels} {t : Tail}
    (h : (State.name n).run l = some (.tail m labels t)) :
    ∃ w c rest, l = w ++ c :: rest ∧ m = n ++ w ∧ (∀ d ∈ w, isNameChar d = true) ∧
      (isBlank c = true ∨ c = '{') := by
  induction l generalizing n with
  | nil => cases h
  | cons c l ih =>
    obtain ⟨s, hstep, hrest⟩ := foldlM_cons_eq_some.mp h
    rw [step] at hstep
    split_ifs at hstep with hname hblank hbrace
    · obtain rfl := Option.some.inj hstep
      obtain ⟨w, d, rest, rfl, hm, hw, hd⟩ := ih hrest
      refine ⟨c :: w, d, rest, rfl, ?_, List.forall_mem_cons.mpr ⟨hname, hw⟩, hd⟩
      rw [hm, List.append_assoc, List.singleton_append]
    · obtain rfl := Option.some.inj hstep
      refine ⟨[], c, l, rfl, ?_, List.forall_mem_nil _, Or.inl hblank⟩
      rw [List.append_nil]
      exact name_of_pastName (Or.inl rfl) hrest
    · obtain rfl := Option.some.inj hstep
      refine ⟨[], c, l, rfl, ?_, List.forall_mem_nil _, Or.inr hbrace⟩
      rw [List.append_nil]
      exact name_of_pastName (Or.inr (Or.inl ⟨_, rfl⟩)) hrest

/-- A line starts with blanks and its name. -/
theorem run_start_head {m : List Char} {labels : Labels} {t : Tail}
    (h : State.start.run l = some (.tail m labels t)) :
    ∃ blanks c rest, l = blanks ++ (m ++ c :: rest) ∧ (∀ d ∈ blanks, isBlank d = true) ∧
      m ≠ [] ∧ (∀ d ∈ m, isNameChar d = true) ∧ (isBlank c = true ∨ c = '{') := by
  induction l with
  | nil => cases h
  | cons d l ih =>
    obtain ⟨s, hstep, hrest⟩ := foldlM_cons_eq_some.mp h
    rw [step] at hstep
    split_ifs at hstep with hblank hstart
    · obtain rfl := Option.some.inj hstep
      obtain ⟨blanks, c, rest, rfl, hblanks, hm⟩ := ih hrest
      exact ⟨d :: blanks, c, rest, rfl, List.forall_mem_cons.mpr ⟨hblank, hblanks⟩, hm⟩
    · obtain rfl := Option.some.inj hstep
      obtain ⟨w, c, rest, rfl, rfl, hw, hc⟩ := run_name_head hrest
      refine ⟨[], c, rest, rfl, List.forall_mem_nil _, List.cons_ne_nil _ _, ?_, hc⟩
      exact List.forall_mem_cons.mpr ⟨by simp [isNameChar, hstart], hw⟩

end State

/-! ## The last field -/

/-- What can stand before a number. -/
def separates (c : Char) : Bool :=
  isBlank c || c == '}'

/-- The line ends with the field `tok` and blanks, with `c` before it. -/
def LastField (c : Char) (tok l : List Char) : Prop :=
  ∃ front blanks, l = front ++ c :: (tok ++ blanks) ∧ separates c = true ∧
    tok ≠ [] ∧ (∀ d ∈ tok, isBlank d = false) ∧ ∀ d ∈ blanks, isBlank d = true

/-- A number can start here. -/
def AtSeparator (l : List Char) : Prop :=
  ∃ front c, l = front ++ [c] ∧ separates c = true

/-- The line so far ends with the number `tok`. -/
def InField (tok l : List Char) : Prop :=
  ∃ front c, l = front ++ c :: tok ∧ separates c = true ∧ tok ≠ [] ∧ ∀ d ∈ tok, isBlank d = false

section

variable {tok l : List Char} {c : Char}

theorem AtSeparator.start (h : AtSeparator l) (hc : isBlank c = false) :
    InField [c] (l ++ [c]) := by
  obtain ⟨front, d, rfl, hd⟩ := h
  exact ⟨front, d, by simp, hd, List.cons_ne_nil _ _, List.forall_mem_singleton.mpr hc⟩

theorem atSeparator_blank (l : List Char) (hc : isBlank c = true) : AtSeparator (l ++ [c]) :=
  ⟨l, c, rfl, by rw [separates, hc, Bool.true_or]⟩

theorem InField.extend (h : InField tok l) (hc : isBlank c = false) :
    InField (tok ++ [c]) (l ++ [c]) := by
  obtain ⟨front, d, rfl, hd, hne, htok⟩ := h
  refine ⟨front, d, by simp, hd, by simp, ?_⟩
  exact List.forall_mem_append.mpr ⟨htok, List.forall_mem_singleton.mpr hc⟩

theorem InField.lastField (h : InField tok l) : ∃ c, LastField c tok l := by
  obtain ⟨front, c, rfl, hc, hne, htok⟩ := h
  exact ⟨c, front, [], by rw [List.append_nil], hc, hne, htok, List.forall_mem_nil _⟩

theorem LastField.blank {e : Char} (h : LastField e tok l) (hc : isBlank c = true) :
    LastField e tok (l ++ [c]) := by
  obtain ⟨front, blanks, rfl, he, hne, htok, hblanks⟩ := h
  refine ⟨front, blanks ++ [c], by simp, he, hne, htok, ?_⟩
  exact List.forall_mem_append.mpr ⟨hblanks, List.forall_mem_singleton.mpr hc⟩

end

/-- What stands last in a line that has led to the state. -/
def State.Ends : State → List Char → Prop
  | .afterName _, l => AtSeparator l
  | .tail _ _ .before, l => AtSeparator l
  | .tail _ _ (.value v), l => InField v l
  | .tail _ _ (.afterValue v), l => AtSeparator l ∧ ∃ c, LastField c v l
  | .tail _ _ (.stamp _ t), l => InField t l
  | .tail _ _ (.afterStamp _ t), l => AtSeparator l ∧ ∃ c, LastField c t l
  | _, _ => True

theorem Tail.step_ends {n l : List Char} {labels : Labels} {t t' : Tail} {c : Char}
    (h : t.step c = some t') (hs : (State.tail n labels t).Ends l) :
    (State.tail n labels t').Ends (l ++ [c]) := by
  cases hc : isBlank c with
  | true =>
    have hsep := atSeparator_blank l hc
    cases t with
    | before => exact Option.some.inj ((if_pos hc).symm.trans h) ▸ hsep
    | value v =>
      obtain ⟨d, hd⟩ := InField.lastField hs
      exact Option.some.inj ((if_pos hc).symm.trans h) ▸ ⟨hsep, d, hd.blank hc⟩
    | afterValue v =>
      obtain ⟨-, d, hd⟩ := hs
      exact Option.some.inj ((if_pos hc).symm.trans h) ▸ ⟨hsep, d, hd.blank hc⟩
    | stamp v t =>
      obtain ⟨d, hd⟩ := InField.lastField hs
      exact Option.some.inj ((if_pos hc).symm.trans h) ▸ ⟨hsep, d, hd.blank hc⟩
    | afterStamp v t =>
      obtain ⟨-, d, hd⟩ := hs
      exact Option.some.inj ((if_pos hc).symm.trans h) ▸ ⟨hsep, d, hd.blank hc⟩
  | false =>
    have hne : ¬ isBlank c = true := Bool.not_eq_true _ ▸ hc
    cases t with
    | before => exact Option.some.inj ((if_neg hne).symm.trans h) ▸ AtSeparator.start hs hc
    | value v => exact Option.some.inj ((if_neg hne).symm.trans h) ▸ InField.extend hs hc
    | afterValue v => exact Option.some.inj ((if_neg hne).symm.trans h) ▸ AtSeparator.start hs.1 hc
    | stamp v t => exact Option.some.inj ((if_neg hne).symm.trans h) ▸ InField.extend hs hc
    | afterStamp v t => exact nomatch (if_neg hne).symm.trans h

theorem State.step_ends {s s' : State} {l : List Char} {c : Char} (h : s.step c = some s')
    (hs : s.Ends l) : s'.Ends (l ++ [c]) := by
  cases s with
  | start =>
    rw [State.step] at h
    split_ifs at h <;> exact Option.some.inj h ▸ trivial
  | name n =>
    rw [State.step] at h
    split_ifs at h with _ hblank
    · exact Option.some.inj h ▸ trivial
    · exact Option.some.inj h ▸ atSeparator_blank l hblank
    · exact Option.some.inj h ▸ trivial
  | afterName n =>
    rw [State.step] at h
    split_ifs at h with hblank
    · exact Option.some.inj h ▸ atSeparator_blank l hblank
    · exact Option.some.inj h ▸ trivial
    · exact Option.some.inj h ▸ AtSeparator.start hs (Bool.eq_false_iff.mpr hblank)
  | block n b =>
    rw [State.step] at h
    split_ifs at h with hclose
    · exact Option.some.inj h ▸ ⟨l, c, rfl, by rw [hclose.1]; rfl⟩
    · obtain ⟨b', -, rfl⟩ := Option.map_eq_some_iff.mp h
      trivial
  | tail n labels t =>
    obtain ⟨t', ht', rfl⟩ := Option.map_eq_some_iff.mp h
    exact Tail.step_ends ht' hs

theorem State.run_ends {s : State} {l : List Char} (h : State.start.run l = some s) :
    s.Ends l := by
  induction l using List.reverseRecOn generalizing s with
  | nil => exact Option.some.inj h ▸ trivial
  | append_singleton l c ih =>
    obtain ⟨a, ha, hstep⟩ := foldlM_concat_eq_some.mp h
    exact State.step_ends hstep (ih ha)

section

variable {V T : Type} {r : Readers V T} {l : List Char} {smp : Sample V T}

/-- The last field is the timestamp, or the value of a sample without one. -/
def Readers.ReadsLast (r : Readers V T) (tok : List Char) (smp : Sample V T) : Prop :=
  (smp.timestamp = none ∧ r.value tok = some smp.value) ∨
    ∃ t, smp.timestamp = some t ∧ r.stamp tok = some t

theorem exists_lastField (h : readSample r l = some smp) :
    ∃ c tok, LastField c tok l ∧ r.ReadsLast tok smp := by
  obtain ⟨t, hrun, -, ht⟩ := readSample_eq_some.mp h
  have hends := State.run_ends hrun
  have hunstamped : ∀ v, r.unstamped v = some (smp.value, smp.timestamp) → r.ReadsLast v smp := by
    intro v hv
    obtain ⟨x, hx, heq⟩ := Option.map_eq_some_iff.mp hv
    obtain ⟨hvalue, hstamp⟩ := Prod.mk.inj heq
    exact Or.inl ⟨hstamp.symm, hvalue ▸ hx⟩
  have hstamped : ∀ v u, r.stamped v u = some (smp.value, smp.timestamp) →
      r.ReadsLast u smp := by
    intro v u hvu
    obtain ⟨x, -, hvu⟩ := Option.bind_eq_some_iff.mp hvu
    obtain ⟨y, hy, heq⟩ := Option.map_eq_some_iff.mp hvu
    exact Or.inr ⟨y, (Prod.mk.inj heq).2.symm, hy⟩
  cases t with
  | before => exact nomatch ht
  | value v =>
    obtain ⟨c, hc⟩ := InField.lastField hends
    exact ⟨c, v, hc, hunstamped v ht⟩
  | afterValue v =>
    obtain ⟨-, c, hc⟩ := hends
    exact ⟨c, v, hc, hunstamped v ht⟩
  | stamp v u =>
    obtain ⟨c, hc⟩ := InField.lastField hends
    exact ⟨c, u, hc, hstamped v u ht⟩
  | afterStamp v u =>
    obtain ⟨-, c, hc⟩ := hends
    exact ⟨c, u, hc, hstamped v u ht⟩

theorem exists_head (h : readSample r l = some smp) :
    ∃ blanks c rest, l = blanks ++ (smp.name ++ c :: rest) ∧ (∀ d ∈ blanks, isBlank d = true) ∧
      smp.name ≠ [] ∧ (∀ d ∈ smp.name, isNameChar d = true) ∧ (isBlank c = true ∨ c = '{') := by
  obtain ⟨t, hrun, -, -⟩ := readSample_eq_some.mp h
  exact State.run_start_head hrun

theorem readSample_blanks {blanks : List Char} (hblanks : ∀ d ∈ blanks, isBlank d = true)
    (l : List Char) : readSample r (blanks ++ l) = readSample r l := by
  induction blanks with
  | nil => rfl
  | cons c blanks ih =>
    obtain ⟨hc, hrest⟩ := List.forall_mem_cons.mp hblanks
    have hstep : State.start.step c = some .start := if_pos hc
    have hrun : State.start.run (c :: (blanks ++ l)) = State.start.run (blanks ++ l) := by
      rw [State.run, List.foldlM_cons, hstep]
      rfl
    rw [List.cons_append, readSample, hrun]
    exact ih hrest

/-! ## Without white space at the ends -/

variable {ws : Char → Bool}

theorem rdropWhile_append {a b : List Char} (ha : ∀ c ∈ a.getLast?, ws c = false)
    (hb : ∀ c ∈ b, ws c = true) : (a ++ b).rdropWhile ws = a := by
  induction b using List.reverseRecOn with
  | nil =>
    rw [List.append_nil, List.rdropWhile_eq_self_iff]
    intro hne hlast
    rw [ha _ (List.getLast?_eq_some_getLast hne)] at hlast
    exact Bool.false_ne_true hlast
  | append_singleton b c ih =>
    have hc := hb c (List.mem_append_right _ (List.mem_singleton_self c))
    rw [← List.append_assoc, List.rdropWhile_concat_pos _ _ _ hc]
    exact ih fun d hd => hb d (List.mem_append_left _ hd)

/-- A line that ends with a field and white space ends with the field once trimmed. -/
theorem rdropWhile_field (front : List Char) (d : Char) {tok after : List Char} (hne : tok ≠ [])
    (hsolid : ∀ c ∈ tok, ws c = false) (hafter : ∀ c ∈ after, ws c = true) :
    (front ++ d :: (tok ++ after)).rdropWhile ws = front ++ d :: tok := by
  rw [← List.cons_append, ← List.append_assoc]
  refine rdropWhile_append ?_ hafter
  intro c hc
  rw [List.getLast?_append_of_ne_nil _ (List.cons_ne_nil _ _),
    List.getLast?_cons_of_ne_nil hne] at hc
  exact hsolid c (List.mem_of_getLast? hc)

theorem head?_rdropWhile {c : Char} (hc : ws c = false) (l : List Char) :
    ((c :: l).rdropWhile ws).head? = some c := by
  have hne : (c :: l).rdropWhile ws ≠ [] := by
    intro hnil
    have hall := List.rdropWhile_eq_nil_iff.mp hnil
    rw [hall c List.mem_cons_self] at hc
    exact Bool.false_ne_true hc.symm
  obtain ⟨x, xs, hx⟩ := List.exists_cons_of_ne_nil hne
  have hpre := List.rdropWhile_prefix ws (l := c :: l)
  rw [hx] at hpre ⊢
  rw [(List.cons_prefix_cons.mp hpre).1]
  rfl

theorem LastField.append {c : Char} {tok : List Char} (h : LastField c tok l)
    (pre : List Char) : LastField c tok (pre ++ l) := by
  obtain ⟨front, blanks, rfl, hc⟩ := h
  exact ⟨pre ++ front, blanks, by rw [List.append_assoc], hc⟩

/-- The last field is determined by its separator, if neither field has the other's. -/
theorem LastField.unique {c c' : Char} {tok tok' : List Char} (h : LastField c tok l)
    (h' : LastField c' tok' l) (hc : c ∉ tok') (hc' : c' ∉ tok) : c = c' ∧ tok = tok' := by
  obtain ⟨front, blanks, rfl, -, hne, htok, hblanks⟩ := h
  obtain ⟨front', blanks', heq, -, hne', htok', hblanks'⟩ := h'
  have heq := congrArg (List.rdropWhile isBlank) heq
  rw [rdropWhile_field front c hne htok hblanks, rdropWhile_field front' c' hne' htok' hblanks']
    at heq
  obtain ⟨m, -, hm⟩ | ⟨m, -, hm⟩ := List.append_eq_append_iff.mp heq
  · cases m with
    | nil => exact List.cons.inj hm
    | cons e m =>
      refine absurd ?_ hc'
      rw [(List.cons.inj hm).2]
      exact List.mem_append_right _ List.mem_cons_self
  · cases m with
    | nil =>
      obtain ⟨hd, htail⟩ := List.cons.inj hm
      exact ⟨hd.symm, htail.symm⟩
    | cons e m =>
      refine absurd ?_ hc
      rw [(List.cons.inj hm).2]
      exact List.mem_append_right _ List.mem_cons_self

theorem isNameChar_of_separates {c : Char} (hc : separates c = true) : isNameChar c = false := by
  obtain hblank | hbrace := Bool.or_eq_true_iff.mp hc
  · obtain rfl | rfl := isBlank_iff.mp hblank <;> rfl
  · rw [beq_iff_eq.mp hbrace]
    rfl

/-- The name in front and the last field at the end of a trimmed sample line. -/
theorem exists_trimmed (hblank : ∀ c, isBlank c = true → ws c = true)
    (hname : ∀ c, isNameChar c = true → ws c = false)
    (hsolid : ∀ tok, r.ReadsLast tok smp → ∀ c ∈ tok, ws c = false)
    (h : readSample r l = some smp) :
    ∃ c rest d front tok, trim ws l = smp.name ++ c :: rest ∧ (isBlank c = true ∨ c = '{') ∧
      trim ws l = front ++ d :: tok ∧ LastField d tok l ∧ r.ReadsLast tok smp := by
  obtain ⟨blanks, c, rest, rfl, hblanks, hne, hchars, hc⟩ := exists_head h
  rw [readSample_blanks hblanks] at h
  obtain ⟨d, tok, hfield, hreads⟩ := exists_lastField h
  obtain ⟨front, after, heq, hd, htok, -, hafter⟩ := id hfield
  have hstart : (blanks ++ (smp.name ++ c :: rest)).dropWhile ws = smp.name ++ c :: rest := by
    rw [List.dropWhile_append_of_pos fun e he => hblank e (hblanks e he)]
    obtain ⟨x, xs, hx⟩ := List.exists_cons_of_ne_nil hne
    have hhead : ws x = false := hname x (hchars x (hx ▸ List.mem_cons_self))
    rw [hx, List.cons_append, List.dropWhile_cons_of_neg (by rw [hhead]; exact Bool.false_ne_true)]
  have htrim : trim ws (blanks ++ (smp.name ++ c :: rest)) = front ++ d :: tok := by
    rw [trim, hstart, heq]
    exact rdropWhile_field front d htok (hsolid tok hreads) fun e he => hblank e (hafter e he)
  have hnot : ∀ w, smp.name ≠ front ++ d :: w := by
    intro w hw
    have hdname := hchars d (hw ▸ List.mem_append_right _ List.mem_cons_self)
    rw [isNameChar_of_separates hd] at hdname
    exact Bool.false_ne_true hdname
  rw [← List.cons_append, ← List.append_assoc] at heq
  obtain ⟨m, hm, hrest⟩ | ⟨m, hm, -⟩ := List.append_eq_append_iff.mp heq
  · cases m with
    | nil =>
      rw [List.append_nil] at hm
      exact absurd hm.symm (hnot tok)
    | cons e m =>
      obtain ⟨rfl, -⟩ := List.cons.inj hrest
      exact ⟨c, m, d, front, tok, htrim.trans hm, hc, htrim, hfield.append blanks, hreads⟩
  · rw [List.append_assoc, List.cons_append] at hm
    exact absurd hm (hnot _)

end

end Cognitora.Lib.Exposition
