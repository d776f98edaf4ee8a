/-
  The text a client gets (cgn-infer `src/scheduler/mod.rs`, `push_token` and `finish`).

  The tokenizer assumption `Extends`: decoding more tokens extends the text, except that
  trailing U+FFFD of the shorter text may still change. `Emitting` is the invariant of a stream
  that carries the rest: what was emitted is a beginning of an earlier text that ended with a
  complete character, contained no stop string, and had nothing emitted from where a stop string
  could begin. Whatever that text grows into, the first stop string in it starts no earlier than
  the emitted text ends (`Safe.before_stop`).

  `run_stop_strings_hidden`: so no part of a stop string is ever sent, and no slice panics.

  `run_text_complete_iff`: all of the text is sent at the length budget, but at the end-of-sequence
  token only if nothing was held back: `finish` flushes for the reason "length" only.
-/
import Cognitora.Infer.Refinement
import Mathlib.Data.List.DropRight

namespace Cognitora.Infer

/-- Decoding more tokens extends the text, up to trailing U+FFFD. -/
def Extends (decode : List Token → Option Text) : Prop :=
  ∀ ts more text later, decode ts = some text → decode (ts ++ more) = some later →
    text.rdropWhile (· == '�') <+: later

theorem Extends.of_complete {decode : List Token → Option Text} (h : Extends decode)
    {ts us : List Token} (hts : ts <+: us) {text later : Text} (htext : decode ts = some text)
    (hlater : decode us = some later) (hc : endsIncomplete text = false) : text <+: later := by
  obtain ⟨more, rfl⟩ := hts
  have hext := h ts more text later htext hlater
  have hself : text.rdropWhile (· == '�') = text := by
    rw [List.rdropWhile_eq_self_iff]
    intro hne hlast
    unfold endsIncomplete at hc
    rw [List.getLast?_eq_some_getLast hne] at hc
    simp only [beq_iff_eq] at hlast
    rw [hlast] at hc
    simp at hc
  rwa [hself] at hext

/-- The text of some events. -/
def deltas (events : List StreamEvent) : Text :=
  (events.map StreamEvent.delta).flatten

theorem deltas_concat (events : List StreamEvent) (ev : StreamEvent) :
    deltas (events ++ [ev]) = deltas events ++ ev.delta := by
  simp [deltas]

/-! ## Text that can be emitted -/

/-- `d` may be emitted when the text so far is `text`. -/
structure Safe (text : Text) (stops : List Text) (d : Text) : Prop where
  begins : d <+: text
  clear : ∀ stop ∈ stops, find text stop = none
  held : ∀ p w, HeldBack text stops p w → byteLen d ≤ byteLen p

/-- Whatever the text grows into, no stop string starts in what was emitted. -/
theorem Safe.before_stop {text later d : Text} {stops : List Text} (h : Safe text stops d)
    (hl : text <+: later) : d <+: later ∧
      ∀ stop ∈ stops, ∀ n, find later stop = some n → byteLen d ≤ n := by
  refine ⟨h.begins.trans hl, ?_⟩
  intro stop hstop n hn
  obtain ⟨p, r, hp, rfl⟩ := find_some hn
  by_contra hlt
  -- the occurrence starts inside `text`, at its last part `w`
  have hpre : p <+: text := by
    refine prefix_of_byteLen_le (hp ▸ List.prefix_append p _) hl ?_
    have := byteLen_mono h.begins
    omega
  obtain ⟨w, rfl⟩ := hpre
  obtain ⟨u, rfl⟩ := hl
  have hw : w ≠ [] := by
    rintro rfl
    have := byteLen_mono h.begins
    rw [List.append_nil] at this
    omega
  rw [List.append_assoc, List.append_cancel_left_eq] at hp
  -- it lies in `w`, or `w` is a beginning of it that was held back
  rcases List.prefix_or_prefix_of_prefix (List.prefix_append w u) (hp ▸ List.prefix_append stop r)
    with hin | hin
  · exact absurd (h.held p w ⟨rfl, hw, stop, hstop, hin⟩) hlt
  · obtain ⟨r', rfl⟩ := hin
    exact find_eq_none (h.clear stop hstop) p r' rfl

/-- No stop string occurs. -/
theorem find_none_of_min? {text : Text} {stops : List Text}
    (h : (stops.filterMap (find text)).min? = none) : ∀ stop ∈ stops, find text stop = none :=
  List.filterMap_eq_nil_iff.mp (List.min?_eq_none_iff.mp h)

theorem safe_heldBackLen {text p : Text} {stops : List Text} (hp : p <+: text)
    (hlen : byteLen p = heldBackLen text stops)
    (h : (stops.filterMap (find text)).min? = none) : Safe text stops p where
  begins := hp
  clear := find_none_of_min? h
  held := fun q w hheld => hlen ▸ (heldBackLen_spec text stops).2 q w hheld

namespace Stream

variable {σ : Type} {st : Stream σ} {text : Text}

/-- What was emitted so far was safe when it was emitted, and the mark is at its end. -/
structure Emitting (st : Stream σ) : Prop where
  len_eq : byteLen (deltas st.offered) = st.emittedLen
  slices : st.badSlice = false
  safe : deltas st.offered = [] ∨ ∃ ts text, ts ≠ [] ∧ ts <+: st.generated ∧
    st.req.tokenizer ts = some text ∧ endsIncomplete text = false ∧
    Safe text st.req.stop (deltas st.offered)

/-- What was emitted is a beginning of the text, before any stop string in it. -/
theorem Emitting.before_stop (h : Emitting st) (hext : Extends st.req.tokenizer)
    {us : List Token} (hus : st.generated <+: us) {later : Text}
    (hlater : st.req.tokenizer us = some later) : deltas st.offered <+: later ∧
      ∀ stop ∈ st.req.stop, ∀ n, find later stop = some n → byteLen (deltas st.offered) ≤ n := by
  rcases h.safe with hnil | ⟨ts, text, _, hts, htext, hc, hsafe⟩
  · rw [hnil]
    exact ⟨List.nil_prefix, fun _ _ n _ => Nat.zero_le n⟩
  · exact hsafe.before_stop (hext.of_complete (hts.trans hus) htext hlater hc)

/-- The relation looks at the text, the mark and the slices; tokens may be added. -/
theorem Emitting.congr (h : Emitting st) {st' : Stream σ}
    (hoffered : deltas st'.offered = deltas st.offered) (hlen : st'.emittedLen = st.emittedLen)
    (hbad : st'.badSlice = st.badSlice) (hreq : st'.req = st.req)
    (hgen : st.generated <+: st'.generated) : Emitting st' := by
  refine ⟨by rw [hoffered, hlen]; exact h.len_eq, hbad.trans h.slices, ?_⟩
  rw [hoffered, hreq]
  rcases h.safe with hnil | ⟨ts, text, hne, hts, hrest⟩
  · exact Or.inl hnil
  · exact Or.inr ⟨ts, text, hne, hts.trans hgen, hrest⟩

/-- The final event has no text. -/
theorem deltas_close (st : Stream σ) (ending : Ending) :
    deltas (st.close ending).offered = deltas st.offered := by
  show deltas (st.offered ++ [_]) = _
  rw [deltas_concat]
  exact List.append_nil _

theorem Emitting.close (h : Emitting st) (ending : Ending) : Emitting (st.close ending) :=
  h.congr (deltas_close st ending) rfl rfl rfl List.prefix_rfl

/-- Only the length budget flushes. -/
theorem finish_eq_close (st : Stream σ) (ending : Ending) (h : ending ≠ .length) :
    st.finish ending = st.close ending := by
  unfold finish
  rw [if_neg]
  cases ending <;> simp [Ending.reason] at h ⊢

/-- A slice of the text that starts where the emitted text ends. -/
theorem sliceText_next {p d r : Text} (hp : byteLen p = st.emittedLen)
    (htext : text = p ++ d ++ r) :
    st.sliceText text st.emittedLen (byteLen p + byteLen d) = (d, st) := by
  unfold sliceText
  rw [htext, ← hp, slice_append]

theorem Emitting.emitNew (h : Emitting st) (hext : Extends st.req.tokenizer)
    (hne : st.generated ≠ []) (htext : st.req.tokenizer st.generated = some text)
    (hmiss : (st.req.stop.filterMap (find text)).min? = none) :
    Emitting (st.emitNew text).2 ∧ (endsIncomplete text = false →
      heldBackLen text st.req.stop ≤ (st.emitNew text).2.emittedLen) := by
  obtain ⟨p, hp, hlen⟩ := exists_prefix_heldBackLen text st.req.stop
  have hle := byteLen_mono hp
  unfold Stream.emitNew
  split
  · next hcond =>
    have hc : endsIncomplete text = false := by
      simpa using (Bool.and_eq_true_iff.mp hcond).1
    dsimp only
    split
    · next hlt =>
      have hd : deltas st.offered <+: p :=
        prefix_of_byteLen_le (h.before_stop hext List.prefix_rfl htext).1 hp
          (by rw [h.len_eq]; omega)
      obtain ⟨d, rfl⟩ := hd
      obtain ⟨r, hr⟩ := hp
      rw [byteLen_append] at hlen
      rw [← hlen, sliceText_next h.len_eq hr.symm]
      have hnew : deltas (st.offered ++ [st.event d none]) = deltas st.offered ++ d :=
        deltas_concat _ _
      refine ⟨⟨?_, h.slices, Or.inr ⟨st.generated, text, hne, List.prefix_rfl, htext, hc, ?_⟩⟩, ?_⟩
      · show byteLen (deltas (st.offered ++ [st.event d none])) = _
        rw [hnew, byteLen_append]
        rfl
      · show Safe text st.req.stop (deltas (st.offered ++ [st.event d none]))
        rw [hnew]
        exact safe_heldBackLen ⟨r, hr⟩ (by rw [byteLen_append]; exact hlen) hmiss
      · intro _
        exact Nat.le_refl _
    · next hge => exact ⟨h, fun _ => Nat.le_of_not_lt hge⟩
  · next hcond =>
    refine ⟨h, fun hc => ?_⟩
    rw [hc, Bool.not_false, Bool.true_and, decide_eq_true_eq] at hcond
    show _ ≤ st.emittedLen
    omega

/-- The flush at the length budget completes the text. -/
theorem Emitting.flush (h : Emitting st) (hext : Extends st.req.tokenizer)
    (htext : st.req.tokenizer st.generated = some text) :
    deltas st.flush.offered = text ∧ st.flush.badSlice = false := by
  obtain ⟨r, rfl⟩ := (h.before_stop hext List.prefix_rfl htext).1
  unfold Stream.flush
  rw [htext]
  dsimp only
  split
  · have hs := sliceText_next (d := r) (r := []) h.len_eq (List.append_nil _).symm
    rw [byteLen_append, hs]
    exact ⟨deltas_concat _ _, h.slices⟩
  · next hge =>
    rw [byteLen_append, h.len_eq] at hge
    refine ⟨?_, h.slices⟩
    by_cases hr : r = []
    · rw [hr, List.append_nil]
    · have := byteLen_pos hr
      omega

/-- At a stop string, the text before it has been sent. -/
theorem Emitting.stopAt (h : Emitting st) (hext : Extends st.req.tokenizer)
    (htext : st.req.tokenizer st.generated = some text) {hit : Nat}
    (hhit : (st.req.stop.filterMap (find text)).min? = some hit) :
    (st.stopAt text hit).badSlice = false ∧
      takeBytes text hit = some (deltas (st.stopAt text hit).offered) := by
  have hmem : hit ∈ st.req.stop.filterMap (find text) := List.min?_mem hhit
  obtain ⟨stop, hstop, hfind⟩ := List.mem_filterMap.mp hmem
  obtain ⟨hbegin, hbefore⟩ := h.before_stop hext List.prefix_rfl htext
  have hle := hbefore stop hstop hit hfind
  obtain ⟨p, r, hp, rfl⟩ := find_some hfind
  have hd : deltas st.offered <+: p :=
    prefix_of_byteLen_le hbegin (hp ▸ List.prefix_append p _) hle
  have htake : takeBytes text (byteLen p) = some p := by rw [hp, takeBytes_append]
  have hhead : st.sliceText text 0 (byteLen p) = (p, st) := by
    unfold sliceText slice
    rw [htake]
    cases p <;> rfl
  obtain ⟨d, rfl⟩ := hd
  have hdrop : dropBytes (deltas st.offered ++ d) st.emittedLen = some d := by
    rw [← h.len_eq, dropBytes_append]
  unfold Stream.stopAt
  rw [hhead]
  dsimp only
  rw [hdrop, Option.getD_some, finish_eq_close _ .stopString nofun, deltas_close, htake]
  split
  · next hnil =>
    rw [List.isEmpty_iff.mp hnil, List.append_nil]
    exact ⟨h.slices, rfl⟩
  · refine ⟨h.slices, ?_⟩
    show _ = some (deltas (st.offered ++ [_]))
    rw [deltas_concat]
    rfl

/-! ## Every ending -/

/-- The text sent, by how the request ended; and the text of a request that goes on or meets the
    end-of-sequence token is sent as far as it is not held back. -/
structure Delivers (st : Stream σ) : Prop where
  slices : st.badSlice = false
  emitting : st.ended ≠ some .stopString → st.ended ≠ some .length → Emitting st
  stopped : st.ended = some .stopString → ∃ text hit, st.req.tokenizer st.generated = some text ∧
    (st.req.stop.filterMap (find text)).min? = some hit ∧
    takeBytes text hit = some (deltas st.offered)
  full : st.ended = some .length → st.req.tokenizer st.generated = some (deltas st.offered) ∧
    ∀ stop ∈ st.req.stop, find (deltas st.offered) stop = none
  caught : st.ended = none ∨ st.ended = some .eos → st.generated ≠ [] →
    ∃ text, st.req.tokenizer st.generated = some text ∧
      (endsIncomplete text = false → heldBackLen text st.req.stop ≤ st.emittedLen)

/-- A request that ends without a stop string, the budget or the end-of-sequence token. -/
theorem Emitting.delivers (h : Emitting st) (hended : st.ended ≠ none)
    (hstop : st.ended ≠ some .stopString) (hlen : st.ended ≠ some .length)
    (heos : st.ended ≠ some .eos) : Delivers st where
  slices := h.slices
  emitting := fun _ _ => h
  stopped := fun he => absurd he hstop
  full := fun he => absurd he hlen
  caught := by
    rintro (he | he)
    · exact absurd he hended
    · exact absurd he heos

theorem Emitting.emitOrFinish (h : Emitting st) (hlive : st.ended = none)
    (hext : Extends st.req.tokenizer) (hne : st.generated ≠ []) (maxSeqLen : Nat) :
    Delivers (st.emitOrFinish maxSeqLen) := by
  unfold Stream.emitOrFinish
  cases htext : st.req.tokenizer st.generated with
  | none =>
    dsimp only
    rw [finish_eq_close st .failed nofun]
    exact (h.close .failed).delivers nofun nofun nofun nofun
  | some text =>
    dsimp only
    cases hhit : (st.req.stop.filterMap (find text)).min? with
    | some hit =>
      obtain ⟨hbad, htake⟩ := h.stopAt hext htext hhit
      refine ⟨hbad, fun he => absurd (stopAt_ended st text hit) he, ?_, nofun, ?_⟩
      · intro _
        rw [stopAt_req, stopAt_generated]
        exact ⟨text, hit, htext, hhit, htake⟩
      · rintro (he | he)
        · cases he
        · cases he
    | none =>
      obtain ⟨hemit, hcaught⟩ := h.emitNew hext hne htext hhit
      have hon := st.onward_emitNew text
      have htext' :
          (st.emitNew text).2.req.tokenizer (st.emitNew text).2.generated = some text := by
        rw [hon.req_eq, hon.generated_eq]
        exact htext
      dsimp only
      split
      · have hgone : Emitting { (st.emitNew text).2 with ended := some .disconnected } :=
          hemit.congr rfl rfl rfl rfl List.prefix_rfl
        exact hgone.delivers nofun nofun nofun nofun
      · split
        · obtain ⟨hfull, hbad⟩ := hemit.flush (by rw [hon.req_eq]; exact hext) htext'
          have hd : deltas ((st.emitNew text).2.finish .length).offered = text :=
            (deltas_close _ _).trans hfull
          refine ⟨hbad, fun _ he => absurd rfl he, nofun, ?_, ?_⟩
          · intro _
            rw [finish_req, finish_generated, hd,
              show (st.emitNew text).2.req.stop = st.req.stop by rw [hon.req_eq]]
            exact ⟨htext', find_none_of_min? hhit⟩
          · rintro (he | he)
            · cases he
            · cases he
        · have hnone : (st.emitNew text).2.ended = none := hon.ended_eq.trans hlive
          refine ⟨hemit.slices, fun _ _ => hemit, ?_, ?_, ?_⟩
          · rw [hnone]
            nofun
          · rw [hnone]
            nofun
          · intro _ _
            rw [show (st.emitNew text).2.req.stop = st.req.stop by rw [hon.req_eq]]
            exact ⟨text, htext', hcaught⟩

theorem Delivers.feed (h : Delivers st) (hext : Extends st.req.tokenizer) (maxSeqLen : Nat)
    (x : Input) : Delivers (st.feed maxSeqLen x) := by
  cases hended : st.ended with
  | some ending =>
    unfold Stream.feed
    rw [hended]
    exact h
  | none =>
    have hemit : Emitting st := h.emitting (by rw [hended]; nofun) (by rw [hended]; nofun)
    cases x with
    | failure =>
      rw [feed_failure hended, finish_eq_close st .failed nofun]
      exact (hemit.close .failed).delivers nofun nofun nofun nofun
    | token t =>
      rw [feed_token hended]
      unfold push
      split
      · rw [finish_eq_close st .eos nofun]
        exact ⟨hemit.slices, fun _ _ => hemit.close .eos, nofun, nofun,
          fun _ => h.caught (Or.inl hended)⟩
      · have hgrown : Emitting { st with generated := st.generated ++ [t] } :=
          hemit.congr rfl rfl rfl rfl (List.prefix_append _ _)
        exact hgrown.emitOrFinish hended hext (List.concat_ne_nil _ _) maxSeqLen

theorem delivers_start (maxSeqLen : Nat) (req : Request σ) : Delivers (start maxSeqLen req) := by
  have hnew : Emitting (⟨req, [], 0, [], none, false⟩ : Stream σ) := ⟨rfl, rfl, Or.inl rfl⟩
  unfold start
  dsimp only
  split
  · exact (hnew.close .rejected).delivers nofun nofun nofun nofun
  · exact ⟨rfl, fun _ _ => hnew, nofun, nofun, fun _ hne => absurd rfl hne⟩

/-- At every moment, no stop string in the text starts before the end of what was sent. -/
theorem Delivers.before_stop (h : Delivers st) (hext : Extends st.req.tokenizer)
    (htext : st.req.tokenizer st.generated = some text) : deltas st.offered <+: text ∧
      ∀ stop ∈ st.req.stop, ∀ n, find text stop = some n → byteLen (deltas st.offered) ≤ n := by
  by_cases hstop : st.ended = some .stopString
  · obtain ⟨text', hit, htext', hhit, htake⟩ := h.stopped hstop
    rw [htext] at htext'
    obtain rfl := Option.some.inj htext'
    obtain ⟨hmem, hmin⟩ := List.min?_eq_some_iff.mp hhit
    obtain ⟨first, _, hfirst⟩ := List.mem_filterMap.mp hmem
    obtain ⟨p, r, hp, rfl⟩ := find_some hfirst
    have hd : p = deltas st.offered := by
      rw [hp, takeBytes_append] at htake
      exact Option.some.inj htake
    rw [← hd]
    refine ⟨hp ▸ List.prefix_append p _, ?_⟩
    intro stop hm n hn
    exact hmin n (List.mem_filterMap.mpr ⟨stop, hm, hn⟩)
  · by_cases hlen : st.ended = some .length
    · obtain ⟨hfull, hclear⟩ := h.full hlen
      rw [htext] at hfull
      obtain rfl := Option.some.inj hfull
      refine ⟨List.prefix_rfl, ?_⟩
      intro stop hm n hn
      rw [hclear stop hm] at hn
      cases hn
    · exact (h.emitting hstop hlen).before_stop hext List.prefix_rfl htext

/-- What was sent is the whole text only if nothing of it is held back. -/
theorem Emitting.complete (h : Emitting st) (hext : Extends st.req.tokenizer)
    (hall : st.req.tokenizer st.generated = some (deltas st.offered)) :
    deltas st.offered = [] ∨ (st.generated ≠ [] ∧ endsIncomplete (deltas st.offered) = false ∧
      heldBackLen (deltas st.offered) st.req.stop = byteLen (deltas st.offered)) := by
  rcases h.safe with hnil | ⟨ts, text, hne, hts, htext, hc, hsafe⟩
  · exact Or.inl hnil
  · have heq : deltas st.offered = text :=
      eq_of_prefix_of_byteLen_le hsafe.begins
        (byteLen_mono (hext.of_complete hts htext hall hc))
    rw [heq] at hsafe ⊢
    refine Or.inr ⟨?_, hc, ?_⟩
    · intro hnil
      rw [hnil] at hts
      exact hne (List.prefix_nil.mp hts)
    · rcases (heldBackLen_spec text st.req.stop).1 with hlen | ⟨p, w, hheld, _⟩
      · exact hlen
      · have hle := hsafe.held p w hheld
        have hw := byteLen_pos hheld.2.1
        rw [hheld.1, byteLen_append] at hle
        omega

/-- The text sent is complete at the length budget; at the end-of-sequence token it is if
    nothing of it was held back. -/
theorem Delivers.complete_iff (h : Delivers st) (hext : Extends st.req.tokenizer)
    (hended : st.ended = some .eos ∨ st.ended = some .length) :
    st.req.tokenizer st.generated = some (deltas st.offered) ↔
      st.ended = some .length ∨ st.req.tokenizer st.generated = some [] ∨
      (st.generated ≠ [] ∧ ∃ text, st.req.tokenizer st.generated = some text ∧
        endsIncomplete text = false ∧ heldBackLen text st.req.stop = byteLen text) := by
  rcases hended with heos | hlen
  · have hemit : Emitting st := h.emitting (by rw [heos]; nofun) (by rw [heos]; nofun)
    constructor
    · intro hall
      rcases hemit.complete hext hall with hnil | ⟨hne, hc, hheld⟩
      · exact Or.inr (Or.inl (hnil ▸ hall))
      · exact Or.inr (Or.inr ⟨hne, _, hall, hc, hheld⟩)
    · rintro (hlen | hnil | ⟨hne, text, htext, hc, hheld⟩)
      · rw [heos] at hlen
        cases hlen
      · have hpre := (hemit.before_stop hext List.prefix_rfl hnil).1
        rw [hnil, List.prefix_nil.mp hpre]
      · obtain ⟨text', htext', hcaught⟩ := h.caught (Or.inr heos) hne
        rw [htext] at htext'
        obtain rfl := Option.some.inj htext'
        have hle := hcaught hc
        rw [hheld, ← hemit.len_eq] at hle
        rw [htext, eq_of_prefix_of_byteLen_le
          (hemit.before_stop hext List.prefix_rfl htext).1 hle]
  · exact iff_of_true (h.full hlen).1 (Or.inl hlen)

/-- What a stream shows of the stop strings of its request. -/
structure HidesStops (st : Stream σ) : Prop where
  /-- What was sent is a beginning of the text that ends before any stop string in it. -/
  before : ∀ text, st.req.tokenizer st.generated = some text → deltas st.offered <+: text ∧
    ∀ stop ∈ st.req.stop, ∀ n, find text stop = some n → byteLen (deltas st.offered) ≤ n
  /-- At a stop string, it is the text up to the first one. -/
  upTo : st.ended = some .stopString → ∃ text hit, st.req.tokenizer st.generated = some text ∧
    (st.req.stop.filterMap (find text)).min? = some hit ∧
    takeBytes text hit = some (deltas st.offered)
  /-- Every slice was on character boundaries. -/
  slices : st.badSlice = false

theorem delivers_run (maxSeqLen : Nat) {req : Request σ} (hext : Extends req.tokenizer)
    (inputs : List Input) : Delivers (run maxSeqLen req inputs) := by
  refine (List.foldlRecOn (motive := fun st : Stream σ => st.req = req ∧ Delivers st) inputs _
    ⟨start_req maxSeqLen req, delivers_start maxSeqLen req⟩ ?_).2
  intro st ⟨hreq, h⟩ x _
  exact ⟨(st.feed_req maxSeqLen x).trans hreq, h.feed (hreq ▸ hext) maxSeqLen x⟩

theorem hidesStops_run (maxSeqLen : Nat) {req : Request σ} (hext : Extends req.tokenizer)
    (inputs : List Input) : HidesStops (run maxSeqLen req inputs) := by
  have h := delivers_run maxSeqLen hext inputs
  refine ⟨fun text htext => h.before_stop ?_ htext, h.stopped, h.slices⟩
  rw [run_req]
  exact hext

end Stream

namespace Scheduler

variable {μ Λ σ : Type} (M : BatchModel μ Λ) (sample : σ → Λ → List Token → Token × σ)
  (model : μ) (cfg : SchedulerConfig) (acts : List (Action σ))

/-- No slice panics if all tokenizers are as assumed. -/
theorem run_slices (hall : ∀ r ∈ submitted acts, Extends r.tokenizer) :
    (run M sample model cfg acts).badSlice = false := by
  have hsim := run_sim M sample model cfg acts
  rw [← Bool.not_eq_true]
  intro hbad
  obtain ⟨id, st, hst, hbad'⟩ := hsim.slices.mp hbad
  obtain ⟨inputs, hrun⟩ := streams_run M sample model cfg acts id st hst
  have hmem : st.req ∈ submitted acts := by
    have hpos := ((hsim.submitted id).mp (by rw [hst]; nofun)).1
    have hid := streams_req M sample model cfg acts (id - 1)
    rw [Nat.sub_add_cancel hpos, hst] at hid
    exact List.mem_of_getElem? hid.symm
  have hgood := (Stream.delivers_run M.maxSeqLen (hall _ hmem) inputs).slices
  rw [← hrun, hbad'] at hgood
  cases hgood

/-- No stop string leaks: after any of the inputs that reached a request in a run, its stream
    hides them. The client receives the events of the stream, and nothing panics in the scheduler
    if all tokenizers are as assumed. -/
theorem run_stop_strings_hidden {k : Nat} {req : Request σ}
    (hreq : (submitted acts)[k]? = some req) (hext : Extends req.tokenizer) :
    let s := run M sample model cfg acts
    ∃ inputs, streams M sample model cfg acts (k + 1) =
        some (Stream.run M.maxSeqLen req inputs) ∧
      s.channel (k + 1) = (Stream.run M.maxSeqLen req inputs).received ∧
      (∀ past, past <+: inputs → (Stream.run M.maxSeqLen req past).HidesStops) ∧
      ((∀ r ∈ submitted acts, Extends r.tokenizer) → s.badSlice = false) := by
  intro s
  obtain ⟨inputs, hst, hchannel⟩ := exists_stream M sample model cfg acts hreq
  exact ⟨inputs, hst, hchannel, fun past _ => Stream.hidesStops_run _ hext past,
    run_slices M sample model cfg acts⟩

/-- Letters decode to themselves. -/
theorem extends_map (f : Token → Char) : Extends fun ts => some (ts.map f) := by
  intro ts more text later htext hlater
  cases htext
  cases hlater
  rw [List.map_append]
  exact (List.rdropWhile_prefix _ _).trans (List.prefix_append _ _)

/-- A request whose tokens decode to the letter E, with the stop string "END". -/
def endRequest : Request Unit where
  promptTokens := [7]
  maxTokens := 4
  stop := [['E', 'N', 'D']]
  params := ()
  tokenizer := fun ts => some (ts.map fun _ => 'E')
  eosTokenId := some 0

/-- Samples one token, then the end-of-sequence token. -/
def sampleOne (_ : Unit) (_ : Unit) (tokens : List Token) : Token × Unit :=
  (if tokens.length < 2 then 1 else 0, ())

theorem run_stop_strings_hidden_end :
    (submitted [Action.enqueue endRequest, .step])[0]? = some endRequest ∧
    Extends endRequest.tokenizer ∧
    let s := run (BatchModel.silent 8) sampleOne () {} [.enqueue endRequest, .step]
    ∃ inputs, streams (BatchModel.silent 8) sampleOne () {} [.enqueue endRequest, .step] 1 =
        some (Stream.run 8 endRequest inputs) ∧
      s.channel 1 = (Stream.run 8 endRequest inputs).received ∧
      (∀ past, past <+: inputs → (Stream.run 8 endRequest past).HidesStops) ∧
      ((∀ r ∈ submitted [Action.enqueue endRequest, .step], Extends r.tokenizer) →
        s.badSlice = false) :=
  ⟨rfl, extends_map _, run_stop_strings_hidden (BatchModel.silent 8) sampleOne () {}
    [.enqueue endRequest, .step] rfl (extends_map _)⟩

/-- For a client that received everything, a request that ends by the end-of-sequence token or
    the length budget has sent its whole text iff it ended by the budget, or nothing of the text
    was held back. -/
theorem run_text_complete_iff {k : Nat} {req : Request σ}
    (hreq : (submitted acts)[k]? = some req) (hext : Extends req.tokenizer) :
    let s := run M sample model cfg acts
    ∃ st, streams M sample model cfg acts (k + 1) = some st ∧ st.req = req ∧
      (s.channel (k + 1) = st.offered → st.ended = some .eos ∨ st.ended = some .length →
        (req.tokenizer st.generated = some (deltas (s.channel (k + 1))) ↔
          st.ended = some .length ∨ req.tokenizer st.generated = some [] ∨
          (st.generated ≠ [] ∧ ∃ text, req.tokenizer st.generated = some text ∧
            endsIncomplete text = false ∧ heldBackLen text req.stop = byteLen text))) := by
  intro s
  obtain ⟨inputs, hst, _⟩ := exists_stream M sample model cfg acts hreq
  have hdel := Stream.delivers_run M.maxSeqLen hext inputs
  have hreq' := Stream.run_req M.maxSeqLen req inputs
  generalize Stream.run M.maxSeqLen req inputs = st at hst hdel hreq'
  subst hreq'
  refine ⟨st, hst, rfl, ?_⟩
  intro hall hended
  rw [hall]
  exact hdel.complete_iff hext hended

theorem run_text_complete_iff_end :
    (submitted [Action.enqueue endRequest, .step])[0]? = some endRequest ∧
    Extends endRequest.tokenizer ∧
    let s := run (BatchModel.silent 8) sampleOne () {} [.enqueue endRequest, .step]
    ∃ st, streams (BatchModel.silent 8) sampleOne () {} [.enqueue endRequest, .step] 1 = some st ∧
      st.req = endRequest ∧
      (s.channel 1 = st.offered → st.ended = some .eos ∨ st.ended = some .length →
        (endRequest.tokenizer st.generated = some (deltas (s.channel 1)) ↔
          st.ended = some .length ∨ endRequest.tokenizer st.generated = some [] ∨
          (st.generated ≠ [] ∧ ∃ text, endRequest.tokenizer st.generated = some text ∧
            endsIncomplete text = false ∧ heldBackLen text endRequest.stop = byteLen text))) :=
  ⟨rfl, extends_map _, run_text_complete_iff (BatchModel.silent 8) sampleOne () {}
    [.enqueue endRequest, .step] rfl (extends_map _)⟩

/-- One generated token with the text "E", held back because "END" could follow. The
    end-of-sequence token comes next, and the client gets no text at all. -/
theorem eos_loses_held_back_text :
    Extends endRequest.tokenizer ∧
    let s := run (BatchModel.silent 8) sampleOne () {} [.enqueue endRequest, .step]
    (streams (BatchModel.silent 8) sampleOne () {} [.enqueue endRequest, .step] 1).map
        (fun st => (st.generated, st.ended, st.offered)) =
      some ([1], some .eos, s.channel 1) ∧
    endRequest.tokenizer [1] = some ['E'] ∧ deltas (s.channel 1) = [] :=
  ⟨extends_map _, by decide +kernel⟩

end Scheduler

end Cognitora.Infer
