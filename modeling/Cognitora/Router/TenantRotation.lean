/-
  Rotation between tenants (cgn-router `src/admission.rs`, `Pool::release`).

  A round of `release` takes a tenant from the front of `turn` and puts it back at the end while
  it has waiters, whether or not the waiter it popped took the slot. So a tenant with an
  abandoned waiter in front of a live one loses its turn, and another tenant can be served twice
  meanwhile (`skipped_tenant_waits`). `rotation_fair_of_none_skipped`: between two hand-overs to
  one tenant, every other tenant with a live waiter all along is served, if no release in between
  skips it (`SkipsDead`).

  The proof follows the two tenants in `turn`: after a hand-over to `t`, every other tenant with
  waiters stands ahead of it, and stays ahead until it is popped (`Ahead`).
-/
import Cognitora.Router.AdmissionQueues

namespace Cognitora.Router

namespace Pool

/-- The pool before step `k` of a run. -/
def stateAt (cfg : AdmissionConfig) (acts : List Action) (k : Nat) : Pool :=
  run cfg (acts.take k)

/-- Step `k` hands a slot over to a waiter of `tenant`. -/
def HandsOver (cfg : AdmissionConfig) (acts : List Action) (k : Nat) (tenant : String) : Prop :=
  ∃ j ∈ servedBy (stateAt cfg acts k) (stateAt cfg acts (k + 1)),
    (stateAt cfg acts k).has j (fun c => c.tenant == tenant) = true

/-- Before step `k`, call `w` of `tenant` is parked with an open receiver. -/
def Waits (cfg : AdmissionConfig) (acts : List Action) (k : Nat) (tenant : String) (w : Nat) :
    Prop :=
  w ∈ (stateAt cfg acts k).queue tenant ∧
    (stateAt cfg acts k).has w AdmitCall.receiverOpen = true

/-- The first waiter of `tenant` is abandoned. -/
def FrontDead (p : Pool) (tenant : String) : Prop :=
  ∃ j ∈ (p.queue tenant).head?, p.has j AdmitCall.receiverOpen = false

/-- The next release skips `tenant`: its first waiter is abandoned, and so are those of the
    tenants whose turn comes before. -/
def SkippedNext (p : Pool) (tenant : String) : Prop :=
  ∀ v ∈ p.turn.takeWhile (· ≠ tenant) ++ [tenant], p.FrontDead v

/-- Step `k` is a release, and it skips `tenant`. -/
def SkipsDead (cfg : AdmissionConfig) (acts : List Action) (k : Nat) (tenant : String) : Prop :=
  (∃ a ∈ acts[k]?, Releases (stateAt cfg acts k) a) ∧ (stateAt cfg acts k).SkippedNext tenant

instance (cfg : AdmissionConfig) (acts : List Action) (k : Nat) (t : String) :
    Decidable (HandsOver cfg acts k t) :=
  inferInstanceAs (Decidable (∃ _ ∈ _, _))

instance (cfg : AdmissionConfig) (acts : List Action) (k : Nat) (t : String) (w : Nat) :
    Decidable (Waits cfg acts k t w) :=
  inferInstanceAs (Decidable (_ ∧ _))

instance (p : Pool) (t : String) : Decidable (p.FrontDead t) :=
  inferInstanceAs (Decidable (∃ _ ∈ (p.queue t).head?, _))

instance (p : Pool) (t : String) : Decidable (p.SkippedNext t) :=
  inferInstanceAs (Decidable (∀ _ ∈ _, _))

instance (p : Pool) (a : Action) : Decidable (Releases p a) := by
  cases a with
  | dropPermit => exact inferInstanceAs (Decidable (p.permits ≠ 0))
  | _ => exact inferInstanceAs (Decidable False)

instance (cfg : AdmissionConfig) (acts : List Action) (k : Nat) (t : String) :
    Decidable (SkipsDead cfg acts k t) :=
  inferInstanceAs (Decidable ((∃ _ ∈ acts[k]?, _) ∧ _))

/-- If steps `a` and `b` are consecutive hand-overs to `t`, and `u` is another tenant with a live
    waiter parked all the time between them, then `u` is served between them. -/
def FairBetween (cfg : AdmissionConfig) (acts : List Action) (t u : String) (a b : Nat) : Prop :=
  a < b → HandsOver cfg acts a t → HandsOver cfg acts b t →
    (∀ k < b, a < k → ¬ HandsOver cfg acts k t) → u ≠ t →
      (∃ w, ∀ k ≤ b, a < k → Waits cfg acts k u w) → ∃ k < b, a < k ∧ HandsOver cfg acts k u

variable {cfg : AdmissionConfig} {p p' : Pool} {t u : String} {i : Nat} {c : AdmitCall}

/-! ## Who is ahead -/

/-- `u` is in `turn`, and `t` is not before it. -/
def Ahead (p : Pool) (u t : String) : Prop :=
  ∃ l r, p.turn = l ++ u :: r ∧ t ∉ l

/-- A round for `t` puts every other tenant with waiters ahead of it. -/
theorem ahead_popped (h : Lined cfg p) {rest : List String} {q : List Nat}
    (hf : Front p t rest i q c) (d : AdmitCall) (hut : u ≠ t) (hu : u ∈ p.turn) :
    Ahead (p.popped t rest i q d) u t := by
  have hturn := h.turn_nodup
  rw [hf.turn_eq, List.nodup_cons] at hturn
  rw [hf.turn_eq, List.mem_cons] at hu
  obtain ⟨l, r, hrest⟩ := List.append_of_mem (hu.resolve_left hut)
  have hl : t ∉ l := fun htl => hturn.1 (hrest ▸ List.mem_append_left _ htl)
  unfold Ahead
  rw [turn_popped, hrest]
  split
  · exact ⟨l, r, rfl, hl⟩
  · exact ⟨l, r ++ [t], by rw [List.append_assoc, List.cons_append], hl⟩

/-- A round for another tenant leaves `u` ahead of `t`, and is not one for `t`. -/
theorem Ahead.popped (ha : Ahead p u t) {v : String} {rest : List String}
    {q : List Nat} (hf : Front p v rest i q c) (d : AdmitCall) (hv : v ≠ u) :
    v ≠ t ∧ Ahead (p.popped v rest i q d) u t := by
  obtain ⟨l, r, hturn, hl⟩ := ha
  rw [hf.turn_eq] at hturn
  cases l with
  | nil => exact absurd (List.cons.inj hturn).1 hv
  | cons x l =>
    rw [List.cons_append, List.cons.injEq] at hturn
    obtain ⟨rfl, hrest⟩ := hturn
    rw [List.mem_cons, not_or] at hl
    refine ⟨Ne.symm hl.1, ?_⟩
    unfold Ahead
    rw [turn_popped, hrest]
    split
    · exact ⟨l, r, rfl, hl.2⟩
    · exact ⟨l, r ++ [v], by rw [List.append_assoc, List.cons_append], hl.2⟩

/-! ## One release -/

theorem has_popped_self (hc : p.calls[i]? = some c) {rest : List String} {q : List Nat} (j : Nat)
    (f : AdmitCall → Bool) : (p.popped t rest i q c).has j f = p.has j f := by
  unfold has
  rw [popped_self hc, calls_putBack]

/-- An entry whose call is not the one of the round is not sent anything. -/
theorem unsent_popped (h : Lined cfg p) {v : String} {rest : List String} {q : List Nat}
    (hf : Front p v rest i q c) (d : AdmitCall) {j : Nat} (hj : j ∈ p.queue u) (hij : i ≠ j) :
    (p.popped v rest i q d).has j AdmitCall.sent = false := by
  obtain ⟨e, he, _, hs, _⟩ := h.entry u j hj
  unfold has
  show ((p.calls.set i d)[j]?).any _ = false
  rw [getElem?_set_call hf.call_eq, if_neg hij, he]
  exact hs

/-- A release that serves `t` leaves every other tenant with waiters ahead of it. -/
theorem ahead_of_served (h : Lined cfg p) (hut : u ≠ t) :
    ∀ j ∈ p.queue t, p.has j AdmitCall.receiverOpen = true →
      (release p).has j AdmitCall.sent = true → (release p).queue u ≠ [] →
        Ahead (release p) u t := by
  refine release_rule (P := fun p p' => ∀ j ∈ p.queue t, p.has j AdmitCall.receiverOpen = true →
    p'.has j AdmitCall.sent = true → p'.queue u ≠ [] → Ahead p' u t) ?_ ?_ ?_ h
  · intro p h _ j hj _ hsent
    obtain ⟨e, he, _, hs, _⟩ := h.entry t j hj
    change p.has j AdmitCall.sent = true at hsent
    rw [has, he, Option.any_some, hs] at hsent
    cases hsent
  · intro p v rest i q c h hf hopen j hj _ hsent hne
    by_cases hij : i = j
    · have hmem : i ∈ p.queue v := hf.queue_eq ▸ List.mem_cons_self
      obtain rfl := h.tenant_unique (hij ▸ hj) hmem
      rw [queue_popped, if_neg hut] at hne
      exact ahead_popped h hf _ hut ((h.mem_turn_iff u).mpr hne)
    · rw [unsent_popped h hf _ hj hij] at hsent
      cases hsent
  · intro p v rest i q c p' h hf hclosed ih j hj hopen hsent hne
    -- the call that is skipped has no open receiver
    have hij : i ≠ j := by
      rintro rfl
      rw [has, hf.call_eq, Option.any_some, hclosed] at hopen
      cases hopen
    refine ih j ?_ (by rw [has_popped_self hf.call_eq]; exact hopen) hsent hne
    rw [queue_popped]
    split
    · next htv =>
      rw [htv, hf.queue_eq] at hj
      exact (List.mem_cons.mp hj).resolve_left (Ne.symm hij)
    · exact hj

/-- A round for a tenant before `u` in `turn` does not change whether `u` is skipped. -/
theorem SkippedNext.of_popped (h : Lined cfg p) {v : String} {rest : List String} {q : List Nat}
    (hf : Front p v rest i q c) (hclosed : c.receiverOpen = false) (hvu : v ≠ u)
    (hu : u ∈ p.turn) (hs : (p.popped v rest i q c).SkippedNext u) : p.SkippedNext u := by
  have hturn := h.turn_nodup
  rw [hf.turn_eq, List.nodup_cons] at hturn
  rw [hf.turn_eq, List.mem_cons] at hu
  have hurest : u ∈ rest := hu.resolve_left (Ne.symm hvu)
  obtain ⟨l, r, hrest, hl⟩ := List.eq_append_cons_of_mem hurest
  have hbefore : ∀ r', (l ++ u :: r').takeWhile (· ≠ u) = l := by
    intro r'
    rw [List.takeWhile_append_of_pos fun x hx => by simpa using ne_of_mem_of_not_mem hx hl]
    simp
  have hpopped : (p.popped v rest i q c).turn.takeWhile (· ≠ u) = l := by
    rw [turn_popped, hrest]
    split
    · exact hbefore r
    · rw [List.append_assoc, List.cons_append]
      exact hbefore (r ++ [v])
  -- the tenants between `v` and `u` and `u` itself keep their queues
  have hsame : ∀ x ∈ l ++ [u], p.FrontDead x := by
    intro x hx
    have hxv : x ≠ v := by
      rintro rfl
      rcases List.mem_append.mp hx with hxl | hxu
      · exact hturn.1 (hrest ▸ List.mem_append_left _ hxl)
      · exact hvu (List.mem_singleton.mp hxu)
    obtain ⟨j, hj, hdead⟩ := hs x (hpopped ▸ hx)
    rw [queue_popped, if_neg hxv] at hj
    rw [has_popped_self hf.call_eq] at hdead
    exact ⟨j, hj, hdead⟩
  intro x hx
  rw [hf.turn_eq, hrest, List.takeWhile_cons, if_pos (by simpa using hvu), hbefore,
    List.cons_append, List.mem_cons] at hx
  rcases hx with rfl | hx
  · exact ⟨i, by rw [hf.queue_eq]; rfl, by rw [has, hf.call_eq]; exact hclosed⟩
  · exact hsame x hx

/-- What a step does while `u` is ahead of `t`: it serves `u`, or skips it, or leaves `u` ahead
    and does not serve `t`. -/
inductive Round (Skips : Prop) (p p' : Pool) (u t : String) : Prop where
  | served (j : Nat) (hj : j ∈ p.queue u) (hsent : p'.has j AdmitCall.sent = true)
  | skipped (hskip : Skips)
  | passed (hahead : Ahead p' u t) (hunsent : ∀ j ∈ p.queue t, p'.has j AdmitCall.sent = false)

theorem release_round (h : Lined cfg p) (hut : u ≠ t) (ha : Ahead p u t) :
    Round (p.SkippedNext u) p (release p) u t := by
  refine release_rule (P := fun p p' => Ahead p u t → Round (p.SkippedNext u) p p' u t)
    ?_ ?_ ?_ h ha
  · rintro p h hturn ⟨l, r, hlr, _⟩
    rw [hturn] at hlr
    exact absurd hlr (by simp)
  · intro p v rest i q c h hf hopen ha
    have hmem : i ∈ p.queue v := hf.queue_eq ▸ List.mem_cons_self
    by_cases hvu : v = u
    · subst hvu
      refine .served i hmem ?_
      unfold has
      show ((p.calls.set i { c with sent := true })[i]?).any _ = true
      rw [getElem?_set_call hf.call_eq, if_pos rfl]
      rfl
    · obtain ⟨hvt, ha'⟩ := ha.popped hf { c with sent := true } hvu
      refine .passed ha' fun j hj => unsent_popped h hf _ hj ?_
      rintro rfl
      exact hvt (h.tenant_unique hmem hj)
  · intro p v rest i q c p' h hf hclosed ih ha
    by_cases hvu : v = u
    · subst hvu
      refine .skipped fun x hx => ?_
      rw [hf.turn_eq, List.takeWhile_cons, if_neg (by simp), List.nil_append,
        List.mem_singleton] at hx
      subst hx
      exact ⟨i, by rw [hf.queue_eq]; rfl, by rw [has, hf.call_eq]; exact hclosed⟩
    · obtain ⟨hvt, ha'⟩ := ha.popped hf c hvu
      have hqu : (p.popped v rest i q c).queue u = p.queue u := by
        rw [queue_popped, if_neg (Ne.symm hvu)]
      have hqt : (p.popped v rest i q c).queue t = p.queue t := by
        rw [queue_popped, if_neg (Ne.symm hvt)]
      cases ih ha' with
      | served j hj hsent => exact .served j (hqu ▸ hj) hsent
      | skipped hskip =>
        obtain ⟨l, r, hlr, _⟩ := ha
        exact .skipped (hskip.of_popped h hf hclosed hvu (hlr ▸ by simp))
      | passed hahead hunsent => exact .passed hahead fun j hj => hunsent j (hqt ▸ hj)

/-! ## Every step -/

theorem Ahead.quiet (ha : Ahead p u t) (hq : Quiet p p') : Ahead p' u t := by
  obtain ⟨l, r, hturn, hl⟩ := ha
  exact ⟨l, r, hq.turn_eq.trans hturn, hl⟩

theorem Ahead.park (ha : Ahead p u t) (i : Nat) (c : AdmitCall) : Ahead (p.park i c) u t := by
  obtain ⟨l, r, hturn, hl⟩ := ha
  unfold Ahead
  show ∃ l r, (if (p.queue c.tenant).isEmpty then p.turn ++ [c.tenant] else p.turn) = _ ∧ _
  rw [hturn]
  split
  · exact ⟨l, r ++ [c.tenant], by rw [List.append_assoc, List.cons_append], hl⟩
  · exact ⟨l, r, rfl, hl⟩

theorem unsent_of_servedBy_nil (h : Lined cfg p) (hs : servedBy p p' = []) {j : Nat}
    (hj : j ∈ p.queue t) : p'.has j AdmitCall.sent = false := by
  by_contra hsent
  obtain ⟨e, he, _, hes, _⟩ := h.entry t j hj
  have hmem : j ∈ servedBy p p' :=
    mem_servedBy.mpr ⟨has_iff.mpr ⟨e, he, by simp [hes]⟩, by simpa using hsent⟩
  rw [hs] at hmem
  cases hmem

theorem act_round (h : Lined cfg p) (hut : u ≠ t) (ha : Ahead p u t) (a : Action) :
    Round (Releases p a ∧ p.SkippedNext u) p (act cfg p a) u t := by
  have he := act_effect h a
  generalize act cfg p a = p' at he
  cases he with
  | quiet hq _ => exact .passed (ha.quiet hq) fun _ hj => unsent_of_servedBy_nil h hq.servedBy_eq hj
  | park hi _ _ _ =>
    exact .passed (ha.park _ _) fun _ hj => unsent_of_servedBy_nil h (servedBy_park hi) hj
  | release hrel =>
    have hr := release_round (h.setPermits (p.permits - 1)) hut ha
    cases hr with
    | served j hj hsent => exact .served j hj hsent
    | skipped hskip => exact .skipped ⟨hrel, hskip⟩
    | passed hahead hunsent => exact .passed hahead hunsent

/-- A waiter that is served was parked with an open receiver, by a release, and no other is. -/
theorem servedBy_release (h : Lined cfg p) {a : Action} {j : Nat}
    (hj : j ∈ servedBy p (act cfg p a)) :
    act cfg p a = release { p with permits := p.permits - 1 } ∧
      (∃ t, j ∈ p.queue t) ∧ p.has j AdmitCall.receiverOpen = true ∧
        ∀ k ∈ servedBy p (act cfg p a), k = j := by
  obtain ⟨hact, t, hr⟩ := exists_released_of_servedBy h hj
  refine ⟨hact, ⟨t, hr.mem_queue⟩, hr.served_open _ rfl, fun k hk => ?_⟩
  obtain ⟨v, hv⟩ := (hr.mem_servedBy_iff h k).mp hk
  cases hv
  rfl

/-! ## Runs -/

theorem stateAt_succ {acts : List Action} {k : Nat} (hk : k < acts.length) :
    stateAt cfg acts (k + 1) = act cfg (stateAt cfg acts k) acts[k] := by
  unfold stateAt
  rw [← List.take_concat_get' acts k hk, run_concat]

theorem stateAt_of_le {acts : List Action} {k : Nat} (hk : acts.length ≤ k) :
    stateAt cfg acts (k + 1) = stateAt cfg acts k := by
  unfold stateAt
  rw [List.take_of_length_le hk, List.take_of_length_le (Nat.le_succ_of_le hk)]

theorem lined_stateAt (cfg : AdmissionConfig) (acts : List Action) (k : Nat) :
    Lined cfg (stateAt cfg acts k) :=
  lined_run cfg _

theorem lt_of_servedBy {acts : List Action} {k j : Nat}
    (hj : j ∈ servedBy (stateAt cfg acts k) (stateAt cfg acts (k + 1))) : k < acts.length := by
  by_contra hk
  rw [stateAt_of_le (Nat.le_of_not_lt hk), mem_servedBy] at hj
  obtain ⟨c, hc, hcs⟩ := has_iff.mp hj.1
  obtain ⟨d, hd, hds⟩ := has_iff.mp hj.2
  cases hc.symm.trans hd
  rw [hds] at hcs
  cases hcs

/-- Right after a hand-over to `t`, another tenant with a waiter is ahead of it. -/
theorem HandsOver.ahead {acts : List Action} {a w : Nat} (h : HandsOver cfg acts a t)
    (hut : u ≠ t) (hw : Waits cfg acts (a + 1) u w) : Ahead (stateAt cfg acts (a + 1)) u t := by
  obtain ⟨j, hj, htenant⟩ := h
  have hl := lined_stateAt cfg acts a
  have ha := lt_of_servedBy hj
  have hsent := (mem_servedBy.mp hj).2
  have hne : (stateAt cfg acts (a + 1)).queue u ≠ [] := List.ne_nil_of_mem hw.1
  rw [stateAt_succ ha] at hj hsent hne ⊢
  obtain ⟨hact, ⟨v, hv⟩, hopen, _⟩ := servedBy_release hl hj
  have hvt : v = t := by
    obtain ⟨c, hc, rfl, _⟩ := hl.entry v j hv
    obtain ⟨d, hd, hdt⟩ := has_iff.mp htenant
    cases hc.symm.trans hd
    simpa using hdt
  rw [hact] at hsent hne ⊢
  exact ahead_of_served (hl.setPermits _) hut j (hvt ▸ hv) hopen hsent hne

/-- A step finds `u` ahead of `t`: it serves `u`, or skips a waiter of `u`, or leaves `u` ahead
    and does not serve `t`. -/
theorem stateAt_round {acts : List Action} {k : Nat} (hk : k < acts.length) (hut : u ≠ t)
    (ha : Ahead (stateAt cfg acts k) u t) :
    HandsOver cfg acts k u ∨ SkipsDead cfg acts k u ∨
      Ahead (stateAt cfg acts (k + 1)) u t ∧ ¬ HandsOver cfg acts k t := by
  have hl := lined_stateAt cfg acts k
  have hr := act_round hl hut ha acts[k]
  rw [← stateAt_succ hk] at hr
  cases hr with
  | served j hj hsent =>
    obtain ⟨c, hc, ht, hs, _⟩ := hl.entry u j hj
    refine Or.inl ⟨j, mem_servedBy.mpr ⟨has_iff.mpr ⟨c, hc, by simp [hs]⟩, hsent⟩, ?_⟩
    exact has_iff.mpr ⟨c, hc, by simp [ht]⟩
  | skipped hskip =>
    exact Or.inr (Or.inl ⟨⟨acts[k], List.getElem?_eq_getElem hk, hskip.1⟩, hskip.2⟩)
  | passed hahead hunsent =>
    refine Or.inr (Or.inr ⟨hahead, ?_⟩)
    rintro ⟨j, hj, htenant⟩
    have hsent := (mem_servedBy.mp hj).2
    rw [stateAt_succ hk] at hj
    obtain ⟨_, ⟨v, hv⟩, _, _⟩ := servedBy_release hl hj
    obtain ⟨c, hc, rfl, _⟩ := hl.entry v j hv
    obtain ⟨d, hd, hdt⟩ := has_iff.mp htenant
    cases hc.symm.trans hd
    have hct : c.tenant = t := by simpa using hdt
    rw [hunsent j (hct ▸ hv)] at hsent
    cases hsent

/-- A step hands over to one tenant. -/
theorem HandsOver.unique {acts : List Action} {k : Nat} (ht : HandsOver cfg acts k t)
    (hu : HandsOver cfg acts k u) : u = t := by
  obtain ⟨j, hj, hjt⟩ := ht
  obtain ⟨i, hi, hiu⟩ := hu
  have hl := lined_stateAt cfg acts k
  have hk := lt_of_servedBy hj
  rw [stateAt_succ hk] at hj hi
  obtain ⟨_, _, _, hone⟩ := servedBy_release hl hj
  rw [hone i hi] at hiu
  obtain ⟨c, hc, hct⟩ := has_iff.mp hjt
  obtain ⟨d, hd, hdu⟩ := has_iff.mp hiu
  cases hc.symm.trans hd
  simp only [beq_iff_eq] at hct hdu
  exact hdu.symm.trans hct

/-- Between two consecutive hand-overs to one tenant, every other tenant with a live waiter
    parked all the time is served, if no release in between finds the first waiter abandoned of
    that tenant and of all whose turn comes before. -/
theorem rotation_fair_of_none_skipped (cfg : AdmissionConfig) (acts : List Action) (t u : String)
    (a b : Nat) (hskip : ∀ k ≤ b, a < k → ¬ SkipsDead cfg acts k u) :
    FairBetween cfg acts t u a b := by
  rintro hab ha hb - hut ⟨w, hw⟩
  by_contra hnone
  have hb' : b < acts.length := by
    obtain ⟨j, hj, _⟩ := hb
    exact lt_of_servedBy hj
  -- as long as it is not served, `u` stays ahead
  have hahead : ∀ k, a + 1 ≤ k → k ≤ b → Ahead (stateAt cfg acts k) u t := by
    intro k hk
    induction k, hk using Nat.le_induction with
    | base => exact fun _ => ha.ahead hut (hw (a + 1) hab (Nat.lt_succ_self a))
    | succ k hk ih =>
      intro hkb
      rcases stateAt_round (by omega) hut (ih (by omega)) with hu | hs | hpass
      · exact absurd ⟨k, by omega, by omega, hu⟩ hnone
      · exact absurd hs (hskip k (by omega) (by omega))
      · exact hpass.1
  rcases stateAt_round hb' hut (hahead b hab (Nat.le_refl b)) with hu | hs | hpass
  · exact hut (hb.unique hu)
  · exact hskip b (Nat.le_refl b) hab hs
  · exact hpass.2 hb

/-- One slot. Two requests of "t" and one of "u" wait; "u" is served between those of "t". -/
def alternating : List Action :=
  [.tryAdmit, .startAdmit "t", .enter 0, .startAdmit "u", .enter 1, .startAdmit "t", .enter 2,
    .dropPermit, .poll 0 false, .dropPermit, .poll 1 false, .dropPermit]

theorem rotation_fair_alternating :
    (∀ k ≤ 11, 7 < k → ¬ SkipsDead ⟨1, 4⟩ alternating k "u") ∧
      HandsOver ⟨1, 4⟩ alternating 7 "t" ∧ HandsOver ⟨1, 4⟩ alternating 11 "t" ∧
        FairBetween ⟨1, 4⟩ alternating "t" "u" 7 11 :=
  have hskip : ∀ k ≤ 11, 7 < k → ¬ SkipsDead ⟨1, 4⟩ alternating k "u" := by decide +kernel
  ⟨hskip, by decide +kernel, by decide +kernel,
    rotation_fair_of_none_skipped ⟨1, 4⟩ alternating "t" "u" 7 11 hskip⟩

/-- One slot. Two requests of "t" and two of "u" wait, and the first of "u" is cancelled. The
    release after the first hand-over to "t" skips it, and "t" is next again. -/
theorem skipped_tenant_waits :
    ¬ ∀ (cfg : AdmissionConfig) (acts : List Action) (t u : String) (a b : Nat),
      FairBetween cfg acts t u a b := by
  intro h
  have hfair := h ⟨1, 4⟩
    [.tryAdmit, .startAdmit "t", .enter 0, .startAdmit "u", .enter 1, .startAdmit "u", .enter 2,
      .startAdmit "t", .enter 3, .cancel 1, .dropPermit, .poll 0 false, .dropPermit] "t" "u" 10 12
    (by decide) (by decide +kernel) (by decide +kernel) (by decide +kernel) (by decide)
    ⟨2, by decide +kernel⟩
  exact absurd hfair (by decide +kernel)

end Pool

end Cognitora.Router
