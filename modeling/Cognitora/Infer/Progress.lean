/-
  The engine loop makes progress, or does not.

  With nothing running, a step admits a request exactly if the head of the queue fits the
  whole pool (`admits_iff_fits`). `enqueue` does not check that; a head that does not fit
  is never admitted, and nothing behind it is either (`step_eq_self`).

  If every sequence fits, the loop drains (`drains`), preemption notwithstanding. The rank
  is lexicographic: tokens still to be generated, then sequences that decode, then prompt
  tokens still to be fed. Preemption puts prompt tokens back, but only in a step that pushes
  or finishes something, or in one that leaves no sequence decoding.
-/
import Cognitora.Infer.Resources
import Mathlib.Algebra.Ring.Nat

namespace Cognitora.Infer.Scheduler

open Cognitora.Lib

variable {μ ν Λ σ : Type} {M : BatchModel μ Λ} {s t : Scheduler μ σ}
  {pre post : List (Sequence σ)} {q : Sequence σ}

/-! ## Admission with nothing running -/

/-- The prompt and one more position fit the whole pool. -/
def Fits (s : Scheduler μ σ) (q : Sequence σ) : Prop :=
  KvPool.blocksFor (q.promptLen + 1) ≤ s.pool.totalBlocks

theorem admitOne_running_ne_nil (h : admitOne s = some t) : t.running ≠ [] := by
  obtain ⟨q, rest, _, _, _, rfl⟩ := admitOne_some h
  simp

theorem admitWaiting_running_ne_nil (h : s.running ≠ []) : (admitWaiting s).running ≠ [] :=
  admitWaiting_rule (P := fun u => u.running ≠ []) (fun _ _ _ ha => admitOne_running_ne_nil ha) h

/-- With nothing running the whole pool is free, so the head is granted what it asks for
    exactly if it fits. -/
theorem reserve_of_idle (h : Shape M s) (hrun : s.running = []) (id n : Nat) :
    (s.pool.reserve id (n + 1)).1 = true ↔ KvPool.blocksFor (n + 1) ≤ s.pool.totalBlocks := by
  have hkeys : ∀ i, i ∉ s.pool.held := by
    intro i hi
    have := (h.held_iff i).mp hi
    rw [hrun] at this
    exact absurd this List.not_mem_nil
  have hused := KvPool.usedBlocks_of_no_keys h.pool_wf hkeys
  have hheld : s.pool.heldBy id = 0 := by
    unfold KvPool.heldBy
    rw [AList.lookup_eq_none.mpr (hkeys id), Option.getD_none]
  have hpos := KvPool.blocksFor_succ_pos n
  rcases KvPool.reserve_cases h.pool_wf id (n + 1) with ⟨e, hlt⟩ | ⟨e, hle⟩ | ⟨_, hle, e⟩
  · unfold KvPool.freeBlocks at hlt
    rw [e]
    simp only [Bool.false_eq_true, false_iff]
    omega
  · omega
  · unfold KvPool.freeBlocks at hle
    rw [e]
    simp only [true_iff]
    omega

theorem admitOne_of_idle (h : Shape M s) (hrun : s.running = []) {rest : List (Sequence σ)}
    (hw : s.waiting = q :: rest) : (admitOne s).isSome ↔ Fits s q := by
  have hlt : s.running.length < s.cfg.maxBatch := by
    rw [hrun]
    exact h.maxBatch_pos
  unfold admitOne Fits
  rw [if_pos hlt, hw]
  dsimp only
  rw [← reserve_of_idle h hrun q.id q.promptLen]
  split
  · next hb => simp [hb]
  · next hb => simp [hb]

/-- With nothing running, `admit` moves a sequence exactly if the head fits. -/
theorem admitWaiting_of_idle (h : Shape M s) (hrun : s.running = []) {rest : List (Sequence σ)}
    (hw : s.waiting = q :: rest) : (admitWaiting s).running ≠ [] ↔ Fits s q := by
  rw [← admitOne_of_idle h hrun hw]
  unfold admitWaiting
  rw [hw, List.length_cons]
  unfold admitRounds
  cases ha : admitOne s with
  | none => simp [hrun]
  | some t =>
    have hne := admitOne_running_ne_nil ha
    simp only [Option.isSome_some, iff_true]
    -- the rounds after the first only add to `running`
    exact admitRounds_rule (P := fun u => u.running ≠ [])
      (fun _ _ _ ha => admitOne_running_ne_nil ha) rest.length hne

theorem Shape.mapModel {u : Scheduler (μ × List Call) σ} (h : Shape M.recorded u) :
    Shape M (Scheduler.mapModel Prod.fst u) :=
  ⟨h.pool_wf, h.maxBatch_pos, h.maxBatch_le, h.prefillChunk_pos, h.running_le, h.ids_nodup,
    h.ids_lt, h.seq_wf, h.queued, h.held_iff⟩

variable (sample : σ → Λ → List Token → Token × σ)

theorem run_shape (model : μ) (cfg : SchedulerConfig) (acts : List (Action σ)) :
    Shape M (run M sample model cfg acts) := by
  rw [run_recorded]
  exact (run_inv sample model cfg acts).toShape.mapModel

/-- `admit` is the first stage of `step`: in a reached state with nothing running and
    something waiting, the next step moves a sequence into `running` exactly if the prompt at
    the head of the queue, with one more position, fits the whole pool. -/
theorem admits_iff_fits (M : BatchModel μ Λ) (model : μ) (cfg : SchedulerConfig)
    (acts : List (Action σ)) {q : Sequence σ} {rest : List (Sequence σ)}
    (hrun : (run M sample model cfg acts).running = [])
    (hw : (run M sample model cfg acts).waiting = q :: rest) :
    (admitWaiting (run M sample model cfg acts)).running ≠ [] ↔
      KvPool.blocksFor (q.promptLen + 1) ≤ (run M sample model cfg acts).pool.totalBlocks :=
  admitWaiting_of_idle (run_shape sample model cfg acts) hrun hw

/-- A prompt of 15 tokens and one more position fit a pool of one block. -/
theorem admits_iff_fits_fifteen :
    (admitWaiting (run (BatchModel.silent 4096) (fun _ _ _ => (5, ())) () { kvPoolTokens := 16 }
      [.enqueue (.plain 15 100)])).running ≠ [] :=
  (admits_iff_fits (fun _ _ _ => (5, ())) (BatchModel.silent 4096) () { kvPoolTokens := 16 }
    [.enqueue (.plain 15 100)] rfl rfl).mpr (by decide)

/-- A prompt of 16 tokens passes `enqueue` and never fits a pool of one block. -/
theorem head_blocks_forever :
    ¬ ∀ (M : BatchModel Unit Unit) (sample : Unit → Unit → List Token → Token × Unit)
        (cfg : SchedulerConfig) (acts : List (Action Unit)),
      (run M sample () cfg acts).running = [] → (run M sample () cfg acts).waiting ≠ [] →
        (admitWaiting (run M sample () cfg acts)).running ≠ [] := by
  intro h
  have hrun := h (BatchModel.silent 4096) (fun _ _ _ => (5, ())) { kvPoolTokens := 16 }
    [.enqueue (.plain 16 100)] rfl (by decide +kernel)
  exact hrun rfl

/-- Otherwise the step changes nothing, and neither does any later one. -/
theorem step_eq_self (h : Shape M s) (hrun : s.running = []) {rest : List (Sequence σ)}
    (hw : s.waiting = q :: rest) (hfit : ¬ Fits s q) : step M sample s = s := by
  have hone : admitOne s = none := by
    have := mt (admitOne_of_idle h hrun hw).mp hfit
    simpa using this
  have hadm : admitWaiting s = s := by
    unfold admitWaiting
    rw [hw, List.length_cons]
    unfold admitRounds
    rw [hone]
  have hpre : prefillOneChunk M sample s = s := by
    unfold prefillOneChunk
    rw [hrun]
    rfl
  have hcand : s.candidates = [] := by
    unfold candidates
    rw [hrun]
    rfl
  unfold step
  rw [hadm, hpre]
  unfold decodeStep
  rw [hcand]
  rfl

/-! ## The rank -/

/-- Tokens `q` may still generate, and two more for its end. -/
def credit (maxSeqLen : Nat) (q : Sequence σ) : Nat :=
  q.budget maxSeqLen + 2 - q.generated.length

/-- Prompt tokens of `q` still to be fed. -/
def remaining (q : Sequence σ) : Nat :=
  match q.phase with
  | .prefill done => q.promptLen - done
  | .decode => 0

def weight (f : Sequence σ → Nat) (s : Scheduler μ σ) : Nat :=
  ((s.waiting ++ s.running).map f).sum

def credits (M : BatchModel μ Λ) (s : Scheduler μ σ) : Nat :=
  weight (credit M.maxSeqLen) s

/-- Sequences of `qs` that decode. -/
def decoding (qs : List (Sequence σ)) : Nat :=
  (qs.filter fun q => q.phase == .decode).length

def rank (M : BatchModel μ Λ) (s : Scheduler μ σ) : ℕ ×ₗ ℕ ×ₗ ℕ :=
  toLex (credits M s, toLex (decoding s.running, weight remaining s))

theorem weight_swap (f : Sequence σ → Nat) {r : Sequence σ} {qs : List (Sequence σ)}
    (hs : (s.waiting ++ s.running).Perm (q :: qs)) (ht : (t.waiting ++ t.running).Perm (r :: qs)) :
    weight f t + f q = weight f s + f r := by
  unfold weight
  rw [(hs.map f).sum_eq, (ht.map f).sum_eq, List.map_cons, List.map_cons, List.sum_cons,
    List.sum_cons]
  omega

theorem weight_drop (f : Sequence σ → Nat) {qs : List (Sequence σ)}
    (hs : (s.waiting ++ s.running).Perm (q :: qs)) (ht : (t.waiting ++ t.running).Perm qs) :
    weight f t + f q = weight f s := by
  unfold weight
  rw [(hs.map f).sum_eq, (ht.map f).sum_eq, List.map_cons, List.sum_cons]
  omega

theorem decoding_append (xs ys : List (Sequence σ)) :
    decoding (xs ++ ys) = decoding xs + decoding ys := by
  unfold decoding
  rw [List.filter_append, List.length_append]

theorem decoding_decode (hp : q.phase = .decode) : decoding [q] = 1 := by
  simp [decoding, hp]

theorem decoding_prefill {d : Nat} (hp : q.phase = .prefill d) : decoding [q] = 0 := by
  simp [decoding, hp]

theorem weight_of_core (f : Sequence σ → Nat) (e : t.core = s.core) : weight f t = weight f s := by
  obtain ⟨_, _, _, e4, e5, _⟩ := core_eq_iff.mp e
  unfold weight
  rw [e4, e5]

/-! ## What can change from one state to a later one -/

/-- Later states have the same pool, only sequences whose prompts were there before, and no
    more credit. -/
structure Onward (M : BatchModel μ Λ) (s t : Scheduler μ σ) : Prop where
  total_eq : t.pool.totalBlocks = s.pool.totalBlocks
  prompts : ∀ q ∈ t.waiting ++ t.running, ∃ r ∈ s.waiting ++ s.running, q.promptLen = r.promptLen
  credits_le : credits M t ≤ credits M s

theorem Onward.refl (s : Scheduler μ σ) : Onward M s s :=
  ⟨rfl, fun q hq => ⟨q, hq, rfl⟩, le_rfl⟩

theorem Onward.trans {u : Scheduler μ σ} (h : Onward M s t) (h' : Onward M t u) : Onward M s u := by
  refine ⟨h'.total_eq.trans h.total_eq, ?_, Nat.le_trans h'.credits_le h.credits_le⟩
  intro q hq
  obtain ⟨r, hr, e⟩ := h'.prompts q hq
  obtain ⟨r', hr', e'⟩ := h.prompts r hr
  exact ⟨r', hr', e.trans e'⟩

theorem Onward.of_core {u : Scheduler μ σ} (h : Onward M s t) (e : u.core = t.core) :
    Onward M s u := by
  have hw := weight_of_core (credit M.maxSeqLen) e
  obtain ⟨_, _, e3, e4, e5, _⟩ := core_eq_iff.mp e
  refine ⟨?_, ?_, ?_⟩
  · rw [e3]; exact h.total_eq
  · rw [e4, e5]; exact h.prompts
  · unfold credits
    rw [hw]
    exact h.credits_le

theorem Onward.fits (h : Onward M s t) (hfit : ∀ q ∈ s.waiting ++ s.running, Fits s q) :
    ∀ q ∈ t.waiting ++ t.running, Fits t q := by
  intro q hq
  obtain ⟨r, hr, e⟩ := h.prompts q hq
  unfold Fits
  rw [h.total_eq, e]
  exact hfit r hr

/-- One sequence changes, with its prompt and no gain in credit. -/
theorem Onward.swap {r : Sequence σ} {qs : List (Sequence σ)}
    (hpool : t.pool.totalBlocks = s.pool.totalBlocks)
    (hs : (s.waiting ++ s.running).Perm (q :: qs)) (ht : (t.waiting ++ t.running).Perm (r :: qs))
    (hp : r.promptLen = q.promptLen) (hc : credit M.maxSeqLen r ≤ credit M.maxSeqLen q) :
    Onward M s t := by
  have hw := weight_swap (credit M.maxSeqLen) hs ht
  refine ⟨hpool, ?_, by unfold credits; omega⟩
  intro x hx
  rcases List.mem_cons.mp (ht.subset hx) with rfl | hx
  · exact ⟨q, hs.symm.subset List.mem_cons_self, hp⟩
  · exact ⟨x, hs.symm.subset (List.mem_cons_of_mem _ hx), rfl⟩

/-- One sequence leaves. -/
theorem Onward.drop {qs : List (Sequence σ)}
    (hpool : t.pool.totalBlocks = s.pool.totalBlocks)
    (hs : (s.waiting ++ s.running).Perm (q :: qs)) (ht : (t.waiting ++ t.running).Perm qs) :
    Onward M s t := by
  have hw := weight_drop (credit M.maxSeqLen) hs ht
  refine ⟨hpool, ?_, by unfold credits; omega⟩
  intro x hx
  exact ⟨x, hs.symm.subset (List.mem_cons_of_mem _ (ht.subset hx)), rfl⟩

theorem credit_pos {n : Nat} (h : SeqWf n q) : 2 ≤ credit n q := by
  have := h.generated_le
  unfold credit
  omega

/-! ## The stages of a step -/

/-- Taking a sequence out uses up its credit. -/
theorem Onward.removed (h : Shape M s) (hr : s.running = pre ++ q :: post)
    (e : t.core = (removeRunning M s pre.length q).core) :
    Onward M s t ∧ credits M t < credits M s := by
  rw [removeRunning_mid M hr] at e
  have hs := perm_mid s.waiting hr
  have hw := weight_drop (credit M.maxSeqLen) (t := { s with
    running := pre ++ post, pool := s.pool.release q.id, model := M.dropSeq s.model q.id })
    hs (List.Perm.refl _)
  have hon : Onward M s { s with
      running := pre ++ post, pool := s.pool.release q.id, model := M.dropSeq s.model q.id } :=
    Onward.drop (KvPool.release_totalBlocks _ _) hs (List.Perm.refl _)
  have hc := credit_pos (h.seq_wf_running (mem_mid hr))
  refine ⟨hon.of_core e, ?_⟩
  unfold credits
  rw [weight_of_core _ e]
  omega

/-- One running sequence is replaced by one with its prompt and no more credit. -/
theorem Onward.replace {r : Sequence σ} (hw : t.waiting = s.waiting) (hp : t.pool = s.pool)
    (hr : s.running = pre ++ q :: post) (ht : t.running = pre ++ r :: post)
    (hlen : r.promptLen = q.promptLen) (hc : credit M.maxSeqLen r ≤ credit M.maxSeqLen q) :
    Onward M s t ∧
      credits M t + credit M.maxSeqLen q = credits M s + credit M.maxSeqLen r := by
  have hs := perm_mid s.waiting hr
  have ht' : (t.waiting ++ t.running).Perm (r :: (s.waiting ++ (pre ++ post))) := by
    rw [hw]
    exact perm_mid s.waiting ht
  exact ⟨Onward.swap (by rw [hp]) hs ht' hlen hc, weight_swap _ hs ht'⟩

/-- Phase and sampler do not count. -/
theorem Onward.rephase {r : Sequence σ} (hw : t.waiting = s.waiting) (hp : t.pool = s.pool)
    (hr : s.running = pre ++ q :: post) (ht : t.running = pre ++ r :: post)
    (hlen : r.promptLen = q.promptLen) (hc : credit M.maxSeqLen r = credit M.maxSeqLen q) :
    Onward M s t ∧ credits M t = credits M s := by
  obtain ⟨hon, hw⟩ := Onward.replace hw hp hr ht hlen (le_of_eq hc)
  exact ⟨hon, by omega⟩

theorem credit_grown {n : Nat} (hb : q.generated.length + 1 < q.budget n) (token : Token)
    (e : Nat) : credit n { grown q token with emittedLen := e } + 1 = credit n q := by
  have hbudget : Sequence.budget { grown q token with emittedLen := e } n = q.budget n := rfl
  unfold credit
  rw [hbudget]
  simp only [grown, List.length_append, List.length_singleton]
  omega

/-- A pushed token uses up credit. -/
theorem pushToken_onward (h : Shape M s) (hr : s.running = pre ++ q :: post) (token : Token) :
    Onward M s (pushToken M s pre.length token) ∧
      credits M (pushToken M s pre.length token) < credits M s := by
  rcases pushToken_core M hr token with e | ⟨hb, e', e⟩
  · exact Onward.removed h hr e
  · have hcredit := credit_grown hb token e'
    obtain ⟨hon, hw⟩ := Onward.replace (M := M) (s := s) (t := { s with
      running := pre ++ { grown q token with emittedLen := e' } :: post }) rfl rfl hr rfl rfl
      (by omega)
    refine ⟨hon.of_core e, ?_⟩
    have hcore := weight_of_core (credit M.maxSeqLen) e
    unfold credits at hw ⊢
    omega

/-- A preempted sequence keeps its credit. -/
theorem preempt_onward (s : Scheduler μ σ) (id : Nat) :
    Onward M s (preempt M s id) ∧ credits M (preempt M s id) = credits M s := by
  rcases preempt_cases M s id with ⟨e, _⟩ | ⟨pre, q, post, hr, rfl, e⟩
  · rw [e]
    exact ⟨Onward.refl s, rfl⟩
  · have hs := perm_mid s.waiting hr
    have ht : ((preempt M s q.id).waiting ++ (preempt M s q.id).running).Perm
        ({ q with phase := .prefill 0 } :: (s.waiting ++ (pre ++ post))) := by
      rw [e]
      exact List.Perm.refl _
    have hcredit : credit M.maxSeqLen { q with phase := .prefill 0 } = credit M.maxSeqLen q := rfl
    have hw := weight_swap (credit M.maxSeqLen) hs ht
    refine ⟨Onward.swap ?_ hs ht rfl (le_of_eq hcredit), ?_⟩
    · rw [e]
      exact KvPool.release_totalBlocks _ _
    · unfold credits
      omega

theorem makeRoom_onward (s : Scheduler μ σ) :
    Onward M s (makeRoom M s) ∧ credits M (makeRoom M s) = credits M s := by
  refine makeRoom_rule (P := fun t => Onward M s t ∧ credits M t = credits M s) ?_ ?_
    ⟨Onward.refl s, rfl⟩
  · intro t id need _ h
    have hon : Onward M t { t with pool := (t.pool.reserve id (need + 1)).2 } :=
      ⟨KvPool.reserve_totalBlocks _ _ _, fun q hq => ⟨q, hq, rfl⟩, le_rfl⟩
    exact ⟨h.1.trans hon, h.2⟩
  · intro t id h
    obtain ⟨hon, hc⟩ := preempt_onward (M := M) t id
    exact ⟨h.1.trans hon, hc.trans h.2⟩

/-- Admission moves sequences without changing the rank. -/
theorem admitWaiting_onward (h : Shape M s) :
    Onward M s (admitWaiting s) ∧ rank M (admitWaiting s) = rank M s := by
  refine (admitWaiting_rule
    (P := fun t => Shape M t ∧ Onward M s t ∧ rank M t = rank M s) ?_
    ⟨h, Onward.refl s, rfl⟩).2
  rintro t u ⟨hs, hon, hrank⟩ ha
  refine ⟨hs.admitOne ha, ?_⟩
  obtain ⟨q, rest, hw, _, _, rfl⟩ := admitOne_some ha
  have hphase := hs.queued q (hw ▸ List.mem_cons_self)
  have hperm : (t.waiting ++ t.running).Perm (q :: (rest ++ t.running)) := by
    rw [hw]
    exact List.Perm.refl _
  have hperm' : (rest ++ (t.running ++ [{ q with admittedAt := t.tick + 1 }])).Perm
      ({ q with admittedAt := t.tick + 1 } :: (rest ++ t.running)) := by
    rw [← List.append_assoc]
    exact List.perm_append_singleton _ _
  have hcredit := weight_swap (credit M.maxSeqLen) hperm (t := { t with
    pool := (t.pool.reserve q.id (q.promptLen + 1)).2
    waiting := rest
    tick := t.tick + 1
    running := t.running ++ [{ q with admittedAt := t.tick + 1 }] }) hperm'
  have hremaining := weight_swap remaining hperm (t := { t with
    pool := (t.pool.reserve q.id (q.promptLen + 1)).2
    waiting := rest
    tick := t.tick + 1
    running := t.running ++ [{ q with admittedAt := t.tick + 1 }] }) hperm'
  refine ⟨hon.trans (Onward.swap (KvPool.reserve_totalBlocks _ _ _) hperm hperm' rfl le_rfl), ?_⟩
  rw [← hrank]
  unfold rank credits
  rw [Nat.add_right_cancel hcredit, Nat.add_right_cancel hremaining, decoding_append,
    decoding_prefill (q := { q with admittedAt := t.tick + 1 }) hphase]
  rfl

/-- `prefill_one_chunk` does nothing because all running sequences decode; or it uses up
    credit; or it feeds part of a prompt and changes nothing else of the rank. -/
theorem prefillOneChunk_onward (h : Shape M s) :
    Onward M s (prefillOneChunk M sample s) ∧
    ((prefillOneChunk M sample s = s ∧ ∀ q ∈ s.running, q.phase = .decode) ∨
      credits M (prefillOneChunk M sample s) < credits M s ∨
      (credits M (prefillOneChunk M sample s) = credits M s ∧
        decoding (prefillOneChunk M sample s).running = decoding s.running ∧
        weight remaining (prefillOneChunk M sample s) < weight remaining s)) := by
  rcases prefillOneChunk_cases M sample s with ⟨ht, e⟩ | ⟨pre, q, post, d, hr, hp, _, hcases⟩
  · rw [e]
    exact ⟨Onward.refl s, Or.inl ⟨rfl, prefillTarget_none ht⟩⟩
  · have hq := mem_mid hr
    obtain ⟨hpos, hd⟩ := h.chunkLen_pos hq hp
    have hcalled : Shape M (prefillCalled M s q d) := h.setModel _
    have hrc : (prefillCalled M s q d).running = pre ++ q :: post := hr
    rcases hcases with ⟨_, logits, _, e⟩ | ⟨hlt, _, e⟩ | ⟨_, e⟩
    · rw [e]
      generalize (sample q.sampler logits q.tokens).2 = sampler
      generalize (sample q.sampler logits q.tokens).1 = token
      have hw : SeqWf M.maxSeqLen { q with phase := .decode, sampler := sampler } := by
        refine (h.seq_wf_running hq).congr rfl rfl rfl rfl ?_
        intro k hk
        exact absurd hk (by simp)
      obtain ⟨hon, hc⟩ := Onward.rephase (M := M) (s := s) (t := { prefillCalled M s q d with
        running := pre ++ { q with phase := .decode, sampler := sampler } :: post })
        rfl rfl hr rfl rfl rfl
      obtain ⟨hon', hc'⟩ := pushToken_onward
        (hcalled.replace hrc (r := { q with phase := .decode, sampler := sampler }) rfl hw)
        rfl token
      exact ⟨hon.trans hon', Or.inr (Or.inl (lt_of_lt_of_eq hc' hc))⟩
    · rw [e]
      obtain ⟨hon, hc⟩ := Onward.rephase (M := M) (s := s) (t := { prefillCalled M s q d with
        running := pre ++ { q with phase := .prefill (d + chunkLen s q d) } :: post })
        rfl rfl hr rfl rfl rfl
      have hw := weight_swap remaining (perm_mid s.waiting hr)
        (t := { prefillCalled M s q d with
          running := pre ++ { q with phase := .prefill (d + chunkLen s q d) } :: post })
        (perm_mid (s := { prefillCalled M s q d with
          running := pre ++ { q with phase := .prefill (d + chunkLen s q d) } :: post })
          s.waiting rfl)
      have hrem : remaining q = q.promptLen - d := by
        unfold remaining
        rw [hp]
      have hrem' : remaining { q with phase := .prefill (d + chunkLen s q d) } =
          q.promptLen - (d + chunkLen s q d) := rfl
      refine ⟨hon, Or.inr (Or.inr ⟨hc, ?_, by omega⟩)⟩
      rw [hr]
      simp [decoding, List.filter_append, hp]
    · rw [e]
      obtain ⟨hon, hc⟩ := Onward.removed hcalled hrc (finish_core M hrc .error)
      have hon' : Onward M s (prefillCalled M s q d) := ⟨rfl, fun q hq => ⟨q, hq, rfl⟩, le_rfl⟩
      exact ⟨hon'.trans hon, Or.inr (Or.inl hc)⟩

/-! ## Batched decode -/

theorem candidates_length (s : Scheduler μ σ) : s.candidates.length = decoding s.running := by
  unfold candidates decoding
  rw [List.length_map]

section Recorded

variable {N : BatchModel μ Λ} {u v : Scheduler (μ × List Call) σ}

/-- Inside the loops over the batch: one credit is gone for every sequence dealt with. -/
structure Spent (N : BatchModel μ Λ) (u : Scheduler (μ × List Call) σ)
    (pre : List (Sequence σ)) (v : Scheduler (μ × List Call) σ) : Prop
    extends Mid Shorter N pre v where
  onward : Onward N.recorded u v
  spent : credits N.recorded v + decoding u.running ≤ credits N.recorded u + decoding pre

theorem Spent.skip (h : Spent N u (pre ++ [q]) v) (hp : q.phase ≠ .decode) : Spent N u pre v := by
  refine ⟨h.toMid.skip hp, h.onward, ?_⟩
  have hd : decoding [q] = 0 := by simp [decoding, hp]
  have := h.spent
  rw [decoding_append, hd] at this
  exact this

/-- The work at one index, given that it uses up credit. -/
theorem Spent.next {w : Scheduler (μ × List Call) σ} (h : Spent N u (pre ++ [q]) v)
    (hp : q.phase = .decode) (hmid : Mid Shorter N pre w) (hon : Onward N.recorded v w)
    (hc : credits N.recorded w < credits N.recorded v) : Spent N u pre w := by
  refine ⟨hmid, h.onward.trans hon, ?_⟩
  have := h.spent
  rw [decoding_append, decoding_decode hp] at this
  omega

theorem Spent.finish (h : Spent N u (pre ++ [q]) v) (hp : q.phase = .decode)
    (reason : FinishReason) : Spent N u pre (finish N.recorded v pre.length reason) := by
  obtain ⟨post, hr, _⟩ := h.split
  rw [List.append_assoc, List.singleton_append] at hr
  obtain ⟨hon, hc⟩ := Onward.removed h.toShape hr (finish_core N.recorded hr reason)
  exact h.next hp (h.toMid.finish reason) hon hc

theorem Spent.sampleAt (h : Spent N u (pre ++ [q]) v) (hp : q.phase = .decode) (logits : Λ) :
    Spent N u pre (sampleAt N.recorded sample v pre.length logits) := by
  obtain ⟨post, hr, _⟩ := h.split
  rw [List.append_assoc, List.singleton_append] at hr
  have hmid := h.toMid.sampleAt sample hp logits
  rw [sampleAt_mid N.recorded sample hr] at hmid ⊢
  generalize sample q.sampler logits q.tokens = next at hmid ⊢
  have hwf := h.seq_wf_running (mem_mid hr)
  obtain ⟨hon, hc⟩ := Onward.rephase (M := N.recorded) (s := v)
    (t := { v with running := pre ++ { q with sampler := next.2 } :: post }) rfl rfl hr rfl rfl rfl
  obtain ⟨hon', hc'⟩ := pushToken_onward (h.toShape.replace hr (r := { q with sampler := next.2 })
    rfl (hwf.congr rfl rfl rfl rfl hwf.done_lt)) rfl next.1
  exact h.next hp hmid (hon.trans hon') (lt_of_lt_of_eq hc' hc)

/-- Every sequence in the batch costs credit. -/
theorem decodeBatched_onward (h : Inv Shorter N u)
    (hroom : ∀ q ∈ u.running, q.phase = .decode →
      KvPool.blocksFor (q.tokens.length + 1) ≤ u.pool.heldBy q.id) :
    Onward N.recorded u (decodeBatched N.recorded sample u (decodeBatch 0 u.running)) ∧
      credits N.recorded (decodeBatched N.recorded sample u (decodeBatch 0 u.running)) +
        decoding u.running ≤ credits N.recorded u := by
  have hspent : Spent N u []
      (decodeBatched N.recorded sample u (decodeBatch 0 u.running)) := by
    refine decodeBatched_rule (Q := fun pre _ => Spent N u pre) sample ?_ ?_ ?_
      ⟨h.decode_mid shorter_grows hroom, ⟨rfl, fun q hq => ⟨q, hq, rfl⟩, le_rfl⟩, le_rfl⟩
    · intro _ pre q _ v _ _ hp hs
      exact hs.finish hp .error
    · intro _ pre q _ v _ logits _ hp hs
      exact hs.sampleAt sample hp logits
    · intro pre q v _ hp hs
      exact hs.skip hp
  exact ⟨hspent.onward, hspent.spent⟩

/-- `decode_step` does nothing because nothing decodes; or it uses up credit; or it leaves no
    sequence decoding. -/
theorem decodeStep_onward (h : Inv Shorter N u) :
    Onward N.recorded u (decodeStep N.recorded sample u) ∧
    ((decodeStep N.recorded sample u = u ∧ decoding u.running = 0) ∨
      credits N.recorded (decodeStep N.recorded sample u) < credits N.recorded u ∨
      (credits N.recorded (decodeStep N.recorded sample u) = credits N.recorded u ∧
        decoding (decodeStep N.recorded sample u).running < decoding u.running)) := by
  have hlen := candidates_length u
  obtain ⟨hon, hc⟩ := makeRoom_onward (M := N.recorded) u
  unfold decodeStep
  split
  · next he =>
    rw [List.isEmpty_iff.mp he, List.length_nil] at hlen
    exact ⟨Onward.refl u, Or.inl ⟨rfl, hlen.symm⟩⟩
  · next hne =>
    have hpos : 0 < decoding u.running := by
      rw [← hlen]
      exact List.length_pos_of_ne_nil fun he => hne (List.isEmpty_iff.mpr he)
    have hblen : (decodeBatch 0 (makeRoom N.recorded u).running).length =
        decoding (makeRoom N.recorded u).running := decodeBatch_length 0 _
    dsimp only
    split
    · next hb =>
      rw [List.isEmpty_iff.mp hb, List.length_nil] at hblen
      exact ⟨hon, Or.inr (Or.inr ⟨hc, by omega⟩)⟩
    · next hb =>
      have hbpos : 0 < (decodeBatch 0 (makeRoom N.recorded u).running).length :=
        List.length_pos_of_ne_nil fun he => hb (List.isEmpty_iff.mpr he)
      obtain ⟨hon', hc'⟩ := decodeBatched_onward sample h.makeRoom
        fun q hq hp => makeRoom_room h.toShape hq hp
      exact ⟨hon.trans hon', Or.inr (Or.inl (by omega))⟩

/-! ## Draining -/

theorem rank_lt_of_credits {v : Scheduler (μ × List Call) σ}
    (h : credits N.recorded v < credits N.recorded u) : rank N.recorded v < rank N.recorded u :=
  Prod.Lex.toLex_lt_toLex.mpr (Or.inl h)

theorem rank_lt_of_decoding {v : Scheduler (μ × List Call) σ}
    (hc : credits N.recorded v = credits N.recorded u)
    (h : decoding v.running < decoding u.running) : rank N.recorded v < rank N.recorded u :=
  Prod.Lex.toLex_lt_toLex.mpr (Or.inr ⟨hc, Prod.Lex.toLex_lt_toLex.mpr (Or.inl h)⟩)

theorem rank_lt_of_remaining {v : Scheduler (μ × List Call) σ}
    (hc : credits N.recorded v = credits N.recorded u)
    (hd : decoding v.running = decoding u.running)
    (h : weight remaining v < weight remaining u) : rank N.recorded v < rank N.recorded u :=
  Prod.Lex.toLex_lt_toLex.mpr (Or.inr ⟨hc, Prod.Lex.toLex_lt_toLex.mpr (Or.inr ⟨hd, h⟩)⟩)

/-- Nothing is left to do. -/
def Idle (s : Scheduler ν σ) : Prop :=
  s.waiting = [] ∧ s.running = []

/-- If every sequence fits the pool, a step of a scheduler that is not idle runs one. -/
theorem admitWaiting_busy (h : Shape M s) (hfit : ∀ q ∈ s.waiting ++ s.running, Fits s q)
    (hidle : ¬ Idle s) : (admitWaiting s).running ≠ [] := by
  by_cases hrun : s.running = []
  · cases hw : s.waiting with
    | nil => exact absurd ⟨hw, hrun⟩ hidle
    | cons q rest =>
      refine (admitWaiting_of_idle h hrun hw).mpr (hfit q ?_)
      rw [hw]
      exact List.mem_append_left _ List.mem_cons_self
  · exact admitWaiting_running_ne_nil hrun

theorem decoding_pos (hne : s.running ≠ []) (hall : ∀ q ∈ s.running, q.phase = .decode) :
    0 < decoding s.running := by
  obtain ⟨q, hq⟩ := List.exists_mem_of_ne_nil _ hne
  refine List.length_pos_of_mem (List.mem_filter.mpr ⟨hq, ?_⟩)
  rw [hall q hq]
  rfl

/-- Every step outside the idle state lowers the rank. -/
theorem rank_step_lt (h : Inv Shorter N u)
    (hfit : ∀ q ∈ u.waiting ++ u.running, Fits u q) (hidle : ¬ Idle u) :
    Onward N.recorded u (step N.recorded sample u) ∧
      rank N.recorded (step N.recorded sample u) < rank N.recorded u := by
  have hbusy := admitWaiting_busy h.toShape hfit hidle
  obtain ⟨hon1, hrank⟩ := admitWaiting_onward h.toShape
  have h1 := h.admitWaiting
  have h2 := h1.prefillOneChunk sample (shorter_starts _)
  rw [← hrank]
  unfold step
  generalize admitWaiting u = a at h1 h2 hon1 hbusy
  obtain ⟨hon2, hcases2⟩ := prefillOneChunk_onward sample h1.toShape
  obtain ⟨hon3, hcases3⟩ := decodeStep_onward sample h2
  refine ⟨hon1.trans (hon2.trans hon3), ?_⟩
  have hle3 := hon3.credits_le
  rcases hcases2 with ⟨e2, hall⟩ | hc2 | ⟨hc2, hd2, hw2⟩
  · -- everything running decodes
    have hpos := decoding_pos hbusy hall
    rw [e2] at hcases3 ⊢
    rcases hcases3 with ⟨_, hzero⟩ | hc3 | ⟨hc3, hd3⟩
    · omega
    · exact rank_lt_of_credits hc3
    · exact rank_lt_of_decoding hc3 hd3
  · exact rank_lt_of_credits (Nat.lt_of_le_of_lt hle3 hc2)
  · -- part of a prompt was fed
    rcases hcases3 with ⟨e3, _⟩ | hc3 | ⟨hc3, hd3⟩
    · rw [e3]
      exact rank_lt_of_remaining hc2 hd2 hw2
    · exact rank_lt_of_credits (hc2 ▸ hc3)
    · exact rank_lt_of_decoding (hc3.trans hc2) (hd2 ▸ hd3)

/-- Repeated steps drain a scheduler all of whose sequences fit the pool. -/
theorem drains_of_inv (h : Inv Shorter N u) (hfit : ∀ q ∈ u.waiting ++ u.running, Fits u q) :
    ∃ n, Idle ((step N.recorded sample)^[n] u) := by
  have hstep : ∀ v, (Inv Shorter N v ∧ ∀ q ∈ v.waiting ++ v.running, Fits v q) → ¬ Idle v →
      (Inv Shorter N (step N.recorded sample v) ∧
        (∀ q ∈ (step N.recorded sample v).waiting ++ (step N.recorded sample v).running,
          Fits (step N.recorded sample v) q)) ∧
      rank N.recorded (step N.recorded sample v) < rank N.recorded v := by
    intro v hv hi
    obtain ⟨hon, hlt⟩ := rank_step_lt sample hv.1 hv.2 hi
    exact ⟨⟨hv.1.step sample shorter_grows (shorter_starts _), hon.fits hv.2⟩, hlt⟩
  exact iterate_reaches (rank N.recorded) hstep u ⟨h, hfit⟩

end Recorded

/-- From every reached state all of whose sequences fit the pool, finitely many steps lead to
    the state in which nothing waits and nothing runs, whatever is sampled and whichever
    calls fail. -/
theorem drains (M : BatchModel μ Λ) (model : μ) (cfg : SchedulerConfig) (acts : List (Action σ))
    (hfit : ∀ q ∈ (run M sample model cfg acts).waiting ++ (run M sample model cfg acts).running,
      KvPool.blocksFor (q.promptLen + 1) ≤ (run M sample model cfg acts).pool.totalBlocks) :
    ∃ n, ((step M sample)^[n] (run M sample model cfg acts)).waiting = [] ∧
      ((step M sample)^[n] (run M sample model cfg acts)).running = [] := by
  rw [run_recorded] at hfit ⊢
  obtain ⟨n, hn⟩ := drains_of_inv sample (run_inv (M := M) sample model cfg acts) hfit
  have hsemi : Function.Semiconj (mapModel Prod.fst) (step M.recorded sample) (step M sample) :=
    fun v => (step_mapModel M.recorded_hom sample v).symm
  refine ⟨n, ?_⟩
  rw [← (hsemi.iterate_right n).eq]
  exact hn

/-- A pool of one block, in which the sequence preempts itself after every token. -/
theorem drains_one_block :
    ∃ n, ((step (BatchModel.silent 4096) (fun _ _ _ => (5, ())))^[n]
        (run (BatchModel.silent 4096) (fun _ _ _ => (5, ())) () { kvPoolTokens := 16 }
          [.enqueue (.plain 15 100), .step])).waiting = [] ∧
      ((step (BatchModel.silent 4096) (fun _ _ _ => (5, ())))^[n]
        (run (BatchModel.silent 4096) (fun _ _ _ => (5, ())) () { kvPoolTokens := 16 }
          [.enqueue (.plain 15 100), .step])).running = [] :=
  drains (fun _ _ _ => (5, ())) (BatchModel.silent 4096) () { kvPoolTokens := 16 }
    [.enqueue (.plain 15 100), .step] (by decide +kernel)

end Cognitora.Infer.Scheduler
