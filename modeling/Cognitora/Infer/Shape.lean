/-
  The shape of a scheduler state, and the loops of `step` as rules.

  `Shape` says what the queue, the running list and the pool have to do with each other:
  ids are distinct, the pool holds blocks for exactly the running ids, every sequence is
  its prompt followed by what it generated. It does not mention the runtime. Each
  operation that `step` is made of keeps it.

  `ensureRoom_rule` and `makeRoom_rule` reduce the preemption loops to one reservation
  and one preemption; `backward_rule` reduces the loops of `decode_step`, which go through
  the batch from the last index to the first, to the work done at one index.
-/
import Cognitora.Infer.SchedulerOps

namespace Cognitora.Infer.Scheduler

variable {μ Λ σ : Type}

/-- A sequence as the scheduler builds and keeps it. -/
structure SeqWf (maxSeqLen : Nat) (q : Sequence σ) : Prop where
  tokens_eq : q.tokens = q.req.promptTokens ++ q.generated
  promptLen_eq : q.promptLen = q.req.promptTokens.length
  promptLen_pos : 0 < q.promptLen
  generated_le : q.generated.length ≤ q.budget maxSeqLen
  done_lt : ∀ d, q.phase = .prefill d → d < q.promptLen

/-- Queue, running list and pool fit together. -/
structure Shape (M : BatchModel μ Λ) (s : Scheduler μ σ) : Prop where
  pool_wf : s.pool.Wf
  maxBatch_pos : 0 < s.cfg.maxBatch
  maxBatch_le : s.cfg.maxBatch ≤ M.maxBatch
  prefillChunk_pos : 0 < s.cfg.prefillChunk
  running_le : s.running.length ≤ s.cfg.maxBatch
  ids_nodup : ((s.waiting ++ s.running).map Sequence.id).Nodup
  ids_lt : ∀ q ∈ s.waiting ++ s.running, q.id < s.nextId
  seq_wf : ∀ q ∈ s.waiting ++ s.running, SeqWf M.maxSeqLen q
  queued : ∀ q ∈ s.waiting, q.phase = .prefill 0
  held_iff : ∀ id, id ∈ s.pool.held ↔ id ∈ s.running.map Sequence.id

variable {M : BatchModel μ Λ} {s t : Scheduler μ σ} {pre post : List (Sequence σ)}
  {q : Sequence σ}

/-! ## Sequences -/

theorem SeqWf.promptLen_le {n : Nat} (h : SeqWf n q) : q.promptLen ≤ q.tokens.length := by
  rw [h.tokens_eq, h.promptLen_eq, List.length_append]
  exact Nat.le_add_right _ _

theorem SeqWf.tokens_ne_nil {n : Nat} (h : SeqWf n q) : q.tokens ≠ [] := by
  apply List.ne_nil_of_length_pos
  exact Nat.lt_of_lt_of_le h.promptLen_pos h.promptLen_le

/-- The token that `decode_step` feeds for a well-formed sequence is its last one. -/
theorem SeqWf.getLast?_tokens {n : Nat} (h : SeqWf n q) :
    q.tokens.getLast? = some (q.tokens.getLast?.getD 0) := by
  rw [List.getLast?_eq_some_getLast h.tokens_ne_nil, Option.getD_some]

/-- The prompt is all of `tokens` exactly when nothing was generated yet. -/
theorem SeqWf.take_promptLen {n : Nat} (h : SeqWf n q) :
    q.tokens.take q.promptLen = q.tokens ↔ q.generated = [] := by
  rw [h.tokens_eq, h.promptLen_eq, List.take_left]
  constructor
  · intro he
    exact List.append_right_eq_self.mp he.symm
  · intro hg
    rw [hg, List.append_nil]

/-- Phase, sampler, emission mark and tick may change freely. -/
theorem SeqWf.congr {n : Nat} (h : SeqWf n q) {r : Sequence σ} (hreq : r.req = q.req)
    (htok : r.tokens = q.tokens) (hlen : r.promptLen = q.promptLen)
    (hgen : r.generated = q.generated) (hdone : ∀ d, r.phase = .prefill d → d < q.promptLen) :
    SeqWf n r where
  tokens_eq := by rw [htok, hreq, hgen]; exact h.tokens_eq
  promptLen_eq := by rw [hlen, hreq]; exact h.promptLen_eq
  promptLen_pos := by rw [hlen]; exact h.promptLen_pos
  generated_le := by
    unfold Sequence.budget
    rw [hgen, hreq, hlen]
    exact h.generated_le
  done_lt := by rw [hlen]; exact hdone

theorem SeqWf.grown {n : Nat} (h : SeqWf n q) (token : Token) (e : Nat)
    (hb : q.generated.length + 1 < q.budget n) :
    SeqWf n { grown q token with emittedLen := e } where
  tokens_eq := by
    show q.tokens ++ [token] = q.req.promptTokens ++ (q.generated ++ [token])
    rw [h.tokens_eq, List.append_assoc]
  promptLen_eq := h.promptLen_eq
  promptLen_pos := h.promptLen_pos
  generated_le := by
    show (q.generated ++ [token]).length ≤ q.budget n
    rw [List.length_append, List.length_singleton]
    exact Nat.le_of_lt hb
  done_lt := h.done_lt

/-! ## Reading a shape -/

/-- A shape is about the configuration, the pool and the two lists; ids may be skipped. -/
theorem Shape.congr (h : Shape M s) (hcfg : t.cfg = s.cfg) (hpool : t.pool = s.pool)
    (hw : t.waiting = s.waiting) (hr : t.running = s.running) (hn : s.nextId ≤ t.nextId) :
    Shape M t := by
  constructor
  · rw [hpool]; exact h.pool_wf
  · rw [hcfg]; exact h.maxBatch_pos
  · rw [hcfg]; exact h.maxBatch_le
  · rw [hcfg]; exact h.prefillChunk_pos
  · rw [hcfg, hr]; exact h.running_le
  · rw [hw, hr]; exact h.ids_nodup
  · rw [hw, hr]
    intro q hq
    exact Nat.lt_of_lt_of_le (h.ids_lt q hq) hn
  · rw [hw, hr]; exact h.seq_wf
  · rw [hw]; exact h.queued
  · rw [hpool, hr]; exact h.held_iff

theorem Shape.of_core (h : Shape M s) (e : t.core = s.core) : Shape M t := by
  obtain ⟨_, hcfg, hpool, hw, hr, hn, _⟩ := core_eq_iff.mp e
  exact h.congr hcfg hpool hw hr (Nat.le_of_eq hn.symm)

theorem Shape.setModel (h : Shape M s) (m : μ) : Shape M { s with model := m } :=
  h.congr rfl rfl rfl rfl (Nat.le_refl _)

theorem Shape.running_nodup (h : Shape M s) : (s.running.map Sequence.id).Nodup := by
  have hn := h.ids_nodup
  rw [List.map_append] at hn
  exact hn.of_append_right

theorem Shape.seq_wf_running (h : Shape M s) (hq : q ∈ s.running) : SeqWf M.maxSeqLen q :=
  h.seq_wf q (List.mem_append_right _ hq)

theorem mem_mid (h : s.running = pre ++ q :: post) : q ∈ s.running := by
  rw [h]
  exact List.mem_append_right _ List.mem_cons_self

/-- No other running sequence has the id of `q`. -/
theorem Shape.id_ne_of_mid (h : Shape M s) (hr : s.running = pre ++ q :: post)
    {r : Sequence σ} (hm : r ∈ pre ++ post) : r.id ≠ q.id := by
  have hn := h.running_nodup
  rw [hr, List.map_append, List.map_cons, List.nodup_middle, List.nodup_cons] at hn
  rw [← List.map_append] at hn
  intro he
  exact hn.1 (he ▸ List.mem_map_of_mem hm)

/-- A prefilling sequence has a chunk to do, and the next chunk is not empty. -/
theorem Shape.chunkLen_pos (h : Shape M s) (hq : q ∈ s.running) {d : Nat}
    (hp : q.phase = .prefill d) : 0 < chunkLen s q d ∧ d < q.promptLen := by
  have h1 := h.prefillChunk_pos
  have h2 := (h.seq_wf_running hq).done_lt d hp
  unfold chunkLen
  omega

/-! ## The operations keep the shape -/

theorem Shape.new (model : μ) (cfg : SchedulerConfig) :
    Shape M (Scheduler.new M model cfg : Scheduler μ σ) where
  pool_wf := KvPool.new_wf _
  maxBatch_pos := by
    have := M.maxBatch_pos
    simp only [Scheduler.new, clamp]
    split
    · exact Nat.one_pos
    · split <;> omega
  maxBatch_le := by
    have := M.maxBatch_pos
    simp only [Scheduler.new, clamp]
    split
    · exact this
    · split <;> omega
  prefillChunk_pos := by
    simp only [Scheduler.new]
    omega
  running_le := Nat.zero_le _
  ids_nodup := List.nodup_nil
  ids_lt := fun q hq => absurd hq List.not_mem_nil
  seq_wf := fun q hq => absurd hq List.not_mem_nil
  queued := fun q hq => absurd hq List.not_mem_nil
  held_iff := fun id => by simp [Scheduler.new, KvPool.new]

theorem Shape.remove (h : Shape M s) (hr : s.running = pre ++ q :: post) :
    Shape M (removeRunning M s pre.length q) := by
  rw [removeRunning_mid M hr]
  have hsub : (pre ++ post).Sublist s.running := by
    rw [hr]
    exact (List.sublist_cons_self q post).append_left pre
  have hall : (s.waiting ++ (pre ++ post)).Sublist (s.waiting ++ s.running) :=
    hsub.append_left s.waiting
  constructor
  · exact KvPool.release_wf h.pool_wf q.id
  · exact h.maxBatch_pos
  · exact h.maxBatch_le
  · exact h.prefillChunk_pos
  · exact Nat.le_trans hsub.length_le h.running_le
  · exact h.ids_nodup.sublist (hall.map _)
  · intro r hm
    exact h.ids_lt r (hall.subset hm)
  · intro r hm
    exact h.seq_wf r (hall.subset hm)
  · exact h.queued
  · intro id
    rw [KvPool.mem_held_release, h.held_iff, hr]
    constructor
    · intro hid
      obtain ⟨r, hm, rfl⟩ := List.mem_map.mp hid.2
      refine List.mem_map_of_mem ?_
      rcases List.mem_append.mp hm with hm | hm
      · exact List.mem_append_left _ hm
      · rcases List.mem_cons.mp hm with rfl | hm
        · exact absurd rfl hid.1
        · exact List.mem_append_right _ hm
    · intro hid
      obtain ⟨r, hm, rfl⟩ := List.mem_map.mp hid
      exact ⟨h.id_ne_of_mid hr hm, List.mem_map_of_mem (hr ▸ hsub.subset hm)⟩

/-- One running sequence is replaced by a well-formed one with its id. -/
theorem Shape.replace (h : Shape M s) (hr : s.running = pre ++ q :: post) {r : Sequence σ}
    (hid : r.id = q.id) (hw : SeqWf M.maxSeqLen r) :
    Shape M { s with running := pre ++ r :: post } := by
  have hids : (pre ++ r :: post).map Sequence.id = s.running.map Sequence.id := by
    rw [hr]
    simp only [List.map_append, List.map_cons, hid]
  have hmem : ∀ x ∈ s.waiting ++ (pre ++ r :: post), x = r ∨ x ∈ s.waiting ++ s.running := by
    intro x hx
    rw [hr]
    simp only [List.mem_append, List.mem_cons] at hx ⊢
    tauto
  constructor
  · exact h.pool_wf
  · exact h.maxBatch_pos
  · exact h.maxBatch_le
  · exact h.prefillChunk_pos
  · have := h.running_le
    rw [hr] at this
    simpa using this
  · have := h.ids_nodup
    rw [List.map_append] at this ⊢
    rwa [hids]
  · intro x hx
    rcases hmem x hx with rfl | hx
    · show x.id < s.nextId
      rw [hid]
      exact h.ids_lt q (List.mem_append_right _ (mem_mid hr))
    · exact h.ids_lt x hx
  · intro x hx
    rcases hmem x hx with rfl | hx
    · exact hw
    · exact h.seq_wf x hx
  · exact h.queued
  · intro id
    rw [hids]
    exact h.held_iff id

theorem Shape.preempt (h : Shape M s) (id : Nat) : Shape M (preempt M s id) := by
  rcases preempt_cases M s id with ⟨e, _⟩ | ⟨pre, q, post, hr, rfl, e⟩
  · rw [e]; exact h
  · rw [e]
    have hrem := h.remove hr
    rw [removeRunning_mid M hr] at hrem
    have hq := mem_mid hr
    have hperm : (({ q with phase := .prefill 0 } :: s.waiting) ++ (pre ++ post)).map Sequence.id
        |>.Perm ((s.waiting ++ s.running).map Sequence.id) := by
      rw [hr]
      simp only [List.map_append, List.cons_append, List.map_cons, ← List.append_assoc]
      exact List.perm_middle.symm
    constructor
    · exact hrem.pool_wf
    · exact h.maxBatch_pos
    · exact h.maxBatch_le
    · exact h.prefillChunk_pos
    · exact hrem.running_le
    · exact hperm.nodup_iff.mpr h.ids_nodup
    · intro x hx
      rcases List.mem_cons.mp hx with rfl | hx
      · exact h.ids_lt q (List.mem_append_right _ hq)
      · exact hrem.ids_lt x hx
    · intro x hx
      rcases List.mem_cons.mp hx with rfl | hx
      · refine (h.seq_wf_running hq).congr rfl rfl rfl rfl ?_
        intro d hd
        cases hd
        exact (h.seq_wf_running hq).promptLen_pos
      · exact hrem.seq_wf x hx
    · intro x hx
      rcases List.mem_cons.mp hx with rfl | hx
      · rfl
      · exact h.queued x hx
    · exact hrem.held_iff

theorem Shape.reserve (h : Shape M s) {id need : Nat} (hid : id ∈ s.running.map Sequence.id) :
    Shape M { s with pool := (s.pool.reserve id (need + 1)).2 } := by
  refine ⟨KvPool.reserve_wf h.pool_wf _ _, h.maxBatch_pos, h.maxBatch_le, h.prefillChunk_pos,
    h.running_le, h.ids_nodup, h.ids_lt, h.seq_wf, h.queued, ?_⟩
  intro i
  show i ∈ (s.pool.reserve id (need + 1)).2.held ↔ _
  cases hb : (s.pool.reserve id (need + 1)).1 with
  | false => rw [KvPool.reserve_of_false h.pool_wf hb]; exact h.held_iff i
  | true =>
    rw [KvPool.mem_held_reserve h.pool_wf (KvPool.blocksFor_succ_pos need) hb, h.held_iff]
    constructor
    · rintro (rfl | hi)
      · exact hid
      · exact hi
    · exact Or.inr

/-- What one round of `admit` does. -/
theorem admitOne_some (h : admitOne s = some t) :
    ∃ q rest, s.waiting = q :: rest ∧ s.running.length < s.cfg.maxBatch ∧
      (s.pool.reserve q.id (q.promptLen + 1)).1 = true ∧
      t = { s with
        pool := (s.pool.reserve q.id (q.promptLen + 1)).2
        waiting := rest
        tick := s.tick + 1
        running := s.running ++ [{ q with admittedAt := s.tick + 1 }] } := by
  unfold admitOne at h
  split at h
  · next hlt =>
    split at h
    · exact absurd h (by simp)
    · next q rest hw =>
      dsimp only at h
      split at h
      · next hb => exact ⟨q, rest, hw, hlt, hb, (Option.some.inj h).symm⟩
      · exact absurd h (by simp)
  · exact absurd h (by simp)

theorem Shape.admitOne (h : Shape M s) (ha : admitOne s = some t) : Shape M t := by
  obtain ⟨q, rest, hw, hlt, hb, rfl⟩ := admitOne_some ha
  have hperm : (rest ++ (s.running ++ [{ q with admittedAt := s.tick + 1 }])).map Sequence.id
      |>.Perm ((s.waiting ++ s.running).map Sequence.id) := by
    rw [hw]
    simp only [List.map_append, List.cons_append, List.map_cons, List.map_nil]
    rw [← List.append_assoc]
    exact List.perm_append_singleton _ _
  have hq : q ∈ s.waiting ++ s.running := by
    rw [hw]
    exact List.mem_append_left _ List.mem_cons_self
  have hmem : ∀ x ∈ rest ++ (s.running ++ [{ q with admittedAt := s.tick + 1 }]),
      x = { q with admittedAt := s.tick + 1 } ∨ x ∈ s.waiting ++ s.running := by
    intro x hx
    rw [hw]
    simp only [List.mem_append, List.mem_cons, List.not_mem_nil, or_false] at hx ⊢
    tauto
  constructor
  · exact KvPool.reserve_wf h.pool_wf _ _
  · exact h.maxBatch_pos
  · exact h.maxBatch_le
  · exact h.prefillChunk_pos
  · show (s.running ++ _).length ≤ s.cfg.maxBatch
    rw [List.length_append, List.length_singleton]
    exact hlt
  · exact hperm.nodup_iff.mpr h.ids_nodup
  · intro x hx
    rcases hmem x hx with rfl | hx
    · exact h.ids_lt q hq
    · exact h.ids_lt x hx
  · intro x hx
    rcases hmem x hx with rfl | hx
    · exact (h.seq_wf q hq).congr rfl rfl rfl rfl (h.seq_wf q hq).done_lt
    · exact h.seq_wf x hx
  · intro x hx
    exact h.queued x (hw ▸ List.mem_cons_of_mem _ hx)
  · intro i
    show i ∈ (s.pool.reserve q.id (q.promptLen + 1)).2.held ↔ _
    rw [KvPool.mem_held_reserve h.pool_wf (KvPool.blocksFor_succ_pos _) hb, h.held_iff,
      List.map_append, List.mem_append, List.map_singleton, List.mem_singleton]
    exact or_comm

theorem Shape.enqueue (h : Shape M s) (req : Request σ) : Shape M (enqueue M s req) := by
  have hbump : Shape M { s with nextId := s.nextId + 1 } :=
    h.congr rfl rfl rfl rfl (Nat.le_succ _)
  unfold Scheduler.enqueue
  dsimp only
  split
  · exact hbump.of_core (send_core _ _ _ _)
  · next hacc =>
    simp only [Bool.or_eq_true, List.isEmpty_iff, decide_eq_true_eq, not_or, not_le] at hacc
    generalize hn : (Sequence.mk s.nextId req (.prefill 0) req.promptTokens
      req.promptTokens.length [] req.params 0 0 : Sequence σ) = n
    have hnid : n.id = s.nextId := by rw [← hn]
    have hpos : 0 < req.promptTokens.length := List.length_pos_of_ne_nil hacc.1
    have hnw : SeqWf M.maxSeqLen n := by
      rw [← hn]
      exact ⟨(List.append_nil _).symm, rfl, hpos, Nat.zero_le _,
        fun d hd => by cases hd; exact hpos⟩
    have hperm : ((s.waiting ++ [n]) ++ s.running).Perm (n :: (s.waiting ++ s.running)) := by
      rw [List.append_assoc, List.singleton_append]
      exact List.perm_middle
    constructor
    · exact h.pool_wf
    · exact h.maxBatch_pos
    · exact h.maxBatch_le
    · exact h.prefillChunk_pos
    · exact h.running_le
    · rw [(hperm.map Sequence.id).nodup_iff, List.map_cons, List.nodup_cons]
      refine ⟨?_, h.ids_nodup⟩
      intro hm
      obtain ⟨x, hx, he⟩ := List.mem_map.mp hm
      have := h.ids_lt x hx
      omega
    · intro x hx
      rcases List.mem_cons.mp (hperm.subset hx) with rfl | hx
      · rw [hnid]; exact Nat.lt_succ_self _
      · exact Nat.lt_succ_of_lt (h.ids_lt x hx)
    · intro x hx
      rcases List.mem_cons.mp (hperm.subset hx) with rfl | hx
      · exact hnw
      · exact h.seq_wf x hx
    · intro x hx
      rcases List.mem_append.mp hx with hx | hx
      · exact h.queued x hx
      · rw [List.mem_singleton.mp hx, ← hn]
    · exact h.held_iff

/-! ## Rules for the loops -/

/-- What every admission keeps, the rounds of `admit` keep. -/
theorem admitRounds_rule {P : Scheduler μ σ → Prop}
    (hone : ∀ s t, P s → admitOne s = some t → P t) (n : Nat) (h : P s) : P (admitRounds n s) := by
  induction n generalizing s with
  | zero => exact h
  | succ n ih =>
    unfold admitRounds
    split
    · exact h
    · next t ht => exact ih (hone s t h ht)

theorem admitWaiting_rule {P : Scheduler μ σ → Prop}
    (hone : ∀ s t, P s → admitOne s = some t → P t) (h : P s) : P (admitWaiting s) :=
  admitRounds_rule hone s.waiting.length h

theorem mem_preempt {id v : Nat} (hid : id ∈ s.running.map Sequence.id) (hne : id ≠ v) :
    id ∈ (preempt M s v).running.map Sequence.id := by
  rcases preempt_cases M s v with ⟨e, _⟩ | ⟨pre, q, post, hr, rfl, e⟩
  · rw [e]; exact hid
  · rw [e]
    rw [hr] at hid
    simp only [List.map_append, List.map_cons, List.mem_append, List.mem_cons] at hid ⊢
    tauto

/-- What a reservation for a running id and a preemption keep, `ensure_room` keeps. -/
theorem ensureRoom_rule {P : Scheduler μ σ → Prop}
    (hres : ∀ s id need, id ∈ s.running.map Sequence.id → P s →
      P { s with pool := (s.pool.reserve id (need + 1)).2 })
    (hpre : ∀ s id, P s → P (preempt M s id)) (n : Nat) {id need : Nat}
    (hid : id ∈ s.running.map Sequence.id) (h : P s) :
    P (ensureRoom M n s id (need + 1)).2 := by
  induction n generalizing s with
  | zero => exact h
  | succ n ih =>
    have h1 := hres s id need hid h
    unfold ensureRoom
    dsimp only
    split
    · exact h1
    · split
      · next v hv =>
        have hne : v.id ≠ id := by
          have := (List.mem_filter.mp (youngest_mem hv)).2
          simpa using this
        exact ih (mem_preempt hid hne.symm) (hpre _ _ h1)
      · exact hpre _ _ h1

/-- A round makes room for a running sequence, and passes over any other. -/
theorem roomFor_cases (M : BatchModel μ Λ) (s : Scheduler μ σ) (id need : Nat) :
    (id ∈ s.running.map Sequence.id ∧
      roomFor M s (id, need) = (ensureRoom M (s.running.length + 1) s id need).2) ∨
    (id ∉ s.running.map Sequence.id ∧ roomFor M s (id, need) = s) := by
  have hany : s.running.any (fun q => q.id == id) = true ↔ id ∈ s.running.map Sequence.id := by
    simp [List.any_eq_true]
  by_cases hid : id ∈ s.running.map Sequence.id
  · exact Or.inl ⟨hid, if_pos (hany.mpr hid)⟩
  · exact Or.inr ⟨hid, if_neg (mt hany.mp hid)⟩

theorem roomFor_rule {P : Scheduler μ σ → Prop}
    (hres : ∀ s id need, id ∈ s.running.map Sequence.id → P s →
      P { s with pool := (s.pool.reserve id (need + 1)).2 })
    (hpre : ∀ s id, P s → P (preempt M s id)) {id need : Nat} (h : P s) :
    P (roomFor M s (id, need + 1)) := by
  rcases roomFor_cases M s id (need + 1) with ⟨hid, heq⟩ | ⟨-, heq⟩
  · rw [heq]
    exact ensureRoom_rule hres hpre _ hid h
  · rw [heq]
    exact h

theorem foldl_roomFor_rule {P : Scheduler μ σ → Prop}
    (hres : ∀ s id need, id ∈ s.running.map Sequence.id → P s →
      P { s with pool := (s.pool.reserve id (need + 1)).2 })
    (hpre : ∀ s id, P s → P (preempt M s id)) (cs : List (Nat × Nat))
    (hcs : ∀ c ∈ cs, ∃ n, c.2 = n + 1) (h : P s) : P (cs.foldl (roomFor M) s) := by
  induction cs generalizing s with
  | nil => exact h
  | cons c cs ih =>
    obtain ⟨id, need⟩ := c
    obtain ⟨n, rfl⟩ : ∃ n, need = n + 1 := hcs _ List.mem_cons_self
    exact ih (fun c hc => hcs c (List.mem_cons_of_mem _ hc)) (roomFor_rule hres hpre h)

theorem candidates_need (s : Scheduler μ σ) : ∀ c ∈ s.candidates, ∃ n, c.2 = n + 1 := by
  intro c hc
  obtain ⟨q, _, rfl⟩ := List.mem_map.mp hc
  exact ⟨q.tokens.length, rfl⟩

/-- What a reservation for a running id and a preemption keep, the first loop of
    `decode_step` keeps. -/
theorem makeRoom_rule {P : Scheduler μ σ → Prop}
    (hres : ∀ s id need, id ∈ s.running.map Sequence.id → P s →
      P { s with pool := (s.pool.reserve id (need + 1)).2 })
    (hpre : ∀ s id, P s → P (preempt M s id)) (h : P s) : P (makeRoom M s) :=
  foldl_roomFor_rule hres hpre s.candidates (candidates_need s) h

/-- The loops of `decode_step` over the batch, last index first. `Q pre done` is what holds
    when the sequences from index `pre.length` on have been dealt with, those in decode phase
    as `done` has it: it is enough to look at one index `pre.length` at a time. -/
theorem backward_rule {β : Type}
    {Q : List (Sequence σ) → List (Sequence σ × β) → Scheduler μ σ → Prop}
    (f : Scheduler μ σ → Nat → β → Scheduler μ σ)
    (hdecode : ∀ pre q s done b, q.phase = .decode → Q (pre ++ [q]) done s →
      Q pre ((q, b) :: done) (f s pre.length b))
    (hskip : ∀ pre q s done, q.phase ≠ .decode → Q (pre ++ [q]) done s → Q pre done s)
    (post pre : List (Sequence σ)) (work : List (Nat × β))
    (hwork : work.map Prod.fst = (decodeBatch pre.length post).map Prod.fst)
    (h : Q (pre ++ post) [] s) :
    Q pre ((post.filter fun q => q.phase == .decode).zip (work.map Prod.snd))
      (work.reverse.foldl (fun s b => f s b.1 b.2) s) := by
  rw [List.foldl_reverse]
  induction post generalizing pre work with
  | nil =>
    have hnil : work = [] := List.map_eq_nil_iff.mp hwork
    rw [hnil]
    rwa [List.append_nil] at h
  | cons q post ih =>
    have hassoc : pre ++ q :: post = (pre ++ [q]) ++ post := by simp
    have hlen : (pre ++ [q]).length = pre.length + 1 := by simp
    rw [hassoc] at h
    unfold decodeBatch at hwork
    split at hwork
    · next hq =>
      cases work with
      | nil => exact absurd hwork (by simp)
      | cons w work =>
        rw [List.map_cons, List.map_cons, List.cons.injEq] at hwork
        obtain ⟨hw, hwork⟩ := hwork
        have hrest := ih (pre ++ [q]) work (by rw [hlen]; exact hwork) h
        rw [List.foldr_cons, hw, List.filter_cons_of_pos (by simp [hq]), List.map_cons,
          List.zip_cons_cons]
        exact hdecode pre q _ _ w.2 hq hrest
    · next hq =>
      rw [List.filter_cons_of_neg (by simp [hq])]
      exact hskip pre q _ _ hq (ih (pre ++ [q]) work (by rw [hlen]; exact hwork) h)

/-- The sequences in decode phase with the logits that `decode` returns for them, or with
    none if it fails. -/
def decodeReplies (M : BatchModel μ Λ) (s : Scheduler μ σ) : List (Sequence σ × Option Λ) :=
  let decoding := s.running.filter fun q => q.phase == .decode
  match (M.decode s.model (modelBatch (decodeBatch 0 s.running))).1 with
  | none => decoding.map fun q => (q, none)
  | some rows => decoding.zip (rows.map some)

theorem modelBatch_decodeBatch (i : Nat) (running : List (Sequence σ)) :
    modelBatch (decodeBatch i running) =
      (running.filter fun q => q.phase == .decode).map fun q =>
        (q.id, q.tokens.getLast?.getD 0) := by
  induction running generalizing i with
  | nil => rfl
  | cons q qs ih =>
    unfold decodeBatch
    by_cases hp : q.phase = .decode
    · rw [if_pos hp, List.filter_cons_of_pos (by simp [hp]), List.map_cons, ← ih (i + 1)]
      rfl
    · rw [if_neg hp, List.filter_cons_of_neg (by simp [hp]), ← ih (i + 1)]

theorem decodeBatch_length (i : Nat) (running : List (Sequence σ)) :
    (decodeBatch i running).length = (running.filter fun q => q.phase == .decode).length := by
  have := congrArg List.length (modelBatch_decodeBatch i running)
  rwa [modelBatch, List.length_map, List.length_map] at this

/-- Both loops of `decode_step` over the final batch deal with one decoding sequence after the
    other, from the last. Which of them runs depends on the runtime's answer. -/
theorem decodeBatched_loop
    {Q : List (Sequence σ) → List (Sequence σ × Option Λ) → Scheduler μ σ → Prop}
    (sample : σ → Λ → List Token → Token × σ)
    (hfinish : (M.decode s.model (modelBatch (decodeBatch 0 s.running))).1 = none →
      ∀ pre q t done, q.phase = .decode → Q (pre ++ [q]) done t →
        Q pre ((q, none) :: done) (finish M t pre.length .error))
    (hsample : (M.decode s.model (modelBatch (decodeBatch 0 s.running))).1.isSome →
      ∀ pre q t done logits, q.phase = .decode → Q (pre ++ [q]) done t →
        Q pre ((q, some logits) :: done) (sampleAt M sample t pre.length logits))
    (hskip : ∀ pre q t done, q.phase ≠ .decode → Q (pre ++ [q]) done t → Q pre done t)
    (h : Q s.running [] { s with
      model := (M.decode s.model (modelBatch (decodeBatch 0 s.running))).2 }) :
    Q [] (decodeReplies M s) (decodeBatched M sample s (decodeBatch 0 s.running)) := by
  have hrows := M.decode_rows s.model (modelBatch (decodeBatch 0 s.running))
  unfold decodeBatched decodeReplies
  dsimp only
  cases hres : (M.decode s.model (modelBatch (decodeBatch 0 s.running))).1 with
  | none =>
    have hloop := backward_rule
      (Q := fun pre done s => Q pre (done.map fun d => (d.1, none)) s)
      (fun s i (_ : Nat × Token) => finish M s i .error)
      (fun pre q t done _ hp => hfinish hres pre q t _ hp) (fun pre q t done => hskip pre q t _)
      s.running [] (decodeBatch 0 s.running) rfl h
    have hfst : (((s.running.filter fun q => q.phase == .decode).zip
        ((decodeBatch 0 s.running).map Prod.snd)).map fun d => (d.1, (none : Option Λ))) =
        (s.running.filter fun q => q.phase == .decode).map fun q => (q, none) := by
      have hzip : (((s.running.filter fun q => q.phase == .decode).zip
          ((decodeBatch 0 s.running).map Prod.snd)).map Prod.fst) =
          s.running.filter fun q => q.phase == .decode :=
        List.map_fst_zip (by rw [List.length_map, decodeBatch_length])
      conv_rhs => rw [← hzip, List.map_map]
      rfl
    rw [← hfst]
    exact hloop
  | some rows =>
    have hlen : (decodeBatch 0 s.running).length = rows.length := by
      rw [hrows rows hres]
      simp [modelBatch]
    have hidx : (((decodeBatch 0 s.running).zip rows).map fun b => (b.1.1, b.2)).map Prod.fst =
        (decodeBatch 0 s.running).map Prod.fst := by
      rw [List.map_map]
      show ((decodeBatch 0 s.running).zip rows).map (Prod.fst ∘ Prod.fst) = _
      rw [← List.map_map, List.map_fst_zip (Nat.le_of_eq hlen)]
    have hsnd : (((decodeBatch 0 s.running).zip rows).map fun b => (b.1.1, b.2)).map Prod.snd =
        rows := by
      rw [List.map_map]
      exact List.map_snd_zip (Nat.le_of_eq hlen.symm)
    have hloop := backward_rule
      (Q := fun pre done s => Q pre (done.map fun d => (d.1, some d.2)) s) (sampleAt M sample)
      (fun pre q t done logits hp => hsample (by rw [hres]; rfl) pre q t _ logits hp)
      (fun pre q t done => hskip pre q t _) s.running [] _ hidx h
    rw [hsnd, ← List.map_reverse, List.foldl_map] at hloop
    dsimp only
    rw [List.zip_map_right]
    exact hloop

/-- `decode_step` from the final batch on. In the round for `q` the sequences before it are in
    their places. -/
theorem decodeBatched_rule
    {Q : List (Sequence σ) → List (Sequence σ × Option Λ) → Scheduler μ σ → Prop}
    (sample : σ → Λ → List Token → Token × σ)
    (hfinish : (M.decode s.model (modelBatch (decodeBatch 0 s.running))).1 = none →
      ∀ pre q post t done, t.running = pre ++ q :: post → q.phase = .decode →
        Q (pre ++ [q]) done t → Q pre ((q, none) :: done) (finish M t pre.length .error))
    (hsample : (M.decode s.model (modelBatch (decodeBatch 0 s.running))).1.isSome →
      ∀ pre q post t done logits, t.running = pre ++ q :: post → q.phase = .decode →
        Q (pre ++ [q]) done t →
        Q pre ((q, some logits) :: done) (sampleAt M sample t pre.length logits))
    (hskip : ∀ pre q t done, q.phase ≠ .decode → Q (pre ++ [q]) done t → Q pre done t)
    (h : Q s.running [] { s with
      model := (M.decode s.model (modelBatch (decodeBatch 0 s.running))).2 }) :
    Q [] (decodeReplies M s) (decodeBatched M sample s (decodeBatch 0 s.running)) := by
  refine (decodeBatched_loop
    (Q := fun pre done t => (∃ post, t.running = pre ++ post) ∧ Q pre done t)
    sample ?_ ?_ ?_ ⟨⟨[], (List.append_nil _).symm⟩, h⟩).2
  · rintro hres pre q t done hp ⟨⟨post, hr⟩, ht⟩
    rw [List.append_assoc, List.singleton_append] at hr
    refine ⟨⟨post, ?_⟩, hfinish hres pre q post t done hr hp ht⟩
    rw [running_of_core (finish_core M hr .error), removeRunning_mid M hr]
  · rintro hres pre q t done logits hp ⟨⟨post, hr⟩, ht⟩
    rw [List.append_assoc, List.singleton_append] at hr
    refine ⟨?_, hsample hres pre q post t done logits hr hp ht⟩
    rw [sampleAt_mid M sample hr]
    exact pushToken_split M rfl _
  · rintro pre q t done hp ⟨⟨post, hr⟩, ht⟩
    rw [List.append_assoc, List.singleton_append] at hr
    exact ⟨⟨q :: post, hr⟩, hskip pre q t done hp ht⟩

/-- The same for a property that does not depend on the sequences still to be dealt with. -/
theorem decodeBatched_mid_rule {P : List (Sequence σ × Option Λ) → Scheduler μ σ → Prop}
    (sample : σ → Λ → List Token → Token × σ)
    (hfinish : ∀ pre q post s done, s.running = pre ++ q :: post → P done s →
      P ((q, none) :: done) (finish M s pre.length .error))
    (hsample : ∀ pre q post s done logits, s.running = pre ++ q :: post → P done s →
      P ((q, some logits) :: done) (sampleAt M sample s pre.length logits))
    (h : P [] { s with model := (M.decode s.model (modelBatch (decodeBatch 0 s.running))).2 }) :
    P (decodeReplies M s) (decodeBatched M sample s (decodeBatch 0 s.running)) := by
  refine decodeBatched_rule (Q := fun _ => P) sample ?_ ?_ (fun _ _ _ _ _ ht => ht) h
  · intro _ pre q post t done hr _ ht
    exact hfinish pre q post t done hr ht
  · intro _ pre q post t done logits hr _ ht
    exact hsample pre q post t done logits hr ht

/-- The operations that `prefill_one_chunk` and `decode_step` are made of keep `P`. -/
structure Keeps (M : BatchModel μ Λ) (P : Scheduler μ σ → Prop) : Prop where
  called : ∀ s m, P s → P { s with model := m }
  reserved : ∀ s pool, P s → P { s with pool := pool }
  retuned : ∀ s pre q post phase sampler, s.running = pre ++ q :: post → P s →
    P { s with running := pre ++ { q with phase := phase, sampler := sampler } :: post }
  pushed : ∀ s pre q post token, s.running = pre ++ q :: post → P s →
    P (pushToken M s pre.length token)
  failed : ∀ s pre q post, s.running = pre ++ q :: post → P s → P (finish M s pre.length .error)
  preempted : ∀ s id, P s → P (preempt M s id)

theorem Keeps.prefillOneChunk {P : Scheduler μ σ → Prop} (hP : Keeps M P)
    (sample : σ → Λ → List Token → Token × σ) (h : P s) : P (prefillOneChunk M sample s) := by
  rcases prefillOneChunk_cases M sample s with ⟨_, e⟩ | ⟨pre, q, post, d, hr, _, _, hcases⟩
  · rw [e]
    exact h
  · have hcalled : P (prefillCalled M s q d) := hP.called s _ h
    have hrc : (prefillCalled M s q d).running = pre ++ q :: post := hr
    rcases hcases with ⟨_, logits, _, e⟩ | ⟨_, _, e⟩ | ⟨_, e⟩
    · rw [e]
      exact hP.pushed _ pre _ post _ rfl (hP.retuned _ pre q post _ _ hrc hcalled)
    · rw [e]
      exact hP.retuned _ pre q post _ q.sampler hrc hcalled
    · rw [e]
      exact hP.failed _ pre q post hrc hcalled

/-- `decode_step` makes room if a sequence decodes, and decodes what then still runs. -/
theorem decodeStep_rule {P : Scheduler μ σ → Prop} (sample : σ → Λ → List Token → Token × σ)
    (h : P s) (hroom : P (makeRoom M s))
    (hbatch : P (decodeBatched M sample (makeRoom M s) (decodeBatch 0 (makeRoom M s).running))) :
    P (decodeStep M sample s) := by
  unfold decodeStep
  split
  · exact h
  · dsimp only
    split
    · exact hroom
    · exact hbatch

theorem Keeps.decodeStep {P : Scheduler μ σ → Prop} (hP : Keeps M P)
    (sample : σ → Λ → List Token → Token × σ) (h : P s) : P (decodeStep M sample s) := by
  have hroom : P (makeRoom M s) :=
    makeRoom_rule (fun s _ _ _ => hP.reserved s _) hP.preempted h
  refine decodeStep_rule sample h hroom ?_
  refine decodeBatched_mid_rule (P := fun _ t => P t) sample ?_ ?_ (hP.called _ _ hroom)
  · intro pre q post t _ hr ht
    exact hP.failed t pre q post hr ht
  · intro pre q post t _ logits hr ht
    rw [sampleAt_mid M sample hr]
    exact hP.pushed _ pre _ post _ rfl (hP.retuned t pre q post q.phase _ hr ht)

/-! ## What the preemption loops achieve -/

theorem preempt_running_sublist (s : Scheduler μ σ) (id : Nat) :
    (preempt M s id).running.Sublist s.running := by
  rcases preempt_cases M s id with ⟨e, _⟩ | ⟨pre, q, post, hr, _, e⟩
  · rw [e]
  · rw [e, hr]
    exact (List.sublist_cons_self q post).append_left pre

/-- Preemption takes running sequences out and changes none of the others. -/
theorem makeRoom_running_sublist (s : Scheduler μ σ) :
    (makeRoom M s).running.Sublist s.running :=
  makeRoom_rule (P := fun t => t.running.Sublist s.running) (fun _ _ _ _ h => h)
    (fun t id h => (preempt_running_sublist t id).trans h) (List.Sublist.refl _)

theorem Shape.makeRoom (h : Shape M s) : Shape M (makeRoom M s) :=
  makeRoom_rule (P := Shape M) (fun _ _ _ hid h => h.reserve hid) (fun _ id h => h.preempt id) h

/-- If `id` is running, it holds blocks for `need` positions. -/
def Roomy (s : Scheduler μ σ) (id need : Nat) : Prop :=
  id ∈ s.running.map Sequence.id → KvPool.blocksFor need ≤ s.pool.heldBy id

theorem Roomy.reserve {i n : Nat} (h : Roomy s i n) (hs : Shape M s) (id need : Nat) :
    Roomy { s with pool := (s.pool.reserve id need).2 } i n := fun hi =>
  Nat.le_trans (h hi) (KvPool.heldBy_le_reserve hs.pool_wf id need i)

theorem Roomy.preempt {i n : Nat} (h : Roomy s i n) (hs : Shape M s) (id : Nat) :
    Roomy (preempt M s id) i n := by
  intro hi
  rcases preempt_cases M s id with ⟨e, _⟩ | ⟨pre, q, post, hr, rfl, e⟩
  · rw [e] at hi ⊢; exact h hi
  · rw [e] at hi ⊢
    obtain ⟨r, hm, rfl⟩ := List.mem_map.mp hi
    have hold : r.id ∈ s.running.map Sequence.id :=
      List.mem_map_of_mem ((preempt_running_sublist (M := M) s q.id).subset (by rw [e]; exact hm))
    show _ ≤ (s.pool.release q.id).heldBy r.id
    rw [KvPool.heldBy_release_ne _ (hs.id_ne_of_mid hr hm)]
    exact h hold

theorem preempt_length_lt {id : Nat} (hid : id ∈ s.running.map Sequence.id) :
    (preempt M s id).running.length < s.running.length := by
  rcases preempt_cases M s id with ⟨_, hn⟩ | ⟨pre, q, post, hr, _, e⟩
  · exact absurd hid hn
  · rw [e, hr]
    simp

theorem not_mem_preempt (hs : Shape M s) (id : Nat) :
    id ∉ (preempt M s id).running.map Sequence.id := by
  rcases preempt_cases M s id with ⟨e, hn⟩ | ⟨pre, q, post, hr, rfl, e⟩
  · rw [e]; exact hn
  · rw [e]
    intro hm
    obtain ⟨r, hr', he⟩ := List.mem_map.mp hm
    exact hs.id_ne_of_mid hr hr' he

/-- With more rounds than running sequences, `ensure_room` ends: either with the room it
    was asked for or with `id` itself preempted. -/
theorem ensureRoom_roomy (n : Nat) (h : Shape M s) {id need : Nat}
    (hid : id ∈ s.running.map Sequence.id) (hn : s.running.length < n) :
    Roomy (ensureRoom M n s id (need + 1)).2 id (need + 1) := by
  induction n generalizing s with
  | zero => omega
  | succ n ih =>
    have h1 : Shape M { s with pool := (s.pool.reserve id (need + 1)).2 } := h.reserve hid
    unfold ensureRoom
    dsimp only
    split
    · next hb => exact fun _ => KvPool.reserve_covers h.pool_wf hb
    · split
      · next v hv =>
        obtain ⟨hv, hne⟩ := List.mem_filter.mp (youngest_mem hv)
        have hne : v.id ≠ id := by simpa using hne
        have hlt := preempt_length_lt (M := M)
          (s := { s with pool := (s.pool.reserve id (need + 1)).2 }) (List.mem_map_of_mem hv)
        refine ih (h1.preempt v.id) (mem_preempt hid hne.symm) ?_
        dsimp only at hlt
        omega
      · intro hm
        exact absurd hm (not_mem_preempt h1 id)

theorem roomFor_roomy (h : Shape M s) (id need : Nat) :
    Roomy (roomFor M s (id, need + 1)) id (need + 1) := by
  rcases roomFor_cases M s id (need + 1) with ⟨hid, heq⟩ | ⟨hid, heq⟩
  · rw [heq]
    exact ensureRoom_roomy _ h hid (Nat.lt_succ_self _)
  · rw [heq]
    exact fun hm => absurd hm hid

theorem foldl_roomFor_roomy (cs : List (Nat × Nat)) (hcs : ∀ c ∈ cs, ∃ n, c.2 = n + 1)
    (h : Shape M s) : ∀ c ∈ cs, Roomy (cs.foldl (roomFor M) s) c.1 c.2 := by
  induction cs generalizing s with
  | nil => exact fun c hc => absurd hc List.not_mem_nil
  | cons c cs ih =>
    obtain ⟨id, need⟩ := c
    obtain ⟨n, rfl⟩ : ∃ n, need = n + 1 := hcs _ List.mem_cons_self
    have hcs' : ∀ c ∈ cs, ∃ n, c.2 = n + 1 := fun c hc => hcs c (List.mem_cons_of_mem _ hc)
    have h1 : Shape M (roomFor M s (id, n + 1)) :=
      roomFor_rule (P := Shape M) (fun _ _ _ hid h => h.reserve hid) (fun _ id h => h.preempt id) h
    intro c hc
    rw [List.foldl_cons]
    rcases List.mem_cons.mp hc with rfl | hc
    · -- the rounds after this one keep the room it made
      refine (foldl_roomFor_rule (M := M) (P := fun t => Shape M t ∧ Roomy t id (n + 1))
        ?_ ?_ cs hcs' ⟨h1, roomFor_roomy h id n⟩).2
      · exact fun t i k hid ht => ⟨ht.1.reserve hid, ht.2.reserve ht.1 i (k + 1)⟩
      · exact fun t i ht => ⟨ht.1.preempt i, ht.2.preempt ht.1 i⟩
    · exact ih hcs' h1 c hc

/-- After the first loop of `decode_step` every sequence that still decodes holds blocks
    for one more position than it has tokens. -/
theorem makeRoom_room (h : Shape M s) (hq : q ∈ (makeRoom M s).running)
    (hp : q.phase = .decode) :
    KvPool.blocksFor (q.tokens.length + 1) ≤ (makeRoom M s).pool.heldBy q.id := by
  have hold : q ∈ s.running := (makeRoom_running_sublist s).subset hq
  have hc : (q.id, q.tokens.length + 1) ∈ s.candidates := by
    refine List.mem_map_of_mem (f := fun q : Sequence σ => (q.id, q.tokens.length + 1)) ?_
    exact List.mem_filter.mpr ⟨hold, by simp [hp]⟩
  exact foldl_roomFor_roomy s.candidates (candidates_need s) h _ hc (List.mem_map_of_mem hq)

end Cognitora.Infer.Scheduler
