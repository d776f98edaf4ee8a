/-
  Prefix claims an opened request leaves behind (cgn-router `src/gateway/generate.rs`, `open`).

  An attempt announces its nodes to the prefix index when the agent accepts the `Generate`
  call, before the first token, and no later failure withdraws a claim; a failed prefill call
  does not stop the prefill node from being announced, whether the call fails or its stream
  brings an error. `claims_credited_iff`: whatever the index held before, the nodes that gain a
  claim on the request's digests are the node that produced the first token and the prefill
  node of that attempt after a prefill call that succeeded, exactly if the prompt is empty or
  every attempt is clean.

  The states and the outcomes of the attempts are arbitrary, one `Moment` each.
-/
import Cognitora.Router.Roles
import Cognitora.Core.PrefixClaims

namespace Cognitora.Router

open Cognitora.Lib Cognitora.Core SharedState

/-- The prefill node took the call, and what its stream yields first is no error. -/
def PrefillCall.Succeeded : PrefillCall → Prop
  | .connectFailed | .callFailed | .answered (some (.error _)) => False
  | .answered none | .answered (some (.ok _)) => True

section

variable {S : Type}

/-- The attempt's call reaches the decode node and is accepted: the deadline allows it, the
    router connects and the agent does not refuse. -/
def Tried.Accepted (c : OpenCall S) (t : Tried S) (decode : RoutingDecision) : Prop :=
  checkDeadline c.limits c.req (t.moment.state.reports decode.node.nodeId).queueDepth.toNat =
      .accept ∧
    t.moment.outcomes.connect = none ∧ t.moment.outcomes.call = none

/-- The stream of the attempt's decode node yields this token first, in time. -/
def Tried.Brings [TokenSource S] (t : Tried S) (tok : Token) : Prop :=
  TokenSource.firstItem t.moment.stream = .item (some (.ok tok))

/-- If the decode node accepts the call, then its first token arrives and, for a pair of
    distinct nodes, the prefill call succeeded. -/
def Tried.Clean [TokenSource S] (c : OpenCall S) (t : Tried S) : Prop :=
  ∀ p d, t.dispatched.picked = some (p, d) → t.Accepted c d →
    (∃ tok, t.Brings tok) ∧
      (p.node.nodeId ≠ d.node.nodeId → t.moment.outcomes.prefill.Succeeded)

theorem Tried.clean_of_unpicked [TokenSource S] (c : OpenCall S) {t : Tried S}
    (h : t.dispatched.picked = none) : t.Clean c := by
  intro p d hpicked
  rw [h] at hpicked
  cases hpicked

/-- An attempt that picked its nodes has its call accepted exactly under these outcomes. -/
theorem dispatchOnce_isOk_iff {hash : List UInt8 → Digest} {limits : DeadlineConfig}
    {σ : SharedState} {req : GenerateRequest} {key : RouteKey} {exclude : List String}
    {env : Outcomes} {p d : RoutingDecision} (hroute : routeOnce hash σ key exclude = .ok (p, d)) :
    (∃ r, (dispatchOnce hash limits σ req key exclude env).result = .ok r) ↔
      checkDeadline limits req (σ.reports d.node.nodeId).queueDepth.toNat = .accept ∧
        env.connect = none ∧ env.call = none := by
  unfold dispatchOnce
  rw [hroute]
  dsimp only
  cases checkDeadline limits req (σ.reports d.node.nodeId).queueDepth.toNat with
  | deadlineExceeded _ _ => simp [Dispatched.unsent]
  | queueFull => simp [Dispatched.unsent]
  | accept =>
    unfold callNodes
    cases env.connect with
    | some e => simp
    | none =>
      cases env.call with
      | some s => simp
      | none => simp

/-- A call that failed was not accepted. -/
theorem Tried.clean_of_failed [TokenSource S] (c : OpenCall S) {hash : List UInt8 → Digest}
    {m : Moment S} {exclude : List String} {p d : RoutingDecision} {e : Option String × Error}
    (hroute : routeOnce hash m.state c.key exclude = .ok (p, d))
    (hpicked : (dispatchOnce hash c.limits m.state c.req c.key exclude m.outcomes).picked =
      some (p, d))
    (hres : (dispatchOnce hash c.limits m.state c.req c.key exclude m.outcomes).result =
      .error e) :
    Tried.Clean c
      ⟨m, dispatchOnce hash c.limits m.state c.req c.key exclude m.outcomes, none⟩ := by
  intro p' d' hpicked' hacc
  cases hpicked.symm.trans hpicked'
  have hok : ∃ r, (dispatchOnce hash c.limits m.state c.req c.key exclude m.outcomes).result =
      .ok r := (dispatchOnce_isOk_iff hroute).mpr hacc
  rw [hres] at hok
  obtain ⟨_, hr⟩ := hok
  cases hr

namespace Opened

/-- The inserts into the prefix index. -/
def inserts (o : Opened S) : List PrefixIndex.Op :=
  o.attempts.flatMap fun t => t.dispatched.claims.flatMap fun a =>
    PrefixIndex.insertMany a.digests a.nodeId

/-- Some attempt announced the node. -/
def Announces (o : Opened S) (n : String) : Prop :=
  ∃ t ∈ o.attempts, ∃ a ∈ t.dispatched.claims, a.nodeId = n

/-- The node produced the first token. -/
def Produced (o : Opened S) (n : String) : Prop :=
  ∃ flow, o.result = .ok flow ∧ flow.node = some n

/-- The prefill call of the attempt that produced the first token succeeded on the node. -/
def Prefilled (o : Opened S) (n : String) : Prop :=
  ∃ t p d, o.attempts.getLast? = some t ∧ t.dispatched.picked = some (p, d) ∧
    o.Produced d.node.nodeId ∧ p.node.nodeId ≠ d.node.nodeId ∧
      t.moment.outcomes.prefill.Succeeded ∧ p.node.nodeId = n

/-- A claim of the node is justified. -/
def Credited (o : Opened S) (n : String) : Prop :=
  o.Produced n ∨ o.Prefilled n

theorem insert_mem_inserts {o : Opened S} {d : Digest} {n : String} :
    .insert d n ∈ o.inserts ↔
      ∃ t ∈ o.attempts, ∃ a ∈ t.dispatched.claims, a.nodeId = n ∧ d ∈ a.digests := by
  simp only [inserts, PrefixIndex.insertMany, List.mem_flatMap, List.mem_map,
    PrefixIndex.Op.insert.injEq]
  constructor
  · rintro ⟨t, ht, a, ha, d', hd, rfl, rfl⟩
    exact ⟨t, ht, a, ha, rfl, hd⟩
  · rintro ⟨t, ht, a, ha, rfl, hd⟩
    exact ⟨t, ht, a, ha, d, hd, rfl, rfl⟩

theorem eq_insert_of_mem_inserts {o : Opened S} {op : PrefixIndex.Op} (h : op ∈ o.inserts) :
    ∃ d n, op = .insert d n := by
  obtain ⟨t, _, h⟩ := List.mem_flatMap.mp h
  obtain ⟨a, _, h⟩ := List.mem_flatMap.mp h
  obtain ⟨d, _, rfl⟩ := List.mem_map.mp h
  exact ⟨d, _, rfl⟩

/-! ## One more attempt in front -/

/-- An ending without an attempt has no local node. -/
def Nodeless (o : Opened S) : Prop :=
  o.attempts = [] → ∀ flow, o.result = .ok flow → flow.node = none

theorem nodeless_error (e : Error) : Nodeless (ending (.error e) : Opened S) :=
  fun _ _ h => nomatch h

theorem credited_after {t : Tried S} {rest : Opened S} (hrest : rest.Nodeless) (n : String) :
    (after t rest).Credited n ↔ rest.Credited n := by
  have hlast : ∀ m, rest.Produced m → (t :: rest.attempts).getLast? = rest.attempts.getLast? := by
    rintro m ⟨flow, hflow, hnode⟩
    cases hattempts : rest.attempts with
    | nil => simp [hrest hattempts flow hflow] at hnode
    | cons u us => rw [List.getLast?_cons_cons]
  unfold Credited
  refine or_congr_right ?_
  constructor
  · rintro ⟨u, p, d, hu, hp, hd, h⟩
    exact ⟨u, p, d, (hlast _ hd).symm.trans hu, hp, hd, h⟩
  · rintro ⟨u, p, d, hu, hp, hd, h⟩
    exact ⟨u, p, d, (hlast _ hd).trans hu, hp, hd, h⟩

theorem announces_after {t : Tried S} {rest : Opened S} {n : String} :
    (after t rest).Announces n ↔
      (∃ a ∈ t.dispatched.claims, a.nodeId = n) ∨ rest.Announces n := by
  simp [Announces, after]

theorem produced_single (t : Tried S) {flow : TokenFlow S} {nodeId : String}
    (hnode : flow.node = some nodeId) (n : String) :
    Produced (after t (ending (.ok flow))) n ↔ n = nodeId := by
  constructor
  · rintro ⟨_, hflow, hn⟩
    cases hflow
    exact Option.some.inj (hn.symm.trans hnode)
  · rintro rfl
    exact ⟨flow, rfl, hnode⟩

theorem prefilled_single {t : Tried S} {p d : RoutingDecision} {flow : TokenFlow S}
    (hpicked : t.dispatched.picked = some (p, d)) (hnode : flow.node = some d.node.nodeId)
    (n : String) :
    Prefilled (after t (ending (.ok flow))) n ↔ n = p.node.nodeId ∧
      p.node.nodeId ≠ d.node.nodeId ∧ t.moment.outcomes.prefill.Succeeded := by
  constructor
  · rintro ⟨_, p', d', hlast, hpicked', _, hne, hanswered, rfl⟩
    cases hlast
    cases hpicked.symm.trans hpicked'
    exact ⟨rfl, hne, hanswered⟩
  · rintro ⟨rfl, hne, hanswered⟩
    exact ⟨t, p, d, rfl, hpicked, (produced_single t hnode _).mpr rfl, hne, hanswered, rfl⟩

variable [TokenSource S]

/-- The claims carry the request's digests, excluded nodes are not credited, and the claims
    are justified exactly if every attempt is clean. -/
structure Accounts (c : OpenCall S) (digests : List Digest) (exclude : List String)
    (o : Opened S) : Prop where
  digests_eq : ∀ t ∈ o.attempts, ∀ a ∈ t.dispatched.claims, a.digests = digests
  fresh : ∀ n, o.Credited n → n ∉ exclude
  clean_iff : (∀ n, o.Announces n → o.Credited n) ↔ ∀ t ∈ o.attempts, t.Clean c

namespace Accounts

variable {c : OpenCall S} {digests : List Digest} {exclude exclude' : List String}
  {t : Tried S} {rest : Opened S}

theorem nil {o : Opened S} (hnil : o.attempts = []) (hnode : o.Nodeless) :
    Accounts c digests exclude o := by
  refine ⟨by simp [hnil], ?_, by simp [Announces, hnil]⟩
  rintro n (⟨flow, hflow, hn⟩ | ⟨u, _, _, hu, _⟩)
  · rw [hnode hnil flow hflow] at hn
    cases hn
  · rw [hnil] at hu
    cases hu

theorem error (c : OpenCall S) (digests : List Digest) (exclude : List String) (e : Error) :
    Accounts c digests exclude (ending (.error e) : Opened S) :=
  .nil rfl (nodeless_error e)

/-- An attempt whose call was not accepted changes nothing. -/
theorem silent (h : Accounts c digests exclude' rest) (hrest : rest.Nodeless)
    (hsub : exclude ⊆ exclude') (hclaims : t.dispatched.claims = []) (hclean : t.Clean c) :
    Accounts c digests exclude (after t rest) := by
  refine ⟨?_, ?_, ?_⟩
  · intro u hu a ha
    rcases List.mem_cons.mp hu with rfl | hu
    · simp [hclaims] at ha
    · exact h.digests_eq u hu a ha
  · intro n hn hmem
    exact h.fresh n ((credited_after hrest n).mp hn) (hsub hmem)
  · have hall : (∀ u ∈ (after t rest).attempts, u.Clean c) ↔
        ∀ u ∈ rest.attempts, u.Clean c := by
      simp [after, hclean]
    rw [hall, ← h.clean_iff]
    refine forall_congr' fun n => ?_
    rw [announces_after, credited_after hrest, hclaims]
    simp

/-- An accepted call without a first token leaves a claim of an excluded node. -/
theorem lost {p d : RoutingDecision}
    (h : Accounts c digests (exclude ++ [d.node.nodeId]) rest) (hrest : rest.Nodeless)
    (hpicked : t.dispatched.picked = some (p, d))
    (hclaims : t.dispatched.claims = announced digests p.node.nodeId d.node.nodeId)
    (hacc : t.Accepted c d) (hfirst : ∀ tok, ¬ t.Brings tok) :
    Accounts c digests exclude (after t rest) := by
  have hdecode : (⟨digests, d.node.nodeId⟩ : Announcement) ∈ t.dispatched.claims := by
    rw [hclaims]
    exact List.mem_cons_self
  refine ⟨?_, ?_, ?_⟩
  · intro u hu a ha
    rcases List.mem_cons.mp hu with rfl | hu
    · rw [hclaims] at ha
      exact digests_of_mem_announced ha
    · exact h.digests_eq u hu a ha
  · intro n hn hmem
    exact h.fresh n ((credited_after hrest n).mp hn) (List.mem_append_left _ hmem)
  · constructor
    · intro hall
      have hcredited := hall d.node.nodeId (announces_after.mpr (Or.inl ⟨_, hdecode, rfl⟩))
      exact absurd (List.mem_append_right _ List.mem_cons_self)
        (h.fresh d.node.nodeId ((credited_after hrest d.node.nodeId).mp hcredited))
    · intro hall
      obtain ⟨⟨tok, htok⟩, _⟩ := hall t List.mem_cons_self p d hpicked hacc
      exact absurd htok (hfirst tok)

/-- The attempt that gets the first token is clean if its prefill call, if any, succeeded. -/
theorem got {p d : RoutingDecision} {flow : TokenFlow S} {tok : Token}
    (hp : p.node.nodeId ∉ exclude) (hd : d.node.nodeId ∉ exclude)
    (hpicked : t.dispatched.picked = some (p, d))
    (hclaims : t.dispatched.claims = announced digests p.node.nodeId d.node.nodeId)
    (hacc : t.Accepted c d) (hfirst : t.Brings tok) (hnode : flow.node = some d.node.nodeId) :
    Accounts c digests exclude (after t (ending (.ok flow))) := by
  have hproduced := produced_single t hnode
  have hprefilled := prefilled_single hpicked hnode
  refine ⟨?_, ?_, ?_⟩
  · intro u hu a ha
    rw [List.mem_singleton.mp hu, hclaims] at ha
    exact digests_of_mem_announced ha
  · rintro n (hn | hn)
    · rw [(hproduced n).mp hn]
      exact hd
    · rw [((hprefilled n).mp hn).1]
      exact hp
  · constructor
    · intro hall u hu p' d' hpicked' _
      rw [List.mem_singleton.mp hu] at hpicked' ⊢
      cases hpicked.symm.trans hpicked'
      refine ⟨⟨tok, hfirst⟩, fun hne => ?_⟩
      have hannounced : (after t (ending (.ok flow))).Announces p.node.nodeId :=
        ⟨t, List.mem_cons_self, ⟨digests, p.node.nodeId⟩,
          hclaims ▸ mem_announced.mpr ⟨rfl, Or.inr ⟨rfl, hne⟩⟩, rfl⟩
      rcases hall _ hannounced with hn | hn
      · exact absurd ((hproduced _).mp hn) hne
      · exact ((hprefilled _).mp hn).2.2
    · rintro hall n ⟨u, hu, a, ha, rfl⟩
      have hclean := (hall t List.mem_cons_self p d hpicked hacc).2
      rw [List.mem_singleton.mp hu, hclaims] at ha
      rcases (mem_announced.mp ha).2 with hn | ⟨hn, hne⟩
      · exact Or.inl ((hproduced _).mpr hn)
      · exact Or.inr ((hprefilled _).mpr ⟨hn, hne, hclean hne⟩)

/-- In terms of the index, whatever it held before. -/
theorem gains_iff {o : Opened S} (h : o.Accounts c digests exclude) :
    (∀ (w : PrefixIndex.World) (d : Digest) (n : String), d ∈ digests →
        (o.inserts.foldl PrefixIndex.World.step w).index.HasClaim d n →
        ¬ w.index.HasClaim d n → o.Credited n) ↔
      digests = [] ∨ ∀ t ∈ o.attempts, t.Clean c := by
  have hgain : ∀ (w : PrefixIndex.World) d n, d ∈ digests →
      ((o.inserts.foldl PrefixIndex.World.step w).index.HasClaim d n ↔
        w.index.HasClaim d n ∨ o.Announces n) := by
    intro w d n hd
    rw [PrefixIndex.hasClaim_foldl_insert _ fun _ => eq_insert_of_mem_inserts,
      insert_mem_inserts]
    refine or_congr_right ⟨?_, ?_⟩
    · rintro ⟨t, ht, a, ha, hn, _⟩
      exact ⟨t, ht, a, ha, hn⟩
    · rintro ⟨t, ht, a, ha, hn⟩
      exact ⟨t, ht, a, ha, hn, h.digests_eq t ht a ha ▸ hd⟩
  rw [← h.clean_iff]
  constructor
  · intro hall
    rcases digests.eq_nil_or_concat with hnil | ⟨ds, d, hds⟩
    · exact Or.inl hnil
    · have hd : d ∈ digests := by simp [hds]
      refine Or.inr fun n hn => ?_
      let w : PrefixIndex.World := { clock := 0, index := PrefixIndex.new 0, log := [] }
      exact hall w d n hd ((hgain w d n hd).mpr (Or.inr hn)) fun ⟨_, he, _⟩ => nomatch he
  · rintro (rfl | hall) w d n hd hafter hbefore
    · cases hd
    · exact hall n (((hgain w d n hd).mp hafter).resolve_left hbefore)

end Accounts

end Opened

/-! ## The loop -/

variable [TokenSource S]

theorem not_brings_of_firstToken {t : Tried S} (wait : String)
    (h : ∀ tok, firstToken wait (TokenSource.firstItem t.moment.stream) ≠ .got tok)
    (tok : Token) : ¬ t.Brings tok := by
  intro hbrings
  rw [hbrings] at h
  exact h tok rfl

theorem OpenCall.federate_nodeless (c : OpenCall S) (lastErr : Option Error) (e : Error) :
    (c.federate lastErr e).Nodeless := by
  intro _ flow h
  unfold OpenCall.federate at h
  split at h
  · dsimp only at h
    split at h
    · cases h
      rfl
    · cases h
  · cases h

variable (hash : List UInt8 → Digest) (c : OpenCall S) (moments : Nat → Moment S)

theorem OpenCall.attemptsFrom_head (n k : Nat) (exclude : List String) (lastErr : Option Error) :
    ∃ first rest, c.attemptsFrom hash moments (n + 1) k exclude lastErr =
      .after ⟨moments k, dispatchOnce hash c.limits (moments k).state c.req c.key exclude
        (moments k).outcomes, first⟩ rest := by
  unfold OpenCall.attemptsFrom
  dsimp only
  split <;> exact ⟨_, _, rfl⟩

theorem OpenCall.attemptsFrom_nodeless (n k : Nat) (exclude : List String)
    (lastErr : Option Error) : (c.attemptsFrom hash moments n k exclude lastErr).Nodeless := by
  cases n with
  | zero => exact Opened.nodeless_error _
  | succ n =>
    intro hnil
    obtain ⟨_, _, hhead⟩ := OpenCall.attemptsFrom_head hash c moments n k exclude lastErr
    rw [hhead] at hnil
    cases hnil

theorem OpenCall.attemptsFrom_accounts (n k : Nat) (exclude : List String)
    (lastErr : Option Error) :
    (c.attemptsFrom hash moments n k exclude lastErr).Accounts c
      (hashSeqChunks hash c.key.salt c.key.tokenIds) exclude := by
  induction n generalizing k exclude lastErr with
  | zero => exact .error _ _ _ _
  | succ n ih =>
    have hrest := OpenCall.attemptsFrom_nodeless hash c moments n (k + 1)
    unfold OpenCall.attemptsFrom
    dsimp only
    rcases dispatchOnce_cases hash c.limits (moments k).state c.req c.key exclude
      (moments k).outcomes with
      ⟨e, hd⟩ | ⟨p, d, hroute, hpicked, ⟨e, hres, hclaims⟩ | ⟨hres, hclaims⟩⟩
    · rw [hd]
      dsimp only [Dispatched.unsent]
      split
      · exact (Opened.Accounts.nil (c.federate_attempts _ _) (c.federate_nodeless _ _)).silent
          (c.federate_nodeless _ _) (List.Subset.refl _) rfl (Tried.clean_of_unpicked c rfl)
      · exact (Opened.Accounts.error _ _ exclude e).silent (Opened.nodeless_error e)
          (List.Subset.refl _) rfl (Tried.clean_of_unpicked c rfl)
    · have hclean := Tried.clean_of_failed c hroute hpicked hres
      rw [hres]
      dsimp only
      split
      · exact (ih (k + 1) _ _).silent (hrest _ _) (List.subset_append_left _ _) hclaims hclean
      · exact (Opened.Accounts.error _ _ exclude e).silent (Opened.nodeless_error e)
          (List.Subset.refl _) hclaims hclean
    · have hacc := (dispatchOnce_isOk_iff hroute).mp ⟨_, hres⟩
      rw [hres]
      dsimp only
      obtain ⟨hp, hd, _, _⟩ := routeOnce_ok hroute
      cases hfirst : firstToken c.wait (TokenSource.firstItem (moments k).stream) with
      | got tok => exact .got hp hd hpicked hclaims hacc (firstToken_got hfirst) rfl
      | fatal e =>
        exact (Opened.Accounts.error _ _ _ e).lost (Opened.nodeless_error e) hpicked hclaims hacc
          (not_brings_of_firstToken c.wait (by simp [hfirst]))
      | retry e =>
        exact (ih (k + 1) _ _).lost (hrest _ _) hpicked hclaims hacc
          (not_brings_of_firstToken c.wait (by simp [hfirst]))

/-- Whatever the index held before, only credited nodes gain a claim on the request's digests,
    exactly if the prompt is empty or every attempt is clean. -/
theorem claims_credited_iff :
    (∀ (w : PrefixIndex.World) (d : Digest) (n : String),
        d ∈ hashSeqChunks hash c.key.salt c.key.tokenIds →
        ((c.openFlow hash moments).inserts.foldl PrefixIndex.World.step w).index.HasClaim d n →
        ¬ w.index.HasClaim d n → (c.openFlow hash moments).Credited n) ↔
      c.key.tokenIds = [] ∨ ∀ t ∈ (c.openFlow hash moments).attempts, t.Clean c := by
  rw [← hashSeqChunks_eq_nil_iff hash c.key.salt]
  exact (OpenCall.attemptsFrom_accounts hash c moments maxDispatchAttempts 0 [] none).gains_iff

end

/-- A request of one token, no federation. -/
def oneToken : OpenCall Feed where
  limits := lenient
  wait := "5s"
  req := ⟨0, none⟩
  key := plainKey [7]
  federation := none

/-- Every call is accepted and no token follows in time. -/
def mute : Moment Feed where
  state := splitState 0
  outcomes := smooth
  stream := { late := true, tokens := [], failure := none }

/-- A node whose stream stays silent keeps its claim. -/
theorem silent_node_keeps_claim :
    ¬ ∀ (hash : List UInt8 → Digest) (c : OpenCall Feed) (moments : Nat → Moment Feed)
      (w : PrefixIndex.World) (d : Digest) (n : String),
      d ∈ hashSeqChunks hash c.key.salt c.key.tokenIds →
      ((c.openFlow hash moments).inserts.foldl PrefixIndex.World.step w).index.HasClaim d n →
      ¬ w.index.HasClaim d n → (c.openFlow hash moments).Credited n := by
  intro hall
  have haccounts := OpenCall.attemptsFrom_accounts (fun _ => zeroDigest) oneToken (fun _ => mute)
    maxDispatchAttempts 0 [] none
  rcases haccounts.gains_iff.mp (hall _ oneToken fun _ => mute) with hnil | hclean
  · exact absurd ((hashSeqChunks_eq_nil_iff _ _ _).mp hnil) (by decide)
  · have hcand : readyNode "p" 1 ∈ (splitState 0).candidates "m" .prefill [] :=
      mem_candidates.mpr ⟨splitFleet_serves.1.mem_nodesFor, List.not_mem_nil, rfl⟩
    obtain ⟨⟨p, d⟩, hroute⟩ := (routeOnce_isOk_iff (fun _ => zeroDigest) (splitState 0)
      oneToken.key []).mpr (Or.inl ⟨⟨rfl, by decide⟩, List.ne_nil_of_mem hcand⟩)
    obtain ⟨_, _, hhead⟩ := OpenCall.attemptsFrom_head (fun _ => zeroDigest) oneToken
      (fun _ => mute) 2 0 [] none
    have hpicked : (dispatchOnce (fun _ => zeroDigest) lenient (splitState 0) ⟨0, none⟩
        oneToken.key [] smooth).picked = some (p, d) := by
      unfold dispatchOnce
      rw [hroute]
      rfl
    rw [show maxDispatchAttempts = 2 + 1 from rfl, hhead] at hclean
    obtain ⟨⟨_, htok⟩, _⟩ := hclean _ List.mem_cons_self p d hpicked ⟨rfl, rfl, rfl⟩
    cases htok

end Cognitora.Router
