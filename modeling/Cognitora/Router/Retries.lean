/-
  Dispatch attempts and the stream a flow reads (cgn-router `src/gateway/generate.rs`, `open`,
  `dispatch_once`, `first_token`, `federate`).

  `openFlow` of `Router/Dispatch` over whole streams: an attempt that is accepted brings one, the
  wait takes its first item, and the flow reads on from there. `retries_never_revisit`: at most
  three attempts; the decode node of an attempt is neither decode nor prefill node of a later
  one, because each failure excludes it and both picks respect the exclude list; and what a
  returned flow yields is the stream of the last attempt, or of the federation peer, from its
  first item on.
-/
import Cognitora.Router.Dispatch

namespace Cognitora.Router

open Cognitora.Lib Cognitora.Core

/-! ## Streams -/

/-- What each `next` on a token stream yields. -/
abbrev TokenStream : Type := Nat → StreamItem

/-- An open stream, and whether the wait for its first item times out. -/
structure Arriving where
  stream : TokenStream
  late : Bool

instance : TokenSource Arriving where
  firstItem a := if a.late then .timeout else .item (a.stream 0)
  rest a := { stream := fun n => a.stream (n + 1), late := false }

/-- `TokenFlow::next`, call by call. -/
def TokenFlow.next (f : TokenFlow Arriving) : TokenStream
  | 0 => some (.ok f.first)
  | n + 1 => f.rest.stream n

/-- `first_token`: only an item that is a token is got. -/
theorem Arriving.stream_of_got {a : Arriving} {wait : String} {t : Token}
    (h : firstToken wait (TokenSource.firstItem a) = .got t) : a.stream 0 = some (.ok t) := by
  have hitem : (if a.late then FirstItem.timeout else .item (a.stream 0)) = .item (some (.ok t)) :=
    firstToken_got h
  split at hitem
  · cases hitem
  · exact FirstItem.item.inj hitem

/-- A flow made of the first token and what follows it is the whole stream. -/
theorem OpenCall.next_flow (c : OpenCall Arriving) {a : Arriving} {wait : String} {t : Token}
    (h : firstToken wait (TokenSource.firstItem a) = .got t) (node : Option String) :
    (c.flow t a node).next = a.stream := by
  funext n
  cases n with
  | zero => exact (Arriving.stream_of_got h).symm
  | succ n => rfl

/-! ## One attempt -/

variable {hash : List UInt8 → Digest} {c : OpenCall Arriving} {moments : Nat → Moment Arriving}

/-- The attempt the loop makes with an exclude list. -/
def OpenCall.attempt (hash : List UInt8 → Digest) (c : OpenCall Arriving) (m : Moment Arriving)
    (exclude : List String) : Dispatched :=
  dispatchOnce hash c.limits m.state c.req c.key exclude m.outcomes

/-- What the flow yields is the stream of the attempt's decode node, or of the peer. -/
def OpenCall.Reads (c : OpenCall Arriving) (t : Tried Arriving) (f : TokenFlow Arriving) : Prop :=
  (∃ p d, t.dispatched.picked = some (p, d) ∧ f.node = some d.node.nodeId ∧
      f.next = t.moment.stream.stream) ∨
    ∃ peer, c.federation = some (.ok peer) ∧ f.node = none ∧ f.next = peer.stream

theorem OpenCall.reads_federate {lastErr : Option Error} {e : Error} {f : TokenFlow Arriving}
    (h : (c.federate lastErr e).result = .ok f) (t : Tried Arriving) : c.Reads t f := by
  unfold federate at h
  split at h
  · next peer hpeer =>
    dsimp only at h
    split at h
    · next t hgot =>
      cases h
      exact Or.inr ⟨peer, hpeer, rfl, c.next_flow hgot none⟩
    · cases h
  · cases h

/-- The loop ends with this attempt, or the attempt failed on its decode node, and the rest of
    the loop excludes it. -/
theorem OpenCall.attemptsFrom_succ (hash : List UInt8 → Digest) (c : OpenCall Arriving)
    (moments : Nat → Moment Arriving) (n k : Nat) (exclude : List String)
    (lastErr : Option Error) :
    ∃ first rest,
      c.attemptsFrom hash moments (n + 1) k exclude lastErr =
        .after ⟨moments k, c.attempt hash (moments k) exclude, first⟩ rest ∧
      (rest.attempts = [] ∧ (∀ f, rest.result = .ok f →
          c.Reads ⟨moments k, c.attempt hash (moments k) exclude, first⟩ f) ∨
        ∃ p d e, (c.attempt hash (moments k) exclude).picked = some (p, d) ∧
          rest = c.attemptsFrom hash moments n (k + 1) (exclude ++ [d.node.nodeId]) (some e)) := by
  have hcases := dispatchOnce_cases hash c.limits (moments k).state c.req c.key exclude
    (moments k).outcomes
  rw [OpenCall.attemptsFrom]
  dsimp only
  rw [← OpenCall.attempt] at hcases ⊢
  rcases hcases with ⟨e, hd⟩ | ⟨p, d, _, hpicked, ⟨e, hresult, _⟩ | ⟨hresult, _⟩⟩
  · -- routing found no node
    refine ⟨none, _, by rw [hd]; rfl, Or.inl ?_⟩
    split
    · exact ⟨c.federate_attempts _ _, fun f hf => reads_federate hf _⟩
    · exact ⟨rfl, fun f hf => by cases hf⟩
  · -- the decode node refused
    rw [hresult]
    refine ⟨none, _, rfl, ?_⟩
    split
    · exact Or.inr ⟨p, d, e, hpicked, rfl⟩
    · exact Or.inl ⟨rfl, fun f hf => by cases hf⟩
  · -- the decode node opened a stream
    rw [hresult]
    refine ⟨_, _, rfl, ?_⟩
    cases hfirst : firstToken c.wait (TokenSource.firstItem (moments k).stream) with
    | got t =>
      refine Or.inl ⟨rfl, fun f hf => ?_⟩
      cases hf
      exact Or.inl ⟨p, d, hpicked, rfl, c.next_flow hfirst _⟩
    | fatal e => exact Or.inl ⟨rfl, fun f hf => by cases hf⟩
    | retry e => exact Or.inr ⟨p, d, e, hpicked, rfl⟩

/-! ## The whole loop -/

/-- The nodes an attempt picked are not excluded. -/
theorem OpenCall.picked_not_excluded {m : Moment Arriving} {exclude : List String}
    {p d : RoutingDecision} (h : (c.attempt hash m exclude).picked = some (p, d)) :
    p.node.nodeId ∉ exclude ∧ d.node.nodeId ∉ exclude := by
  have hcases := dispatchOnce_cases hash c.limits m.state c.req c.key exclude m.outcomes
  rw [← OpenCall.attempt] at hcases
  rcases hcases with ⟨e, hd⟩ | ⟨p', d', hroute, hpicked, _⟩
  · rw [hd] at h
    cases h
  · rw [hpicked, Option.some.injEq, Prod.mk.injEq] at h
    obtain ⟨rfl, rfl⟩ := h
    obtain ⟨hp, hd, _⟩ := routeOnce_ok hroute
    exact ⟨hp, hd⟩

/-- The later attempt uses no node the earlier one sent its decode call to. -/
def Tried.Avoids (earlier later : Tried Arriving) : Prop :=
  ∀ p d p' d', earlier.dispatched.picked = some (p, d) → later.dispatched.picked = some (p', d') →
    d'.node.nodeId ≠ d.node.nodeId ∧ p'.node.nodeId ≠ d.node.nodeId

theorem OpenCall.attemptsFrom_excludes (n k : Nat) (exclude : List String)
    (lastErr : Option Error) :
    ∀ t ∈ (c.attemptsFrom hash moments n k exclude lastErr).attempts, ∀ p d,
      t.dispatched.picked = some (p, d) → p.node.nodeId ∉ exclude ∧ d.node.nodeId ∉ exclude := by
  induction n generalizing k exclude lastErr with
  | zero =>
    intro t ht
    cases ht
  | succ n ih =>
    intro t ht p d hpicked
    obtain ⟨first, rest, hloop, hrest⟩ := c.attemptsFrom_succ hash moments n k exclude lastErr
    rw [hloop] at ht
    rcases List.mem_cons.mp ht with rfl | ht
    · exact picked_not_excluded hpicked
    · rcases hrest with ⟨hnil, _⟩ | ⟨p', d', e, _, rfl⟩
      · rw [hnil] at ht
        cases ht
      · obtain ⟨hp, hd⟩ := ih _ _ _ t ht p d hpicked
        rw [List.mem_append, not_or] at hp hd
        exact ⟨hp.1, hd.1⟩

theorem OpenCall.attemptsFrom_avoids (n k : Nat) (exclude : List String)
    (lastErr : Option Error) :
    (c.attemptsFrom hash moments n k exclude lastErr).attempts.Pairwise Tried.Avoids := by
  induction n generalizing k exclude lastErr with
  | zero => exact List.Pairwise.nil
  | succ n ih =>
    obtain ⟨first, rest, hloop, ⟨hnil, _⟩ | ⟨p, d, e, hpicked, rfl⟩⟩ :=
      c.attemptsFrom_succ hash moments n k exclude lastErr
    · rw [hloop, Opened.after, hnil]
      exact List.pairwise_singleton _ _
    · rw [hloop]
      refine List.Pairwise.cons (fun t ht p₁ d₁ p' d' hfirst hlater => ?_) (ih _ _ _)
      rw [hpicked, Option.some.injEq, Prod.mk.injEq] at hfirst
      obtain ⟨rfl, rfl⟩ := hfirst
      obtain ⟨hp', hd'⟩ := attemptsFrom_excludes n (k + 1) _ _ t ht p' d' hlater
      rw [List.mem_append, not_or, List.mem_singleton] at hp' hd'
      exact ⟨hd'.2, hp'.2⟩

theorem OpenCall.length_attemptsFrom_le (n k : Nat) (exclude : List String)
    (lastErr : Option Error) :
    (c.attemptsFrom hash moments n k exclude lastErr).attempts.length ≤ n := by
  induction n generalizing k exclude lastErr with
  | zero => exact Nat.le_refl 0
  | succ n ih =>
    obtain ⟨first, rest, hloop, ⟨hnil, _⟩ | ⟨p, d, e, _, rfl⟩⟩ :=
      c.attemptsFrom_succ hash moments n k exclude lastErr
    · rw [hloop, Opened.after, hnil]
      exact Nat.succ_le_succ (Nat.zero_le n)
    · rw [hloop]
      exact Nat.succ_le_succ (ih _ _ _)

theorem OpenCall.attemptsFrom_reads (n k : Nat) (exclude : List String) (lastErr : Option Error)
    {f : TokenFlow Arriving}
    (h : (c.attemptsFrom hash moments n k exclude lastErr).result = .ok f) :
    ∃ t, (c.attemptsFrom hash moments n k exclude lastErr).attempts.getLast? = some t ∧
      c.Reads t f := by
  induction n generalizing k exclude lastErr with
  | zero => cases h
  | succ n ih =>
    obtain ⟨first, rest, hloop, ⟨hnil, hreads⟩ | ⟨p, d, e, _, rfl⟩⟩ :=
      c.attemptsFrom_succ hash moments n k exclude lastErr
    · rw [hloop] at h ⊢
      rw [Opened.after, hnil]
      exact ⟨_, rfl, hreads f h⟩
    · rw [hloop] at h ⊢
      obtain ⟨t, hlast, hreads⟩ := ih _ _ _ h
      refine ⟨t, ?_, hreads⟩
      show (_ :: (c.attemptsFrom hash moments n (k + 1) _ _).attempts).getLast? = some t
      rw [List.getLast?_cons, hlast]
      rfl

/-- Every run of `open`: at most three attempts, none of which uses the decode node of an
    earlier one, and a flow that reads the stream of the last attempt or of the peer. -/
theorem retries_never_revisit (hash : List UInt8 → Digest) (c : OpenCall Arriving)
    (moments : Nat → Moment Arriving) :
    (c.openFlow hash moments).attempts.length ≤ 3 ∧
      (c.openFlow hash moments).attempts.Pairwise Tried.Avoids ∧
      ∀ f, (c.openFlow hash moments).result = .ok f →
        ∃ t, (c.openFlow hash moments).attempts.getLast? = some t ∧
          c.Reads t f :=
  ⟨OpenCall.length_attemptsFrom_le _ _ _ _, OpenCall.attemptsFrom_avoids _ _ _ _,
    fun _ hf => OpenCall.attemptsFrom_reads _ _ _ _ hf⟩

end Cognitora.Router
