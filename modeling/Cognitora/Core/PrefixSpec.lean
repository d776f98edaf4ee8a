/-
  What the prefix index is for (cgn-core `src/prefix.rs`), and that it does it.

  `Claims` gives each digest and node the time the node last claimed the digest, if it was not
  forgotten since. The index refines it (`Refines.step`, one operation): `lookup` names a node
  exactly if its claim is younger than the TTL (`Refines.mem_lookup_iff_claims`), however often
  `gc` ran.
-/
import Cognitora.Core.PrefixClaims

namespace Cognitora.Core

namespace PrefixIndex

/-- When a node last claimed a digest. -/
abbrev Claims := Digest → String → Option Nat

namespace Claims

def none : Claims := fun _ _ => Option.none

def step (now : Nat) (c : Claims) : Op → Claims
  | .pass _ => c
  | .insert digest nodeId => fun d n => if d = digest ∧ n = nodeId then some now else c d n
  | .forgetClaim digest nodeId => fun d n => if d = digest ∧ n = nodeId then .none else c d n
  | .forgetNode nodeId => fun d n => if n = nodeId then .none else c d n
  | .forgetNodeStale nodeId olderThan => fun d n =>
    if n = nodeId then (c d n).filter (now - · < olderThan) else c d n
  | .gc => c

end Claims

/-- The operation forgets the node's claim on the digest, or prunes the node. -/
def Op.drops (digest : Digest) (nodeId : String) : Op → Bool
  | .forgetClaim d n => d == digest && n == nodeId
  | .forgetNode n => n == nodeId
  | .forgetNodeStale n _ => n == nodeId
  | _ => false

/-- The index holds the claims that are live, and perhaps some that have expired. -/
structure Refines (w : World) (c : Claims) : Prop where
  nodup : ∀ d, ((w.index.entries d).map NodeEntry.nodeId).Nodup
  claimed : ∀ d, ∀ e ∈ w.index.entries d, c d e.nodeId = some e.lastSeen
  held : ∀ d n time, c d n = some time → w.clock - time < w.index.ttl →
    ∃ e ∈ w.index.entries d, e.nodeId = n ∧ e.lastSeen = time

/-! ## One entry per node -/

theorem nodeIds_touch (now : Nat) (n : String) (v : List NodeEntry) :
    (touch now n v).map NodeEntry.nodeId =
      if n ∈ v.map NodeEntry.nodeId then v.map NodeEntry.nodeId
      else v.map NodeEntry.nodeId ++ [n] := by
  induction v with
  | nil => rfl
  | cons e v ih =>
    unfold touch
    split
    · next he => simp [he]
    · next he =>
      simp only [List.map_cons, ih, List.mem_cons, Ne.symm he, false_or]
      split <;> rfl

theorem nodup_touch {now : Nat} {n : String} {v : List NodeEntry}
    (h : (v.map NodeEntry.nodeId).Nodup) : ((touch now n v).map NodeEntry.nodeId).Nodup := by
  rw [nodeIds_touch]
  split
  · exact h
  · next hn =>
    exact List.nodup_append.mpr ⟨h, List.nodup_singleton n, fun a ha b hb hab =>
      hn (List.mem_singleton.mp hb ▸ hab ▸ ha)⟩

/-- With one entry per node, the entries after `touch` are the others and the new one. -/
theorem mem_touch_iff {now : Nat} {n : String} {v : List NodeEntry}
    (h : (v.map NodeEntry.nodeId).Nodup) (e : NodeEntry) :
    e ∈ touch now n v ↔ (e ∈ v ∧ e.nodeId ≠ n) ∨ e = ⟨n, now⟩ := by
  induction v with
  | nil => simp [touch]
  | cons f v ih =>
    obtain ⟨hf, hv⟩ := List.nodup_cons.mp h
    unfold touch
    split
    · next heq =>
      subst heq
      have hother : ∀ e ∈ v, e.nodeId ≠ f.nodeId :=
        fun e he hid => hf (hid ▸ List.mem_map_of_mem he)
      simp only [List.mem_cons]
      constructor
      · rintro (rfl | he)
        · exact .inr rfl
        · exact .inl ⟨.inr he, hother e he⟩
      · rintro (⟨rfl | he, hne⟩ | rfl)
        · exact absurd rfl hne
        · exact .inr he
        · exact .inl rfl
    · next hne =>
      simp only [List.mem_cons, ih hv]
      constructor
      · rintro (rfl | ⟨he, hid⟩ | heq)
        · exact .inl ⟨.inl rfl, hne⟩
        · exact .inl ⟨.inr he, hid⟩
        · exact .inr heq
      · rintro (⟨rfl | he, hid⟩ | heq)
        · exact .inl rfl
        · exact .inr (.inl ⟨he, hid⟩)
        · exact .inr (.inr heq)

/-! ## Steps -/

theorem Refines.insert {w : World} {c : Claims} (h : Refines w c) (digest : Digest)
    (nodeId : String) :
    Refines (w.step (.insert digest nodeId)) (c.step w.clock (.insert digest nodeId)) := by
  refine ⟨fun d => ?_, fun d e he => ?_, fun d n time hc hlive => ?_⟩
  · rw [World.step, entries_insert]
    split
    · exact nodup_touch (h.nodup digest)
    · exact h.nodup d
  · rw [World.step, entries_insert] at he
    simp only [Claims.step]
    split at he
    · next hd =>
      subst hd
      rcases (mem_touch_iff (h.nodup d) e).mp he with ⟨hold, hne⟩ | rfl
      · rw [if_neg fun hboth => hne hboth.2]
        exact h.claimed d e hold
      · rw [if_pos ⟨rfl, rfl⟩]
    · next hd =>
      rw [if_neg fun hboth => hd hboth.1]
      exact h.claimed d e he
  · rw [World.step, entries_insert]
    simp only [Claims.step] at hc
    split at hc
    · next hboth =>
      obtain ⟨rfl, rfl⟩ := hboth
      rw [if_pos rfl]
      exact ⟨⟨n, w.clock⟩, (mem_touch_iff (h.nodup d) _).mpr (.inr rfl), rfl, Option.some.inj hc⟩
    · next hother =>
      obtain ⟨e, he, hid, htime⟩ := h.held d n time hc hlive
      split
      · next hd =>
        subst hd
        have hne : e.nodeId ≠ nodeId := fun heq => hother ⟨rfl, hid ▸ heq⟩
        exact ⟨e, (mem_touch_iff (h.nodup d) e).mpr (.inl ⟨he, hne⟩), hid, htime⟩
      · exact ⟨e, he, hid, htime⟩

/-- What an operation forgets on purpose, its claims forget. -/
theorem Claims.step_eq_some_iff {w : World} {c : Claims} {op : Op}
    (hinsert : ∀ digest nodeId, op ≠ .insert digest nodeId) (hgc : op ≠ .gc) (d : Digest)
    (n : String) (time : Nat) :
    c.step w.clock op d n = some time ↔ c d n = some time ∧ op.keeps w d ⟨n, time⟩ = true := by
  cases op with
  | pass _ => simp [Claims.step, Op.keeps]
  | insert digest nodeId => exact absurd rfl (hinsert digest nodeId)
  | forgetClaim digest nodeId =>
    by_cases hboth : d = digest ∧ n = nodeId
    · simp [Claims.step, Op.keeps, hboth]
    · have hkeep : d ≠ digest ∨ n ≠ nodeId := not_and_or.mp hboth
      simp [Claims.step, Op.keeps, hboth, hkeep]
  | forgetNode nodeId =>
    by_cases hid : n = nodeId
    · simp [Claims.step, Op.keeps, hid]
    · simp [Claims.step, Op.keeps, hid]
  | forgetNodeStale nodeId olderThan =>
    by_cases hid : n = nodeId
    · simp [Claims.step, Op.keeps, hid, Option.filter_eq_some_iff]
    · simp [Claims.step, Op.keeps, hid]
  | gc => exact absurd rfl hgc

/-- An operation that only drops entries: those whose claim goes, and expired ones. -/
theorem Refines.keep {w : World} {c : Claims} (h : Refines w c) {op : Op}
    (hinsert : ∀ digest nodeId, op ≠ .insert digest nodeId) :
    Refines (w.step op) (c.step w.clock op) := by
  have hclock := clock_le_step w op
  refine ⟨fun d => ?_, fun d e he => ?_, fun d n time hc hyoung => ?_⟩
  · rw [entries_step w hinsert]
    exact (h.nodup d).sublist (List.filter_sublist.map _)
  · rw [entries_step w hinsert] at he
    obtain ⟨hmem, hkeep⟩ := List.mem_filter.mp he
    by_cases hgc : op = .gc
    · subst hgc
      exact h.claimed d e hmem
    · exact (Claims.step_eq_some_iff hinsert hgc d _ _).mpr ⟨h.claimed d e hmem, hkeep⟩
  · rw [ttl_step] at hyoung
    have hlive : w.clock - time < w.index.ttl := by omega
    obtain ⟨hold, hkeep⟩ : c d n = some time ∧ op.keeps w d ⟨n, time⟩ = true := by
      by_cases hgc : op = .gc
      · subst hgc
        exact ⟨hc, by simpa [Op.keeps] using hlive⟩
      · exact (Claims.step_eq_some_iff hinsert hgc d n time).mp hc
    obtain ⟨e, he, rfl, rfl⟩ := h.held d n time hold hlive
    rw [entries_step w hinsert]
    exact ⟨e, List.mem_filter.mpr ⟨he, hkeep⟩, rfl, rfl⟩

theorem Refines.step {w : World} {c : Claims} (h : Refines w c) (op : Op) :
    Refines (w.step op) (c.step w.clock op) := by
  by_cases hinsert : ∀ digest nodeId, op ≠ .insert digest nodeId
  · exact h.keep hinsert
  · push Not at hinsert
    obtain ⟨digest, nodeId, rfl⟩ := hinsert
    exact h.insert digest nodeId

theorem Refines.mem_lookup_iff_claims {w : World} {c : Claims} (h : Refines w c) (d : Digest)
    (n : String) :
    n ∈ w.index.lookup w.clock d ↔ ∃ time, c d n = some time ∧ w.clock - time < w.index.ttl := by
  rw [mem_lookup]
  constructor
  · rintro ⟨e, he, rfl, hlive⟩
    exact ⟨e.lastSeen, h.claimed d e he, hlive⟩
  · rintro ⟨time, hc, hlive⟩
    obtain ⟨e, he, hid, rfl⟩ := h.held d n time hc hlive
    exact ⟨e, he, hid, hlive⟩

/-- Only an operation that drops a claim ends it. -/
theorem Claims.isSome_step {c : Claims} {d : Digest} {n : String} (h : (c d n).isSome) (now : Nat)
    {op : Op} (hop : op.drops d n = false) : (c.step now op d n).isSome := by
  cases op with
  | insert digest nodeId =>
    simp only [Claims.step]
    split
    · rfl
    · exact h
  | forgetClaim digest nodeId =>
    have hother : ¬(d = digest ∧ n = nodeId) := by
      rintro ⟨rfl, rfl⟩
      simp [Op.drops] at hop
    simpa only [Claims.step, if_neg hother] using h
  | forgetNode nodeId =>
    have hother : n ≠ nodeId := fun heq => by simp [Op.drops, heq] at hop
    simpa only [Claims.step, if_neg hother] using h
  | forgetNodeStale nodeId olderThan =>
    have hother : n ≠ nodeId := fun heq => by simp [Op.drops, heq] at hop
    simpa only [Claims.step, if_neg hother] using h
  | pass _ => exact h
  | gc => exact h

theorem refines_new (clock ttl : Nat) : Refines ⟨clock, PrefixIndex.new ttl, []⟩ Claims.none :=
  ⟨fun _ => List.nodup_nil, fun _ _ he => absurd he List.not_mem_nil,
    fun _ _ _ hc => absurd hc (by simp [Claims.none])⟩

end PrefixIndex

end Cognitora.Core
