/-
  The digests of finished generations as etcd keys (cgn-agent `src/health.rs`,
  `publish_kv_confirmed`, and the queueing in `src/grpc.rs`, `generate`).

  `publish_survives_iff`: along a lease session, every call leaves `published` equal to the
  session's keys in etcd, within the cap when it returns `Ok`, with no digest lost, exactly if
  no delete fails, every digest that a failed put leaves behind was put before or is queued
  again during the call, and no call finds more than 8193 keys under pressure. A failed put
  drops the rest of the queue it has taken, and a failed delete drops the key it has popped.

  A session is the time one lease lives. Handlers only append to the queue, so appending
  during a call is appending after the call has taken the queue. etcd is the keys under the
  session's lease.
-/
import Cognitora.Agent.CacheState
import Cognitora.Auth.KeyFile
import Cognitora.Core.Error
import Cognitora.Lib.Run

namespace Cognitora.Agent

open Cognitora.Core Cognitora.Lib
open Cognitora.Auth (Text)
open Cognitora.Lib (encodeHex)

/-- `cgn_core::etcd_keys::KV_CONFIRMED`. -/
def kvConfirmedPath : Text := "/cognitora/kv/".toList

def confirmedKey (nodeId : String) (digest : List UInt8) : Text :=
  kvConfirmedPath ++ nodeId.toList ++ '/' :: encodeHex digest

def kvConfirmedMaxKeys : Nat := 4096

/-- A write that etcd has carried out. -/
inductive KeyWrite where
  | put (key : Text)
  | delete (key : Text)
  deriving DecidableEq

/-- The keys etcd holds, and its writes, oldest first. -/
structure Etcd where
  keys : List Text
  writes : List KeyWrite

namespace Etcd

def put (etcd : Etcd) (key : Text) : Etcd where
  keys := etcd.keys.insert key
  writes := etcd.writes ++ [.put key]

def delete (etcd : Etcd) (key : Text) : Etcd where
  keys := etcd.keys.filter (· ≠ key)
  writes := etcd.writes ++ [.delete key]

end Etcd

/-- The loop over the digests taken from the queue; the first failed put ends the call. -/
def putAll (nodeId : String) (putErr : Text → Option String) :
    List (List UInt8) → List Text → Etcd → Except Error Unit × List Text × Etcd
  | [], published, etcd => (.ok (), published, etcd)
  | digest :: pending, published, etcd =>
    if digest.length ≠ 32 then putAll nodeId putErr pending published etcd
    else
      let key := confirmedKey nodeId digest
      if key ∈ published then putAll nodeId putErr pending published etcd
      else match putErr key with
        | some e => (.error (.etcd ("kv put: " ++ e)), published, etcd)
        | none => putAll nodeId putErr pending (published ++ [key]) (etcd.put key)

/-- The loop that pops and deletes the oldest keys. -/
def evict (delErr : Text → Option String) (target : Nat) :
    List Text → Etcd → Except Error Unit × List Text × Etcd
  | [], etcd => (.ok (), [], etcd)
  | key :: published, etcd =>
    if target < (key :: published).length then
      match delErr key with
      | some e => (.error (.etcd ("kv delete: " ++ e)), published, etcd)
      | none => evict delErr target published (etcd.delete key)
    else (.ok (), key :: published, etcd)

def underPressure (stats : EngineStats) : Bool :=
  0 < stats.totalBlocks && EngineStats.lowOnBlocks stats.freeBlocks stats.totalBlocks

def evictTarget (stats : EngineStats) (published : List Text) : Nat :=
  if underPressure stats then published.length / 2 else kvConfirmedMaxKeys

/-- What a call meets: the engine's numbers, the digests queued while it runs, and the puts
    and deletes that fail, with the text of the error. -/
structure Call where
  stats : EngineStats
  during : List (List UInt8)
  putErr : Text → Option String
  delErr : Text → Option String

structure Session where
  kvConfirmed : List (List UInt8)
  published : List Text
  etcd : Etcd
  /-- Every digest queued so far. -/
  queued : List (List UInt8)

namespace Session

/-- A session begins with what the queue holds. -/
def start (pending : List (List UInt8)) : Session where
  kvConfirmed := pending
  published := []
  etcd := ⟨[], []⟩
  queued := pending

/-- What a handler does when its generation has finished. -/
def queue (s : Session) (digests : List (List UInt8)) : Session :=
  { s with kvConfirmed := s.kvConfirmed ++ digests, queued := s.queued ++ digests }

/-- `publish_kv_confirmed`. -/
def publishKvConfirmed (nodeId : String) (c : Call) (s : Session) :
    Except Error Unit × Session :=
  let pending := s.kvConfirmed
  let s := { s with kvConfirmed := [] }.queue c.during
  match putAll nodeId c.putErr pending s.published s.etcd with
  | (.error e, published, etcd) => (.error e, { s with published, etcd })
  | (.ok (), published, etcd) =>
    match evict c.delErr (evictTarget c.stats published) published etcd with
    | (result, published, etcd) => (result, { s with published, etcd })

inductive Event where
  | queue (digests : List (List UInt8))
  | call (c : Call)

def step (nodeId : String) (s : Session) : Event → Session
  | .queue digests => s.queue digests
  | .call c => (s.publishKvConfirmed nodeId c).2

/-- The digest has been put, or waits in the queue. -/
def Kept (nodeId : String) (s : Session) : Prop :=
  ∀ d ∈ s.queued, d.length = 32 →
    .put (confirmedKey nodeId d) ∈ s.etcd.writes ∨ d ∈ s.kvConfirmed

/-- What a call must leave behind. -/
def Survives (nodeId : String) (s : Session) : Event → Prop
  | .queue _ => True
  | .call c =>
    let r := s.publishKvConfirmed nodeId c
    (r.2.published.Nodup ∧ ∀ key, key ∈ r.2.published ↔ key ∈ r.2.etcd.keys) ∧
      (r.1 = .ok () → r.2.published.length ≤ kvConfirmedMaxKeys) ∧ r.2.Kept nodeId

end Session

/-- The digests from the first failed put on. -/
def leftOver (nodeId : String) (putErr : Text → Option String) :
    List (List UInt8) → List Text → List (List UInt8)
  | [], _ => []
  | digest :: pending, published =>
    let key := confirmedKey nodeId digest
    if digest.length ≠ 32 ∨ key ∈ published then leftOver nodeId putErr pending published
    else match putErr key with
      | some _ => digest :: pending
      | none => leftOver nodeId putErr pending (published ++ [key])

namespace Session

def left (nodeId : String) (s : Session) (c : Call) : List (List UInt8) :=
  leftOver nodeId c.putErr s.kvConfirmed s.published

/-- `published` and etcd after the puts of a call. -/
def afterPuts (nodeId : String) (s : Session) (c : Call) : List Text × Etcd :=
  (putAll nodeId c.putErr s.kvConfirmed s.published s.etcd).2

/-- No delete of the call fails. -/
def DeletesSucceed (nodeId : String) (s : Session) (c : Call) : Prop :=
  let published := (s.afterPuts nodeId c).1
  s.left nodeId c = [] →
    ∀ key ∈ published.take (published.length - evictTarget c.stats published), c.delErr key = none

/-- The digests that a failed put leaves behind were put before, or are queued again. -/
def LeftKept (nodeId : String) (s : Session) (c : Call) : Prop :=
  ∀ d ∈ s.left nodeId c, d.length = 32 →
    .put (confirmedKey nodeId d) ∈ (s.afterPuts nodeId c).2.writes ∨ d ∈ c.during

/-- The failures of a call do no harm, and half its keys are within the cap if the engine is
    under pressure. -/
def Spared (nodeId : String) (s : Session) : Event → Prop
  | .queue _ => True
  | .call c =>
    s.LeftKept nodeId c ∧ s.DeletesSucceed nodeId c ∧
      (s.left nodeId c = [] → underPressure c.stats = true →
        (s.afterPuts nodeId c).1.length ≤ 2 * kvConfirmedMaxKeys + 1)

end Session

/-! ## The two loops -/

/-- `published` is the keys of etcd, each once, and each of them was put. -/
structure Mirrors (published : List Text) (etcd : Etcd) : Prop where
  nodup : published.Nodup
  mem_iff : ∀ key, key ∈ published ↔ key ∈ etcd.keys
  put_mem : ∀ key ∈ published, .put key ∈ etcd.writes

theorem Mirrors.put {published : List Text} {etcd : Etcd} (h : Mirrors published etcd)
    {key : Text} (hkey : key ∉ published) : Mirrors (published ++ [key]) (etcd.put key) where
  nodup := List.nodup_append.mpr ⟨h.nodup, List.nodup_singleton key, fun a ha b hb hab =>
    hkey (List.mem_singleton.mp hb ▸ hab ▸ ha)⟩
  mem_iff k := by
    simp only [Etcd.put, List.mem_append, List.mem_singleton, List.mem_insert_iff, h.mem_iff k]
    exact or_comm
  put_mem k hk := by
    simp only [Etcd.put, List.mem_append, List.mem_singleton] at hk ⊢
    exact hk.imp (h.put_mem k) (congrArg _)

theorem Mirrors.delete {published : List Text} {etcd : Etcd} {key : Text}
    (h : Mirrors (key :: published) etcd) : Mirrors published (etcd.delete key) where
  nodup := h.nodup.of_cons
  mem_iff k := by
    have hk := h.mem_iff k
    have hnot := (List.nodup_cons.mp h.nodup).1
    simp only [List.mem_cons] at hk
    simp only [Etcd.delete, List.mem_filter, ← hk, decide_eq_true_eq]
    constructor
    · exact fun hmem => ⟨.inr hmem, fun heq => hnot (heq ▸ hmem)⟩
    · rintro ⟨hmem, hne⟩
      exact hmem.resolve_left hne
  put_mem k hk :=
    List.mem_append_left _ (h.put_mem k (List.mem_cons_of_mem _ hk))

variable (nodeId : String) (putErr delErr : Text → Option String)

/-- What every put of an unpublished key keeps, the loop keeps. -/
theorem putAll_keeps {P : List Text → Etcd → Prop}
    (hput : ∀ key published etcd, key ∉ published → P published etcd →
      P (published ++ [key]) (etcd.put key))
    {pending : List (List UInt8)} {published : List Text} {etcd : Etcd} (h : P published etcd) :
    P (putAll nodeId putErr pending published etcd).2.1
      (putAll nodeId putErr pending published etcd).2.2 := by
  fun_induction putAll nodeId putErr pending published etcd with
  | case1 => exact h
  | case2 _ _ _ _ _ ih => exact ih h
  | case3 _ _ _ _ _ _ _ ih => exact ih h
  | case4 => exact h
  | case5 _ _ _ _ _ _ hkey _ ih => exact ih (hput _ _ _ hkey h)

theorem putAll_mirrors {pending : List (List UInt8)} {published : List Text} {etcd : Etcd}
    (h : Mirrors published etcd) :
    Mirrors (putAll nodeId putErr pending published etcd).2.1
      (putAll nodeId putErr pending published etcd).2.2 :=
  putAll_keeps nodeId putErr (fun _ _ _ hkey h => h.put hkey) h

theorem writes_putAll (pending : List (List UInt8)) (published : List Text) (etcd : Etcd) :
    etcd.writes <+: (putAll nodeId putErr pending published etcd).2.2.writes :=
  putAll_keeps (P := fun _ e => etcd.writes <+: e.writes) nodeId putErr
    (fun _ _ _ _ h => h.trans (List.prefix_append _ _)) List.prefix_rfl

theorem putAll_ok_iff (pending : List (List UInt8)) (published : List Text) (etcd : Etcd) :
    (putAll nodeId putErr pending published etcd).1 = .ok () ↔
      leftOver nodeId putErr pending published = [] := by
  fun_induction putAll nodeId putErr pending published etcd with
  | case1 => simp [leftOver]
  | case2 _ _ _ _ hlen ih => rw [ih, leftOver, if_pos (.inl hlen)]
  | case3 _ _ _ _ _ _ hkey ih => rw [ih, leftOver, if_pos (.inr hkey)]
  | case4 _ _ _ _ hlen _ hkey _ herr =>
    rw [leftOver, if_neg (not_or.mpr ⟨hlen, hkey⟩)]
    dsimp only
    rw [herr]
    simp
  | case5 _ _ _ _ hlen _ hkey herr ih =>
    rw [ih, leftOver, if_neg (not_or.mpr ⟨hlen, hkey⟩), herr]

/-- A published key stays published while digests are put. -/
theorem published_putAll (pending : List (List UInt8)) (published : List Text) (etcd : Etcd) :
    published <+: (putAll nodeId putErr pending published etcd).2.1 :=
  putAll_keeps (P := fun keys _ => published <+: keys) nodeId putErr
    (fun _ _ _ _ h => h.trans (List.prefix_append _ _)) List.prefix_rfl

/-- Every digest taken from the queue is published, or left behind by a failed put. -/
theorem putAll_covers {pending : List (List UInt8)} {published : List Text} {etcd : Etcd}
    {d : List UInt8} (hd : d ∈ pending) (hlen : d.length = 32) :
    d ∈ leftOver nodeId putErr pending published ∨
      confirmedKey nodeId d ∈ (putAll nodeId putErr pending published etcd).2.1 := by
  fun_induction putAll nodeId putErr pending published etcd with
  | case1 => exact absurd hd List.not_mem_nil
  | case2 _ _ digest _ hskip ih =>
    rw [leftOver, if_pos (.inl hskip)]
    rcases List.mem_cons.mp hd with rfl | hd
    · exact absurd hlen hskip
    · exact ih hd
  | case3 digest pending published etcd _ key hkey ih =>
    rw [leftOver, if_pos (.inr hkey)]
    rcases List.mem_cons.mp hd with rfl | hd
    · exact .inr ((published_putAll nodeId putErr pending published etcd).subset hkey)
    · exact ih hd
  | case4 _ _ _ _ hskip _ hkey _ herr =>
    rw [leftOver, if_neg (not_or.mpr ⟨hskip, hkey⟩)]
    dsimp only
    rw [herr]
    exact .inl hd
  | case5 digest pending published etcd hskip key hkey herr ih =>
    rw [leftOver, if_neg (not_or.mpr ⟨hskip, hkey⟩), herr]
    rcases List.mem_cons.mp hd with rfl | hd
    · exact .inr ((published_putAll nodeId putErr pending (published ++ [key])
        (etcd.put key)).subset (List.mem_append_right _ (List.mem_singleton.mpr rfl)))
    · exact ih hd

theorem mem_of_mem_leftOver {pending : List (List UInt8)} {published : List Text}
    {d : List UInt8} (hd : d ∈ leftOver nodeId putErr pending published) : d ∈ pending := by
  fun_induction leftOver nodeId putErr pending published with
  | case1 => exact hd
  | case2 _ _ _ _ _ ih => exact List.mem_cons_of_mem _ (ih hd)
  | case3 => exact hd
  | case4 _ _ _ _ _ _ ih => exact List.mem_cons_of_mem _ (ih hd)

theorem writes_evict (target : Nat) (published : List Text) (etcd : Etcd) :
    etcd.writes <+: (evict delErr target published etcd).2.2.writes := by
  fun_induction evict delErr target published etcd with
  | case1 => exact List.prefix_rfl
  | case2 => exact List.prefix_rfl
  | case3 _ _ _ _ _ ih => exact (List.prefix_append _ _).trans ih
  | case4 => exact List.prefix_rfl

theorem evict_ok_iff (target : Nat) (published : List Text) (etcd : Etcd) :
    (evict delErr target published etcd).1 = .ok () ↔
      ∀ key ∈ published.take (published.length - target), delErr key = none := by
  fun_induction evict delErr target published etcd with
  | case1 => simp
  | case2 key published etcd hlt e herr =>
    have hcount : (key :: published).length - target = published.length - target + 1 := by
      rw [List.length_cons] at hlt ⊢
      omega
    rw [hcount, List.take_succ_cons, List.forall_mem_cons, herr]
    simp
  | case3 key published etcd hlt herr ih =>
    have hcount : (key :: published).length - target = published.length - target + 1 := by
      rw [List.length_cons] at hlt ⊢
      omega
    rw [ih, hcount, List.take_succ_cons, List.forall_mem_cons]
    exact ⟨fun h => ⟨herr, h⟩, fun h => h.2⟩
  | case4 key published etcd hle =>
    rw [Nat.sub_eq_zero_of_le (Nat.not_lt.mp hle)]
    simp

/-- Deleting keeps the mirror, unless a delete fails: its key is still in etcd. -/
theorem evict_mirrors (target : Nat) {published : List Text} {etcd : Etcd}
    (h : Mirrors published etcd) :
    let r := evict delErr target published etcd
    if r.1 = .ok () then Mirrors r.2.1 r.2.2 ∧ r.2.1.length = min published.length target
    else ∃ key ∈ r.2.2.keys, key ∉ r.2.1 := by
  fun_induction evict delErr target published etcd with
  | case1 => simpa using h
  | case2 key published etcd hlt e herr =>
    simp only [reduceCtorEq, if_false]
    exact ⟨key, (h.mem_iff key).mp List.mem_cons_self, (List.nodup_cons.mp h.nodup).1⟩
  | case3 key published etcd hlt herr ih =>
    have hcount : min (key :: published).length target = min published.length target := by
      rw [List.length_cons] at hlt ⊢
      omega
    rw [hcount]
    exact ih h.delete
  | case4 key published etcd hle =>
    rw [if_pos rfl]
    exact ⟨h, (Nat.min_eq_left (Nat.not_lt.mp hle)).symm⟩

/-! ## The calls of a session -/

namespace Session

/-- What the calls of a session keep. -/
structure Sound (s : Session) : Prop where
  mirrors : Mirrors s.published s.etcd
  kept : s.Kept nodeId
  queued : ∀ d ∈ s.kvConfirmed, d ∈ s.queued

/-- The two ways a call ends its puts. -/
theorem publishKvConfirmed_cases (s : Session) (c : Call) :
    (s.left nodeId c ≠ [] ∧ (s.publishKvConfirmed nodeId c).1 ≠ .ok () ∧
        (s.publishKvConfirmed nodeId c).2.published = (s.afterPuts nodeId c).1 ∧
        (s.publishKvConfirmed nodeId c).2.etcd = (s.afterPuts nodeId c).2) ∨
      (s.left nodeId c = [] ∧
        ((s.publishKvConfirmed nodeId c).1, (s.publishKvConfirmed nodeId c).2.published,
            (s.publishKvConfirmed nodeId c).2.etcd) =
          evict c.delErr (evictTarget c.stats (s.afterPuts nodeId c).1)
            (s.afterPuts nodeId c).1 (s.afterPuts nodeId c).2) := by
  have hok := putAll_ok_iff nodeId c.putErr s.kvConfirmed s.published s.etcd
  unfold publishKvConfirmed afterPuts left
  simp only [queue]
  rcases hputs : putAll nodeId c.putErr s.kvConfirmed s.published s.etcd with
    ⟨_ | _, published, etcd⟩
  · rw [hputs] at hok
    exact .inl ⟨fun h => (nomatch hok.mpr h), by simp, rfl, rfl⟩
  · rw [hputs] at hok
    exact .inr ⟨hok.mp rfl, rfl⟩

theorem queued_publishKvConfirmed (s : Session) (c : Call) :
    (s.publishKvConfirmed nodeId c).2.queued = s.queued ++ c.during ∧
      (s.publishKvConfirmed nodeId c).2.kvConfirmed = c.during := by
  unfold publishKvConfirmed
  simp only [queue, List.nil_append]
  split <;> exact ⟨rfl, rfl⟩

variable {nodeId} {s : Session}

theorem writes_afterPuts (c : Call) :
    (s.afterPuts nodeId c).2.writes <+: (s.publishKvConfirmed nodeId c).2.etcd.writes := by
  rcases publishKvConfirmed_cases nodeId s c with ⟨_, _, _, hetcd⟩ | ⟨_, hevict⟩
  · rw [hetcd]
  · have hetcd := congrArg (fun r => r.2.2.writes) hevict
    simp only at hetcd
    rw [hetcd]
    exact writes_evict _ _ _ _

theorem mirrors_afterPuts (h : s.Sound nodeId) (c : Call) :
    Mirrors (s.afterPuts nodeId c).1 (s.afterPuts nodeId c).2 :=
  putAll_mirrors nodeId c.putErr h.mirrors

theorem kept_publishKvConfirmed_iff (h : s.Sound nodeId) (c : Call) :
    (s.publishKvConfirmed nodeId c).2.Kept nodeId ↔ s.LeftKept nodeId c := by
  obtain ⟨hqueued, hwaiting⟩ := queued_publishKvConfirmed nodeId s c
  unfold Kept
  rw [hqueued, hwaiting]
  constructor
  · intro hkept d hd hlen
    rcases publishKvConfirmed_cases nodeId s c with ⟨_, _, _, hetcd⟩ | ⟨hnone, _⟩
    · rw [← hetcd]
      exact hkept d (List.mem_append_left _ (h.queued d (mem_of_mem_leftOver _ _ hd))) hlen
    · exact absurd (hnone ▸ hd) List.not_mem_nil
  · intro hleft d hd hlen
    rcases List.mem_append.mp hd with hd | hd
    · rcases h.kept d hd hlen with hput | hwaits
      · exact .inl ((writes_afterPuts c).subset ((writes_putAll _ _ _ _ _).subset hput))
      · rcases putAll_covers nodeId c.putErr hwaits hlen with hd | hkey
        · exact (hleft d hd hlen).imp_left fun hput => (writes_afterPuts c).subset hput
        · exact .inl ((writes_afterPuts c).subset ((mirrors_afterPuts h c).put_mem _ hkey))
    · exact .inr hd

/-- A call keeps the mirror if no delete fails. -/
theorem mirrors_publishKvConfirmed (h : s.Sound nodeId) {c : Call}
    (hdeletes : s.DeletesSucceed nodeId c) :
    Mirrors (s.publishKvConfirmed nodeId c).2.published (s.publishKvConfirmed nodeId c).2.etcd := by
  have hmirrors := mirrors_afterPuts h c
  rcases publishKvConfirmed_cases nodeId s c with ⟨_, _, hpub, hetcd⟩ | ⟨hleft, hevict⟩
  · rw [hpub, hetcd]
    exact hmirrors
  · have hok := (evict_ok_iff _ _ _ (s.afterPuts nodeId c).2).mpr (hdeletes hleft)
    have hspec := evict_mirrors c.delErr (evictTarget c.stats (s.afterPuts nodeId c).1) hmirrors
    rw [← hevict] at hok
    rw [← hevict, if_pos hok] at hspec
    exact hspec.1

/-- A failed delete leaves a key in etcd that is no longer published. -/
theorem deletesSucceed_of_exact (h : s.Sound nodeId) {c : Call}
    (hexact : ∀ key, key ∈ (s.publishKvConfirmed nodeId c).2.published ↔
      key ∈ (s.publishKvConfirmed nodeId c).2.etcd.keys) : s.DeletesSucceed nodeId c := by
  intro hleft
  rcases publishKvConfirmed_cases nodeId s c with ⟨hsome, _⟩ | ⟨_, hevict⟩
  · exact absurd hleft hsome
  · by_contra hfail
    have herr := mt (evict_ok_iff _ _ _ (s.afterPuts nodeId c).2).mp hfail
    have hspec := evict_mirrors c.delErr (evictTarget c.stats (s.afterPuts nodeId c).1)
      (mirrors_afterPuts h c)
    rw [← hevict] at herr
    rw [← hevict, if_neg herr] at hspec
    obtain ⟨key, hin, hout⟩ := hspec
    exact hout ((hexact key).mpr hin)

/-- A call that returns `Ok` trims `published` to its target. -/
theorem length_publishKvConfirmed (h : s.Sound nodeId) {c : Call}
    (hok : (s.publishKvConfirmed nodeId c).1 = .ok ()) :
    s.left nodeId c = [] ∧ (s.publishKvConfirmed nodeId c).2.published.length =
      min (s.afterPuts nodeId c).1.length (evictTarget c.stats (s.afterPuts nodeId c).1) := by
  rcases publishKvConfirmed_cases nodeId s c with ⟨_, hfailed, _⟩ | ⟨hleft, hevict⟩
  · exact absurd hok hfailed
  · have hspec := evict_mirrors c.delErr (evictTarget c.stats (s.afterPuts nodeId c).1)
      (mirrors_afterPuts h c)
    rw [← hevict, if_pos hok] at hspec
    exact ⟨hleft, hspec.2⟩

theorem ok_of_left_nil {c : Call} (hleft : s.left nodeId c = [])
    (hdeletes : s.DeletesSucceed nodeId c) : (s.publishKvConfirmed nodeId c).1 = .ok () := by
  rcases publishKvConfirmed_cases nodeId s c with ⟨hsome, _⟩ | ⟨_, hevict⟩
  · exact absurd hleft hsome
  · have hok := (evict_ok_iff _ _ _ (s.afterPuts nodeId c).2).mpr (hdeletes hleft)
    rwa [← hevict] at hok

theorem min_evictTarget_le_iff (stats : EngineStats) (published : List Text) :
    min published.length (evictTarget stats published) ≤ kvConfirmedMaxKeys ↔
      (underPressure stats = true → published.length ≤ 2 * kvConfirmedMaxKeys + 1) := by
  unfold evictTarget
  split
  · rename_i hpressure
    simp only [hpressure, forall_const]
    omega
  · rename_i hcalm
    simp only [hcalm, Bool.false_eq_true, false_implies, iff_true]
    omega

theorem survives_iff_spared (h : s.Sound nodeId) (e : Event) :
    s.Survives nodeId e ↔ s.Spared nodeId e := by
  cases e with
  | queue _ => exact Iff.rfl
  | call c =>
    constructor
    · rintro ⟨⟨_, hexact⟩, hcap, hkept⟩
      have hdeletes := deletesSucceed_of_exact h hexact
      refine ⟨(kept_publishKvConfirmed_iff h c).mp hkept, hdeletes, fun hleft => ?_⟩
      have hok := ok_of_left_nil hleft hdeletes
      have hlength := (length_publishKvConfirmed h hok).2
      exact (min_evictTarget_le_iff _ _).mp (hlength ▸ hcap hok)
    · rintro ⟨hleft, hdeletes, hpressure⟩
      have hmirrors := mirrors_publishKvConfirmed h hdeletes
      refine ⟨⟨hmirrors.nodup, hmirrors.mem_iff⟩, fun hok => ?_,
        (kept_publishKvConfirmed_iff h c).mpr hleft⟩
      obtain ⟨hnone, hlength⟩ := length_publishKvConfirmed h hok
      rw [hlength]
      exact (min_evictTarget_le_iff _ _).mpr (hpressure hnone)

theorem sound_start (pending : List (List UInt8)) : (start pending).Sound nodeId where
  mirrors := ⟨List.nodup_nil, fun _ => Iff.rfl, fun _ hkey => absurd hkey List.not_mem_nil⟩
  kept := fun _ hd _ => .inr hd
  queued := fun _ hd => hd

theorem sound_step (h : s.Sound nodeId) (e : Event) (hspared : s.Spared nodeId e) :
    (s.step nodeId e).Sound nodeId := by
  cases e with
  | queue digests =>
    refine ⟨h.mirrors, fun d hd hlen => ?_, fun d hd => ?_⟩
    · rcases List.mem_append.mp hd with hd | hd
      · exact (h.kept d hd hlen).imp_right (List.mem_append_left _)
      · exact .inr (List.mem_append_right _ hd)
    · exact (List.mem_append.mp hd).elim (fun hd => List.mem_append_left _ (h.queued d hd))
        (List.mem_append_right _)
  | call c =>
    obtain ⟨hleft, hdeletes, _⟩ := hspared
    obtain ⟨hqueued, hwaiting⟩ := queued_publishKvConfirmed nodeId s c
    refine ⟨mirrors_publishKvConfirmed h hdeletes, (kept_publishKvConfirmed_iff h c).mpr hleft,
      fun d hd => ?_⟩
    rw [step, hwaiting] at hd
    rw [step, hqueued]
    exact List.mem_append_right _ hd

/-- Along a session every call leaves `published` equal to the session's keys, within the cap
    when it returns `Ok`, and loses no digest, exactly if the failures of its calls do no
    harm. -/
theorem publish_survives_iff (nodeId : String) (pending : List (List UInt8))
    (events : List Event) :
    Along (step nodeId) (Survives nodeId) (start pending) events ↔
      Along (step nodeId) (Spared nodeId) (start pending) events :=
  along_iff (fun _ e h => survives_iff_spared h e) (fun _ e h hspared => sound_step h e hspared)
    events _ (sound_start pending)

/-- One failed put: the digest is neither in etcd nor in the queue. -/
theorem publish_loses_digest :
    ¬ Along (step "n1") (Survives "n1") (start [])
      [.queue [List.replicate 32 0], .call ⟨⟨0, 0, 0⟩, [], fun _ => some "unavailable",
        fun _ => none⟩] := by
  rintro ⟨_, ⟨_, _, hkept⟩, _⟩
  have hlost := hkept (List.replicate 32 0) (by decide +kernel) (by decide)
  revert hlost
  decide +kernel

end Session

end Cognitora.Agent
