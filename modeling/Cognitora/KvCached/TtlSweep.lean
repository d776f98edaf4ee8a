/-
  The TTL sweep among puts and lookups (cgn-kvcached `src/tiers.rs`, the second half of
  `evict_pass`).

  The sweep scans the index once and then forgets the expired SSD blocks one by one, with an
  await in each. `sweep_forgets_cold_iff`: in every interleaving of a pass with puts and lookups,
  when the sweep starts to forget an address, the index has it on SSD and expired exactly if it
  was not put or promoted since the scan.

  The functions are written once more with a log of what they do: `scanned`, `admitted` for a put
  or a promotion, `forgets` with the index entry of that moment. Without the log they are the
  functions of `KvCached/Tiers`, turn by turn (the second part of the theorem).
-/
import Cognitora.Lib.Interleave
import Cognitora.KvCached.TierSafety

namespace Cognitora.KvCached.Store

open Cognitora.Lib SsdTier

inductive Note where
  | scanned
  | admitted (addr : BlockAddress)
  | forgets (addr : BlockAddress) (entry : Option BlockMeta) (now : Nat)

/-- A call beside the pass. -/
inductive Access where
  | putRam (addr : BlockAddress) (bytes : Bytes) (model : String)
  | lookupWithPromote (addr : BlockAddress)

def Access.code : Access → Code Env Store Unit
  | .putRam addr bytes model => Store.putRam addr bytes model
  | .lookupWithPromote addr => do
    let _ ← Store.lookupWithPromote addr
    pure ()

/-! ## With a log -/

namespace Logged

def putRam (addr : BlockAddress) (bytes : Bytes) (model : String) :
    Code Env (Store × List Note) Unit := do
  let e ← Code.lift Code.answer
  Code.modifyNoting (fun s => s.admitRam e.now addr bytes model) fun _ => .admitted addr

def lookupWithPromote (addr : BlockAddress) : Code Env (Store × List Note) (Option Bytes) := do
  let e ← Code.lift Code.answer
  let s ← Code.lift Code.get
  match s.ram.bytesAt addr with
  | some b =>
    Code.lift (Code.modify fun s => { s with ram := s.ram.touch e.now addr })
    pure (some b)
  | none =>
    let found ← Code.lift (SsdTier.read addr)
    match found with
    | .ok (some b) =>
      let e ← Code.lift Code.answer
      Code.modifyNoting (fun s => s.admitRam e.now addr b "") fun _ => .admitted addr
      pure (some b)
    | _ => pure none

def access : Access → Code Env (Store × List Note) Unit
  | .putRam addr bytes model => putRam addr bytes model
  | .lookupWithPromote addr => do
    let _ ← lookupWithPromote addr
    pure ()

def sweep (ssdTtlSecs now : Nat) :
    List (BlockAddress × BlockMeta) → Code Env (Store × List Note) Unit
  | [] => pure ()
  | (addr, info) :: scanned => do
    if info.tier = .ssd ∧ now - info.lastSeenUnix > ssdTtlSecs then
      Code.note fun s => .forgets addr (s.index.lookup addr) now
      let _ ← Code.lift (Store.forget addr)
      sweep ssdTtlSecs now scanned
    else sweep ssdTtlSecs now scanned

def expireSsd (ssdTtlSecs : Nat) : Code Env (Store × List Note) Unit := do
  if ssdTtlSecs = 0 then pure () else
    let e ← Code.lift Code.answer
    let s ← Code.lift Code.get
    Code.note fun _ => .scanned
    sweep ssdTtlSecs e.now (s.scan e.iter)

def evictPass (target ssdTtlSecs : Nat) : Code Env (Store × List Note) Unit := do
  let s ← Code.lift Code.get
  (if s.ram.capacity > 0 ∧ s.ram.used > target then Code.lift (spillRounds target s.ram.used)
    else pure ())
  expireSsd ssdTtlSecs

/-! ## Without the log -/

theorem erases_putRam (addr : BlockAddress) (bytes : Bytes) (model : String) :
    (putRam addr bytes model).Erases (Store.putRam addr bytes model) :=
  Code.Erases.bind (Code.Erases.lift _) fun _ => Code.Erases.modifyNoting _ _

theorem erases_lookupWithPromote (addr : BlockAddress) :
    (lookupWithPromote addr).Erases (Store.lookupWithPromote addr) := by
  refine Code.Erases.bind (Code.Erases.lift _) fun e => ?_
  refine Code.Erases.bind (Code.Erases.lift _) fun s => ?_
  cases s.ram.bytesAt addr with
  | some b => exact Code.Erases.bind (Code.Erases.lift _) fun _ => Code.Erases.pure _
  | none =>
    refine Code.Erases.bind (Code.Erases.lift _) fun found => ?_
    rcases found with f | _ | b
    · exact Code.Erases.pure _
    · exact Code.Erases.pure _
    · refine Code.Erases.bind (Code.Erases.lift _) fun e => ?_
      exact Code.Erases.bind (Code.Erases.modifyNoting _ _) fun _ => Code.Erases.pure _

theorem erases_access (a : Access) : (access a).Erases a.code := by
  cases a with
  | putRam addr bytes model => exact erases_putRam addr bytes model
  | lookupWithPromote addr =>
    exact Code.Erases.bind (erases_lookupWithPromote addr) fun _ => Code.Erases.pure _

theorem erases_sweep (ssdTtlSecs now : Nat) (scanned : List (BlockAddress × BlockMeta)) :
    (sweep ssdTtlSecs now scanned).Erases (Store.sweep ssdTtlSecs now scanned) := by
  induction scanned with
  | nil => exact Code.Erases.pure _
  | cons entry scanned ih =>
    unfold sweep Store.sweep
    split
    · exact Code.Erases.note (Code.Erases.bind (Code.Erases.lift _) fun _ => ih)
    · exact ih

theorem erases_evictPass (target ssdTtlSecs : Nat) :
    (evictPass target ssdTtlSecs).Erases (Store.evictPass target ssdTtlSecs) := by
  refine Code.Erases.bind (Code.Erases.lift _) fun s => Code.Erases.bind ?_ fun _ => ?_
  · split
    · exact Code.Erases.lift _
    · exact Code.Erases.pure _
  · unfold expireSsd Store.expireSsd
    split
    · exact Code.Erases.pure _
    · refine Code.Erases.bind (Code.Erases.lift _) fun e => ?_
      refine Code.Erases.bind (Code.Erases.lift _) fun s => ?_
      exact Code.Erases.note (erases_sweep _ _ _)

end Logged

/-! ## What the log says -/

def Note.isScan : Note → Bool
  | .scanned => true
  | _ => false

/-- The notes since the last scan, the latest first. -/
def sinceScan (log : List Note) : List Note :=
  log.reverse.takeWhile fun n => !n.isScan

/-- On SSD and older than the TTL. -/
def ColdExpired (ssdTtlSecs now : Nat) (entry : Option BlockMeta) : Prop :=
  ∃ info, entry = some info ∧ info.tier = .ssd ∧ now - info.lastSeenUnix > ssdTtlSecs

/-- Whenever the sweep forgets an address, the address is cold and expired exactly if it was not
    admitted since the scan. -/
def Justified (ssdTtlSecs : Nat) (log : List Note) : Prop :=
  ∀ k addr entry now, log[k]? = some (.forgets addr entry now) →
    (ColdExpired ssdTtlSecs now entry ↔ .admitted addr ∉ sinceScan (log.take k))

theorem sinceScan_concat {n : Note} (hn : n.isScan = false) (log : List Note) :
    sinceScan (log ++ [n]) = n :: sinceScan log := by
  unfold sinceScan
  rw [List.reverse_append, List.reverse_singleton, List.singleton_append, List.takeWhile_cons, hn]
  rfl

theorem sinceScan_scanned (log : List Note) : sinceScan (log ++ [.scanned]) = [] := by
  unfold sinceScan
  rw [List.reverse_append]
  rfl

theorem mem_sinceScan_append {ns : List Note} (hns : ∀ n ∈ ns, n.isScan = false) (log : List Note)
    (n : Note) : n ∈ sinceScan (log ++ ns) ↔ n ∈ ns ∨ n ∈ sinceScan log := by
  induction ns using List.reverseRecOn with
  | nil => simp
  | append_singleton ns m ih =>
    rw [← List.append_assoc, sinceScan_concat (hns m (by simp)), List.mem_cons,
      ih fun n hn => hns n (List.mem_append_left _ hn), List.mem_append, List.mem_singleton,
      or_assoc, or_left_comm]

/-- One more note, which if it forgets is justified by what stands before it. -/
theorem Justified.concat {ssdTtlSecs : Nat} {log : List Note} (h : Justified ssdTtlSecs log)
    {n : Note} (hn : ∀ addr entry now, n = .forgets addr entry now →
      (ColdExpired ssdTtlSecs now entry ↔ .admitted addr ∉ sinceScan log)) :
    Justified ssdTtlSecs (log ++ [n]) := by
  intro k addr entry now hk
  rcases Nat.lt_or_ge k log.length with hlt | hge
  · rw [List.getElem?_append_left hlt] at hk
    rw [List.take_append_of_le_length (Nat.le_of_lt hlt)]
    exact h k addr entry now hk
  · rw [List.getElem?_append_right hge, List.getElem?_singleton] at hk
    split_ifs at hk
    have hlen : k = log.length := by omega
    rw [hlen, List.take_left]
    exact hn addr entry now (Option.some.inj hk)

theorem Justified.append {ssdTtlSecs : Nat} {log ns : List Note} (h : Justified ssdTtlSecs log)
    (hns : ∀ addr entry now, .forgets addr entry now ∉ ns) : Justified ssdTtlSecs (log ++ ns) := by
  induction ns generalizing log with
  | nil => rwa [List.append_nil]
  | cons n ns ih =>
    rw [← List.singleton_append, ← List.append_assoc]
    refine ih (h.concat fun addr entry now hn => ?_) fun addr entry now hmem =>
      hns addr entry now (List.mem_cons_of_mem _ hmem)
    exact absurd (hn ▸ List.mem_cons_self) (hns addr entry now)

theorem Justified.forgets {ssdTtlSecs : Nat} {log : List Note} (h : Justified ssdTtlSecs log)
    {addr : BlockAddress} {entry : Option BlockMeta} {now : Nat}
    (hiff : ColdExpired ssdTtlSecs now entry ↔ .admitted addr ∉ sinceScan log) :
    Justified ssdTtlSecs (log ++ [.forgets addr entry now]) := by
  refine h.concat fun addr' entry' now' heq => ?_
  cases heq
  exact hiff

/-! ## What puts and lookups do -/

def InRam (s : Store) (addr : BlockAddress) : Prop :=
  ∃ info, s.index.lookup addr = some info ∧ info.tier = .ram

/-- Some blocks have been admitted, and the index is as it was for the others. -/
def Admits (p p' : Store × List Note) : Prop :=
  ∃ ns : List Note, p'.2 = p.2 ++ ns ∧ (∀ n ∈ ns, ∃ addr, n = .admitted addr) ∧
    ∀ a, (.admitted a ∈ ns → InRam p'.1 a) ∧
      (.admitted a ∉ ns → p'.1.index.lookup a = p.1.index.lookup a)

theorem Admits.of_index {p p' : Store × List Note} (hlog : p'.2 = p.2)
    (hindex : p'.1.index = p.1.index) : Admits p p' := by
  refine ⟨[], by rw [hlog, List.append_nil], by simp, fun a => ⟨by simp, fun _ => ?_⟩⟩
  rw [hindex]

theorem Admits.trans {p p' p'' : Store × List Note} (h : Admits p p') (h' : Admits p' p'') :
    Admits p p'' := by
  obtain ⟨ns, hlog, hns, hindex⟩ := h
  obtain ⟨ns', hlog', hns', hindex'⟩ := h'
  refine ⟨ns ++ ns', by rw [hlog', hlog, List.append_assoc], fun n hn => ?_, fun a => ⟨?_, ?_⟩⟩
  · rcases List.mem_append.mp hn with hn | hn
    · exact hns n hn
    · exact hns' n hn
  · intro ha
    by_cases hlate : .admitted a ∈ ns'
    · exact (hindex' a).1 hlate
    · obtain ⟨info, hinfo, htier⟩ :=
        (hindex a).1 ((List.mem_append.mp ha).resolve_right hlate)
      exact ⟨info, ((hindex' a).2 hlate).trans hinfo, htier⟩
  · intro ha
    obtain ⟨hearly, hlate⟩ := not_or.mp fun h => ha (List.mem_append.mpr h)
    exact ((hindex' a).2 hlate).trans ((hindex a).2 hearly)

theorem Admits.guarantee : Guarantee Admits where
  refl _ := .of_index rfl rfl
  trans h h' := h.trans h'

theorem Admits.admitRam (s : Store) (log : List Note) (now : Nat) (addr : BlockAddress)
    (bytes : Bytes) (model : String) :
    Admits (s, log) (s.admitRam now addr bytes model, log ++ [.admitted addr]) := by
  refine ⟨[.admitted addr], rfl, fun n hn => ⟨addr, List.mem_singleton.mp hn⟩, fun a => ⟨?_, ?_⟩⟩
  · intro ha
    cases List.mem_singleton.mp ha
    exact ⟨_, AList.lookup_insert _, rfl⟩
  · intro ha
    have hne : a ≠ addr := fun h => ha (by rw [h]; exact List.mem_singleton_self _)
    exact AList.lookup_insert_ne hne

section

variable {rely : Store × List Note → Store × List Note → Prop}

theorem rg_putRam (addr : BlockAddress) (bytes : Bytes) (model : String)
    (p : Store × List Note) :
    (Logged.putRam addr bytes model).rg rely Admits (fun _ _ => True) p := by
  refine Code.rg_bind Admits.guarantee (Code.rg_lift_answer Admits.guarantee fun e => ?_)
  exact Code.rg_modify (Admits.admitRam p.1 p.2 e.now addr bytes model) trivial

theorem rg_lookupWithPromote (addr : BlockAddress) (p : Store × List Note) :
    (Logged.lookupWithPromote addr).rg rely Admits (fun _ _ => True) p := by
  have hg := Admits.guarantee
  refine Code.rg_bind hg (Code.rg_lift_answer hg fun e => ?_)
  refine Code.rg_bind hg (Code.rg_lift_get hg ?_)
  split
  · refine Code.rg_bind hg (Code.rg_lift_modify (.of_index rfl rfl) ?_)
    exact Code.rg_pure hg trivial
  · refine Code.rg_bind hg (Code.rg_lift_perform hg fun p' _ i => ⟨.of_index rfl rfl, ?_⟩)
    intro p'' _
    split
    · refine Code.rg_bind hg (Code.rg_lift_answer hg fun e => ?_)
      refine Code.rg_bind hg (Code.rg_modify (Admits.admitRam p''.1 p''.2 e.now addr _ "") ?_)
      exact Code.rg_pure hg trivial
    · exact Code.rg_pure hg trivial

theorem rg_access (a : Access) (p : Store × List Note) :
    (Logged.access a).rg rely Admits (fun _ _ => True) p := by
  cases a with
  | putRam addr bytes model => exact rg_putRam addr bytes model p
  | lookupWithPromote addr =>
    exact Code.rg_bind Admits.guarantee (Code.rg_mono (rg_lookupWithPromote addr p)
      fun _ _ _ => Code.rg_pure Admits.guarantee trivial)

end

theorem Admits.justified {ssdTtlSecs : Nat} {p p' : Store × List Note} (h : Admits p p')
    (hp : Justified ssdTtlSecs p.2) : Justified ssdTtlSecs p'.2 := by
  obtain ⟨ns, hlog, hns, -⟩ := h
  rw [hlog]
  refine hp.append fun addr entry now hmem => ?_
  obtain ⟨a, ha⟩ := hns _ hmem
  cases ha

/-! ## What the sweep knows -/

/-- The scanned entries that are left: an address is in RAM if it was admitted since, and
    otherwise still has its entry. -/
def Current (scanned : List (BlockAddress × BlockMeta)) (p : Store × List Note) : Prop :=
  ∀ x ∈ scanned, (.admitted x.1 ∈ sinceScan p.2 → InRam p.1 x.1) ∧
    (.admitted x.1 ∉ sinceScan p.2 → p.1.index.lookup x.1 = some x.2)

section

variable {scanned : List (BlockAddress × BlockMeta)} {p p' : Store × List Note}

theorem Current.admits (h : Current scanned p) (hadmits : Admits p p') : Current scanned p' := by
  obtain ⟨ns, hlog, hns, hindex⟩ := hadmits
  have hscan : ∀ n ∈ ns, n.isScan = false := fun n hn => by
    obtain ⟨a, rfl⟩ := hns n hn
    rfl
  intro x hx
  rw [hlog, mem_sinceScan_append hscan]
  obtain ⟨hadmitted, hsame⟩ := h x hx
  by_cases hnew : .admitted x.1 ∈ ns
  · exact ⟨fun _ => (hindex x.1).1 hnew, fun hno => absurd (Or.inl hnew) hno⟩
  · have hkeep := (hindex x.1).2 hnew
    refine ⟨fun hsince => ?_, fun hno => ?_⟩
    · obtain ⟨info, hinfo, htier⟩ := hadmitted (hsince.resolve_left hnew)
      exact ⟨info, hkeep.trans hinfo, htier⟩
    · exact hkeep.trans (hsame fun hold => hno (Or.inr hold))

/-- Only the entries of the addresses and what was admitted matter. -/
theorem Current.congr (h : Current scanned p)
    (hlog : ∀ a, .admitted a ∈ sinceScan p'.2 ↔ .admitted a ∈ sinceScan p.2)
    (hindex : ∀ x ∈ scanned, p'.1.index.lookup x.1 = p.1.index.lookup x.1) :
    Current scanned p' := by
  intro x hx
  unfold InRam
  rw [hlog, hindex x hx]
  exact h x hx

/-- The entry the sweep is about to forget. -/
theorem Current.cold_iff {addr : BlockAddress} {info : BlockMeta} {ssdTtlSecs now : Nat}
    (h : Current ((addr, info) :: scanned) p)
    (hexpired : info.tier = .ssd ∧ now - info.lastSeenUnix > ssdTtlSecs) :
    ColdExpired ssdTtlSecs now (p.1.index.lookup addr) ↔ .admitted addr ∉ sinceScan p.2 := by
  obtain ⟨hadmitted, hsame⟩ := h (addr, info) List.mem_cons_self
  constructor
  · rintro ⟨info', hinfo', hssd, -⟩ hsince
    obtain ⟨info'', hinfo'', hram⟩ := hadmitted hsince
    rw [hinfo'] at hinfo''
    cases hinfo''
    rw [hssd] at hram
    cases hram
  · intro hno
    exact ⟨info, hsame hno, hexpired⟩

end

/-- The pass only has to write notes that are justified. -/
def Writes (ssdTtlSecs : Nat) (p p' : Store × List Note) : Prop :=
  Justified ssdTtlSecs p.2 → Justified ssdTtlSecs p'.2

theorem Writes.guarantee (ssdTtlSecs : Nat) : Guarantee (Writes ssdTtlSecs) where
  refl _ h := h
  trans h h' hp := h' (h hp)

theorem Writes.of_log {ssdTtlSecs : Nat} {p p' : Store × List Note} (h : p'.2 = p.2) :
    Writes ssdTtlSecs p p' := by
  unfold Writes
  rw [h]
  exact id

/-- Forgetting an address leaves the other entries alone. -/
theorem rg_forget {ssdTtlSecs : Nat} {scanned : List (BlockAddress × BlockMeta)}
    {addr : BlockAddress} (hnot : ∀ x ∈ scanned, x.1 ≠ addr) {p : Store × List Note}
    (h : Current scanned p) :
    (Code.lift (Store.forget addr)).rg Admits (Writes ssdTtlSecs)
      (fun _ p' => Current scanned p') p := by
  have hg := Writes.guarantee ssdTtlSecs
  refine Code.rg_lift_bind hg (Code.rg_lift_modify (.of_log rfl) ?_)
  refine Code.rg_lift_bind hg ?_
  unfold SsdTier.evict
  refine Code.rg_lift_bind hg (Code.rg_lift_perform hg fun p' hp' e => ⟨.of_log rfl, ?_⟩)
  intro p'' hp''
  have hcur : Current scanned p'' := by
    have hstart : Current scanned ({ p.1 with ram := p.1.ram.evict addr }, p.2) :=
      h.congr (fun _ => Iff.rfl) fun _ _ => rfl
    refine Current.admits (Current.congr (hstart.admits hp') ?_ fun x _ => ?_) hp''
    · exact fun _ => Iff.rfl
    · dsimp only
      split <;> rfl
  have herase : Current scanned ({ p''.1 with index := p''.1.index.erase addr }, p''.2) :=
    hcur.congr (fun _ => Iff.rfl) fun x hx => AList.lookup_erase_ne (hnot x hx)
  split
  · refine Code.rg_lift_pure hg (Code.rg_lift_bind hg (Code.rg_lift_modify (.of_log rfl) ?_))
    exact Code.rg_lift_pure hg herase
  · exact Code.rg_lift_pure hg (Code.rg_lift_pure hg hcur)

theorem rg_sweep (ssdTtlSecs now : Nat) {scanned : List (BlockAddress × BlockMeta)}
    (hnodup : (scanned.map Prod.fst).Nodup) {p : Store × List Note} (h : Current scanned p) :
    (Logged.sweep ssdTtlSecs now scanned).rg Admits (Writes ssdTtlSecs) (fun _ _ => True) p := by
  have hg := Writes.guarantee ssdTtlSecs
  induction scanned generalizing p with
  | nil => exact Code.rg_pure hg trivial
  | cons entry scanned ih =>
    obtain ⟨addr, info⟩ := entry
    rw [List.map_cons, List.nodup_cons] at hnodup
    have hnot : ∀ x ∈ scanned, x.1 ≠ addr := fun x hx heq =>
      hnodup.1 (List.mem_map.mpr ⟨x, hx, heq⟩)
    have hrest : Current scanned p := fun x hx => h x (List.mem_cons_of_mem _ hx)
    unfold Logged.sweep
    split
    · next hexpired =>
      have hwrites : Writes ssdTtlSecs p
          (p.1, p.2 ++ [.forgets addr (p.1.index.lookup addr) now]) :=
        fun hp => hp.forgets (h.cold_iff hexpired)
      have hnoted : Current scanned
          (p.1, p.2 ++ [.forgets addr (p.1.index.lookup addr) now]) := by
        refine hrest.congr (fun a => ?_) fun _ _ => rfl
        rw [sinceScan_concat rfl, List.mem_cons]
        exact or_iff_right (by simp)
      refine Code.rg_bind hg (Code.rg_modify hwrites ?_)
      exact Code.rg_bind hg (Code.rg_mono (rg_forget hnot hnoted) fun _ p' hp' =>
        ih hnodup.2 hp')
    · exact ih hnodup.2 hrest

/-- A scan has every address once, with its entry. -/
theorem scan_spec (s : Store) (e : Env) :
    ((s.scan e.iter).map Prod.fst).Nodup ∧
      ∀ x ∈ s.scan e.iter, s.index.lookup x.1 = some x.2 := by
  have hfst : ∀ keys : List BlockAddress,
      (((keys.filterMap fun a => (s.index.lookup a).map fun m => (a, m)).map Prod.fst).Sublist
        keys) := by
    intro keys
    induction keys with
    | nil => exact List.Sublist.refl _
    | cons a keys ih =>
      rw [List.filterMap_cons]
      cases s.index.lookup a with
      | none => exact ih.cons a
      | some m => exact ih.cons_cons a
  refine ⟨?_, fun x hx => ?_⟩
  · exact ((e.iter_perm _).nodup_iff.mpr s.index.keys_nodup).sublist (hfst _)
  · obtain ⟨a, -, ha⟩ := List.mem_filterMap.mp hx
    obtain ⟨m, hm, rfl⟩ := Option.map_eq_some_iff.mp ha
    exact hm

theorem rg_evictPass (target ssdTtlSecs : Nat) (p : Store × List Note) :
    (Logged.evictPass target ssdTtlSecs).rg Admits (Writes ssdTtlSecs) (fun _ _ => True) p := by
  have hg := Writes.guarantee ssdTtlSecs
  have hexpire : ∀ p, (Logged.expireSsd ssdTtlSecs).rg Admits (Writes ssdTtlSecs)
      (fun _ _ => True) p := by
    intro p
    unfold Logged.expireSsd
    split
    · exact Code.rg_pure hg trivial
    · refine Code.rg_bind hg (Code.rg_lift_answer hg fun e => ?_)
      refine Code.rg_bind hg (Code.rg_lift_get hg ?_)
      refine Code.rg_bind hg (Code.rg_modify (fun hp => hp.append ?_) ?_)
      · intro addr entry now hmem
        cases List.mem_singleton.mp hmem
      · obtain ⟨hnodup, hentries⟩ := scan_spec p.1 e
        have hcur : Current (p.1.scan e.iter) (p.1, p.2 ++ [.scanned]) := by
          intro x hx
          rw [sinceScan_scanned]
          exact ⟨fun h => absurd h List.not_mem_nil, fun _ => hentries x hx⟩
        exact rg_sweep ssdTtlSecs e.now hnodup hcur
  refine Code.rg_bind hg (Code.rg_lift_get hg (Code.rg_bind hg ?_))
  split
  · exact Code.rg_lift (fun _ _ _ => .of_log rfl) (fun _ p => hexpire p) _ _
  · exact Code.rg_pure hg (hexpire p)

/-! ## The pass among the others -/

/-- The pass is task 0; the others admit blocks. -/
def sweepRoles (ssdTtlSecs : Nat) : Roles (Store × List Note) where
  rely
    | 0 => Admits
    | _ + 1 => Writes ssdTtlSecs
  guar
    | 0 => Writes ssdTtlSecs
    | _ + 1 => Admits
  refl
    | 0 => Admits.guarantee.refl
    | _ + 1 => (Writes.guarantee ssdTtlSecs).refl
  trans
    | 0 => fun _ _ _ h h' => h.trans h'
    | _ + 1 => fun _ _ _ h h' => (Writes.guarantee ssdTtlSecs).trans h h'
  compatible
    | 0, 0 => fun hne => absurd rfl hne
    | 0, _ + 1 => fun _ _ _ h => h
    | _ + 1, 0 => fun _ _ _ h => h
    | _ + 1, _ + 1 => fun _ _ _ h hp => h.justified hp

/-- A pass over a store. -/
def passOn (s : Store) (target ssdTtlSecs : Nat) : TaskPool Env Store where
  state := s
  tasks := [(Store.evictPass target ssdTtlSecs).task]

def Logged.passOn (s : Store) (target ssdTtlSecs : Nat) : TaskPool Env (Store × List Note) where
  state := (s, [])
  tasks := [(Logged.evictPass target ssdTtlSecs).task]

/-- In every interleaving with puts and lookups, the sweep forgets cold and expired addresses
    and those admitted since its scan; and the log it is read from changes nothing. -/
theorem sweep_forgets_cold_iff (s : Store) (target ssdTtlSecs : Nat)
    (turns : List (TaskPool.Turn Env Access)) :
    Justified ssdTtlSecs
        ((Logged.passOn s target ssdTtlSecs).run Logged.access turns).state.2 ∧
      ((Logged.passOn s target ssdTtlSecs).run Logged.access turns).Erases
        ((passOn s target ssdTtlSecs).run Access.code turns) := by
  refine ⟨?_, ?_⟩
  · have hsafe : (Logged.passOn s target ssdTtlSecs).Safe (sweepRoles ssdTtlSecs) := by
      intro k t ht
      cases k with
      | zero =>
        cases ht
        exact fun p _ i => rg_evictPass target ssdTtlSecs p i
      | succ k => cases ht
    have hjustified : ∀ k p p', Justified ssdTtlSecs p.2 →
        ((sweepRoles ssdTtlSecs).rely k p p' ∨ (sweepRoles ssdTtlSecs).guar k p p') →
          Justified ssdTtlSecs p'.2 := by
      intro k p p' hp h
      cases k with
      | zero => exact h.elim (fun h => Admits.justified h hp) fun h => h hp
      | succ k => exact h.elim (fun h => h hp) fun h => Admits.justified h hp
    refine TaskPool.Safe.run (J := fun p => Justified ssdTtlSecs p.2) (n := 1)
      (fun k p p' hp h => hjustified k p p' hp (Or.inl h))
      (fun k p p' hp h => hjustified k p p' hp (Or.inr h)) ?_ hsafe (Nat.le_refl _) ?_ turns
    · intro a k hk p _
      cases k with
      | zero => omega
      | succ k => exact rg_access a p
    · intro k addr entry now h
      cases h
  · refine TaskPool.erases_run Logged.erases_access ⟨rfl, .cons ?_ .nil⟩ turns
    exact ⟨_, _, rfl, fun i p => Logged.erases_evictPass target ssdTtlSecs i p⟩

/-! ## A put that comes too late -/

/-- Two blocks on SSD, last seen at time 0. -/
def coldPair : Store where
  ram := RamTier.new 1024
  files := ((∅ : AList fun _ : String => Bytes).insert (pathFor ⟨Core.zeroDigest, 1⟩) [1]).insert
    (pathFor ⟨Core.zeroDigest, 0⟩) [0]
  index := ((∅ : AList fun _ : BlockAddress => BlockMeta).insert ⟨Core.zeroDigest, 1⟩
      (metaOf ⟨Core.zeroDigest, 1⟩ [1] "m" 0 .ssd)).insert ⟨Core.zeroDigest, 0⟩
    (metaOf ⟨Core.zeroDigest, 0⟩ [0] "m" 0 .ssd)

/-- The second block is put while the first one's file is removed. -/
def latePut : List (TaskPool.Turn Env Access) :=
  [ .segment 0 { okEnv with now := 100 }
  , .start (.putRam ⟨Core.zeroDigest, 1⟩ [2] "m")
  , .segment 1 { okEnv with now := 100 }
  , .segment 0 okEnv
  , .segment 0 okEnv ]

/-- With a TTL of 10 the sweep goes on to forget the block that was just put. -/
theorem sweep_discards_fresh_put :
    ¬ ∀ (s : Store) (target ssdTtlSecs : Nat) (turns : List (TaskPool.Turn Env Access)),
      ∀ addr entry now,
        .forgets addr entry now ∈
            ((Logged.passOn s target ssdTtlSecs).run Logged.access turns).state.2 →
          ColdExpired ssdTtlSecs now entry := by
  intro h
  have hnote : ((Logged.passOn coldPair 512 10).run Logged.access latePut).state.2[3]? =
      some (.forgets ⟨Core.zeroDigest, 1⟩
        (some (metaOf ⟨Core.zeroDigest, 1⟩ [2] "m" 100 .ram)) 100) := rfl
  obtain ⟨info, hinfo, hssd, -⟩ := h coldPair 512 10 latePut _ _ _ (List.mem_of_getElem? hnote)
  cases hinfo
  cases hssd

end Cognitora.KvCached.Store
