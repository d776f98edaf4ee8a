/-
  The index across restarts of the daemon (cgn-kvcached `src/tiers.rs`, cgn-kv `src/index.rs`).

  `Store::open` finds the files and the persistent index of the previous run and starts with
  an empty RAM tier; it does not compare the two. An operation runs under a set of answers of
  the environment, so that its file operations may fail.

  `Backed`: every block the index knows is in RAM or has its file. Every operation keeps it
  while no two addresses in play share a file, except a `forget` that fails to remove the file
  of a block that has none; a restart keeps it exactly if every indexed block has its file.
  `advertised_fetches_iff`: in every run over a set of addresses without such a `forget` and
  such a restart, `lookup` finds only blocks that `lookup_with_promote` returns, exactly if no
  two of the addresses agree on the first 8 bytes of the digest and on the layer.

  The operations of the index itself do not fail, and operations run one after the other.
-/
import Cognitora.KvCached.TierSafety

namespace Cognitora.KvCached.Store

open Cognitora.Lib SsdTier

/-- `Store::open` on the directories of a store that was shut down. -/
def restart (s : Store) (ramBytes : Nat) : Store :=
  { s with ram := RamTier.new ramBytes }

def HasFile (s : Store) (addr : BlockAddress) : Prop :=
  (s.files.lookup (pathFor addr)).isSome = true

/-- Every block the index knows has its file. -/
def Filed (s : Store) : Prop :=
  ∀ a, (s.index.lookup a).isSome = true → s.HasFile a

/-- `lookup_with_promote` returns bytes, the files being readable. -/
def Fetches (s : Store) (addr : BlockAddress) : Prop :=
  (∃ r s', (Store.lookupWithPromote addr).Runs AllOk s r s') ∧
    ∀ r s', (Store.lookupWithPromote addr).Runs AllOk s r s' → r.isSome = true

def Op.code : Op → Code Env Store Unit
  | .putRam addr bytes model => Store.putRam addr bytes model
  | .spillToSsd addr model => do
    let _ ← Store.spillToSsd addr model
    pure ()
  | .lookupWithPromote addr => do
    let _ ← Store.lookupWithPromote addr
    pure ()
  | .evictPass target ssdTtlSecs => Store.evictPass target ssdTtlSecs
  | .forget addr => do
    let _ ← Store.forget addr
    pure ()

/-- An operation, with the answers the environment may give it, or a restart. -/
inductive Event where
  | call (op : Op) (ok : Env → Prop)
  | restart (ramBytes : Nat)

namespace Event

/-- Whether an event leads from `s` to `s'`. -/
def Takes (s s' : Store) : Event → Prop
  | .call op ok => op.code.Runs ok s () s'
  | .restart ramBytes => s' = s.restart ramBytes

def Over (A : Set BlockAddress) : Event → Prop
  | .call op _ => op.Over A
  | .restart _ => True

/-- A restart finds every indexed block in its file. A `forget` removes the file if there is
    one, or the block is one that has its file or is not indexed. -/
def Safe (s : Store) : Event → Prop
  | .call (.forget addr) ok =>
    (∀ e, ok e → e.ok = true) ∨ (s.index.lookup addr).isSome = false ∨ s.HasFile addr
  | .call _ _ => True
  | .restart _ => s.Filed

end Event

/-- States after sequences of events that are allowed where they happen. -/
inductive Reachable (allowed : Store → Event → Prop) : Store → Prop where
  | new (ramBytes : Nat) : Reachable allowed (Store.new ramBytes)
  | step {s s' : Store} (h : Reachable allowed s) (event : Event) (hallowed : allowed s event)
      (htakes : event.Takes s s') : Reachable allowed s'

theorem fetches_iff (s : Store) (addr : BlockAddress) :
    s.Fetches addr ↔ (s.ram.bytesAt addr).isSome = true ∨ s.HasFile addr := by
  obtain ⟨r, s', hrun⟩ :=
    Code.exists_runs (show AllOk okEnv from rfl) (Store.lookupWithPromote addr) s
  have hresult : (Store.lookupWithPromote addr).wp AllOk
      (fun r _ => r.isSome = true ↔ (s.ram.bytesAt addr).isSome = true ∨ s.HasFile addr) s := by
    unfold HasFile
    refine Store.wp_lookupWithPromote ?_ ?_ ?_
    · intro b hb _
      rw [hb]
      simp
    · intro _ b hb _
      rw [hb]
      simp
    · intro hram hfile
      rw [hram, hfile]
      simp
  constructor
  · intro h
    have hr := Code.Runs.of_wp hrun hresult
    exact hr.mp (h.2 r s' hrun)
  · intro h
    refine ⟨⟨r, s', hrun⟩, fun r s' hrun => ?_⟩
    have hr := Code.Runs.of_wp hrun hresult
    exact hr.mpr h

/-! ## The invariant -/

structure Backed (A : Set BlockAddress) (s : Store) : Prop where
  ram : ∀ a, (s.ram.bytesAt a).isSome = true → a ∈ A
  index : ∀ a, (s.index.lookup a).isSome = true → a ∈ A
  held : ∀ a, (s.index.lookup a).isSome = true → (s.ram.bytesAt a).isSome = true ∨ s.HasFile a
  /-- What the TTL sweep may forget has a file. -/
  cold : ∀ a info, s.index.lookup a = some info → info.tier = .ssd → s.HasFile a

/-- The files have grown, nothing else has changed. -/
structure Grown (s s' : Store) : Prop where
  ram : s'.ram = s.ram
  index : s'.index = s.index
  files : ∀ a, s.HasFile a → s'.HasFile a

theorem Grown.refl (s : Store) : Grown s s :=
  ⟨rfl, rfl, fun _ h => h⟩

variable {A : Set BlockAddress} {ok : Env → Prop}

/-- What `Backed` says about one block: whether memory has it, its index entry, its file. -/
structure BackedAt (A : Set BlockAddress) (a : BlockAddress) (inRam : Bool)
    (entry : Option BlockMeta) (filed : Prop) : Prop where
  ram : inRam = true → a ∈ A
  index : entry.isSome = true → a ∈ A
  held : entry.isSome = true → inRam = true ∨ filed
  cold : ∀ info, entry = some info → info.tier = .ssd → filed

theorem Backed.each {s : Store} (h : Backed A s) (a : BlockAddress) :
    BackedAt A a (s.ram.bytesAt a).isSome (s.index.lookup a) (s.HasFile a) :=
  ⟨h.ram a, h.index a, h.held a, h.cold a⟩

theorem Backed.of_each {s : Store}
    (h : ∀ a, BackedAt A a (s.ram.bytesAt a).isSome (s.index.lookup a) (s.HasFile a)) :
    Backed A s :=
  ⟨fun a => (h a).ram, fun a => (h a).index, fun a => (h a).held, fun a => (h a).cold⟩

namespace BackedAt

variable {a : BlockAddress} {inRam : Bool} {entry : Option BlockMeta} {filed filed' : Prop}

/-- A block that is nowhere. -/
theorem absent : BackedAt A a false none filed :=
  ⟨nofun, nofun, nofun, nofun⟩

theorem file_imp (h : BackedAt A a inRam entry filed) (himp : a ∈ A → filed → filed') :
    BackedAt A a inRam entry filed' := by
  refine ⟨h.ram, h.index, fun he => (h.held he).imp_right (himp (h.index he)), ?_⟩
  intro info he hcold
  have ha : a ∈ A := h.index (by rw [he]; rfl)
  exact himp ha (h.cold info he hcold)

/-- A block with a file need not be in memory. -/
theorem on_file (ha : a ∈ A) (hfiled : filed) : BackedAt A a inRam entry filed :=
  ⟨fun _ => ha, fun _ => ha, fun _ => Or.inr hfiled, fun _ _ _ => hfiled⟩

/-- A block leaves memory if it has a file or is not indexed. -/
theorem evict (h : BackedAt A a inRam entry filed) (hkeep : entry.isSome = false ∨ filed) :
    BackedAt A a false entry filed := by
  refine ⟨nofun, h.index, fun he => ?_, h.cold⟩
  rcases hkeep with hnone | hfiled
  · rw [hnone] at he
    cases he
  · exact Or.inr hfiled

end BackedAt

theorem Backed.new (ramBytes : Nat) : Backed A (Store.new ramBytes) :=
  .of_each fun _ => .absent

theorem Backed.grown {s s' : Store} (h : Backed A s) (hg : Grown s s') : Backed A s' := by
  refine .of_each fun a => ?_
  rw [hg.ram, hg.index]
  exact (h.each a).file_imp fun _ => hg.files a

theorem Backed.touch {s : Store} (h : Backed A s) (now : Nat) (addr : BlockAddress) :
    Backed A { s with ram := s.ram.touch now addr } := by
  refine .of_each fun a => ?_
  rw [RamTier.bytesAt_touch]
  exact h.each a

theorem Backed.admitRam {s : Store} (h : Backed A s) {addr : BlockAddress} (haddr : addr ∈ A)
    (now : Nat) (bytes : Bytes) (model : String) :
    Backed A (s.admitRam now addr bytes model) := by
  have hram : ∀ a, (s.admitRam now addr bytes model).ram.bytesAt a =
      if a = addr then some bytes else s.ram.bytesAt a :=
    fun a => RamTier.bytesAt_put s.ram now addr a bytes
  have hindex : ∀ a, a ≠ addr →
      (s.admitRam now addr bytes model).index.lookup a = s.index.lookup a :=
    fun a ha => AList.lookup_insert_ne ha
  have hself : (s.admitRam now addr bytes model).index.lookup addr =
      some (metaOf addr bytes model now .ram) := AList.lookup_insert _
  refine .of_each fun a => ?_
  by_cases heq : a = addr
  · rw [heq, hram, if_pos rfl, hself]
    refine ⟨fun _ => haddr, fun _ => haddr, fun _ => Or.inl rfl, fun info hinfo hcold => ?_⟩
    cases hinfo
    cases hcold
  · rw [hram, if_neg heq, hindex a heq]
    exact h.each a

/-- The end of a spill, once the block has its file. -/
theorem Backed.spilled {s : Store} (h : Backed A s) {addr : BlockAddress} (haddr : addr ∈ A)
    (hfile : s.HasFile addr) (now : Nat) (bytes : Bytes) (model : String) :
    Backed A (s.spilled now addr bytes model) := by
  have hram : ∀ a, (s.spilled now addr bytes model).ram.bytesAt a =
      if a = addr then none else s.ram.bytesAt a :=
    fun a => RamTier.bytesAt_evict s.ram addr a
  have hindex : ∀ a, a ≠ addr →
      (s.spilled now addr bytes model).index.lookup a = s.index.lookup a :=
    fun a ha => AList.lookup_insert_ne ha
  refine .of_each fun a => ?_
  by_cases heq : a = addr
  · rw [heq]
    exact .on_file haddr hfile
  · rw [hram, if_neg heq, hindex a heq]
    exact h.each a

/-- A `forget` that succeeds. -/
theorem Backed.forgotten {s : Store} (h : Backed A s) (hinj : Set.InjOn pathFor A)
    {addr : BlockAddress} (haddr : addr ∈ A) :
    Backed A { s with
      ram := s.ram.evict addr
      files := s.files.erase (pathFor addr)
      index := s.index.erase addr } := by
  refine .of_each fun a => ?_
  rw [RamTier.bytesAt_evict]
  by_cases heq : a = addr
  · rw [if_pos heq, heq, AList.lookup_erase]
    exact .absent
  · rw [if_neg heq, AList.lookup_erase_ne heq]
    refine (h.each a).file_imp fun ha hfile => ?_
    unfold HasFile
    rw [AList.lookup_erase_ne fun hpath => heq (hinj ha haddr hpath)]
    exact hfile

/-- A `forget` that could not remove the file. -/
theorem Backed.kept {s : Store} (h : Backed A s) {addr : BlockAddress}
    (hkeep : (s.index.lookup addr).isSome = false ∨ s.HasFile addr) :
    Backed A { s with ram := s.ram.evict addr } := by
  refine .of_each fun a => ?_
  rw [RamTier.bytesAt_evict]
  by_cases heq : a = addr
  · rw [if_pos heq, heq]
    exact (h.each addr).evict hkeep
  · rw [if_neg heq]
    exact h.each a

theorem Backed.restart {s : Store} (h : Backed A s) (hfiled : s.Filed) (ramBytes : Nat) :
    Backed A (s.restart ramBytes) := by
  refine .of_each fun a => (h.each a).evict ?_
  cases hindexed : (s.index.lookup a).isSome with
  | false => exact Or.inl rfl
  | true => exact Or.inr (hfiled a hindexed)

/-! ## Operations whose file operations may fail -/

theorem wp_fileOp_cases {possible : Store → Bool} {effect : Store → Store}
    {Q : Bool → Store → Prop} {s : Store} (hdone : possible s = true → Q true (effect s))
    (hfail : ∀ e, ok e → (e.ok && possible s) = false → Q false s) :
    (fileOp possible effect).wp ok Q s := by
  refine Code.wp_perform fun e he => ?_
  cases hok : e.ok && possible s with
  | false =>
    rw [if_neg (by simp)]
    exact hfail e he hok
  | true =>
    rw [if_pos rfl]
    exact hdone (Bool.and_eq_true_iff.mp hok).2

/-- A write leaves all files there, and the new one if it succeeds. -/
theorem wp_write_grown (addr : BlockAddress) (bytes : Bytes) (s : Store) :
    (SsdTier.write addr bytes).wp ok
      (fun r s' => Grown s s' ∧ (r = .ok () → s'.HasFile addr)) s := by
  refine Code.wp_bind (wp_fileOp_cases (fun _ => ?_) fun _ _ _ => ?_)
  · rw [if_pos rfl]
    have htmp : Grown s { s with files := s.files.insert (tmpFor addr) bytes } := by
      refine ⟨rfl, rfl, fun a ha => ?_⟩
      unfold HasFile
      rw [AList.lookup_insert_ne (pathFor_ne_tmpFor a addr)]
      exact ha
    refine Code.wp_bind (wp_fileOp_cases (fun _ => ?_) fun _ _ _ => ?_)
    · rw [if_pos rfl]
      refine Code.wp_bind (wp_fileOp_cases (fun _ => ?_) fun _ _ _ => ?_)
      · rw [if_pos rfl]
        refine Code.wp_pure ?_
        dsimp only [id]
        rw [rename_tmp]
        refine ⟨⟨rfl, rfl, fun a ha => ?_⟩, fun _ => ?_⟩
        · unfold HasFile
          rw [lookup_written]
          split
          · rfl
          · exact ha
        · unfold HasFile
          rw [lookup_written, if_pos rfl]
          rfl
      · rw [if_neg (by simp)]
        exact Code.wp_pure ⟨htmp, fun h => absurd h (by simp)⟩
    · rw [if_neg (by simp)]
      exact Code.wp_pure ⟨Grown.refl s, fun h => absurd h (by simp)⟩
  · rw [if_neg (by simp)]
    exact Code.wp_pure ⟨Grown.refl s, fun h => absurd h (by simp)⟩

theorem Backed.wp_spillToSsd {s : Store} (h : Backed A s) (addr : BlockAddress) (model : String) :
    (Store.spillToSsd addr model).wp ok (fun _ s => Backed A s) s := by
  refine Code.wp_bind (Code.wp_answer fun e _ => Code.wp_bind (Code.wp_get ?_))
  cases hb : s.ram.bytesAt addr with
  | none => exact Code.wp_pure h
  | some bytes =>
    have haddr : addr ∈ A := h.ram addr (by rw [hb]; rfl)
    refine Code.wp_bind (Code.wp_modify (Code.wp_bind ?_))
    refine Code.wp_mono (wp_write_grown addr bytes _) fun r s' hpost => ?_
    have hs' := (h.touch e.now addr).grown hpost.1
    cases r with
    | error f => exact Code.wp_pure hs'
    | ok u =>
      refine Code.wp_bind (Code.wp_answer fun e' _ => Code.wp_bind (Code.wp_modify ?_))
      exact Code.wp_pure (hs'.spilled haddr (hpost.2 rfl) e'.now bytes model)

theorem Backed.wp_lookupWithPromote {s : Store} (h : Backed A s) {addr : BlockAddress}
    (haddr : addr ∈ A) :
    (Store.lookupWithPromote addr).wp ok (fun _ s => Backed A s) s := by
  refine Code.wp_bind (Code.wp_answer fun e _ => Code.wp_bind (Code.wp_get ?_))
  cases hb : s.ram.bytesAt addr with
  | some b => exact Code.wp_bind (Code.wp_modify (Code.wp_pure (h.touch e.now addr)))
  | none =>
    refine Code.wp_bind (Code.wp_perform fun e' _ => ?_)
    split
    · next b _ =>
      exact Code.wp_bind (Code.wp_answer fun e'' _ =>
        Code.wp_bind (Code.wp_modify (Code.wp_pure (h.admitRam haddr e''.now b ""))))
    · exact Code.wp_pure h

/-- A `forget` also keeps what is filed or not indexed that way. -/
theorem Backed.wp_forget {s : Store} (h : Backed A s) (hinj : Set.InjOn pathFor A)
    {addr : BlockAddress} (haddr : addr ∈ A)
    (hsafe : (∀ e, ok e → e.ok = true) ∨ (s.index.lookup addr).isSome = false ∨ s.HasFile addr) :
    (Store.forget addr).wp ok (fun _ s' => Backed A s' ∧
      ∀ a ∈ A, (s.index.lookup a).isSome = false ∨ s.HasFile a →
        (s'.index.lookup a).isSome = false ∨ s'.HasFile a) s := by
  refine Code.wp_bind (Code.wp_modify (Code.wp_bind (Code.wp_bind
    (wp_fileOp_cases (fun _ => ?_) fun e he hfail => ?_))))
  · rw [if_pos rfl]
    refine Code.wp_pure (Code.wp_bind (Code.wp_modify (Code.wp_pure
      ⟨h.forgotten hinj haddr, fun a ha hkept => ?_⟩)))
    unfold HasFile at hkept ⊢
    dsimp only
    by_cases heq : a = addr
    · rw [heq, AList.lookup_erase]
      exact Or.inl rfl
    · rw [AList.lookup_erase_ne heq, AList.lookup_erase_ne fun hpath => heq (hinj ha haddr hpath)]
      exact hkept
  · rw [if_neg (by simp)]
    refine Code.wp_pure (Code.wp_pure ⟨h.kept ?_, fun _ _ hkept => hkept⟩)
    rcases hsafe with hok | hkeep
    · rw [hok e he] at hfail
      exact absurd hfail (by simp)
    · exact hkeep

/-- What the sweep has still to visit is filed or no longer indexed. -/
theorem Backed.wp_sweep {s : Store} (h : Backed A s) (hinj : Set.InjOn pathFor A)
    (ssdTtlSecs now : Nat) (scanned : List (BlockAddress × BlockMeta))
    (hscan : ∀ entry ∈ scanned, entry.1 ∈ A ∧
      (entry.2.tier = .ssd → (s.index.lookup entry.1).isSome = false ∨ s.HasFile entry.1)) :
    (sweep ssdTtlSecs now scanned).wp ok (fun _ s => Backed A s) s := by
  induction scanned generalizing s with
  | nil => exact Code.wp_pure h
  | cons entry scanned ih =>
    obtain ⟨haddr, hcold⟩ := hscan entry (List.mem_cons_self ..)
    unfold sweep
    split
    · next hexpired =>
      refine Code.wp_bind (Code.wp_mono
        (h.wp_forget hinj haddr (Or.inr (hcold hexpired.1))) fun _ s' h' => ih h'.1 ?_)
      intro entry' hmem
      obtain ⟨haddr', hcold'⟩ := hscan entry' (List.mem_cons_of_mem _ hmem)
      exact ⟨haddr', fun hssd => h'.2 entry'.1 haddr' (hcold' hssd)⟩
    · exact ih h fun entry' hmem => hscan entry' (List.mem_cons_of_mem _ hmem)

theorem Backed.wp_expireSsd {s : Store} (h : Backed A s) (hinj : Set.InjOn pathFor A)
    (ssdTtlSecs : Nat) : (expireSsd ssdTtlSecs).wp ok (fun _ s => Backed A s) s := by
  unfold expireSsd
  split
  · exact Code.wp_pure h
  · refine Code.wp_bind (Code.wp_answer fun e _ => Code.wp_bind (Code.wp_get
      (h.wp_sweep hinj ssdTtlSecs e.now _ ?_)))
    intro entry hentry
    obtain ⟨a, _, ha⟩ := List.mem_filterMap.mp hentry
    obtain ⟨info, hinfo, heq⟩ := Option.map_eq_some_iff.mp ha
    rw [← heq]
    exact ⟨h.index a (by rw [hinfo]; rfl), fun hssd => Or.inr (h.cold a info hinfo hssd)⟩

/-! ## Runs -/

theorem Backed.takes {s s' : Store} (h : Backed A s) (hinj : Set.InjOn pathFor A) (event : Event)
    (hover : event.Over A) (hsafe : event.Safe s) (htakes : event.Takes s s') : Backed A s' := by
  cases event with
  | restart ramBytes =>
    rw [show s' = s.restart ramBytes from htakes]
    exact h.restart hsafe ramBytes
  | call op ok =>
    have hwp : op.code.wp ok (fun _ s => Backed A s) s := by
      cases op with
      | putRam addr bytes model =>
        exact Code.wp_bind (Code.wp_answer fun e _ =>
          Code.wp_modify (h.admitRam hover e.now bytes model))
      | spillToSsd addr model =>
        exact Code.wp_bind (Code.wp_mono (h.wp_spillToSsd addr model) fun _ _ h => Code.wp_pure h)
      | lookupWithPromote addr =>
        exact Code.wp_bind (Code.wp_mono (h.wp_lookupWithPromote hover) fun _ _ h =>
          Code.wp_pure h)
      | evictPass target ssdTtlSecs =>
        exact wp_evictPass target ssdTtlSecs (fun s addr model h => h.wp_spillToSsd addr model)
          (fun s h => h.wp_expireSsd hinj ssdTtlSecs) h
      | forget addr =>
        exact Code.wp_bind (Code.wp_mono (h.wp_forget hinj hover hsafe) fun _ _ h =>
          Code.wp_pure h.1)
    exact (Code.Runs.of_wp htakes hwp :)

theorem Reachable.backed {s : Store} (hinj : Set.InjOn pathFor A)
    (h : Reachable (fun s event => event.Over A ∧ event.Safe s) s) : Backed A s := by
  induction h with
  | new ramBytes => exact Backed.new ramBytes
  | step _ event hallowed htakes ih => exact ih.takes hinj event hallowed.1 hallowed.2 htakes

/-- An operation whose file operations succeed can be taken wherever it is allowed. -/
theorem Reachable.call {allowed : Store → Event → Prop} {s : Store} (h : Reachable allowed s)
    (op : Op) (hallowed : allowed s (.call op AllOk)) {Q : Store → Prop}
    (hwp : op.code.wp AllOk (fun _ s => Q s) s) : ∃ s', Reachable allowed s' ∧ Q s' := by
  obtain ⟨_, s', hrun⟩ := Code.exists_runs (show AllOk okEnv from rfl) op.code s
  have hpost := Code.Runs.of_wp hrun hwp
  exact ⟨s', h.step (.call op AllOk) hallowed hrun, hpost⟩

/-- A put leaves the block in RAM and in the index; the files do not change. -/
theorem reachable_put (allowed : Store → Event → Prop) (a : BlockAddress)
    (hput : allowed (Store.new 0) (.call (.putRam a [0] "") AllOk)) :
    ∃ s, Reachable allowed s ∧ s.ram.bytesAt a = some [0] ∧ (s.index.lookup a).isSome = true ∧
      s.files = ∅ := by
  refine (Reachable.new 0).call (.putRam a [0] "") hput (wp_putRam fun now => ?_)
  refine ⟨?_, ?_, rfl⟩
  · exact (RamTier.bytesAt_put _ now a a [0]).trans (if_pos rfl)
  · show (AList.lookup a (AList.insert a _ _)).isSome = true
    rw [AList.lookup_insert]
    rfl

/-- The spilled block of `a` is gone once `b`, which has the same file, is forgotten. -/
theorem shared_file_lost (allowed : Store → Event → Prop) {a b : BlockAddress} (hne : a ≠ b)
    (hpath : pathFor a = pathFor b)
    (hput : ∀ s, allowed s (.call (.putRam a [0] "") AllOk))
    (hspill : ∀ s, allowed s (.call (.spillToSsd a "") AllOk))
    (hforget : ∀ s, allowed s (.call (.forget b) AllOk)) :
    ∃ s, Reachable allowed s ∧ (s.index.lookup a).isSome = true ∧ ¬ s.Fetches a := by
  obtain ⟨s₁, h₁, hram₁, hindex₁, _⟩ := reachable_put allowed a (hput _)
  obtain ⟨s₂, h₂, hram₂, hindex₂⟩ : ∃ s, Reachable allowed s ∧ s.ram.bytesAt a = none ∧
      (s.index.lookup a).isSome = true := by
    refine h₁.call (.spillToSsd a "") (hspill s₁) (Code.wp_bind (Store.wp_spillToSsd ?_ ?_))
    · intro hnone
      rw [hram₁] at hnone
      exact absurd hnone (by simp)
    · intro bytes _ now now'
      refine Code.wp_pure ⟨?_, ?_⟩
      · exact (RamTier.bytesAt_evict _ a a).trans (if_pos rfl)
      · show (AList.lookup a (AList.insert a _ _)).isSome = true
        rw [AList.lookup_insert]
        rfl
  obtain ⟨s₃, h₃, hindex₃, hram₃, hfile₃⟩ : ∃ s, Reachable allowed s ∧
      (s.index.lookup a).isSome = true ∧ s.ram.bytesAt a = none ∧ ¬ s.HasFile a := by
    refine h₂.call (.forget b) (hforget s₂) (Code.wp_bind (Code.wp_bind (Code.wp_modify
      (Code.wp_bind (Code.wp_bind (wp_fileOp rfl ?_))))))
    rw [if_pos rfl]
    refine Code.wp_pure (Code.wp_bind (Code.wp_modify (Code.wp_pure (Code.wp_pure ⟨?_, ?_, ?_⟩))))
    · show (AList.lookup a (s₂.index.erase b)).isSome = true
      rw [AList.lookup_erase_ne hne]
      exact hindex₂
    · exact (RamTier.bytesAt_evict s₂.ram b a).trans ((if_neg hne).trans hram₂)
    · show ¬ (AList.lookup (pathFor a) (s₂.files.erase (pathFor b))).isSome = true
      rw [hpath, AList.lookup_erase]
      simp
  refine ⟨s₃, h₃, hindex₃, fun hfetch => ?_⟩
  rcases (fetches_iff s₃ a).mp hfetch with h | h
  · rw [hram₃] at h
    exact absurd h (by simp)
  · exact hfile₃ h

/-- In every run over `A` in which restarts find every indexed block in its file, and no
    `forget` fails to remove the file of an indexed block that has none, `lookup` finds only
    blocks that `lookup_with_promote` returns, exactly if no two addresses of `A` agree on the
    first 8 bytes of the digest and on the layer. -/
theorem advertised_fetches_iff (A : Set BlockAddress) :
    (∀ s, Reachable (fun s event => event.Over A ∧ event.Safe s) s → ∀ now a,
      (s.lookup now a).1.isSome = true → s.Fetches a) ↔
    ∀ a ∈ A, ∀ b ∈ A, a.digest.toList.take 8 = b.digest.toList.take 8 → a.layer = b.layer →
      a = b := by
  constructor
  · intro hfetch a ha b hb hdigest hlayer
    by_contra hne
    obtain ⟨s, hreach, hindex, hlost⟩ := shared_file_lost
      (fun s event => event.Over A ∧ event.Safe s) hne
      ((pathFor_eq_iff a b).mpr ⟨hdigest, hlayer⟩) (fun _ => ⟨ha, trivial⟩)
      (fun _ => ⟨ha, trivial⟩) (fun _ => ⟨hb, Or.inl fun _ he => he⟩)
    refine hlost (hfetch s hreach 0 a ?_)
    rw [isSome_lookup, hindex, Bool.or_true]
  · intro hfiles s hreach now a hsome
    rw [isSome_lookup, Bool.or_eq_true] at hsome
    rw [fetches_iff]
    rcases hsome with hram | hindex
    · exact Or.inl hram
    · exact (hreach.backed (injOn_pathFor hfiles)).held a hindex

/-- A block that is put and not spilled is advertised after a restart. -/
theorem restart_advertises_lost :
    ¬ ∀ s, Reachable (fun _ _ => True) s → ∀ now a, (s.lookup now a).1.isSome = true →
      s.Fetches a := by
  intro hfetch
  obtain ⟨s, hreach, _, hindex, hfiles⟩ := reachable_put (fun _ _ => True)
    ⟨Vector.replicate 32 0, 0⟩ trivial
  have hrestarted := hreach.step (.restart 0) trivial rfl
  have hlost := hfetch _ hrestarted 0 ⟨Vector.replicate 32 0, 0⟩ (by
    rw [isSome_lookup]
    exact (Bool.or_eq_true _ _).mpr (Or.inr hindex))
  rcases (fetches_iff _ _).mp hlost with h | h
  · exact absurd h (by simp [restart, RamTier.new, RamTier.bytesAt])
  · unfold HasFile restart at h
    dsimp only at h
    rw [hfiles] at h
    exact absurd h (by simp)

end Cognitora.KvCached.Store
