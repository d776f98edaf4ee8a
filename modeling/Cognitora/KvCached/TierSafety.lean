/-
  The tiered store never mixes up blocks, unless two addresses share a file (cgn-kvcached
  `src/tiers.rs`).

  Sequences of completed operations with every file operation succeeding. `Faithful`: what
  RAM holds under an address is its latest put, and so is what its file holds while RAM does
  not hold the address. It survives every operation when no two addresses in play have the
  same file name. `lookup_own_bytes_iff`: `lookup_with_promote` returns nothing or the latest
  put of its address in every run over a set of addresses exactly if no two of them agree on
  the first 8 bytes of the digest and on the layer.
-/
import Cognitora.KvCached.Tiers
import Mathlib.Data.Set.Function

namespace Cognitora.KvCached.Store

open Cognitora.Lib SsdTier

/-- Every file operation succeeds. -/
def AllOk (e : Env) : Prop := e.ok = true

inductive Op where
  | putRam (addr : BlockAddress) (bytes : Bytes) (model : String)
  | spillToSsd (addr : BlockAddress) (model : String)
  | lookupWithPromote (addr : BlockAddress)
  | evictPass (target ssdTtlSecs : Nat)
  | forget (addr : BlockAddress)

/-- Whether an operation completes from `s` in `s'`. -/
def Op.Completes (s s' : Store) : Op → Prop
  | .putRam addr bytes model => (Store.putRam addr bytes model).Runs AllOk s () s'
  | .spillToSsd addr model => ∃ r, (Store.spillToSsd addr model).Runs AllOk s r s'
  | .lookupWithPromote addr => ∃ r, (Store.lookupWithPromote addr).Runs AllOk s r s'
  | .evictPass target ssdTtlSecs => (Store.evictPass target ssdTtlSecs).Runs AllOk s () s'
  | .forget addr => ∃ r, (Store.forget addr).Runs AllOk s r s'

/-- The address an operation puts, if any, is in `A`, and so are the others it names. -/
def Op.Over (A : Set BlockAddress) : Op → Prop
  | .putRam addr _ _ => addr ∈ A
  | .spillToSsd addr _ => addr ∈ A
  | .lookupWithPromote addr => addr ∈ A
  | .evictPass _ _ => True
  | .forget addr => addr ∈ A

/-- The bytes of the most recent put of each address. -/
def Op.latest (latest : BlockAddress → Option Bytes) : Op → BlockAddress → Option Bytes
  | .putRam addr bytes _ => Function.update latest addr (some bytes)
  | _ => latest

/-- States after sequences of completed operations over `A`, with the most recent puts. -/
inductive Reaches (A : Set BlockAddress) : Store → (BlockAddress → Option Bytes) → Prop where
  | new (ramBytes : Nat) : Reaches A (Store.new ramBytes) fun _ => none
  | step {s s' : Store} {latest : BlockAddress → Option Bytes} (h : Reaches A s latest) (op : Op)
      (hover : op.Over A) (hrun : op.Completes s s') : Reaches A s' (op.latest latest)

/-! ## The invariant -/

structure Faithful (A : Set BlockAddress) (latest : BlockAddress → Option Bytes) (s : Store) :
    Prop where
  ram : ∀ a b, s.ram.bytesAt a = some b → a ∈ A ∧ latest a = some b
  /-- A file below a block in RAM may be stale; it is rewritten before RAM lets go. -/
  ssd : ∀ a ∈ A, s.ram.bytesAt a = none → ∀ b, s.files.lookup (pathFor a) = some b →
    latest a = some b

variable {A : Set BlockAddress} {latest : BlockAddress → Option Bytes}

/-- Only what RAM and the files hold matters. -/
theorem Faithful.congr {s s' : Store} (h : Faithful A latest s)
    (hram : ∀ a, s'.ram.bytesAt a = s.ram.bytesAt a)
    (hfiles : ∀ a ∈ A, s'.files.lookup (pathFor a) = s.files.lookup (pathFor a)) :
    Faithful A latest s' := by
  refine ⟨?_, ?_⟩
  · intro a b hb
    rw [hram] at hb
    exact h.ram a b hb
  · intro a ha hnone b hb
    rw [hram] at hnone
    rw [hfiles a ha] at hb
    exact h.ssd a ha hnone b hb

theorem Faithful.touch {s : Store} (h : Faithful A latest s) (now : Nat) (addr : BlockAddress) :
    Faithful A latest { s with ram := s.ram.touch now addr } :=
  h.congr (RamTier.bytesAt_touch s.ram now addr) fun _ _ => rfl

theorem Faithful.admitRam {s : Store} (h : Faithful A latest s) {addr : BlockAddress}
    (haddr : addr ∈ A) (now : Nat) (bytes : Bytes) (model : String) :
    Faithful A (Function.update latest addr (some bytes)) (s.admitRam now addr bytes model) := by
  have hram : ∀ a, (s.admitRam now addr bytes model).ram.bytesAt a =
      if a = addr then some bytes else s.ram.bytesAt a :=
    fun a => RamTier.bytesAt_put s.ram now addr a bytes
  refine ⟨?_, ?_⟩
  · intro a b hb
    rw [hram] at hb
    split at hb
    · next ha =>
      rw [ha, Function.update_self]
      exact ⟨haddr, hb⟩
    · next ha =>
      rw [Function.update_of_ne ha]
      exact h.ram a b hb
  · intro a ha hnone b hb
    rw [hram] at hnone
    split at hnone
    · exact absurd hnone (by simp)
    · next hne =>
      rw [Function.update_of_ne hne]
      exact h.ssd a ha hnone b hb

/-- Forgetting an address takes its block out of RAM and its file away. -/
theorem Faithful.forget {s : Store} (h : Faithful A latest s) (addr : BlockAddress) :
    Faithful A latest
      { s with ram := s.ram.evict addr, files := s.files.erase (pathFor addr) } := by
  refine ⟨?_, ?_⟩
  · intro a b hb
    rw [RamTier.bytesAt_evict] at hb
    split at hb
    · exact absurd hb (by simp)
    · exact h.ram a b hb
  · intro a ha hnone b hb
    dsimp only at hb
    by_cases hpath : pathFor a = pathFor addr
    · rw [hpath, AList.lookup_erase] at hb
      exact absurd hb (by simp)
    · rw [AList.lookup_erase_ne hpath] at hb
      rw [RamTier.bytesAt_evict, if_neg fun haddr => hpath (by rw [haddr])] at hnone
      exact h.ssd a ha hnone b hb

/-- The files after a write that succeeded. -/
def written (s : Store) (addr : BlockAddress) (bytes : Bytes) : Store :=
  { s with
    files :=
      ((s.files.insert (tmpFor addr) bytes).erase (tmpFor addr)).insert (pathFor addr) bytes }

theorem lookup_written (s : Store) (addr a : BlockAddress) (bytes : Bytes) :
    (s.written addr bytes).files.lookup (pathFor a) =
      if pathFor a = pathFor addr then some bytes else s.files.lookup (pathFor a) := by
  unfold written
  dsimp only
  split
  · next h => rw [h, AList.lookup_insert]
  · next h =>
    have htmp := pathFor_ne_tmpFor a addr
    rw [AList.lookup_insert_ne h, AList.lookup_erase_ne htmp, AList.lookup_insert_ne htmp]

/-- A spill: the file gets what RAM holds, then RAM lets go. -/
theorem Faithful.spill {s : Store} (h : Faithful A latest s) (hinj : Set.InjOn pathFor A)
    {addr : BlockAddress} {bytes : Bytes} (hb : s.ram.bytesAt addr = some bytes) (now : Nat)
    (model : String) : Faithful A latest ((s.written addr bytes).spilled now addr bytes model) := by
  obtain ⟨haddr, hlatest⟩ := h.ram addr bytes hb
  have hram : ∀ a, ((s.written addr bytes).spilled now addr bytes model).ram.bytesAt a =
      if a = addr then none else s.ram.bytesAt a :=
    fun a => RamTier.bytesAt_evict s.ram addr a
  have hfile : ∀ a, ((s.written addr bytes).spilled now addr bytes model).files.lookup (pathFor a) =
      if pathFor a = pathFor addr then some bytes else s.files.lookup (pathFor a) :=
    fun a => lookup_written s addr a bytes
  refine ⟨?_, ?_⟩
  · intro a b hab
    rw [hram] at hab
    split at hab
    · exact absurd hab (by simp)
    · exact h.ram a b hab
  · intro a ha hnone b hab
    rw [hram] at hnone
    rw [hfile] at hab
    by_cases hpath : pathFor a = pathFor addr
    · have heq : a = addr := hinj ha haddr hpath
      rw [if_pos hpath] at hab
      rw [heq, hlatest, hab]
    · rw [if_neg hpath] at hab
      rw [if_neg fun heq => hpath (by rw [heq])] at hnone
      exact h.ssd a ha hnone b hab

/-! ## Completed operations -/

theorem wp_fileOp {possible : Store → Bool} {effect : Store → Store} {Q : Bool → Store → Prop}
    {s : Store} (hposs : possible s = true) (h : Q true (effect s)) :
    (fileOp possible effect).wp AllOk Q s := by
  refine Code.wp_perform fun e he => ?_
  have hok : (e.ok && possible s) = true := by rw [hposs, show e.ok = true from he]; rfl
  rw [if_pos hok, hok]
  exact h

theorem rename_tmp (s : Store) (addr : BlockAddress) (bytes : Bytes) :
    rename { s with files := s.files.insert (tmpFor addr) bytes } (tmpFor addr) (pathFor addr) =
      s.written addr bytes := by
  unfold rename
  dsimp only
  rw [AList.lookup_insert]
  rfl

theorem wp_write {addr : BlockAddress} {bytes : Bytes} {Q : Except Failure Unit → Store → Prop}
    {s : Store} (h : Q (.ok ()) (s.written addr bytes)) :
    (SsdTier.write addr bytes).wp AllOk Q s := by
  refine Code.wp_bind (wp_fileOp rfl ?_)
  rw [if_pos rfl]
  refine Code.wp_bind (wp_fileOp rfl ?_)
  rw [if_pos rfl]
  refine Code.wp_bind (wp_fileOp ?_ ?_)
  · dsimp only [id]
    rw [AList.lookup_insert]
    rfl
  · rw [if_pos rfl]
    refine Code.wp_pure ?_
    dsimp only [id]
    rw [rename_tmp]
    exact h

theorem wp_spillToSsd {addr : BlockAddress} {model : String}
    {Q : Except Failure Unit → Store → Prop} {s : Store}
    (hnone : s.ram.bytesAt addr = none → Q (.ok ()) s)
    (hsome : ∀ bytes, s.ram.bytesAt addr = some bytes → ∀ now now',
      Q (.ok ()) ((({ s with ram := s.ram.touch now addr } : Store).written addr bytes).spilled
        now' addr bytes model)) :
    (Store.spillToSsd addr model).wp AllOk Q s := by
  refine Code.wp_bind (Code.wp_answer fun e _ => Code.wp_bind (Code.wp_get ?_))
  cases hb : s.ram.bytesAt addr with
  | none => exact Code.wp_pure (hnone hb)
  | some bytes =>
    refine Code.wp_bind (Code.wp_modify (Code.wp_bind (wp_write ?_)))
    refine Code.wp_bind (Code.wp_answer fun e' _ => Code.wp_bind (Code.wp_modify (Code.wp_pure ?_)))
    exact hsome bytes hb e.now e'.now

theorem wp_lookupWithPromote {addr : BlockAddress} {Q : Option Bytes → Store → Prop} {s : Store}
    (hram : ∀ b, s.ram.bytesAt addr = some b → ∀ now,
      Q (some b) { s with ram := s.ram.touch now addr })
    (hssd : s.ram.bytesAt addr = none → ∀ b, s.files.lookup (pathFor addr) = some b → ∀ now,
      Q (some b) (s.admitRam now addr b ""))
    (hmiss : s.ram.bytesAt addr = none → s.files.lookup (pathFor addr) = none → Q none s) :
    (Store.lookupWithPromote addr).wp AllOk Q s := by
  refine Code.wp_bind (Code.wp_answer fun e _ => Code.wp_bind (Code.wp_get ?_))
  cases hb : s.ram.bytesAt addr with
  | some b => exact Code.wp_bind (Code.wp_modify (Code.wp_pure (hram b hb e.now)))
  | none =>
    refine Code.wp_bind (Code.wp_perform fun e' he' => ?_)
    rw [if_pos (show e'.ok = true from he')]
    cases hf : s.files.lookup (pathFor addr) with
    | none => exact Code.wp_pure (hmiss hb hf)
    | some b =>
      exact Code.wp_bind (Code.wp_answer fun e'' _ =>
        Code.wp_bind (Code.wp_modify (Code.wp_pure (hssd hb b hf e''.now))))

theorem wp_putRam {addr : BlockAddress} {bytes : Bytes} {model : String} {Q : Unit → Store → Prop}
    {s : Store} (h : ∀ now, Q () (s.admitRam now addr bytes model)) :
    (Store.putRam addr bytes model).wp AllOk Q s :=
  Code.wp_bind (Code.wp_answer fun e _ => Code.wp_modify (h e.now))

/-! ## Completed operations keep the invariant -/

theorem Faithful.wp_spillToSsd {s : Store} (h : Faithful A latest s) (hinj : Set.InjOn pathFor A)
    (addr : BlockAddress) (model : String) :
    (Store.spillToSsd addr model).wp AllOk (fun _ s => Faithful A latest s) s := by
  refine Store.wp_spillToSsd (fun _ => h) fun bytes hb now now' => ?_
  exact (h.touch now addr).spill hinj (by rw [RamTier.bytesAt_touch, hb]) now' model

/-- `lookup_with_promote` finds the latest put or nothing; a promotion puts back what the file
    held. -/
theorem Faithful.wp_lookupWithPromote {s : Store} (h : Faithful A latest s) {addr : BlockAddress}
    (haddr : addr ∈ A) :
    (Store.lookupWithPromote addr).wp AllOk
      (fun r s => (r = none ∨ r = latest addr) ∧ Faithful A latest s) s := by
  refine Store.wp_lookupWithPromote ?_ ?_ fun _ _ => ⟨Or.inl rfl, h⟩
  · intro b hb now
    exact ⟨Or.inr (h.ram addr b hb).2.symm, h.touch now addr⟩
  · intro hnone b hb now
    have hlatest := h.ssd addr haddr hnone b hb
    have hput := h.admitRam haddr now b ""
    rw [← hlatest, Function.update_eq_self] at hput
    exact ⟨Or.inr hlatest.symm, hput⟩

theorem Faithful.wp_forget {s : Store} (h : Faithful A latest s) (addr : BlockAddress) :
    (Store.forget addr).wp AllOk (fun _ s => Faithful A latest s) s := by
  refine Code.wp_bind (Code.wp_modify (Code.wp_bind ?_))
  refine Code.wp_bind (wp_fileOp rfl ?_)
  rw [if_pos rfl]
  refine Code.wp_pure (Code.wp_bind (Code.wp_modify (Code.wp_pure ?_)))
  exact (h.forget addr).congr (fun _ => rfl) fun _ _ => rfl

section

variable {ok : Env → Prop} {I : Store → Prop}

theorem wp_spillVictims
    (hspill : ∀ s addr model, I s → (Store.spillToSsd addr model).wp ok (fun _ s => I s) s)
    (victims : List BlockAddress) {s : Store} (h : I s) :
    (spillVictims victims).wp ok (fun _ s => I s) s := by
  induction victims generalizing s with
  | nil => exact Code.wp_pure h
  | cons addr victims ih =>
    refine Code.wp_bind (Code.wp_get (Code.wp_bind ?_))
    exact Code.wp_mono (hspill s addr _ h) fun _ _ h => ih h

theorem wp_spillRounds
    (hspill : ∀ s addr model, I s → (Store.spillToSsd addr model).wp ok (fun _ s => I s) s)
    (target rounds : Nat) {s : Store} (h : I s) :
    (spillRounds target rounds).wp ok (fun _ s => I s) s := by
  induction rounds generalizing s with
  | zero => exact Code.wp_pure h
  | succ rounds ih =>
    refine Code.wp_bind (Code.wp_answer fun e _ => Code.wp_bind (Code.wp_get ?_))
    split
    · dsimp only
      split
      · exact Code.wp_pure h
      · refine Code.wp_bind (Code.wp_mono (wp_spillVictims hspill _ h) fun _ s' h' => ?_)
        refine Code.wp_bind (Code.wp_get ?_)
        split
        · exact Code.wp_pure h'
        · exact ih h'
    · exact Code.wp_pure h

/-- What spills and the TTL sweep keep, the evict pass keeps. -/
theorem wp_evictPass (target ssdTtlSecs : Nat)
    (hspill : ∀ s addr model, I s → (Store.spillToSsd addr model).wp ok (fun _ s => I s) s)
    (hexpire : ∀ s, I s → (expireSsd ssdTtlSecs).wp ok (fun _ s => I s) s) {s : Store}
    (h : I s) : (Store.evictPass target ssdTtlSecs).wp ok (fun _ s => I s) s := by
  refine Code.wp_bind (Code.wp_get (Code.wp_bind ?_))
  split
  · exact Code.wp_mono (wp_spillRounds hspill _ _ h) fun _ s => hexpire s
  · exact Code.wp_pure (hexpire s h)

end

theorem Faithful.wp_sweep (ssdTtlSecs now : Nat) (scanned : List (BlockAddress × BlockMeta))
    {s : Store} (h : Faithful A latest s) :
    (sweep ssdTtlSecs now scanned).wp AllOk (fun _ s => Faithful A latest s) s := by
  induction scanned generalizing s with
  | nil => exact Code.wp_pure h
  | cons entry scanned ih =>
    unfold sweep
    split
    · exact Code.wp_bind (Code.wp_mono (h.wp_forget entry.1) fun _ _ h => ih h)
    · exact ih h

theorem Faithful.wp_expireSsd {s : Store} (h : Faithful A latest s) (ssdTtlSecs : Nat) :
    (expireSsd ssdTtlSecs).wp AllOk (fun _ s => Faithful A latest s) s := by
  unfold expireSsd
  split
  · exact Code.wp_pure h
  · exact Code.wp_bind (Code.wp_answer fun e _ => Code.wp_bind (Code.wp_get (h.wp_sweep _ _ _)))

theorem Faithful.completes {s s' : Store} (h : Faithful A latest s) (hinj : Set.InjOn pathFor A)
    (op : Op) (hover : op.Over A) (hrun : op.Completes s s') :
    Faithful A (op.latest latest) s' := by
  cases op with
  | putRam addr bytes model =>
    have hwp : (Store.putRam addr bytes model).wp AllOk
        (fun _ s => Faithful A (Function.update latest addr (some bytes)) s) s :=
      wp_putRam fun now => h.admitRam hover now bytes model
    exact (Code.Runs.of_wp hrun hwp :)
  | spillToSsd addr model =>
    obtain ⟨r, hrun⟩ := hrun
    exact (Code.Runs.of_wp hrun (h.wp_spillToSsd hinj addr model) :)
  | lookupWithPromote addr =>
    obtain ⟨r, hrun⟩ := hrun
    have hpost := Code.Runs.of_wp hrun (h.wp_lookupWithPromote hover)
    exact hpost.2
  | evictPass target ssdTtlSecs =>
    have hevict := wp_evictPass target ssdTtlSecs
      (fun s addr model h => h.wp_spillToSsd hinj addr model)
      (fun s h => h.wp_expireSsd ssdTtlSecs) h
    exact (Code.Runs.of_wp hrun hevict :)
  | forget addr =>
    obtain ⟨r, hrun⟩ := hrun
    exact (Code.Runs.of_wp hrun (h.wp_forget addr) :)

theorem Reaches.faithful {s : Store} (h : Reaches A s latest) (hinj : Set.InjOn pathFor A) :
    Faithful A latest s := by
  induction h with
  | new ramBytes =>
    exact ⟨fun _ _ hb => absurd hb (by simp [Store.new, RamTier.new, RamTier.bytesAt]),
      fun _ _ _ _ hb => absurd hb (by simp [Store.new])⟩
  | step _ op hover hrun ih => exact ih.completes hinj op hover hrun

/-! ## Two addresses with one file -/

/-- An answer to every segment: the operation succeeds at time 0. -/
def okEnv : Env where
  ok := true
  now := 0
  iter := id
  iter_perm := fun keys => List.Perm.refl keys

/-- After a put and a spill of `a`, RAM is empty and the file of `a` holds its bytes. -/
theorem reaches_spilled {a : BlockAddress} (ha : a ∈ A) (bytes : Bytes) :
    ∃ s, Reaches A s (Function.update (fun _ => none) a (some bytes)) ∧
      (∀ b, s.ram.bytesAt b = none) ∧ s.files.lookup (pathFor a) = some bytes := by
  obtain ⟨_, s₁, hput⟩ := Code.exists_runs (show AllOk okEnv from rfl) (Store.putRam a bytes "")
    (Store.new 0)
  have hwp₁ : (Store.putRam a bytes "").wp AllOk
      (fun _ s => ∀ b, s.ram.bytesAt b = if b = a then some bytes else none) (Store.new 0) :=
    wp_putRam fun now b => RamTier.bytesAt_put (RamTier.new 0) now a b bytes
  have hs₁ := Code.Runs.of_wp hput hwp₁
  obtain ⟨r, s₂, hspill⟩ := Code.exists_runs (show AllOk okEnv from rfl) (Store.spillToSsd a "") s₁
  have hwp₂ : (Store.spillToSsd a "").wp AllOk
      (fun _ s => (∀ b, s.ram.bytesAt b = none) ∧ s.files.lookup (pathFor a) = some bytes) s₁ := by
    refine Store.wp_spillToSsd ?_ ?_
    · intro hnone
      rw [hs₁, if_pos rfl] at hnone
      exact absurd hnone (by simp)
    · intro bytes' hb now now'
      rw [hs₁, if_pos rfl] at hb
      cases hb
      refine ⟨fun b => ?_, ?_⟩
      · refine (RamTier.bytesAt_evict _ a b).trans ?_
        split
        · rfl
        · next hne =>
          refine (RamTier.bytesAt_touch s₁.ram now a b).trans ?_
          rw [hs₁, if_neg hne]
      · refine (lookup_written _ a a bytes).trans ?_
        rw [if_pos rfl]
  have hs₂ := Code.Runs.of_wp hspill hwp₂
  exact ⟨s₂, ((Reaches.new 0).step (.putRam a bytes "") ha hput).step (.spillToSsd a "") ha
    ⟨r, hspill⟩, hs₂⟩

/-- The spilled block of `a` answers a lookup of `b`, which was never put. -/
theorem shared_file_answers {a b : BlockAddress} (ha : a ∈ A) (hne : a ≠ b)
    (hpath : pathFor a = pathFor b) (bytes : Bytes) :
    ∃ s latest, Reaches A s latest ∧ latest b = none ∧
      ∃ s', (Store.lookupWithPromote b).Runs AllOk s (some bytes) s' := by
  obtain ⟨s, hreach, hram, hfile⟩ := reaches_spilled ha bytes
  obtain ⟨r, s', hrun⟩ := Code.exists_runs (show AllOk okEnv from rfl) (Store.lookupWithPromote b) s
  have hwp : (Store.lookupWithPromote b).wp AllOk (fun r _ => r = some bytes) s := by
    refine Store.wp_lookupWithPromote ?_ ?_ ?_
    · intro c hc
      rw [hram] at hc
      exact absurd hc (by simp)
    · intro _ c hc _
      rw [← hc, ← hpath, hfile]
    · intro _ hnone
      rw [← hpath, hfile] at hnone
      exact absurd hnone (by simp)
  have hr := Code.Runs.of_wp hrun hwp
  rw [hr] at hrun
  exact ⟨s, _, hreach, Function.update_of_ne hne.symm _ _, s', hrun⟩

/-- Blocks that differ in the first eight bytes of their digest or in their layer have files of
    their own. -/
theorem injOn_pathFor {A : Set BlockAddress} (hfiles : ∀ a ∈ A, ∀ b ∈ A,
    a.digest.toList.take 8 = b.digest.toList.take 8 → a.layer = b.layer → a = b) :
    Set.InjOn pathFor A := by
  intro a ha b hb hpath
  obtain ⟨hdigest, hlayer⟩ := (pathFor_eq_iff a b).mp hpath
  exact hfiles a ha b hb hdigest hlayer

/-- In every run over the addresses of `A`, `lookup_with_promote` returns nothing or the bytes
    of the latest put of its address, exactly if no two addresses of `A` agree on the first 8
    bytes of the digest and on the layer. -/
theorem lookup_own_bytes_iff (A : Set BlockAddress) :
    (∀ s latest, Reaches A s latest → ∀ a ∈ A, ∀ r s',
      (Store.lookupWithPromote a).Runs AllOk s r s' → r = none ∨ r = latest a) ↔
    ∀ a ∈ A, ∀ b ∈ A, a.digest.toList.take 8 = b.digest.toList.take 8 → a.layer = b.layer →
      a = b := by
  constructor
  · intro hown a ha b hb hdigest hlayer
    by_contra hne
    obtain ⟨s, latest, hreach, hlatest, s', hrun⟩ :=
      shared_file_answers ha hne ((pathFor_eq_iff a b).mpr ⟨hdigest, hlayer⟩) [0]
    rcases hown s latest hreach b hb _ s' hrun with h | h
    · exact absurd h (by simp)
    · rw [hlatest] at h
      exact absurd h (by simp)
  · intro hfiles s latest hreach a ha r s' hrun
    have hpost := Code.Runs.of_wp hrun
      ((hreach.faithful (injOn_pathFor hfiles)).wp_lookupWithPromote ha)
    exact hpost.1

/-- Two digests that differ in their last byte share a file. -/
theorem other_block_answers :
    ¬ ∀ s latest, Reaches Set.univ s latest → ∀ a r s',
      (Store.lookupWithPromote a).Runs AllOk s r s' → r = none ∨ r = latest a := by
  intro hown
  obtain ⟨s, latest, hreach, hlatest, s', hrun⟩ := shared_file_answers
    (a := ⟨Vector.replicate 32 0, 0⟩) (b := ⟨(Vector.replicate 32 0).set 31 1, 0⟩)
    (Set.mem_univ _) (by decide) (by decide +kernel) [0]
  rcases hown s latest hreach _ _ s' hrun with h | h
  · exact absurd h (by simp)
  · rw [hlatest] at h
    exact absurd h (by simp)

end Cognitora.KvCached.Store
