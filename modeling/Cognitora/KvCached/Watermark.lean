/-
  The spill loop and its watermark (cgn-kvcached `src/tiers.rs`, cgn-kv `src/tier.rs`).

  `evict_pass` spills batches of the 32 coldest blocks while RAM is over the target, and stops at
  a batch that does not lower the bytes in use. `Stalls`: in some order of the blocks from the
  coldest on, a batch has only empty blocks while those from there on are over the target.
  `evict_pass_meets_target_iff`: a pass that runs alone, with every file operation succeeding,
  loses nothing; and it always ends within the target exactly if it starts there, or the tier
  has a capacity and does not stall.

  `Reached`: the stores after any interleaving of operations, lookups and streams of peers,
  whatever the file operations answer, from a store that was opened on any directory and index.
-/
import Cognitora.Lib.Interleave
import Cognitora.KvCached.Transfer
import Mathlib.Data.List.Sort

namespace Cognitora.KvCached

open Cognitora.Lib Cognitora.Core

namespace RamTier

def sizeAt (r : RamTier) (addr : BlockAddress) : Nat :=
  ((r.bytesAt addr).getD []).length

def lastAt (r : RamTier) (addr : BlockAddress) : Nat :=
  ((r.inner.lookup addr).map RamSlot.last).getD 0

/-- The list has the addresses in RAM, each once. -/
structure Lists (r : RamTier) (l : List BlockAddress) : Prop where
  nodup : l.Nodup
  mem : ∀ a, a ∈ l ↔ (r.bytesAt a).isSome = true

def total (r : RamTier) (l : List BlockAddress) : Nat :=
  (l.map r.sizeAt).sum

/-- The count of used bytes is what the blocks add up to. -/
def Accounted (r : RamTier) : Prop :=
  ∀ l, r.Lists l → r.used = r.total l

theorem lists_keys (r : RamTier) : r.Lists r.inner.keys where
  nodup := r.inner.keys_nodup
  mem a := by
    unfold bytesAt
    rw [Option.isSome_map, AList.lookup_isSome, AList.mem_keys]

/-! ## Accounting -/

section

variable {r : RamTier} {l : List BlockAddress} {addr : BlockAddress}

theorem total_congr {r' : RamTier} (h : ∀ a ∈ l, r'.bytesAt a = r.bytesAt a) :
    r'.total l = r.total l := by
  unfold total
  refine congrArg List.sum (List.map_congr_left fun a ha => ?_)
  unfold sizeAt
  rw [h a ha]

theorem total_cons (a : BlockAddress) (l : List BlockAddress) :
    r.total (a :: l) = r.sizeAt a + r.total l := by
  unfold total
  rw [List.map_cons, List.sum_cons]

theorem total_append (l l' : List BlockAddress) : r.total (l ++ l') = r.total l + r.total l' := by
  unfold total
  rw [List.map_append, List.sum_append]

theorem total_perm {l' : List BlockAddress} (h : l.Perm l') : r.total l = r.total l' :=
  (h.map _).sum_nat

theorem Accounted.new (capacityBytes : Nat) : (RamTier.new capacityBytes).Accounted := by
  intro l hl
  have hnil : l = [] := List.eq_nil_iff_forall_not_mem.mpr fun a ha => by
    have hsome := (hl.mem a).mp ha
    simp [RamTier.new, bytesAt] at hsome
  rw [hnil]
  rfl

theorem used_touch (r : RamTier) (now : Nat) (addr : BlockAddress) :
    (r.touch now addr).used = r.used := by
  unfold touch
  split <;> rfl

theorem Accounted.touch (h : r.Accounted) (now : Nat) (addr : BlockAddress) :
    (r.touch now addr).Accounted := by
  intro l hl
  have hlists : r.Lists l := ⟨hl.nodup, fun a => by rw [hl.mem, bytesAt_touch]⟩
  rw [used_touch, h l hlists, total_congr fun a _ => bytesAt_touch r now addr a]

theorem Accounted.put (h : r.Accounted) (now : Nat) (addr : BlockAddress) (bytes : Bytes) :
    (r.put now addr bytes).Accounted := by
  intro l hl
  have haddr : addr ∈ l := by
    rw [hl.mem, bytesAt_put, if_pos rfl]
    rfl
  have hrest : ∀ a ∈ l.erase addr, (r.put now addr bytes).bytesAt a = r.bytesAt a := by
    intro a ha
    rw [bytesAt_put, if_neg (hl.nodup.mem_erase_iff.mp ha).1]
  have hnew : (r.put now addr bytes).total l = bytes.length + r.total (l.erase addr) := by
    rw [total_perm (List.perm_cons_erase haddr), total_cons, total_congr hrest]
    unfold sizeAt
    rw [bytesAt_put, if_pos rfl]
    rfl
  have hused : (r.put now addr bytes).used = r.used + bytes.length - r.sizeAt addr := rfl
  have hmem : ∀ a, a ≠ addr → (a ∈ l ↔ (r.bytesAt a).isSome = true) := by
    intro a ha
    rw [hl.mem, bytesAt_put, if_neg ha]
  rw [hused, hnew]
  cases hb : r.bytesAt addr with
  | none =>
    have hlists : r.Lists (l.erase addr) := by
      refine ⟨hl.nodup.erase _, fun a => ?_⟩
      rw [hl.nodup.mem_erase_iff]
      by_cases ha : a = addr
      · rw [ha, hb]
        simp
      · rw [hmem a ha, and_iff_right ha]
    have hzero : r.sizeAt addr = 0 := by
      unfold sizeAt
      rw [hb]
      rfl
    rw [h _ hlists, hzero]
    omega
  | some old =>
    have hlists : r.Lists l := by
      refine ⟨hl.nodup, fun a => ?_⟩
      by_cases ha : a = addr
      · rw [ha, hb]
        exact iff_of_true haddr rfl
      · exact hmem a ha
    rw [h _ hlists, total_perm (List.perm_cons_erase haddr), total_cons]
    omega

theorem evict_of_none (h : r.bytesAt addr = none) : r.evict addr = r := by
  unfold evict
  rw [Option.map_eq_none_iff.mp h]

theorem used_evict (r : RamTier) (addr : BlockAddress) :
    (r.evict addr).used = r.used - r.sizeAt addr := by
  unfold evict sizeAt bytesAt
  cases r.inner.lookup addr with
  | none => rfl
  | some slot => rfl

theorem Accounted.evict (h : r.Accounted) (addr : BlockAddress) : (r.evict addr).Accounted := by
  cases hb : r.bytesAt addr with
  | none =>
    rw [evict_of_none hb]
    exact h
  | some b =>
    intro l hl
    have hmem : ∀ a, a ∈ l ↔ a ≠ addr ∧ (r.bytesAt a).isSome = true := by
      intro a
      rw [hl.mem, bytesAt_evict]
      split <;> simp [*]
    have hnot : addr ∉ l := fun ha => ((hmem addr).mp ha).1 rfl
    have hlists : r.Lists (addr :: l) := by
      refine ⟨List.nodup_cons.mpr ⟨hnot, hl.nodup⟩, fun a => ?_⟩
      rw [List.mem_cons, hmem]
      by_cases ha : a = addr
      · rw [ha, hb]
        simp
      · simp [ha]
    have hsame : (r.evict addr).total l = r.total l := total_congr fun a ha => by
      rw [bytesAt_evict, if_neg ((hmem a).mp ha).1]
    rw [used_evict, h _ hlists, total_cons, hsame]
    omega

end

/-- The accounts are right and the blocks are of `A`. -/
structure Sound (A : Set BlockAddress) (r : RamTier) : Prop where
  accounted : r.Accounted
  within : ∀ a, (r.bytesAt a).isSome = true → a ∈ A

section

variable {A : Set BlockAddress} {r : RamTier} {addr : BlockAddress}

theorem Sound.new (capacityBytes : Nat) : (RamTier.new capacityBytes).Sound A where
  accounted := Accounted.new capacityBytes
  within a ha := by simp [RamTier.new, bytesAt] at ha

theorem Sound.touch (h : r.Sound A) (now : Nat) (addr : BlockAddress) :
    (r.touch now addr).Sound A where
  accounted := h.accounted.touch now addr
  within a ha := h.within a (by rwa [bytesAt_touch] at ha)

theorem Sound.put (h : r.Sound A) (haddr : addr ∈ A) (now : Nat) (bytes : Bytes) :
    (r.put now addr bytes).Sound A where
  accounted := h.accounted.put now addr bytes
  within a ha := by
    rw [bytesAt_put] at ha
    split at ha
    · next heq => exact heq ▸ haddr
    · exact h.within a ha

theorem Sound.evict (h : r.Sound A) (addr : BlockAddress) : (r.evict addr).Sound A where
  accounted := h.accounted.evict addr
  within a ha := by
    rw [bytesAt_evict] at ha
    split at ha
    · cases ha
    · exact h.within a ha

end

end RamTier

/-! ## Batches -/

namespace RamTier

/-- The blocks in RAM, the coldest first. -/
structure ColdFirst (r : RamTier) (order : List BlockAddress) : Prop extends r.Lists order where
  sorted : order.Pairwise fun a b => r.lastAt a ≤ r.lastAt b

/-- In some such order a batch of 32 has only empty blocks, and the blocks from there on are
    over the target. -/
def Stalls (target : Nat) (r : RamTier) : Prop :=
  ∃ order, r.ColdFirst order ∧ ∃ k,
    (∀ a ∈ (order.drop (32 * k)).take 32, r.sizeAt a = 0) ∧
      target < r.total (order.drop (32 * k))

section

variable {r : RamTier} {order : List BlockAddress}

/-- Whatever the order of iteration, `coldest` is the start of such an order. -/
theorem exists_coldFirst {iter : List BlockAddress → List BlockAddress}
    (hperm : (iter r.inner.keys).Perm r.inner.keys) :
    ∃ order, r.ColdFirst order ∧ ∀ n, r.coldest iter n = order.take n := by
  obtain ⟨entries, hentries⟩ : ∃ entries, (iter r.inner.keys).map (fun a => (a, r.lastAt a)) =
      entries := ⟨_, rfl⟩
  have hsort := List.mergeSort_perm entries fun x y => decide (x.2 ≤ y.2)
  have hfst : entries.map Prod.fst = iter r.inner.keys := by
    rw [← hentries, List.map_map]
    exact List.map_id _
  have hkeys : ((entries.mergeSort fun x y => decide (x.2 ≤ y.2)).map Prod.fst).Perm
      r.inner.keys := (hsort.map _).trans (hfst ▸ hperm)
  have hsnd : ∀ x ∈ entries.mergeSort fun x y => decide (x.2 ≤ y.2), x.2 = r.lastAt x.1 := by
    intro x hx
    have hmem := hsort.mem_iff.mp hx
    rw [← hentries] at hmem
    obtain ⟨a, -, rfl⟩ := List.mem_map.mp hmem
    rfl
  have hle : (entries.mergeSort fun x y => decide (x.2 ≤ y.2)).Pairwise fun x y =>
      decide (x.2 ≤ y.2) = true := by
    refine List.pairwise_mergeSort ?_ ?_ entries
    · intro x y z hxy hyz
      simp only [decide_eq_true_eq] at hxy hyz ⊢
      omega
    · intro x y
      simp only [Bool.or_eq_true, decide_eq_true_eq]
      omega
  refine ⟨_, ⟨⟨hkeys.nodup_iff.mpr r.lists_keys.nodup, fun a => ?_⟩, ?_⟩, fun n => ?_⟩
  · rw [hkeys.mem_iff]
    exact r.lists_keys.mem a
  · refine List.pairwise_map.mpr (hle.imp_of_mem fun {x y} hx hy hxy => ?_)
    rw [← hsnd x hx, ← hsnd y hy]
    exact of_decide_eq_true hxy
  · rw [← List.map_take, ← hentries]
    rfl

/-- Iterated in such an order, `coldest` takes its start. -/
theorem ColdFirst.coldest (h : r.ColdFirst order)
    {iter : List BlockAddress → List BlockAddress} (hiter : iter r.inner.keys = order) (n : Nat) :
    r.coldest iter n = order.take n := by
  unfold RamTier.coldest
  rw [hiter]
  dsimp only
  rw [List.mergeSort_of_pairwise, ← List.map_take, List.map_map]
  · exact List.map_id _
  · exact List.pairwise_map.mpr (h.sorted.imp fun hab => decide_eq_true hab)

/-- The tier without the given blocks. -/
structure Without (victims : List BlockAddress) (r r' : RamTier) : Prop where
  capacity : r'.capacity = r.capacity
  lookup : ∀ a, r'.inner.lookup a = if a ∈ victims then none else r.inner.lookup a

theorem Without.bytesAt {victims : List BlockAddress} {r' : RamTier} (h : Without victims r r')
    (a : BlockAddress) : r'.bytesAt a = if a ∈ victims then none else r.bytesAt a := by
  unfold RamTier.bytesAt
  rw [h.lookup]
  split <;> rfl

theorem Without.sizeAt {victims : List BlockAddress} {r' : RamTier} (h : Without victims r r')
    {a : BlockAddress} (ha : a ∉ victims) : r'.sizeAt a = r.sizeAt a := by
  unfold RamTier.sizeAt
  rw [h.bytesAt, if_neg ha]

theorem Without.lastAt {victims : List BlockAddress} {r' : RamTier} (h : Without victims r r')
    {a : BlockAddress} (ha : a ∉ victims) : r'.lastAt a = r.lastAt a := by
  unfold RamTier.lastAt
  rw [h.lookup, if_neg ha]

section

variable {r' : RamTier} (h : r.ColdFirst order) (hdrop : Without (order.take 32) r r')

include h

theorem ColdFirst.mem_drop_iff (a : BlockAddress) :
    a ∈ order.drop 32 ↔ a ∉ order.take 32 ∧ a ∈ order := by
  have hnodup := h.nodup
  rw [← List.take_append_drop 32 order, List.nodup_append] at hnodup
  constructor
  · intro ha
    exact ⟨fun ht => hnodup.2.2 a ht a ha rfl, List.mem_of_mem_drop ha⟩
  · rintro ⟨hnot, ha⟩
    rw [← List.take_append_drop 32 order, List.mem_append] at ha
    exact ha.resolve_left hnot

include hdrop

theorem ColdFirst.drop : r'.ColdFirst (order.drop 32) := by
  refine ⟨⟨h.nodup.sublist (List.drop_sublist 32 order), fun a => ?_⟩, ?_⟩
  · rw [h.mem_drop_iff, h.mem, hdrop.bytesAt]
    split <;> simp [*]
  · refine (h.sorted.sublist (List.drop_sublist 32 order)).imp_of_mem fun {a b} ha hb hab => ?_
    rw [hdrop.lastAt ((h.mem_drop_iff a).mp ha).1, hdrop.lastAt ((h.mem_drop_iff b).mp hb).1]
    exact hab

theorem ColdFirst.total_drop (n : Nat) :
    r'.total ((order.drop 32).drop n) = r.total ((order.drop 32).drop n) :=
  total_congr fun a ha => by
    rw [hdrop.bytesAt, if_neg ((h.mem_drop_iff a).mp (List.mem_of_mem_drop ha)).1]

/-- A batch goes before every order of the rest. -/
theorem ColdFirst.append {order' : List BlockAddress} (h' : r'.ColdFirst order') :
    r.ColdFirst (order.take 32 ++ order') := by
  have hmem : ∀ a, a ∈ order' ↔ a ∈ order.drop 32 := fun a => by
    rw [h'.mem, (h.drop hdrop).mem]
  have hnodup := h.nodup
  have hsorted := h.sorted
  rw [← List.take_append_drop 32 order, List.nodup_append] at hnodup
  rw [← List.take_append_drop 32 order, List.pairwise_append] at hsorted
  refine ⟨⟨List.nodup_append.mpr ⟨hnodup.1, h'.nodup, ?_⟩, fun a => ?_⟩,
    List.pairwise_append.mpr ⟨hsorted.1, ?_, ?_⟩⟩
  · exact fun a ha b hb => hnodup.2.2 a ha b ((hmem b).mp hb)
  · rw [List.mem_append, hmem, ← List.mem_append, List.take_append_drop]
    exact h.mem a
  · refine h'.sorted.imp_of_mem fun {a b} ha hb hab => ?_
    rw [hdrop.lastAt ((h.mem_drop_iff a).mp ((hmem a).mp ha)).1,
      hdrop.lastAt ((h.mem_drop_iff b).mp ((hmem b).mp hb)).1] at hab
    exact hab
  · exact fun a ha b hb => hsorted.2.2 a ha b ((hmem b).mp hb)

theorem ColdFirst.of_without {target : Nat} (hstalls : r'.Stalls target) : r.Stalls target := by
  obtain ⟨order', h', k, hempty, htotal⟩ := hstalls
  have hperm : order'.Perm (order.drop 32) :=
    (List.perm_ext_iff_of_nodup h'.nodup (h.drop hdrop).nodup).mpr fun a => by
      rw [h'.mem, (h.drop hdrop).mem]
  have hne : order' ≠ [] := by
    rintro rfl
    rw [List.drop_nil] at htotal
    exact Nat.not_lt_zero _ htotal
  have hlen : (order.take 32).length = 32 := by
    have hpos := List.length_pos_iff.mpr hne
    rw [hperm.length_eq, List.length_drop] at hpos
    rw [List.length_take]
    omega
  have hshift : (order.take 32 ++ order').drop (32 * (k + 1)) = order'.drop (32 * k) := by
    have harith : 32 * (k + 1) - 32 = 32 * k := by omega
    rw [List.drop_append, hlen, harith, List.drop_of_length_le (by omega), List.nil_append]
  have hnot : ∀ a ∈ order'.drop (32 * k), a ∉ order.take 32 := fun a ha =>
    ((h.mem_drop_iff a).mp (hperm.mem_iff.mp (List.mem_of_mem_drop ha))).1
  refine ⟨_, h.append hdrop h', k + 1, ?_, ?_⟩
  · intro a ha
    rw [hshift] at ha
    rw [← hdrop.sizeAt (hnot a (List.mem_of_mem_take ha))]
    exact hempty a ha
  · rw [hshift, ← total_congr fun a ha => by rw [hdrop.bytesAt, if_neg (hnot a ha)]]
    exact htotal

end

theorem total_eq_zero_iff (l : List BlockAddress) :
    r.total l = 0 ↔ ∀ a ∈ l, r.sizeAt a = 0 := by
  induction l with
  | nil => exact iff_of_true rfl (by simp)
  | cons a l ih => rw [total_cons, Nat.add_eq_zero_iff, ih, List.forall_mem_cons]

theorem not_stalls_of_nonempty (hne : ∀ a b, r.bytesAt a = some b → b ≠ []) (target : Nat) :
    ¬ r.Stalls target := by
  rintro ⟨order, h, k, hempty, htotal⟩
  cases hrest : order.drop (32 * k) with
  | nil =>
    rw [hrest] at htotal
    exact Nat.not_lt_zero _ htotal
  | cons a rest =>
    have hmem : a ∈ order := List.mem_of_mem_drop (hrest ▸ List.mem_cons_self)
    have hzero := hempty a (by rw [hrest]; exact List.mem_cons_self)
    obtain ⟨b, hb⟩ := Option.isSome_iff_exists.mp ((h.mem a).mp hmem)
    unfold sizeAt at hzero
    rw [hb] at hzero
    exact hne a b hb (List.length_eq_zero_iff.mp hzero)

end

end RamTier

/-! ## Reachable stores -/

namespace Store

open SsdTier

/-- What a daemon may be doing: an operation, a lookup for an RPC, a stream of a peer. -/
inductive Call where
  | operation (op : Op)
  | lookup (addr : BlockAddress)
  | stream (frame : Frame) (body : Bytes)

def Call.code : Call → Code Env Store Unit
  | .operation op => op.code
  | .lookup addr => do
    let e ← Code.answer
    Code.modify fun s => (s.lookup e.now addr).2
  | .stream frame body => do
    let e ← Code.answer
    Code.modify fun s => (handleStream s e.now frame body).2

def Call.Over (A : Set BlockAddress) : Call → Prop
  | .operation op => op.Over A
  | .lookup addr => addr ∈ A
  | .stream frame _ => frame.addr ∈ A

/-- `Store::open` on any directory and index. -/
def opened (ramBytes : Nat) (files : AList fun _ : String => Bytes)
    (index : AList fun _ : BlockAddress => BlockMeta) : Store where
  ram := RamTier.new ramBytes
  files := files
  index := index

/-- The store after some turns of calls over `A`. -/
def Reached (A : Set BlockAddress) (s : Store) : Prop :=
  ∃ ramBytes files index,
    ∃ turns : List (TaskPool.Turn Env { c : Call // c.Over A }),
      s = ((⟨opened ramBytes files index, []⟩ : TaskPool Env Store).run
        (fun c => c.1.code) turns).state

section

variable {A : Set BlockAddress}

theorem keeps_fileOp {possible : Store → Bool} {effect : Store → Store}
    (heffect : ∀ s, (effect s).ram = s.ram) :
    (fileOp possible effect).Keeps fun s => s.ram.Sound A := by
  refine Code.Keeps.perform fun e s hs => ?_
  split
  · rw [heffect]
    exact hs
  · exact hs

theorem ram_rename (s : Store) (source target : String) :
    (SsdTier.rename s source target).ram = s.ram := by
  unfold SsdTier.rename
  split <;> rfl

theorem keeps_write (addr : BlockAddress) (bytes : Bytes) :
    (SsdTier.write addr bytes).Keeps fun s => s.ram.Sound A := by
  refine Code.Keeps.bind (keeps_fileOp fun _ => rfl) fun made => ?_
  split
  · unfold writeTmp
    refine Code.Keeps.bind (keeps_fileOp fun _ => rfl) fun written => ?_
    split
    · unfold renameTmp
      refine Code.Keeps.bind (keeps_fileOp fun s => ram_rename s _ _) fun renamed => ?_
      split <;> exact Code.Keeps.pure _
    · exact Code.Keeps.pure _
  · exact Code.Keeps.pure _

theorem keeps_touch (addr : BlockAddress) (now : Nat) :
    (Code.modify fun s => { s with ram := s.ram.touch now addr } : Code Env Store Unit).Keeps
      fun s => s.ram.Sound A :=
  Code.Keeps.modify fun _ hs => hs.touch now addr

theorem keeps_admitRam {addr : BlockAddress} (haddr : addr ∈ A) (now : Nat) (bytes : Bytes)
    (model : String) :
    (Code.modify fun s => s.admitRam now addr bytes model : Code Env Store Unit).Keeps
      fun s => s.ram.Sound A :=
  Code.Keeps.modify fun _ hs => hs.put haddr now bytes

theorem keeps_spillToSsd (addr : BlockAddress) (model : String) :
    (Store.spillToSsd addr model).Keeps fun s => s.ram.Sound A := by
  refine Code.Keeps.answer.bind fun e => Code.Keeps.get.bind fun s => ?_
  split
  · exact Code.Keeps.pure _
  · refine (keeps_touch addr e.now).bind fun _ => (keeps_write addr _).bind fun written => ?_
    unfold afterWrite
    split
    · exact Code.Keeps.pure _
    · refine Code.Keeps.answer.bind fun e => Code.Keeps.bind ?_ fun _ => Code.Keeps.pure _
      exact Code.Keeps.modify fun _ hs => hs.evict addr

theorem keeps_lookupWithPromote {addr : BlockAddress} (haddr : addr ∈ A) :
    (Store.lookupWithPromote addr).Keeps fun s => s.ram.Sound A := by
  refine Code.Keeps.answer.bind fun e => Code.Keeps.get.bind fun s => ?_
  split
  · exact (keeps_touch addr e.now).bind fun _ => Code.Keeps.pure _
  · refine (Code.Keeps.perform fun _ _ hs => hs).bind fun found => ?_
    split
    · refine Code.Keeps.answer.bind fun e => (keeps_admitRam haddr e.now _ "").bind fun _ => ?_
      exact Code.Keeps.pure _
    · exact Code.Keeps.pure _

theorem keeps_forget (addr : BlockAddress) :
    (Store.forget addr).Keeps fun s => s.ram.Sound A := by
  refine Code.Keeps.bind (Code.Keeps.modify fun _ hs => hs.evict addr) fun _ => ?_
  refine Code.Keeps.bind ?_ fun removed => ?_
  · unfold SsdTier.evict
    refine Code.Keeps.bind (keeps_fileOp fun _ => rfl) fun removed => ?_
    split <;> exact Code.Keeps.pure _
  · split
    · exact Code.Keeps.pure _
    · exact Code.Keeps.bind (Code.Keeps.modify fun _ hs => hs) fun _ => Code.Keeps.pure _

theorem keeps_spillVictims (victims : List BlockAddress) :
    (spillVictims victims).Keeps fun s => s.ram.Sound A := by
  induction victims with
  | nil => exact Code.Keeps.pure _
  | cons addr victims ih =>
    exact Code.Keeps.get.bind fun s => (keeps_spillToSsd addr _).bind fun _ => ih

theorem keeps_spillRounds (target rounds : Nat) :
    (spillRounds target rounds).Keeps fun s => s.ram.Sound A := by
  induction rounds with
  | zero => exact Code.Keeps.pure _
  | succ rounds ih =>
    refine Code.Keeps.answer.bind fun e => Code.Keeps.get.bind fun s => ?_
    split
    · dsimp only
      split
      · exact Code.Keeps.pure _
      · refine (keeps_spillVictims _).bind fun _ => Code.Keeps.get.bind fun s' => ?_
        split
        · exact Code.Keeps.pure _
        · exact ih
    · exact Code.Keeps.pure _

theorem keeps_sweep (ssdTtlSecs now : Nat) (scanned : List (BlockAddress × BlockMeta)) :
    (sweep ssdTtlSecs now scanned).Keeps fun s => s.ram.Sound A := by
  induction scanned with
  | nil => exact Code.Keeps.pure _
  | cons entry scanned ih =>
    unfold sweep
    split
    · exact (keeps_forget entry.1).bind fun _ => ih
    · exact ih

theorem keeps_evictPass (target ssdTtlSecs : Nat) :
    (Store.evictPass target ssdTtlSecs).Keeps fun s => s.ram.Sound A := by
  refine Code.Keeps.get.bind fun s => Code.Keeps.bind ?_ fun _ => ?_
  · split
    · exact keeps_spillRounds target _
    · exact Code.Keeps.pure _
  · unfold expireSsd
    split
    · exact Code.Keeps.pure _
    · exact Code.Keeps.answer.bind fun e => Code.Keeps.get.bind fun s => keeps_sweep _ _ _

theorem sound_lookup {s : Store} (hs : s.ram.Sound A) (now : Nat) (addr : BlockAddress) :
    (s.lookup now addr).2.ram.Sound A := by
  unfold Store.lookup
  split
  · exact hs.touch now addr
  · exact hs

theorem sound_handleStream {s : Store} (hs : s.ram.Sound A) (now : Nat) {frame : Frame}
    (hframe : frame.addr ∈ A) (body : Bytes) :
    (handleStream s now frame body).2.ram.Sound A := by
  unfold handleStream
  split
  · exact hs.touch now frame.addr
  · split
    · exact hs
    · split
      · exact hs
      · exact hs.put hframe now _
  · exact hs

theorem keeps_call {c : Call} (hover : c.Over A) : c.code.Keeps fun s => s.ram.Sound A := by
  cases c with
  | operation op =>
    show op.code.Keeps _
    cases op with
    | putRam addr bytes model =>
      have haddr : addr ∈ A := hover
      exact Code.Keeps.bind Code.Keeps.answer fun e => keeps_admitRam haddr e.now bytes model
    | spillToSsd addr model =>
      exact Code.Keeps.bind (keeps_spillToSsd addr model) fun _ => Code.Keeps.pure ()
    | lookupWithPromote addr =>
      have haddr : addr ∈ A := hover
      exact Code.Keeps.bind (keeps_lookupWithPromote haddr) fun _ => Code.Keeps.pure ()
    | evictPass target ssdTtlSecs => exact (keeps_evictPass target ssdTtlSecs :)
    | forget addr => exact Code.Keeps.bind (keeps_forget addr) fun _ => Code.Keeps.pure ()
  | lookup addr =>
    exact Code.Keeps.answer.bind fun e => Code.Keeps.modify fun s hs => sound_lookup hs e.now addr
  | stream frame body =>
    exact Code.Keeps.answer.bind fun e =>
      Code.Keeps.modify fun s hs => sound_handleStream hs e.now hover body

theorem Reached.sound {s : Store} (h : Reached A s) : s.ram.Sound A := by
  obtain ⟨ramBytes, files, index, turns, rfl⟩ := h
  exact TaskPool.run_keeps (I := fun s : Store => s.ram.Sound A) (fun c => keeps_call c.2)
    (RamTier.Sound.new ramBytes) turns

end

/-! ## A pass that runs alone -/

/-- `lookup_with_promote` finds `b`: in RAM, or on file. -/
def Holds (s : Store) (addr : BlockAddress) (b : Bytes) : Prop :=
  s.ram.bytesAt addr = some b ∨
    s.ram.bytesAt addr = none ∧ s.files.lookup (pathFor addr) = some b

theorem returns_iff (s : Store) (addr : BlockAddress) (b : Bytes) :
    Returns s addr b ↔ s.Holds addr b := by
  have hwp : (Store.lookupWithPromote addr).wp AllOk
      (fun r _ => ∀ b, r = some b ↔ s.Holds addr b) s := by
    unfold Holds
    refine Store.wp_lookupWithPromote ?_ ?_ ?_
    · intro b hb _ c
      rw [hb]
      simp
    · intro hnone b hb _ c
      rw [hnone, hb]
      simp
    · intro hnone hb c
      rw [hnone, hb]
      simp
  obtain ⟨r, s', hrun⟩ :=
    Code.exists_runs (show AllOk okEnv from rfl) (Store.lookupWithPromote addr) s
  have hresult := Code.Runs.of_wp hrun hwp b
  constructor
  · intro h
    exact hresult.mp (h.2 r s' hrun)
  · intro h
    refine ⟨⟨s', (hresult.mpr h) ▸ hrun⟩, fun r' s'' hrun' => ?_⟩
    exact (Code.Runs.of_wp hrun' hwp b).mpr h

/-- The victims have left RAM and nothing of `A` is lost. -/
structure Spilled (A : Set BlockAddress) (victims : List BlockAddress) (s s' : Store) : Prop where
  ram : s.ram.Without victims s'.ram
  kept : ∀ a ∈ A, ∀ b, s.Holds a b → s'.Holds a b

section

variable {A : Set BlockAddress}

theorem Spilled.nil (s : Store) : Spilled A [] s s :=
  ⟨⟨rfl, fun _ => (if_neg List.not_mem_nil).symm⟩, fun _ _ _ h => h⟩

theorem Spilled.trans {addr : BlockAddress} {victims : List BlockAddress} {s s' s'' : Store}
    (h : Spilled A [addr] s s') (h' : Spilled A victims s' s'') :
    Spilled A (addr :: victims) s s'' := by
  refine ⟨⟨h'.ram.capacity.trans h.ram.capacity, fun a => ?_⟩, fun a ha b hb => ?_⟩
  · rw [h'.ram.lookup, h.ram.lookup]
    simp only [List.mem_cons, List.not_mem_nil, or_false]
    split
    · next hv => rw [if_pos (Or.inr hv)]
    · next hv => simp only [hv, or_false]
  · exact h'.kept a ha b (h.kept a ha b hb)

theorem lookup_touch_of_ne (r : RamTier) (now : Nat) {addr a : BlockAddress} (h : a ≠ addr) :
    (r.touch now addr).inner.lookup a = r.inner.lookup a := by
  unfold RamTier.touch
  split
  · rfl
  · exact AList.lookup_insert_ne h

theorem lookup_evict (r : RamTier) (addr a : BlockAddress) :
    (r.evict addr).inner.lookup a = if a = addr then none else r.inner.lookup a := by
  unfold RamTier.evict
  split
  · next hnone =>
    split
    · next h => rw [h, hnone]
    · rfl
  · split
    · next h => rw [h, AList.lookup_erase]
    · next h => exact AList.lookup_erase_ne h

/-- One spill whose file operations succeed. -/
theorem wp_spillToSsd_spilled (hinj : Set.InjOn pathFor A) {s : Store} (hs : s.ram.Sound A)
    (addr : BlockAddress) (model : String) :
    (Store.spillToSsd addr model).wp AllOk
      (fun _ s' => s'.ram.Sound A ∧ Spilled A [addr] s s') s := by
  refine Store.wp_spillToSsd (fun hnone => ⟨hs, ⟨rfl, fun a => ?_⟩, fun _ _ _ h => h⟩) ?_
  · split
    · next ha =>
      rw [List.mem_singleton.mp ha]
      exact Option.map_eq_none_iff.mp hnone
    · rfl
  · intro bytes hb now now'
    have haddr : addr ∈ A := hs.within addr (by rw [hb]; rfl)
    have hram : ∀ a, ((s.ram.touch now addr).evict addr).bytesAt a =
        if a = addr then none else s.ram.bytesAt a := fun a => by
      rw [RamTier.bytesAt_evict, RamTier.bytesAt_touch]
    refine ⟨(hs.touch now addr).evict addr, ⟨?_, fun a => ?_⟩, fun a ha b hold => ?_⟩
    · show ((s.ram.touch now addr).evict addr).capacity = s.ram.capacity
      unfold RamTier.evict RamTier.touch
      split <;> split <;> rfl
    · show ((s.ram.touch now addr).evict addr).inner.lookup a = _
      rw [lookup_evict]
      by_cases ha : a = addr
      · rw [if_pos ha, if_pos (List.mem_singleton.mpr ha)]
      · rw [if_neg ha, if_neg (fun h => ha (List.mem_singleton.mp h)), lookup_touch_of_ne _ _ ha]
    · have hfile : ∀ b', s.files.lookup (pathFor a) = some b' → a ≠ addr →
          (({ s with ram := s.ram.touch now addr } : Store).written addr bytes).files.lookup
            (pathFor a) = some b' := by
        intro b' hb' hne
        rw [lookup_written, if_neg fun hpath => hne (hinj ha haddr hpath)]
        exact hb'
      by_cases heq : a = addr
      · -- the block itself: the file has what RAM had
        have hbytes : b = bytes := by
          rcases hold with hold | ⟨hnone, -⟩
          · rw [heq, hb] at hold
            exact (Option.some.inj hold).symm
          · rw [heq, hb] at hnone
            cases hnone
        refine Or.inr ⟨(hram a).trans (if_pos heq), ?_⟩
        rw [heq, hbytes]
        exact (lookup_written _ addr addr bytes).trans (if_pos rfl)
      · rcases hold with hold | ⟨hnone, hold⟩
        · exact Or.inl ((hram a).trans ((if_neg heq).trans hold))
        · exact Or.inr ⟨(hram a).trans ((if_neg heq).trans hnone), hfile b hold heq⟩

theorem wp_spillVictims_spilled (hinj : Set.InjOn pathFor A) (victims : List BlockAddress)
    {s : Store} (hs : s.ram.Sound A) :
    (spillVictims victims).wp AllOk
      (fun _ s' => s'.ram.Sound A ∧ Spilled A victims s s') s := by
  induction victims generalizing s with
  | nil => exact Code.wp_pure ⟨hs, Spilled.nil s⟩
  | cons addr victims ih =>
    refine Code.wp_bind (Code.wp_get (Code.wp_bind ?_))
    refine Code.wp_mono (wp_spillToSsd_spilled hinj hs addr _) fun _ s' h' => ?_
    exact Code.wp_mono (ih h'.1) fun _ s'' h'' => ⟨h''.1, h'.2.trans h''.2⟩

/-- One round of the loop: nothing to do, no victims, no progress, or another round. -/
theorem wp_spillRounds_succ {ok : Env → Prop} {Q : Unit → Store → Prop} {target rounds : Nat}
    {s : Store} (hdone : ¬ s.ram.used > target → Q () s)
    (hround : s.ram.used > target → ∀ e, ok e →
      (s.ram.coldest e.iter 32 = [] → Q () s) ∧
      (spillVictims (s.ram.coldest e.iter 32)).wp ok
        (fun _ s' => (s'.ram.used ≥ s.ram.used → Q () s') ∧
          (¬ s'.ram.used ≥ s.ram.used → (spillRounds target rounds).wp ok Q s')) s) :
    (spillRounds target (rounds + 1)).wp ok Q s := by
  refine Code.wp_bind (Code.wp_answer fun e he => Code.wp_bind (Code.wp_get ?_))
  split
  · next hover =>
    obtain ⟨hnil, hspill⟩ := hround hover e he
    dsimp only
    split
    · next hempty => exact Code.wp_pure (hnil (List.isEmpty_iff.mp hempty))
    · refine Code.wp_bind (Code.wp_mono hspill fun _ s' h' => ?_)
      refine Code.wp_bind (Code.wp_get ?_)
      split
      · next hstuck => exact Code.wp_pure (h'.1 hstuck)
      · next hless => exact h'.2 hless
  · next hunder => exact Code.wp_pure (hdone hunder)

/-- What is in use after a batch of an order. -/
theorem used_spilled {s s' : Store} {order : List BlockAddress} (hs : s.ram.Sound A)
    (horder : s.ram.ColdFirst order) (hs' : s'.ram.Sound A)
    (hspilled : Spilled A (order.take 32) s s') :
    s.ram.used = s.ram.total (order.take 32) + s.ram.total (order.drop 32) ∧
      s'.ram.used = s.ram.total (order.drop 32) := by
  refine ⟨?_, ?_⟩
  · rw [hs.accounted order horder.toLists, ← RamTier.total_append, List.take_append_drop]
  · rw [hs'.accounted _ (horder.drop hspilled.ram).toLists]
    exact horder.total_drop hspilled.ram 0

/-- A tier that does not stall gets within the target. -/
theorem wp_spillRounds_meets (hinj : Set.InjOn pathFor A) (target rounds : Nat) {s : Store}
    (hs : s.ram.Sound A) (hrounds : s.ram.used ≤ rounds) (hstalls : ¬ s.ram.Stalls target) :
    (spillRounds target rounds).wp AllOk (fun _ s' => s'.ram.used ≤ target) s := by
  induction rounds generalizing s with
  | zero => exact Code.wp_pure (by omega)
  | succ rounds ih =>
    refine wp_spillRounds_succ (fun hunder => by omega) fun hover e he => ?_
    obtain ⟨order, horder, hcoldest⟩ := s.ram.exists_coldFirst (e.iter_perm s.ram.inner.keys)
    rw [hcoldest]
    refine ⟨fun hnil => ?_, ?_⟩
    · have hnone : order = [] := by simpa using hnil
      have hused := hs.accounted order horder.toLists
      have hzero : s.ram.total [] = 0 := rfl
      rw [hnone, hzero] at hused
      omega
    · refine Code.wp_mono (wp_spillVictims_spilled hinj _ hs) fun _ s' h' => ?_
      obtain ⟨hused, hused'⟩ := used_spilled hs horder h'.1 h'.2
      refine ⟨fun hstuck => ?_, fun hless => ?_⟩
      · -- a batch of empty blocks with more than the target left
        refine absurd ⟨order, horder, 0, ?_, ?_⟩ hstalls
        · exact (RamTier.total_eq_zero_iff _).mp (by rw [Nat.mul_zero, List.drop_zero]; omega)
        · rw [Nat.mul_zero, List.drop_zero, ← hs.accounted order horder.toLists]
          exact hover
      · exact ih h'.1 (by omega) fun h => hstalls (horder.of_without h'.2.ram h)

/-- Iterate by the position in `order`. -/
def following (order : List BlockAddress) : Env where
  ok := true
  now := 0
  iter keys := keys.mergeSort fun a b => decide (order.idxOf a ≤ order.idxOf b)
  iter_perm keys := List.mergeSort_perm keys _

/-- The end of an order of blocks is iterated as it is. -/
theorem iter_following {order rest keys : List BlockAddress} (hnodup : order.Nodup)
    (hrest : rest.Sublist order) (hperm : keys.Perm rest) :
    (following order).iter keys = rest := by
  have hsort := List.mergeSort_perm keys fun a b => decide (order.idxOf a ≤ order.idxOf b)
  refine @List.Perm.eq_of_pairwise _ (fun a b => order.idxOf a ≤ order.idxOf b) _ _
    ?_ ?_ ?_ (hsort.trans hperm)
  · intro a b ha hb hab hba
    have hmem : a ∈ order := hrest.subset (hperm.mem_iff.mp (hsort.mem_iff.mp ha))
    exact (List.idxOf_inj hmem).mp (Nat.le_antisymm hab hba)
  · have hle : (keys.mergeSort fun a b => decide (order.idxOf a ≤ order.idxOf b)).Pairwise
        fun a b => decide (order.idxOf a ≤ order.idxOf b) = true := by
      refine List.pairwise_mergeSort ?_ ?_ keys
      · intro a b c hab hbc
        simp only [decide_eq_true_eq] at hab hbc ⊢
        omega
      · intro a b
        simp only [Bool.or_eq_true, decide_eq_true_eq]
        omega
    exact hle.imp fun h => of_decide_eq_true h
  · have hself : order.Pairwise fun a b => order.idxOf a ≤ order.idxOf b := by
      rw [List.pairwise_iff_getElem]
      intro i j hi hj hij
      rw [hnodup.idxOf_getElem i hi, hnodup.idxOf_getElem j hj]
      exact Nat.le_of_lt hij
    exact hself.sublist hrest

/-- Iterated in an order with a stall, the loop ends over the target. -/
theorem wp_spillRounds_stalls (hinj : Set.InjOn pathFor A) {order : List BlockAddress}
    (hnodup : order.Nodup) (target rounds k : Nat) {s : Store} (hs : s.ram.Sound A)
    {rest : List BlockAddress} (hrest : rest.Sublist order) (hcold : s.ram.ColdFirst rest)
    (hempty : ∀ a ∈ (rest.drop (32 * k)).take 32, s.ram.sizeAt a = 0)
    (htotal : target < s.ram.total (rest.drop (32 * k))) :
    (spillRounds target rounds).wp (· = following order) (fun _ s' => target < s'.ram.used) s := by
  have hover : target < s.ram.used := by
    rw [hs.accounted rest hcold.toLists, ← List.take_append_drop (32 * k) rest,
      RamTier.total_append]
    omega
  induction rounds generalizing s rest k with
  | zero => exact Code.wp_pure hover
  | succ rounds ih =>
    refine wp_spillRounds_succ (fun hunder => absurd hover hunder) fun _ e he =>
      ⟨fun _ => hover, ?_⟩
    have hiter : e.iter s.ram.inner.keys = rest := by
      rw [he]
      refine iter_following hnodup hrest ?_
      exact (List.perm_ext_iff_of_nodup s.ram.lists_keys.nodup hcold.nodup).mpr fun a => by
        rw [s.ram.lists_keys.mem, hcold.mem]
    rw [hcold.coldest hiter]
    have hspill := wp_spillVictims_spilled hinj (rest.take 32) hs
    refine Code.wp_mono (Code.wp_imp (fun i hi => by rw [hi]; rfl) hspill) fun _ s' h' => ?_
    obtain ⟨hused, hused'⟩ := used_spilled hs hcold h'.1 h'.2
    refine ⟨fun hstuck => by omega, fun hless => ?_⟩
    cases k with
    | zero =>
      -- nothing was freed, so the loop has stopped
      rw [Nat.mul_zero, List.drop_zero] at hempty
      have hzero := (RamTier.total_eq_zero_iff _).mpr hempty
      omega
    | succ k =>
      have hdrop : rest.drop (32 * (k + 1)) = (rest.drop 32).drop (32 * k) := by
        rw [List.drop_drop, Nat.mul_succ, Nat.add_comm]
      rw [hdrop] at hempty htotal
      have hnot : ∀ a ∈ (rest.drop 32).drop (32 * k), a ∉ rest.take 32 := fun a ha =>
        ((hcold.mem_drop_iff a).mp (List.mem_of_mem_drop ha)).1
      have htotal' : target < s'.ram.total ((rest.drop 32).drop (32 * k)) := by
        rw [hcold.total_drop h'.2.ram]
        exact htotal
      have hcold' := hcold.drop h'.2.ram
      refine ih k h'.1 ((List.drop_sublist 32 rest).trans hrest) hcold' ?_ htotal' ?_
      · intro a ha
        rw [h'.2.ram.sizeAt (hnot a (List.mem_of_mem_take ha))]
        exact hempty a ha
      · rw [hused', ← List.take_append_drop (32 * k) (rest.drop 32), RamTier.total_append]
        omega

/-- Whatever it frees, a pass loses nothing. -/
theorem wp_evictPass_keeps (hinj : Set.InjOn pathFor A) (target : Nat) {s : Store}
    (hs : s.ram.Sound A) :
    (Store.evictPass target 0).wp AllOk
      (fun _ s' => ∀ a ∈ A, ∀ b, s.Holds a b → s'.Holds a b) s := by
  have hkept : (Store.evictPass target 0).wp AllOk
      (fun _ s' => s'.ram.Sound A ∧ ∀ a ∈ A, ∀ b, s.Holds a b → s'.Holds a b) s := by
    refine wp_evictPass target 0 (fun s' addr model h' => ?_) (fun s' h' => Code.wp_pure h')
      ⟨hs, fun _ _ _ h => h⟩
    exact Code.wp_mono (wp_spillToSsd_spilled hinj h'.1 addr model) fun _ s'' h'' =>
      ⟨h''.1, fun a ha b hb => h''.2.kept a ha b (h'.2 a ha b hb)⟩
  exact Code.wp_mono hkept fun _ _ h => h.2

/-- The pass ends within the target unless it is over it, and has no capacity or stalls. -/
theorem wp_evictPass_meets (hinj : Set.InjOn pathFor A) {target : Nat} {s : Store}
    (hs : s.ram.Sound A)
    (h : s.ram.used ≤ target ∨ 0 < s.ram.capacity ∧ ¬ s.ram.Stalls target) :
    (Store.evictPass target 0).wp AllOk (fun _ s' => s'.ram.used ≤ target) s := by
  refine Code.wp_bind (Code.wp_get (Code.wp_bind ?_))
  split
  · next hover =>
    have hstalls := (h.resolve_left (by omega)).2
    exact Code.wp_mono (wp_spillRounds_meets hinj target _ hs (Nat.le_refl _) hstalls)
      fun _ s' h' => Code.wp_pure h'
  · next hidle =>
    refine Code.wp_pure (Code.wp_pure ?_)
    rcases h with hunder | ⟨hcap, -⟩
    · exact hunder
    · exact Nat.not_lt.mp fun hover => hidle ⟨hcap, hover⟩

/-- Otherwise some pass ends over it. -/
theorem exists_run_over (hinj : Set.InjOn pathFor A) {target : Nat} {s : Store}
    (hs : s.ram.Sound A) (hover : target < s.ram.used)
    (h : s.ram.capacity = 0 ∨ s.ram.Stalls target) :
    ∃ s', (Store.evictPass target 0).Runs AllOk s () s' ∧ target < s'.ram.used := by
  obtain ⟨e, he, hwp⟩ : ∃ e, AllOk e ∧ (Store.evictPass target 0).wp (· = e)
      (fun _ s' => target < s'.ram.used) s := by
    rcases h with hcap | ⟨order, hcold, k, hempty, htotal⟩
    · refine ⟨okEnv, rfl, Code.wp_bind (Code.wp_get (Code.wp_bind ?_))⟩
      rw [if_neg fun hloop => by omega]
      exact Code.wp_pure (Code.wp_pure hover)
    · refine ⟨following order, rfl, Code.wp_bind (Code.wp_get (Code.wp_bind ?_))⟩
      split
      · exact Code.wp_mono (wp_spillRounds_stalls hinj hcold.nodup target _ k hs
          (List.Sublist.refl _) hcold hempty htotal) fun _ s' h' => Code.wp_pure h'
      · exact Code.wp_pure (Code.wp_pure hover)
  obtain ⟨_, s', hrun⟩ := @Code.exists_runs _ _ _ (· = e) e rfl (Store.evictPass target 0) s
  exact ⟨s', Code.Runs.imp (fun i hi => by rw [hi]; exact he) hrun, (Code.Runs.of_wp hrun hwp :)⟩

end

/-- A pass that runs alone, with every file operation succeeding, ends and loses no block of `A`.
    It always ends within the target exactly if it starts there, or the tier has a capacity and
    does not stall. -/
theorem evict_pass_meets_target_iff (A : Set BlockAddress) (hinj : Set.InjOn pathFor A) (s : Store)
    (h : Reached A s) (target : Nat) :
    (∃ s', (Store.evictPass target 0).Runs AllOk s () s') ∧
      (∀ s', (Store.evictPass target 0).Runs AllOk s () s' →
        ∀ a ∈ A, ∀ b, Returns s a b → Returns s' a b) ∧
      ((∀ s', (Store.evictPass target 0).Runs AllOk s () s' → s'.ram.used ≤ target) ↔
        s.ram.used ≤ target ∨ 0 < s.ram.capacity ∧ ¬ s.ram.Stalls target) := by
  have hs := h.sound
  refine ⟨?_, fun s' hrun a ha b hb => ?_, fun hall => ?_, fun hcond s' hrun => ?_⟩
  · obtain ⟨_, s', hrun⟩ := Code.exists_runs (show AllOk okEnv from rfl)
      (Store.evictPass target 0) s
    exact ⟨s', hrun⟩
  · rw [returns_iff] at hb ⊢
    have hkept := Code.Runs.of_wp hrun (wp_evictPass_keeps hinj target hs)
    exact hkept a ha b hb
  · by_contra hcond
    obtain ⟨hover, hbad⟩ := not_or.mp hcond
    have hwhy : s.ram.capacity = 0 ∨ s.ram.Stalls target := by
      by_cases hcap : s.ram.capacity = 0
      · exact Or.inl hcap
      · exact Or.inr (Classical.not_not.mp fun hno => hbad ⟨Nat.pos_of_ne_zero hcap, hno⟩)
    obtain ⟨s', hrun, hend⟩ := exists_run_over hinj hs (Nat.not_le.mp hover) hwhy
    exact absurd (hall s' hrun) (Nat.not_le.mpr hend)
  · exact (Code.Runs.of_wp hrun (wp_evictPass_meets hinj hs hcond) :)

/-! ## Empty blocks in front -/

/-- The addresses of one digest: their files differ. -/
def zeroBlock (layer : UInt32) : BlockAddress :=
  ⟨zeroDigest, layer⟩

def zeroBlocks : Set BlockAddress :=
  { a | a.digest = zeroDigest }

theorem injOn_zeroBlocks : Set.InjOn pathFor zeroBlocks := by
  intro a ha b hb hpath
  have hlayer := ((pathFor_eq_iff a b).mp hpath).2
  cases a
  cases b
  cases ha
  cases hb
  cases hlayer
  rfl

/-- A peer pushes `n` bytes at time `now`, as the call with this number. -/
def pushTurns (number n now : Nat) :
    List (TaskPool.Turn Env { c : Call // c.Over zeroBlocks }) :=
  [ .start ⟨.stream ⟨.push, zeroBlock number.toUInt32, n⟩ (List.replicate n 0), rfl⟩
  , .segment number { okEnv with now := now } ]

/-- A tier of 1024 bytes after some turns. -/
def afterTurns (turns : List (TaskPool.Turn Env { c : Call // c.Over zeroBlocks })) : Store :=
  ((⟨opened 1024 ∅ ∅, []⟩ : TaskPool Env Store).run (fun c => c.1.code) turns).state

theorem reached_afterTurns (turns : List (TaskPool.Turn Env { c : Call // c.Over zeroBlocks })) :
    Reached zeroBlocks (afterTurns turns) :=
  ⟨1024, ∅, ∅, turns, rfl⟩

theorem evict_pass_meets_target_one_block :
    (afterTurns (pushTurns 0 600 0)).ram.used = 600 ∧
      ∀ s', (Store.evictPass 512 0).Runs AllOk (afterTurns (pushTurns 0 600 0)) () s' →
        s'.ram.used ≤ 512 := by
  refine ⟨by decide +kernel, ?_⟩
  refine (evict_pass_meets_target_iff zeroBlocks injOn_zeroBlocks _ (reached_afterTurns _)
    512).2.2.mpr (Or.inr ⟨by decide +kernel, RamTier.not_stalls_of_nonempty ?_ 512⟩)
  intro a b hb hnil
  have hkeys : (afterTurns (pushTurns 0 600 0)).ram.inner.keys = [zeroBlock 0] := by decide +kernel
  have ha : a ∈ (afterTurns (pushTurns 0 600 0)).ram.inner.keys :=
    ((RamTier.lists_keys _).mem a).mpr (by rw [hb]; rfl)
  rw [hkeys, List.mem_singleton] at ha
  rw [ha, hnil] at hb
  exact absurd hb (by decide +kernel)

/-- 32 blocks without bytes, as streams may push them, and a younger one of 600 bytes. -/
def stalledTurns : List (TaskPool.Turn Env { c : Call // c.Over zeroBlocks }) :=
  (List.range 32).flatMap (fun i => pushTurns i 0 0) ++ pushTurns 32 600 1

/-- The first batch frees nothing, and the pass stops with 600 of 512 bytes in use. -/
theorem empty_blocks_stall_pass :
    ¬ ∀ (A : Set BlockAddress) (s : Store), Set.InjOn pathFor A → Reached A s →
      ∀ target s', (Store.evictPass target 0).Runs AllOk s () s' →
        s'.ram.used ≤ target ∧ ∀ a ∈ A, ∀ b, Returns s a b → Returns s' a b := by
  intro h
  have hreached := reached_afterTurns stalledTurns
  have hkeys := (afterTurns stalledTurns).ram.lists_keys
  have hstalls : (afterTurns stalledTurns).ram.Stalls 512 := by
    refine ⟨(afterTurns stalledTurns).ram.inner.keys.reverse,
      ⟨⟨List.nodup_reverse.mpr hkeys.nodup, fun a => ?_⟩, ?_⟩, 0, ?_, ?_⟩
    · rw [List.mem_reverse]
      exact hkeys.mem a
    · decide +kernel
    · decide +kernel
    · decide +kernel
  obtain ⟨s', hrun, hend⟩ := exists_run_over injOn_zeroBlocks hreached.sound
    (show 512 < (afterTurns stalledTurns).ram.used by decide +kernel) (Or.inr hstalls)
  exact absurd (h zeroBlocks _ injOn_zeroBlocks hreached 512 s' hrun).1 (Nat.not_le.mpr hend)

end Store

end Cognitora.KvCached
