import TraceInode.Cache
import Mathlib.Data.List.Perm.Basic

/-!
# Representation invariant of the inode cache

`CacheInv` is what makes the intrusive structure of `trace_inode.c` a
well-formed cache: the LRU list is a permutation of the arena, each chain is
duplicate free and holds exactly the nodes whose `pprev` names it, every
hashed entry is on the chain of its own inode number, the free (unhashed)
entries form a tail segment of the LRU list, and no two hashed entries hold
the same `(device_id, inode_id)`.

The invariant holds of `createTracer` and is kept by `_set_hot` and
`_remove_entry` on a hashed entry, by `_lookup`, and by `_map` when no hashed
entry holds the inode's `(device_id, inode_id)`, which a missed `_lookup`
establishes.  Along the way `_lookup` is given its specification
`lookup_eq`: the chain scan is decided by the unique entry for the object.
-/

namespace TraceInode.Invariant

open TraceInode.Basic TraceInode.Cache

/-- The representation invariant of the cache part of `iotrace_inode_tracer`. -/
structure CacheInv (t : InodeTracer) : Prop where
  /-- `lru_list` holds every arena entry exactly once. -/
  lru_perm : t.lruList.Perm (List.finRange cacheSize)
  /-- No chain holds a node twice. -/
  chain_nodup : ∀ b, (t.hashTable b).Nodup
  /-- A node is on chain `b` iff its `pprev` link says so. -/
  mem_chain : ∀ e b, e ∈ t.hashTable b ↔ t.hashNode e = some b
  /-- Every hashed entry is on the chain of its own inode number. -/
  chain_bucket : ∀ e b, t.hashNode e = some b → b = hashMin (t.entries e).inodeId
  /-- The unhashed entries form a tail segment of the LRU list. -/
  free_tail : ∃ hot free, t.lruList = hot ++ free ∧ (∀ e ∈ hot, hashed t e) ∧
    ∀ e ∈ free, hashed t e = false
  /-- No two hashed entries hold the same `(device_id, inode_id)`. -/
  key_unique : ∀ e e', hashed t e → hashed t e' →
    (t.entries e).key.sameObject (t.entries e').key → e = e'

variable {t : InodeTracer} {e x : EntryIdx} {inode : Inode}

namespace CacheInv

theorem lru_nodup (h : CacheInv t) : t.lruList.Nodup :=
  h.lru_perm.nodup_iff.2 (List.nodup_finRange _)

theorem mem_lru (h : CacheInv t) (e : EntryIdx) : e ∈ t.lruList :=
  h.lru_perm.mem_iff.2 (List.mem_finRange e)

theorem lru_length (h : CacheInv t) : t.lruList.length = cacheSize :=
  h.lru_perm.length_eq.trans (List.length_finRange _)

/-- Each entry sits on at most one chain. -/
theorem chain_disjoint (h : CacheInv t) {b b' : Fin hashTableSize}
    (hb : e ∈ t.hashTable b) (hb' : e ∈ t.hashTable b') : b = b' := by
  rw [h.mem_chain] at hb hb'
  exact Option.some.inj (hb.symm.trans hb')

private theorem hashed_iff_mem (h : CacheInv t) :
    hashed t e ↔ e ∈ t.hashTable (hashMin (t.entries e).inodeId) := by
  rw [h.mem_chain, hashed, Option.isSome_iff_exists]
  exact ⟨fun ⟨b, hb⟩ => hb.trans (congrArg some (h.chain_bucket e b hb)), fun hb => ⟨_, hb⟩⟩

/-- A hashed entry lies in the hot prefix of any hot/free split. -/
private theorem mem_hot (h : CacheInv t) {hot free : List EntryIdx} (hl : t.lruList = hot ++ free)
    (hf : ∀ e ∈ free, hashed t e = false) (he : hashed t e) : e ∈ hot := by
  rcases List.mem_append.1 (hl ▸ h.mem_lru e) with h' | h'
  · exact h'
  · simp [hf e h'] at he

/-- A node on a chain is hashed. -/
private theorem hashed_of_mem (h : CacheInv t) {b : Fin hashTableSize} (hb : e ∈ t.hashTable b) :
    hashed t e := by
  rw [h.mem_chain] at hb
  simp [hashed, hb]

end CacheInv

/-! ## The fresh tracer -/

private theorem foldl_push (l acc : List EntryIdx) :
    l.foldl (fun lru i => i :: lru) acc = l.reverse ++ acc := by
  induction l generalizing acc with
  | nil => rfl
  | cons i l ih => simp [ih]

theorem initLru_eq : initLru = (List.finRange cacheSize).reverse := by
  simp [initLru, foldl_push]

theorem createTracer_inv (fsm : Option Nat) : CacheInv (createTracer fsm) where
  lru_perm := by
    rw [createTracer_lruList, initLru_eq]
    exact List.reverse_perm _
  chain_nodup _ := by simp
  mem_chain _ _ := by simp
  chain_bucket _ _ h := by simp at h
  free_tail := ⟨[], initLru, by rw [createTracer_lruList, List.nil_append], by simp,
    fun _ _ => by simp [hashed]⟩
  key_unique _ _ h := by simp [hashed] at h

/-! ## `_set_hot` -/

private theorem setHot_inv (h : CacheInv t) (he : hashed t e) : CacheInv (setHot t e) where
  lru_perm := (List.perm_cons_erase (h.mem_lru e)).symm.trans h.lru_perm
  chain_nodup := h.chain_nodup
  mem_chain := h.mem_chain
  chain_bucket := h.chain_bucket
  free_tail := by
    obtain ⟨hot, free, hl, hh, hf⟩ := h.free_tail
    have he_hot := h.mem_hot hl hf he
    refine ⟨e :: hot.erase e, free, ?_, ?_, hf⟩
    · simp [setHot, hl, List.erase_append_left _ he_hot]
    · intro x hx
      rcases List.mem_cons.1 hx with rfl | hx
      · exact he
      · exact hh x (List.mem_of_mem_erase hx)
  key_unique := h.key_unique

/-! ## `hash_del` and `_remove_entry` -/

private theorem hashed_hashDel : hashed (hashDel t e) x = if x = e then false else hashed t x := by
  by_cases hx : x = e <;> simp [hashed, Function.update_apply, hx]

theorem hashed_removeEntry : hashed (removeEntry t e) x = if x = e then false else hashed t x :=
  hashed_hashDel

private theorem mem_hashDel (h : CacheInv t) {b : Fin hashTableSize} :
    x ∈ (hashDel t e).hashTable b ↔ x ≠ e ∧ x ∈ t.hashTable b := by
  rw [hashDel_hashTable]
  split_ifs with hb
  · exact (h.chain_nodup b).mem_erase_iff
  · refine ⟨fun hx => ⟨?_, hx⟩, And.right⟩
    rintro rfl
    exact hb ((h.mem_chain _ _).1 hx)

private theorem hashDel_chain_nodup (h : CacheInv t) (b : Fin hashTableSize) :
    ((hashDel t e).hashTable b).Nodup := by
  rw [hashDel_hashTable]
  split_ifs
  · exact (h.chain_nodup b).erase e
  · exact h.chain_nodup b

private theorem hashDel_mem_chain (h : CacheInv t) (x : EntryIdx) (b : Fin hashTableSize) :
    x ∈ (hashDel t e).hashTable b ↔ (hashDel t e).hashNode x = some b := by
  rw [mem_hashDel h, hashDel_hashNode, Function.update_apply]
  by_cases hx : x = e <;> simp [hx, h.mem_chain]

private theorem removeEntry_inv (h : CacheInv t) (he : hashed t e) :
    CacheInv (removeEntry t e) where
  lru_perm := (List.perm_append_singleton e _).trans
    ((List.perm_cons_erase (h.mem_lru e)).symm.trans h.lru_perm)
  chain_nodup b := by
    rw [removeEntry_hashTable]
    exact hashDel_chain_nodup h b
  mem_chain x b := by
    rw [removeEntry_hashTable]
    exact hashDel_mem_chain h x b
  chain_bucket x b hx := by
    have hxe : x ≠ e := by rintro rfl; simp at hx
    exact h.chain_bucket x b (by simpa [Function.update_apply, hxe] using hx)
  free_tail := by
    obtain ⟨hot, free, hl, hh, hf⟩ := h.free_tail
    have he_hot := h.mem_hot hl hf he
    have hnd : hot.Nodup := (List.nodup_append.1 (hl ▸ h.lru_nodup)).1
    refine ⟨hot.erase e, free ++ [e], ?_, ?_, ?_⟩
    · simp [hl, List.erase_append_left _ he_hot]
    · intro x hx
      obtain ⟨hxe, hx⟩ := hnd.mem_erase_iff.1 hx
      simpa [hashed_removeEntry, hxe] using hh x hx
    · intro x hx
      rcases List.mem_append.1 hx with hx | hx
      · simp [hashed_removeEntry, hf x hx]
      · simp_all [hashed_removeEntry]
  key_unique x y hx hy hxy := by
    rw [hashed_removeEntry] at hx hy
    split_ifs at hx hy
    exact h.key_unique x y hx hy hxy

/-! ## The chain scan of `_lookup` -/

/-- The candidate test of `_lookup`: entry `e` holds `inode`'s
`(inode_id, device_id)`. -/
def candidate (t : InodeTracer) (inode : Inode) (e : EntryIdx) : Bool :=
  inode.key.sameObject (t.entries e).key

/-- What `_lookup` does once its scan has settled on the candidate `o`. -/
def lookupAt (t : InodeTracer) (inode : Inode) : Option EntryIdx → Option EntryIdx × InodeTracer
  | none => (none, t)
  | some e =>
    if inode.iCtime = (t.entries e).ctime then (some e, setHot t e) else (none, removeEntry t e)

private theorem lookupChain_of_forall (inode : Inode) :
    ∀ (l : List EntryIdx) (t : InodeTracer), (∀ x ∈ l, candidate t inode x = false) →
      lookupChain inode l t = (none, t)
  | [], _, _ => rfl
  | e :: rest, t, hl => by
    have he : candidate t inode e = false := hl e (List.mem_cons_self _ _)
    simp only [candidate] at he
    simp only [lookupChain, he, Bool.false_eq_true, if_false]
    exact lookupChain_of_forall inode rest t fun x hx => hl x (List.mem_cons_of_mem _ hx)

/-- When at most one entry of the chain is a candidate, the scan is decided by
that candidate. -/
private theorem lookupChain_eq (inode : Inode) :
    ∀ (l : List EntryIdx) (t : InodeTracer),
      l.Pairwise (fun a b => ¬(candidate t inode a ∧ candidate t inode b)) →
      lookupChain inode l t = lookupAt t inode (l.find? (candidate t inode))
  | [], _, _ => rfl
  | e :: rest, t, hl => by
    obtain ⟨he, hrest⟩ := List.pairwise_cons.1 hl
    by_cases hc : candidate t inode e
    · rw [List.find?_cons_of_pos _ hc]
      have hc' : inode.key.sameObject (t.entries e).key = true := hc
      simp only [lookupChain, hc', if_true, lookupAt]
      split_ifs
      · rfl
      · exact lookupChain_of_forall inode rest _ fun x hx => by simpa [hc] using he x hx
    · rw [List.find?_cons_of_neg _ hc]
      have hc' : inode.key.sameObject (t.entries e).key = false := by simpa [candidate] using hc
      simp only [lookupChain, hc', Bool.false_eq_true, if_false]
      exact lookupChain_eq inode rest t hrest

/-- The candidate `_lookup` settles on: the first entry of the inode's chain
holding its `(inode_id, device_id)`. -/
def findObject (t : InodeTracer) (inode : Inode) : Option EntryIdx :=
  (t.hashTable (hashMin inode.iIno)).find? (candidate t inode)

theorem candidate_sameObject {a b : EntryIdx} (ha : candidate t inode a)
    (hb : candidate t inode b) :
    (t.entries a).key.sameObject (t.entries b).key :=
  InodeKey.sameObject_trans ha hb

/-- `_lookup`'s specification under the invariant. -/
theorem lookup_eq (h : CacheInv t) (inode : Inode) :
    lookup t inode = lookupAt t inode (findObject t inode) := by
  refine lookupChain_eq inode _ t ((h.chain_nodup _).imp_of_mem ?_)
  rintro a b ha hb hab ⟨hca, hcb⟩
  exact hab (h.key_unique a b (h.hashed_of_mem ha) (h.hashed_of_mem hb)
    (candidate_sameObject hca hcb))

/-- A hashed candidate is on the chain `_lookup` scans. -/
private theorem mem_scan (h : CacheInv t) (he : hashed t e) (hc : candidate t inode e) :
    e ∈ t.hashTable (hashMin inode.iIno) := by
  have hid : inode.iIno = (t.entries e).inodeId := (InodeKey.sameObject_eq_true.1 hc).1
  rw [hid]
  exact h.hashed_iff_mem.1 he

theorem findObject_eq_some (h : CacheInv t) :
    findObject t inode = some e ↔ hashed t e ∧ candidate t inode e := by
  constructor
  · intro hf
    exact ⟨h.hashed_of_mem (List.mem_of_find?_eq_some hf), List.find?_some hf⟩
  · rintro ⟨he, hc⟩
    cases hf : findObject t inode with
    | none => exact absurd hc (List.find?_eq_none.1 hf e (mem_scan h he hc))
    | some e' =>
      have he' := h.hashed_of_mem (List.mem_of_find?_eq_some hf)
      rw [h.key_unique e' e he' he (candidate_sameObject (List.find?_some hf) hc)]

theorem findObject_eq_none (h : CacheInv t) :
    findObject t inode = none ↔ ∀ e, hashed t e → candidate t inode e = false := by
  rw [findObject, List.find?_eq_none]
  constructor
  · intro hf e he
    by_contra hc
    exact hf e (mem_scan h he (by simpa using hc)) (by simpa using hc)
  · intro hf x hx
    simpa using hf x (h.hashed_of_mem hx)

/-! ## `_lookup` keeps the invariant -/

theorem lookup_inv (h : CacheInv t) (inode : Inode) : CacheInv (lookup t inode).2 := by
  rw [lookup_eq h]
  cases hf : findObject t inode with
  | none => exact h
  | some e =>
    have he := ((findObject_eq_some h).1 hf).1
    simp only [lookupAt]
    split_ifs
    · exact setHot_inv h he
    · exact removeEntry_inv h he

/-- After a miss, no hashed entry holds the inode's `(inode_id, device_id)`:
the stale one, if there was one, has been removed. -/
theorem lookup_miss_fresh (h : CacheInv t) (hmiss : (lookup t inode).1 = none) :
    ∀ x, hashed (lookup t inode).2 x → candidate (lookup t inode).2 inode x = false := by
  rw [lookup_eq h] at hmiss ⊢
  cases hf : findObject t inode with
  | none => simpa [lookupAt] using (findObject_eq_none h).1 hf
  | some e =>
    obtain ⟨he, hc⟩ := (findObject_eq_some h).1 hf
    rw [hf] at hmiss
    simp only [lookupAt] at hmiss ⊢
    split_ifs at hmiss ⊢
    intro x hx
    rw [hashed_removeEntry] at hx
    split_ifs at hx with hxe
    by_contra hcx
    exact hxe (h.key_unique x e hx he (candidate_sameObject (by simpa [candidate] using hcx) hc))

/-! ## `_map` -/

/-- The tracer `_map` leaves when `_get_entry` hands it entry `e`. -/
def recycled (t : InodeTracer) (e : EntryIdx) (inode : Inode) : InodeTracer :=
  hashAdd (listAdd (setEntry (hashDel (listDel t e) e) e inode) e) e inode.iIno

theorem map_eq (hl : t.lruList.getLast? = some e) : map t inode = some (recycled t e inode) := by
  simp [map, getEntry, hl, recycled]

section Recycled

variable (t e inode)

@[simp] theorem recycled_lruList : (recycled t e inode).lruList = e :: t.lruList.erase e := rfl

@[simp] theorem recycled_entries :
    (recycled t e inode).entries =
      Function.update t.entries e ⟨inode.iIno, inode.iCtime, inode.sDev⟩ :=
  rfl

@[simp] theorem recycled_hashNode :
    (recycled t e inode).hashNode = Function.update t.hashNode e (some (hashMin inode.iIno)) := by
  simp [recycled]

private theorem recycled_hashTable :
    (recycled t e inode).hashTable = Function.update (hashDel t e).hashTable (hashMin inode.iIno)
      (e :: (hashDel t e).hashTable (hashMin inode.iIno)) := rfl

theorem hashed_recycled : hashed (recycled t e inode) x = if x = e then true else hashed t x := by
  by_cases hx : x = e <;> simp [hashed, Function.update_apply, hx]

end Recycled

/-- The victim `_get_entry` takes is the last entry, so erasing it leaves the
rest of the list. -/
theorem lru_split_last (h : CacheInv t) (hl : t.lruList.getLast? = some e) :
    ∃ ys, t.lruList = ys ++ [e] ∧ e ∉ ys ∧ t.lruList.erase e = ys := by
  obtain ⟨ys, hys⟩ := List.getLast?_eq_some_iff.1 hl
  have hnd := h.lru_nodup
  rw [hys] at hnd
  have heys : e ∉ ys := fun hm => (List.nodup_append.1 hnd).2.2 hm (List.mem_singleton_self e)
  exact ⟨ys, hys, heys,
    by rw [hys, List.erase_append_right _ heys, List.erase_cons_head, List.append_nil]⟩

/-- When the LRU tail is hashed, the free segment is empty. -/
theorem hashed_of_tail_hashed (h : CacheInv t) (hl : t.lruList.getLast? = some e)
    (he : hashed t e) :
    ∀ x ∈ t.lruList, hashed t x := by
  obtain ⟨hot, free, hl', hh, hf⟩ := h.free_tail
  rcases List.eq_nil_or_concat free with rfl | ⟨fs, z, rfl⟩
  · simpa [hl'] using hh
  · rw [hl', List.concat_eq_append, ← List.append_assoc,
      List.getLast?_append_of_ne_nil _ (by simp)] at hl
    have hze : z = e := by simpa using hl
    subst hze
    simp [hf z (by simp)] at he

private theorem recycled_inv (h : CacheInv t) (hl : t.lruList.getLast? = some e)
    (hfresh : ∀ x, hashed t x → candidate t inode x = false) : CacheInv (recycled t e inode) where
  lru_perm := by
    rw [recycled_lruList]
    exact (List.perm_cons_erase (h.mem_lru e)).symm.trans h.lru_perm
  chain_nodup b := by
    rw [recycled_hashTable, Function.update_apply]
    split_ifs with hb
    · exact List.nodup_cons.2 ⟨fun hm => ((mem_hashDel h).1 hm).1 rfl, hashDel_chain_nodup h _⟩
    · exact hashDel_chain_nodup h b
  mem_chain x b := by
    rw [recycled_hashTable, recycled_hashNode]
    by_cases hxe : x = e <;> by_cases hb : b = hashMin inode.iIno <;>
      simp [Function.update_apply, hxe, hb, mem_hashDel h, h.mem_chain, eq_comm]
  chain_bucket x b hx := by
    rw [recycled_hashNode, Function.update_apply] at hx
    rw [recycled_entries, Function.update_apply]
    split_ifs at hx ⊢
    · exact (Option.some.inj hx).symm
    · exact h.chain_bucket x b hx
  free_tail := by
    obtain ⟨ys, hys, heys, herase⟩ := lru_split_last h hl
    obtain ⟨hot, free, hl', hh, hf⟩ := h.free_tail
    rcases List.eq_nil_or_concat free with rfl | ⟨fs, z, rfl⟩
    · have hhot : hot = ys ++ [e] := by simpa [hys] using hl'.symm
      refine ⟨e :: ys, [], by simp [herase], ?_, by simp⟩
      intro x hx
      rw [hashed_recycled]
      split_ifs with hxe
      · rfl
      · exact hh x (by simp [hhot, (List.mem_cons.1 hx).resolve_left hxe])
    · rw [List.concat_eq_append] at hl' hf
      have hsplit : ys ++ [e] = (hot ++ fs) ++ [z] := by rw [← hys, hl', List.append_assoc]
      obtain ⟨hys', hz⟩ := List.append_inj' hsplit rfl
      obtain rfl : e = z := by simpa using hz
      refine ⟨e :: hot, fs, by simp [herase, hys'], ?_, ?_⟩
      · intro x hx
        rw [hashed_recycled]
        split_ifs with hxe
        · rfl
        · exact hh x (by simpa [hxe] using hx)
      · intro x hx
        have hxys : x ∈ ys := by
          rw [hys']
          exact List.mem_append_right _ hx
        have hxe : x ≠ e := fun hxz => heys (hxz ▸ hxys)
        rw [hashed_recycled, if_neg hxe]
        exact hf x (by simp [hx])
  key_unique x y hx hy hxy := by
    rw [hashed_recycled] at hx hy
    rw [recycled_entries, Function.update_apply, Function.update_apply] at hxy
    by_cases hxe : x = e <;> by_cases hye : y = e <;>
      simp only [hxe, hye, if_true, if_false] at hx hy hxy
    · exact hxe.trans hye.symm
    · have := hfresh y hy
      simp [candidate, Inode.key, CacheEntry.key] at this hxy
      exact absurd hxy (by simpa using this)
    · have := hfresh x hx
      rw [InodeKey.sameObject_comm] at hxy
      simp [candidate, Inode.key, CacheEntry.key] at this hxy
      exact absurd hxy (by simpa using this)
    · exact h.key_unique x y hx hy hxy

theorem lruList_getLast?_isSome (h : CacheInv t) : ∃ e, t.lruList.getLast? = some e := by
  apply Option.ne_none_iff_exists'.1
  rw [Ne, List.getLast?_eq_none_iff, ← List.length_eq_zero, h.lru_length]
  decide

/-- After a miss `_map` is defined and keeps the invariant. -/
theorem map_inv (h : CacheInv t) (hfresh : ∀ x, hashed t x → candidate t inode x = false) :
    ∃ t', map t inode = some t' ∧ CacheInv t' := by
  obtain ⟨e, hl⟩ := lruList_getLast?_isSome h
  exact ⟨_, map_eq hl, recycled_inv h hl hfresh⟩

end TraceInode.Invariant
