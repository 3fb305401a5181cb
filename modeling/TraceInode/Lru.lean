import TraceInode.Invariant

/-!
# The inode cache refines a bounded LRU list

What the cache of `trace_inode.c` is for, stated without arenas, chains or
`pprev` links: an LRU-ordered list of identities `(device_id, inode_id,
ctime)` of capacity `CACHE_SIZE`.

* `lruLookup k l` is a hit iff `k` is in the list, and then moves `k` to the
  front; a miss drops every identity of the same object (a stale ctime).
* `lruInsert k l` puts `k` in front and drops the last identity when the list
  is full.

`lruKeys` reads the abstract list off a tracer: the identities of the hashed
entries, from the head of `lru_list` to its tail.  Every state reachable by
`_lookup` and missed-lookup-guarded `_map` satisfies `CacheInv`, and on such
states each operation is its abstract counterpart (`cache_refines_lru`).
-/

namespace TraceInode.Lru

open TraceInode.Basic TraceInode.Cache TraceInode.Invariant

/-! ## The abstract cache -/

/-- Abstract lookup: hit and move to front, or miss and forget every stale
identity of the same object. -/
def lruLookup (k : InodeKey) (l : List InodeKey) : Bool × List InodeKey :=
  if k ∈ l then (true, k :: l.erase k) else (false, l.filter fun k' => !k.sameObject k')

/-- Abstract insertion at the front, evicting the last identity of a full list. -/
def lruInsert (k : InodeKey) (l : List InodeKey) : List InodeKey :=
  k :: if l.length = cacheSize then l.dropLast else l

/-- The abstraction function: identities of the hashed entries in LRU order. -/
def lruKeys (t : InodeTracer) : List InodeKey :=
  (t.lruList.filter (hashed t)).map fun e => (t.entries e).key

variable {t : InodeTracer} {e : EntryIdx} {inode : Inode}

/-! ## Facts about the abstraction -/

theorem key_inj (h : CacheInv t) {x y : EntryIdx} (hx : hashed t x) (hy : hashed t y)
    (hxy : (t.entries x).key = (t.entries y).key) : x = y :=
  h.key_unique x y hx hy (by rw [hxy]; exact InodeKey.sameObject_self _)

theorem lruKeys_nodup (h : CacheInv t) : (lruKeys t).Nodup :=
  (h.lru_nodup.filter _).map_on fun _ hx _ hy hxy =>
    key_inj h (List.of_mem_filter hx) (List.of_mem_filter hy) hxy

private theorem mem_lruKeys (h : CacheInv t) {k : InodeKey} :
    k ∈ lruKeys t ↔ ∃ x, hashed t x ∧ (t.entries x).key = k := by
  simp [lruKeys, h.mem_lru]

private theorem candidate_of_key {x : EntryIdx} (hx : (t.entries x).key = inode.key) :
    candidate t inode x := by
  simp [candidate, hx]

/-- A candidate with the inode's ctime holds exactly the inode's identity. -/
private theorem key_eq_of_candidate (hc : candidate t inode e)
    (hct : inode.iCtime = (t.entries e).ctime) : (t.entries e).key = inode.key := by
  obtain ⟨h1, h2⟩ := InodeKey.sameObject_eq_true.1 hc
  simp only [CacheEntry.key, Inode.key] at h1 h2 ⊢
  rw [h1, h2, hct]

/-- Erasing a hashed entry from the hot list erases its identity. -/
private theorem lruKeys_erase (h : CacheInv t) (he : hashed t e) :
    ((t.lruList.filter (hashed t)).erase e).map (fun x => (t.entries x).key) =
      (lruKeys t).erase (t.entries e).key := by
  rw [(h.lru_nodup.filter _).erase_eq_filter, (lruKeys_nodup h).erase_eq_filter, lruKeys,
    List.filter_map]
  congr 1
  refine List.filter_congr fun x hx => ?_
  by_cases hxe : x = e
  · simp [hxe]
  · have hk : (t.entries x).key ≠ (t.entries e).key :=
      fun hk => hxe (key_inj h (List.of_mem_filter hx) he hk)
    have h1 : (x != e) = true := bne_iff_ne.2 hxe
    have h2 : ((t.entries x).key != (t.entries e).key) = true := bne_iff_ne.2 hk
    simp only [Function.comp_apply, h1, h2]

/-! ## Each operation on the abstraction -/

private theorem lruKeys_setHot (h : CacheInv t) (he : hashed t e) :
    lruKeys (setHot t e) = (t.entries e).key :: (lruKeys t).erase (t.entries e).key := by
  have hs : hashed (setHot t e) = hashed t := rfl
  rw [← lruKeys_erase h he, lruKeys, hs, setHot_lruList, setHot_entries, List.filter_cons_of_pos he,
    List.map_cons, List.erase_filter]

private theorem lruKeys_removeEntry (h : CacheInv t) (he : hashed t e) (hc : candidate t inode e) :
    lruKeys (removeEntry t e) = (lruKeys t).filter fun k' => !inode.key.sameObject k' := by
  have hrest : (t.lruList.erase e).filter (hashed (removeEntry t e)) =
      (t.lruList.erase e).filter (hashed t) := by
    refine List.filter_congr fun x hx => ?_
    rw [hashed_removeEntry, if_neg (h.lru_nodup.mem_erase_iff.1 hx).1]
  have hlast : [e].filter (hashed (removeEntry t e)) = [] := by simp [hashed_removeEntry]
  rw [lruKeys, removeEntry_lruList, List.filter_append, hrest, hlast, List.append_nil,
    removeEntry_entries, ← List.erase_filter, lruKeys_erase h he,
    (lruKeys_nodup h).erase_eq_filter]
  refine List.filter_congr fun k hk => ?_
  obtain ⟨x, hx, rfl⟩ := (mem_lruKeys h).1 hk
  by_cases hxe : x = e
  · subst hxe
    simp [show inode.key.sameObject (t.entries x).key = true from hc]
  · have hk' : (t.entries x).key ≠ (t.entries e).key := fun hk' => hxe (key_inj h hx he hk')
    have hcx : inode.key.sameObject (t.entries x).key = false := by
      by_contra hcx
      exact hxe (h.key_unique x e hx he (candidate_sameObject (by simpa using hcx) hc))
    simp [hk', hcx]

/-- `_lookup` is `lruLookup` on the abstraction. -/
theorem lookup_refines (h : CacheInv t) (inode : Inode) :
    (lookup t inode).1.isSome = (lruLookup inode.key (lruKeys t)).1 ∧
      lruKeys (lookup t inode).2 = (lruLookup inode.key (lruKeys t)).2 := by
  rw [lookup_eq h]
  cases hf : findObject t inode with
  | none =>
    have hfresh := (findObject_eq_none h).1 hf
    have hk : inode.key ∉ lruKeys t := by
      rw [mem_lruKeys h]
      rintro ⟨x, hx, hxk⟩
      exact absurd (candidate_of_key hxk) (by simp [hfresh x hx])
    refine ⟨by simp [lookupAt, lruLookup, hk], ?_⟩
    simp only [lookupAt, lruLookup, if_neg hk]
    refine (List.filter_eq_self.2 fun k hk' => ?_).symm
    obtain ⟨x, hx, rfl⟩ := (mem_lruKeys h).1 hk'
    simpa [candidate] using hfresh x hx
  | some e =>
    obtain ⟨he, hc⟩ := (findObject_eq_some h).1 hf
    simp only [lookupAt]
    split_ifs with hct
    · have hk := key_eq_of_candidate hc hct
      have hmem : inode.key ∈ lruKeys t := (mem_lruKeys h).2 ⟨e, he, hk⟩
      simp only [lruLookup, if_pos hmem, Option.isSome_some, true_and]
      rw [lruKeys_setHot h he, hk]
    · have hk : inode.key ∉ lruKeys t := by
        rw [mem_lruKeys h]
        rintro ⟨x, hx, hxk⟩
        have hxe : x = e := Option.some.inj
          (((findObject_eq_some h).2 ⟨hx, candidate_of_key hxk⟩).symm.trans hf)
        subst hxe
        exact hct (congrArg InodeKey.ctime hxk).symm
      simp only [lruLookup, if_neg hk, Option.isSome_none, true_and]
      exact lruKeys_removeEntry h he hc

theorem lruKeys_createTracer (fsm : Option Nat) : lruKeys (createTracer fsm) = [] := by
  simp [lruKeys, hashed]

theorem lookup_createTracer (fsm : Option Nat) (i : Inode) :
    lookup (createTracer fsm) i = (none, createTracer fsm) := by
  simp [lookup, lookupChain]

/-- `_lookup` hits only on an identity of the abstract list. -/
theorem key_mem_of_lookup_hit (h : CacheInv t) (hit : (lookup t inode).1.isSome) :
    inode.key ∈ lruKeys t := by
  by_contra hk
  simp [(lookup_refines h inode).1, lruLookup, hk] at hit

/-- `_map` after a miss is `lruInsert` on the abstraction. -/
theorem map_refines (h : CacheInv t) (inode : Inode) :
    ∃ t', map t inode = some t' ∧ lruKeys t' = lruInsert inode.key (lruKeys t) := by
  obtain ⟨e, hl⟩ := lruList_getLast?_isSome h
  obtain ⟨ys, hys, heys, herase⟩ := lru_split_last h hl
  refine ⟨_, map_eq hl, ?_⟩
  have hne : ∀ x ∈ ys, x ≠ e := fun x hx hxe => heys (hxe ▸ hx)
  have hrest : (ys.filter (hashed (recycled t e inode))).map
        (fun x => ((recycled t e inode).entries x).key) =
      (ys.filter (hashed t)).map fun x => (t.entries x).key := by
    rw [List.filter_congr fun x hx => by rw [hashed_recycled, if_neg (hne x hx)]]
    refine List.map_congr_left fun x hx => ?_
    rw [recycled_entries, Function.update_noteq (hne x (List.mem_filter.1 hx).1)]
  have hhead : ((recycled t e inode).entries e).key = inode.key := by
    simp [CacheEntry.key, Inode.key]
  rw [lruKeys, recycled_lruList, herase, List.filter_cons_of_pos (by simp [hashed_recycled]),
    List.map_cons, hhead, hrest, lruInsert, lruKeys, hys, List.filter_append]
  congr 1
  have hlen : (ys ++ [e]).length = cacheSize := by rw [← hys, h.lru_length]
  by_cases he : hashed t e
  · have hall : ys.filter (hashed t) = ys := List.filter_eq_self.2 fun x hx =>
      hashed_of_tail_hashed h hl he x (by rw [hys]; exact List.mem_append_left _ hx)
    rw [hall, List.filter_cons_of_pos he, List.filter_nil, if_pos (by rw [List.length_map, hlen]),
      List.map_append, List.map_singleton, List.dropLast_concat]
  · have hshort : ((ys.filter (hashed t)).map fun x => (t.entries x).key).length ≠ cacheSize := by
      rw [List.length_map, ← hlen, List.length_append, List.length_singleton]
      exact Nat.ne_of_lt (Nat.lt_succ_of_le (List.length_filter_le _ _))
    rw [List.filter_cons_of_neg he, List.filter_nil, List.append_nil, if_neg hshort]

/-! ## Reachable states -/

/-- States reachable from `iotrace_create_inode_tracer` through `_lookup`, and
through `_map` right after a `_lookup` of the same inode that missed. -/
inductive CacheReachable : InodeTracer → Prop
  | created (fsm : Option Nat) : CacheReachable (createTracer fsm)
  | looked {t : InodeTracer} (inode : Inode) : CacheReachable t → CacheReachable (lookup t inode).2
  | mapped {t t' : InodeTracer} (inode : Inode) : CacheReachable t → (lookup t inode).1 = none →
      map (lookup t inode).2 inode = some t' → CacheReachable t'

/-- One lookup-guarded `_map` keeps the invariant. -/
theorem lookup_map_inv (h : CacheInv t) (hmiss : (lookup t inode).1 = none) {t' : InodeTracer}
    (hmap : map (lookup t inode).2 inode = some t') : CacheInv t' := by
  obtain ⟨t'', hm, hinv⟩ := map_inv (lookup_inv h inode) (lookup_miss_fresh h hmiss)
  rw [hmap] at hm
  exact Option.some.inj hm ▸ hinv

theorem CacheReachable.inv (hr : CacheReachable t) : CacheInv t := by
  induction hr with
  | created fsm => exact createTracer_inv fsm
  | looked inode _ ih => exact lookup_inv ih inode
  | mapped inode _ hmiss hmap ih => exact lookup_map_inv ih hmiss hmap

/-- The intrusive cache refines the bounded LRU list: on every reachable state
`_lookup` returns an entry iff the abstract list holds the inode's identity,
and changes the list as `lruLookup` does; a `_map` after a miss changes it as
`lruInsert` does. -/
theorem cache_refines_lru (hr : CacheReachable t) (inode : Inode) :
    ((lookup t inode).1.isSome = (lruLookup inode.key (lruKeys t)).1 ∧
      lruKeys (lookup t inode).2 = (lruLookup inode.key (lruKeys t)).2) ∧
    ((lookup t inode).1 = none → ∃ t', map (lookup t inode).2 inode = some t' ∧
      lruKeys t' = lruInsert inode.key (lruKeys (lookup t inode).2)) :=
  ⟨lookup_refines hr.inv inode, fun _ => map_refines (lookup_inv hr.inv inode) inode⟩

/-- A regular file, inode `2` on device `8`. -/
def cachedFile : Inode := ⟨2, 8, ⟨1, 0⟩, 0o100644⟩

/-- A later file with the same inode number on the same device, after the
first was deleted. -/
def recreatedFile : Inode := ⟨2, 8, ⟨7, 0⟩, 0o100644⟩

/-- The file is cached on a fresh tracer.  A `_lookup` of the file hits and
keeps it; a `_lookup` of the recreated file misses on the stale entry and
drops it, and its `_map` caches the new identity alone. -/
theorem cache_refines_lru_reused : ∃ t, CacheReachable t ∧ lruKeys t = [cachedFile.key] ∧
    (lookup t cachedFile).1.isSome = true ∧ lruKeys (lookup t cachedFile).2 = [cachedFile.key] ∧
    (lookup t recreatedFile).1 = none ∧ lruKeys (lookup t recreatedFile).2 = [] ∧
    ∃ t', map (lookup t recreatedFile).2 recreatedFile = some t' ∧
      lruKeys t' = [recreatedFile.key] := by
  obtain ⟨t, hm, hk⟩ := map_refines (createTracer_inv none) cachedFile
  rw [lruKeys_createTracer] at hk
  have hr : CacheReachable t := .mapped cachedFile (.created none)
    (by rw [lookup_createTracer]) (by rw [lookup_createTracer]; exact hm)
  obtain ⟨⟨hhit, hkeep⟩, -⟩ := cache_refines_lru hr cachedFile
  obtain ⟨⟨hstale, hdrop⟩, hmap⟩ := cache_refines_lru hr recreatedFile
  rw [hk] at hhit hkeep hstale hdrop
  have hmiss : (lookup t recreatedFile).1 = none :=
    Option.not_isSome_iff_eq_none.1 (by rw [hstale]; decide)
  obtain ⟨t', hm', hk'⟩ := hmap hmiss
  exact ⟨t, hr, hk.trans (by decide), hhit.trans (by decide), hkeep.trans (by decide), hmiss,
    hdrop.trans (by decide), t', hm', by rw [hk', hdrop]; decide⟩

end TraceInode.Lru
