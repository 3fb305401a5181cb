import TraceInode.Basic
import Mathlib.Data.List.FinRange
import Mathlib.Logic.Function.Basic

/-!
# The inode cache of one inode tracer

`struct iotrace_inode_tracer` holds a fixed arena of `CACHE_SIZE` entries,
an intrusive LRU list threaded through them and a hash table of
`1 << CACHE_HASH_BITS` chains, also threaded through them.  Here the arena is
indexed by `Fin cacheSize` and both intrusive structures become secondary
indices over those indices:

* `lruList` is the LRU list read from its head (most recently used) to its
  tail, the order `list_add` / `list_add_tail` / `list_last_entry` see;
* `hashTable b` is chain `b` read from its first node;
* `hashNode e` abstracts the `pprev` link of entry `e`'s `hlist_node`: the
  chain it is linked into, or `none` once `INIT_HLIST_NODE` / `hash_del`
  have cleared it.

`list_last_entry` on an empty list hands back the list head itself,
reinterpreted as an entry; `getEntry` returns `none` there, and `map`
propagates it, so that reaching that case is visible in the model.
-/

namespace TraceInode.Cache

open TraceInode.Basic

/-! ## Sizes and the bucket function -/

/-- `CACHE_HASH_BITS`. -/
def cacheHashBits : Nat := 10

/-- `CACHE_HASH_SIZE`, defined as `2ULL << CACHE_HASH_BITS`. -/
def cacheHashSize : Nat := 2 <<< cacheHashBits

/-- `CACHE_SIZE`, the number of arena entries. -/
def cacheSize : Nat := cacheHashSize * 4

/-- Number of chains `DECLARE_HASHTABLE(hash_table, CACHE_HASH_BITS)`
declares: `1 << CACHE_HASH_BITS`. -/
def hashTableSize : Nat := 1 <<< cacheHashBits

theorem cacheSize_eq : cacheSize = 8192 := rfl

private theorem hashTableSize_eq : hashTableSize = 1024 := rfl

/-- `GOLDEN_RATIO_64` of `<linux/hash.h>`. -/
def goldenRatio64 : Nat := 0x61C8864680B583EB

/-- `hash_64(val, bits)`: the 64-bit product with `GOLDEN_RATIO_64`, top
`bits` bits. -/
def hash64 (val : UInt64) (bits : Nat) : Nat :=
  val.toNat * goldenRatio64 % 2 ^ 64 / 2 ^ (64 - bits)

private theorem hash64_lt (val : UInt64) {bits : Nat} (h : bits ≤ 64) :
    hash64 val bits < 2 ^ bits := by
  have hmod : val.toNat * goldenRatio64 % 2 ^ 64 < 2 ^ (64 - bits) * 2 ^ bits := by
    rw [← Nat.pow_add, Nat.sub_add_cancel h]
    exact Nat.mod_lt _ (Nat.two_pow_pos 64)
  exact Nat.div_lt_of_lt_mul hmod

/-- `hash_min(key, HASH_BITS(hash_table))` for an `unsigned long` key: the
chain an inode number is hashed to, by both `hash_add` and
`hash_for_each_possible_safe`. -/
def hashMin (key : UInt64) : Fin hashTableSize :=
  ⟨hash64 key cacheHashBits, by
    simpa [hashTableSize, Nat.shiftLeft_eq] using @hash64_lt key cacheHashBits (by decide)⟩

/-! ## Entries and the tracer -/

/-- Index of an entry of the arena `entries[CACHE_SIZE]`. -/
abbrev EntryIdx := Fin cacheSize

/-- The data fields of `struct cache_entry`; its `lru` and `hash` members are
the tracer's `lruList` and `hashNode`. -/
structure CacheEntry where
  inodeId : UInt64
  ctime : Timespec
  deviceId : UInt32
deriving DecidableEq, Repr

/-- The triple an entry holds. -/
def CacheEntry.key (c : CacheEntry) : InodeKey := ⟨c.deviceId, c.inodeId, c.ctime⟩

/-- `struct iotrace_inode_tracer`.  `fsm` is the address of the shared
`fs_monitor`, `none` for `NULL`. -/
structure InodeTracer where
  hashTable : Fin hashTableSize → List EntryIdx
  lruList : List EntryIdx
  entries : EntryIdx → CacheEntry
  hashNode : EntryIdx → Option (Fin hashTableSize)
  fsm : Option Nat

/-- `!hlist_unhashed(&entry->hash)`. -/
def hashed (t : InodeTracer) (e : EntryIdx) : Bool := (t.hashNode e).isSome

/-! ## List and hash-table primitives -/

/-- `list_del(&entry->lru)`. -/
def listDel (t : InodeTracer) (e : EntryIdx) : InodeTracer :=
  { t with lruList := t.lruList.erase e }

/-- `list_add(&entry->lru, &lru_list)`: insert at the head. -/
def listAdd (t : InodeTracer) (e : EntryIdx) : InodeTracer :=
  { t with lruList := e :: t.lruList }

/-- `list_add_tail(&entry->lru, &lru_list)`: insert at the tail. -/
def listAddTail (t : InodeTracer) (e : EntryIdx) : InodeTracer :=
  { t with lruList := t.lruList ++ [e] }

/-- `hash_del(&entry->hash)`, that is `hlist_del_init`: a hashed node is
unlinked from the chain its `pprev` points into and reinitialised; an
unhashed node is left alone. -/
def hashDel (t : InodeTracer) (e : EntryIdx) : InodeTracer :=
  { t with
    hashTable := fun b => if t.hashNode e = some b then (t.hashTable b).erase e else t.hashTable b
    hashNode := Function.update t.hashNode e none }

/-- `hash_add(hash_table, &entry->hash, key)`: push on the front of the
key's chain. -/
def hashAdd (t : InodeTracer) (e : EntryIdx) (key : UInt64) : InodeTracer :=
  { t with
    hashTable := Function.update t.hashTable (hashMin key) (e :: t.hashTable (hashMin key))
    hashNode := Function.update t.hashNode e (some (hashMin key)) }

/-! ## The cache operations of `trace_inode.c` -/

/-- `_set_hot`: move an entry to the head of the LRU list. -/
def setHot (t : InodeTracer) (e : EntryIdx) : InodeTracer :=
  listAdd (listDel t e) e

/-- `_get_entry`: take the LRU tail, unlink it from the LRU list and from its
chain.  `none` is `list_last_entry` of an empty list. -/
def getEntry (t : InodeTracer) : Option (EntryIdx × InodeTracer) :=
  t.lruList.getLast?.map fun e => (e, hashDel (listDel t e) e)

/-- The three stores `_map` makes into the victim entry. -/
def setEntry (t : InodeTracer) (e : EntryIdx) (inode : Inode) : InodeTracer :=
  { t with entries := Function.update t.entries e ⟨inode.iIno, inode.iCtime, inode.sDev⟩ }

/-- `_map`: recycle the LRU tail for `inode`, put it at the head of the LRU
list and on the chain of `inode->i_ino`. -/
def map (t : InodeTracer) (inode : Inode) : Option InodeTracer :=
  (getEntry t).map fun (e, t) => hashAdd (listAdd (setEntry t e inode) e) e inode.iIno

/-- `_remove_entry`: unlink an entry from the LRU list and its chain and put
it back at the LRU tail, where `_get_entry` reuses it first. -/
def removeEntry (t : InodeTracer) (e : EntryIdx) : InodeTracer :=
  listAddTail (hashDel (listDel t e) e) e

/-- The body of `hash_for_each_possible_safe` in `_lookup`, over the chain
as it was when the iteration began (the safe iterator has read `next` before
the body unlinks the current node). -/
def lookupChain (inode : Inode) : List EntryIdx → InodeTracer → Option EntryIdx × InodeTracer
  | [], t => (none, t)
  | e :: rest, t =>
    if inode.key.sameObject (t.entries e).key then
      if inode.iCtime = (t.entries e).ctime then (some e, setHot t e)
      else lookupChain inode rest (removeEntry t e)
    else lookupChain inode rest t

/-- `_lookup`: scan the chain of `inode->i_ino`; an entry for the same
`(inode_id, device_id)` is a hit when its ctime matches and is removed as
stale otherwise. -/
def lookup (t : InodeTracer) (inode : Inode) : Option EntryIdx × InodeTracer :=
  lookupChain inode (t.hashTable (hashMin inode.iIno)) t

/-! ## Construction -/

/-- An entry as `vzalloc_node` leaves it. -/
def zeroEntry : CacheEntry := ⟨0, zeroTimespec, 0⟩

/-- The LRU list after the initialisation loop of
`iotrace_create_inode_tracer`: `list_add` of entry `i` for `i` from `0` to
`CACHE_SIZE - 1`.  Irreducible, so that unification never runs the
8192-step loop; `initLru_eq` gives its value. -/
@[irreducible] def initLru : List EntryIdx :=
  (List.finRange cacheSize).foldl (fun lru i => i :: lru) []

/-- The cache of a freshly created tracer, with the monitor `_fsm_init` gave
it: empty chains, every node unhashed, every entry on the LRU list. -/
def createTracer (fsm : Option Nat) : InodeTracer where
  hashTable := fun _ => []
  lruList := initLru
  entries := fun _ => zeroEntry
  hashNode := fun _ => none
  fsm := fsm

/-! ## Field lemmas -/

section Create

variable (fsm : Option Nat)

@[simp] theorem createTracer_lruList : (createTracer fsm).lruList = initLru := rfl
@[simp] theorem createTracer_hashTable : (createTracer fsm).hashTable = fun _ => [] := rfl
@[simp] theorem createTracer_hashNode : (createTracer fsm).hashNode = fun _ => none := rfl
@[simp] theorem createTracer_entries : (createTracer fsm).entries = fun _ => zeroEntry := rfl
@[simp] theorem createTracer_fsm : (createTracer fsm).fsm = fsm := rfl

end Create

section Fields

variable (t : InodeTracer) (e : EntryIdx) (inode : Inode) (key : UInt64)

@[simp] theorem listDel_lruList : (listDel t e).lruList = t.lruList.erase e := rfl
@[simp] theorem listDel_hashTable : (listDel t e).hashTable = t.hashTable := rfl
@[simp] theorem listDel_hashNode : (listDel t e).hashNode = t.hashNode := rfl
@[simp] theorem listDel_entries : (listDel t e).entries = t.entries := rfl
@[simp] theorem listDel_fsm : (listDel t e).fsm = t.fsm := rfl

@[simp] theorem listAdd_lruList : (listAdd t e).lruList = e :: t.lruList := rfl
@[simp] theorem listAdd_hashTable : (listAdd t e).hashTable = t.hashTable := rfl
@[simp] theorem listAdd_hashNode : (listAdd t e).hashNode = t.hashNode := rfl
@[simp] theorem listAdd_entries : (listAdd t e).entries = t.entries := rfl
@[simp] theorem listAdd_fsm : (listAdd t e).fsm = t.fsm := rfl

@[simp] theorem listAddTail_lruList : (listAddTail t e).lruList = t.lruList ++ [e] := rfl
@[simp] theorem listAddTail_hashTable : (listAddTail t e).hashTable = t.hashTable := rfl
@[simp] theorem listAddTail_hashNode : (listAddTail t e).hashNode = t.hashNode := rfl
@[simp] theorem listAddTail_entries : (listAddTail t e).entries = t.entries := rfl
@[simp] theorem listAddTail_fsm : (listAddTail t e).fsm = t.fsm := rfl

@[simp] theorem hashDel_lruList : (hashDel t e).lruList = t.lruList := rfl
@[simp] theorem hashDel_entries : (hashDel t e).entries = t.entries := rfl
@[simp] theorem hashDel_fsm : (hashDel t e).fsm = t.fsm := rfl
@[simp] theorem hashDel_hashNode : (hashDel t e).hashNode = Function.update t.hashNode e none := rfl
theorem hashDel_hashTable (b : Fin hashTableSize) :
    (hashDel t e).hashTable b =
      if t.hashNode e = some b then (t.hashTable b).erase e else t.hashTable b := rfl

@[simp] theorem hashAdd_lruList : (hashAdd t e key).lruList = t.lruList := rfl
@[simp] theorem hashAdd_entries : (hashAdd t e key).entries = t.entries := rfl
@[simp] theorem hashAdd_fsm : (hashAdd t e key).fsm = t.fsm := rfl
@[simp] theorem hashAdd_hashNode :
    (hashAdd t e key).hashNode = Function.update t.hashNode e (some (hashMin key)) := rfl

@[simp] theorem setEntry_lruList : (setEntry t e inode).lruList = t.lruList := rfl
@[simp] theorem setEntry_hashTable : (setEntry t e inode).hashTable = t.hashTable := rfl
@[simp] theorem setEntry_hashNode : (setEntry t e inode).hashNode = t.hashNode := rfl
@[simp] theorem setEntry_fsm : (setEntry t e inode).fsm = t.fsm := rfl

@[simp] theorem setHot_lruList : (setHot t e).lruList = e :: t.lruList.erase e := rfl
@[simp] theorem setHot_hashTable : (setHot t e).hashTable = t.hashTable := rfl
@[simp] theorem setHot_hashNode : (setHot t e).hashNode = t.hashNode := rfl
@[simp] theorem setHot_entries : (setHot t e).entries = t.entries := rfl
@[simp] theorem setHot_fsm : (setHot t e).fsm = t.fsm := rfl

@[simp] theorem removeEntry_lruList : (removeEntry t e).lruList = t.lruList.erase e ++ [e] := rfl
@[simp] theorem removeEntry_hashTable : (removeEntry t e).hashTable = (hashDel t e).hashTable := rfl
@[simp] theorem removeEntry_hashNode :
    (removeEntry t e).hashNode = Function.update t.hashNode e none := rfl
@[simp] theorem removeEntry_entries : (removeEntry t e).entries = t.entries := rfl
@[simp] theorem removeEntry_fsm : (removeEntry t e).fsm = t.fsm := rfl

end Fields

/-- `_lookup` changes neither the data fields of any entry nor the monitor. -/
private theorem lookupChain_entries_fsm (inode : Inode) :
    ∀ (l : List EntryIdx) (t : InodeTracer),
      (lookupChain inode l t).2.entries = t.entries ∧ (lookupChain inode l t).2.fsm = t.fsm
  | [], _ => ⟨rfl, rfl⟩
  | e :: rest, t => by
    unfold lookupChain
    split
    · split
      · exact ⟨rfl, rfl⟩
      · exact lookupChain_entries_fsm inode rest _
    · exact lookupChain_entries_fsm inode rest t

@[simp] theorem lookup_fsm (t : InodeTracer) (inode : Inode) : (lookup t inode).2.fsm = t.fsm :=
  (lookupChain_entries_fsm inode _ t).2

@[simp] theorem lookup_entries (t : InodeTracer) (inode : Inode) :
    (lookup t inode).2.entries = t.entries :=
  (lookupChain_entries_fsm inode _ t).1

theorem map_fsm {t t' : InodeTracer} {inode : Inode} (h : map t inode = some t') :
    t'.fsm = t.fsm := by
  simp only [map, getEntry, Option.map_map, Option.map_eq_some'] at h
  obtain ⟨e, -, rfl⟩ := h
  rfl

end TraceInode.Cache
