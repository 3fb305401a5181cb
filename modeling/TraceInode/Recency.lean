import TraceInode.Lru
import Mathlib.Data.Finset.Card

/-!
# The cache keeps the identities used last

`iotrace_trace_inode` uses the cache in two ways: a `_lookup` alone, and a
`_lookup` followed, when it misses and the naming record is written, by
`_map` of the same inode.  Over every run of such uses the cache keeps the
promise of an LRU cache: an identity stays cached as long as fewer than
`CACHE_SIZE` other identities stand in front of it or are used by the run,
and no use looks its object up with another ctime (which `_lookup` takes for a
reused inode number and drops).

The argument runs on the abstract list of `TraceInode.Lru`.  Every identity
in front of the kept one belongs to a set `U` of identities used
(`FrontUsed`); `_map` evicts the kept one only from the last place of a full
list, which needs `CACHE_SIZE - 1` identities of `U` in front of it and a
fresh one, also in `U`.

## Main results

* `applyOp_refines` — each use is its abstract counterpart.
* `cache_keeps_recent` — the LRU promise over every run.
-/

namespace TraceInode.Recency

open TraceInode.Basic TraceInode.Cache TraceInode.Invariant TraceInode.Lru

/-! ## Runs of cache uses -/

/-- One use of the cache by the walk. -/
inductive CacheOp
  /-- `_lookup` alone: a hit, or a miss whose naming record was not written. -/
  | lookup (inode : Inode)
  /-- `_lookup`, then `_map` of the same inode when it missed. -/
  | lookupMap (inode : Inode)

/-- The inode a use looks up. -/
def CacheOp.inode : CacheOp → Inode
  | .lookup i => i
  | .lookupMap i => i

/-- One use on the cache; `none` where `_map` finds `lru_list` empty. -/
def applyOp (t : InodeTracer) : CacheOp → Option InodeTracer
  | .lookup i => some (lookup t i).2
  | .lookupMap i => if (lookup t i).1.isSome then some (lookup t i).2 else map (lookup t i).2 i

/-- A run of uses, first to last. -/
def runOps : InodeTracer → List CacheOp → Option InodeTracer
  | t, [] => some t
  | t, op :: ops => (applyOp t op).bind fun t' => runOps t' ops

/-- The abstract counterpart of one use. -/
def lruApply (l : List InodeKey) : CacheOp → List InodeKey
  | .lookup i => (lruLookup i.key l).2
  | .lookupMap i =>
    if (lruLookup i.key l).1 then (lruLookup i.key l).2 else lruInsert i.key (lruLookup i.key l).2

/-- On a cache with the invariant, a use returns, keeps the invariant, and
changes the abstract list as its abstract counterpart does. -/
theorem applyOp_refines {t : InodeTracer} (h : CacheInv t) (op : CacheOp) :
    ∃ t', applyOp t op = some t' ∧ CacheInv t' ∧ lruKeys t' = lruApply (lruKeys t) op := by
  cases op with
  | lookup i => exact ⟨_, rfl, lookup_inv h i, (lookup_refines h i).2⟩
  | lookupMap i =>
    obtain ⟨hhit, hkeys⟩ := lookup_refines h i
    by_cases hit : (lookup t i).1.isSome
    · refine ⟨_, if_pos hit, lookup_inv h i, ?_⟩
      rw [lruApply, ← hhit, if_pos hit, hkeys]
    · obtain ⟨t', hm, hk⟩ := map_refines (lookup_inv h i) i
      have hmiss : (lookup t i).1 = none := by simpa using hit
      refine ⟨t', by rw [applyOp, if_neg hit, hm], lookup_map_inv h hmiss hm, ?_⟩
      rw [lruApply, ← hhit, if_neg hit, hk, hkeys]

theorem runOps_cons_of_applyOp {t t₁ : InodeTracer} {op : CacheOp} (h : applyOp t op = some t₁)
    (ops : List CacheOp) : runOps t (op :: ops) = runOps t₁ ops := by
  simp [runOps, h]

/-- Two runs one after the other are the run of both. -/
theorem runOps_append (t : InodeTracer) (ops ops' : List CacheOp) :
    runOps t (ops ++ ops') = (runOps t ops).bind fun t' => runOps t' ops' := by
  induction ops generalizing t with
  | nil => rfl
  | cons op ops ih => simp only [List.cons_append, runOps, Option.bind_assoc, List.append_eq, ih]

theorem runOps_inv {t t' : InodeTracer} (ht : CacheInv t) {ops : List CacheOp}
    (h : runOps t ops = some t') : CacheInv t' := by
  induction ops generalizing t with
  | nil => exact Option.some.inj h ▸ ht
  | cons op ops ih =>
    obtain ⟨t₁, h₁, ht₁, -⟩ := applyOp_refines ht op
    rw [runOps_cons_of_applyOp h₁] at h
    exact ih ht₁ h

/-! ## Identities in front of a cached one -/

/-- `k` is in `l`, and every identity in front of it is in `U`. -/
def FrontUsed (k : InodeKey) (l : List InodeKey) (U : Finset InodeKey) : Prop :=
  ∃ pre suf, l = pre ++ k :: suf ∧ ∀ x ∈ pre, x ∈ U

section FrontUsed

variable {k k' : InodeKey} {l : List InodeKey} {U : Finset InodeKey}

theorem FrontUsed.mem (h : FrontUsed k l U) : k ∈ l := by
  obtain ⟨pre, suf, rfl, -⟩ := h
  simp

/-- A lookup of `k` itself moves it to the front. -/
private theorem frontUsed_lruLookup_self (hk : k ∈ l) : FrontUsed k (lruLookup k l).2 U :=
  ⟨[], l.erase k, by simp [lruLookup, hk], fun _ h => by cases h⟩

/-- A lookup-guarded `_map` of an inode puts its identity in front. -/
theorem frontUsed_lruApply_lookupMap (i : Inode) :
    FrontUsed i.key (lruApply l (.lookupMap i)) U := by
  by_cases hk : i.key ∈ l
  · exact ⟨[], l.erase i.key, by simp [TraceInode.Recency.lruApply, TraceInode.Lru.lruLookup, hk],
      fun _ h => by cases h⟩
  · have e : lruApply l (.lookupMap i) =
        lruInsert i.key (l.filter fun x => !i.key.sameObject x) := by
      simp [TraceInode.Recency.lruApply, TraceInode.Lru.lruLookup, hk]
    rw [e]
    exact ⟨[], _, rfl, fun _ h => by cases h⟩

/-- A lookup of another object puts at most the looked-up identity in front
of `k`. -/
theorem FrontUsed.lruLookup (h : FrontUsed k l U) (hk'U : k' ∈ U)
    (hobj : k'.sameObject k = false) : FrontUsed k (lruLookup k' l).2 U := by
  have hne : k' ≠ k := fun e => by simp [e] at hobj
  obtain ⟨pre, suf, rfl, hpre⟩ := h
  have hfront : ∀ x ∈ k' :: pre, x ∈ U := fun x hx =>
    (List.mem_cons.1 hx).elim (fun e => e ▸ hk'U) (hpre x)
  unfold TraceInode.Lru.lruLookup
  split_ifs with hk'
  · by_cases hp : k' ∈ pre
    · refine ⟨k' :: pre.erase k', suf, by rw [List.erase_append_left _ hp]; rfl, fun x hx => ?_⟩
      exact hfront x (List.mem_cons.1 hx |>.imp_right List.mem_of_mem_erase |> List.mem_cons.2)
    · refine ⟨k' :: pre, suf.erase k', ?_, hfront⟩
      rw [List.erase_append_right _ hp, List.erase_cons_tail (by simpa using hne.symm)]
      rfl
  · refine ⟨pre.filter fun x => !k'.sameObject x, suf.filter fun x => !k'.sameObject x, ?_,
      fun x hx => hpre x (List.mem_of_mem_filter hx)⟩
    simp [List.filter_append, hobj]

/-- `_map` of a fresh identity of `U` keeps `k` unless `k` is last in a full
list: then `CACHE_SIZE - 1` identities of `U` stand in front of it, and with
the fresh one `U` has `CACHE_SIZE` identities other than `k`. -/
theorem FrontUsed.lruInsert (h : FrontUsed k l U) (hl : l.Nodup) (hk' : k' ∉ l) (hk'U : k' ∈ U)
    (hcard : (U.erase k).card < cacheSize) : FrontUsed k (lruInsert k' l) U := by
  obtain ⟨pre, suf, rfl, hpre⟩ := h
  have hfront : ∀ x ∈ k' :: pre, x ∈ U := fun x hx =>
    (List.mem_cons.1 hx).elim (fun e => e ▸ hk'U) (hpre x)
  obtain ⟨hpre_nd, -, hdisj⟩ := List.pairwise_append.1 hl
  unfold TraceInode.Lru.lruInsert
  split_ifs with hlen
  · have hsuf : suf ≠ [] := by
      rintro rfl
      have hnd : (k' :: pre).Nodup :=
        List.nodup_cons.2 ⟨fun hp => hk' (List.mem_append_left _ hp), hpre_nd⟩
      have hsub : (k' :: pre).toFinset ⊆ U.erase k := fun x hx => by
        rw [List.mem_toFinset] at hx
        refine Finset.mem_erase.2 ⟨?_, hfront x hx⟩
        rintro rfl
        rcases List.mem_cons.1 hx with e | hp
        · exact hk' (e ▸ List.mem_append_right _ (List.mem_singleton_self _))
        · exact hdisj _ hp _ (List.mem_cons_self _ _) rfl
      have hle := Finset.card_le_card hsub
      rw [List.toFinset_card_of_nodup hnd] at hle
      simp only [List.length_append, List.length_singleton] at hlen
      simp only [List.length_cons] at hle
      omega
    refine ⟨k' :: pre, suf.dropLast, ?_, hfront⟩
    rw [List.dropLast_append_of_ne_nil _ (List.cons_ne_nil _ _), List.dropLast_cons_of_ne_nil hsuf]
    rfl
  · exact ⟨k' :: pre, suf, rfl, hfront⟩

/-- One use of an identity of `U`, which is `k` or not of `k`'s object, keeps
`k` with only identities of `U` in front of it. -/
private theorem FrontUsed.lruApply (h : FrontUsed k l U) (hl : l.Nodup) (op : CacheOp)
    (hU : op.inode.key ∈ U) (hobj : op.inode.key.sameObject k = true → op.inode.key = k)
    (hcard : (U.erase k).card < cacheSize) : FrontUsed k (lruApply l op) U := by
  by_cases hk : op.inode.key = k
  · have hself : FrontUsed k (TraceInode.Lru.lruLookup k l).2 U := frontUsed_lruLookup_self h.mem
    cases op <;> simp only [CacheOp.inode] at hk <;> subst hk
    · exact hself
    · simpa [TraceInode.Recency.lruApply, TraceInode.Lru.lruLookup, h.mem] using hself
  · have hlook := h.lruLookup hU (by simpa using mt hobj hk)
    cases op with
    | lookup i => exact hlook
    | lookupMap i =>
      simp only [CacheOp.inode] at hlook hU
      simp only [TraceInode.Recency.lruApply]
      split_ifs with hit
      · exact hlook
      · have hnot : i.key ∉ l := fun hi => hit (by simp [TraceInode.Lru.lruLookup, hi])
        simp only [TraceInode.Lru.lruLookup, if_neg hnot] at hlook ⊢
        exact hlook.lruInsert (hl.filter _) (fun hi => hnot (List.mem_of_mem_filter hi)) hU hcard

end FrontUsed

/-! ## The promise over runs -/

/-- A run whose uses are all of identities of `U`, none of them another
identity of `k`'s object, keeps `k` cached with only identities of `U` in
front of it, while `U` has fewer than `CACHE_SIZE` identities other than `k`. -/
theorem runOps_frontUsed {k : InodeKey} {U : Finset InodeKey}
    (hcard : (U.erase k).card < cacheSize) :
    ∀ (ops : List CacheOp) (t : InodeTracer), CacheInv t → FrontUsed k (lruKeys t) U →
      (∀ op ∈ ops, op.inode.key ∈ U) →
      (∀ op ∈ ops, op.inode.key.sameObject k = true → op.inode.key = k) →
      ∃ t', runOps t ops = some t' ∧ k ∈ lruKeys t'
  | [], t, _, h, _, _ => ⟨t, rfl, h.mem⟩
  | op :: ops, t, ht, h, hU, hobj => by
    obtain ⟨t₁, h₁, ht₁, hk₁⟩ := applyOp_refines ht op
    have hfront := h.lruApply (lruKeys_nodup ht) op (hU op (List.mem_cons_self _ _))
      (hobj op (List.mem_cons_self _ _)) hcard
    rw [← hk₁] at hfront
    obtain ⟨t', h', hk'⟩ := runOps_frontUsed hcard ops t₁ ht₁ hfront
      (fun o ho => hU o (List.mem_cons_of_mem _ ho))
      (fun o ho => hobj o (List.mem_cons_of_mem _ ho))
    exact ⟨t', by simp [runOps, h₁, h'], hk'⟩

/-- **The cache keeps what was used last.**  On a cache with the invariant
whose abstract list is `pre ++ k :: suf`, every run of `_lookup`s and
lookup-guarded `_map`s returns and leaves `k` cached, provided no use looks up
`k`'s object with another ctime and fewer than `CACHE_SIZE` distinct
identities other than `k` are in `pre` or used by the run. -/
theorem cache_keeps_recent {t : InodeTracer} {k : InodeKey} {pre suf : List InodeKey}
    (ht : CacheInv t) (hsplit : lruKeys t = pre ++ k :: suf) (ops : List CacheOp)
    (hobj : ∀ op ∈ ops, op.inode.key.sameObject k = true → op.inode.key = k)
    (hfew : ((pre ++ ops.map (·.inode.key)).toFinset.erase k).card < cacheSize) :
    ∃ t', runOps t ops = some t' ∧ k ∈ lruKeys t' :=
  runOps_frontUsed hfew ops t ht
    ⟨pre, suf, hsplit, fun _ hx => List.mem_toFinset.2 (List.mem_append_left _ hx)⟩
    (fun _ hop => List.mem_toFinset.2 (List.mem_append_right _ (List.mem_map_of_mem _ hop))) hobj

/-- A directory `_map`ped into a fresh cache. -/
def recentDir : Inode := ⟨2, 8, ⟨1, 0⟩, 0o040755⟩

theorem cache_keeps_recent_dir :
    ∃ t₁ t', applyOp (createTracer none) (.lookupMap recentDir) = some t₁ ∧
      runOps t₁ [.lookupMap ⟨3, 8, ⟨1, 0⟩, 0o100644⟩, .lookup ⟨4, 8, ⟨1, 0⟩, 0o100644⟩,
        .lookupMap recentDir] = some t' ∧ recentDir.key ∈ lruKeys t' := by
  obtain ⟨t₁, h₁, ht₁, hk₁⟩ := applyOp_refines (createTracer_inv none) (.lookupMap recentDir)
  have hsplit : lruKeys t₁ = [] ++ recentDir.key :: [] := by
    rw [hk₁, lruKeys_createTracer]
    rfl
  obtain ⟨t', h', hk'⟩ := cache_keeps_recent ht₁ hsplit [.lookupMap ⟨3, 8, ⟨1, 0⟩, 0o100644⟩,
      .lookup ⟨4, 8, ⟨1, 0⟩, 0o100644⟩, .lookupMap recentDir] (by decide)
    (Finset.card_erase_le.trans_lt ((List.toFinset_card_le _).trans_lt (by simp [cacheSize_eq])))
  exact ⟨t₁, t', h₁, h', hk'⟩

end TraceInode.Recency
