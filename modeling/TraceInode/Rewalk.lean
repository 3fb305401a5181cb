import TraceInode.WalkCache

/-!
# A second walk over the same chain stops at once

`iotrace_trace_inode` walks from an inode towards the root and stops at the
first object it finds in the cache.  What the cache buys is that a chain is
walked once: after a walk in which every naming record was committed, the
first object of the chain is in the cache, so the next walk from it hits at
once, reserves and writes nothing, and leaves the cached identities as they
were (`rewalk_hits_at_once`).

The first object is mapped first.  Each later level of the walk inserts at
most one identity in front of it, and a missed `_lookup` drops only identities
of the object looked up, so after `j` levels it stands among the first `j`
identities of the abstract LRU list (`InFront`).  On a chain of at most
`CACHE_SIZE` objects it is therefore never the identity a full cache evicts.
The argument runs on the abstract list of `TraceInode.Lru`, through
`lookup_refines` and `map_refines`.
-/

namespace TraceInode.Rewalk

open TraceInode.Basic TraceInode.Cache TraceInode.Invariant TraceInode.Lru TraceInode.Walk
  TraceInode.WalkCache

/-! ## Ancestor chains -/

/-- `c` lists a dentry and its ancestors up to a root, each with its inode:
the next dentry is `dget_parent` of the previous one, and the last has no
parent or is its own parent. -/
inductive AncestorChain (fs : Dcache) : List (Nat × Inode) → Prop
  | root {d : Nat} {i : Inode} : fs.dInode d = some i →
      (fs.dgetParent d = none ∨ fs.dgetParent d = some d) → AncestorChain fs [(d, i)]
  | cons {d p : Nat} {i pi : Inode} {c : List (Nat × Inode)} : fs.dInode d = some i →
      fs.dgetParent d = some p → AncestorChain fs ((p, pi) :: c) →
      AncestorChain fs ((d, i) :: (p, pi) :: c)

theorem AncestorChain.head_inode {fs : Dcache} {d : Nat} {i : Inode} {c : List (Nat × Inode)}
    (h : AncestorChain fs ((d, i) :: c)) : fs.dInode d = some i := by
  cases h <;> assumption

/-! ## Places in the abstract list -/

/-- `k` stands among the first `j` identities of `l`. -/
def InFront (k : InodeKey) (l : List InodeKey) (j : Nat) : Prop :=
  ∃ pre suf, l = pre ++ k :: suf ∧ pre.length < j

section InFront

variable {k k' : InodeKey} {l : List InodeKey} {j : Nat}

theorem InFront.mem (h : InFront k l j) : k ∈ l := by
  obtain ⟨pre, suf, rfl, -⟩ := h
  simp

private theorem inFront_lruInsert_self (hj : 0 < j) : InFront k (lruInsert k l) j :=
  ⟨[], _, rfl, hj⟩

/-- A miss on another object keeps `k` where it was or moves it forward. -/
private theorem InFront.lruLookup_miss (h : InFront k l j) (hk' : k' ∉ l)
    (hk : k'.sameObject k = false) : InFront k (lruLookup k' l).2 j := by
  obtain ⟨pre, suf, rfl, hj⟩ := h
  have hfilter := List.length_filter_le (fun x => !k'.sameObject x) pre
  refine ⟨pre.filter _, suf.filter fun x => !k'.sameObject x, ?_, hfilter.trans_lt hj⟩
  simp [lruLookup, hk', List.filter_append, hk]

/-- An insertion moves `k` back one place, and evicts it only from the last
place of a full list. -/
theorem InFront.lruInsert (h : InFront k l j) (hj : j < cacheSize) :
    InFront k (lruInsert k' l) (j + 1) := by
  obtain ⟨pre, suf, rfl, hpre⟩ := h
  unfold TraceInode.Lru.lruInsert
  split_ifs with hlen
  · have hsuf : suf ≠ [] := by
      rintro rfl
      simp only [List.length_append, List.length_singleton] at hlen
      omega
    refine ⟨k' :: pre, suf.dropLast, ?_, by simpa using hpre⟩
    rw [List.dropLast_append_of_ne_nil _ (List.cons_ne_nil _ _), List.dropLast_cons_of_ne_nil hsuf]
    rfl
  · exact ⟨k' :: pre, suf, rfl, by simpa using hpre⟩

end InFront

/-! ## Hits and misses on the abstract list -/

section Lookup

variable {t : InodeTracer} {i : Inode}

/-- `_lookup` hits exactly on the identities of the abstract list. -/
theorem lookup_isSome_iff (h : CacheInv t) (i : Inode) :
    (lookup t i).1.isSome ↔ i.key ∈ lruKeys t := by
  rw [(lookup_refines h i).1]
  by_cases hk : i.key ∈ lruKeys t <;> simp [lruLookup, hk]

/-- A hit moves the identity to the front and keeps every other one. -/
private theorem lruKeys_lookup_hit (h : CacheInv t) (hk : i.key ∈ lruKeys t) :
    lruKeys (lookup t i).2 = i.key :: (lruKeys t).erase i.key := by
  rw [(lookup_refines h i).2, lruLookup, if_pos hk]

private theorem mem_lruKeys_lookup_hit (h : CacheInv t) (hit : (lookup t i).1.isSome) {k : InodeKey}
    (hk : k = i.key ∨ k ∈ lruKeys t) : k ∈ lruKeys (lookup t i).2 := by
  rw [lruKeys_lookup_hit h ((lookup_isSome_iff h i).1 hit)]
  by_cases hki : k = i.key
  · exact hki ▸ List.mem_cons_self _ _
  · exact List.mem_cons_of_mem _ ((List.mem_erase_of_ne hki).2 (hk.resolve_left hki))

end Lookup

/-! ## Reservations of a walk -/

section Reserved

variable {env : WalkEnv} {s s' : WalkState} {i : Inode} {d : Nat}

private theorem traceAndMap_reserved {pi : Option Inode} (h : traceAndMap env s i d pi = some s') :
    s'.reserved = s.reserved + 1 := by
  simp only [traceAndMap, traceFilename] at h
  split at h <;> split at h
  all_goals first
    | (cases h; rfl)
    | (obtain ⟨_, -, rfl⟩ := Option.map_eq_some'.1 h; rfl)

/-- Every miss reserves one naming record, committed or not. -/
private theorem missStep_reserved {pi : Option Inode} {pd : Option Nat}
    (h : missStep env s i d = some (pi, pd, s')) : s'.reserved = s.reserved + 1 := by
  obtain ⟨-, s₁, s₂, hw, ht, rfl⟩ := missStep_eq_some h
  rw [dput_reserved, traceAndMap_reserved ht, (watchParent_eq_some hw).2.2.2.1, dgetOpt_reserved]

private theorem walkLoop_reserved_le :
    ∀ (fuel : Nat) (s : WalkState) (i : Inode) (d : Nat) (pd : Option Nat) {s' : WalkState},
      walkLoop env fuel s i d pd = .done s' → s.reserved ≤ s'.reserved
  | 0, _, _, _, _, _, h => by simp [walkLoop] at h
  | fuel + 1, s, i, d, pd, s', h => by
    simp only [walkLoop] at h
    split at h
    · cases h
      simp
    · split at h
      · cases h
      · rename_i hm
        have hle := walkLoop_reserved_le fuel _ _ _ _ h
        rw [missStep_reserved hm, withTracer_reserved] at hle
        omega
      · rename_i hm
        cases h
        simp [missStep_reserved hm]

/-- A missed `_lookup` in a run whose reservations are all committed: the
parent is `dget_parent` of the dentry, `_map` inserts the identity in front of
what the lookup left, and the rest of the run still commits its records. -/
private theorem missStep_committed {pi : Option Inode} {pd : Option Nat} {s₁ : WalkState}
    (ht : CacheInv s.tracer) (hmiss : (lookup s.tracer i).1 = none)
    (hm : missStep env (s.withTracer (lookup s.tracer i).2) i d = some (pi, pd, s₁))
    (hle : s₁.reserved ≤ s'.reserved)
    (hok : ∀ n, s.reserved ≤ n → n < s'.reserved → env.reserve n ≠ none) :
    pd = env.fs.dgetParent d ∧ pi = pd.bind env.fs.dInode ∧ CacheInv s₁.tracer ∧
      lruKeys s₁.tracer = lruInsert i.key (lruLookup i.key (lruKeys s.tracer)).2 ∧
      ∀ n, s₁.reserved ≤ n → n < s'.reserved → env.reserve n ≠ none := by
  have hr : s₁.reserved = s.reserved + 1 := by simpa using missStep_reserved hm
  obtain ⟨hpd, hpi, -, hrec⟩ := missStep_cache hm
  rcases hrec with ⟨hfull, -⟩ | ⟨-, -, -, -, hmap⟩
  · exact (hok _ le_rfl (by omega) hfull).elim
  rw [withTracer_tracer] at hmap
  obtain ⟨t', hmap', hkeys⟩ := map_refines (lookup_inv ht i) i
  obtain rfl : t' = s₁.tracer := Option.some.inj (hmap'.symm.trans hmap)
  rw [hkeys, (lookup_refines ht i).2]
  exact ⟨hpd, hpi, lookup_map_inv ht hmiss hmap, rfl, fun n h₁ h₂ => hok n (by omega) h₂⟩

end Reserved

/-! ## The first walk keeps the first object cached -/

variable {env : WalkEnv}

/-- A run of the loop over the rest of a chain, every reservation of which is
committed.  `k` is the identity of the chain's first object: the object at
hand, or one already among the first `j` cached identities, with at most
`CACHE_SIZE - j` objects left.  The run ends with `k` cached. -/
private theorem walkLoop_keeps_first {k : InodeKey} :
    ∀ (fuel : Nat) (c : List (Nat × Inode)) (s s' : WalkState) (d : Nat) (i : Inode) (j : Nat),
      walkLoop env fuel s i d none = .done s' → AncestorChain env.fs ((d, i) :: c) →
      (∀ x ∈ c, x.2.key.sameObject k = false) → j + c.length < cacheSize →
      (∀ n, s.reserved ≤ n → n < s'.reserved → env.reserve n ≠ none) → CacheInv s.tracer →
      (k = i.key ∨ i.key.sameObject k = false ∧ InFront k (lruKeys s.tracer) j) →
      CacheInv s'.tracer ∧ k ∈ lruKeys s'.tracer
  | 0, _, _, _, _, _, _, h, _, _, _, _, _, _ => by simp [walkLoop] at h
  | fuel + 1, c, s, s', d, i, j, h, hc, hk, hj, hok, ht, hpos => by
    simp only [walkLoop] at h
    split at h
    · rename_i hit
      cases h
      simpa using ⟨lookup_inv ht i,
        mem_lruKeys_lookup_hit ht hit (hpos.imp_right fun h => h.2.mem)⟩
    rename_i hit
    have hmiss : (lookup s.tracer i).1 = none := by simpa using hit
    have hnot : i.key ∉ lruKeys s.tracer := fun hi => hit ((lookup_isSome_iff ht i).2 hi)
    -- after the record of `i`, `k` is among the first `j + 1` identities
    have hfront : InFront k (lruInsert i.key (lruLookup i.key (lruKeys s.tracer)).2) (j + 1) := by
      rcases hpos with rfl | ⟨hik, hin⟩
      · exact inFront_lruInsert_self j.succ_pos
      · exact (hin.lruLookup_miss hnot hik).lruInsert (by omega)
    split at h
    · cases h
    · rename_i pi pd s₁ hm
      obtain ⟨hpd, hpi, ht₁, hkeys, hok₁⟩ :=
        missStep_committed ht hmiss hm (walkLoop_reserved_le fuel _ _ _ _ h) hok
      rw [← hkeys] at hfront
      cases hc with
      | root hi hroot =>
        -- the root is its own parent: the next iteration looks it up again and hits
        rcases hroot with hroot | hroot <;> rw [hroot] at hpd <;> cases hpd
        rw [Option.some_bind, hi, Option.some.injEq] at hpi
        subst pi
        cases fuel with
        | zero => simp [walkLoop] at h
        | succ fuel =>
          have hhit := (lookup_isSome_iff ht₁ i).2 (by rw [hkeys]; exact List.mem_cons_self _ _)
          rw [walkLoop_hit hhit] at h
          cases h
          simpa using ⟨lookup_inv ht₁ i, mem_lruKeys_lookup_hit ht₁ hhit (.inr hfront.mem)⟩
      | cons hi hp hrest =>
        rw [hp] at hpd
        cases hpd
        rw [Option.some_bind, hrest.head_inode, Option.some.injEq] at hpi
        subst pi
        exact walkLoop_keeps_first fuel _ s₁ s' _ _ (j + 1) h hrest
          (fun x hx => hk x (List.mem_cons_of_mem _ hx)) (by simp at hj; omega) hok₁ ht₁
          (.inr ⟨hk _ (List.mem_cons_self _ _), hfront⟩)
    · rename_i pi pd s₁ _ hm
      cases h
      obtain ⟨-, -, ht₁, hkeys, -⟩ := missStep_committed ht hmiss hm (by simp) hok
      simpa [hkeys] using ⟨ht₁, hfront.mem⟩

/-- The first call keeps the identity of the inode it starts from cached. -/
theorem iotraceTraceInode_keeps_first {fuel : Nat} {s s' : WalkState} {a0 : Inode} {d0 : Nat}
    {c : List (Nat × Inode)} (ht : CacheInv s.tracer) (hc : AncestorChain env.fs ((d0, a0) :: c))
    (halias : env.fs.dFindAlias a0 = some d0) (hk : ∀ x ∈ c, x.2.key.sameObject a0.key = false)
    (hsize : c.length < cacheSize) (h : iotraceTraceInode env fuel s a0 = .done s')
    (hok : ∀ n, s.reserved ≤ n → n < s'.reserved → env.reserve n ≠ none) :
    CacheInv s'.tracer ∧ a0.key ∈ lruKeys s'.tracer := by
  simp only [iotraceTraceInode, halias] at h
  exact walkLoop_keeps_first fuel c _ s' d0 a0 0 h hc hk (by omega) hok ht (.inl rfl)

/-! ## The second walk -/

/-- A call from an inode whose identity is cached returns at once: it reserves
and writes nothing, and only moves the identity to the front of the cache. -/
theorem iotraceTraceInode_of_cached (env : WalkEnv) (fuel : Nat) {s : WalkState} {i : Inode}
    (ht : CacheInv s.tracer) (hk : i.key ∈ lruKeys s.tracer) :
    ∃ s', iotraceTraceInode env (fuel + 1) s i = .done s' ∧ s'.trace = s.trace ∧
      s'.reserved = s.reserved ∧ (lruKeys s'.tracer).Perm (lruKeys s.tracer) := by
  unfold iotraceTraceInode
  split
  · exact ⟨s, rfl, rfl, rfl, .refl _⟩
  · rename_i d _
    have hit : (lookup (dget s d).tracer i).1.isSome := (lookup_isSome_iff ht i).2 hk
    rw [walkLoop_hit hit]
    refine ⟨_, rfl, by simp, by simp, ?_⟩
    simpa [lruKeys_lookup_hit ht hk] using (List.perm_cons_erase hk).symm

/-- **A second walk over the same chain stops at once.**  From a cache state
with the invariant, take the chain from an inode `a0` up to a root, of at most
`CACHE_SIZE` objects with pairwise different `(device_id, inode_id)`.  If a
call of `iotrace_trace_inode` from `a0` returns having committed every naming
record it reserved, the next call from `a0`, in any environment and with any
fuel, returns at once: it reserves no record, leaves the trace as it was, and
the cached identities are the same. -/
theorem rewalk_hits_at_once {fuel : Nat} {s s' : WalkState} {a0 : Inode} {d0 : Nat}
    {c : List (Nat × Inode)} (ht : CacheInv s.tracer) (hc : AncestorChain env.fs ((d0, a0) :: c))
    (halias : env.fs.dFindAlias a0 = some d0)
    (hdistinct : (((d0, a0) :: c).map fun x => x.2.key).Pairwise fun a b => a.sameObject b = false)
    (hsize : ((d0, a0) :: c).length ≤ cacheSize) (h : iotraceTraceInode env fuel s a0 = .done s')
    (hok : ∀ n, s.reserved ≤ n → n < s'.reserved → env.reserve n ≠ none)
    (env' : WalkEnv) (fuel' : Nat) :
    ∃ s'', iotraceTraceInode env' (fuel' + 1) s' a0 = .done s'' ∧ s''.trace = s'.trace ∧
      s''.reserved = s'.reserved ∧ (lruKeys s''.tracer).Perm (lruKeys s'.tracer) := by
  rw [List.map_cons, List.pairwise_cons] at hdistinct
  have hk : ∀ x ∈ c, x.2.key.sameObject a0.key = false := fun x hx => by
    rw [InodeKey.sameObject_comm]
    exact hdistinct.1 _ (List.mem_map_of_mem _ hx)
  obtain ⟨ht', hmem⟩ := iotraceTraceInode_keeps_first ht hc halias hk (by simpa using hsize) h hok
  exact iotraceTraceInode_of_cached env' fuel' ht' hmem

/-- A file, its directory and the root, which is its own parent. -/
def leafChain : List (Nat × Inode) := [(1, leafFile), (2, midDir), (3, topDir)]

theorem leafChain_ancestorChain : AncestorChain pathDcache leafChain :=
  .cons rfl rfl (.cons rfl rfl (.root rfl (.inr rfl)))

/-- The walk up `/dir/file` on a fresh tracer with every reservation
committed, then a second walk from the file. -/
theorem rewalk_hits_at_once_leaf :
    ∃ s', iotraceTraceInode pathOkEnv 4 freshState leafFile = .done s' ∧
      ∃ s'', iotraceTraceInode pathOkEnv 1 s' leafFile = .done s'' ∧ s''.trace = s'.trace ∧
        s''.reserved = s'.reserved ∧ (lruKeys s''.tracer).Perm (lruKeys s'.tracer) := by
  obtain ⟨s', h, -⟩ := @leafWalk_done pathOkEnv rfl (by decide) (by decide)
  exact ⟨s', h, rewalk_hits_at_once (createTracer_inv none) leafChain_ancestorChain rfl
    (by decide) (by decide) h (fun _ _ _ => Option.some_ne_none _) pathOkEnv 0⟩

end TraceInode.Rewalk
