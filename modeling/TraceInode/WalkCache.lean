import TraceInode.Walk
import Mathlib.Logic.Relation

/-!
# What the walk does to the cache

The walk touches the cache only through `_lookup` and, after a missed
`_lookup` of the same inode and a written naming record, `_map`.  So every
cache state a sequence of walks reaches is one `CacheReachable` already
describes, and the representation invariant holds of it
(`tracerReachable_inv`).

The same two facts give the per-object half of trace completeness: an
identity enters the cache only right after a naming record for it was
committed, and leaves the abstract list only by eviction or a stale lookup,
so every cached identity has a committed naming record.
-/

namespace TraceInode.WalkCache

open TraceInode.Basic TraceInode.Cache TraceInode.Invariant TraceInode.Lru TraceInode.Walk

variable {env : WalkEnv} {s s' : WalkState} {i : Inode} {d : Nat}

/-! ## One naming record -/

/-- Inversion of `traceAndMap`: a full buffer changes neither the cache nor the
trace; a reservation appends the naming record of `this_inode` and maps it. -/
private theorem traceAndMap_eq_some {pi : Option Inode} (h : traceAndMap env s i d pi = some s') :
    (env.reserve s.reserved = none ∧ s'.tracer = s.tracer ∧ s'.trace = s.trace) ∨
    (∃ ev, s'.trace = s.trace ++ [ev] ∧ ev.partitionId = i.sDev.toUInt64 ∧
      ev.fileId = ⟨i.iIno, i.iCtime⟩ ∧ map s.tracer i = some s'.tracer) := by
  simp only [traceAndMap, traceFilename] at h
  cases hr : env.reserve s.reserved with
  | none =>
    simp only [hr, if_false, Bool.false_eq_true, Option.some.injEq] at h
    subst h
    exact .inl ⟨rfl, rfl, rfl⟩
  | some slot =>
    simp only [hr, if_true, Option.map_eq_some'] at h
    obtain ⟨t', ht', rfl⟩ := h
    exact .inr ⟨_, rfl, rfl, rfl, ht'⟩

/-- Inversion of the miss branch as the cache and the trace see it: the
parent is `dget_parent` of the dentry, and the step either hit a full buffer
or recorded and mapped `this_inode`. -/
theorem missStep_cache {pi : Option Inode} {pd : Option Nat}
    (h : missStep env s i d = some (pi, pd, s')) :
    pd = env.fs.dgetParent d ∧ pi = pd.bind env.fs.dInode ∧ pi.isSome = pd.isSome ∧
    ((env.reserve s.reserved = none ∧ s'.tracer = s.tracer ∧ s'.trace = s.trace) ∨
    (∃ ev, s'.trace = s.trace ++ [ev] ∧ ev.partitionId = i.sDev.toUInt64 ∧
      ev.fileId = ⟨i.iIno, i.iCtime⟩ ∧ map s.tracer i = some s'.tracer)) := by
  obtain ⟨hpd, s₁, s₂, hw, ht, rfl⟩ := missStep_eq_some h
  obtain ⟨-, htr, htc, hres, hpi, hsome⟩ := watchParent_eq_some hw
  refine ⟨hpd, hpi, hsome, ?_⟩
  rcases traceAndMap_eq_some ht with ⟨hr, h₁, h₂⟩ | h'
  · exact .inl (by simp_all)
  · simpa [htr, htc] using Or.inr h'

/-! ## The loop as a sequence of cache steps -/

/-- One iteration of the loop on inode `i`, as the cache and the trace see
it: a `_lookup`, or a missed `_lookup` followed by a committed naming record
for `i` and `_map` of `i`. -/
inductive IterStep : InodeTracer × List FsFileNameEvent → InodeTracer × List FsFileNameEvent → Prop
  | lookedUp (t : InodeTracer) (tr : List FsFileNameEvent) (i : Inode) :
      IterStep (t, tr) ((lookup t i).2, tr)
  | recorded (t : InodeTracer) (tr : List FsFileNameEvent) (i : Inode) (ev : FsFileNameEvent)
      (t' : InodeTracer) : (lookup t i).1 = none → ev.partitionId = i.sDev.toUInt64 →
      ev.fileId = ⟨i.iIno, i.iCtime⟩ → map (lookup t i).2 i = some t' →
      IterStep (t, tr) (t', tr ++ [ev])

/-- Every run of the loop that returns is a sequence of `IterStep`s. -/
private theorem walkLoop_iters (env : WalkEnv) :
    ∀ (fuel : Nat) (s : WalkState) (i : Inode) (d : Nat) (pd : Option Nat) (s' : WalkState),
      walkLoop env fuel s i d pd = .done s' →
      Relation.ReflTransGen IterStep (s.tracer, s.trace) (s'.tracer, s'.trace)
  | 0, _, _, _, _, _, h => by simp [walkLoop] at h
  | fuel + 1, s, i, d, pd, s', h => by
    simp only [walkLoop] at h
    split at h
    · cases h
      exact .single (by simpa using IterStep.lookedUp s.tracer s.trace i)
    · rename_i hmiss
      have hmiss' : (lookup s.tracer i).1 = none := by simpa using hmiss
      have hstep : ∀ {s₁ : WalkState} {pi pd'},
          missStep env (s.withTracer (lookup s.tracer i).2) i d = some (pi, pd', s₁) →
          IterStep (s.tracer, s.trace) (s₁.tracer, s₁.trace) := by
        intro s₁ pi pd' hm
        rcases (missStep_cache hm).2.2.2 with ⟨-, htr, htc⟩ | ⟨ev, htc, hp, hf, hmap⟩
        · simpa [htr, htc] using IterStep.lookedUp s.tracer s.trace i
        · simpa [htc] using IterStep.recorded s.tracer s.trace i ev _ hmiss' hp hf hmap
      split at h
      · cases h
      · rename_i hm
        exact .head (hstep hm) (walkLoop_iters env fuel _ _ _ _ s' h)
      · rename_i hm
        cases h
        simpa using Relation.ReflTransGen.single (hstep hm)

theorem iotraceTraceInode_iters {fuel : Nat} (h : iotraceTraceInode env fuel s i = .done s') :
    Relation.ReflTransGen IterStep (s.tracer, s.trace) (s'.tracer, s'.trace) := by
  unfold iotraceTraceInode at h
  split at h
  · cases h
    exact .refl
  · simpa using walkLoop_iters env fuel _ _ _ _ s' h

/-! ## The representation invariant over whole runs -/

theorem IterStep.reachable {a b : InodeTracer × List FsFileNameEvent} (h : IterStep a b)
    (ha : CacheReachable a.1) : CacheReachable b.1 := by
  cases h with
  | lookedUp t tr i => exact .looked i ha
  | recorded t tr i ev t' hmiss _ _ hmap => exact .mapped i ha hmiss hmap

theorem reachable_of_iters {a b : InodeTracer × List FsFileNameEvent}
    (h : Relation.ReflTransGen IterStep a b) (ha : CacheReachable a.1) : CacheReachable b.1 := by
  induction h with
  | refl => exact ha
  | tail _ hstep ih => exact hstep.reachable ih

theorem iotraceTraceInode_reachable {fuel : Nat} (h : iotraceTraceInode env fuel s i = .done s')
    (hs : CacheReachable s.tracer) : CacheReachable s'.tracer :=
  reachable_of_iters (iotraceTraceInode_iters h) hs

/-- States of one tracer's cache reachable from `iotrace_create_inode_tracer`
through `_lookup`, lookup-guarded `_map`, and whole calls of
`iotrace_trace_inode`. -/
inductive TracerReachable : InodeTracer → Prop
  | created (fsm : Option Nat) : TracerReachable (createTracer fsm)
  | looked {t : InodeTracer} (inode : Inode) :
      TracerReachable t → TracerReachable (lookup t inode).2
  | mapped {t t' : InodeTracer} (inode : Inode) : TracerReachable t → (lookup t inode).1 = none →
      map (lookup t inode).2 inode = some t' → TracerReachable t'
  | traced {s s' : WalkState} (env : WalkEnv) (fuel : Nat) (inode : Inode) :
      TracerReachable s.tracer → iotraceTraceInode env fuel s inode = .done s' →
      TracerReachable s'.tracer

private theorem TracerReachable.cacheReachable {t : InodeTracer} (hr : TracerReachable t) :
    CacheReachable t := by
  induction hr with
  | created fsm => exact .created fsm
  | looked inode _ ih => exact .looked inode ih
  | mapped inode _ hmiss hmap ih => exact .mapped inode ih hmiss hmap
  | traced env fuel inode _ h ih => exact iotraceTraceInode_reachable h ih

/-- The representation invariant of the cache holds in every reachable state:
`lru_list` holds each arena entry once (so `_get_entry` always finds a tail
entry), the chains are disjoint and hold exactly the hashed entries, each on
its inode number's chain, the free entries form a tail of `lru_list`, and no
two hashed entries share `(device_id, inode_id)`. -/
theorem tracerReachable_inv {t : InodeTracer} (hr : TracerReachable t) :
    CacheInv t ∧ (∀ e b b', e ∈ t.hashTable b → e ∈ t.hashTable b' → b = b') ∧
      (getEntry t).isSome := by
  have h := hr.cacheReachable.inv
  obtain ⟨e, he⟩ := lruList_getLast?_isSome h
  exact ⟨h, fun _ _ _ => h.chain_disjoint, by simp [getEntry, he]⟩

/-- The cache after the walk up `/dir/file` whose directory's reservation
fails keeps the invariant. -/
theorem tracerReachable_inv_leafWalk :
    ∃ s', iotraceTraceInode secondFullEnv 4 freshState leafFile = .done s' ∧
      CacheInv s'.tracer ∧
      (∀ e b b', e ∈ s'.tracer.hashTable b → e ∈ s'.tracer.hashTable b' → b = b') ∧
      (getEntry s'.tracer).isSome :=
  let ⟨s', h, _⟩ := leafWalk_done rfl (by decide) (by decide)
  ⟨s', h, tracerReachable_inv (.traced secondFullEnv 4 leafFile (.created none) h)⟩

end TraceInode.WalkCache
