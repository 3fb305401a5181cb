import TraceInode.WalkCache

/-!
# Naming records for cached objects

A walk that stops on a cache hit relies on the cached object's naming record,
and on those of its ancestors, having been written before.  The code keeps the
first half: an inode is mapped only after its own naming record was
committed, so every identity in the cache has a committed record
(`cached_recorded`), whatever dentry cache and sink each call of the run
sees.  The second half fails when the trace buffer is full part-way up: the
walk maps the child, fails to record the parent, moves on, and a later walk
stops at the child (`cached_ancestor_unrecorded`).  In runs over one static
forest of dentries where every reservation succeeds the ancestors are covered
as well (`cached_ancestors_recorded`).
-/

namespace TraceInode.Completeness

open TraceInode.Basic TraceInode.Cache TraceInode.Invariant TraceInode.Lru TraceInode.Walk
  TraceInode.WalkCache

/-! ## Runs of walks -/

/-- `a` is `d` or an ancestor of `d`, following `dget_parent`. -/
def Anc (fs : Dcache) : Nat → Nat → Prop :=
  Relation.ReflTransGen fun x y => fs.dgetParent x = some y

/-- A naming record was committed for the inode of dentry `a`. -/
def RecordedAt (fs : Dcache) (trace : List FsFileNameEvent) (a : Nat) : Prop :=
  ∃ ia, fs.dInode a = some ia ∧ Recorded trace ia.key

/-- Calls of `iotrace_trace_inode` on one tracer, from the tracer's creation;
each call sees its own dentry cache and sink, which `ok` restricts. -/
inductive TraceRun (ok : WalkEnv → Prop) : WalkState → Prop
  | start (s : WalkState) (fsm : Option Nat) : s.tracer = createTracer fsm → TraceRun ok s
  | step {s s' : WalkState} (env : WalkEnv) (fuel : Nat) (inode : Inode) : ok env →
      TraceRun ok s → iotraceTraceInode env fuel s inode = .done s' → TraceRun ok s'

variable {fs : Dcache} {ok : WalkEnv → Prop} {s : WalkState}

theorem TraceRun.reachable (hr : TraceRun ok s) : CacheReachable s.tracer := by
  induction hr with
  | start s fsm h => exact h ▸ .created fsm
  | step _ _ _ _ _ h ih => exact iotraceTraceInode_reachable h ih

/-! ## Cached identities have naming records -/

/-- Every identity in the cache has a committed naming record. -/
def Covered (p : InodeTracer × List FsFileNameEvent) : Prop :=
  ∀ k ∈ lruKeys p.1, Recorded p.2 k

theorem lruKeys_lookup_subset {t : InodeTracer} (h : CacheInv t) (i : Inode) :
    lruKeys (lookup t i).2 ⊆ lruKeys t := by
  rw [(lookup_refines h i).2, lruLookup]
  split_ifs with hk
  · exact List.cons_subset.2 ⟨hk, List.erase_subset _ _⟩
  · exact fun _ hx => List.mem_of_mem_filter hx

theorem lruKeys_map_subset {t t' : InodeTracer} {i : Inode} (h : CacheInv t)
    (hm : map t i = some t') : lruKeys t' ⊆ i.key :: lruKeys t := by
  obtain ⟨t'', hm', hk⟩ := map_refines h i
  rw [hm] at hm'
  cases hm'
  rw [hk, lruInsert]
  refine List.cons_subset_cons _ ?_
  split_ifs
  · exact List.dropLast_subset _
  · exact List.Subset.refl _

private theorem iterStep_covered {a b : InodeTracer × List FsFileNameEvent} (h : IterStep a b)
    (ha : CacheInv a.1) (hc : Covered a) : Covered b := by
  cases h with
  | lookedUp t tr i => exact fun k hk => hc k (lruKeys_lookup_subset ha i hk)
  | recorded t tr i ev t' hmiss hp hf hmap =>
    intro k hk
    rcases List.mem_cons.1 (lruKeys_map_subset (lookup_inv ha i) hmap hk) with rfl | hk
    · exact ⟨ev, by simp, hp, hf⟩
    · exact (hc k (lruKeys_lookup_subset ha i hk)).mono ev

private theorem covered_of_iters {a b : InodeTracer × List FsFileNameEvent}
    (h : Relation.ReflTransGen IterStep a b) (ha : CacheReachable a.1) (hc : Covered a) :
    Covered b := by
  induction h with
  | refl => exact hc
  | tail hab hstep ih => exact iterStep_covered hstep (reachable_of_iters hab ha).inv ih

/-- Every identity held by a hashed entry has a committed naming record, in
every state reached by any calls of `iotrace_trace_inode`, each over any
dentry cache and with any sink outcomes. -/
private theorem cached_recorded
    (hr : TraceRun ok s) : ∀ k ∈ lruKeys s.tracer, Recorded s.trace k := by
  induction hr with
  | start s fsm h => simp [h, lruKeys_createTracer]
  | step _ _ _ _ hr h ih => exact covered_of_iters (iotraceTraceInode_iters h) hr.reachable ih

/-! ## Ancestors of cached objects -/

/-- A static forest of dentries: `dget_parent` strictly lowers a rank except
at a root that is its own parent, distinct dentries hold distinct identities,
and `d_find_alias` returns a dentry of the inode. -/
structure StaticForest (fs : Dcache) : Prop where
  rank : ∃ r : Nat → Nat, ∀ d p, fs.dgetParent d = some p → p = d ∨ r p < r d
  key_inj : ∀ {d d' : Nat} {i i' : Inode}, fs.dInode d = some i → fs.dInode d' = some i' →
    i.key = i'.key → d = d'
  alias_inode : ∀ {i : Inode} {d : Nat}, fs.dFindAlias i = some d → fs.dInode d = some i

/-- The inode of dentry `d` has its identity in the cache. -/
def Cached (fs : Dcache) (t : InodeTracer) (d : Nat) : Prop :=
  ∃ i, fs.dInode d = some i ∧ i.key ∈ lruKeys t

/-- Dentry `d` and all its ancestors have committed naming records. -/
def Full (fs : Dcache) (trace : List FsFileNameEvent) (d : Nat) : Prop :=
  ∀ a, Anc fs d a → RecordedAt fs trace a

/-- Every cached dentry has its ancestors recorded. -/
def AllFull (fs : Dcache) (t : InodeTracer) (trace : List FsFileNameEvent) : Prop :=
  ∀ d, Cached fs t d → Full fs trace d

/-- The invariant of a walk standing at dentry `c`: a cached dentry is fully
recorded, or is a proper descendant of `c` whose unrecorded ancestors all lie
on the rest of the walk. -/
def WalkInv (fs : Dcache) (t : InodeTracer) (trace : List FsFileNameEvent) (c : Nat) : Prop :=
  ∀ d, Cached fs t d → Full fs trace d ∨
    (d ≠ c ∧ Anc fs d c ∧ ∀ a, Anc fs d a → RecordedAt fs trace a ∨ Anc fs c a)

section Ancestors

variable {t t' : InodeTracer} {tr : List FsFileNameEvent} {c d p : Nat} {i : Inode}
  {ev : FsFileNameEvent}

private theorem anc_head (hp : fs.dgetParent c = some p) {a : Nat} (h : Anc fs c a) :
    a = c ∨ Anc fs p a := by
  rcases Relation.ReflTransGen.cases_head h with rfl | ⟨y, hy, hya⟩
  · exact .inl rfl
  · exact .inr (Option.some.inj (hp.symm.trans hy) ▸ hya)

private theorem anc_of_parent_none (hp : fs.dgetParent c = none) {a : Nat}
    (h : Anc fs c a) : a = c := by
  rcases Relation.ReflTransGen.cases_head h with rfl | ⟨y, hy, -⟩
  · rfl
  · simp [hp] at hy

private theorem anc_of_self_parent (hp : fs.dgetParent c = some c) {a : Nat} (h : Anc fs c a) :
    a = c := by
  induction h with
  | refl => rfl
  | tail _ hb ih => subst ih; exact Option.some.inj (hb.symm.trans hp)

/-- In a static forest a parent other than the dentry itself is never below it. -/
private theorem StaticForest.not_anc_parent (hf : StaticForest fs) (hp : fs.dgetParent c = some p)
    (hne : p ≠ c) : ¬ Anc fs p c := by
  obtain ⟨r, hr⟩ := hf.rank
  have hle : ∀ {x y}, Anc fs x y → r y ≤ r x := by
    intro x y h
    induction h with
    | refl => exact le_rfl
    | tail _ hb ih => rcases hr _ _ hb with rfl | hlt; exacts [ih, hlt.le.trans ih]
  intro h
  rcases hr c p hp with rfl | hlt
  · exact hne rfl
  · exact absurd (hle h) (by omega)

theorem RecordedAt.mono {a : Nat} (h : RecordedAt fs tr a) (ev : FsFileNameEvent) :
    RecordedAt fs (tr ++ [ev]) a :=
  let ⟨ia, hia, hr⟩ := h
  ⟨ia, hia, hr.mono ev⟩

theorem Full.mono (h : Full fs tr d) (ev : FsFileNameEvent) : Full fs (tr ++ [ev]) d :=
  fun a ha => (h a ha).mono ev

private theorem Cached.of_lookup (ht : CacheInv t)
    (h : Cached fs (lookup t i).2 d) : Cached fs t d :=
  let ⟨j, hj, hk⟩ := h
  ⟨j, hj, lruKeys_lookup_subset ht i hk⟩

/-- After a miss on the walk's inode and its `_map`, a cached dentry is the
walk's own or was cached before. -/
private theorem Cached.of_map (hf : StaticForest fs) (ht : CacheInv t) (hc : fs.dInode c = some i)
    (hmap : map (lookup t i).2 i = some t') (h : Cached fs t' d) : d = c ∨ Cached fs t d := by
  obtain ⟨j, hj, hk⟩ := h
  rcases List.mem_cons.1 (lruKeys_map_subset (lookup_inv ht i) hmap hk) with hk | hk
  · exact .inl (hf.key_inj hj hc hk)
  · exact .inr ⟨j, hj, lruKeys_lookup_subset ht i hk⟩

private theorem walkInv_of_allFull (h : AllFull fs t tr) (c : Nat) : WalkInv fs t tr c :=
  fun d hd => .inl (h d hd)

/-- A hit at the walk's dentry completes every cached dentry. -/
private theorem allFull_of_hit (ht : CacheInv t) (hc : fs.dInode c = some i)
    (hit : (lookup t i).1.isSome) (h : WalkInv fs t tr c) : AllFull fs (lookup t i).2 tr := by
  have hfull : Full fs tr c := by
    rcases h c ⟨i, hc, key_mem_of_lookup_hit ht hit⟩ with hc' | ⟨hne, -⟩
    exacts [hc', absurd rfl hne]
  intro d hd
  rcases h d (hd.of_lookup ht) with hd' | ⟨-, -, hrest⟩
  · exact hd'
  · exact fun a ha => (hrest a ha).elim id (hfull a)

/-- Recording and mapping the walk's inode and moving to its parent keeps the
invariant. -/
private theorem walkInv_record (hf : StaticForest fs) (ht : CacheInv t) (hc : fs.dInode c = some i)
    (hpar : fs.dgetParent c = some p) (hrec : RecordedAt fs (tr ++ [ev]) c)
    (hmap : map (lookup t i).2 i = some t') (h : WalkInv fs t tr c) :
    WalkInv fs t' (tr ++ [ev]) p := by
  intro d hd
  rcases hd.of_map hf ht hc hmap with rfl | hd
  · by_cases hpd : p = d
    · subst hpd
      exact .inl fun a ha => anc_of_self_parent hpar ha ▸ hrec
    · refine .inr ⟨Ne.symm hpd, .single hpar, fun a ha => ?_⟩
      rcases anc_head hpar ha with rfl | ha
      exacts [.inl hrec, .inr ha]
  · rcases h d hd with hd' | ⟨hne, hdc, hrest⟩
    · exact .inl (hd'.mono ev)
    · refine .inr ⟨?_, hdc.tail hpar, fun a ha => ?_⟩
      · rintro rfl
        exact hf.not_anc_parent hpar hne hdc
      · rcases hrest a ha with ha' | ha'
        · exact .inl (ha'.mono ev)
        · rcases anc_head hpar ha' with rfl | ha'
          exacts [.inl hrec, .inr ha']

/-- Recording and mapping a walk's inode that has no parent ends the walk with
every cached dentry complete. -/
private theorem allFull_record_root (hf : StaticForest fs) (ht : CacheInv t)
    (hc : fs.dInode c = some i)
    (hpar : fs.dgetParent c = none) (hrec : RecordedAt fs (tr ++ [ev]) c)
    (hmap : map (lookup t i).2 i = some t') (h : WalkInv fs t tr c) :
    AllFull fs t' (tr ++ [ev]) := by
  intro d hd
  rcases hd.of_map hf ht hc hmap with rfl | hd
  · exact fun a ha => anc_of_parent_none hpar ha ▸ hrec
  · rcases h d hd with hd' | ⟨-, -, hrest⟩
    · exact hd'.mono ev
    · intro a ha
      rcases hrest a ha with ha' | ha'
      exacts [ha'.mono ev, anc_of_parent_none hpar ha' ▸ hrec]

/-- The record a successful reservation appends names the walk's dentry. -/
private theorem recordedAt_append (hc : fs.dInode c = some i)
    (hp : ev.partitionId = i.sDev.toUInt64)
    (hfi : ev.fileId = ⟨i.iIno, i.iCtime⟩) : RecordedAt fs (tr ++ [ev]) c :=
  ⟨i, hc, ev, List.mem_append_right _ (List.mem_singleton_self ev), hp, hfi⟩

/-- With every reservation successful, a run of the loop that returns, entered
at dentry `c` with the invariant, leaves every cached dentry complete. -/
private theorem walkLoop_allFull {env : WalkEnv} (hf : StaticForest env.fs)
    (hok : ∀ k, env.reserve k ≠ none) :
    ∀ (fuel : Nat) (s : WalkState) (i : Inode) (c : Nat) (s' : WalkState),
      walkLoop env fuel s i c none = .done s' → CacheInv s.tracer → env.fs.dInode c = some i →
      WalkInv env.fs s.tracer s.trace c → AllFull env.fs s'.tracer s'.trace
  | 0, _, _, _, _, h, _, _, _ => by simp [walkLoop] at h
  | fuel + 1, s, i, c, s', h, ht, hc, hw => by
    simp only [walkLoop] at h
    split at h
    · rename_i hit
      cases h
      simpa using allFull_of_hit ht hc hit hw
    · rename_i hmiss
      have hmiss' : (lookup s.tracer i).1 = none := by simpa using hmiss
      split at h
      · cases h
      · rename_i pi pd s₁ hm
        obtain ⟨hpd, hpi, -, hrec⟩ := missStep_cache hm
        rcases hrec with ⟨hr, -⟩ | ⟨ev, htr, hp, hfi, hmap⟩
        · exact absurd hr (hok _)
        simp only [withTracer_tracer, withTracer_trace] at htr hmap
        refine walkLoop_allFull hf hok fuel s₁ pi pd s' h (lookup_map_inv ht hmiss' hmap)
          (by simpa using hpi.symm) ?_
        rw [htr]
        exact walkInv_record hf ht hc hpd.symm (recordedAt_append hc hp hfi) hmap hw
      · rename_i pi pd s₁ hne hm
        cases h
        obtain ⟨hpd, hpi, hsome, hrec⟩ := missStep_cache hm
        rcases hrec with ⟨hr, -⟩ | ⟨ev, htr, hp, hfi, hmap⟩
        · exact absurd hr (hok _)
        simp only [withTracer_tracer, withTracer_trace] at htr hmap
        cases pd with
        | some p =>
          obtain ⟨pi', rfl⟩ := Option.isSome_iff_exists.1 (hsome.trans rfl)
          exact (hne pi' p rfl rfl).elim
        | none =>
          simpa [htr] using allFull_record_root hf ht hc hpd.symm
            (recordedAt_append hc hp hfi) hmap hw

/-- With every reservation successful, a call of `iotrace_trace_inode` that
returns keeps every cached dentry complete. -/
private theorem iotraceTraceInode_allFull {env : WalkEnv} {fuel : Nat} {s s' : WalkState}
    {inode : Inode} (hf : StaticForest env.fs) (hok : ∀ k, env.reserve k ≠ none)
    (h : iotraceTraceInode env fuel s inode = .done s') (ht : CacheInv s.tracer)
    (hs : AllFull env.fs s.tracer s.trace) : AllFull env.fs s'.tracer s'.trace := by
  unfold iotraceTraceInode at h
  split at h
  · cases h
    exact hs
  · rename_i d hd
    exact walkLoop_allFull hf hok fuel _ inode d s' h ht (hf.alias_inode hd)
      (walkInv_of_allFull hs d)

private theorem cached_ancestors_recorded (hf : StaticForest fs)
    (hok : ∀ env, ok env → env.fs = fs ∧ ∀ k, env.reserve k ≠ none) (hr : TraceRun ok s) :
    AllFull fs s.tracer s.trace := by
  induction hr with
  | start s fsm h =>
    intro d ⟨i, _, hk⟩
    simp [h, lruKeys_createTracer] at hk
  | step env _ _ henv hr h ih =>
    obtain ⟨rfl, hres⟩ := hok env henv
    exact iotraceTraceInode_allFull hf hres h hr.reachable.inv ih

end Ancestors

/-! ## Trace completeness -/

/-- Every identity in the cache has a committed naming record, whatever
dentry cache and sink each call sees; when every call sees one static forest
of dentries and every reservation succeeds, so has every ancestor of every
cached dentry. -/
theorem cached_recorded_complete (hr : TraceRun ok s) :
    (∀ k ∈ lruKeys s.tracer, Recorded s.trace k) ∧
      ∀ fs, StaticForest fs → (∀ env, ok env → env.fs = fs ∧ ∀ k, env.reserve k ≠ none) →
        AllFull fs s.tracer s.trace :=
  ⟨cached_recorded hr, fun _ hf hok => cached_ancestors_recorded hf hok hr⟩

private theorem pathDcache_staticForest : StaticForest pathDcache where
  rank := ⟨fun d => 3 - d, fun d p h => by
    simp only [pathDcache] at h
    split_ifs at h <;> cases h <;> subst_vars <;> decide⟩
  key_inj {d d' i i'} h h' hk := by
    simp only [pathDcache] at h h'
    split_ifs at h h' <;> cases h <;> cases h' <;> first | omega | exact absurd hk (by decide)
  alias_inode {i d} h := by
    simp only [pathDcache] at h ⊢
    split_ifs at h <;> cases h <;> simp_all

/-- A walk up `/dir/file` whose directory's reservation fails, then a walk
from the root of another filesystem: every cached identity has its naming
record.  A walk up `/dir/file` with every reservation succeeding: every
ancestor of every cached dentry has one too. -/
theorem cached_recorded_complete_paths :
    (∃ s₁ s₂, iotraceTraceInode secondFullEnv 4 freshState leafFile = .done s₁ ∧
      iotraceTraceInode sinkOkEnv 2 s₁ rootDir = .done s₂ ∧
      ∀ k ∈ lruKeys s₂.tracer, Recorded s₂.trace k) ∧
    ∃ s, iotraceTraceInode pathOkEnv 4 freshState leafFile = .done s ∧
      AllFull pathDcache s.tracer s.trace := by
  obtain ⟨s₁, h₁, -, hk₁, -⟩ := @leafWalk_done secondFullEnv rfl (by decide) (by decide)
  have h1 : secondFullEnv.reserve 1 = none := rfl
  rw [if_pos h1] at hk₁
  obtain ⟨s₂, h₂⟩ := rootWalk_from (iotraceTraceInode_reachable h₁ (.created none))
    (by rw [hk₁]; decide)
  have hr : TraceRun (fun _ => True) s₂ :=
    .step sinkOkEnv 2 rootDir trivial
      (.step secondFullEnv 4 leafFile trivial (.start freshState none rfl) h₁) h₂
  obtain ⟨s, h, -⟩ := @leafWalk_done pathOkEnv rfl (by decide) (by decide)
  have hr' : TraceRun (· = pathOkEnv) s :=
    .step pathOkEnv 4 leafFile rfl (.start freshState none rfl) h
  exact ⟨⟨s₁, s₂, h₁, h₂, (cached_recorded_complete hr).1⟩, s, h,
    (cached_recorded_complete hr').2 pathDcache pathDcache_staticForest
      fun _ henv => henv ▸ ⟨rfl, fun _ => Option.some_ne_none _⟩⟩

/-! ## A full buffer part-way up -/

/-- One walk from the file on a fresh tracer: the file is recorded and mapped,
the directory's reservation fails, the root is recorded and mapped, and the
walk stops on the root.  The file is cached but its directory, an ancestor,
has no naming record; a later walk from the file stops at once. -/
theorem cached_ancestor_unrecorded :
    StaticForest pathDcache ∧
      ∃ s', iotraceTraceInode secondFullEnv 4 freshState leafFile = .done s' ∧
      Cached pathDcache s'.tracer 1 ∧ Anc pathDcache 1 2 ∧ ¬ RecordedAt pathDcache s'.trace 2 := by
  obtain ⟨s', h, -, hk, htr⟩ := @leafWalk_done secondFullEnv rfl (by decide) (by decide)
  have h1 : secondFullEnv.reserve 1 = none := rfl
  rw [if_pos h1] at hk htr
  refine ⟨pathDcache_staticForest, s', h, ⟨leafFile, rfl, by rw [hk]; decide⟩, .single rfl, ?_⟩
  rintro ⟨ia, hia, ev, hev, -, hf⟩
  obtain rfl : ia = midDir := by simpa [pathDcache] using hia.symm
  have hid := List.mem_map_of_mem FsFileNameEvent.fileId hev
  rw [htr, hf] at hid
  exact absurd hid (by decide)

end TraceInode.Completeness
