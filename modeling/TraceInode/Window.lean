import TraceInode.Path
import TraceInode.Recency

/-!
# No second naming record within the cache's window

`iotrace_trace_inode` caches an inode after writing its naming record so that
later calls do not write the record again.  This module states how far that
promise reaches over a run of calls: once a call from an inode `a` has
reserved its first record, a later call from `a` returns at once and writes
nothing, as long as the ancestors of `a` and the identities the calls in
between can look up are fewer than `CACHE_SIZE` besides `a`'s own, and none of
them is `a`'s object with another ctime.

The bridge to `TraceInode.Recency` is that one call is, as the cache sees it,
a run of cache uses along the inode's ancestor chain
(`iotraceTraceInode_runOps`), and a run of calls is the concatenation of those
runs (`runWalks_runOps`).

## Main results

* `iotraceTraceInode_runOps` — a call is a run of cache uses along its chain.
* `runWalks_runOps` — a run of calls is one run of cache uses.
* `rewalk_within_window` — no second naming record within the window.
-/

namespace TraceInode.Window

open TraceInode.Basic TraceInode.Cache TraceInode.Invariant TraceInode.Lru TraceInode.Walk
  TraceInode.WalkCache TraceInode.Rewalk TraceInode.Path TraceInode.Recency

/-! ## One call as a run of cache uses -/

/-- The cache use of a loop iteration on `i` whose reservation would be the
`k`-th: `_map` follows a miss only when the naming record was written. -/
def iterOp (env : WalkEnv) (k : Nat) (i : Inode) : CacheOp :=
  if env.reserve k = none then .lookup i else .lookupMap i

section Iteration

variable {env : WalkEnv} {s s₁ : WalkState} {i : Inode} {d : Nat} {k : Nat}

@[simp] theorem iterOp_inode : (iterOp env k i).inode = i := by
  unfold iterOp
  split <;> rfl

private theorem applyOp_iterOp_hit {t : InodeTracer} (hit : (lookup t i).1.isSome) :
    applyOp t (iterOp env k i) = some (lookup t i).2 := by
  unfold iterOp
  split <;> simp [applyOp, hit]

/-- A missed iteration is its cache use. -/
private theorem applyOp_iterOp_miss {pi : Option Inode} {pd : Option Nat}
    (hmiss : (lookup s.tracer i).1 = none)
    (hm : missStep env (s.withTracer (lookup s.tracer i).2) i d = some (pi, pd, s₁)) :
    applyOp s.tracer (iterOp env s.reserved i) = some s₁.tracer := by
  obtain ⟨-, -, -, -, -, -, -, hnone, hsome⟩ := missStep_spec hm
  simp only [withTracer_tracer, withTracer_reserved] at hnone hsome
  unfold iterOp
  split
  · rename_i hr
    simp [applyOp, hnone hr]
  · rename_i hr
    simp [applyOp, hmiss, hsome hr]

end Iteration

/-- A loop on an ancestor chain that returns is, as the cache sees it, the use
of its first iteration followed by uses of inodes of the chain. -/
private theorem walkLoop_runOps {env : WalkEnv} :
    ∀ (fuel : Nat) (c : List (Nat × Inode)) (s s' : WalkState) (d : Nat) (i : Inode),
      AncestorChain env.fs ((d, i) :: c) → walkLoop env fuel s i d none = .done s' →
      ∃ ops, runOps s.tracer (iterOp env s.reserved i :: ops) = some s'.tracer ∧
        ∀ op ∈ ops, op.inode ∈ ((d, i) :: c).map Prod.snd
  | 0, _, _, _, _, _, _, h => by simp [walkLoop] at h
  | fuel + 1, c, s, s', d, i, hc, h => by
    by_cases hit : (lookup s.tracer i).1.isSome
    · rw [walkLoop_hit hit] at h
      cases h
      exact ⟨[], by rw [runOps_cons_of_applyOp (applyOp_iterOp_hit hit)]; rfl,
        fun _ h => by cases h⟩
    have hmiss : (lookup s.tracer i).1 = none := by simpa using hit
    simp only [walkLoop, hmiss, Option.isSome_none, Bool.false_eq_true, if_false] at h
    split at h
    · cases h
    · rename_i pi pd s₁ hm
      have hstep := applyOp_iterOp_miss hmiss hm
      -- the rest of the run, from the parent's place on the chain
      have next : ∀ c', ((pd, pi) :: c').map Prod.snd ⊆ ((d, i) :: c).map Prod.snd →
          AncestorChain env.fs ((pd, pi) :: c') →
          ∃ ops, runOps s.tracer (iterOp env s.reserved i :: ops) = some s'.tracer ∧
            ∀ op ∈ ops, op.inode ∈ ((d, i) :: c).map Prod.snd := by
        intro c' hsub hc'
        obtain ⟨ops, hrun, hmem⟩ := walkLoop_runOps fuel c' s₁ s' pd pi hc' h
        refine ⟨_ :: ops, by rwa [runOps_cons_of_applyOp hstep], fun op hop => ?_⟩
        rcases List.mem_cons.1 hop with rfl | hop
        · exact hsub (by rw [iterOp_inode]; exact List.mem_cons_self _ _)
        · exact hsub (hmem op hop)
      obtain ⟨hpd, hpi, -⟩ := missStep_spec hm
      cases hc with
      | root hi hr =>
        -- a root that is its own parent is looked up once more
        rcases hr with hr | hr <;> rw [hr] at hpd <;> cases hpd
        rw [parentInode, hr, Option.some_bind, hi] at hpi
        cases hpi
        exact next [] (List.Subset.refl _) (.root hi (.inr hr))
      | cons hi hp hrest =>
        rw [hp] at hpd
        cases hpd
        rw [parentInode, hp, Option.some_bind, hrest.head_inode] at hpi
        cases hpi
        exact next _ (List.subset_cons_self _ _) hrest
    · rename_i hm
      cases h
      exact ⟨[], by rw [runOps_cons_of_applyOp (applyOp_iterOp_miss hmiss hm), dputOpt_tracer,
        dputOpt_tracer]; rfl, fun _ h => by cases h⟩

/-- A call from an inode with an ancestor chain that returns is, as the cache
sees it, the use of its first iteration followed by uses of inodes of the
chain. -/
theorem iotraceTraceInode_runOps {env : WalkEnv} {fuel : Nat} {s s' : WalkState} {a0 : Inode}
    {d0 : Nat} {c : List (Nat × Inode)} (hc : AncestorChain env.fs ((d0, a0) :: c))
    (halias : env.fs.dFindAlias a0 = some d0) (h : iotraceTraceInode env fuel s a0 = .done s') :
    ∃ ops, runOps s.tracer (iterOp env s.reserved a0 :: ops) = some s'.tracer ∧
      ∀ op ∈ ops, op.inode ∈ ((d0, a0) :: c).map Prod.snd := by
  simp only [iotraceTraceInode, halias] at h
  exact walkLoop_runOps fuel c (dget s d0) s' d0 a0 hc h

/-! ## Runs of calls -/

/-- One call of `iotrace_trace_inode`: its environment, the fuel of its loop
and the inode it traces. -/
structure WalkCall where
  env : WalkEnv
  fuel : Nat
  inode : Inode

/-- Calls of `iotrace_trace_inode` one after another on one state; a call
that does not return ends the run with its outcome. -/
def runWalks : WalkState → List WalkCall → Outcome
  | s, [] => .done s
  | s, w :: ws =>
    match iotraceTraceInode w.env w.fuel s w.inode with
    | .done s' => runWalks s' ws
    | .fault => .fault
    | .exhausted => .exhausted

theorem runWalks_cons_of_done {s s₁ : WalkState} {w : WalkCall} (ws : List WalkCall)
    (h : iotraceTraceInode w.env w.fuel s w.inode = .done s₁) :
    runWalks s (w :: ws) = runWalks s₁ ws := by
  simp only [runWalks, h]

/-- `key` is one of `U`, and not another identity of `k`'s object. -/
def Within (U : Finset InodeKey) (k key : InodeKey) : Prop :=
  key ∈ U ∧ (key.sameObject k = true → key = k)

/-- Every identity a call can look up is `Within U k`: the inode has no alias,
or an ancestor chain of such identities. -/
def CallWithin (U : Finset InodeKey) (k : InodeKey) (w : WalkCall) : Prop :=
  ∀ d, w.env.fs.dFindAlias w.inode = some d →
    ∃ c, AncestorChain w.env.fs ((d, w.inode) :: c) ∧ ∀ x ∈ (d, w.inode) :: c, Within U k x.2.key

/-- A run of calls that returns is, as the cache sees it, a run of uses of
identities the calls can look up. -/
theorem runWalks_runOps {U : Finset InodeKey} {k : InodeKey} :
    ∀ (calls : List WalkCall) (s s' : WalkState), (∀ w ∈ calls, CallWithin U k w) →
      runWalks s calls = .done s' →
      ∃ ops, runOps s.tracer ops = some s'.tracer ∧ ∀ op ∈ ops, Within U k op.inode.key
  | [], s, s', _, h => by
    cases h
    exact ⟨[], rfl, fun _ h => by cases h⟩
  | w :: ws, s, s', hw, h => by
    simp only [runWalks] at h
    split at h
    · rename_i s₁ h₁
      obtain ⟨ops₂, hrun₂, hmem₂⟩ :=
        runWalks_runOps ws s₁ s' (fun w' hw' => hw w' (List.mem_cons_of_mem _ hw')) h
      have hcall : ∃ ops₁, runOps s.tracer ops₁ = some s₁.tracer ∧
          ∀ op ∈ ops₁, Within U k op.inode.key := by
        cases ha : w.env.fs.dFindAlias w.inode with
        | none =>
          simp only [iotraceTraceInode, ha, Outcome.done.injEq] at h₁
          exact ⟨[], by rw [h₁]; rfl, fun _ h => by cases h⟩
        | some d =>
          obtain ⟨c, hc, hkeys⟩ := hw w (List.mem_cons_self _ _) d ha
          obtain ⟨ops, hrun, hmem⟩ := iotraceTraceInode_runOps hc ha h₁
          refine ⟨_ :: ops, hrun, fun op hop => ?_⟩
          obtain ⟨x, hx, e⟩ : ∃ x ∈ (d, w.inode) :: c, x.2 = op.inode := by
            rcases List.mem_cons.1 hop with rfl | hop
            · exact ⟨_, List.mem_cons_self _ _, iterOp_inode.symm⟩
            · exact List.mem_map.1 (hmem op hop)
          exact e ▸ hkeys x hx
      obtain ⟨ops₁, hrun₁, hmem₁⟩ := hcall
      refine ⟨ops₁ ++ ops₂, by rw [runOps_append, hrun₁, Option.some_bind, hrun₂], fun op hop => ?_⟩
      exact (List.mem_append.1 hop).elim (hmem₁ op) (hmem₂ op)
    · cases h
    · cases h

/-! ## The window -/

/-- **No second naming record within the window.**  Take a call from an inode
`a0` with an ancestor chain whose first reservation succeeds (so `a0` is
cached when it returns), then any run of calls that returns.  A further call
from `a0` returns at once, reserves and writes nothing, and only moves `a0` to
the front of the cache, provided the ancestors of `a0` and the identities the
calls in between can look up are in a set `U` with fewer than `CACHE_SIZE`
identities besides `a0`'s, none of them `a0`'s object with another ctime. -/
theorem rewalk_within_window {env : WalkEnv} {fuel : Nat} {s₀ s₁ s₂ : WalkState} {a0 : Inode}
    {d0 : Nat} {c : List (Nat × Inode)} {calls : List WalkCall} {U : Finset InodeKey}
    (ht : CacheInv s₀.tracer) (hc : AncestorChain env.fs ((d0, a0) :: c))
    (halias : env.fs.dFindAlias a0 = some d0) (hok : env.reserve s₀.reserved ≠ none)
    (hchain : ∀ x ∈ c, Within U a0.key x.2.key) (hcalls : ∀ w ∈ calls, CallWithin U a0.key w)
    (hcard : (U.erase a0.key).card < cacheSize)
    (h₁ : iotraceTraceInode env fuel s₀ a0 = .done s₁) (h₂ : runWalks s₁ calls = .done s₂)
    (env' : WalkEnv) (fuel' : Nat) :
    ∃ s₃, iotraceTraceInode env' (fuel' + 1) s₂ a0 = .done s₃ ∧ s₃.trace = s₂.trace ∧
      s₃.reserved = s₂.reserved ∧ (lruKeys s₃.tracer).Perm (lruKeys s₂.tracer) := by
  -- the first use maps `a0` (or finds it) and puts it in front
  obtain ⟨ops₁, hrun₁, hmem₁⟩ := iotraceTraceInode_runOps hc halias h₁
  rw [iterOp, if_neg hok] at hrun₁
  obtain ⟨t₁, ha₁, ht₁, hk₁⟩ := applyOp_refines ht (.lookupMap a0)
  rw [runOps_cons_of_applyOp ha₁] at hrun₁
  have hfront : FrontUsed a0.key (lruKeys t₁) (insert a0.key U) :=
    hk₁ ▸ frontUsed_lruApply_lookupMap a0
  -- every later use is of `a0` or of an identity of `U`
  obtain ⟨ops₂, hrun₂, hmem₂⟩ := runWalks_runOps calls s₁ s₂ hcalls h₂
  have hwithin : ∀ op ∈ ops₁ ++ ops₂, Within (insert a0.key U) a0.key op.inode.key := by
    intro op hop
    rcases List.mem_append.1 hop with hop | hop
    · obtain ⟨x, hx, e⟩ := List.mem_map.1 (hmem₁ op hop)
      rcases List.mem_cons.1 hx with rfl | hx
      · rw [← e]
        exact ⟨Finset.mem_insert_self _ _, fun _ => rfl⟩
      · obtain ⟨hU, hobj⟩ := hchain x hx
        exact e ▸ ⟨Finset.mem_insert_of_mem hU, hobj⟩
    · obtain ⟨hU, hobj⟩ := hmem₂ op hop
      exact ⟨Finset.mem_insert_of_mem hU, hobj⟩
  have hrun : runOps t₁ (ops₁ ++ ops₂) = some s₂.tracer := by
    rw [runOps_append, hrun₁, Option.some_bind, hrun₂]
  obtain ⟨t', h', hk'⟩ := runOps_frontUsed (by rwa [Finset.erase_insert_eq_erase]) (ops₁ ++ ops₂)
    t₁ ht₁ hfront (fun op hop => (hwithin op hop).1) (fun op hop => (hwithin op hop).2)
  rw [hrun, Option.some.injEq] at h'
  subst h'
  exact iotraceTraceInode_of_cached env' fuel' (runOps_inv ht₁ hrun) hk'

/-- A walk up `/dir/file` whose directory's reservation fails, then two walks
from the root of another filesystem: a further walk from the file returns at
once. -/
theorem rewalk_within_window_leaf :
    ∃ s₁ s₂, iotraceTraceInode secondFullEnv 4 freshState leafFile = .done s₁ ∧
      runWalks s₁ [⟨sinkOkEnv, 2, rootDir⟩, ⟨sinkOkEnv, 1, rootDir⟩] = .done s₂ ∧
      ∃ s₃, iotraceTraceInode secondFullEnv 1 s₂ leafFile = .done s₃ ∧ s₃.trace = s₂.trace ∧
        s₃.reserved = s₂.reserved ∧ (lruKeys s₃.tracer).Perm (lruKeys s₂.tracer) := by
  have hroot : AncestorChain sinkOkEnv.fs [(0, rootDir)] := .root rfl (.inr rfl)
  obtain ⟨s₁, h₁, -, hk₁, -⟩ := @leafWalk_done secondFullEnv rfl (by decide) (by decide)
  have h1 : secondFullEnv.reserve 1 = none := rfl
  rw [if_pos h1] at hk₁
  -- the first walk from the root records and caches it, the second hits
  have hr₁ : CacheReachable s₁.tracer := iotraceTraceInode_reachable h₁ (.created none)
  obtain ⟨s₁', h₂⟩ := rootWalk_from hr₁ (by rw [hk₁]; decide)
  obtain ⟨ht₁', hk₁'⟩ := iotraceTraceInode_keeps_first hr₁.inv hroot rfl (by simp) (by decide) h₂
    fun _ _ _ => Option.some_ne_none _
  obtain ⟨s₂, h₃, -⟩ := iotraceTraceInode_of_cached sinkOkEnv 0 ht₁' hk₁'
  have hrun : runWalks s₁ [⟨sinkOkEnv, 2, rootDir⟩, ⟨sinkOkEnv, 1, rootDir⟩] = .done s₂ := by
    rw [runWalks_cons_of_done _ h₂, runWalks_cons_of_done _ h₃]; rfl
  have hcall : ∀ w ∈ [(⟨sinkOkEnv, 2, rootDir⟩ : WalkCall), ⟨sinkOkEnv, 1, rootDir⟩],
      CallWithin {midDir.key, topDir.key, rootDir.key} leafFile.key w := by
    intro w hw d hd
    simp only [List.mem_cons, List.mem_singleton, List.not_mem_nil, or_false] at hw
    rcases hw with rfl | rfl <;> cases hd <;> exact ⟨[], hroot, by simp [Within]; decide⟩
  exact ⟨s₁, s₂, h₁, hrun, rewalk_within_window (createTracer_inv none) leafChain_ancestorChain rfl
    (by decide) (by simp [Within]; decide) hcall
    (Finset.card_erase_le.trans_lt (Finset.card_le_three.trans_lt (by decide))) h₁ hrun
    secondFullEnv 0⟩

end TraceInode.Window
