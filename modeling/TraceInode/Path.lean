import TraceInode.Completeness
import TraceInode.Rewalk

/-!
# What one walk writes

`iotrace_trace_inode` climbs an ancestor chain from the traced inode: at
each object it looks the object up, and on a miss it watches the parent
directory, writes the object's naming record and caches the object.  This
module says what a whole walk does, for every cache state and every outcome of
the trace buffer:

* it returns once it has at most one iteration more than the chain has
  objects, unless the root is its own parent and the root's naming record
  finds the buffer full (then the loop spins on the root, as
  `iotraceTraceInode_full_root` shows);
* it writes the naming records of a prefix of the chain, in order, each
  naming the object's parent, and adds the watches on the parents of that
  prefix;
* it stops at the end of the chain or at an object whose identity was cached
  before the walk or is one the walk has just written.

So a walk from an object none of whose ancestors is cached writes the whole
path to the root (`iotraceTraceInode_writes_path`).
-/

namespace TraceInode.Path

open TraceInode.Basic TraceInode.Cache TraceInode.Invariant TraceInode.Lru TraceInode.Walk
  TraceInode.WalkCache TraceInode.Completeness TraceInode.Rewalk

/-! ## The records and watches of a path -/

/-- `d_inode(dget_parent(d))`, the parent inode the loop body reads. -/
def parentInode (fs : Dcache) (d : Nat) : Option Inode := (fs.dgetParent d).bind fs.dInode

/-- The `_fs_add_mark` call on the parent inode `pi`: for a directory, when the
tracer has a monitor and the fsnotify operations are initialised. -/
def parentMark (env : WalkEnv) (watching : Bool) : Option Inode → List Inode
  | none => []
  | some pi => if sIsdir pi.iMode && watching && env.inited then [pi] else []

/-- The naming record `_trace_filename` commits for object `i` on dentry `d`,
as the `k`-th reservation with sequence number `sid`: none when the buffer is
full. -/
def nameRecord (env : WalkEnv) (sid : UInt64) (k d : Nat) (i : Inode) : List FsFileNameEvent :=
  match env.reserve k with
  | none => []
  | some slot =>
    let pi := parentInode env.fs d
    [⟨sid, i.sDev.toUInt64, ⟨i.iIno, i.iCtime⟩,
      ⟨(pi.map Inode.iIno).getD 0, (pi.map Inode.iCtime).getD zeroTimespec⟩,
      copyFileName env.fileNameSize slot (env.fs.dName d)⟩]

/-- The naming records of a walk that misses on each object of `c` in turn,
its first reservation being the `k`-th and the sequence number before it
`sid`. -/
def walkRecords (env : WalkEnv) : UInt64 → Nat → List (Nat × Inode) → List FsFileNameEvent
  | _, _, [] => []
  | sid, k, (d, i) :: c => nameRecord env (sid + 1) k d i ++ walkRecords env (sid + 1) (k + 1) c

/-- The watches such a walk adds. -/
def walkMarks (env : WalkEnv) (watching : Bool) : List (Nat × Inode) → List Inode
  | [] => []
  | (d, _) :: c => parentMark env watching (parentInode env.fs d) ++ walkMarks env watching c

/-! ## One miss -/

section Step

variable {env : WalkEnv} {s s' : WalkState} {i : Inode} {d : Nat}

/-- `watchParent` only adds the watch of `parentMark`. -/
private theorem watchParent_spec {pd : Option Nat} {pi : Option Inode}
    (h : watchParent env s pd = some (pi, s')) :
    pi = pd.bind env.fs.dInode ∧
      s' = { s with marks := s.marks ++ parentMark env s.tracer.fsm.isSome pi } := by
  cases pd with
  | none =>
    cases h
    exact ⟨rfl, by simp [parentMark]⟩
  | some p =>
    obtain ⟨q, hq, hq'⟩ := Option.map_eq_some'.1 h
    cases hq'
    refine ⟨hq.symm, ?_⟩
    simp only [parentMark]
    split_ifs <;> simp

/-- Everything one miss does: it watches the parent, writes the object's
naming record when the buffer has room, and then caches the object. -/
theorem missStep_spec {pi : Option Inode} {pd : Option Nat}
    (h : missStep env s i d = some (pi, pd, s')) :
    pd = env.fs.dgetParent d ∧ pi = parentInode env.fs d ∧
      s'.trace = s.trace ++ nameRecord env (s.sid + 1) s.reserved d i ∧
      s'.marks = s.marks ++ parentMark env s.tracer.fsm.isSome (parentInode env.fs d) ∧
      s'.reserved = s.reserved + 1 ∧ s'.sid = s.sid + 1 ∧ s'.tracer.fsm = s.tracer.fsm ∧
      (env.reserve s.reserved = none → s'.tracer = s.tracer) ∧
      (env.reserve s.reserved ≠ none → map s.tracer i = some s'.tracer) := by
  obtain ⟨rfl, s₁, s₂, hw, ht, rfl⟩ := missStep_eq_some h
  obtain ⟨rfl, rfl⟩ := watchParent_spec hw
  simp only [traceAndMap, traceFilename] at ht
  cases hr : env.reserve s.reserved with
  | none =>
    simp only [dgetOpt_reserved, hr, Bool.false_eq_true, if_false, Option.some.injEq] at ht
    subst ht
    simp [nameRecord, hr, parentInode]
  | some slot =>
    simp only [dgetOpt_reserved, hr, if_true, Option.map_eq_some'] at ht
    obtain ⟨t, hm, rfl⟩ := ht
    simp at hm
    simp [nameRecord, hr, parentInode, hm, map_fsm hm]

/-- On a cache with the invariant, a miss returns unless the parent dentry
has no inode. -/
private theorem missStep_exists (ht : CacheInv s.tracer)
    (hpar : ∀ p, env.fs.dgetParent d = some p → (env.fs.dInode p).isSome) :
    ∃ pi pd s', missStep env s i d = some (pi, pd, s') := by
  obtain ⟨t', hmap, -⟩ := map_refines ht i
  have hw : ∃ pi s₁, watchParent env (dgetOpt s (env.fs.dgetParent d)) (env.fs.dgetParent d) =
      some (pi, s₁) := by
    cases hp : env.fs.dgetParent d with
    | none => exact ⟨_, _, rfl⟩
    | some p =>
      obtain ⟨q, hq⟩ := Option.isSome_iff_exists.1 (hpar p hp)
      exact ⟨_, _, by rw [watchParent, hq]; rfl⟩
  obtain ⟨pi, s₁, hw⟩ := hw
  obtain ⟨-, rfl⟩ := watchParent_spec hw
  refine ⟨pi, env.fs.dgetParent d, ?_⟩
  cases hr : env.reserve s.reserved <;>
    simp only [missStep, hw, traceAndMap, traceFilename, hr, dgetOpt_tracer, dgetOpt_reserved, hmap,
      Option.some_bind, Option.map_some', Bool.false_eq_true, if_false, if_true, Option.some.injEq,
      Prod.mk.injEq, true_and, exists_eq']

/-- A miss on a cache with the invariant keeps the invariant, caches nothing
but the object, and caches the object when its record is written. -/
private theorem missStep_cache_keys {pi : Option Inode} {pd : Option Nat} (ht : CacheInv s.tracer)
    (hmiss : (lookup s.tracer i).1 = none)
    (hm : missStep env (s.withTracer (lookup s.tracer i).2) i d = some (pi, pd, s')) :
    CacheInv s'.tracer ∧ lruKeys s'.tracer ⊆ i.key :: lruKeys s.tracer ∧
      (env.reserve s.reserved ≠ none → i.key ∈ lruKeys s'.tracer) := by
  obtain ⟨-, -, -, -, -, -, -, hfull, hmap⟩ := missStep_spec hm
  simp only [withTracer_tracer, withTracer_reserved] at hfull hmap
  have hsub := lruKeys_lookup_subset ht i
  by_cases hr : env.reserve s.reserved = none
  · rw [hfull hr]
    exact ⟨lookup_inv ht i, hsub.trans (List.subset_cons_self _ _), fun h => absurd hr h⟩
  · have hm' := hmap hr
    obtain ⟨t', hm'', hkeys⟩ := map_refines (lookup_inv ht i) i
    obtain rfl : t' = s'.tracer := Option.some.inj (hm''.symm.trans hm')
    refine ⟨lookup_map_inv ht hmiss hm', ?_, fun _ => by
      rw [hkeys, lruInsert]; exact List.mem_cons_self _ _⟩
    exact (lruKeys_map_subset (lookup_inv ht i) hm').trans (List.cons_subset_cons _ hsub)

end Step

/-! ## A whole walk -/

/-- The parent of the first dentry of an ancestor chain has an inode. -/
private theorem parent_isSome_of_chain {fs : Dcache} {d p : Nat} {i : Inode}
    {c : List (Nat × Inode)} (hc : AncestorChain fs ((d, i) :: c)) (hp : fs.dgetParent d = some p) :
    (fs.dInode p).isSome := by
  cases hc with
  | root hi hr =>
    rcases hr with hr | hr <;> rw [hr] at hp <;> cases hp
    simp [hi]
  | cons _ hp' hrest =>
    rw [hp'] at hp
    cases hp
    simp [hrest.head_inode]

variable {env : WalkEnv}

/-- A miss whose parent dentry is `NULL` ends the loop. -/
private theorem walkLoop_of_no_parent {fuel : Nat} {s s₁ : WalkState} {i : Inode} {d : Nat}
    {pi : Option Inode} (h : (lookup s.tracer i).1 = none)
    (hm : missStep env (s.withTracer (lookup s.tracer i).2) i d = some (pi, none, s₁)) :
    walkLoop env (fuel + 1) s i d none = .done s₁ := by
  cases pi <;> simp [walkLoop, h, hm, dputOpt]

/-- The walk from object `i` on dentry `d`, with the rest `c` of its chain
above it.  Either it returns within `c.length + 2` iterations, having written
the records and watches of the first `j` objects, at the end of the chain or
at an object cached before or just written; or it reaches the root, its own
parent, having missed every object, the root's record finds the buffer full,
and the loop looks the root up again. -/
private theorem walkLoop_writes_path :
    ∀ (fuel : Nat) (c : List (Nat × Inode)) (s : WalkState) (d : Nat) (i : Inode),
      AncestorChain env.fs ((d, i) :: c) → CacheInv s.tracer → c.length + 2 ≤ fuel →
      (∃ s' j, walkLoop env fuel s i d none = .done s' ∧ j ≤ c.length + 1 ∧
        s'.trace = s.trace ++ walkRecords env s.sid s.reserved (((d, i) :: c).take j) ∧
        s'.marks = s.marks ++ walkMarks env s.tracer.fsm.isSome (((d, i) :: c).take j) ∧
        s'.reserved = s.reserved + j ∧
        ∀ x ∈ (((d, i) :: c).drop j).head?,
          x.2.key ∈ lruKeys s.tracer ∨ x.2.key ∈ (((d, i) :: c).take j).map (·.2.key)) ∨
      (∃ dr ir s₁, ((d, i) :: c).getLast? = some (dr, ir) ∧ env.fs.dgetParent dr = some dr ∧
        env.reserve (s.reserved + c.length) = none ∧
        walkLoop env fuel s i d none = walkLoop env (fuel - (c.length + 1)) s₁ ir dr none ∧
        s₁.trace = s.trace ++ walkRecords env s.sid s.reserved ((d, i) :: c) ∧
        s₁.marks = s.marks ++ walkMarks env s.tracer.fsm.isSome ((d, i) :: c) ∧
        s₁.reserved = s.reserved + (c.length + 1))
  | 0, c, _, _, _, _, _, hf => absurd hf (by omega)
  | fuel + 1, c, s, d, i, hc, ht, hf => by
    by_cases hit : (lookup s.tracer i).1.isSome
    · refine .inl ⟨_, 0, walkLoop_hit hit, by omega, by simp [walkRecords], by simp [walkMarks],
        rfl, ?_⟩
      simp [(lookup_isSome_iff ht i).1 hit]
    have hmiss : (lookup s.tracer i).1 = none := by simpa using hit
    obtain ⟨pi, pd, s₁, hm⟩ := @missStep_exists env (s.withTracer (lookup s.tracer i).2) i d
      (lookup_inv ht i) fun _ hp => parent_isSome_of_chain hc hp
    obtain ⟨hpd, hpi, htr, hmk, hres, hsid, hfsm, -, -⟩ := missStep_spec hm
    obtain ⟨ht₁, hsub, hin⟩ := missStep_cache_keys ht hmiss hm
    simp only [withTracer_trace, withTracer_marks, withTracer_reserved, withTracer_sid,
      withTracer_tracer, lookup_fsm] at htr hmk hres hsid hfsm
    cases hc with
    | root hi hr =>
      -- the last object: its record and watch are those of the whole chain
      have htr₁ : s₁.trace = s.trace ++ walkRecords env s.sid s.reserved [(d, i)] := by
        rw [htr]; simp [walkRecords]
      have hmk₁ : s₁.marks = s.marks ++ walkMarks env s.tracer.fsm.isSome [(d, i)] := by
        rw [hmk]; simp [walkMarks]
      rcases hr with hr | hr <;> rw [hr] at hpd <;> subst hpd
      · exact .inl ⟨s₁, 1, walkLoop_of_no_parent hmiss hm, le_rfl, htr₁, hmk₁, hres, by simp⟩
      rw [parentInode, hr, Option.some_bind, hi] at hpi
      subst hpi
      by_cases hok : env.reserve s.reserved = none
      · exact .inr ⟨d, i, s₁, rfl, hr, hok, walkLoop_next hmiss hm, htr₁, hmk₁, hres⟩
      -- the root was cached, so the loop hits it once more and stops
      cases fuel with
      | zero => omega
      | succ fuel =>
        rw [walkLoop_next hmiss hm, walkLoop_hit ((lookup_isSome_iff ht₁ i).2 (hin hok))]
        exact .inl ⟨_, 1, rfl, le_rfl, by simpa using htr₁, by simpa using hmk₁,
          by simpa using hres, by simp⟩
    | @cons _ p _ q c' hi hp hrest =>
      rw [hp] at hpd
      subst hpd
      rw [parentInode, hp, Option.some_bind, hrest.head_inode] at hpi
      subst hpi
      have htr₁ : ∀ c'', walkRecords env s.sid s.reserved ((d, i) :: c'') =
          nameRecord env s₁.sid s.reserved d i ++ walkRecords env s₁.sid s₁.reserved c'' := by
        intro c''; rw [walkRecords, hsid, hres]
      have hmk₁ : ∀ c'', walkMarks env s.tracer.fsm.isSome ((d, i) :: c'') =
          parentMark env s.tracer.fsm.isSome (parentInode env.fs d) ++
            walkMarks env s₁.tracer.fsm.isSome c'' := by
        intro c''; rw [walkMarks, hfsm]
      rcases walkLoop_writes_path fuel c' s₁ p q hrest ht₁ (by simp at hf; omega) with
        ⟨s', j, hw, hj, htr', hmk', hres', hstop⟩ |
          ⟨dr, ir, s₂, hlast, hself, hfull, hw, htr', hmk', hres'⟩
      · refine .inl ⟨s', j + 1, (walkLoop_next hmiss hm).trans hw, by simp at hj ⊢; omega, ?_, ?_,
          by rw [hres', hres]; omega, ?_⟩
        · rw [htr', htr, List.take_succ_cons, htr₁, List.append_assoc, hsid]
        · rw [hmk', hmk, List.take_succ_cons, hmk₁, List.append_assoc]
        · intro x hx
          rw [List.drop_succ_cons] at hx
          rw [List.take_succ_cons, List.map_cons, List.mem_cons]
          rcases hstop x hx with h | h
          · exact (List.mem_cons.1 (hsub h)).elim (fun h => .inr (.inl h)) .inl
          · exact .inr (.inr h)
      · refine .inr ⟨dr, ir, s₂, by rwa [List.getLast?_cons_cons], hself, ?_, ?_, ?_, ?_,
          by rw [hres', hres, List.length_cons]; omega⟩
        · have e : s₁.reserved + c'.length = s.reserved + ((p, q) :: c').length := by
            rw [hres, List.length_cons]; omega
          rwa [← e]
        · rw [walkLoop_next hmiss hm, hw, List.length_cons]
          congr 1
          omega
        · rw [htr', htr, htr₁, List.append_assoc, hsid]
        · rw [hmk', hmk, hmk₁, List.append_assoc]

/-- **What one walk writes.**  From a cache state with the invariant, a call
of `iotrace_trace_inode` on an inode whose ancestor chain has `c.length + 1`
objects either returns within `c.length + 2` iterations, or reaches the root,
its own parent, having missed every object, with the root's naming record
finding the buffer full, and goes round again at the root.  When it returns,
it has written the naming records of the first `j` objects of the chain, in
order and each naming the object's parent, added the watches on their
parents, and stopped at the end of the chain or at an object whose identity
was cached before the call or was just written by it; so when the chain's
identities are distinct and none of them was cached, it has written the
whole path. -/
theorem iotraceTraceInode_writes_path {fuel : Nat} {s : WalkState} {a0 : Inode} {d0 : Nat}
    {c : List (Nat × Inode)} (ht : CacheInv s.tracer) (hc : AncestorChain env.fs ((d0, a0) :: c))
    (halias : env.fs.dFindAlias a0 = some d0) (hfuel : c.length + 2 ≤ fuel) :
    (∃ s' j, iotraceTraceInode env fuel s a0 = .done s' ∧ j ≤ c.length + 1 ∧
      s'.trace = s.trace ++ walkRecords env s.sid s.reserved (((d0, a0) :: c).take j) ∧
      s'.marks = s.marks ++ walkMarks env s.tracer.fsm.isSome (((d0, a0) :: c).take j) ∧
      s'.reserved = s.reserved + j ∧
      (∀ x ∈ (((d0, a0) :: c).drop j).head?,
        x.2.key ∈ lruKeys s.tracer ∨ x.2.key ∈ (((d0, a0) :: c).take j).map (·.2.key)) ∧
      ((((d0, a0) :: c).map (·.2.key)).Nodup →
        (∀ x ∈ (d0, a0) :: c, x.2.key ∉ lruKeys s.tracer) → j = c.length + 1)) ∨
    (∃ dr ir s₁, ((d0, a0) :: c).getLast? = some (dr, ir) ∧ env.fs.dgetParent dr = some dr ∧
      env.reserve (s.reserved + c.length) = none ∧
      iotraceTraceInode env fuel s a0 = walkLoop env (fuel - (c.length + 1)) s₁ ir dr none ∧
      s₁.trace = s.trace ++ walkRecords env s.sid s.reserved ((d0, a0) :: c) ∧
      s₁.marks = s.marks ++ walkMarks env s.tracer.fsm.isSome ((d0, a0) :: c) ∧
      s₁.reserved = s.reserved + (c.length + 1)) := by
  have hrun : iotraceTraceInode env fuel s a0 = walkLoop env fuel (dget s d0) a0 d0 none := by
    rw [iotraceTraceInode, halias]
  rcases walkLoop_writes_path fuel c (dget s d0) d0 a0 hc ht hfuel with
    ⟨s', j, hw, hj, htr, hmk, hres, hstop⟩ | ⟨dr, ir, s₁, hlast, hself, hfull, hw, hspin⟩
  swap
  · exact .inr ⟨dr, ir, s₁, hlast, hself, hfull, hrun.trans hw, hspin⟩
  refine .inl ⟨s', j, hrun.trans hw, hj, htr, hmk, hres, hstop, fun hnd hcold => ?_⟩
  by_contra hne
  cases hd : ((d0, a0) :: c).drop j with
  | nil =>
    have := List.drop_eq_nil_iff.1 hd
    simp only [List.length_cons] at this
    omega
  | cons x rest =>
    have hxd : x ∈ ((d0, a0) :: c).drop j := by
      rw [hd]
      exact List.mem_cons_self _ _
    rcases hstop x (by simp [hd]) with h | h
    · exact hcold x (List.mem_of_mem_drop hxd) h
    · rw [← List.take_append_drop j ((d0, a0) :: c), List.map_append] at hnd
      exact (List.pairwise_append.1 hnd).2.2 _ h _ (List.mem_map_of_mem _ hxd) rfl

/-- The walk from the file on a fresh tracer, whose directory's record finds
the buffer full, writes the records of the file and of the root. -/
theorem iotraceTraceInode_writes_path_leaf :
    ∃ s', iotraceTraceInode secondFullEnv 4 freshState leafFile = .done s' ∧
      s'.trace = walkRecords secondFullEnv 0 0 leafChain ∧ s'.reserved = 3 := by
  rcases @iotraceTraceInode_writes_path secondFullEnv 4 freshState leafFile 1 _
      (createTracer_inv none) leafChain_ancestorChain rfl (by decide) with
    ⟨s', j, hw, -, htr, -, hres, -, hcold⟩ | ⟨-, -, -, -, -, hfull, -⟩
  · obtain rfl : j = 3 := hcold (by decide) (by simp [freshState, lruKeys_createTracer])
    exact ⟨s', hw, by simpa [freshState] using htr, by simpa [freshState] using hres⟩
  · exact absurd hfull (by decide)

end TraceInode.Path
