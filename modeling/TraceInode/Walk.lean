import TraceInode.Lru

/-!
# The ancestor walk of `iotrace_trace_inode`

The walk climbs from a traced inode towards the filesystem root.  At each
level it looks the inode up in the cache and stops on a hit; on a miss it
takes a reference on the parent dentry, watches the parent if it is a
directory, writes a naming record, caches the inode if the record was
written, drops its reference on the current dentry and moves up.

The collaborators are explicit:

* `Dcache` is what the walk reads of the dentry cache (`d_find_alias`,
  `dget_parent`, `d_inode`, `d_name`); dentries are named by numbers;
* `WalkEnv.reserve k` is the outcome of the `k`-th
  `octf_trace_get_wr_buffer`: `none` when the buffer is full, `some slot`
  with the previous content of the reserved record's `file_name` array
  otherwise;
* the calls to `_fs_add_mark` are recorded in `WalkState.marks`, and the
  reference count of every dentry in `WalkState.dref`.

The `do … while` loop runs on fuel: `Outcome.exhausted` means the loop had
not ended within the given number of iterations, `Outcome.fault` that the
code dereferenced a `NULL` inode or took `list_last_entry` of an empty list.

The `file_name` field of a naming record holds the first
`min(n, sizeof - 1)` bytes of the dentry's name and a `NUL` after them, so
read as a C string it is the name cut to fit (`traceFilename_fileName`).
-/

namespace TraceInode.Walk

open TraceInode.Basic TraceInode.Cache TraceInode.Invariant TraceInode.Lru

/-! ## Collaborators and state -/

/-- What `iotrace_trace_inode` reads of the dentry cache. -/
structure Dcache where
  /-- `d_find_alias(inode)`. -/
  dFindAlias : Inode → Option Nat
  /-- `dget_parent(dentry)`; a filesystem root is its own parent. -/
  dgetParent : Nat → Option Nat
  /-- `d_inode(dentry)`. -/
  dInode : Nat → Option Inode
  /-- The bytes of `dentry->d_name`. -/
  dName : Nat → List UInt8

/-- The environment of one call of `iotrace_trace_inode`. -/
structure WalkEnv where
  fs : Dcache
  /-- `fsnotify_ops.inited`. -/
  inited : Bool
  /-- `sizeof(ev->file_name)`, fixed by `iotrace_event.h`. -/
  fileNameSize : Nat
  /-- Outcome of the `k`-th trace-buffer reservation. -/
  reserve : Nat → Option (List UInt8)

/-- The state the walk reads and writes. -/
structure WalkState where
  tracer : InodeTracer
  /-- `state->sid`. -/
  sid : UInt64
  /-- Naming records committed to the trace, oldest first. -/
  trace : List FsFileNameEvent
  /-- Inodes passed to `_fs_add_mark`, oldest first. -/
  marks : List Inode
  /-- Reference count of every dentry. -/
  dref : Nat → Int
  /-- Number of reservations made so far. -/
  reserved : Nat

/-- How a run of the walk ends. -/
inductive Outcome
  | done (s : WalkState)
  | fault
  | exhausted

/-- A reference count with one more reference on `d`. -/
def refInc (r : Nat → Int) (d : Nat) : Nat → Int := Function.update r d (r d + 1)

/-- A reference count with one reference fewer on `d`. -/
def refDec (r : Nat → Int) (d : Nat) : Nat → Int := Function.update r d (r d - 1)

/-- `dget`: take a reference on a dentry. -/
def dget (s : WalkState) (d : Nat) : WalkState := { s with dref := refInc s.dref d }

/-- `dput`: drop a reference on a dentry. -/
def dput (s : WalkState) (d : Nat) : WalkState := { s with dref := refDec s.dref d }

/-- The reference `dget_parent` returns with a non-`NULL` dentry. -/
def dgetOpt (s : WalkState) : Option Nat → WalkState
  | none => s
  | some d => dget s d

/-- `if (d) dput(d);` -/
def dputOpt (s : WalkState) : Option Nat → WalkState
  | none => s
  | some d => dput s d

/-- The walk state with the cache replaced. -/
def WalkState.withTracer (s : WalkState) (t : InodeTracer) : WalkState := { s with tracer := t }

/-! ## `_trace_filename` -/

/-- The `file_name` array after the copy of `_trace_filename`: `memcpy_s` of
`to_copy = min(smax, dmax)` bytes, then a `NUL` at index `to_copy`.  This is
the `memcpy_s` of C11 Annex K, which with `to_copy ≤ dmax` copies `to_copy`
bytes and leaves the rest of the buffer as it was, also for `to_copy = 0`. -/
def copyFileName (size : Nat) (slot name : List UInt8) : List UInt8 :=
  let toCopy := min name.length (size - 1)
  (name.take toCopy ++ slot.drop toCopy).set toCopy 0

/-- `_trace_filename`: bump `state->sid`, reserve a record and fill it in.
The flag is `0 == result`. -/
def traceFilename (env : WalkEnv) (s : WalkState) (partId fileId parentId : UInt64)
    (ctime parentCtime : Timespec) (dentry : Nat) : Bool × WalkState :=
  let k := s.reserved
  let s := { s with sid := s.sid + 1, reserved := k + 1 }
  match env.reserve k with
  | none => (false, s)
  | some slot =>
    (true, { s with trace := s.trace ++
      [⟨s.sid, partId, ⟨fileId, ctime⟩, ⟨parentId, parentCtime⟩,
        copyFileName env.fileNameSize slot (env.fs.dName dentry)⟩] })

/-! ## The loop -/

/-- The parent step of the loop body: `parent_inode = d_inode(parent_dentry)`
and, for a directory, `_fs_add_mark` when the tracer has a monitor and the
fsnotify operations are initialised.  `none` is the dereference of a `NULL`
`parent_inode` by `S_ISDIR`. -/
def watchParent (env : WalkEnv) (s : WalkState) : Option Nat → Option (Option Inode × WalkState)
  | none => some (none, s)
  | some p =>
    (env.fs.dInode p).map fun pi =>
      (some pi, if sIsdir pi.iMode && s.tracer.fsm.isSome && env.inited then
        { s with marks := s.marks ++ [pi] } else s)

/-- The naming record of `this_inode`, and `_map` when it was written. -/
def traceAndMap (env : WalkEnv) (s : WalkState) (thisInode : Inode) (thisDentry : Nat)
    (parentInode : Option Inode) : Option WalkState :=
  let (ok, s) := traceFilename env s thisInode.sDev.toUInt64 thisInode.iIno
    ((parentInode.map Inode.iIno).getD 0) thisInode.iCtime
    ((parentInode.map Inode.iCtime).getD zeroTimespec) thisDentry
  if ok then (map s.tracer thisInode).map fun tracer => { s with tracer } else some s

/-- The miss branch of the loop body, from `dget_parent` to
`this_dentry = parent_dentry`: it returns `parent_inode`, `parent_dentry` and
the state, or `none` for a `NULL` dereference. -/
def missStep (env : WalkEnv) (s : WalkState) (thisInode : Inode) (thisDentry : Nat) :
    Option (Option Inode × Option Nat × WalkState) :=
  let parentDentry := env.fs.dgetParent thisDentry
  (watchParent env (dgetOpt s parentDentry) parentDentry).bind fun (parentInode, s) =>
    (traceAndMap env s thisInode thisDentry parentInode).map fun s =>
      (parentInode, parentDentry, dput s thisDentry)

/-- The `do … while (this_inode && this_dentry)` loop, entered at the top of
an iteration with `this_inode`, `this_dentry` and `parent_dentry`, followed by
the two conditional `dput`s after the loop. -/
def walkLoop (env : WalkEnv) : Nat → WalkState → Inode → Nat → Option Nat → Outcome
  | 0, _, _, _, _ => .exhausted
  | fuel + 1, s, thisInode, thisDentry, parentDentry =>
    if (lookup s.tracer thisInode).1.isSome then
      .done (dputOpt (dput (s.withTracer (lookup s.tracer thisInode).2) thisDentry) parentDentry)
    else
      match missStep env (s.withTracer (lookup s.tracer thisInode).2) thisInode thisDentry with
      | none => .fault
      | some (some pi, some pd, s) => walkLoop env fuel s pi pd none
      | some (_, pd, s) => .done (dputOpt (dputOpt s pd) none)

/-- `iotrace_trace_inode`, with at most `fuel` iterations of its loop. -/
def iotraceTraceInode (env : WalkEnv) (fuel : Nat) (s : WalkState) (thisInode : Inode) : Outcome :=
  match env.fs.dFindAlias thisInode with
  | none => .done s
  | some d => walkLoop env fuel (dget s d) thisInode d none

/-! ## Field lemmas -/

section Fields

variable (s : WalkState) (d : Nat) (t : InodeTracer)

@[simp] theorem dget_tracer : (dget s d).tracer = s.tracer := rfl
@[simp] theorem dput_tracer : (dput s d).tracer = s.tracer := rfl
@[simp] theorem dget_trace : (dget s d).trace = s.trace := rfl
@[simp] theorem dput_trace : (dput s d).trace = s.trace := rfl
@[simp] theorem dget_dref : (dget s d).dref = refInc s.dref d := rfl
@[simp] theorem dput_dref : (dput s d).dref = refDec s.dref d := rfl
@[simp] theorem dget_reserved : (dget s d).reserved = s.reserved := rfl
@[simp] theorem dput_reserved : (dput s d).reserved = s.reserved := rfl
@[simp] theorem dgetOpt_tracer (pd : Option Nat) : (dgetOpt s pd).tracer = s.tracer := by
  cases pd <;> rfl
@[simp] theorem dgetOpt_trace (pd : Option Nat) : (dgetOpt s pd).trace = s.trace := by
  cases pd <;> rfl
@[simp] theorem dgetOpt_reserved (pd : Option Nat) : (dgetOpt s pd).reserved = s.reserved := by
  cases pd <;> rfl
@[simp] theorem dputOpt_tracer (pd : Option Nat) : (dputOpt s pd).tracer = s.tracer := by
  cases pd <;> rfl
@[simp] theorem dputOpt_trace (pd : Option Nat) : (dputOpt s pd).trace = s.trace := by
  cases pd <;> rfl
@[simp] theorem dputOpt_reserved (pd : Option Nat) : (dputOpt s pd).reserved = s.reserved := by
  cases pd <;> rfl
@[simp] theorem withTracer_tracer : (s.withTracer t).tracer = t := rfl
@[simp] theorem withTracer_trace : (s.withTracer t).trace = s.trace := rfl
@[simp] theorem withTracer_dref : (s.withTracer t).dref = s.dref := rfl
@[simp] theorem withTracer_reserved : (s.withTracer t).reserved = s.reserved := rfl
@[simp] theorem dget_sid : (dget s d).sid = s.sid := rfl
@[simp] theorem dput_sid : (dput s d).sid = s.sid := rfl
@[simp] theorem dgetOpt_sid (pd : Option Nat) : (dgetOpt s pd).sid = s.sid := by
  cases pd <;> rfl
@[simp] theorem dputOpt_sid (pd : Option Nat) : (dputOpt s pd).sid = s.sid := by
  cases pd <;> rfl
@[simp] theorem withTracer_sid : (s.withTracer t).sid = s.sid := rfl
@[simp] theorem dget_marks : (dget s d).marks = s.marks := rfl
@[simp] theorem dput_marks : (dput s d).marks = s.marks := rfl
@[simp] theorem dgetOpt_marks (pd : Option Nat) : (dgetOpt s pd).marks = s.marks := by
  cases pd <;> rfl
@[simp] theorem dputOpt_marks (pd : Option Nat) : (dputOpt s pd).marks = s.marks := by
  cases pd <;> rfl
@[simp] theorem withTracer_marks : (s.withTracer t).marks = s.marks := rfl

end Fields

private theorem refDec_refInc (r : Nat → Int) (d : Nat) : refDec (refInc r d) d = r := by
  funext x
  by_cases hx : x = d <;> simp [refInc, refDec, Function.update_apply, hx]

/-- Taking the parent's reference and dropping the child's moves the one
held reference from `d` to `p`. -/
private theorem refDec_refInc_refInc (r : Nat → Int) (d p : Nat) :
    refDec (refInc (refInc r d) p) d = refInc r p := by
  funext x
  simp only [refInc, refDec, Function.update_apply]
  split_ifs <;> subst_vars <;> omega

/-- `watchParent` only adds a watch. -/
theorem watchParent_eq_some {env : WalkEnv} {s s' : WalkState} {pd : Option Nat}
    {pi : Option Inode} (h : watchParent env s pd = some (pi, s')) :
    s'.dref = s.dref ∧ s'.tracer = s.tracer ∧ s'.trace = s.trace ∧ s'.reserved = s.reserved ∧
      pi = pd.bind env.fs.dInode ∧ pi.isSome = pd.isSome := by
  cases pd with
  | none => cases h; exact ⟨rfl, rfl, rfl, rfl, rfl, rfl⟩
  | some p =>
    obtain ⟨q, hq, hq'⟩ := Option.map_eq_some'.1 h
    cases hq'
    split <;> exact ⟨rfl, rfl, rfl, rfl, hq.symm, rfl⟩

private theorem traceAndMap_dref {env : WalkEnv} {s s' : WalkState} {i : Inode} {d : Nat}
    {pi : Option Inode} (h : traceAndMap env s i d pi = some s') : s'.dref = s.dref := by
  simp only [traceAndMap, traceFilename] at h
  split at h <;> split at h
  all_goals first
    | (cases h; rfl)
    | (obtain ⟨_, -, rfl⟩ := Option.map_eq_some'.1 h; rfl)

/-- Inversion of the miss branch. -/
theorem missStep_eq_some {env : WalkEnv} {s s' : WalkState} {i : Inode} {d : Nat}
    {pi : Option Inode} {pd : Option Nat} (h : missStep env s i d = some (pi, pd, s')) :
    pd = env.fs.dgetParent d ∧ ∃ s₁ s₂, watchParent env (dgetOpt s pd) pd = some (pi, s₁) ∧
      traceAndMap env s₁ i d pi = some s₂ ∧ s' = dput s₂ d := by
  simp only [missStep, Option.bind_eq_some, Option.map_eq_some', Prod.mk.injEq] at h
  obtain ⟨⟨pi', s₁⟩, hw, s₂, ht, rfl, rfl, rfl⟩ := h
  exact ⟨rfl, s₁, s₂, hw, ht, rfl⟩

private theorem missStep_dref {env : WalkEnv} {s s' : WalkState} {i : Inode} {d : Nat}
    {pi : Option Inode} {pd : Option Nat} (h : missStep env s i d = some (pi, pd, s')) :
    s'.dref = refDec (dgetOpt s pd).dref d := by
  obtain ⟨-, s₁, s₂, hw, ht, rfl⟩ := missStep_eq_some h
  rw [dput_dref, traceAndMap_dref ht, (watchParent_eq_some hw).1]

/-- A hit ends the loop. -/
theorem walkLoop_hit {env : WalkEnv} {fuel : Nat} {s : WalkState} {i : Inode} {d : Nat}
    {pd : Option Nat} (h : (lookup s.tracer i).1.isSome) :
    walkLoop env (fuel + 1) s i d pd =
      .done (dputOpt (dput (s.withTracer (lookup s.tracer i).2) d) pd) := by
  simp only [walkLoop, h, if_true]

/-- A miss with a parent that has an inode moves the loop up one level. -/
theorem walkLoop_next {env : WalkEnv} {fuel : Nat} {s s₁ : WalkState} {i pi : Inode} {d pd : Nat}
    (h : (lookup s.tracer i).1 = none)
    (hm : missStep env (s.withTracer (lookup s.tracer i).2) i d = some (some pi, some pd, s₁)) :
    walkLoop env (fuel + 1) s i d none = walkLoop env fuel s₁ pi pd none := by
  simp only [walkLoop, h, Option.isSome_none, Bool.false_eq_true, if_false, hm]

/-- The miss branch when the parent dentry has an inode and the reservation
succeeds: the naming record of `this_inode` is appended and `this_inode` is
mapped. -/
private theorem missStep_of_reserved {env : WalkEnv} {s : WalkState} {i pi : Inode} {d p : Nat}
    {slot : List UInt8} {t' : InodeTracer} (hp : env.fs.dgetParent d = some p)
    (hpi : env.fs.dInode p = some pi) (hr : env.reserve s.reserved = some slot)
    (hm : map s.tracer i = some t') :
    ∃ s₁, missStep env s i d = some (some pi, some p, s₁) ∧ s₁.tracer = t' ∧
      s₁.reserved = s.reserved + 1 ∧ ∃ ev, s₁.trace = s.trace ++ [ev] ∧
        ev.partitionId = i.sDev.toUInt64 ∧ ev.fileId = ⟨i.iIno, i.iCtime⟩ ∧
        ev.fileParentId = ⟨pi.iIno, pi.iCtime⟩ := by
  simp only [missStep, hp, dgetOpt, watchParent, hpi, Option.map_some', Option.bind_some]
  split <;> simp [traceAndMap, traceFilename, hr, hm, dput]

/-- The miss branch when the parent dentry has an inode and the trace buffer
is full: nothing is recorded and nothing is mapped. -/
private theorem missStep_of_full {env : WalkEnv} {s : WalkState} {i pi : Inode} {d p : Nat}
    (hp : env.fs.dgetParent d = some p) (hpi : env.fs.dInode p = some pi)
    (hr : env.reserve s.reserved = none) :
    ∃ s₁, missStep env s i d = some (some pi, some p, s₁) ∧ s₁.tracer = s.tracer ∧
      s₁.reserved = s.reserved + 1 ∧ s₁.trace = s.trace := by
  simp only [missStep, hp, dgetOpt, watchParent, hpi, Option.map_some', Option.bind_some]
  split <;> simp [traceAndMap, traceFilename, hr, dput]

/-! ## Walks from a root -/

/-- A miss on `i`, from a reachable cache whose abstract list holds no
identity of `i`'s object, at a dentry whose parent `p` has the inode `pi`: the
walk moves up to `p`, and it records `i` and caches it exactly when its
reservation succeeds. -/
private theorem missStep_lru {env : WalkEnv} {s : WalkState} {i pi : Inode} {d p : Nat}
    (ht : CacheReachable s.tracer)
    (hl : lruLookup i.key (lruKeys s.tracer) = (false, lruKeys s.tracer))
    (hp : env.fs.dgetParent d = some p) (hpi : env.fs.dInode p = some pi) :
    (lookup s.tracer i).1 = none ∧
      ∃ s₁, missStep env (s.withTracer (lookup s.tracer i).2) i d = some (some pi, some p, s₁) ∧
        CacheReachable s₁.tracer ∧ s₁.reserved = s.reserved + 1 ∧
        lruKeys s₁.tracer = (if env.reserve s.reserved = none then lruKeys s.tracer
          else lruInsert i.key (lruKeys s.tracer)) ∧
        s₁.trace.map FsFileNameEvent.fileId = s.trace.map FsFileNameEvent.fileId ++
          (if env.reserve s.reserved = none then [] else [⟨i.iIno, i.iCtime⟩]) := by
  have hlu := lookup_refines ht.inv i
  rw [hl] at hlu
  have hmiss : (lookup s.tracer i).1 = none := by simpa using hlu.1
  refine ⟨hmiss, ?_⟩
  cases hr : env.reserve s.reserved with
  | none =>
    obtain ⟨s₁, hs₁, ht₁, hres₁, htr₁⟩ :=
      missStep_of_full (s := s.withTracer (lookup s.tracer i).2) hp hpi hr
    refine ⟨s₁, hs₁, by rw [ht₁]; exact .looked i ht, hres₁, ?_, ?_⟩
    · rw [if_pos rfl, ht₁, withTracer_tracer, hlu.2]
    · rw [if_pos rfl, htr₁, withTracer_trace, List.append_nil]
  | some slot =>
    obtain ⟨t', hm, hk⟩ := map_refines (lookup_inv ht.inv i) i
    obtain ⟨s₁, hs₁, ht₁, hres₁, ev, htr₁, -, hf, -⟩ :=
      missStep_of_reserved (s := s.withTracer (lookup s.tracer i).2) hp hpi hr hm
    refine ⟨s₁, hs₁, by rw [ht₁]; exact .mapped i ht hmiss hm, hres₁, ?_, ?_⟩
    · rw [if_neg (Option.some_ne_none slot), ht₁, hk, hlu.2]
    · rw [if_neg (Option.some_ne_none slot), htr₁, withTracer_trace, List.map_append,
        List.map_singleton, hf]

/-- A root directory inode, on dentry `0`. -/
def rootDir : Inode := ⟨2, 8, ⟨1, 0⟩, 0o040755⟩

/-- A filesystem made of its root: dentry `0`, its own parent, as `dget_parent`
returns it for a root. -/
def rootOnlyDcache : Dcache where
  dFindAlias _ := some 0
  dgetParent _ := some 0
  dInode _ := some rootDir
  dName _ := [47]

/-- A tracer just created, before any walk. -/
def freshState : WalkState := ⟨createTracer none, 0, [], [], fun _ => 0, 0⟩

/-- Every reservation succeeds. -/
def sinkOkEnv : WalkEnv := ⟨rootOnlyDcache, true, 256, fun _ => some []⟩

/-- From a reachable cache holding no identity of the root's object, the walk
from the root with room in the buffer records and caches the root, then stops
on the hit at the next iteration. -/
theorem rootWalk_from {s : WalkState} (ht : CacheReachable s.tracer)
    (hl : lruLookup rootDir.key (lruKeys s.tracer) = (false, lruKeys s.tracer)) :
    ∃ s', iotraceTraceInode sinkOkEnv 2 s rootDir = .done s' := by
  obtain ⟨hl1, s1, hs1, hr1, -, hk1, -⟩ :=
    @missStep_lru sinkOkEnv (dget s 0) rootDir rootDir 0 0 ht hl rfl rfl
  have hres : sinkOkEnv.reserve (dget s 0).reserved ≠ none := Option.some_ne_none _
  have hit : (lookup s1.tracer rootDir).1.isSome := by
    rw [(lookup_refines hr1.inv rootDir).1, hk1, if_neg hres]
    simp [lruLookup, lruInsert]
  exact ⟨_, (walkLoop_next hl1 hs1).trans (walkLoop_hit hit)⟩

/-! ## A walk up a path -/

/-- A regular file `10` in directory `11` under the root `12`, on device `8`. -/
def leafFile : Inode := ⟨10, 8, ⟨5, 0⟩, 0o100644⟩
def midDir : Inode := ⟨11, 8, ⟨4, 0⟩, 0o040755⟩
def topDir : Inode := ⟨12, 8, ⟨3, 0⟩, 0o040755⟩

/-- The path `/dir/file` on dentries `3`, `2` and `1`; the root is its own
parent. -/
def pathDcache : Dcache where
  dFindAlias i := if i = leafFile then some 1 else if i = midDir then some 2
    else if i = topDir then some 3 else none
  dgetParent d := if d = 1 then some 2 else if d = 2 then some 3 else if d = 3 then some 3 else none
  dInode d := if d = 1 then some leafFile else if d = 2 then some midDir
    else if d = 3 then some topDir else none
  dName _ := [120]

/-- A sink whose second reservation finds the buffer full. -/
def secondFullEnv : WalkEnv :=
  ⟨pathDcache, false, 16, fun k => if k = 1 then none else some []⟩

/-- Every reservation on `pathDcache` succeeds. -/
def pathOkEnv : WalkEnv := ⟨pathDcache, false, 16, fun _ => some []⟩

/-- The walk from the file of `pathDcache` on a fresh tracer, when the file's
and the root's reservations succeed: it records and caches the file, records
and caches the directory when its own reservation succeeds, records and
caches the root, and stops on the root at the fourth iteration. -/
theorem leafWalk_done {env : WalkEnv} (hfs : env.fs = pathDcache) (h0 : env.reserve 0 ≠ none)
    (h2 : env.reserve 2 ≠ none) :
    ∃ s', iotraceTraceInode env 4 freshState leafFile = .done s' ∧ s'.reserved = 3 ∧
      lruKeys s'.tracer =
        topDir.key :: ((if env.reserve 1 = none then [] else [midDir.key]) ++ [leafFile.key]) ∧
      s'.trace.map FsFileNameEvent.fileId = ⟨leafFile.iIno, leafFile.iCtime⟩ ::
        ((if env.reserve 1 = none then [] else [⟨midDir.iIno, midDir.iCtime⟩]) ++
          [⟨topDir.iIno, topDir.iCtime⟩]) := by
  -- the file misses, and is recorded and cached
  obtain ⟨hl1, s1, hs1, hr1, hres1, hk1, htr1⟩ := @missStep_lru env (dget freshState 1) leafFile
    midDir 1 2 (.created none) (by rw [dget_tracer, freshState, lruKeys_createTracer]; decide)
    (by rw [hfs]; rfl) (by rw [hfs]; rfl)
  have e0 : (dget freshState 1).reserved = 0 := rfl
  rw [e0, if_neg h0] at hk1 htr1
  replace hres1 : s1.reserved = 1 := by rw [hres1, e0]
  replace hk1 : lruKeys s1.tracer = [leafFile.key] := by
    rw [hk1, dget_tracer, freshState, lruKeys_createTracer]; decide
  -- the directory misses, and is recorded and cached when its reservation succeeds
  obtain ⟨hl2, s2, hs2, hr2, hres2, hk2, htr2⟩ := @missStep_lru env s1 midDir topDir 2 3 hr1
    (by rw [hk1]; decide) (by rw [hfs]; rfl) (by rw [hfs]; rfl)
  rw [hres1] at hk2 htr2
  rw [hk1] at hk2
  replace hres2 : s2.reserved = 2 := by rw [hres2, hres1]
  -- the root misses, and is recorded and cached
  obtain ⟨hl3, s3, hs3, hr3, hres3, hk3, htr3⟩ := @missStep_lru env s2 topDir topDir 3 3 hr2
    (by rw [hk2]; split <;> decide) (by rw [hfs]; rfl) (by rw [hfs]; rfl)
  rw [hres2, if_neg h2] at hk3 htr3
  rw [hk2] at hk3
  -- and hits at the fourth iteration
  have hl4 := lookup_refines hr3.inv topDir
  rw [hk3] at hl4
  have hrun : iotraceTraceInode env 4 freshState leafFile =
      walkLoop env 4 (dget freshState 1) leafFile 1 none := by
    unfold iotraceTraceInode; rw [hfs]; rfl
  rw [hrun, walkLoop_next hl1 hs1, walkLoop_next hl2 hs2, walkLoop_next hl3 hs3,
    walkLoop_hit (hl4.1.trans (by split <;> decide))]
  refine ⟨_, rfl, ?_, ?_, ?_⟩
  · simp only [dputOpt_reserved, dput_reserved, withTracer_reserved, hres3, hres2]
  · rw [dputOpt_tracer, dput_tracer, withTracer_tracer, hl4.2]
    split <;> decide
  · rw [dputOpt_trace, dput_trace, withTracer_trace, htr3, htr2, htr1]
    simp only [List.map, List.nil_append, List.singleton_append, List.append_assoc]
    rfl

/-! ## The name field of a naming record -/

section FileName

variable {size : Nat} {slot name : List UInt8}

/-- The field after the copy, for a reserved record whose `file_name` array
has `size` bytes: the name up to `size - 1` bytes, a `NUL`, and the bytes the
copy did not reach. -/
private theorem copyFileName_eq (hsize : 0 < size) (hslot : slot.length = size) :
    copyFileName size slot name =
      name.take (size - 1) ++ 0 :: slot.drop (min name.length (size - 1) + 1) := by
  have hk : min name.length (size - 1) < slot.length := by omega
  have hlen : (name.take (min name.length (size - 1))).length = min name.length (size - 1) := by
    simp
  have htake : name.take (min name.length (size - 1)) = name.take (size - 1) := by
    rw [Nat.min_comm, ← List.take_take, List.take_length]
  simp only [copyFileName]
  rw [List.set_append_right _ _ hlen.le, hlen, Nat.sub_self, List.drop_eq_getElem_cons hk,
    List.set_cons_zero, htake]

/-- The copied bytes and the `NUL` end at index `min(n, size - 1) + 1`. -/
private theorem length_take_append_nul :
    (name.take (size - 1) ++ [0]).length = min name.length (size - 1) + 1 := by
  rw [List.length_append, List.length_take, Nat.min_comm]
  rfl

section Field

variable (hsize : 0 < size) (hslot : slot.length = size)
include hsize hslot

private theorem copyFileName_length : (copyFileName size slot name).length = size := by
  simp only [copyFileName_eq hsize hslot, List.length_append, List.length_take, List.length_cons,
    List.length_drop, hslot]
  omega

private theorem copyFileName_take :
    (copyFileName size slot name).take (min name.length (size - 1) + 1) =
      name.take (size - 1) ++ [0] := by
  rw [copyFileName_eq hsize hslot, ← List.singleton_append, ← List.append_assoc,
    List.take_left' length_take_append_nul]

private theorem copyFileName_drop :
    (copyFileName size slot name).drop (min name.length (size - 1) + 1) =
      slot.drop (min name.length (size - 1) + 1) := by
  rw [copyFileName_eq hsize hslot, ← List.singleton_append, ← List.append_assoc,
    List.drop_left' length_take_append_nul]

/-- Read up to its first `NUL`, the field gives back the name cut to
`size - 1` bytes. -/
private theorem copyFileName_takeWhile (hname : 0 ∉ name) :
    (copyFileName size slot name).takeWhile (· != 0) = name.take (size - 1) := by
  rw [copyFileName_eq hsize hslot, List.takeWhile_append_of_pos]
  · simp
  · intro a ha
    simpa using fun h : a = 0 => hname (h ▸ List.mem_of_mem_take ha)

end Field

/-- When its reservation succeeds, `_trace_filename` commits one naming
record whose `file_name` field keeps its `sizeof`, holds the name's first
`min(n, sizeof - 1)` bytes and a `NUL` after them, and is as reserved beyond
that; a name without `NUL` is read back from it cut to `sizeof - 1` bytes. -/
theorem traceFilename_fileName {env : WalkEnv} {s : WalkState} {partId fileId parentId : UInt64}
    {ctime parentCtime : Timespec} {dentry : Nat} (hr : env.reserve s.reserved = some slot)
    (hsize : 0 < env.fileNameSize) (hslot : slot.length = env.fileNameSize)
    (hname : 0 ∉ env.fs.dName dentry) :
    ∃ s' ev, traceFilename env s partId fileId parentId ctime parentCtime dentry = (true, s') ∧
      s'.trace = s.trace ++ [ev] ∧
      ev.fileName.length = env.fileNameSize ∧
      ev.fileName.take (min (env.fs.dName dentry).length (env.fileNameSize - 1) + 1) =
        (env.fs.dName dentry).take (env.fileNameSize - 1) ++ [0] ∧
      ev.fileName.drop (min (env.fs.dName dentry).length (env.fileNameSize - 1) + 1) =
        slot.drop (min (env.fs.dName dentry).length (env.fileNameSize - 1) + 1) ∧
      ev.fileName.takeWhile (· != 0) = (env.fs.dName dentry).take (env.fileNameSize - 1) := by
  simp only [traceFilename, hr]
  exact ⟨_, _, rfl, rfl, copyFileName_length hsize hslot, copyFileName_take hsize hslot,
    copyFileName_drop hsize hslot, copyFileName_takeWhile hsize hslot hname⟩

/-- A dentry named `"abcde"`, longer than a four-byte field holds. -/
def longNameDcache : Dcache where
  dFindAlias _ := some 0
  dgetParent _ := none
  dInode _ := some ⟨2, 8, ⟨1, 0⟩, 0o100644⟩
  dName _ := [97, 98, 99, 100, 101]

/-- A four-byte `file_name` field, reserved with stale bytes in it. -/
def shortFieldEnv : WalkEnv := ⟨longNameDcache, true, 4, fun _ => some [7, 7, 7, 7]⟩

theorem traceFilename_fileName_truncated :
    ∃ s' ev, traceFilename shortFieldEnv freshState 8 2 0 ⟨1, 0⟩ zeroTimespec 0 = (true, s') ∧
      s'.trace = [ev] ∧ ev.fileName = [97, 98, 99, 0] ∧
      ev.fileName.takeWhile (· != 0) = [97, 98, 99] := by
  obtain ⟨s', ev, h, htr, hlen, htake, -, hread⟩ := @traceFilename_fileName [7, 7, 7, 7]
    shortFieldEnv freshState 8 2 0 ⟨1, 0⟩ zeroTimespec 0 rfl (by decide) rfl (by decide)
  have h4 : ev.fileName.take 4 = [97, 98, 99, 0] := htake
  rw [List.take_of_length_le (le_of_eq hlen : ev.fileName.length ≤ 4)] at h4
  exact ⟨s', ev, h, htr, h4, hread⟩

end FileName

/-! ## Dentry references -/

/-- The loop invariant: at the top of every iteration the walk holds exactly
one reference, on `this_dentry`, and `parent_dentry` is `NULL`; so a run of
the loop that ends gives every reference back. -/
private theorem walkLoop_dref (env : WalkEnv) :
    ∀ (fuel : Nat) (s : WalkState) (i : Inode) (d : Nat) (r : Nat → Int) (s' : WalkState),
      s.dref = refInc r d → walkLoop env fuel s i d none = .done s' → s'.dref = r
  | 0, _, _, _, _, _, _, h => by simp [walkLoop] at h
  | fuel + 1, s, i, d, r, s', hr, h => by
    simp only [walkLoop] at h
    split at h
    · cases h
      simp [dputOpt, hr, refDec_refInc]
    · split at h
      · cases h
      · rename_i hm
        refine walkLoop_dref env fuel _ _ _ r s' ?_ h
        simp [missStep_dref hm, dgetOpt, hr, refDec_refInc_refInc]
      · rename_i pi pd s₁ _ hm
        cases h
        have h₁ := missStep_dref hm
        cases pd with
        | none => simp [dputOpt, h₁, dgetOpt, hr, refDec_refInc]
        | some p => simp [dputOpt, h₁, dgetOpt, hr, refDec_refInc_refInc, refDec_refInc]

/-- Every run of `iotrace_trace_inode` that returns has released each dentry
reference it took: the reference count of every dentry is as it was. -/
theorem iotraceTraceInode_dref {env : WalkEnv} {fuel : Nat} {s s' : WalkState} {inode : Inode}
    (h : iotraceTraceInode env fuel s inode = .done s') : s'.dref = s.dref := by
  unfold iotraceTraceInode at h
  split at h
  · cases h; rfl
  · exact walkLoop_dref env fuel _ _ _ s.dref s' rfl h

/-- The walk up `/dir/file`, whose directory's reservation fails, gives back
the references it took on the three dentries. -/
theorem iotraceTraceInode_dref_leafWalk :
    ∃ s', iotraceTraceInode secondFullEnv 4 freshState leafFile = .done s' ∧
      s'.dref = freshState.dref :=
  let ⟨s', h, _⟩ := leafWalk_done rfl (by decide) (by decide)
  ⟨s', h, iotraceTraceInode_dref h⟩

/-! ## A tracer without a monitor -/

/-- Without a monitor the parent step watches nothing. -/
private theorem watchParent_marks {env : WalkEnv} {s s' : WalkState} {pd : Option Nat}
    {pi : Option Inode} (h : watchParent env s pd = some (pi, s')) (hf : s.tracer.fsm = none) :
    s'.marks = s.marks := by
  cases pd with
  | none => cases h; rfl
  | some p =>
    obtain ⟨q, -, hq'⟩ := Option.map_eq_some'.1 h
    cases hq'
    simp [hf]

private theorem traceAndMap_marks {env : WalkEnv} {s s' : WalkState} {i : Inode} {d : Nat}
    {pi : Option Inode} (h : traceAndMap env s i d pi = some s') :
    s'.marks = s.marks ∧ s'.tracer.fsm = s.tracer.fsm := by
  simp only [traceAndMap, traceFilename] at h
  split at h <;> split at h
  all_goals first
    | (cases h; exact ⟨rfl, rfl⟩)
    | (obtain ⟨_, hm, rfl⟩ := Option.map_eq_some'.1 h; exact ⟨rfl, map_fsm hm⟩)

private theorem missStep_marks {env : WalkEnv} {s s' : WalkState} {i : Inode} {d : Nat}
    {pi : Option Inode} {pd : Option Nat} (h : missStep env s i d = some (pi, pd, s'))
    (hf : s.tracer.fsm = none) : s'.marks = s.marks ∧ s'.tracer.fsm = none := by
  obtain ⟨-, s₁, s₂, hw, ht, rfl⟩ := missStep_eq_some h
  have htr := (watchParent_eq_some hw).2.1
  have hm₁ := watchParent_marks hw (by rwa [dgetOpt_tracer])
  obtain ⟨hm₂, hf₂⟩ := traceAndMap_marks ht
  exact ⟨by rw [dput_marks, hm₂, hm₁, dgetOpt_marks],
    by rw [dput_tracer, hf₂, htr, dgetOpt_tracer, hf]⟩

/-- A walk on a tracer without a monitor makes no `_fs_add_mark` call. -/
private theorem walkLoop_marks (env : WalkEnv) :
    ∀ (fuel : Nat) (s : WalkState) (i : Inode) (d : Nat) (pd : Option Nat) (s' : WalkState),
      s.tracer.fsm = none → walkLoop env fuel s i d pd = .done s' → s'.marks = s.marks
  | 0, _, _, _, _, _, _, h => by simp [walkLoop] at h
  | fuel + 1, s, i, d, pd, s', hf, h => by
    have hf' : (s.withTracer (lookup s.tracer i).2).tracer.fsm = none := by simpa using hf
    simp only [walkLoop] at h
    split at h
    · cases h; simp
    · split at h
      · cases h
      · rename_i hm
        obtain ⟨hm₁, hf₁⟩ := missStep_marks hm hf'
        rw [walkLoop_marks env fuel _ _ _ _ s' hf₁ h, hm₁, withTracer_marks]
      · rename_i hm
        cases h
        simp [(missStep_marks hm hf').1]

theorem iotraceTraceInode_marks {env : WalkEnv} {fuel : Nat} {s s' : WalkState} {inode : Inode}
    (hf : s.tracer.fsm = none) (h : iotraceTraceInode env fuel s inode = .done s') :
    s'.marks = s.marks := by
  unfold iotraceTraceInode at h
  split at h
  · cases h; rfl
  · exact (walkLoop_marks env fuel (dget s _) _ _ _ s' hf h).trans (dget_marks _ _)

/-! ## A full trace buffer at a root -/

/-- Every reservation finds the trace buffer full. -/
def sinkFullEnv : WalkEnv := ⟨rootOnlyDcache, true, 256, fun _ => none⟩

private theorem walkLoop_full_root (fuel : Nat) :
    ∀ s : WalkState, s.tracer = createTracer none →
      walkLoop sinkFullEnv fuel s rootDir 0 none = .exhausted := by
  induction fuel with
  | zero => intro s _; rfl
  | succ fuel ih =>
    intro s hs
    have hl : lookup s.tracer rootDir = (none, s.tracer) := by rw [hs, lookup_createTracer]
    obtain ⟨s₁, hm, ht, -⟩ := @missStep_of_full sinkFullEnv
      (s.withTracer (lookup s.tracer rootDir).2) rootDir rootDir 0 0 rfl rfl rfl
    rw [walkLoop_next (by rw [hl]) hm]
    exact ih s₁ (by rw [ht, withTracer_tracer, hl, hs])

/-- With the trace buffer full, a walk that reaches a root never ends: the
root is its own parent, the failed record leaves it uncached, and the loop
retries it at every iteration. -/
theorem iotraceTraceInode_full_root (fuel : Nat) :
    iotraceTraceInode sinkFullEnv fuel freshState rootDir = .exhausted :=
  walkLoop_full_root fuel _ rfl

end TraceInode.Walk
