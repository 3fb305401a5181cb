import TraceInode.Cache
import Mathlib.Logic.Function.Basic

/-!
# Creating and destroying inode tracers

Every CPU owns one slot of `inode_traces`.  `iotrace_create_inode_tracer`
fills an empty slot with a fresh tracer and gives it the filesystem monitor:
`_fsm_init` first looks for a monitor on the tracer of an online CPU
(`_fsm_try_get`, which takes a reference) and otherwise allocates one with its
own fsnotify group.  `iotrace_destroy_inode_tracer` drops the tracer's
reference (`_fs_monitor_put`), which destroys the group and frees the monitor
with the last one, and empties the slot.

The outcomes of the calls the code does not control are explicit in a
`CreateOutcome`: whether `vzalloc_node` succeeds, whether every
`kallsyms_lookup_name` of `_fsm_init` finds its symbol, the CPUs that are
online during the scan, and the results of `kzalloc` and
`fsnotify_alloc_group`.  A `NULL` dereference or the use of a freed monitor
makes an operation return `none`.

## Main results

* `fsmTryGet_cases`, `fsmInit_cases`, `create_cases`, `destroy_cases` — what
  each operation can do to the slots, the monitors and the group references.
* `fsmIsCompatibleKernel_exact` — the release check accepts exactly the
  releases that are `UTS_RELEASE` followed by a `NUL`; a longer release that
  only starts with `UTS_RELEASE` is refused, and then no monitor is set up.
-/

namespace TraceInode.Monitor

open TraceInode.Cache

/-! ## The kernel release check -/

/-- `strnlen(s, n)` on the bytes of a buffer. -/
def strnlen (s : List UInt8) (n : Nat) : Nat :=
  ((s.take n).takeWhile (· != 0)).length

/-- `strncmp(a, b, n)`: the difference of the first differing bytes, stopping
at a `NUL` or after `n` bytes. -/
def strncmp : List UInt8 → List UInt8 → Nat → Int
  | _, _, 0 => 0
  | x :: a, y :: b, n + 1 =>
    if x ≠ y then (x.toNat : Int) - y.toNat else if x = 0 then 0 else strncmp a b n
  | _, _, _ + 1 => 0

/-- The two release strings `_fsm_is_compatible_kernel` compares: the bytes
of `UTS_RELEASE` (without its `NUL`) and the buffer
`init_utsname()->release`. -/
structure MonEnv where
  utsRelease : List UInt8
  release : List UInt8

/-- `_fsm_is_compatible_kernel`. -/
def fsmIsCompatibleKernel (env : MonEnv) : Bool :=
  let len := strnlen env.release env.release.length
  if len ≠ env.utsRelease.length then false
  else strncmp (env.utsRelease ++ [0]) env.release len == 0

/-- A running kernel whose release is the build's, `"5"`. -/
def matchingRelease : MonEnv := ⟨[53], [53, 0]⟩

example : fsmIsCompatibleKernel matchingRelease = true := by decide

/-! ## Monitors, slots and outcomes -/

/-- `struct fs_monitor`: its reference count and its fsnotify group. -/
structure FsMonitor where
  refcnt : Nat
  group : Nat
  deriving DecidableEq, Repr

/-- The state the two entry points share over `ncpu` CPUs. -/
structure MonState (ncpu : Nat) where
  /-- The per-CPU `inode_traces` slots. -/
  inodeTraces : Fin ncpu → Option InodeTracer
  /-- The live `fs_monitor`s, by address. -/
  monitors : Nat → Option FsMonitor
  /-- References this code holds on each fsnotify group: taken by
  `alloc_group` and `get_group`, dropped by `put_group` and `destroy_group`. -/
  groupRefs : Nat → Int
  /-- The groups passed to `destroy_group`, oldest first. -/
  destroyedGroups : List Nat
  /-- `fsnotify_ops.get_group != NULL`: the symbols have been looked up. -/
  opsResolved : Bool
  /-- `fsnotify_ops.inited`. -/
  inited : Bool

/-- The outcomes of the calls one `iotrace_create_inode_tracer` makes. -/
structure CreateOutcome (ncpu : Nat) where
  /-- `vzalloc_node` returns memory. -/
  vzallocOk : Bool
  /-- Every `kallsyms_lookup_name` of `_fsm_init` finds its symbol. -/
  lookupOk : Bool
  /-- The CPUs `for_each_online_cpu` visits, in order. -/
  online : List (Fin ncpu)
  /-- `kzalloc` of the monitor: an address, or `NULL`. -/
  fsmAddr : Option Nat
  /-- `fsnotify_alloc_group`: a group, or an error. -/
  groupId : Option Nat
  /-- `kzalloc` of the group's private data returns memory. -/
  privOk : Bool

/-- `ENOMEM`. -/
def enomem : Int := 12

variable {ncpu : Nat}

/-- The state with slot `c` set to `v`. -/
def MonState.setSlot (s : MonState ncpu) (c : Fin ncpu) (v : Option InodeTracer) : MonState ncpu :=
  { s with inodeTraces := Function.update s.inodeTraces c v }

/-! ## `_fs_monitor_get`, `_fs_monitor_put`, `_fsm_try_get` -/

/-- `_fs_monitor_get`: one more reference on the monitor and on its group;
`none` when `m` is not a live monitor. -/
def fsMonitorGet (s : MonState ncpu) (m : Nat) : Option (MonState ncpu) :=
  (s.monitors m).map fun r =>
    { s with
      monitors := Function.update s.monitors m (some { r with refcnt := r.refcnt + 1 })
      groupRefs := Function.update s.groupRefs r.group (s.groupRefs r.group + 1) }

/-- `_fs_monitor_put`: `refcount_dec_and_test`, then `destroy_group` and
`kfree` at zero, `put_group` otherwise. -/
def fsMonitorPut (s : MonState ncpu) : Option Nat → Option (MonState ncpu)
  | none => some s
  | some m =>
    (s.monitors m).map fun r =>
      if r.refcnt - 1 = 0 then
        { s with
          monitors := Function.update s.monitors m none
          groupRefs := Function.update s.groupRefs r.group (s.groupRefs r.group - 1)
          destroyedGroups := s.destroyedGroups ++ [r.group] }
      else
        { s with
          monitors := Function.update s.monitors m (some { r with refcnt := r.refcnt - 1 })
          groupRefs := Function.update s.groupRefs r.group (s.groupRefs r.group - 1) }

/-- `_fsm_try_get`: the monitor of the first tracer, on the CPUs in `online`,
that has one, after `_fs_monitor_get`. -/
def fsmTryGet (s : MonState ncpu) : List (Fin ncpu) → Option (Option Nat × MonState ncpu)
  | [] => some (none, s)
  | i :: online =>
    match (s.inodeTraces i).bind InodeTracer.fsm with
    | none => fsmTryGet s online
    | some m => (fsMonitorGet s m).map fun s => (some m, s)

/-! ## `_fsm_init` and the two entry points -/

/-- The symbol lookup of `_fsm_init`, made while `fsnotify_ops.get_group` is
`NULL`; a failed lookup clears `fsnotify_ops` again. -/
def resolveOps (o : CreateOutcome ncpu) (s : MonState ncpu) : MonState ncpu :=
  if s.opsResolved then s else { s with opsResolved := o.lookupOk }

/-- The allocation branch of `_fsm_init`: `kzalloc` of the monitor with
`refcnt` one, `fsnotify_alloc_group`, `kzalloc` of the private data. -/
def fsmAlloc (o : CreateOutcome ncpu) (s : MonState ncpu) : Option (Option Nat × MonState ncpu) :=
  match o.fsmAddr, o.groupId with
  | none, _ => none
  | some _, none => some (none, s)
  | some a, some g =>
    if o.privOk then
      some (some a,
        { s with
          monitors := Function.update s.monitors a (some ⟨1, g⟩)
          groupRefs := Function.update s.groupRefs g (s.groupRefs g + 1)
          inited := true })
    else none

/-- `_fsm_init`: the `fsm` it gives the new tracer, and the state after it. -/
def fsmInit (env : MonEnv) (o : CreateOutcome ncpu) (s : MonState ncpu) :
    Option (Option Nat × MonState ncpu) :=
  if !fsmIsCompatibleKernel env then some (none, s)
  else
    let s := resolveOps o s
    if !s.opsResolved then some (none, s)
    else
      match fsmTryGet s o.online with
      | none => none
      | some (some m, s) => some (some m, s)
      | some (none, s) => fsmAlloc o s

/-- `iotrace_create_inode_tracer` on the slot of CPU `c`: the return code and
the state after. -/
def iotraceCreateInodeTracer (env : MonEnv) (o : CreateOutcome ncpu) (s : MonState ncpu)
    (c : Fin ncpu) : Option (Int × MonState ncpu) :=
  let s := s.setSlot c none
  if !o.vzallocOk then some (-enomem, s)
  else (fsmInit env o s).map fun (fsm, s) => (0, s.setSlot c (some (createTracer fsm)))

/-- `iotrace_destroy_inode_tracer` on the slot of CPU `c`. -/
def iotraceDestroyInodeTracer (s : MonState ncpu) (c : Fin ncpu) : Option (MonState ncpu) :=
  match s.inodeTraces c with
  | none => some s
  | some t => (fsMonitorPut s t.fsm).map fun s => s.setSlot c none

/-! ## Field lemmas -/

section Fields

variable (s : MonState ncpu) (c : Fin ncpu) (v : Option InodeTracer)

@[simp] theorem setSlot_inodeTraces :
    (s.setSlot c v).inodeTraces = Function.update s.inodeTraces c v :=
  rfl
@[simp] theorem setSlot_monitors : (s.setSlot c v).monitors = s.monitors := rfl
@[simp] theorem setSlot_groupRefs : (s.setSlot c v).groupRefs = s.groupRefs := rfl
@[simp] theorem setSlot_destroyedGroups : (s.setSlot c v).destroyedGroups = s.destroyedGroups :=
  rfl

theorem setSlot_of_eq (h : s.inodeTraces c = v) : s.setSlot c v = s := by
  cases s
  simp only [MonState.setSlot, MonState.mk.injEq, and_true]
  exact h ▸ Function.update_eq_self c _

end Fields

/-! ## What each operation can do -/

/-- `_fsm_try_get` either finds no online tracer with a monitor and changes
nothing, or takes a reference on the live monitor of one. -/
theorem fsmTryGet_cases {s s' : MonState ncpu} {online : List (Fin ncpu)} {f : Option Nat}
    (h : fsmTryGet s online = some (f, s')) :
    (f = none ∧ s' = s ∧ ∀ i ∈ online, (s.inodeTraces i).bind InodeTracer.fsm = none) ∨
    (∃ m r i, f = some m ∧ i ∈ online ∧ (s.inodeTraces i).bind InodeTracer.fsm = some m ∧
      s.monitors m = some r ∧ s'.inodeTraces = s.inodeTraces ∧ s'.opsResolved = s.opsResolved ∧
      s'.monitors = Function.update s.monitors m (some { r with refcnt := r.refcnt + 1 }) ∧
      s'.groupRefs = Function.update s.groupRefs r.group (s.groupRefs r.group + 1)) := by
  induction online with
  | nil => cases h; exact .inl ⟨rfl, rfl, by simp⟩
  | cons i online ih =>
    simp only [fsmTryGet] at h
    split at h
    · rename_i hi
      rcases ih h with ⟨hf, hs, hnone⟩ | ⟨m, r, j, hf, hj, h'⟩
      · exact .inl ⟨hf, hs, List.forall_mem_cons.2 ⟨hi, hnone⟩⟩
      · exact .inr ⟨m, r, j, hf, List.mem_cons_of_mem i hj, h'⟩
    · rename_i m hm
      obtain ⟨s₁, hs₁, hs⟩ := Option.map_eq_some'.1 h
      cases hs
      obtain ⟨r, hr, rfl⟩ := Option.map_eq_some'.1 hs₁
      exact .inr ⟨m, r, i, rfl, List.mem_cons_self i online, hm, hr, rfl, rfl, rfl, rfl⟩

@[simp] theorem resolveOps_inodeTraces (o : CreateOutcome ncpu) (s : MonState ncpu) :
    (resolveOps o s).inodeTraces = s.inodeTraces := by
  unfold resolveOps; split <;> rfl
@[simp] theorem resolveOps_monitors (o : CreateOutcome ncpu) (s : MonState ncpu) :
    (resolveOps o s).monitors = s.monitors := by
  unfold resolveOps; split <;> rfl
@[simp] theorem resolveOps_groupRefs (o : CreateOutcome ncpu) (s : MonState ncpu) :
    (resolveOps o s).groupRefs = s.groupRefs := by
  unfold resolveOps; split <;> rfl
@[simp] theorem resolveOps_destroyedGroups (o : CreateOutcome ncpu) (s : MonState ncpu) :
    (resolveOps o s).destroyedGroups = s.destroyedGroups := by
  unfold resolveOps; split <;> rfl

/-- The allocation branch gives no monitor, or a monitor at the address
`kzalloc` returned with one reference on it and one on the new group. -/
private theorem fsmAlloc_cases {o : CreateOutcome ncpu} {s s' : MonState ncpu} {f : Option Nat}
    (h : fsmAlloc o s = some (f, s')) :
    s'.inodeTraces = s.inodeTraces ∧
    ((f = none ∧ s'.monitors = s.monitors ∧ s'.groupRefs = s.groupRefs) ∨
    (∃ a g, f = some a ∧ o.fsmAddr = some a ∧ o.groupId = some g ∧
      s'.monitors = Function.update s.monitors a (some ⟨1, g⟩) ∧
      s'.groupRefs = Function.update s.groupRefs g (s.groupRefs g + 1))) := by
  unfold fsmAlloc at h
  split at h
  · cases h
  · cases h; exact ⟨rfl, .inl ⟨rfl, rfl, rfl⟩⟩
  · rename_i a g ha hg
    split at h
    · cases h; exact ⟨rfl, .inr ⟨a, g, rfl, ha, hg, rfl, rfl⟩⟩
    · cases h

/-- `_fsm_init` leaves the slots alone and either gives no monitor, takes a
reference on the monitor of an online tracer, or allocates a monitor with a
new group when no online tracer has one. -/
theorem fsmInit_cases {env : MonEnv} {o : CreateOutcome ncpu} {s s' : MonState ncpu}
    {f : Option Nat} (h : fsmInit env o s = some (f, s')) :
    s'.inodeTraces = s.inodeTraces ∧
    ((f = none ∧ s'.monitors = s.monitors ∧ s'.groupRefs = s.groupRefs) ∨
    (∃ m r i, f = some m ∧ i ∈ o.online ∧ (s.inodeTraces i).bind InodeTracer.fsm = some m ∧
      s.monitors m = some r ∧
      s'.monitors = Function.update s.monitors m (some { r with refcnt := r.refcnt + 1 }) ∧
      s'.groupRefs = Function.update s.groupRefs r.group (s.groupRefs r.group + 1)) ∨
    (∃ a g, f = some a ∧ o.fsmAddr = some a ∧ o.groupId = some g ∧
      (∀ i ∈ o.online, (s.inodeTraces i).bind InodeTracer.fsm = none) ∧
      s'.monitors = Function.update s.monitors a (some ⟨1, g⟩) ∧
      s'.groupRefs = Function.update s.groupRefs g (s.groupRefs g + 1))) := by
  simp only [fsmInit] at h
  split at h
  · cases h; exact ⟨rfl, .inl ⟨rfl, rfl, rfl⟩⟩
  split at h
  · cases h; exact ⟨by simp, .inl ⟨rfl, by simp, by simp⟩⟩
  split at h
  · cases h
  · rename_i m₀ s₁ ht
    cases h
    rcases fsmTryGet_cases ht with ⟨hf, -⟩ | ⟨m, r, i, hf, hi, hm, hr, h₁, -, h₂, h₃⟩
    · cases hf
    · simp only [Option.some.injEq] at hf
      subst hf
      simp only [resolveOps_inodeTraces, resolveOps_monitors, resolveOps_groupRefs] at *
      exact ⟨h₁, .inr (.inl ⟨m₀, r, i, rfl, hi, hm, hr, h₂, h₃⟩)⟩
  · rename_i s₁ ht
    rcases fsmTryGet_cases ht with ⟨-, rfl, hnone⟩ | ⟨m, r, i, hf, -⟩
    · simp only [resolveOps_inodeTraces, resolveOps_monitors, resolveOps_groupRefs] at hnone ⊢
      rcases fsmAlloc_cases h with ⟨h₁, h'⟩
      simp only [resolveOps_inodeTraces, resolveOps_monitors, resolveOps_groupRefs] at h₁ h'
      rcases h' with h' | ⟨a, g, hf, ha, hg, h₂, h₃⟩
      · exact ⟨h₁, .inl h'⟩
      · exact ⟨h₁, .inr (.inr ⟨a, g, hf, ha, hg, hnone, h₂, h₃⟩)⟩
    · cases hf

/-- On a kernel other than the build's, `_fsm_init` leaves everything as it
was and gives no monitor. -/
theorem fsmInit_incompatible {env : MonEnv} (hk : fsmIsCompatibleKernel env = false)
    (o : CreateOutcome ncpu) (s : MonState ncpu) : fsmInit env o s = some (none, s) := by
  simp [fsmInit, hk]

/-- `_fs_monitor_put` of a monitor drops one reference on it and one on its
group, and passes the group to `destroy_group` exactly when the monitor's
count reaches zero. -/
theorem fsMonitorPut_cases {s s' : MonState ncpu} {f : Option Nat}
    (h : fsMonitorPut s f = some s') :
    (f = none ∧ s' = s) ∨
    (∃ m r, f = some m ∧ s.monitors m = some r ∧ s'.inodeTraces = s.inodeTraces ∧
      s'.monitors = Function.update s.monitors m
        (if r.refcnt - 1 = 0 then none else some { r with refcnt := r.refcnt - 1 }) ∧
      s'.groupRefs = Function.update s.groupRefs r.group (s.groupRefs r.group - 1) ∧
      s'.destroyedGroups = s.destroyedGroups ++ if r.refcnt - 1 = 0 then [r.group] else []) := by
  cases f with
  | none => cases h; exact .inl ⟨rfl, rfl⟩
  | some m =>
    obtain ⟨r, hr, rfl⟩ := Option.map_eq_some'.1 h
    refine .inr ⟨m, r, rfl, hr, ?_⟩
    split_ifs
    · exact ⟨rfl, rfl, rfl, rfl⟩
    · exact ⟨rfl, rfl, rfl, (List.append_nil _).symm⟩

theorem create_cases {env : MonEnv} {o : CreateOutcome ncpu} {s s' : MonState ncpu} {c : Fin ncpu}
    {ret : Int} (h : iotraceCreateInodeTracer env o s c = some (ret, s')) :
    (ret = -enomem ∧ s' = s.setSlot c none) ∨
    (ret = 0 ∧ ∃ f s₁, fsmInit env o (s.setSlot c none) = some (f, s₁) ∧
      s' = s₁.setSlot c (some (createTracer f))) := by
  simp only [iotraceCreateInodeTracer] at h
  split at h
  · cases h; exact .inl ⟨rfl, rfl⟩
  · obtain ⟨⟨f, s₁⟩, h₁, h₂⟩ := Option.map_eq_some'.1 h
    cases h₂
    exact .inr ⟨rfl, f, s₁, h₁, rfl⟩

private theorem fsmTryGet_destroyedGroups {s s' : MonState ncpu} {online : List (Fin ncpu)}
    {f : Option Nat} (h : fsmTryGet s online = some (f, s')) :
    s'.destroyedGroups = s.destroyedGroups := by
  induction online with
  | nil => cases h; rfl
  | cons i online ih =>
    simp only [fsmTryGet] at h
    split at h
    · exact ih h
    · obtain ⟨s₁, hs₁, hs⟩ := Option.map_eq_some'.1 h
      cases hs
      obtain ⟨r, -, rfl⟩ := Option.map_eq_some'.1 hs₁
      rfl

private theorem fsmAlloc_destroyedGroups {o : CreateOutcome ncpu} {s s' : MonState ncpu}
    {f : Option Nat}
    (h : fsmAlloc o s = some (f, s')) : s'.destroyedGroups = s.destroyedGroups := by
  unfold fsmAlloc at h
  split at h
  · cases h
  · cases h; rfl
  · split at h
    · cases h; rfl
    · cases h

private theorem fsmInit_destroyedGroups {env : MonEnv} {o : CreateOutcome ncpu}
    {s s' : MonState ncpu} {f : Option Nat} (h : fsmInit env o s = some (f, s')) :
    s'.destroyedGroups = s.destroyedGroups := by
  simp only [fsmInit] at h
  split at h
  · cases h; rfl
  split at h
  · cases h; exact resolveOps_destroyedGroups o s
  split at h
  · cases h
  · rename_i ht
    cases h
    rw [fsmTryGet_destroyedGroups ht, resolveOps_destroyedGroups]
  · rename_i ht
    rw [fsmAlloc_destroyedGroups h, fsmTryGet_destroyedGroups ht, resolveOps_destroyedGroups]

/-- A create never destroys a group: `_fsm_init` calls only `alloc_group`
and `get_group`. -/
theorem create_destroyedGroups {env : MonEnv} {o : CreateOutcome ncpu} {s s' : MonState ncpu}
    {c : Fin ncpu} {ret : Int} (h : iotraceCreateInodeTracer env o s c = some (ret, s')) :
    s'.destroyedGroups = s.destroyedGroups := by
  rcases create_cases h with ⟨-, rfl⟩ | ⟨-, f, s₁, hf, rfl⟩
  · rfl
  · rw [setSlot_destroyedGroups, fsmInit_destroyedGroups hf, setSlot_destroyedGroups]

theorem destroy_cases {s s' : MonState ncpu} {c : Fin ncpu}
    (h : iotraceDestroyInodeTracer s c = some s') :
    (s.inodeTraces c = none ∧ s' = s) ∨
    (∃ t s₁, s.inodeTraces c = some t ∧ fsMonitorPut s t.fsm = some s₁ ∧
      s' = s₁.setSlot c none) := by
  unfold iotraceDestroyInodeTracer at h
  split at h
  · cases h; exact .inl ⟨‹_›, rfl⟩
  · obtain ⟨s₁, h₁, rfl⟩ := Option.map_eq_some'.1 h
    exact .inr ⟨_, s₁, ‹_›, h₁, rfl⟩

/-! ## The release check is exact -/

private theorem strncmp_of_take_eq :
    ∀ (a b : List UInt8) (n : Nat), a.take n = b.take n → strncmp a b n = 0
  | a, b, 0, _ => by cases a <;> cases b <;> rfl
  | [], _, _ + 1, _ => by simp [strncmp]
  | _ :: _, [], _ + 1, _ => by simp [strncmp]
  | x :: a, y :: b, n + 1, h => by
    simp only [List.take_succ_cons, List.cons.injEq] at h
    obtain ⟨rfl, h⟩ := h
    simp [strncmp, strncmp_of_take_eq a b n h]

/-- Over bytes of `a` that hold no `NUL`, `strncmp` is zero only on equal
prefixes. -/
private theorem take_eq_of_strncmp :
    ∀ (a b : List UInt8) (n : Nat), n ≤ a.length → n ≤ b.length → (∀ x ∈ a.take n, x ≠ 0) →
      strncmp a b n = 0 → a.take n = b.take n
  | _, _, 0, _, _, _, _ => by simp
  | [], _, _ + 1, ha, _, _, _ => absurd ha (by simp)
  | _ :: _, [], _ + 1, _, hb, _, _ => absurd hb (by simp)
  | x :: a, y :: b, n + 1, ha, hb, hz, h => by
    have hx : x ≠ 0 := hz x (by simp)
    by_cases hxy : x = y
    · subst hxy
      simp only [strncmp, ne_eq, not_true_eq_false, if_false, hx] at h
      simp only [List.take_succ_cons, List.cons.injEq, true_and]
      exact take_eq_of_strncmp a b n (by simpa using ha) (by simpa using hb)
        (fun z hz' => hz z (by simp [hz'])) h
    · simp only [strncmp, ne_eq, hxy, not_false_eq_true, if_true] at h
      have e : x.toNat = y.toNat := by omega
      exact absurd (UInt8.eq_of_toBitVec_eq (BitVec.eq_of_toNat_eq e)) hxy

private theorem strnlen_length (s : List UInt8) :
    strnlen s s.length = (s.takeWhile (· != 0)).length := by
  rw [strnlen, List.take_length]

/-- A buffer read up to its first `NUL` is `u` iff it is `u` and a `NUL`,
or exactly `u` with no `NUL` at all. -/
private theorem takeWhile_ne_zero_eq_iff {r u : List UInt8} (hu : 0 ∉ u) :
    r.takeWhile (· != 0) = u ↔ (∃ rest, r = u ++ 0 :: rest) ∨ r = u := by
  have hpass : ∀ x ∈ u, (x != 0) = true := fun x hx => by
    simpa using fun h : x = 0 => hu (h ▸ hx)
  constructor
  · intro htw
    have hsplit := List.takeWhile_append_dropWhile (· != 0) r
    rw [htw] at hsplit
    cases hd : r.dropWhile (· != 0) with
    | nil => exact .inr (by rw [← hsplit, hd, List.append_nil])
    | cons z rest =>
      have hz := List.head_dropWhile_not (· != 0) r (by simp [hd])
      simp only [hd, List.head_cons, bne_eq_false_iff_eq] at hz
      exact .inl ⟨rest, by rw [← hsplit, hd, hz]⟩
  · rintro (⟨rest, rfl⟩ | rfl)
    · rw [List.takeWhile_append_of_pos hpass]
      simp
    · exact List.takeWhile_eq_self_iff.2 hpass

/-- For a `UTS_RELEASE` without a `NUL`, `_fsm_is_compatible_kernel` accepts
exactly the buffers that read as `UTS_RELEASE` up to their first `NUL`. -/
private theorem fsmIsCompatibleKernel_eq_true_iff {env : MonEnv} (hu : 0 ∉ env.utsRelease) :
    fsmIsCompatibleKernel env = true ↔ env.release.takeWhile (· != 0) = env.utsRelease := by
  obtain ⟨u, r⟩ := env
  have hpre : r.takeWhile (· != 0) = r.take (r.takeWhile (· != 0)).length :=
    List.prefix_iff_eq_take.1 (List.takeWhile_prefix _)
  simp only [fsmIsCompatibleKernel, strnlen_length]
  constructor
  · intro h
    split at h
    · cases h
    rename_i hlen
    rw [ne_eq, not_not] at hlen
    rw [hlen, beq_iff_eq] at h
    have htake := take_eq_of_strncmp (u ++ [0]) r u.length (by simp)
      (hlen ▸ (List.takeWhile_prefix _).length_le)
      (fun x hx => by rw [List.take_left' rfl] at hx; exact fun h => hu (h ▸ hx)) h
    rw [List.take_left' rfl] at htake
    rw [hpre, hlen]
    exact htake.symm
  · intro htw
    have htake : (u ++ [0]).take u.length = r.take u.length := by
      rw [List.take_left' rfl, ← htw, ← hpre]
    simp [htw, strncmp_of_take_eq _ _ _ htake]

/-- What `_fsm_is_compatible_kernel` accepts, for a `UTS_RELEASE` without a
`NUL`: the buffer holds it followed by a `NUL`, or is exactly its bytes with
no room left for one. -/
private theorem fsmIsCompatibleKernel_iff {env : MonEnv} (hu : 0 ∉ env.utsRelease) :
    fsmIsCompatibleKernel env = true ↔
      (∃ rest, env.release = env.utsRelease ++ 0 :: rest) ∨ env.release = env.utsRelease :=
  (fsmIsCompatibleKernel_eq_true_iff hu).trans (takeWhile_ne_zero_eq_iff hu)

/-- `UTS_RELEASE` holds no `NUL` and leaves room for one in the release field
of every kernel, so `_fsm_is_compatible_kernel` accepts exactly a buffer that
holds `UTS_RELEASE` as a `NUL`-terminated string; on any other buffer,
`_fsm_init` makes no monitor and changes nothing. -/
theorem fsmIsCompatibleKernel_exact {env : MonEnv} (hu : 0 ∉ env.utsRelease)
    (hfit : env.utsRelease.length < env.release.length) :
    (fsmIsCompatibleKernel env = true ↔ ∃ rest, env.release = env.utsRelease ++ 0 :: rest) ∧
      ∀ (o : CreateOutcome ncpu) (s : MonState ncpu),
        (¬ ∃ rest, env.release = env.utsRelease ++ 0 :: rest) →
          fsmInit env o s = some (none, s) := by
  have hiff : fsmIsCompatibleKernel env = true ↔
      ∃ rest, env.release = env.utsRelease ++ 0 :: rest := by
    rw [fsmIsCompatibleKernel_iff hu, or_iff_left]
    exact fun h => absurd hfit (by rw [h]; exact Nat.lt_irrefl _)
  exact ⟨hiff, fun o s hn => fsmInit_incompatible (Bool.eq_false_iff.2 (mt hiff.1 hn)) o s⟩

example : fsmIsCompatibleKernel ⟨[53, 46, 49, 48], [53, 46, 49, 0]⟩ = false := by decide

/-- A `"5.1"` build running on `"5.10"`. -/
def extendedRelease : MonEnv := ⟨[53, 46, 49], [53, 46, 49, 48, 0]⟩

theorem fsmIsCompatibleKernel_exact_extended :
    fsmIsCompatibleKernel extendedRelease = false ∧
      ∀ (o : CreateOutcome 2) (s : MonState 2), fsmInit extendedRelease o s = some (none, s) := by
  have h := @fsmIsCompatibleKernel_exact 2 extendedRelease (by decide) (by decide)
  have hn : ¬ ∃ rest, extendedRelease.release = extendedRelease.utsRelease ++ 0 :: rest :=
    fun ⟨rest, hr⟩ => by simp [extendedRelease] at hr
  exact ⟨Bool.eq_false_iff.2 (mt h.1.1 hn), fun o s => h.2 o s hn⟩

end TraceInode.Monitor
