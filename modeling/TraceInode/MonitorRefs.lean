import TraceInode.Monitor
import TraceInode.Walk
import Mathlib.Algebra.BigOperators.Fin
import Mathlib.Algebra.Order.BigOperators.Group.Finset
import Mathlib.Logic.Relation

/-!
# Reference counts of the shared monitor

In a sequential run of creates and destroys every live monitor is held by
exactly as many tracers as its `refcnt` says, the references this code holds
on its group are the same number, and a monitor is live exactly while some
tracer holds it.  So the group is passed to `destroy_group` (the state
logs every such call) and the monitor freed at the destroy of the last tracer
that held it: no create and no earlier destroy destroys a group.

Uniqueness of the monitor does not follow: `_fsm_try_get` looks only at the
tracers of online CPUs, and a create while the CPU of the monitor's only
tracer is offline allocates a second monitor.

## Main results

* `monitor_refcount_exact` — the reference-count invariant in every state of
  every sequential run, and a destroy destroys a monitor's group and frees the
  monitor exactly with its last holder.
* `second_monitor_offline_cpu` — a run with two live monitors.
* `monitor_unique_of_scan_covers` — one monitor at most when every scan sees
  every CPU that holds a tracer.
* `incompatible_kernel_unwatched` — on a kernel other than the build's there
  is never a monitor, and walks watch nothing.
-/

namespace TraceInode.MonitorRefs

open TraceInode.Basic TraceInode.Cache TraceInode.Monitor TraceInode.Walk

variable {ncpu : Nat}

/-! ## Holders of a monitor -/

/-- `1` when the slot content `v` is a tracer whose `fsm` is `m`. -/
def holds (v : Option InodeTracer) (m : Nat) : Nat :=
  if v.bind InodeTracer.fsm = some m then 1 else 0

/-- The number of live tracers whose `fsm` is `m`. -/
def users (slots : Fin ncpu → Option InodeTracer) (m : Nat) : Nat :=
  ∑ i, holds (slots i) m

@[simp] theorem holds_none (m : Nat) : holds none m = 0 := rfl

theorem holds_some {t : InodeTracer} {m m' : Nat} (ht : t.fsm = some m) :
    holds (some t) m' = if m' = m then 1 else 0 := by
  simp only [holds, Option.some_bind, ht, Option.some.injEq, eq_comm]

/-- Changing one slot changes the holders by what the slot held before and
after. -/
theorem users_update (slots : Fin ncpu → Option InodeTracer) (c : Fin ncpu)
    (v : Option InodeTracer) (m : Nat) :
    users (Function.update slots c v) m + holds (slots c) m = users slots m + holds v m :=
  sum_update_add slots (holds · m) c v

theorem users_pos_of_holds {slots : Fin ncpu → Option InodeTracer} {i : Fin ncpu} {m : Nat}
    (h : (slots i).bind InodeTracer.fsm = some m) : 0 < users slots m :=
  calc 0 < holds (slots i) m := by simp [holds, h]
    _ ≤ ∑ j, holds (slots j) m :=
      Finset.single_le_sum (fun j _ => Nat.zero_le (holds (slots j) m)) (Finset.mem_univ i)

/-! ## The invariant -/

/-- The reference-count invariant of the monitors. -/
structure RefInv (s : MonState ncpu) : Prop where
  /-- `refcnt` counts the tracers holding the monitor. -/
  refcnt_eq : ∀ m r, s.monitors m = some r → r.refcnt = users s.inodeTraces m
  /-- So do the references on the monitor's group. -/
  groupRefs_eq : ∀ m r, s.monitors m = some r → s.groupRefs r.group = users s.inodeTraces m
  /-- A monitor some tracer holds is live. -/
  live_of_users : ∀ m, 0 < users s.inodeTraces m → (s.monitors m).isSome
  /-- A live monitor is held by some tracer. -/
  users_pos : ∀ m r, s.monitors m = some r → 0 < users s.inodeTraces m
  /-- Live monitors have distinct groups. -/
  group_inj : ∀ m m' r r', s.monitors m = some r → s.monitors m' = some r' → r.group = r'.group →
    m = m'
  /-- No reference is left on a group no live monitor has. -/
  groupRefs_free : ∀ g, (∀ m r, s.monitors m = some r → r.group ≠ g) → s.groupRefs g = 0

private theorem RefInv.users_eq_zero {s : MonState ncpu} (hi : RefInv s) {m : Nat}
    (hm : s.monitors m = none) :
    users s.inodeTraces m = 0 :=
  Nat.eq_zero_of_not_pos fun h => by simpa [hm] using hi.live_of_users m h

/-- A step that changes the slots without changing what any slot holds keeps
the invariant. -/
private theorem RefInv.of_users_eq {s s' : MonState ncpu} (hi : RefInv s)
    (hu : ∀ m, users s'.inodeTraces m = users s.inodeTraces m) (hm : s'.monitors = s.monitors)
    (hg : s'.groupRefs = s.groupRefs) : RefInv s' := by
  obtain ⟨h₁, h₂, h₃, h₄, h₅, h₆⟩ := hi
  refine ⟨?_, ?_, ?_, ?_, ?_, ?_⟩ <;> simp only [hu, hm, hg] <;> assumption

/-- A step that changes only the monitor `m`, whose group is `g`, and the
references on `g`, keeps the invariant when the new entry of `m` and the
references on `g` count the new holders of `m`. -/
private theorem RefInv.of_local {s s' : MonState ncpu} (hi : RefInv s) {m g : Nat}
    (hu : ∀ m', m' ≠ m → users s'.inodeTraces m' = users s.inodeTraces m')
    (hmon : ∀ m', m' ≠ m → s'.monitors m' = s.monitors m')
    (hgrp : ∀ g', g' ≠ g → s'.groupRefs g' = s.groupRefs g')
    (hself : ∀ r, s.monitors m = some r → r.group = g)
    (hother : ∀ m' r', m' ≠ m → s.monitors m' = some r' → r'.group ≠ g)
    (hnew : ∀ r, s'.monitors m = some r → r.refcnt = users s'.inodeTraces m ∧ r.group = g)
    (hgm : s'.groupRefs g = users s'.inodeTraces m)
    (hlive : 0 < users s'.inodeTraces m ↔ (s'.monitors m).isSome) : RefInv s' := by
  -- every other live monitor is one of `s`, on a group other than `g`
  have hold : ∀ m' r', m' ≠ m → s'.monitors m' = some r' →
      s.monitors m' = some r' ∧ r'.group ≠ g := fun m' r' hm' hr' => by
    rw [hmon m' hm'] at hr'
    exact ⟨hr', hother m' r' hm' hr'⟩
  refine ⟨fun m' r' hr' => ?_, fun m' r' hr' => ?_, fun m' hm' => ?_, fun m' r' hr' => ?_,
    fun m₁ m₂ r₁ r₂ h₁ h₂ hgr => ?_, fun g' hg' => ?_⟩
  · by_cases hm' : m' = m
    · subst hm'
      exact (hnew r' hr').1
    · rw [hu m' hm']
      exact hi.refcnt_eq m' r' (hold m' r' hm' hr').1
  · by_cases hm' : m' = m
    · subst hm'
      rw [(hnew r' hr').2, hgm]
    · obtain ⟨hr₀, hne⟩ := hold m' r' hm' hr'
      rw [hgrp _ hne, hu m' hm']
      exact hi.groupRefs_eq m' r' hr₀
  · by_cases hm'' : m' = m
    · subst hm''
      exact hlive.1 hm'
    · rw [hmon m' hm'']
      exact hi.live_of_users m' (by rwa [← hu m' hm''])
  · by_cases hm' : m' = m
    · subst hm'
      exact hlive.2 (by rw [hr']; rfl)
    · rw [hu m' hm']
      exact hi.users_pos m' r' (hold m' r' hm' hr').1
  · by_cases e₁ : m₁ = m <;> by_cases e₂ : m₂ = m
    · rw [e₁, e₂]
    · subst e₁
      exact ((hold m₂ r₂ e₂ h₂).2 (hgr.symm.trans (hnew r₁ h₁).2)).elim
    · subst e₂
      exact ((hold m₁ r₁ e₁ h₁).2 (hgr.trans (hnew r₂ h₂).2)).elim
    · exact hi.group_inj m₁ m₂ r₁ r₂ (hold m₁ r₁ e₁ h₁).1 (hold m₂ r₂ e₂ h₂).1 hgr
  · by_cases hg'' : g' = g
    · subst hg''
      have hnone : s'.monitors m = none := by
        cases h : s'.monitors m with
        | none => rfl
        | some r => exact ((hg' m r h) (hnew r h).2).elim
      have h0 : users s'.inodeTraces m = 0 :=
        Nat.eq_zero_of_not_pos fun h => by simpa [hnone] using hlive.1 h
      rw [hgm, h0]
      rfl
    · rw [hgrp g' hg'']
      refine hi.groupRefs_free g' fun m' r' hr' => ?_
      by_cases hm' : m' = m
      · subst hm'
        rw [hself r' hr']
        exact Ne.symm hg''
      · exact hg' m' r' (by rw [hmon m' hm']; exact hr')

/-- A create that gives the new tracer on the empty slot `c` the monitor `m`,
whose group `g` has as many references as `m` has holders and belongs to no
other live monitor. -/
private theorem RefInv.attach {s s' : MonState ncpu} (hi : RefInv s) {c : Fin ncpu}
    {t : InodeTracer} {m g : Nat} (hc : s.inodeTraces c = none) (ht : t.fsm = some m)
    (hg : s.groupRefs g = users s.inodeTraces m)
    (hself : ∀ r, s.monitors m = some r → r.group = g)
    (hother : ∀ m' r', m' ≠ m → s.monitors m' = some r' → r'.group ≠ g)
    (hslots : s'.inodeTraces = Function.update s.inodeTraces c (some t))
    (hmon : s'.monitors = Function.update s.monitors m (some ⟨users s.inodeTraces m + 1, g⟩))
    (hgrp : s'.groupRefs = Function.update s.groupRefs g (s.groupRefs g + 1)) : RefInv s' := by
  have hu : ∀ m', users s'.inodeTraces m' = users s.inodeTraces m' + if m' = m then 1 else 0 := by
    intro m'
    have := users_update s.inodeTraces c (some t) m'
    rw [hc, holds_none, holds_some ht, ← hslots] at this
    omega
  have hum : users s'.inodeTraces m = users s.inodeTraces m + 1 := by simpa using hu m
  refine hi.of_local (fun m' hm' => by simpa [hm'] using hu m')
    (fun m' hm' => by rw [hmon, Function.update_noteq hm'])
    (fun g' hg' => by rw [hgrp, Function.update_noteq hg']) hself hother (fun r hr => ?_) ?_ ?_
  · rw [hmon, Function.update_same, Option.some.injEq] at hr
    subst hr
    exact ⟨hum.symm, rfl⟩
  · rw [hgrp, Function.update_same, hg, hum]
    omega
  · simp [hmon, hum]

/-- A destroy that empties slot `c`, whose tracer held the live monitor `m`,
and drops one reference on `m` and one on its group. -/
private theorem RefInv.detach {s s' : MonState ncpu} (hi : RefInv s) {c : Fin ncpu}
    {t : InodeTracer}
    {m : Nat} {r : FsMonitor} (hc : s.inodeTraces c = some t) (ht : t.fsm = some m)
    (hr : s.monitors m = some r)
    (hslots : s'.inodeTraces = Function.update s.inodeTraces c none)
    (hmon : s'.monitors = Function.update s.monitors m
      (if r.refcnt - 1 = 0 then none else some { r with refcnt := r.refcnt - 1 }))
    (hgrp : s'.groupRefs = Function.update s.groupRefs r.group (s.groupRefs r.group - 1)) :
    RefInv s' := by
  have hu : ∀ m', users s'.inodeTraces m' + (if m' = m then 1 else 0) = users s.inodeTraces m' := by
    intro m'
    have := users_update s.inodeTraces c none m'
    rw [hc, holds_none, holds_some ht, ← hslots] at this
    omega
  have hk := hi.refcnt_eq m r hr
  have hgk := hi.groupRefs_eq m r hr
  have hum : users s'.inodeTraces m = r.refcnt - 1 := by
    have := hu m
    simp only [if_true] at this
    omega
  refine hi.of_local (fun m' hm' => by simpa [hm'] using hu m')
    (fun m' hm' => by rw [hmon, Function.update_noteq hm'])
    (fun g' hg' => by rw [hgrp, Function.update_noteq hg'])
    (fun r' hr' => by rw [Option.some.inj (hr.symm.trans hr')])
    (fun m' r' hm' hr' h => hm' (hi.group_inj m' m r' r hr' hr h)) (fun r' hr' => ?_) ?_ ?_
  · rw [hmon, Function.update_same] at hr'
    split_ifs at hr'
    cases hr'
    exact ⟨hum.symm, rfl⟩
  · have hpos := hi.users_pos m r hr
    rw [hgrp, Function.update_same, hum, hgk, hk]
    omega
  · rw [hmon, Function.update_same, hum]
    split_ifs with h0
    · simp [h0]
    · simpa using Nat.pos_of_ne_zero h0

/-! ## Sequential runs -/

/-- One call of an entry point in a sequential run: a create on an empty slot,
with `kzalloc` returning an address no live monitor has,
`fsnotify_alloc_group` a group no live monitor has, and outcomes `ok`
admits; or a destroy of a live tracer. -/
inductive MonStep (env : MonEnv) (ok : MonState ncpu → CreateOutcome ncpu → Prop) :
    MonState ncpu → MonState ncpu → Prop
  | create {s s' : MonState ncpu} (c : Fin ncpu) (o : CreateOutcome ncpu) (ret : Int) :
      ok s o → s.inodeTraces c = none → (∀ a, o.fsmAddr = some a → s.monitors a = none) →
      (∀ g, o.groupId = some g → ∀ m r, s.monitors m = some r → r.group ≠ g) →
      iotraceCreateInodeTracer env o s c = some (ret, s') → MonStep env ok s s'
  | destroy {s s' : MonState ncpu} (c : Fin ncpu) :
      (s.inodeTraces c).isSome → iotraceDestroyInodeTracer s c = some s' → MonStep env ok s s'

/-- No tracers, no monitors, `fsnotify_ops` zeroed. -/
def monInit (ncpu : Nat) : MonState ncpu :=
  ⟨fun _ => none, fun _ => none, fun _ => 0, [], false, false⟩

/-- States reached from `monInit` by a sequential run. -/
def MonReachable (env : MonEnv) (ok : MonState ncpu → CreateOutcome ncpu → Prop)
    (s : MonState ncpu) : Prop :=
  Relation.ReflTransGen (MonStep env ok) (monInit ncpu) s

private theorem refInv_monInit : RefInv (monInit ncpu) where
  refcnt_eq _ _ h := by cases h
  groupRefs_eq _ _ h := by cases h
  live_of_users m h := by simp [users, monInit] at h
  users_pos _ _ h := by cases h
  group_inj _ _ _ _ h := by cases h
  groupRefs_free _ _ := rfl

theorem RefInv.create {env : MonEnv} {s s' : MonState ncpu} (hi : RefInv s) {c : Fin ncpu}
    {o : CreateOutcome ncpu} {ret : Int} (hc : s.inodeTraces c = none)
    (ha : ∀ a, o.fsmAddr = some a → s.monitors a = none)
    (hg : ∀ g, o.groupId = some g → ∀ m r, s.monitors m = some r → r.group ≠ g)
    (h : iotraceCreateInodeTracer env o s c = some (ret, s')) : RefInv s' := by
  rcases create_cases h with ⟨-, rfl⟩ | ⟨-, f, s₁, hf, rfl⟩
  · rwa [setSlot_of_eq _ _ _ hc]
  rw [setSlot_of_eq _ _ _ hc] at hf
  obtain ⟨h₁, ⟨rfl, h₂, h₃⟩ | ⟨m, r, i, rfl, -, -, hr, h₂, h₃⟩ |
      ⟨a, g, rfl, hfa, hfg, -, h₂, h₃⟩⟩ :=
    fsmInit_cases hf
  · refine hi.of_users_eq (fun m => ?_) h₂ h₃
    have := users_update s.inodeTraces c (some (createTracer none)) m
    rw [hc] at this
    simpa [holds, h₁] using this
  · refine hi.attach hc (createTracer_fsm (some m)) (hi.groupRefs_eq m r hr)
      (fun r' hr' => by cases hr.symm.trans hr'; rfl)
      (fun m' r' hm' hr' h => hm' (hi.group_inj m' m r' r hr' hr h)) (by simp [h₁]) ?_ h₃
    rw [setSlot_monitors, h₂, hi.refcnt_eq m r hr]
  · have hfree := ha a hfa
    have hgfree := hg g hfg
    refine hi.attach hc (createTracer_fsm (some a)) ?_ (fun r' hr' => by simp [hfree] at hr')
      (fun m' r' _ hr' => hgfree m' r' hr') (by simp [h₁]) ?_ h₃
    · rw [hi.groupRefs_free g hgfree, hi.users_eq_zero hfree]; rfl
    · rw [setSlot_monitors, h₂, hi.users_eq_zero hfree]

theorem RefInv.destroy {s s' : MonState ncpu} (hi : RefInv s) {c : Fin ncpu}
    (h : iotraceDestroyInodeTracer s c = some s') : RefInv s' := by
  rcases destroy_cases h with ⟨-, rfl⟩ | ⟨t, s₁, hc, hp, rfl⟩
  · exact hi
  rcases fsMonitorPut_cases hp with ⟨hf, hs⟩ | ⟨m, r, hf, hr, h₁, h₂, h₃, -⟩
  · rw [hs]
    refine hi.of_users_eq (fun m => ?_) rfl rfl
    have := users_update s.inodeTraces c none m
    rw [hc] at this
    simpa [holds, hf] using this
  · exact hi.detach hc hf hr (by simp [h₁]) h₂ h₃

variable {ok : MonState ncpu → CreateOutcome ncpu → Prop}

private theorem MonStep.refInv {env : MonEnv} {s s' : MonState ncpu} (h : MonStep env ok s s')
    (hi : RefInv s) :
    RefInv s' := by
  cases h with
  | create c o ret _ hc ha hg h => exact hi.create hc ha hg h
  | destroy c _ h => exact hi.destroy h

/-- In every state of every sequential run of creates and destroys, with any
outcomes of the allocations and of the symbol lookups: each live monitor's
`refcnt`, and the references held on its group, equal the number of live
tracers whose `fsm` is that monitor; a monitor is live exactly while some
tracer holds it; and no reference is left on a group no live monitor has. -/
theorem monReachable_refInv {env : MonEnv} {s : MonState ncpu} (h : MonReachable env ok s) :
    RefInv s := by
  induction h with
  | refl => exact refInv_monInit
  | tail _ hstep ih => exact hstep.refInv ih

/-- From a state with the invariant, the destroy of a live tracer never uses a
freed monitor, and it passes the group of the tracer's monitor to
`destroy_group`, and frees the monitor, exactly when the tracer was the
monitor's last holder. -/
private theorem RefInv.destroy_exact {s : MonState ncpu} (hi : RefInv s) {c : Fin ncpu}
    {t : InodeTracer} (hc : s.inodeTraces c = some t) :
    ∃ s', iotraceDestroyInodeTracer s c = some s' ∧
      (t.fsm = none → s'.destroyedGroups = s.destroyedGroups) ∧
      ∀ m, t.fsm = some m → ∃ r, s.monitors m = some r ∧
        ((s'.monitors m).isNone ↔ users s.inodeTraces m = 1) ∧
        s'.destroyedGroups =
          s.destroyedGroups ++ if users s.inodeTraces m = 1 then [r.group] else [] := by
  cases ht : t.fsm with
  | none =>
    refine ⟨s.setSlot c none, ?_, fun _ => rfl, fun m h => by cases h⟩
    simp [iotraceDestroyInodeTracer, hc, ht, fsMonitorPut]
  | some m =>
    have hpos := users_pos_of_holds
      (show (s.inodeTraces c).bind InodeTracer.fsm = some m by simp [hc, ht])
    obtain ⟨r, hr⟩ := Option.isSome_iff_exists.1 (hi.live_of_users m hpos)
    have hlast : r.refcnt - 1 = 0 ↔ users s.inodeTraces m = 1 := by
      rw [hi.refcnt_eq m r hr]; omega
    obtain ⟨s₁, hp⟩ : ∃ s₁, fsMonitorPut s (some m) = some s₁ := by
      simp only [fsMonitorPut, hr, Option.map_some', Option.some.injEq, exists_eq']
    obtain ⟨⟨⟩, -⟩ | ⟨_, r', ⟨⟩, hr', -, h₂, -, h₄⟩ := fsMonitorPut_cases hp
    cases hr.symm.trans hr'
    refine ⟨s₁.setSlot c none, by simp [iotraceDestroyInodeTracer, hc, ht, hp],
      (fun h => by cases h), ?_⟩
    rintro _ ⟨⟩
    refine ⟨r, hr, ?_, ?_⟩
    · rw [setSlot_monitors, h₂, Function.update_same, ← hlast]
      split_ifs with h0 <;> simp [h0]
    · simp only [setSlot_destroyedGroups, h₄, hlast]

/-- In every state of every sequential run, the reference-count invariant
holds; a create passes no group to `destroy_group`; and the destroy of any
live tracer succeeds, and destroys the group of the tracer's monitor and
frees the monitor exactly when that tracer is the monitor's last holder. -/
theorem monitor_refcount_exact {env : MonEnv} {s : MonState ncpu} (h : MonReachable env ok s) :
    RefInv s ∧
      (∀ c o ret s', iotraceCreateInodeTracer env o s c = some (ret, s') →
        s'.destroyedGroups = s.destroyedGroups) ∧
      ∀ c t, s.inodeTraces c = some t → ∃ s', iotraceDestroyInodeTracer s c = some s' ∧
        (t.fsm = none → s'.destroyedGroups = s.destroyedGroups) ∧
        ∀ m, t.fsm = some m → ∃ r, s.monitors m = some r ∧
          ((s'.monitors m).isNone ↔ users s.inodeTraces m = 1) ∧
          s'.destroyedGroups =
            s.destroyedGroups ++ if users s.inodeTraces m = 1 then [r.group] else [] :=
  ⟨monReachable_refInv h, fun _ _ _ _ hc => create_destroyedGroups hc,
    fun _ _ hc => (monReachable_refInv h).destroy_exact hc⟩

/-- A create on CPU `0` with both CPUs online and every call succeeding. -/
def bothOnline : CreateOutcome 2 := ⟨true, true, [0, 1], some 0, some 0, true⟩

/-- A create with both CPUs online whose allocations, were they made, would
give address `1` and group `1`. -/
def bothOnlineOther : CreateOutcome 2 := ⟨true, true, [0, 1], some 1, some 1, true⟩

/-- The creates on CPUs `0` and `1` with both CPUs online: the second finds
the first tracer's monitor and shares it. -/
private theorem sharedCreates_steps {ok : MonState 2 → CreateOutcome 2 → Prop} {s₁ s₂ : MonState 2}
    (ho : ok (monInit 2) bothOnline ∧ ok s₁ bothOnlineOther)
    (h₁ : iotraceCreateInodeTracer matchingRelease bothOnline (monInit 2) 0 = some (0, s₁))
    (h₂ : iotraceCreateInodeTracer matchingRelease bothOnlineOther s₁ 1 = some (0, s₂)) :
    MonReachable matchingRelease ok s₂ := by
  have hmon : s₁.monitors = Function.update (fun _ => none) 0 (some ⟨1, 0⟩) := by
    cases h₁; rfl
  refine .tail (.single (.create 0 bothOnline 0 ho.1 rfl (fun _ _ => rfl)
    (fun _ _ _ _ h => by cases h) h₁))
    (.create 1 bothOnlineOther 0 ho.2 (by cases h₁; rfl) ?_ ?_ h₂)
  · rintro a ⟨⟩
    rw [hmon]; rfl
  · rintro g ⟨⟩ m r hr
    rw [hmon] at hr
    by_cases e : m = 0
    · subst e; cases hr; decide
    · simp [Function.update_noteq e] at hr

/-- Two tracers share one monitor, then both are destroyed: the first destroy
only drops a reference and destroys no group, and the second destroys the
monitor's group and frees the monitor. -/
theorem monitor_refcount_exact_shared : ∃ s₂ s₃ s₄ : MonState 2,
    MonReachable matchingRelease (fun _ _ => True) s₂ ∧ s₂.monitors 0 = some ⟨2, 0⟩ ∧
      iotraceDestroyInodeTracer s₂ 0 = some s₃ ∧ (s₃.monitors 0).isSome ∧
      s₃.destroyedGroups = [] ∧ iotraceDestroyInodeTracer s₃ 1 = some s₄ ∧
      (s₄.monitors 0).isNone ∧ s₄.destroyedGroups = [0] := by
  obtain ⟨s₁, s₂, s₃, h₁, h₂, h₃, hmon₂, hlog₀, hslot₂, hslot₃, hmon₃, hu₂, hu₃⟩ :
      ∃ s₁ s₂ s₃ : MonState 2,
      iotraceCreateInodeTracer matchingRelease bothOnline (monInit 2) 0 = some (0, s₁) ∧
      iotraceCreateInodeTracer matchingRelease bothOnlineOther s₁ 1 = some (0, s₂) ∧
      iotraceDestroyInodeTracer s₂ 0 = some s₃ ∧ s₂.monitors 0 = some ⟨2, 0⟩ ∧
      s₂.destroyedGroups = [] ∧ s₂.inodeTraces 0 = some (createTracer (some 0)) ∧
      s₃.inodeTraces 1 = some (createTracer (some 0)) ∧ s₃.monitors 0 = some ⟨1, 0⟩ ∧
      users s₂.inodeTraces 0 = 2 ∧ users s₃.inodeTraces 0 = 1 :=
    ⟨_, _, _, rfl, rfl, rfl, rfl, rfl, rfl, rfl, rfl, by decide, by decide⟩
  have hrun₂ : MonReachable matchingRelease (fun _ _ => True) s₂ :=
    sharedCreates_steps ⟨trivial, trivial⟩ h₁ h₂
  have hrun₃ : MonReachable matchingRelease (fun _ _ => True) s₃ :=
    .tail hrun₂ (.destroy 0 (by rw [hslot₂]; rfl) h₃)
  obtain ⟨s₃', hs₃, -, hfree₂⟩ := (monitor_refcount_exact hrun₂).2.2 0 _ hslot₂
  have e : s₃' = s₃ := Option.some.inj (hs₃.symm.trans h₃)
  rw [e] at hfree₂
  obtain ⟨r₂, -, -, hlog₂⟩ := hfree₂ 0 (createTracer_fsm _)
  obtain ⟨s₄, hs₄, -, hfree₃⟩ := (monitor_refcount_exact hrun₃).2.2 1 _ hslot₃
  obtain ⟨r₃, hr₃, hlive₃, hlog₃⟩ := hfree₃ 0 (createTracer_fsm _)
  rw [hmon₃, Option.some.injEq] at hr₃
  subst hr₃
  have hlog : s₃.destroyedGroups = [] := by rw [hlog₂, hu₂, hlog₀]; rfl
  refine ⟨s₂, s₃, s₄, hrun₂, hmon₂, h₃, by rw [hmon₃]; rfl, hlog, hs₄, hlive₃.2 hu₃, ?_⟩
  rw [hlog₃, hlog, hu₃]
  rfl

/-! ## Uniqueness of the monitor -/

/-- At most one monitor is live. -/
def Unique (s : MonState ncpu) : Prop :=
  ∀ m m', (s.monitors m).isSome → (s.monitors m').isSome → m = m'

/-- The scan of a create sees every CPU whose slot holds a tracer. -/
def ScanCoversTracers (s : MonState ncpu) (o : CreateOutcome ncpu) : Prop :=
  ∀ i, (s.inodeTraces i).isSome → i ∈ o.online

/-- A step that makes no monitor live keeps uniqueness. -/
private theorem Unique.of_live {s s' : MonState ncpu} (hu : Unique s)
    (h : ∀ m, (s'.monitors m).isSome → (s.monitors m).isSome) : Unique s' :=
  fun m m' hm hm' => hu m m' (h m hm) (h m' hm')

private theorem isSome_of_update {f : Nat → Option FsMonitor} {m : Nat} (hm : (f m).isSome)
    {v : Option FsMonitor} {m' : Nat} (h : (Function.update f m v m').isSome) : (f m').isSome := by
  by_cases e : m' = m
  · rwa [e]
  · rwa [Function.update_noteq e] at h

theorem Unique.create {env : MonEnv} {s s' : MonState ncpu} (hu : Unique s) (hi : RefInv s)
    {c : Fin ncpu} {o : CreateOutcome ncpu} {ret : Int} (hok : ScanCoversTracers s o)
    (hc : s.inodeTraces c = none) (h : iotraceCreateInodeTracer env o s c = some (ret, s')) :
    Unique s' := by
  rcases create_cases h with ⟨-, rfl⟩ | ⟨-, f, s₁, hf, rfl⟩
  · exact hu
  rw [setSlot_of_eq _ _ _ hc] at hf
  obtain ⟨-, ⟨-, h₂, -⟩ | ⟨m, r, -, -, -, -, hr, h₂, -⟩ | ⟨a, g, -, -, -, hnone, h₂, -⟩⟩ :=
    fsmInit_cases hf
  · exact hu.of_live fun m hm => by rwa [setSlot_monitors, h₂] at hm
  · exact hu.of_live fun m' hm =>
      isSome_of_update (by rw [hr]; rfl) (by rwa [setSlot_monitors, h₂] at hm)
  · -- no tracer had a monitor, so none was live, and only the new one is
    have hdead : ∀ m, s.monitors m = none := fun m => by
      by_contra hm
      obtain ⟨r, hr⟩ := Option.ne_none_iff_exists'.1 hm
      obtain ⟨i, -, hi'⟩ :=
        Finset.exists_ne_zero_of_sum_ne_zero (Nat.pos_iff_ne_zero.1 (hi.users_pos m r hr))
      have hsome : (s.inodeTraces i).isSome := by
        cases hs : s.inodeTraces i <;> simp_all [holds]
      simp [holds, hnone i (hok i hsome)] at hi'
    have hlive : ∀ m,
        ((s₁.setSlot c (some (createTracer (some a)))).monitors m).isSome → m = a := by
      intro m hm
      by_contra e
      simp [h₂, Function.update_noteq e, hdead m] at hm
    exact fun m m' hm hm' => (hlive m hm).trans (hlive m' hm').symm

/-- With the scan of every create covering the CPUs whose slots hold tracers,
at most one monitor is ever live. -/
theorem monitor_unique_of_scan_covers {env : MonEnv} {s : MonState ncpu}
    (h : MonReachable env ScanCoversTracers s) : Unique s := by
  induction h with
  | refl => intro m _ h; simp [monInit] at h
  | tail hr hstep ih =>
    cases hstep with
    | create c o ret hok hc _ _ h => exact ih.create (monReachable_refInv hr) hok hc h
    | destroy c _ h =>
      rcases destroy_cases h with ⟨-, rfl⟩ | ⟨t, s₁, -, hp, rfl⟩
      · exact ih
      rcases fsMonitorPut_cases hp with ⟨-, rfl⟩ | ⟨m, r, -, hr, -, h₂, -⟩
      · exact ih
      exact ih.of_live fun m' hm =>
        isSome_of_update (by rw [hr]; rfl) (by rwa [setSlot_monitors, h₂] at hm)

/-- Two creates whose scans cover both CPUs: the second shares the first
tracer's monitor, and that monitor is the only one. -/
theorem monitor_unique_of_scan_covers_created : ∃ s : MonState 2,
    MonReachable matchingRelease ScanCoversTracers s ∧ (s.monitors 0).isSome ∧
      (s.inodeTraces 0).bind InodeTracer.fsm = some 0 ∧
      (s.inodeTraces 1).bind InodeTracer.fsm = some 0 ∧ Unique s := by
  obtain ⟨s₁, s₂, h₁, h₂, hmon, hfsm⟩ : ∃ s₁ s₂ : MonState 2,
      iotraceCreateInodeTracer matchingRelease bothOnline (monInit 2) 0 = some (0, s₁) ∧
      iotraceCreateInodeTracer matchingRelease bothOnlineOther s₁ 1 = some (0, s₂) ∧
      (s₂.monitors 0).isSome ∧ ((s₂.inodeTraces 0).bind InodeTracer.fsm = some 0 ∧
        (s₂.inodeTraces 1).bind InodeTracer.fsm = some 0) :=
    ⟨_, _, rfl, rfl, rfl, rfl, rfl⟩
  have hcover : ∀ (s : MonState 2) (o : CreateOutcome 2), o.online = [0, 1] →
      ScanCoversTracers s o := fun _ o ho i _ => by
    rw [ho]; exact (by decide : ∀ j : Fin 2, j ∈ [0, 1]) i
  have hrun : MonReachable matchingRelease ScanCoversTracers s₂ :=
    sharedCreates_steps ⟨hcover _ _ rfl, hcover _ _ rfl⟩ h₁ h₂
  exact ⟨s₂, hrun, hmon, hfsm.1, hfsm.2, monitor_unique_of_scan_covers hrun⟩

/-- A create on CPU `1` while CPU `0` is offline. -/
def cpu0Offline : CreateOutcome 2 := ⟨true, true, [1], some 1, some 1, true⟩

/-- Two creates, the second while the CPU of the first tracer is offline: the
scan of the second finds no monitor and `_fsm_init` allocates another, so
two monitors are live and the two tracers point to different ones. -/
theorem second_monitor_offline_cpu : ∃ s : MonState 2,
    MonReachable matchingRelease (fun _ _ => True) s ∧ (s.monitors 0).isSome ∧
      (s.monitors 1).isSome ∧ (s.inodeTraces 0).bind InodeTracer.fsm = some 0 ∧
      (s.inodeTraces 1).bind InodeTracer.fsm = some 1 := by
  obtain ⟨s₁, s₂, h₁, h₂, hslot, hmon, hlive⟩ : ∃ s₁ s₂ : MonState 2,
      iotraceCreateInodeTracer matchingRelease bothOnline (monInit 2) 0 = some (0, s₁) ∧
      iotraceCreateInodeTracer matchingRelease cpu0Offline s₁ 1 = some (0, s₂) ∧
      s₁.inodeTraces 1 = none ∧ s₁.monitors = Function.update (fun _ => none) 0 (some ⟨1, 0⟩) ∧
      ((s₂.monitors 0).isSome ∧ (s₂.monitors 1).isSome ∧
        (s₂.inodeTraces 0).bind InodeTracer.fsm = some 0 ∧
        (s₂.inodeTraces 1).bind InodeTracer.fsm = some 1) :=
    ⟨_, _, rfl, rfl, rfl, rfl, rfl, rfl, rfl, rfl⟩
  have hfirst : MonStep matchingRelease (fun _ _ => True) (monInit 2) s₁ :=
    .create 0 bothOnline 0 trivial rfl (fun _ _ => rfl) (fun _ _ _ _ h => by cases h) h₁
  refine ⟨s₂, .tail (.single hfirst) (.create 1 cpu0Offline 0 trivial hslot ?_ ?_ h₂), hlive⟩
  · rintro a ⟨⟩
    rw [hmon]; rfl
  · rintro g ⟨⟩ m r hr
    rw [hmon] at hr
    by_cases e : m = 0
    · subst e; cases hr; decide
    · simp [Function.update_noteq e] at hr

/-! ## An incompatible kernel -/

/-- A running kernel whose release, `"6"`, is not the build's. -/
def otherRelease : MonEnv := ⟨[53], [54, 0]⟩

example : fsmIsCompatibleKernel otherRelease = false := by decide

/-- No monitor is live and no tracer has one. -/
def NoMonitor (s : MonState ncpu) : Prop :=
  (∀ m, s.monitors m = none) ∧ ∀ c t, s.inodeTraces c = some t → t.fsm = none

theorem NoMonitor.setSlot {s : MonState ncpu} (hn : NoMonitor s) {c : Fin ncpu}
    {v : Option InodeTracer} (hv : ∀ t, v = some t → t.fsm = none) : NoMonitor (s.setSlot c v) := by
  refine ⟨hn.1, fun c' t ht => ?_⟩
  rw [setSlot_inodeTraces, Function.update_apply] at ht
  split_ifs at ht
  exacts [hv t ht, hn.2 c' t ht]

private theorem MonStep.noMonitor {env : MonEnv} (hk : fsmIsCompatibleKernel env = false)
    {s s' : MonState ncpu} (h : MonStep env ok s s') (hn : NoMonitor s) : NoMonitor s' := by
  cases h with
  | create c o ret _ _ _ _ h =>
    rcases create_cases h with ⟨-, rfl⟩ | ⟨-, f, s₁, hf, rfl⟩
    · exact hn.setSlot fun _ h => by cases h
    · obtain ⟨rfl, rfl⟩ :=
        Prod.mk.inj (Option.some.inj ((fsmInit_incompatible hk o _).symm.trans hf))
      exact (hn.setSlot fun _ h => by cases h).setSlot fun _ h => by cases h; rfl
  | destroy c _ h =>
    rcases destroy_cases h with ⟨-, rfl⟩ | ⟨t, s₁, hc, hp, rfl⟩
    · exact hn
    · rw [hn.2 c t hc] at hp
      cases hp
      exact hn.setSlot fun _ h => by cases h

/-- On a kernel other than the build's, no monitor is ever live, every
tracer has a `NULL` `fsm`, and a walk from such a tracer watches nothing:
it makes no `_fs_add_mark` call. -/
theorem incompatible_kernel_unwatched {env : MonEnv} {s : MonState ncpu}
    (hk : fsmIsCompatibleKernel env = false) (h : MonReachable env ok s) :
    (∀ m, s.monitors m = none) ∧ ∀ c t, s.inodeTraces c = some t → t.fsm = none ∧
      ∀ (wenv : WalkEnv) (fuel : Nat) (ws ws' : WalkState) (inode : Inode), ws.tracer = t →
        iotraceTraceInode wenv fuel ws inode = .done ws' → ws'.marks = ws.marks := by
  have hn : NoMonitor s := by
    induction h with
    | refl => exact ⟨fun _ => rfl, fun _ _ h => by cases h⟩
    | tail _ hstep ih => exact hstep.noMonitor hk ih
  refine ⟨hn.1, fun c t hc => ⟨hn.2 c t hc, fun _ _ ws _ _ ht hw => ?_⟩⟩
  exact iotraceTraceInode_marks (by rw [ht]; exact hn.2 c t hc) hw

theorem incompatible_kernel_unwatched_created : ∃ s : MonState 2,
    MonReachable otherRelease (fun _ _ => True) s ∧ s.inodeTraces 0 = some (createTracer none) ∧
      ∀ m, s.monitors m = none := by
  obtain ⟨s, h₁, hslot⟩ : ∃ s : MonState 2,
      iotraceCreateInodeTracer otherRelease bothOnline (monInit 2) 0 = some (0, s) ∧
      s.inodeTraces 0 = some (createTracer none) :=
    ⟨_, rfl, rfl⟩
  have hrun : MonReachable otherRelease (fun _ _ => True) s :=
    .single (.create 0 bothOnline 0 trivial rfl (fun _ _ => rfl) (fun _ _ _ _ h => by cases h) h₁)
  exact ⟨s, hrun, hslot, (incompatible_kernel_unwatched (by decide) hrun).1⟩

end TraceInode.MonitorRefs
