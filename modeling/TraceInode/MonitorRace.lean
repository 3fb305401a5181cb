import TraceInode.MonitorRefs

/-!
# A create racing a destroy

`_fsm_try_get` takes no lock.  Here a create on one CPU and a destroy on CPU
`b` run as interleaved atomic steps: the create reads a sibling slot, then
the `fsm` of the tracer it found, then calls `_fs_monitor_get`, and returns
`(*inode_tracer)->fsm`, which reads the slot and the tracer's `fsm` again;
the destroy calls `_fs_monitor_put`, `vfree`s its tracer and clears its
slot.  The state
is a `MonState` of the sequential model with the two program counters.

The create can read the destroyed CPU's tracer, and its monitor, just before
the destroy drops the last reference: it then reads a freed tracer or takes
a reference on a freed monitor (`create_gets_freed_monitor`).  When the
create, from its read of slot `b` until it returns, never runs while that
destroy is under way, it never does (`race_safe_of_exclusive`).

## Main results

* `create_gets_freed_monitor` — an interleaving where the create's
  `_fs_monitor_get` finds its monitor freed.
* `race_safe_of_exclusive` — no fault in an interleaving that keeps the two
  apart on slot `b`.
-/

namespace TraceInode.MonitorRace

open TraceInode.Cache TraceInode.Monitor TraceInode.MonitorRefs

/-! ## Threads and steps -/

/-- Where the create's `_fsm_try_get` stands. -/
inductive CreatePc (ncpu : Nat)
  /-- About to read the slot of the first CPU of `online`. -/
  | scan (online : List (Fin ncpu))
  /-- Read tracer `t` from the slot of `i`; about to read its `fsm`. -/
  | readFsm (i : Fin ncpu) (t : InodeTracer) (online : List (Fin ncpu))
  /-- Read `fsm = m` of the tracer of slot `i`; about to call `_fs_monitor_get`. -/
  | get (i : Fin ncpu) (m : Nat)
  /-- Took a reference on `m`; about to return `(*inode_tracer)->fsm`, which
  reads the slot of `i` and its tracer's `fsm` again. -/
  | ret (i : Fin ncpu) (m : Nat)
  /-- Returned. -/
  | done (fsm : Option Nat)

/-- Where the destroy stands. -/
inductive DestroyPc
  | put
  | vfree
  | clear
  | done
  deriving DecidableEq

/-- The shared state, the two threads, and whether the create has read a
freed tracer or called `_fs_monitor_get` on a freed monitor. -/
structure RaceState (ncpu : Nat) where
  mon : MonState ncpu
  create : CreatePc ncpu
  destroy : DestroyPc
  fault : Bool

variable {ncpu : Nat} (b : Fin ncpu)

/-- The tracer of slot `b` has been `vfree`d. -/
def DestroyPc.tracerFreed : DestroyPc → Bool
  | .clear | .done => true
  | _ => false

/-- One step of the create. -/
def createStep (s : RaceState ncpu) : Option (RaceState ncpu) :=
  match s.create with
  | .scan [] => some { s with create := .done none }
  | .scan (i :: online) =>
    some { s with create := match s.mon.inodeTraces i with
      | none => .scan online
      | some t => .readFsm i t online }
  | .readFsm i t online =>
    some (if i = b ∧ s.destroy.tracerFreed then { s with fault := true, create := .done none }
      else match t.fsm with
        | none => { s with create := .scan online }
        | some m => { s with create := .get i m })
  | .get i m =>
    some (match fsMonitorGet s.mon m with
      | none => { s with fault := true, create := .done none }
      | some mon => { s with mon, create := .ret i m })
  | .ret i _ =>
    some (match s.mon.inodeTraces i with
      | none => { s with fault := true, create := .done none }
      | some t =>
        if i = b ∧ s.destroy.tracerFreed then { s with fault := true, create := .done none }
        else { s with create := .done t.fsm })
  | .done _ => none

/-- One step of the destroy of the tracer of slot `b`. -/
def destroyStep (s : RaceState ncpu) : Option (RaceState ncpu) :=
  match s.destroy with
  | .put =>
    match s.mon.inodeTraces b with
    | none => some { s with destroy := .done }
    | some t => (fsMonitorPut s.mon t.fsm).map fun mon => { s with mon, destroy := .vfree }
  | .vfree => some { s with destroy := .clear }
  | .clear => some { s with mon := s.mon.setSlot b none, destroy := .done }
  | .done => none

/-- A step of either thread. -/
def RaceStep (s s' : RaceState ncpu) : Prop :=
  createStep b s = some s' ∨ destroyStep b s = some s'

/-- The race from a state of the sequential model: the create scans `online`
and the destroy has not started. -/
def raceStart (mon : MonState ncpu) (online : List (Fin ncpu)) : RaceState ncpu :=
  ⟨mon, .scan online, .put, false⟩

/-! ## An interleaving that gets a freed monitor -/

/-- A tracer with a monitor is created on CPU `1`; then a create on CPU `0`
reads that tracer and its `fsm`, the destroy of CPU `1` drops the monitor's
only reference and frees it, and the create's `_fs_monitor_get` finds it
freed. -/
theorem create_gets_freed_monitor : ∃ mon : MonState 2,
    MonReachable matchingRelease (fun _ _ => True) mon ∧ mon.inodeTraces 0 = none ∧
      ∃ s, Relation.ReflTransGen (RaceStep 1) (raceStart mon [0, 1]) s ∧ s.fault = true := by
  obtain ⟨mon, r₁, r₂, r₃, r₄, r₅, h₀, h₁, h₂, h₃, h₄, h₅, hf, hslot⟩ :
      ∃ (mon : MonState 2) (r₁ r₂ r₃ r₄ r₅ : RaceState 2),
      iotraceCreateInodeTracer matchingRelease bothOnline (monInit 2) 1 = some (0, mon) ∧
      createStep 1 (raceStart mon [0, 1]) = some r₁ ∧ createStep 1 r₁ = some r₂ ∧
      createStep 1 r₂ = some r₃ ∧ destroyStep 1 r₃ = some r₄ ∧ createStep 1 r₄ = some r₅ ∧
      r₅.fault = true ∧ mon.inodeTraces 0 = none :=
    ⟨_, _, _, _, _, _, rfl, rfl, rfl, rfl, rfl, rfl, rfl, rfl⟩
  have hrun : MonReachable matchingRelease (fun _ _ => True) mon :=
    .single (.create 1 bothOnline 0 trivial rfl (fun _ _ => rfl) (fun _ _ _ _ h => by cases h) h₀)
  exact ⟨mon, hrun, hslot, r₅, .tail (.tail (.tail (.tail (.single (.inl h₁)) (.inl h₂)) (.inl h₃))
    (.inr h₄)) (.inl h₅), hf⟩

/-! ## Interleavings that keep the two apart -/

/-- The slot the create read the tracer, or the monitor, it holds from. -/
def CreatePc.slot : CreatePc ncpu → Option (Fin ncpu)
  | .readFsm i _ _ => some i
  | .get i _ => some i
  | .ret i _ => some i
  | _ => none

/-- The slot and the monitor the create read, from its read of the `fsm`
until it returns. -/
def CreatePc.fsmRead : CreatePc ncpu → Option (Fin ncpu × Nat)
  | .get i m => some (i, m)
  | .ret i m => some (i, m)
  | _ => none

private theorem CreatePc.slot_of_fsmRead {pc : CreatePc ncpu} {i : Fin ncpu} {m : Nat}
    (h : pc.fsmRead = some (i, m)) : pc.slot = some i := by
  cases pc <;> cases h <;> rfl

/-- The reference the create holds on `m` once `_fs_monitor_get` returned. -/
def CreatePc.ref : CreatePc ncpu → Nat → Nat
  | .ret _ m', m => if m' = m then 1 else 0
  | .done (some m'), m => if m' = m then 1 else 0
  | _, _ => 0

/-- From its read of slot `b` until it returns, the create runs only while
the destroy of slot `b` has not started. -/
def Exclusive (s : RaceState ncpu) : Prop :=
  s.create.slot = some b → s.destroy = .put

/-- A step of either thread between two states that keep them apart. -/
def ExclStep (s s' : RaceState ncpu) : Prop :=
  RaceStep b s s' ∧ Exclusive b s ∧ Exclusive b s'

/-- The slots whose tracers still hold their monitor reference: all of them
until the destroy's `_fs_monitor_put`, all but `b` after it. -/
def held (slots : Fin ncpu → Option InodeTracer) (dpc : DestroyPc) :
    Fin ncpu → Option InodeTracer :=
  if dpc = .put then slots else Function.update slots b none

/-- The invariant of the race: no fault, every live monitor's `refcnt` counts
the tracers still holding it and the create's reference, a held monitor is
live, and what the create read is still in its slot. -/
structure RaceInv (s : RaceState ncpu) : Prop where
  no_fault : s.fault = false
  refcnt_eq : ∀ m r, s.mon.monitors m = some r →
    r.refcnt = users (held b s.mon.inodeTraces s.destroy) m + s.create.ref m
  live_of_users : ∀ m, 0 < users (held b s.mon.inodeTraces s.destroy) m → (s.mon.monitors m).isSome
  read_tracer : ∀ i t online, s.create = .readFsm i t online → s.mon.inodeTraces i = some t
  read_fsm : ∀ i m, s.create.fsmRead = some (i, m) →
    ∃ t, s.mon.inodeTraces i = some t ∧ t.fsm = some m

private theorem held_of_ne {slots : Fin ncpu → Option InodeTracer} {dpc : DestroyPc} {i : Fin ncpu}
    (h : i ≠ b) : held b slots dpc i = slots i := by
  unfold held; split_ifs <;> simp [Function.update_noteq h]

/-- A slot the create read from still counts as a holder. -/
private theorem held_of_slot {s : RaceState ncpu} (hx : Exclusive b s) {i : Fin ncpu}
    (hi : s.create.slot = some i) : held b s.mon.inodeTraces s.destroy i = s.mon.inodeTraces i := by
  by_cases h : i = b
  · subst h; simp [held, hx hi]
  · exact held_of_ne b h

private theorem raceInv_start {mon : MonState ncpu} (hi : RefInv mon) (online : List (Fin ncpu)) :
    RaceInv b (raceStart mon online) where
  no_fault := rfl
  refcnt_eq m r h := by simpa [held, raceStart, CreatePc.ref] using hi.refcnt_eq m r h
  live_of_users m h := hi.live_of_users m (by simpa [held, raceStart] using h)
  read_tracer _ _ _ h := by cases h
  read_fsm _ _ h := by cases h

/-- A create step that moves only the create's program counter, to one whose
reads are still in their slots and which holds the same references. -/
private theorem RaceInv.of_create {s : RaceState ncpu} (hi : RaceInv b s) {pc : CreatePc ncpu}
    (hr : ∀ m, pc.ref m = s.create.ref m)
    (ht : ∀ i t online, pc = .readFsm i t online → s.mon.inodeTraces i = some t)
    (hf : ∀ i m, pc.fsmRead = some (i, m) → ∃ t, s.mon.inodeTraces i = some t ∧ t.fsm = some m) :
    RaceInv b { s with create := pc } where
  no_fault := hi.no_fault
  refcnt_eq m r h := by rw [hr]; exact hi.refcnt_eq m r h
  live_of_users := hi.live_of_users
  read_tracer := ht
  read_fsm := hf

private theorem RaceInv.of_createStep {s s' : RaceState ncpu} (hi : RaceInv b s)
    (hx : Exclusive b s) (h : createStep b s = some s') : RaceInv b s' := by
  obtain ⟨mon, pc, dpc, fault⟩ := s
  -- what the create read from slot `b` is not freed: the destroy has not started
  have hfree : ∀ i, CreatePc.slot pc = some i → ¬ (i = b ∧ dpc.tracerFreed) := by
    rintro i hi' ⟨rfl, hfreed⟩
    rw [show dpc = .put from hx hi'] at hfreed
    cases hfreed
  cases pc with
  | scan online =>
    cases online with
    | nil => cases h; exact hi.of_create b (fun _ => rfl) nofun nofun
    | cons i online =>
      cases h
      cases hs : mon.inodeTraces i with
      | none => exact hi.of_create b (fun _ => rfl) nofun nofun
      | some t => exact hi.of_create b (fun _ => rfl) (by rintro _ _ _ ⟨⟩; exact hs) nofun
  | readFsm i t online =>
    have hs := hi.read_tracer i t online rfl
    simp only [createStep, if_neg (hfree i rfl), Option.some.injEq] at h
    subst h
    cases htf : t.fsm with
    | none => exact hi.of_create b (fun _ => rfl) nofun nofun
    | some m => exact hi.of_create b (fun _ => rfl) nofun (by rintro _ _ ⟨⟩; exact ⟨t, hs, htf⟩)
  | get i m =>
    obtain ⟨t, hs, htf⟩ := hi.read_fsm i m rfl
    have hheld : held b mon.inodeTraces dpc i = some t := (held_of_slot b hx rfl).trans hs
    have hpos : 0 < users (held b mon.inodeTraces dpc) m := users_pos_of_holds
      (show (held b mon.inodeTraces dpc i).bind InodeTracer.fsm = some m by simp [hheld, htf])
    obtain ⟨r, hr⟩ := Option.isSome_iff_exists.1 (hi.live_of_users m hpos)
    have hk := hi.refcnt_eq m r hr
    replace hr : mon.monitors m = some r := hr
    simp only [createStep, fsMonitorGet, hr, Option.map_some', Option.some.injEq] at h
    subst h
    refine ⟨hi.no_fault, fun m' r' h' => ?_, fun m' h' => ?_, nofun,
      by rintro _ _ ⟨⟩; exact ⟨t, hs, htf⟩⟩
    · by_cases e : m' = m
      · subst e
        simp only [Function.update_same, Option.some.injEq] at h'
        subst h'
        simp only [CreatePc.ref, if_true] at hk ⊢
        omega
      · simp only [Function.update_noteq e] at h'
        simpa [CreatePc.ref, e, Ne.symm e] using hi.refcnt_eq m' r' h'
    · by_cases e : m' = m
      · subst e; simp
      · simpa [Function.update_noteq e] using hi.live_of_users m' h'
  | ret i m =>
    obtain ⟨t, hs, htf⟩ := hi.read_fsm i m rfl
    replace hs : mon.inodeTraces i = some t := hs
    simp only [createStep, hs, if_neg (hfree i rfl), htf, Option.some.injEq] at h
    subst h
    exact hi.of_create b (fun _ => rfl) nofun nofun
  | done f => cases h

/-- A destroy step that leaves the monitors, the held slots and the slots the
create read from as they were. -/
private theorem RaceInv.of_destroy_moves {s s' : RaceState ncpu} (hi : RaceInv b s)
    (hf : s'.fault = s.fault) (hc : s'.create = s.create) (hm : s'.mon.monitors = s.mon.monitors)
    (hh : ∀ m, users (held b s'.mon.inodeTraces s'.destroy) m =
      users (held b s.mon.inodeTraces s.destroy) m)
    (hs : ∀ i, s.create.slot = some i → s'.mon.inodeTraces i = s.mon.inodeTraces i) :
    RaceInv b s' where
  no_fault := hf.trans hi.no_fault
  refcnt_eq m r h := by rw [hh, hc]; exact hi.refcnt_eq m r (hm ▸ h)
  live_of_users m h := by rw [hm]; exact hi.live_of_users m (hh m ▸ h)
  read_tracer i t o h := by
    rw [hc] at h; rw [hs i (by rw [h]; rfl)]; exact hi.read_tracer i t o h
  read_fsm i m h := by
    rw [hc] at h
    rw [hs i (CreatePc.slot_of_fsmRead h)]
    exact hi.read_fsm i m h

private theorem RaceInv.of_destroyStep {s s' : RaceState ncpu} (hi : RaceInv b s)
    (hx : Exclusive b s) (h : destroyStep b s = some s') : RaceInv b s' := by
  obtain ⟨mon, pc, dpc, fault⟩ := s
  cases dpc with
  | put =>
    cases hb : mon.inodeTraces b with
    | none =>
      simp only [destroyStep, hb, Option.some.injEq] at h
      subst h
      refine hi.of_destroy_moves b rfl rfl rfl (fun m => ?_) (fun _ _ => rfl)
      simp [held, ← hb]
    | some t =>
      simp only [destroyStep, hb, Option.map_eq_some'] at h
      obtain ⟨mon', hp, rfl⟩ := h
      -- the tracer of slot `b` stops holding its monitor
      have hu : ∀ m, users (held b mon.inodeTraces .vfree) m + holds (some t) m =
          users (held b mon.inodeTraces .put) m := fun m => by
        simpa [held, hb] using users_update mon.inodeTraces b none m
      rcases fsMonitorPut_cases hp with ⟨hf, rfl⟩ | ⟨m, r, hf, hr, h₁, h₂, -⟩
      · refine hi.of_destroy_moves b rfl rfl rfl (fun m => ?_) (fun _ _ => rfl)
        simpa [holds, hf] using hu m
      · have hk := hi.refcnt_eq m r hr
        have hum := hu m
        rw [holds_some hf, if_pos rfl] at hum
        have hother : ∀ m', m' ≠ m → users (held b mon.inodeTraces .vfree) m' =
            users (held b mon.inodeTraces .put) m' := fun m' e => by
          simpa [holds_some hf, e] using hu m'
        refine ⟨hi.no_fault, fun m' r' h' => ?_, fun m' h' => ?_, fun i t' o h => ?_,
          fun i m' h => ?_⟩
        · simp only [h₁, h₂] at h' ⊢
          by_cases e : m' = m
          · subst e
            rw [Function.update_same] at h'
            split_ifs at h' with h0
            cases h'
            simp only at hk ⊢
            omega
          · rw [Function.update_noteq e] at h'
            rw [hother m' e]; exact hi.refcnt_eq m' r' h'
        · simp only [h₁, h₂] at h' ⊢
          by_cases e : m' = m
          · subst e
            rw [Function.update_same]
            split_ifs with h0
            · simp only at hk; omega
            · rfl
          · rw [Function.update_noteq e]; exact hi.live_of_users m' (by rwa [← hother m' e])
        · rw [h₁]; exact hi.read_tracer i t' o h
        · rw [h₁]; exact hi.read_fsm i m' h
  | vfree =>
    cases h
    exact hi.of_destroy_moves b rfl rfl rfl (by simp [held]) (fun _ _ => rfl)
  | clear =>
    cases h
    refine hi.of_destroy_moves b rfl rfl rfl (by simp [held]) fun i hi' => ?_
    have hne : i ≠ b := fun e => by cases hx (e ▸ hi')
    simp [Function.update_noteq hne]
  | done => cases h

private theorem ExclStep.raceInv {s s' : RaceState ncpu} (h : ExclStep b s s') (hi : RaceInv b s) :
    RaceInv b s' :=
  h.1.elim (hi.of_createStep b h.2.1) (hi.of_destroyStep b h.2.1)

/-- From any state with the reference-count invariant, in every interleaving
of a create and the destroy of CPU `b` in which the create never holds what
it read from slot `b` while that destroy is under way, the create neither
reads a freed tracer nor calls `_fs_monitor_get` on a freed monitor. -/
theorem race_safe_of_exclusive {mon : MonState ncpu} {online : List (Fin ncpu)} {s : RaceState ncpu}
    (hi : RefInv mon) (h : Relation.ReflTransGen (ExclStep b) (raceStart mon online) s) :
    s.fault = false := by
  suffices RaceInv b s from this.no_fault
  induction h with
  | refl => exact raceInv_start b hi online
  | tail _ hstep ih => exact hstep.raceInv b ih

/-- A tracer with a monitor is created on CPU `1`; a create on CPU `0` reads
it, takes its monitor and returns, and only then does the destroy of CPU `1`
run to the end. -/
theorem race_safe_of_exclusive_getFirst : ∃ (mon : MonState 2) (s : RaceState 2),
    MonReachable matchingRelease (fun _ _ => True) mon ∧
      Relation.ReflTransGen (ExclStep 1) (raceStart mon [0, 1]) s ∧
      s.create = .done (some 0) ∧ s.destroy = .done ∧ s.fault = false := by
  obtain ⟨mon, r₁, r₂, r₃, r₄, r₅, r₆, r₇, r₈, h₀, h₁, h₂, h₃, h₄, h₅, h₆, h₇, h₈,
      e₀, e₁, e₂, e₃, e₄, e₅, e₆, e₇, e₈, hc, hd⟩ :
      ∃ (mon : MonState 2) (r₁ r₂ r₃ r₄ r₅ r₆ r₇ r₈ : RaceState 2),
      iotraceCreateInodeTracer matchingRelease bothOnline (monInit 2) 1 = some (0, mon) ∧
      createStep 1 (raceStart mon [0, 1]) = some r₁ ∧ createStep 1 r₁ = some r₂ ∧
      createStep 1 r₂ = some r₃ ∧ createStep 1 r₃ = some r₄ ∧ createStep 1 r₄ = some r₅ ∧
      destroyStep 1 r₅ = some r₆ ∧ destroyStep 1 r₆ = some r₇ ∧ destroyStep 1 r₇ = some r₈ ∧
      Exclusive 1 (raceStart mon [0, 1]) ∧ Exclusive 1 r₁ ∧ Exclusive 1 r₂ ∧ Exclusive 1 r₃ ∧
      Exclusive 1 r₄ ∧ Exclusive 1 r₅ ∧ Exclusive 1 r₆ ∧ Exclusive 1 r₇ ∧ Exclusive 1 r₈ ∧
      r₈.create = .done (some 0) ∧ r₈.destroy = .done :=
    ⟨_, _, _, _, _, _, _, _, _, rfl, rfl, rfl, rfl, rfl, rfl, rfl, rfl, rfl, (fun h => by cases h),
      (fun h => by cases h), fun _ => rfl, fun _ => rfl, fun _ => rfl, (fun h => by cases h),
      (fun h => by cases h), (fun h => by cases h), (fun h => by cases h), rfl, rfl⟩
  have hrun : MonReachable matchingRelease (fun _ _ => True) mon :=
    .single (.create 1 bothOnline 0 trivial rfl (fun _ _ => rfl) (fun _ _ _ _ h => by cases h) h₀)
  have hsteps : Relation.ReflTransGen (ExclStep 1) (raceStart mon [0, 1]) r₈ :=
    .tail (.tail (.tail (.tail (.tail (.tail (.tail (.single ⟨.inl h₁, e₀, e₁⟩) ⟨.inl h₂, e₁, e₂⟩)
      ⟨.inl h₃, e₂, e₃⟩) ⟨.inl h₄, e₃, e₄⟩) ⟨.inl h₅, e₄, e₅⟩) ⟨.inr h₆, e₅, e₆⟩)
      ⟨.inr h₇, e₆, e₇⟩) ⟨.inr h₈, e₇, e₈⟩
  exact ⟨mon, r₈, hrun, hsteps, hc, hd, race_safe_of_exclusive 1 (monReachable_refInv hrun) hsteps⟩

end TraceInode.MonitorRace
