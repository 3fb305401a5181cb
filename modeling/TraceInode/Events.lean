import TraceInode.Basic

/-!
# Fs events and the preemption depth

`_fs_handle_event` is the fsnotify callback of the tracer's group.  It takes
the child inode from the event's data, writes an `fs_file_event` record for
each bit of the mask among `IOTRACE_FSNOTIFY_EVENTS` (through
`_trace_file_event`) and watches the child on `FS_CREATE` and `FS_OPEN`.

`_trace_file_event` disables preemption with `get_cpu()` to pick its CPU's
trace and enables it again with `put_cpu()` after the commit; when the buffer
is full it returns between the two.  `EventState.depth` is the
`get_cpu`/`put_cpu` nesting and `EventEnv.reserve k` whether the `k`-th
reservation finds room.  A run of events leaves the depth raised by exactly
the number of reservations that failed during it, so one full buffer is
enough for it to drift.

## Main results

* `traceFileEvent_balance` — what one record does to the depth.
* `fsHandleEvents_depth` — every run of events returns, with the depth raised
  by its failed reservations.
* `fsHandleEvents_records` — over every run of events and every outcome of
  the reservations, one reservation per recorded bit of each mask, in order,
  and a record for exactly those that found room.
-/

namespace TraceInode.Events

open TraceInode.Basic

/-! ## Masks, data and state -/

/-- `FS_OPEN`, `FS_MOVED_FROM`, `FS_MOVED_TO`, `FS_CREATE` and
`FS_DELETE_SELF` of `<linux/fsnotify_backend.h>`. -/
def fsOpen : UInt32 := 0x00000020

def fsMovedFrom : UInt32 := 0x00000040

def fsMovedTo : UInt32 := 0x00000080

def fsCreate : UInt32 := 0x00000100

def fsDeleteSelf : UInt32 := 0x00000400

/-- `IOTRACE_FSNOTIFY_EVENTS`: the events the tracer records. -/
def iotraceFsnotifyEvents : UInt32 := fsMovedFrom ||| fsMovedTo ||| fsCreate ||| fsDeleteSelf

/-- An event's `data`, read as its `data_type` says. -/
inductive EventData
  /-- `FSNOTIFY_EVENT_PATH`: the inode of the path's dentry. -/
  | path (child : Inode)
  /-- `FSNOTIFY_EVENT_INODE`: the inode itself. -/
  | inode (child : Inode)
  /-- `FSNOTIFY_EVENT_NONE`. -/
  | none
  /-- Any other `data_type`. -/
  | other (dataType : Int)
deriving DecidableEq, Repr

/-- The data types the handler accepts; any other is a `BUG()`. -/
def EventData.known : EventData → Bool
  | .other _ => false
  | _ => true

structure EventEnv where
  /-- Whether the `k`-th `octf_trace_get_wr_buffer` finds room. -/
  reserve : Nat → Bool

structure EventState where
  /-- The `get_cpu` nesting not yet undone by `put_cpu`. -/
  depth : Nat
  /-- `trace_state.sid`. -/
  sid : UInt64
  /-- Records committed to the trace, oldest first. -/
  events : List FsFileEvent
  /-- Inodes passed to `_fs_add_mark`, oldest first. -/
  marks : List Inode
  /-- Number of reservations made so far. -/
  reserved : Nat
deriving DecidableEq, Repr

/-! ## The handler -/

/-- `_trace_file_event`. -/
def traceFileEvent (env : EventEnv) (s : EventState) (inode : Inode)
    (eventType : FsEventType) : EventState :=
  let k := s.reserved
  let s := { s with depth := s.depth + 1, sid := s.sid + 1, reserved := k + 1 }
  match env.reserve k with
  | false => s
  | true =>
    { s with
      events :=
        s.events ++ [⟨s.sid, inode.sDev.toUInt64, ⟨inode.iIno, inode.iCtime⟩, eventType⟩]
      depth := s.depth - 1 }

@[simp] theorem traceFileEvent_reserved (env : EventEnv) (s : EventState) (i : Inode)
    (t : FsEventType) : (traceFileEvent env s i t).reserved = s.reserved + 1 := by
  cases h : env.reserve s.reserved <;> simp [traceFileEvent, h]

@[simp] theorem traceFileEvent_sid (env : EventEnv) (s : EventState) (i : Inode)
    (t : FsEventType) : (traceFileEvent env s i t).sid = s.sid + 1 := by
  cases h : env.reserve s.reserved <;> simp [traceFileEvent, h]

@[simp] theorem traceFileEvent_depth (env : EventEnv) (s : EventState) (i : Inode)
    (t : FsEventType) :
    (traceFileEvent env s i t).depth = s.depth + if env.reserve s.reserved then 0 else 1 := by
  cases h : env.reserve s.reserved <;> simp [traceFileEvent, h]

/-- A call of `_fs_add_mark` on the handler's group. -/
def fsAddMark (s : EventState) (inode : Inode) : EventState :=
  { s with marks := s.marks ++ [inode] }

/-- `_fs_handle_event`, returning `0`; `none` is the `BUG()` of an unknown
data type. -/
def fsHandleEvent (env : EventEnv) (s : EventState) (mask : UInt32) :
    EventData → Option (Int × EventState)
  | .none => some (0, s)
  | .other _ => none
  | .path child | .inode child =>
    let s := if mask &&& fsMovedFrom &&& iotraceFsnotifyEvents ≠ 0 then
      traceFileEvent env s child .moveFrom else s
    let s := if mask &&& fsMovedTo &&& iotraceFsnotifyEvents ≠ 0 then
      traceFileEvent env s child .moveTo else s
    let s := if mask &&& fsCreate ≠ 0 then
        let s := fsAddMark s child
        if mask &&& iotraceFsnotifyEvents ≠ 0 then traceFileEvent env s child .create else s
      else s
    let s := if mask &&& fsDeleteSelf &&& iotraceFsnotifyEvents ≠ 0 then
      traceFileEvent env s child .delete else s
    let s := if mask &&& fsOpen ≠ 0 then fsAddMark s child else s
    some (0, s)

/-- Events delivered one after another, each as a `(mask, data)` pair. -/
def fsHandleEvents (env : EventEnv) :
    EventState → List (UInt32 × EventData) → Option EventState
  | s, [] => some s
  | s, (mask, data) :: evs =>
    (fsHandleEvent env s mask data).bind fun (_, s) => fsHandleEvents env s evs

/-! ## Counting failed reservations -/

/-- The number of failures among the `n` reservations from the `k`-th on. -/
def fullCount (reserve : Nat → Bool) (k : Nat) : Nat → Nat
  | 0 => 0
  | n + 1 => fullCount reserve k n + if reserve (k + n) then 0 else 1

private theorem fullCount_add (reserve : Nat → Bool) (k m : Nat) :
    ∀ n, fullCount reserve k (m + n) = fullCount reserve k m + fullCount reserve (k + m) n
  | 0 => rfl
  | n + 1 => by
    rw [← Nat.add_assoc m n 1]
    simp only [fullCount, fullCount_add reserve k m n, Nat.add_assoc k m n]
    omega

/-- `s'` comes `n` reservations after `s`, with the depth raised by the
failures among them. -/
def Balanced (reserve : Nat → Bool) (s s' : EventState) : Prop :=
  ∃ n, s'.reserved = s.reserved + n ∧ s'.depth = s.depth + fullCount reserve s.reserved n

section Balanced

variable {r : Nat → Bool} {s s₁ s₂ : EventState}

theorem Balanced.refl (s : EventState) : Balanced r s s := ⟨0, rfl, rfl⟩

theorem Balanced.trans (h₁ : Balanced r s s₁) (h₂ : Balanced r s₁ s₂) :
    Balanced r s s₂ := by
  obtain ⟨m, hm, dm⟩ := h₁
  obtain ⟨n, hn, dn⟩ := h₂
  exact ⟨m + n, by omega, by rw [dn, dm, hm, fullCount_add]; omega⟩

theorem Balanced.ite (c : Prop) [Decidable c] (h : Balanced r s s₁) :
    Balanced r s (if c then s₁ else s) := by
  split
  · exact h
  · exact .refl s

end Balanced

/-! ## The depth over a run -/

theorem traceFileEvent_balance (env : EventEnv) (s : EventState) (i : Inode) (t : FsEventType) :
    Balanced env.reserve s (traceFileEvent env s i t) :=
  ⟨1, traceFileEvent_reserved .., by simp [fullCount]⟩

private theorem fsAddMark_balance (r : Nat → Bool) (s : EventState) (i : Inode) :
    Balanced r s (fsAddMark s i) := .refl s

private theorem fsHandleEvent_balance {env : EventEnv} {s s' : EventState} {mask : UInt32}
    {data : EventData} {ret : Int} (h : fsHandleEvent env s mask data = some (ret, s')) :
    Balanced env.reserve s s' := by
  cases data with
  | none => cases h; exact .refl s
  | other => cases h
  | path child | inode child =>
    obtain ⟨-, rfl⟩ := Prod.mk.inj (Option.some.inj h)
    exact (((Balanced.ite _ (traceFileEvent_balance ..)).trans
      (.ite _ (traceFileEvent_balance ..))).trans
      (.ite _ ((fsAddMark_balance ..).trans (.ite _ (traceFileEvent_balance ..))))).trans
      ((Balanced.ite _ (traceFileEvent_balance ..)).trans (.ite _ (fsAddMark_balance ..)))

private theorem fsHandleEvent_known {env : EventEnv} {s : EventState} {mask : UInt32}
    {data : EventData}
    (hd : data.known = true) : ∃ ret s', fsHandleEvent env s mask data = some (ret, s') := by
  cases data with
  | other => cases hd
  | _ => exact ⟨_, _, rfl⟩

theorem fsHandleEvents_depth {env : EventEnv} {s : EventState} {evs : List (UInt32 × EventData)}
    (hd : ∀ e ∈ evs, e.2.known = true) :
    ∃ s', fsHandleEvents env s evs = some s' ∧ Balanced env.reserve s s' := by
  induction evs generalizing s with
  | nil => exact ⟨s, rfl, .refl s⟩
  | cons e evs ih =>
    obtain ⟨ret, s₁, h₁⟩ :=
      @fsHandleEvent_known env s e.1 e.2 (hd e (List.mem_cons_self e evs))
    obtain ⟨s', h', hb⟩ := @ih s₁ fun e' he' => hd e' (List.mem_cons_of_mem e he')
    exact ⟨s', by simp [fsHandleEvents, h₁, h'], (fsHandleEvent_balance h₁).trans hb⟩

/-- A regular file, a trace whose every reservation fails, and a CPU with
preemption enabled. -/
def movedFile : Inode := ⟨12, 8, ⟨1, 0⟩, 0o100644⟩

def sinkFull : EventEnv := ⟨fun _ => false⟩

def idleState : EventState := ⟨0, 0, [], [], 0⟩

theorem fsHandleEvents_depth_movedFrom :
    ∃ s', fsHandleEvents sinkFull idleState [(fsMovedFrom, .inode movedFile)] = some s' ∧
      s'.depth = idleState.depth + 1 := by
  obtain ⟨s', h, n, hn, hdepth⟩ := @fsHandleEvents_depth sinkFull idleState
    [(fsMovedFrom, .inode movedFile)] (by decide)
  refine ⟨s', h, ?_⟩
  obtain rfl : s' = ⟨1, 1, [], [], 1⟩ := Option.some.inj (h.symm.trans rfl)
  obtain rfl : n = 1 := by simpa [idleState] using hn.symm
  exact hdepth

/-! ## What the handler records -/

/-- The records an event asks for: one for each bit of
`IOTRACE_FSNOTIFY_EVENTS` set in its mask, in the order the handler tests
them. -/
def maskEvents (mask : UInt32) : List FsEventType :=
  [(fsMovedFrom, FsEventType.moveFrom), (fsMovedTo, .moveTo), (fsCreate, .create),
    (fsDeleteSelf, .delete)].flatMap fun (bit, t) => if mask &&& bit ≠ 0 then [t] else []

/-- `maskEvents` as the four tests in a row. -/
private theorem maskEvents_eq (mask : UInt32) : maskEvents mask =
    (if mask &&& fsMovedFrom ≠ 0 then [.moveFrom] else []) ++
      (if mask &&& fsMovedTo ≠ 0 then [.moveTo] else []) ++
      (if mask &&& fsCreate ≠ 0 then [.create] else []) ++
      (if mask &&& fsDeleteSelf ≠ 0 then [.delete] else []) := by
  simp only [maskEvents, List.flatMap_cons, List.flatMap_nil, List.append_nil, List.append_assoc]

example : maskEvents (fsMovedFrom ||| fsCreate ||| fsOpen) = [.moveFrom, .create] := by decide

/-- The inode an event's data names. -/
def EventData.child : EventData → Option Inode
  | .path c | .inode c => some c
  | .none | .other _ => Option.none

/-- The records the handler attempts over a run of events: for each event
naming a child, one per type of `maskEvents`, in order. -/
def runAttempts (evs : List (UInt32 × EventData)) : List (Inode × FsEventType) :=
  evs.flatMap fun (mask, data) => ((data.child.map fun c => (maskEvents mask).map (c, ·))).getD []

/-- The watches the handler adds over a run of events: for each event naming
a child, the child once for `FS_CREATE` and once for `FS_OPEN`. -/
def runMarks (evs : List (UInt32 × EventData)) : List Inode :=
  evs.flatMap fun (mask, data) => (data.child.map fun c =>
    (if mask &&& fsCreate ≠ 0 then [c] else []) ++ (if mask &&& fsOpen ≠ 0 then [c] else [])).getD []

/-- The records attempts leave when the first makes the `k`-th reservation
and `state->sid` held `sid` before it: a record for each attempt whose
reservation finds room, with the id drawn for it. -/
def attemptRecords (env : EventEnv) : Nat → UInt64 → List (Inode × FsEventType) → List FsFileEvent
  | _, _, [] => []
  | k, sid, (c, t) :: as =>
    (if env.reserve k then [⟨sid + 1, c.sDev.toUInt64, ⟨c.iIno, c.iCtime⟩, t⟩] else []) ++
      attemptRecords env (k + 1) (sid + 1) as

private theorem attemptRecords_append (env : EventEnv) (bs : List (Inode × FsEventType)) :
    ∀ (as : List (Inode × FsEventType)) (k : Nat) (sid : UInt64),
      attemptRecords env k sid (as ++ bs) = attemptRecords env k sid as ++
        attemptRecords env (k + as.length) ((· + 1)^[as.length] sid) bs
  | [], k, sid => by simp [attemptRecords]
  | (c, t) :: as, k, sid => by
    rw [List.cons_append]
    simp only [attemptRecords, attemptRecords_append env bs as, List.append_assoc, List.length_cons,
      Function.iterate_succ_apply, Nat.add_right_comm k 1, Nat.add_assoc k]

/-- `s'` follows `s` after the attempts `as` and the watches `ms`: one
reservation and one id per attempt, the records `attemptRecords` leaves, and
the watches in order. -/
def Handles (env : EventEnv) (s s' : EventState) (as : List (Inode × FsEventType))
    (ms : List Inode) : Prop :=
  s'.reserved = s.reserved + as.length ∧ s'.sid = (· + 1)^[as.length] s.sid ∧
    s'.events = s.events ++ attemptRecords env s.reserved s.sid as ∧ s'.marks = s.marks ++ ms

section Handles

variable {env : EventEnv} {s s₁ s₂ : EventState} {as bs : List (Inode × FsEventType)}
  {ms ns : List Inode}

theorem Handles.refl (s : EventState) : Handles env s s [] [] :=
  ⟨rfl, rfl, by simp [attemptRecords], by simp⟩

theorem Handles.trans (h₁ : Handles env s s₁ as ms) (h₂ : Handles env s₁ s₂ bs ns) :
    Handles env s s₂ (as ++ bs) (ms ++ ns) := by
  obtain ⟨r₁, i₁, e₁, m₁⟩ := h₁
  obtain ⟨r₂, i₂, e₂, m₂⟩ := h₂
  refine ⟨by rw [r₂, r₁, List.length_append, Nat.add_assoc], ?_, ?_, by
    rw [m₂, m₁, List.append_assoc]⟩
  · rw [i₂, i₁, List.length_append, Nat.add_comm, Function.iterate_add_apply]
  · rw [e₂, e₁, r₁, i₁, attemptRecords_append, List.append_assoc]

private theorem Handles.of_eq (h : Handles env s s₁ as ms) (ha : as = bs) (hm : ms = ns) :
    Handles env s s₁ bs ns := ha ▸ hm ▸ h

theorem Handles.ite (p : Prop) [Decidable p] (h : Handles env s s₁ as ms) :
    Handles env s (if p then s₁ else s) (if p then as else []) (if p then ms else []) := by
  split
  · exact h
  · exact .refl s

end Handles

private theorem traceFileEvent_handles (env : EventEnv) (s : EventState) (c : Inode)
    (t : FsEventType) :
    Handles env s (traceFileEvent env s c t) [(c, t)] [] := by
  refine ⟨traceFileEvent_reserved .., traceFileEvent_sid .., ?_, ?_⟩ <;>
    cases h : env.reserve s.reserved <;> simp [traceFileEvent, attemptRecords, h]

private theorem fsAddMark_handles (env : EventEnv) (s : EventState) (c : Inode) :
    Handles env s (fsAddMark s c) [] [c] :=
  ⟨rfl, rfl, by simp [fsAddMark, attemptRecords], rfl⟩

private theorem land_land_eq {x b e b' : UInt32} (h : b &&& e = b') : x &&& b &&& e = x &&& b' :=
  UInt32.eq_of_toBitVec_eq <| (BitVec.and_assoc ..).trans <|
    congrArg (x.toBitVec &&& ·) (UInt32.toBitVec_eq_of_eq h)

/-- Each of the four bits is one of `IOTRACE_FSNOTIFY_EVENTS`, so the
handler's second mask test changes nothing. -/
private theorem recorded_bit {mask bit : UInt32} (h : bit &&& iotraceFsnotifyEvents = bit) :
    (mask &&& bit &&& iotraceFsnotifyEvents ≠ 0) = (mask &&& bit ≠ 0) := by
  rw [land_land_eq h]

private theorem events_of_create {mask : UInt32} (h : mask &&& fsCreate ≠ 0) :
    mask &&& iotraceFsnotifyEvents ≠ 0 := fun h' =>
  h (by
    rw [← @land_land_eq mask _ _ _ (show iotraceFsnotifyEvents &&& fsCreate = fsCreate by decide),
      h']
    decide)

section Branches

variable (env : EventEnv) (mask : UInt32) (s : EventState) (c : Inode)

/-- A branch `if (mask & bit & IOTRACE_FSNOTIFY_EVENTS) _trace_file_event(…)`. -/
private theorem traced_handles {bit : UInt32} (hb : bit &&& iotraceFsnotifyEvents = bit)
    (t : FsEventType) :
    Handles env s (if mask &&& bit &&& iotraceFsnotifyEvents ≠ 0 then traceFileEvent env s c t else s)
      (if mask &&& bit ≠ 0 then [(c, t)] else []) [] := by
  simp only [recorded_bit hb]
  exact (Handles.ite _ (traceFileEvent_handles env s c t)).of_eq rfl (ite_self _)

/-- The `FS_CREATE` branch: the watch, then the record, whose test always
passes. -/
private theorem create_handles :
    Handles env s (if mask &&& fsCreate ≠ 0 then
        (if mask &&& iotraceFsnotifyEvents ≠ 0 then
          traceFileEvent env (fsAddMark s c) c .create else fsAddMark s c) else s)
      (if mask &&& fsCreate ≠ 0 then [(c, .create)] else [])
      (if mask &&& fsCreate ≠ 0 then [c] else []) := by
  split
  · rw [if_pos (events_of_create ‹_›)]
    exact (fsAddMark_handles env s c).trans (traceFileEvent_handles env _ c .create)
  · exact .refl s

end Branches

/-- One event naming a child: its attempts are those of `maskEvents`, and
it watches the child on `FS_CREATE` and on `FS_OPEN`. -/
private theorem fsHandleEvent_handles {env : EventEnv} {s s' : EventState} {mask : UInt32}
    {data : EventData} {c : Inode} {ret : Int} (hc : data.child = some c)
    (h : fsHandleEvent env s mask data = some (ret, s')) :
    Handles env s s' ((maskEvents mask).map (c, ·))
      ((if mask &&& fsCreate ≠ 0 then [c] else []) ++ (if mask &&& fsOpen ≠ 0 then [c] else [])) := by
  have hs : fsHandleEvent env s mask data = fsHandleEvent env s mask (.inode c) := by
    cases data <;> cases hc <;> rfl
  obtain ⟨-, rfl⟩ := Prod.mk.inj (Option.some.inj (hs.symm.trans h))
  refine ((((traced_handles env mask s c (by decide) .moveFrom).trans
    (traced_handles env mask _ c (by decide) .moveTo)).trans (create_handles env mask _ c)).trans
    ((traced_handles env mask _ c (by decide) .delete).trans
      (.ite _ (fsAddMark_handles env _ c)))).of_eq ?_ (by simp)
  rw [maskEvents_eq]
  split_ifs <;> rfl

/-- The handler over a run of events naming known data types. -/
private theorem fsHandleEvents_handles {env : EventEnv} :
    ∀ (evs : List (UInt32 × EventData)) (s s' : EventState),
      fsHandleEvents env s evs = some s' → Handles env s s' (runAttempts evs) (runMarks evs)
  | [], s, s', h => by cases h; exact .refl s
  | (mask, data) :: evs, s, s', h => by
    obtain ⟨⟨ret, s₁⟩, h₁, h'⟩ := Option.bind_eq_some.1 h
    have hrest := fsHandleEvents_handles evs s₁ s' h'
    cases hc : data.child with
    | none =>
      have hs : s₁ = s := by
        cases data <;> cases hc <;> first | (cases h₁; rfl) | cases h₁
      subst hs
      simpa [runAttempts, runMarks, hc] using hrest
    | some c =>
      simpa [runAttempts, runMarks, hc] using (fsHandleEvent_handles hc h₁).trans hrest

/-- A run of events of known data types returns. -/
private theorem fsHandleEvents_returns (env : EventEnv) :
    ∀ (s : EventState) {evs : List (UInt32 × EventData)}, (∀ e ∈ evs, e.2.known = true) →
      ∃ s', fsHandleEvents env s evs = some s'
  | s, [], _ => ⟨s, rfl⟩
  | s, e :: evs, hd => by
    obtain ⟨ret, s₁, h₁⟩ := @fsHandleEvent_known env s e.1 e.2 (hd e (List.mem_cons_self e evs))
    obtain ⟨s', h'⟩ :=
      fsHandleEvents_returns env s₁ fun e' he' => hd e' (List.mem_cons_of_mem e he')
    exact ⟨s', by simp [fsHandleEvents, h₁, h']⟩

/-- **What a run of events records.**  Over every run of events of known
data types and every outcome of the reservations, the handler returns on
every event.  It makes one reservation, and draws one id, per attempted
record (one per bit of `IOTRACE_FSNOTIFY_EVENTS` in each mask, in the order
move_from, move_to, create, delete), and appends the records of exactly the
attempts whose reservation found room, in order, each naming the child and
carrying the id drawn for it.  It watches the child once per `FS_CREATE` and
once per `FS_OPEN`. -/
theorem fsHandleEvents_records {env : EventEnv} {s : EventState}
    {evs : List (UInt32 × EventData)} (hd : ∀ e ∈ evs, e.2.known = true) :
    ∃ s', fsHandleEvents env s evs = some s' ∧
      s'.reserved = s.reserved + (runAttempts evs).length ∧
      s'.sid = (· + 1)^[(runAttempts evs).length] s.sid ∧
      s'.events = s.events ++ attemptRecords env s.reserved s.sid (runAttempts evs) ∧
      s'.marks = s.marks ++ runMarks evs := by
  obtain ⟨s', h⟩ := fsHandleEvents_returns env s hd
  exact ⟨s', h, fsHandleEvents_handles evs s s' h⟩

/-- A trace whose second reservation finds the buffer full. -/
def sinkFullOnce : EventEnv := ⟨fun k => k != 1⟩

/-- A created and opened file, then moved away and deleted, and an event
without data: the second record finds the buffer full. -/
theorem fsHandleEvents_records_secondFull :
    ∃ s', fsHandleEvents sinkFullOnce idleState [(fsCreate ||| fsOpen, .path movedFile),
        (fsMovedFrom ||| fsDeleteSelf, .inode movedFile), (fsOpen, .none)] = some s' ∧
      s'.reserved = 3 ∧ s'.events.map (fun e => (e.sid, e.fsEventType)) =
        [(1, .create), (3, .delete)] ∧ s'.marks = [movedFile, movedFile] := by
  obtain ⟨s', h, hres, -, hev, hmk⟩ := @fsHandleEvents_records sinkFullOnce idleState
    [(fsCreate ||| fsOpen, .path movedFile), (fsMovedFrom ||| fsDeleteSelf, .inode movedFile),
      (fsOpen, .none)] (by decide)
  exact ⟨s', h, by rw [hres]; decide, by rw [hev]; decide, by rw [hmk]; decide⟩

end TraceInode.Events
