import TraceInode.Basic
import Mathlib.Algebra.Order.BigOperators.Group.Finset
import Mathlib.Logic.Relation

/-!
# Watching an inode under interleaving

`_fs_add_mark(group, inode)` looks for the group's mark on the inode
(`fsnotify_find_mark`, which returns it with a reference) and drops that
reference if there is one; otherwise it allocates a mark from `mark_cache`,
initialises it with one reference, attaches it (`fsnotify_add_mark`, which
takes a reference for the attachment, or fails with `AlreadyExists` when the
group already has a mark there) and drops its own reference.  A mark whose
last reference goes is returned to `mark_cache`.

Here `n` calls for one `(group, inode)` run as interleaved steps; the
backend's `find_mark` and `add_mark` are atomic steps on the inode's mark
list.  At most one mark is ever attached, and every reference on a mark is
its attachment's or that of a call that still holds it.  So a call can
return while its mark is also referenced by another call's `find_mark`
(`mark_shared_on_return`); once every call has returned, every mark left is
attached and referenced only by its attachment.

## Main results

* `markReachable_inv` — the reference accounting over every interleaving.
* `mark_shared_on_return` — a call returns while its mark has two references.
-/

namespace TraceInode.Marks

open TraceInode.Basic

/-! ## Calls and steps -/

/-- Where one `_fs_add_mark` call stands. -/
inductive AddMarkPc
  /-- About to call `find_mark`. -/
  | start
  /-- `find_mark` returned mark `m`, with a reference; about to `put_mark` it. -/
  | found (m : Nat)
  /-- `find_mark` returned `NULL`; about to allocate and initialise a mark. -/
  | alloc
  /-- Holds the reference `init_mark` gave mark `m`; about to call `add_mark`. -/
  | add (m : Nat)
  /-- `add_mark` returned; about to `put_mark` mark `m`. -/
  | put (m : Nat)
  /-- Returned, having allocated `allocated`. -/
  | done (allocated : Option Nat)
  deriving DecidableEq

/-- The marks of `mark_cache` in use with their reference counts, the marks
attached to the inode, and the calls. -/
structure MarkState (n : Nat) where
  marks : Nat → Option Nat
  attached : List Nat
  calls : Fin n → AddMarkPc

variable {n : Nat}

/-- `fsnotify_get_mark`. -/
def getMark (marks : Nat → Option Nat) (m : Nat) : Nat → Option Nat :=
  Function.update marks m ((marks m).map (· + 1))

/-- `fsnotify_put_mark`: the last reference returns the mark to `mark_cache`
through `iotrace_fs_free_mark`; `none` for a mark already freed. -/
def putMark (marks : Nat → Option Nat) (m : Nat) : Option (Nat → Option Nat) :=
  (marks m).map fun r => Function.update marks m (if r - 1 = 0 then none else some (r - 1))

/-- One step of call `k`; `fresh` is what `kmem_cache_zalloc` returns, a mark
not in use. -/
def addMarkStep (s : MarkState n) (k : Fin n) (fresh : Nat) : Option (MarkState n) :=
  let setPc (pc : AddMarkPc) := Function.update s.calls k pc
  match s.calls k with
  | .start =>
    match s.attached with
    | m :: _ => some { s with marks := getMark s.marks m, calls := setPc (.found m) }
    | [] => some { s with calls := setPc .alloc }
  | .found m => (putMark s.marks m).map fun marks => { s with marks, calls := setPc (.done none) }
  | .alloc =>
    if s.marks fresh = none then
      some { s with marks := Function.update s.marks fresh (some 1), calls := setPc (.add fresh) }
    else none
  | .add m =>
    match s.attached with
    | [] => some { s with marks := getMark s.marks m, attached := [m], calls := setPc (.put m) }
    | _ :: _ => some { s with calls := setPc (.put m) }
  | .put m => (putMark s.marks m).map fun marks => { s with marks, calls := setPc (.done (some m)) }
  | .done _ => none

/-- A step of any call. -/
def MarkStep (s s' : MarkState n) : Prop := ∃ k fresh, addMarkStep s k fresh = some s'

/-- No mark in use, none attached, every call about to start. -/
def markInit (n : Nat) : MarkState n := ⟨fun _ => none, [], fun _ => .start⟩

/-! ## Reference accounting -/

/-- `1` when a call at `pc` holds a reference on mark `a`. -/
def AddMarkPc.holds : AddMarkPc → Nat → Nat
  | .found m, a | .add m, a | .put m, a => if m = a then 1 else 0
  | _, _ => 0

/-- A call holds a reference on one mark at most. -/
private theorem AddMarkPc.holds_of_ne (pc : AddMarkPc) {m a : Nat} (hm : pc.holds m = 1)
    (e : a ≠ m) : pc.holds a = 0 := by
  cases pc <;> simp only [AddMarkPc.holds] at hm ⊢ <;> split_ifs at hm ⊢ <;> simp_all

/-- The number of calls holding a reference on mark `a`. -/
def holders (calls : Fin n → AddMarkPc) (a : Nat) : Nat := ∑ k, (calls k).holds a

private theorem holders_update (calls : Fin n → AddMarkPc) (k : Fin n) (pc : AddMarkPc) (a : Nat) :
    holders (Function.update calls k pc) a + (calls k).holds a = holders calls a + pc.holds a :=
  sum_update_add calls (AddMarkPc.holds · a) k pc

private theorem holds_le_holders (calls : Fin n → AddMarkPc) (k : Fin n) (a : Nat) :
    (calls k).holds a ≤ holders calls a :=
  Finset.single_le_sum (fun i _ => Nat.zero_le ((calls i).holds a)) (Finset.mem_univ k)

/-- The invariant of the interleaved calls: at most one mark is attached,
the references on a mark in use are its attachment's and those of the calls
holding it, and a mark back in `mark_cache` is neither attached nor held. -/
structure MarkInv (s : MarkState n) : Prop where
  attached_le : s.attached.length ≤ 1
  refcnt_eq : ∀ a r, s.marks a = some r → r = s.attached.count a + holders s.calls a
  refcnt_pos : ∀ a r, s.marks a = some r → 0 < r
  free_unused : ∀ a, s.marks a = none → a ∉ s.attached ∧ holders s.calls a = 0

theorem MarkInv.live {s : MarkState n} (hi : MarkInv s) {a : Nat}
    (h : a ∈ s.attached ∨ 0 < holders s.calls a) : ∃ r, s.marks a = some r := by
  cases hm : s.marks a with
  | none =>
    obtain ⟨h₁, h₂⟩ := hi.free_unused a hm
    rcases h with h | h
    · exact absurd h h₁
    · omega
  | some r => exact ⟨r, rfl⟩

/-- A call holding mark `m` drops its reference with `put_mark` and moves to a
program counter that holds nothing. -/
theorem MarkInv.put {s : MarkState n} (hi : MarkInv s) {k : Fin n} {m : Nat}
    (hk : (s.calls k).holds m = 1) {pc : AddMarkPc} (hpc : ∀ a, pc.holds a = 0)
    {marks : Nat → Option Nat} (hp : putMark s.marks m = some marks) :
    MarkInv { s with marks, calls := Function.update s.calls k pc } := by
  obtain ⟨r, hr, rfl⟩ := Option.map_eq_some'.1 hp
  have hu : ∀ a,
      holders (Function.update s.calls k pc) a + (s.calls k).holds a = holders s.calls a :=
    fun a => by simpa [hpc] using holders_update s.calls k pc a
  have hkm := hi.refcnt_eq m r hr
  have hpos := hi.refcnt_pos m r hr
  have hum := hu m
  rw [hk] at hum
  have hother : ∀ a, a ≠ m → (s.calls k).holds a = 0 := fun a => (s.calls k).holds_of_ne hk
  refine ⟨hi.attached_le, fun a r' h' => ?_, fun a r' h' => ?_, fun a h' => ?_⟩ <;>
    simp only at h' ⊢
  · by_cases e : a = m
    · subst e; rw [Function.update_same] at h'; split_ifs at h'; cases h'; omega
    · rw [Function.update_noteq e] at h'; have := hu a; rw [hother a e] at this
      rw [hi.refcnt_eq a r' h']; omega
  · by_cases e : a = m
    · subst e; rw [Function.update_same] at h'; split_ifs at h' with h0; cases h'; omega
    · rw [Function.update_noteq e] at h'; exact hi.refcnt_pos a r' h'
  · by_cases e : a = m
    · subst e; rw [Function.update_same] at h'; split_ifs at h' with h0
      have hc : s.attached.count a = 0 := by omega
      exact ⟨List.count_eq_zero.1 hc, by omega⟩
    · rw [Function.update_noteq e] at h'
      have hf := hi.free_unused a h'
      have := hu a
      rw [hother a e] at this
      exact ⟨hf.1, by omega⟩

/-- A call moves between two program counters that hold the same references. -/
theorem MarkInv.move {s : MarkState n} (hi : MarkInv s) {k : Fin n} {pc : AddMarkPc}
    (hpc : ∀ a, pc.holds a = (s.calls k).holds a) :
    MarkInv { s with calls := Function.update s.calls k pc } := by
  have hu : ∀ a, holders (Function.update s.calls k pc) a = holders s.calls a :=
    fun a => by have := holders_update s.calls k pc a; rw [hpc] at this; omega
  exact ⟨hi.attached_le, fun a r h => by simpa [hu] using hi.refcnt_eq a r h, hi.refcnt_pos,
    fun a h => by simpa [hu] using hi.free_unused a h⟩

/-- One more reference on a mark in use, taken either by a call that moves to
a program counter holding it (`find_mark`), or for its attachment to an inode
without marks (`add_mark`). -/
theorem MarkInv.get {s : MarkState n} (hi : MarkInv s) {k : Fin n} {m : Nat} {pc : AddMarkPc}
    {attached : List Nat} (hm : ∃ r, s.marks m = some r) (hatt : attached.length ≤ 1)
    (hcount : ∀ a, attached.count a + holders (Function.update s.calls k pc) a =
      s.attached.count a + holders s.calls a + if a = m then 1 else 0) :
    MarkInv
      { s with marks := getMark s.marks m, attached, calls := Function.update s.calls k pc } := by
  obtain ⟨r, hr⟩ := hm
  refine ⟨hatt, fun a r' h' => ?_, fun a r' h' => ?_, fun a h' => ?_⟩ <;>
    simp only [getMark] at h' ⊢ <;> have hc := hcount a
  · by_cases e : a = m
    · subst e; simp only [Function.update_same, hr, Option.map_some', Option.some.injEq] at h'
      rw [← h', hi.refcnt_eq a r hr]; simp only [if_true] at hc; omega
    · rw [Function.update_noteq e] at h'; rw [hi.refcnt_eq a r' h']
      simp only [e, if_false] at hc; omega
  · by_cases e : a = m
    · subst e
      simp only [Function.update_same, hr, Option.map_some', Option.some.injEq] at h'; omega
    · rw [Function.update_noteq e] at h'; exact hi.refcnt_pos a r' h'
  · by_cases e : a = m
    · subst e; simp [hr] at h'
    · rw [Function.update_noteq e] at h'
      have hf := hi.free_unused a h'
      simp only [e, if_false, List.count_eq_zero.2 hf.1, hf.2] at hc
      exact ⟨List.count_eq_zero.1 (by omega), by omega⟩

/-- A call about to allocate takes a mark back from `mark_cache` with the
one reference `init_mark` gives it. -/
theorem MarkInv.alloc {s : MarkState n} (hi : MarkInv s) {k : Fin n} (hpc : s.calls k = .alloc)
    {fresh : Nat} (hfresh : s.marks fresh = none) :
    MarkInv { s with
      marks := Function.update s.marks fresh (some 1)
      calls := Function.update s.calls k (.add fresh) } := by
  obtain ⟨hna, hnh⟩ := hi.free_unused fresh hfresh
  have hu : ∀ a, holders (Function.update s.calls k (.add fresh)) a =
      holders s.calls a + if fresh = a then 1 else 0 := fun a => by
    have := holders_update s.calls k (.add fresh) a
    rw [hpc] at this
    simpa [AddMarkPc.holds] using this
  refine ⟨hi.attached_le, fun a r h' => ?_, fun a r h' => ?_, fun a h' => ?_⟩ <;>
    simp only [hu] at h' ⊢ <;> by_cases e : a = fresh
  · subst e; simp only [Function.update_same, Option.some.injEq] at h'
    simp [← h', List.count_eq_zero.2 hna, hnh]
  · rw [Function.update_noteq e] at h'; simp [Ne.symm e, hi.refcnt_eq a r h']
  · subst e; simp only [Function.update_same, Option.some.injEq] at h'; omega
  · rw [Function.update_noteq e] at h'; exact hi.refcnt_pos a r h'
  · subst e; simp at h'
  · rw [Function.update_noteq e] at h'; simpa [Ne.symm e] using hi.free_unused a h'

theorem MarkInv.step {s s' : MarkState n} (hi : MarkInv s) {k : Fin n} {fresh : Nat}
    (h : addMarkStep s k fresh = some s') : MarkInv s' := by
  have hu := holders_update s.calls k
  unfold addMarkStep at h
  split at h
  · rename_i hpc
    split at h
    · rename_i m rest hatt
      cases h
      refine hi.get (hi.live (.inl (by simp [hatt]))) hi.attached_le fun a => ?_
      have := hu (.found m) a
      rw [hpc] at this
      by_cases e : a = m
      · subst e; simp [AddMarkPc.holds] at this ⊢; omega
      · simp [AddMarkPc.holds, e, Ne.symm e] at this ⊢; omega
    · cases h
      exact hi.move fun a => by rw [hpc]; rfl
  · rename_i m hpc
    obtain ⟨marks, hp, rfl⟩ := Option.map_eq_some'.1 h
    refine hi.put ?_ ?_ hp
    · simp [hpc, AddMarkPc.holds]
    · intro; rfl
  · rename_i hpc
    split at h
    · cases h; exact hi.alloc hpc ‹_›
    · cases h
  · rename_i m hpc
    have hm : ∃ r, s.marks m = some r := hi.live (.inr (by
      have := holds_le_holders s.calls k m
      rw [hpc] at this
      simpa [AddMarkPc.holds] using this))
    split at h
    · rename_i hatt
      cases h
      refine hi.get hm (by simp) fun a => ?_
      have := hu (.put m) a
      rw [hpc] at this
      rw [hatt]
      by_cases e : a = m
      · subst e; simp [AddMarkPc.holds] at this ⊢; omega
      · simp [AddMarkPc.holds, e, Ne.symm e, List.count_singleton'] at this ⊢; omega
    · cases h
      exact hi.move fun a => by rw [hpc]; rfl
  · rename_i m hpc
    obtain ⟨marks, hp, rfl⟩ := Option.map_eq_some'.1 h
    refine hi.put ?_ ?_ hp
    · simp [hpc, AddMarkPc.holds]
    · intro; rfl
  · cases h

/-! ## Interleaved runs -/

private theorem markInv_init : MarkInv (markInit n) where
  attached_le := Nat.zero_le 1
  refcnt_eq _ _ h := by cases h
  refcnt_pos _ _ h := by cases h
  free_unused _ _ := ⟨List.not_mem_nil _, by simp [holders, markInit, AddMarkPc.holds]⟩

theorem markReachable_inv {s : MarkState n} (h : Relation.ReflTransGen MarkStep (markInit n) s) :
    MarkInv s := by
  induction h with
  | refl => exact markInv_init
  | tail _ hstep ih => obtain ⟨k, fresh, h⟩ := hstep; exact ih.step h

/-- In every interleaving of `_fs_add_mark` calls for one group and inode: at
most one mark is attached; the references on every mark in use are exactly
its attachment's and one for each call holding it (a call at `found` holds
the reference `find_mark` returned, and its next step drops it); and once
every call has returned, every mark in use is attached and referenced only
by its attachment. -/
theorem add_mark_accounting {s : MarkState n} (h : Relation.ReflTransGen MarkStep (markInit n) s) :
    s.attached.length ≤ 1 ∧
      (∀ a r, s.marks a = some r → r = s.attached.count a + holders s.calls a) ∧
      ((∀ k, ∃ x, s.calls k = .done x) → ∀ a r, s.marks a = some r → a ∈ s.attached ∧ r = 1) := by
  have hi := markReachable_inv h
  refine ⟨hi.attached_le, hi.refcnt_eq, fun hdone a r ha => ?_⟩
  have hzero : holders s.calls a = 0 :=
    Finset.sum_eq_zero fun k _ => by obtain ⟨x, hx⟩ := hdone k; simp [hx, AddMarkPc.holds]
  have hr := hi.refcnt_eq a r ha
  have hpos := hi.refcnt_pos a r ha
  have hle : s.attached.count a ≤ 1 := (List.count_le_length a s.attached).trans hi.attached_le
  exact ⟨List.count_pos_iff.1 (by omega), by omega⟩

/-- Call `0` allocates mark `0` and attaches it, call `1` finds it and drops
its reference, and call `0` returns: the mark is left attached, with the
attachment's reference only. -/
theorem add_mark_accounting_quiescent : ∃ s : MarkState 2,
    Relation.ReflTransGen MarkStep (markInit 2) s ∧ (∀ k, ∃ x, s.calls k = .done x) ∧
      s.marks 0 = some 1 ∧ 0 ∈ s.attached := by
  obtain ⟨s₁, s₂, s₃, s₄, s₅, s₆, h₁, h₂, h₃, h₄, h₅, h₆, hc₀, hc₁, hm⟩ :
      ∃ s₁ s₂ s₃ s₄ s₅ s₆ : MarkState 2,
      addMarkStep (markInit 2) 0 0 = some s₁ ∧ addMarkStep s₁ 0 0 = some s₂ ∧
      addMarkStep s₂ 0 0 = some s₃ ∧ addMarkStep s₃ 1 0 = some s₄ ∧ addMarkStep s₄ 1 0 = some s₅ ∧
      addMarkStep s₅ 0 0 = some s₆ ∧ s₆.calls 0 = .done (some 0) ∧ s₆.calls 1 = .done none ∧
      s₆.marks 0 = some 1 :=
    ⟨_, _, _, _, _, _, rfl, rfl, rfl, rfl, rfl, rfl, rfl, rfl, rfl⟩
  have hrun : Relation.ReflTransGen MarkStep (markInit 2) s₆ :=
    .tail (.tail (.tail (.tail (.tail (.single ⟨0, 0, h₁⟩) ⟨0, 0, h₂⟩) ⟨0, 0, h₃⟩) ⟨1, 0, h₄⟩)
      ⟨1, 0, h₅⟩) ⟨0, 0, h₆⟩
  have hdone : ∀ k, ∃ x, s₆.calls k = .done x := Fin.forall_fin_two.2 ⟨⟨_, hc₀⟩, ⟨_, hc₁⟩⟩
  exact ⟨s₆, hrun, hdone, hm, ((add_mark_accounting hrun).2.2 hdone 0 1 hm).1⟩

/-- Call `0` allocates mark `0` and attaches it; call `1` finds it; call `0`
drops its own reference and returns.  At that moment mark `0` is attached
and has two references: the attachment's and call `1`'s. -/
theorem mark_shared_on_return : ∃ s : MarkState 2, Relation.ReflTransGen MarkStep (markInit 2) s ∧
    s.calls 0 = .done (some 0) ∧ s.attached = [0] ∧ s.marks 0 = some 2 := by
  obtain ⟨s₁, s₂, s₃, s₄, s₅, h₁, h₂, h₃, h₄, h₅, hc, ha, hm⟩ : ∃ s₁ s₂ s₃ s₄ s₅ : MarkState 2,
      addMarkStep (markInit 2) 0 0 = some s₁ ∧ addMarkStep s₁ 0 0 = some s₂ ∧
      addMarkStep s₂ 0 0 = some s₃ ∧ addMarkStep s₃ 1 0 = some s₄ ∧ addMarkStep s₄ 0 0 = some s₅ ∧
      s₅.calls 0 = .done (some 0) ∧ s₅.attached = [0] ∧ s₅.marks 0 = some 2 :=
    ⟨_, _, _, _, _, rfl, rfl, rfl, rfl, rfl, rfl, rfl, rfl⟩
  exact ⟨s₅, .tail (.tail (.tail (.tail (.single ⟨0, 0, h₁⟩) ⟨0, 0, h₂⟩) ⟨0, 0, h₃⟩) ⟨1, 0, h₄⟩)
    ⟨0, 0, h₅⟩, hc, ha, hm⟩

end TraceInode.Marks
