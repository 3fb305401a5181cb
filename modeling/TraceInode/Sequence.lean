import TraceInode.Window

/-!
# Sequence ids of the naming records

`_trace_filename` takes `sid = atomic64_inc_return(&state->sid)` before it
asks for a trace buffer, so every reservation draws an id, and a written
naming record carries the id drawn for it.  Over every run of calls of
`iotrace_trace_inode` that returns, `state->sid` moves on by the number of
reservations made (modulo `2^64`), and the naming records appended carry ids
drawn by the run, in the order they were drawn (`runWalks_draws`).  So while
the run draws fewer ids than are left before the counter wraps, the records'
ids are strictly increasing and lie after the id `state->sid` held before the
run and up to the one it holds after (`runWalks_sids_increase`).

## Main results

* `Draws.trans` — draws compose.
* `walkLoop_draws`, `runWalks_draws` — one walk, and a run of calls, draw ids.
* `runWalks_sids_increase` — the records' ids increase.
-/

namespace TraceInode.Sequence

open TraceInode.Basic TraceInode.Cache TraceInode.Invariant TraceInode.Lru TraceInode.Walk
  TraceInode.WalkCache TraceInode.Rewalk TraceInode.Path TraceInode.Window

/-! ## Drawing ids -/

/-- The `n` ids `state->sid` hands out after holding `sid`, as numbers: the
`j`-th is `sid + j + 1` modulo `2^64`. -/
def drawnIds (sid : UInt64) (n : Nat) : List Nat :=
  (List.range n).map fun j => (sid.toNat + j + 1) % UInt64.size

private theorem mem_drawnIds {sid : UInt64} {n x : Nat} :
    x ∈ drawnIds sid n ↔ ∃ j < n, (sid.toNat + j + 1) % UInt64.size = x := by
  simp [drawnIds]

/-- The ids drawn in two stretches are the ids of both. -/
private theorem drawnIds_add {sid sid' : UInt64} {n : Nat}
    (hs : sid'.toNat = (sid.toNat + n) % UInt64.size)
    (m : Nat) : drawnIds sid (n + m) = drawnIds sid n ++ drawnIds sid' m := by
  simp only [drawnIds, List.range_add, List.map_append, List.map_map]
  congr 1
  refine List.map_congr_left fun j _ => ?_
  simp only [Function.comp, hs, Nat.add_assoc _ j 1, Nat.mod_add_mod]
  congr 1
  omega

/-- `s'` follows `s` after `n` reservations: `state->sid` has moved on by
`n`, and the naming records appended carry ids drawn in between, in order. -/
def Draws (s s' : WalkState) (n : Nat) : Prop :=
  s'.reserved = s.reserved + n ∧ s'.sid.toNat = (s.sid.toNat + n) % UInt64.size ∧
    ∃ new, s'.trace = s.trace ++ new ∧
      List.Sublist (new.map fun ev => ev.sid.toNat) (drawnIds s.sid n)

section Draws

variable {s s₁ s₂ : WalkState} {n m : Nat}

/-- A step that reserves nothing draws nothing. -/
theorem Draws.of_frame (hr : s₁.reserved = s.reserved) (hs : s₁.sid = s.sid)
    (ht : s₁.trace = s.trace) : Draws s s₁ 0 :=
  ⟨hr, by rw [hs, Nat.add_zero, Nat.mod_eq_of_lt (UInt64.toNat_lt_size _)], [],
    by rw [ht, List.append_nil], List.nil_sublist _⟩

theorem Draws.trans (h₁ : Draws s s₁ n) (h₂ : Draws s₁ s₂ m) : Draws s s₂ (n + m) := by
  obtain ⟨hr₁, hs₁, new₁, ht₁, hsub₁⟩ := h₁
  obtain ⟨hr₂, hs₂, new₂, ht₂, hsub₂⟩ := h₂
  refine ⟨by omega, by rw [hs₂, hs₁, Nat.mod_add_mod, Nat.add_assoc], new₁ ++ new₂,
    by rw [ht₂, ht₁, List.append_assoc], ?_⟩
  rw [drawnIds_add hs₁, List.map_append]
  exact hsub₁.append hsub₂

end Draws

/-! ## One walk -/

private theorem nameRecord_sids (env : WalkEnv) (sid : UInt64) (k d : Nat) (i : Inode) :
    List.Sublist ((nameRecord env sid k d i).map fun ev => ev.sid.toNat) [sid.toNat] := by
  unfold nameRecord
  split <;> simp

/-- A miss draws one id, for its naming record. -/
private theorem missStep_draws {env : WalkEnv} {s s' : WalkState} {i : Inode} {d : Nat}
    {pi : Option Inode} {pd : Option Nat} (h : missStep env s i d = some (pi, pd, s')) :
    Draws s s' 1 := by
  obtain ⟨-, -, htr, -, hres, hsid, -⟩ := missStep_spec h
  have hone : (s.sid + 1).toNat = (s.sid.toNat + 1) % UInt64.size := rfl
  have hdrawn : drawnIds s.sid 1 = [(s.sid + 1).toNat] := by rw [hone]; rfl
  exact ⟨hres, by rw [hsid, hone], _, htr, hdrawn ▸ nameRecord_sids env (s.sid + 1) s.reserved d i⟩

/-- A loop that returns draws one id per miss, at most one per iteration. -/
theorem walkLoop_draws (env : WalkEnv) :
    ∀ (fuel : Nat) (s : WalkState) (i : Inode) (d : Nat) (pd : Option Nat) (s' : WalkState),
      walkLoop env fuel s i d pd = .done s' → ∃ n ≤ fuel, Draws s s' n
  | 0, _, _, _, _, _, h => by simp [walkLoop] at h
  | fuel + 1, s, i, d, pd, s', h => by
    simp only [walkLoop] at h
    split at h
    · cases h
      exact ⟨0, by omega, .of_frame (by simp) (by simp) (by simp)⟩
    · split at h
      · cases h
      · rename_i hm
        obtain ⟨n, hn, hdraws⟩ := walkLoop_draws env fuel _ _ _ _ s' h
        exact ⟨1 + n, by omega, (missStep_draws hm).trans hdraws⟩
      · rename_i hm
        cases h
        exact ⟨1 + 0, by omega, (missStep_draws hm).trans (.of_frame (by simp) (by simp) (by simp))⟩

private theorem iotraceTraceInode_draws {env : WalkEnv} {fuel : Nat} {s s' : WalkState}
    {inode : Inode}
    (h : iotraceTraceInode env fuel s inode = .done s') : ∃ n ≤ fuel, Draws s s' n := by
  unfold iotraceTraceInode at h
  split at h
  · cases h
    exact ⟨0, by omega, .of_frame rfl rfl rfl⟩
  · obtain ⟨n, hn, hdraws⟩ := walkLoop_draws env fuel _ _ _ _ s' h
    exact ⟨0 + n, by omega, (Draws.of_frame rfl rfl rfl).trans hdraws⟩

/-! ## Runs of calls -/

/-- A run of calls that returns draws ids, at most one per iteration of its
calls' loops. -/
theorem runWalks_draws :
    ∀ (calls : List WalkCall) (s s' : WalkState), runWalks s calls = .done s' →
      ∃ n ≤ (calls.map WalkCall.fuel).foldr (· + ·) 0, Draws s s' n
  | [], s, s', h => by
    cases h
    exact ⟨0, Nat.zero_le _, .of_frame rfl rfl rfl⟩
  | w :: ws, s, s', h => by
    simp only [runWalks] at h
    split at h
    · rename_i s₁ h₁
      obtain ⟨n, hn, hdraws₁⟩ := iotraceTraceInode_draws h₁
      obtain ⟨m, hm, hdraws₂⟩ := runWalks_draws ws s₁ s' h
      exact ⟨n + m, by simp only [List.map_cons, List.foldr_cons]; omega, hdraws₁.trans hdraws₂⟩
    · cases h
    · cases h

/-- **The naming records' ids increase.**  Over every run of calls of
`iotrace_trace_inode` that returns, `state->sid` moves on by exactly the
number of reservations made; if that number stays below what is left before
`state->sid` wraps, the naming records appended to the trace carry strictly
increasing ids, each after the id `state->sid` held before the run and at
most the one it holds after. -/
theorem runWalks_sids_increase {s s' : WalkState} {calls : List WalkCall}
    (h : runWalks s calls = .done s')
    (hwrap : s.sid.toNat + (s'.reserved - s.reserved) < UInt64.size) :
    s.reserved ≤ s'.reserved ∧ s'.sid.toNat = s.sid.toNat + (s'.reserved - s.reserved) ∧
      ∃ new, s'.trace = s.trace ++ new ∧ (new.map fun ev => ev.sid.toNat).Pairwise (· < ·) ∧
        ∀ ev ∈ new, s.sid.toNat < ev.sid.toNat ∧ ev.sid.toNat ≤ s'.sid.toNat := by
  obtain ⟨n, -, hres, hsid, new, htr, hsub⟩ := runWalks_draws calls s s' h
  have hn : s'.reserved - s.reserved = n := by omega
  rw [hn] at hwrap ⊢
  have hids : drawnIds s.sid n = (List.range n).map fun j => s.sid.toNat + j + 1 :=
    List.map_congr_left fun j hj => Nat.mod_eq_of_lt (by simp at hj; omega)
  rw [hsid, Nat.mod_eq_of_lt hwrap]
  refine ⟨by omega, rfl, new, htr, ?_, fun ev hev => ?_⟩
  · refine List.Pairwise.sublist hsub ?_
    rw [hids, List.pairwise_map]
    exact (List.pairwise_lt_range n).imp (by intro a b hlt; omega)
  · obtain ⟨j, hj, e⟩ := mem_drawnIds.1 (hsub.subset (List.mem_map_of_mem _ hev))
    rw [Nat.mod_eq_of_lt (by omega)] at e
    omega

/-- A walk up `/dir/file` whose directory's reservation fails, then a walk
from the root of another filesystem: the records' ids increase. -/
theorem runWalks_sids_increase_twoWalks :
    ∃ s', runWalks freshState [⟨secondFullEnv, 4, leafFile⟩, ⟨sinkOkEnv, 2, rootDir⟩] = .done s' ∧
      freshState.sid.toNat + (s'.reserved - freshState.reserved) < UInt64.size ∧
      freshState.reserved ≤ s'.reserved ∧
      s'.sid.toNat = freshState.sid.toNat + (s'.reserved - freshState.reserved) ∧
      ∃ new, s'.trace = freshState.trace ++ new ∧
        (new.map fun ev => ev.sid.toNat).Pairwise (· < ·) ∧
        ∀ ev ∈ new, freshState.sid.toNat < ev.sid.toNat ∧ ev.sid.toNat ≤ s'.sid.toNat := by
  obtain ⟨s₁, h₁, -, hk₁, -⟩ := @leafWalk_done secondFullEnv rfl (by decide) (by decide)
  have h1 : secondFullEnv.reserve 1 = none := rfl
  rw [if_pos h1] at hk₁
  obtain ⟨s', h₂⟩ := rootWalk_from (iotraceTraceInode_reachable h₁ (.created none))
    (by rw [hk₁]; decide)
  have hrun : runWalks freshState [⟨secondFullEnv, 4, leafFile⟩, ⟨sinkOkEnv, 2, rootDir⟩] =
      .done s' := by
    rw [runWalks_cons_of_done _ h₁, runWalks_cons_of_done _ h₂]; rfl
  obtain ⟨n, hn, hres, -⟩ := runWalks_draws _ _ _ hrun
  have hwrap : freshState.sid.toNat + (s'.reserved - freshState.reserved) < UInt64.size := by
    have h0 : freshState.sid.toNat = 0 := rfl
    have hle : freshState.sid.toNat + (s'.reserved - freshState.reserved) ≤ 6 := by
      simp only [List.map_cons, List.map_nil, List.foldr_cons, List.foldr_nil] at hn
      rw [hres, h0]
      omega
    exact hle.trans_lt (by decide)
  exact ⟨s', hrun, hwrap, runWalks_sids_increase hrun hwrap⟩

end TraceInode.Sequence
