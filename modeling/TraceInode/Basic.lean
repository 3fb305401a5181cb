import Mathlib.Data.List.Basic
import Mathlib.Algebra.BigOperators.Fin

/-!
# Inodes, their identity, and the records the tracer emits

`trace_inode.c` never looks at an inode beyond four fields: `i_ino`,
`i_sb->s_dev`, `i_ctime` and `i_mode`.  An `Inode` here is exactly those
four fields, as values: two inode pointers with equal fields are the same
object as far as the tracer can tell.

The cache identifies an object by the triple `(device_id, inode_id, ctime)`;
that triple is `InodeKey`, and the weaker `(device_id, inode_id)` pair that
`_lookup` compares first is `InodeKey.sameObject`.

The two record shapes written to the trace, `iotrace_event_fs_file_name`
and `iotrace_event_fs_file_event`, are kept with every field the code
fills in except the header's timestamp and size, which no modelled function
reads.
-/

namespace TraceInode.Basic

/-- `struct timespec`: seconds and nanoseconds, both signed. -/
structure Timespec where
  tvSec : Int
  tvNsec : Int
deriving DecidableEq, Repr

/-- The zero `timespec` the walk passes for an absent parent. -/
def zeroTimespec : Timespec := ⟨0, 0⟩

/-- `S_IFMT` and `S_IFDIR` of `<linux/stat.h>`. -/
def sIfmt : UInt32 := 0o170000

def sIfdir : UInt32 := 0o040000

/-- `S_ISDIR(m)`. -/
def sIsdir (mode : UInt32) : Bool := (mode &&& sIfmt) == sIfdir

/-- The fields of `struct inode` the tracer reads. -/
structure Inode where
  iIno : UInt64
  sDev : UInt32
  iCtime : Timespec
  iMode : UInt32
deriving DecidableEq, Repr

/-- The cache's notion of identity: `(device_id, inode_id, ctime)`. -/
structure InodeKey where
  deviceId : UInt32
  inodeId : UInt64
  ctime : Timespec
deriving DecidableEq, Repr

/-- The identity triple of an inode. -/
def Inode.key (i : Inode) : InodeKey := ⟨i.sDev, i.iIno, i.iCtime⟩

/-- Same `(device_id, inode_id)`, whatever the ctime: the first test `_lookup`
makes on a candidate entry. -/
def InodeKey.sameObject (a b : InodeKey) : Bool :=
  a.inodeId == b.inodeId && a.deviceId == b.deviceId

@[simp] theorem InodeKey.sameObject_self (a : InodeKey) : a.sameObject a = true := by
  simp [InodeKey.sameObject]

theorem InodeKey.sameObject_eq_true {a b : InodeKey} :
    a.sameObject b = true ↔ a.inodeId = b.inodeId ∧ a.deviceId = b.deviceId := by
  simp [InodeKey.sameObject]

theorem InodeKey.sameObject_trans {a b c : InodeKey} (hab : a.sameObject b = true)
    (hac : a.sameObject c = true) : b.sameObject c = true := by
  rw [InodeKey.sameObject_eq_true] at *
  exact ⟨hab.1.symm.trans hac.1, hab.2.symm.trans hac.2⟩

theorem InodeKey.sameObject_comm (a b : InodeKey) : a.sameObject b = b.sameObject a := by
  unfold InodeKey.sameObject
  rw [Bool.eq_iff_iff]
  simp only [Bool.and_eq_true, beq_iff_eq]
  exact ⟨fun ⟨h1, h2⟩ => ⟨h1.symm, h2.symm⟩, fun ⟨h1, h2⟩ => ⟨h1.symm, h2.symm⟩⟩

/-- `iotrace_file_id`: an inode number with its ctime. -/
structure FileId where
  id : UInt64
  ctime : Timespec
deriving DecidableEq, Repr

/-- `struct iotrace_event_fs_file_name`, without the header's timestamp and
size.  `fileName` is the content of the `file_name` array. -/
structure FsFileNameEvent where
  sid : UInt64
  partitionId : UInt64
  fileId : FileId
  fileParentId : FileId
  fileName : List UInt8
deriving DecidableEq, Repr

/-- `iotrace_fs_event_type`. -/
inductive FsEventType
  | moveFrom
  | moveTo
  | create
  | delete
deriving DecidableEq, Repr

/-- `struct iotrace_event_fs_file_event`, without the header's timestamp and
size. -/
structure FsFileEvent where
  sid : UInt64
  partitionId : UInt64
  fileId : FileId
  fsEventType : FsEventType
deriving DecidableEq, Repr

/-- A naming record was committed for the object with identity `k`: some
`fs_file_name` event carries its partition, inode number and ctime. -/
def Recorded (trace : List FsFileNameEvent) (k : InodeKey) : Prop :=
  ∃ ev ∈ trace, ev.partitionId = k.deviceId.toUInt64 ∧ ev.fileId = ⟨k.inodeId, k.ctime⟩

theorem Recorded.mono {trace : List FsFileNameEvent} {k : InodeKey}
    (h : Recorded trace k) (ev : FsFileNameEvent) : Recorded (trace ++ [ev]) k := by
  obtain ⟨e, he, hp, hf⟩ := h
  exact ⟨e, List.mem_append_left _ he, hp, hf⟩

/-! ## Counting over CPUs and calls -/

/-- Changing a function on `Fin n` at one point changes a sum over it by the
old and the new value there. -/
theorem sum_update_add {α : Type} {n : Nat} (g : Fin n → α) (f : α → Nat) (k : Fin n) (v : α) :
    ∑ i, f (Function.update g k v i) + f (g k) = ∑ i, f (g i) + f v := by
  have hrest : ∑ i ∈ Finset.univ.erase k, f (Function.update g k v i) =
      ∑ i ∈ Finset.univ.erase k, f (g i) :=
    Finset.sum_congr rfl fun i hi => by rw [Function.update_noteq (Finset.ne_of_mem_erase hi)]
  rw [← Finset.add_sum_erase _ _ (Finset.mem_univ k),
    ← Finset.add_sum_erase _ _ (Finset.mem_univ k),
    Function.update_same, hrest]
  omega

end TraceInode.Basic
