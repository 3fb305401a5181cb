import TraceInode.Basic
import TraceInode.Cache
import TraceInode.Invariant
import TraceInode.Lru
import TraceInode.Walk
import TraceInode.WalkCache
import TraceInode.Completeness
import TraceInode.Rewalk
import TraceInode.Path
import TraceInode.Monitor
import TraceInode.MonitorRefs
import TraceInode.MonitorRace
import TraceInode.Marks
import TraceInode.Events
import TraceInode.Recency
import TraceInode.Window
import TraceInode.Sequence
