import Xtable.Storage.Flush
import Xtable.Tx.Operations

/-! `flush_loop` runs as a task of its own: its store transactions interleave with those of the calls in flight.
    Each round it takes the immutable memtables out of the queue and flushes them one by one. -/

namespace Xtable

/-- A server process: its calls in flight, and where its flush loop is. -/
structure Daemon where
  pool : CallPool := Pool.idle {}
  /-- What `take_immutables` returned in this round and is still to be flushed. -/
  taken : List MemTable := []
  /-- The memtable in `flush_one`, and what is left to do for it. -/
  flushing : Option (MemTable × Server Unit) := none

inductive DaemonEvent where
  | run (ev : Pool.Event Call)
  /-- `try_rotate_active` on the loop's tick. -/
  | rotate
  | takeImmutables
  | flushOne (chunkId : String) (nowMs : Int64) (entries : List MemEntry)
  | flushAct
  /-- The next action of the flush fails. -/
  | flushFault
  | flushEnd
  | restart (nowMs : Int) (order : List String)

namespace Daemon

def setState (d : Daemon) (w : World) : Daemon := { d with pool := { d.pool with state := w } }

/-- Take the immutable memtables out of the queue. -/
def takeImmutables (d : Daemon) : Daemon :=
  { d.setState { d.pool.state with mems := { d.pool.state.mems with flushing := [] } } with
    taken := d.pool.state.mems.flushing }

/-- A failed flush puts its memtable back. -/
def pushBack (d : Daemon) (mt : MemTable) : Daemon := { d.setState (d.pool.state.requeue mt) with flushing := none }

/-- What a failing action does to the flush: the truncation is best effort, the steps before it are not. -/
def fault (d : Daemon) (mt : MemTable) : Act → Option Daemon
  | .putObject .. | .putChunkIndex .. | .appendWal _ | .setFlushedSeq _ => some (d.pushBack mt)
  | .truncateWal _ => some { d with flushing := some (mt, .ret ()) }
  | _ => none

def step (env : Env) (c : Codecs) : DaemonEvent → Daemon → Option Daemon
  | .run ev, d => (CallPool.Step env ev d.pool).map fun p => { d with pool := p }
  | .rotate, d => some (d.setState d.pool.state.rotate)
  | .takeImmutables, d => if d.taken = [] ∧ d.flushing.isNone then some d.takeImmutables else none
  | .flushOne chunkId nowMs entries, d =>
    match d.flushing, d.taken with
    | none, mt :: rest =>
      if entries.Perm mt.entries ∧ d.pool.state.freshChunkId chunkId then
        some { d with taken := rest, flushing := some (mt, Flush.flushOne c chunkId nowMs entries mt) }
      else none
    | _, _ => none
  | .flushAct, d =>
    match d.flushing with
    | some (mt, .act a k) =>
      some { d.setState (d.pool.state.exec a).2 with flushing := some (mt, k (d.pool.state.exec a).1) }
    | _ => none
  | .flushFault, d =>
    match d.flushing with
    | some (mt, .act a _) => d.fault mt a
    | _ => none
  | .flushEnd, d =>
    match d.flushing with
    | some (_, .ret _) => some { d with flushing := none }
    | some (mt, .fail _) => some (d.pushBack mt)
    | _ => none
  | .restart nowMs order, d => (CallPool.serverStep env (.restart nowMs order) d.pool).map fun p => { pool := p }

/-- The truncation that the flush is about to make. -/
def truncating (d : Daemon) : Option Nat :=
  match d.flushing with
  | some (_, .act (.truncateWal upToSeq) _) => some upToSeq
  | _ => none

end Daemon

end Xtable
