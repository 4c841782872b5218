import Xtable.Storage.Flush
import Xtable.Tx.Operations
import Xtable.Tx.Rebuild

/-! A server with its flush loop: whole requests, rotations and flushes, one after the other. A flush succeeds, or
    it fails after some of its actions and the memtable waits for another attempt. -/

namespace Xtable

inductive NodeOp where
  | request (r : Request)
  | rotate
  | flush (chunkId : String) (nowMs : Int64) (entries : List MemEntry)
  | failedFlush (chunkId : String) (nowMs : Int64) (entries : List MemEntry) (n : Nat)

def NodeOp.step (env : Env) (c : Codecs) : NodeOp → World → Option World
  | request r, w => r.step env w
  | rotate, w => some w.rotate
  | flush chunkId nowMs entries, w => w.flush c chunkId nowMs entries
  | failedFlush chunkId nowMs entries n, w => w.failedFlush c chunkId nowMs entries n

/-- A flush of what is at the head of the queue in a state. -/
def NodeOp.flushQueued (w : Option World) (chunkId : String) : NodeOp :=
  .flush chunkId 0 (((w.bind (·.mems.flushing.head?)).map MemTable.entries).getD [])

/-- The structured requests, rotations, and flushes that succeed or fail before they upload. -/
def NodeOp.whole : NodeOp → Bool
  | request r => r.structured
  | rotate | flush .. => true
  | failedFlush _ _ _ n => n = 0

/-- `list_objects` answers with every object of the bucket, in some order. -/
def World.Lists (w : World) (listed : List ListedObject) : Prop :=
  (listed.map (·.key)).Perm (w.bucket.toList.map (·.1))

end Xtable
