import Xtable.Tx.Calls

/-! Coordinators that share a store, each with its own commit lock, lock manager, memtables and pending map. Their
    calls interleave at every store transaction; only those of one coordinator exclude each other. -/

namespace Xtable

/-- What one coordinator holds in memory. -/
structure Memory where
  locks : SiLockManager := {}
  mems : MemTableSet := {}
  pending : Table String PendingTxn := ∅

structure Cluster where
  store : Store := {}
  files : Table String Bytes := ∅
  bucket : Table String Bytes := ∅
  memory : Nat → Memory := fun _ => {}

namespace Cluster

/-- The process state as coordinator `n` sees it. -/
def world (c : Cluster) (n : Nat) : World where
  store := c.store
  locks := (c.memory n).locks
  mems := (c.memory n).mems
  pending := (c.memory n).pending
  files := c.files
  bucket := c.bucket

def setWorld (c : Cluster) (n : Nat) (w : World) : Cluster where
  store := w.store
  files := w.files
  bucket := w.bucket
  memory := Function.update c.memory n ⟨w.locks, w.mems, w.pending⟩

/-- An action of coordinator `x.1`. -/
def exec (x : Nat × Act) (c : Cluster) : x.2.Res × Cluster :=
  (((c.world x.1).exec x.2).1, c.setWorld x.1 ((c.world x.1).exec x.2).2)

@[simp] theorem exec_store (x : Nat × Act) (c : Cluster) :
    (exec x c).2.store = ((c.world x.1).exec x.2).2.store := rfl

end Cluster

/-- The coordinators as one system: a call names the coordinator it is made to. -/
def cluster (env : Env) : System (fun x : Nat × Act => x.2.Res) XtableError Reply (Nat × Call) Cluster where
  handle := Cluster.exec
  body x := (x.2.body env).tag x.1
  admits c live x := x.2.admits (c.world x.1) ((live.filter fun y => y.1 = x.1).map (·.2))

abbrev ClusterPool : Type := Pool (fun x : Nat × Act => x.2.Res) XtableError Reply (Nat × Call) Cluster

abbrev ClusterPool.Step (env : Env) : Pool.Event (Nat × Call) → ClusterPool → Option ClusterPool :=
  Pool.step (cluster env)

/-- The action that an event performs. -/
def ClusterPool.performs (p : ClusterPool) : Pool.Event (Nat × Call) → Option Act
  | .act i => (p.pendingAct i).map fun x => x.2.2
  | _ => none

end Xtable
