import Xtable.Tx.Calls
import Xtable.Tx.Recovery

/-! The coordinator seen from outside: operations run one after the other, each to its end, or are cut by a crash
    after some of their actions; a restart runs recovery to its end before anything else. -/

namespace Xtable

/-- Restart: the memory is lost, and recovery runs, in some order of the transactions in the log. -/
def World.restart (nowMs : Int) (order : List String) (w : World) : Option World :=
  if order.Perm ((Recovery.replay w.store.iterWal).lastStatus.toList.map (·.1)) then
    match (Recovery.recover nowMs fun _ => order).run World.exec w.crash with
    | (.ok _, w') => some w'
    | (.error _, _) => none
  else none

/-- A call run to its end: the reply and the state it leaves. -/
def Call.run (env : Env) (c : Call) (w : World) : Except XtableError Reply × World :=
  (c.body env).run World.exec w

/-- Whole calls, one after the other. -/
def Call.step (env : Env) (c : Call) (w : World) : Option World :=
  if c.admits w [] then some (c.run env w).2 else none

/-- Operations of the structured layer, and of the coordinator below it. -/
inductive Request where
  | call (c : Call)
  | registerSchema (t space name : String) (body : Value)
  | bindTableSchema (t space table : String) (body : Value)
  | upsertRecord (t space table recordId : String) (schemaVersion : Option Nat) (body : Value)
  | deleteRecord (t space table recordId : String)
  | commitTxn (t : String) (aged : String → Bool)
  | abortTxn (t : String)

/-- A program without its answer. -/
def Server.discard {α : Type} (p : Server α) : Server Unit := p.bind fun _ => .ret ()

def Request.body (env : Env) : Request → Server Unit
  | call c => (c.body env).discard
  | registerSchema t space name body => (Engine.registerSchema env t space name body).discard
  | bindTableSchema t space table body => Engine.bindTableSchema env t space table body
  | upsertRecord t space table recordId schemaVersion body =>
    (Engine.upsertRecord env t space table recordId schemaVersion body).discard
  | deleteRecord t space table recordId => Engine.deleteRecord env t space table recordId
  | commitTxn t aged => (Engine.commitTxn env aged t).discard
  | abortTxn t => Engine.abortTxn t

def Request.admits (w : World) : Request → Bool
  | call c => c.admits w []
  | _ => true

/-- Whole requests, one after the other. -/
def Request.step (env : Env) (r : Request) (w : World) : Option World :=
  if r.admits w then some ((r.body env).run World.exec w).2 else none

/-- The requests of the structured layer, and the coordinator's calls that write no object. -/
def Request.structured : Request → Bool
  | .call (.stage ..) | .call (.commit ..) | .call (.abort ..) => false
  | _ => true

inductive Op where
  | call (c : Call)
  /-- The call is cut after `n` actions, and the server restarted. -/
  | crash (c : Call) (n : Nat) (nowMs : Int) (order : List String)

def Op.step (env : Env) : Op → World → Option World
  | call c, w => if c.admits w [] then some (c.run env w).2 else none
  | crash c n nowMs order, w =>
    if c.admits w [] then ((c.body env).advance World.exec n w).2.restart nowMs order else none

/-- What happens to a server with calls in flight: one of them makes a step, or the server crashes and
is restarted. -/
inductive ServerEvent where
  | run (ev : Pool.Event Call)
  | restart (nowMs : Int) (order : List String)

def CallPool.serverStep (env : Env) : ServerEvent → CallPool → Option CallPool
  | .run ev, p => CallPool.Step env ev p
  | .restart nowMs order, p => (p.state.restart nowMs order).map Pool.idle

/-! ## Readers

A `StructuredReader` holds a pin on a snapshot from its creation until it is dropped; a crash loses it.
-/

/-- A server between operations, and the snapshots of its live readers. -/
structure Serving where
  world : World := {}
  readers : List Nat := []

inductive ClientOp where
  | call (c : Call)
  | acquireSnapshot
  | dropReader (snapshotVersion : Nat)

def ClientOp.step (env : Env) : ClientOp → Serving → Option Serving
  | call c, s => if c.admits s.world [] then some { s with world := (c.run env s.world).2 } else none
  | acquireSnapshot, s =>
    match Engine.acquireSnapshot.run World.exec s.world with
    | (.ok snap, w) => some ⟨w, snap :: s.readers⟩
    | (.error _, _) => none
  | dropReader snap, s =>
    if snap ∈ s.readers then
      some ⟨((Engine.dropReader snap).run World.exec s.world).2, s.readers.erase snap⟩
    else none

/-- A server with calls in flight, and the snapshots of its live readers. -/
structure Node where
  pool : CallPool := Pool.idle {}
  readers : List Nat := []

inductive NodeEvent where
  | run (ev : Pool.Event Call)
  | acquireSnapshot
  | dropReader (snapshotVersion : Nat)
  | restart (nowMs : Int) (order : List String)

def Node.step (env : Env) : NodeEvent → Node → Option Node
  | .run ev, n => (CallPool.Step env ev n.pool).map fun p => { n with pool := p }
  | .acquireSnapshot, n =>
    match Engine.acquireSnapshot.run World.exec n.pool.state with
    | (.ok snap, w) => some ⟨{ n.pool with state := w }, snap :: n.readers⟩
    | (.error _, _) => none
  | .dropReader snap, n =>
    if snap ∈ n.readers then
      some ⟨{ n.pool with state := ((Engine.dropReader snap).run World.exec n.pool.state).2 }, n.readers.erase snap⟩
    else none
  | .restart nowMs order, n => (CallPool.serverStep env (.restart nowMs order) n.pool).map fun p => ⟨p, []⟩

end Xtable
