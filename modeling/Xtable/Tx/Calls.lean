import Xtable.Lib.Pool
import Xtable.Tx.Gc
import Xtable.Schema.Engine

/-! `commit` and `abort` run under the coordinator's commit lock, one at a time; all other calls interleave with
    them and with each other at every store transaction. A transaction id is drawn fresh by `begin`. -/

namespace Xtable

inductive Call where
  | begin (t : String) (idempotencyKey : Option String) (nowMs : Int)
  | stage (t key : String) (body : Bytes) (contentType : Option String)
      (userMeta : List (String × String)) (deleted : Bool)
  | read (t key : String) (observedVersion : Nat) (observedEtag : String)
  | heartbeat (t : String) (nowMs : Int)
  | commit (t : String) (aged : String → Bool)
  | abort (t : String)
  | sweepStale (nowMs timeoutSecs : Int)
  | sweep (nowMs timeoutSecs : Int)

inductive Reply where
  | began (t : String)
  | done
  | committed (version : Nat)
  | swept (aborted chainsPruned entriesRemoved : Nat)
  deriving DecidableEq, Repr

namespace Call

/-- The program of a call. -/
def body (env : Env) : Call → Server Reply
  | begin t idem now => do return .began (← Coordinator.begin t idem now)
  | stage t key body contentType userMeta deleted => do
    Coordinator.stage env t key body contentType userMeta deleted
    return .done
  | read t key version etag => do
    Coordinator.read t key version etag
    return .done
  | heartbeat t now => do
    Coordinator.heartbeat t now
    return .done
  | commit t aged => do return .committed (← Coordinator.commit (Engine.postCommitHook env) aged t)
  | abort t => do
    Coordinator.abort t
    return .done
  | sweepStale now timeout => do return .swept (← Gc.sweepStaleTxns now timeout) 0 0
  | sweep now timeout => do
    let r ← Gc.sweepAll now timeout
    return .swept r.1 r.2.1 r.2.2

/-- The calls that hold the commit lock. -/
def exclusive : Call → Bool
  | commit _ _ | abort _ => true
  | _ => false

/-- The id a `begin` has drawn. -/
def begins : Call → Option String
  | begin t _ _ => some t
  | _ => none

/-- A call may start when the commit lock, if it needs it, is free; a `begin` draws an id that no row
and no other `begin` has. -/
def admits (w : World) (live : List Call) (c : Call) : Bool :=
  (!c.exclusive || live.all fun c' => !c'.exclusive) &&
  match c.begins with
  | some t => (w.store.txnState[t]?).isNone && (w.locks.byTxn[t]?).isNone && live.all fun c' => c'.begins ≠ some t
  | none => true

theorem admits_iff {w : World} {live : List Call} {c : Call} :
    c.admits w live = true ↔ (c.exclusive = true → ∀ c' ∈ live, c'.exclusive = false) ∧
      ∀ t, c.begins = some t → w.store.txnState[t]? = none ∧ w.locks.byTxn[t]? = none ∧
        ∀ c' ∈ live, c'.begins ≠ some t := by
  unfold admits
  cases hb : c.begins <;> cases he : c.exclusive <;> simp [and_assoc]

end Call

/-- The coordinator: its calls on one process state. -/
def coordinator (env : Env) : System Act.Res XtableError Reply Call World where
  handle := World.exec
  body := Call.body env
  admits := Call.admits

abbrev CallPool : Type := Pool Act.Res XtableError Reply Call World

/-- The coordinator as a transition system: one action of one call at a time. -/
abbrev CallPool.Step (env : Env) : Pool.Event Call → CallPool → Option CallPool := Pool.step (coordinator env)

/-- The first `n` actions of a call, with nothing in between. -/
def Call.first (i : Nat) (c : Call) (n : Nat) : List (Pool.Event Call) := .spawn i c :: List.replicate n (.act i)

/-- A call from start to end, in `n` actions, with nothing in between. -/
def Call.alone (i : Nat) (c : Call) (n : Nat) : List (Pool.Event Call) := c.first i n ++ [.finish i]

end Xtable
