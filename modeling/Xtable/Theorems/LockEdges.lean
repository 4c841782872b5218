import Xtable.Lib.Run
import Xtable.Tx.LockManager

/-! Runs of the lock manager on its own. Every operation but an abort only adds to the entries of the transactions
    it finds; what it adds is a `Growth`. -/

namespace Xtable

inductive LockOp where
  | beginTxn (t : String) (snapshotVersion : Nat)
  | registerRead (t key : String) (versionObserved : Nat) (etag : String)
  | registerWrite (t key : String) (versionToWrite : Nat)
  | markCommitted (t : String) (commitVersion : Nat)
  | markAborted (t : String)
  deriving DecidableEq, Repr

namespace SiLockManager

def isActive (m : SiLockManager) (t : String) : Bool :=
  (m.byTxn[t]?).any fun locks => locks.status = .active

theorem isActive_iff {m : SiLockManager} {t : String} :
    m.isActive t = true ↔ ∃ locks, m.byTxn[t]? = some locks ∧ locks.status = .active := by
  simp [isActive, Option.any_eq_true]

end SiLockManager

namespace LockOp

def apply (m : SiLockManager) : LockOp → SiLockManager
  | beginTxn t snapshotVersion => (m.beginTxn t snapshotVersion).2
  | registerRead t key versionObserved etag => m.registerRead t key versionObserved etag
  | registerWrite t key versionToWrite => m.registerWrite t key versionToWrite
  | markCommitted t commitVersion => m.markCommitted t commitVersion
  | markAborted t => m.markAborted t

/-- Reads and writes are registered by active transactions. -/
def admitted (m : SiLockManager) : LockOp → Bool
  | registerRead t _ _ _ | registerWrite t _ _ => m.isActive t
  | _ => true

def step (op : LockOp) (m : SiLockManager) : Option SiLockManager :=
  if op.admitted m then some (op.apply m) else none

theorem step_eq_some {op : LockOp} {m m' : SiLockManager} : op.step m = some m' ↔ op.admitted m = true ∧ op.apply m = m' := by
  simp [step]

end LockOp

def HasEdge (edges : List SIEdge) (peer key : String) : Prop :=
  ∃ e ∈ edges, e.peer = peer ∧ e.key = key

theorem HasEdge.append {edges : List SIEdge} {peer key : String} (h : HasEdge edges peer key) (more : List SIEdge) :
    HasEdge (edges ++ more) peer key := by
  obtain ⟨e, he, hpk⟩ := h
  exact ⟨e, List.mem_append_left _ he, hpk⟩

theorem HasEdge.filter {edges : List SIEdge} {t peer key : String} (h : HasEdge edges peer key) (hne : peer ≠ t) :
    HasEdge (edges.filter fun e => e.peer ≠ t) peer key := by
  obtain ⟨e, he, rfl, hkey⟩ := h
  exact ⟨e, List.mem_filter.2 ⟨he, by simpa using hne⟩, rfl, hkey⟩

/-! ## What an operation adds -/

/-- What is added to the entry of each transaction. -/
structure Growth where
  reads : String → List SIReadLock := fun _ => []
  writes : String → List SIWriteLock := fun _ => []
  ins : String → List SIEdge := fun _ => []
  outs : String → List SIEdge := fun _ => []
  commits : String → Bool := fun _ => false

def Growth.apply (g : Growth) (t : String) (locks : SiTxnLocks) : SiTxnLocks :=
  { locks with
    reads := locks.reads ++ g.reads t
    writes := locks.writes ++ g.writes t
    inEdges := locks.inEdges ++ g.ins t
    outEdges := locks.outEdges ++ g.outs t
    status := if g.commits t then .committed else locks.status }

namespace SiLockManager

variable {m m' : SiLockManager} {g : Growth} {t x key : String} {v : Nat} {locks locks' : SiTxnLocks}

def readers (m : SiLockManager) (key : String) : List String := (m.readersOf[key]?).getD []

def writers (m : SiLockManager) (key : String) : List WriterView := (m.writersOf[key]?).getD []

/-- The same transactions are tracked, and each has grown. -/
def Grows (m m' : SiLockManager) (g : Growth) : Prop :=
  ∀ t, m'.byTxn[t]? = (m.byTxn[t]?).map (g.apply t)

theorem Grows.before (h : m.Grows m' g) (hlocks : m'.byTxn[t]? = some locks') :
    ∃ locks, m.byTxn[t]? = some locks ∧ locks' = g.apply t locks := by
  rw [h, Option.map_eq_some_iff] at hlocks
  obtain ⟨locks, hlocks, rfl⟩ := hlocks
  exact ⟨locks, hlocks, rfl⟩

theorem Grows.after (h : m.Grows m' g) (hlocks : m.byTxn[t]? = some locks) :
    m'.byTxn[t]? = some (g.apply t locks) := by
  rw [h, hlocks, Option.map_some]

/-- The growth of a read: the reader's own entry. -/
def readGrowth (m : SiLockManager) (t key : String) (v : Nat) (etag : String) : Growth where
  reads x := if t = x then [⟨key, v, etag⟩] else []
  ins x := if t = x then m.readEdges key v else []

theorem registerRead_grows (m : SiLockManager) (t key : String) (v : Nat) (etag : String) :
    m.Grows (m.registerRead t key v etag) (m.readGrowth t key v etag) := by
  intro x
  unfold registerRead
  cases hlocks : m.byTxn[t]? with
  | none =>
    by_cases ht : t = x
    · subst ht
      simp [hlocks]
    · cases m.byTxn[x]? <;> simp [Growth.apply, readGrowth, ht]
  | some locks =>
    by_cases ht : t = x
    · subst ht
      simp [Growth.apply, readGrowth, hlocks]
    · cases hx : m.byTxn[x]? <;> simp [Growth.apply, readGrowth, ht, hx]

theorem readers_registerRead (etag : String) (k : String) :
    (m.registerRead t key v etag).readers k = if key = k then m.readers k ++ [t] else m.readers k := by
  by_cases hk : key = k
  · subst hk
    simp [readers, registerRead]
  · simp [readers, registerRead, hk]

/-- The readers of a key that a writer of it depends on. -/
def otherReaders (m : SiLockManager) (t key : String) : List String := (m.readers key).filter fun reader => reader ≠ t

/-- The growth of a write: the writer's own entry, and an in-edge for each reader. -/
def writeGrowth (m : SiLockManager) (t key : String) (v : Nat) : Growth where
  writes x := if t = x then [⟨key, v⟩] else []
  outs x := if t = x then (m.otherReaders t key).map fun reader => ⟨reader, key, .read, v⟩ else []
  ins x := List.replicate ((m.otherReaders t key).count x) ⟨t, key, .wrote, v⟩

theorem get_addInEdges (e : SIEdge) (readers : List String) (b : Table String SiTxnLocks) (x : String) :
    (readers.foldl (fun b reader => addInEdge b reader e) b)[x]? =
      (b[x]?).map fun locks => { locks with inEdges := locks.inEdges ++ List.replicate (readers.count x) e } := by
  induction readers generalizing b with
  | nil => cases h : b[x]? <;> simp [h]
  | cons reader rest ih =>
    rw [List.foldl_cons, ih]
    unfold addInEdge
    by_cases hx : reader = x
    · subst hx
      cases h : b[reader]? with
      | none => simp [h]
      | some locks => simp [List.replicate_succ]
    · have hcount : (reader :: rest).count x = rest.count x := List.count_cons_of_ne hx
      cases h : b[reader]? <;> simp [hx, hcount]

theorem registerWrite_grows (m : SiLockManager) (t key : String) (v : Nat) :
    m.Grows (m.registerWrite t key v) (m.writeGrowth t key v) := by
  intro x
  simp only [registerWrite, get_addInEdges]
  cases hlocks : m.byTxn[t]? with
  | none =>
    by_cases ht : t = x
    · subst ht
      simp [hlocks]
    · cases hx : m.byTxn[x]? <;> simp [Growth.apply, writeGrowth, otherReaders, readers, ht]
  | some locks =>
    by_cases ht : t = x
    · subst ht
      simp [Growth.apply, writeGrowth, otherReaders, readers, hlocks]
    · cases hx : m.byTxn[x]? <;> simp [Growth.apply, writeGrowth, otherReaders, readers, ht, hx]

theorem writers_registerWrite (k : String) :
    (m.registerWrite t key v).writers k = if key = k then m.writers k ++ [⟨t, 0, false⟩] else m.writers k := by
  by_cases hk : key = k
  · subst hk
    simp [writers, registerWrite]
  · simp [writers, registerWrite, hk]

theorem get_mirrorEdge (t : String) (v : Nat) (b : Table String SiTxnLocks) (edge : String × String) :
    ∃ ins : String → List SIEdge, (∀ x : String, (mirrorEdge t v b edge)[x]? =
      (b[x]?).map fun locks => { locks with inEdges := locks.inEdges ++ ins x }) ∧
      ∀ x : String, ∀ e ∈ ins x, e.peer = t ∧ (x, e.key) = edge := by
  have hsame : ∀ x : String, b[x]? = (b[x]?).map fun locks => { locks with inEdges := locks.inEdges ++ [] } := by
    intro x
    cases b[x]? <;> simp
  unfold mirrorEdge
  cases hpeer : b[edge.1]? with
  | none => exact ⟨fun _ => [], hsame, by simp⟩
  | some peer =>
    dsimp only
    split
    · exact ⟨fun _ => [], hsame, by simp⟩
    · refine ⟨fun x => if edge.1 = x then [⟨t, edge.2, .wrote, v⟩] else [], fun x => ?_, fun x e he => ?_⟩
      · by_cases hx : edge.1 = x
        · subst hx
          simp [hpeer]
        · simp [hx]
      · by_cases hx : edge.1 = x
        · simp only [hx, if_true, List.mem_singleton] at he
          obtain rfl := he
          exact ⟨rfl, by rw [← hx]⟩
        · simp [hx] at he

theorem get_mirrorEdges (t : String) (v : Nat) (edges : List (String × String)) (b : Table String SiTxnLocks) :
    ∃ ins : String → List SIEdge, (∀ x : String, (edges.foldl (mirrorEdge t v) b)[x]? =
      (b[x]?).map fun locks => { locks with inEdges := locks.inEdges ++ ins x }) ∧
      ∀ x : String, ∀ e ∈ ins x, e.peer = t ∧ (x, e.key) ∈ edges := by
  induction edges generalizing b with
  | nil => exact ⟨fun _ => [], fun x => by cases h : b[x]? <;> simp [h], by simp⟩
  | cons edge rest ih =>
    obtain ⟨first, hfirst, hedge⟩ := get_mirrorEdge t v b edge
    obtain ⟨ins, hget, hins⟩ := ih (mirrorEdge t v b edge)
    refine ⟨fun x => first x ++ ins x, fun x => ?_, fun x e he => ?_⟩
    · rw [List.foldl_cons, hget, hfirst, Option.map_map]
      simp [Function.comp_def]
    · rcases List.mem_append.1 he with he | he
      · exact ⟨(hedge x e he).1, (hedge x e he).2 ▸ List.mem_cons_self⟩
      · exact ⟨(hins x e he).1, List.mem_cons_of_mem _ (hins x e he).2⟩

/-- The entries after `t` is marked. -/
def marked (m : SiLockManager) (t : String) : Table String SiTxnLocks :=
  match m.byTxn[t]? with
  | some entry => m.byTxn.insert t { entry with status := .committed }
  | none => m.byTxn

theorem markCommitted_grows (m : SiLockManager) (t : String) (v : Nat) :
    ∃ ins : String → List SIEdge, m.Grows (m.markCommitted t v) { ins, commits := fun x => t = x } ∧
      ∀ x, ∀ e ∈ ins x, e.peer = t ∧ ∃ locks, m.byTxn[t]? = some locks ∧ HasEdge locks.outEdges x e.key := by
  obtain ⟨ins, hget, hins⟩ := get_mirrorEdges t v
    ((((m.byTxn[t]?).getD {}).outEdges.filter fun e => e.peerAction = .read).map fun e => (e.peer, e.key))
    (m.marked t)
  refine ⟨ins, fun x => (hget x).trans ?_, fun x e he => ?_⟩
  · cases hlocks : m.byTxn[t]? with
    | none =>
      by_cases ht : t = x
      · subst ht
        simp [marked, hlocks]
      · cases hx : m.byTxn[x]? <;> simp [marked, hlocks, Growth.apply, ht, hx]
    | some locks =>
      by_cases ht : t = x
      · subst ht
        simp [marked, Growth.apply, hlocks]
      · cases hx : m.byTxn[x]? <;> simp [marked, hlocks, Growth.apply, ht, hx]
  · obtain ⟨hpeer, hmem⟩ := hins x e he
    obtain ⟨o, ho, heq⟩ := List.mem_map.1 hmem
    obtain ⟨rfl, hkey⟩ := Prod.mk.inj heq
    refine ⟨hpeer, ?_⟩
    cases hlocks : m.byTxn[t]? with
    | none => simp [hlocks] at ho
    | some locks =>
      rw [hlocks] at ho
      exact ⟨locks, rfl, o, (List.mem_filter.1 ho).1, rfl, hkey⟩

theorem get_stampWriters (t : String) (v : Nat) (keys : List String) (b : Table String (List WriterView)) (k : String) :
    ((keys.foldl (stampWriter t v) b)[k]?).getD [] = ((b[k]?).getD []).map fun view =>
      if k ∈ keys ∧ view.txnId = t then { view with committedVersion := v, isRecentlyCommitted := true } else view := by
  induction keys generalizing b with
  | nil => simp
  | cons key rest ih =>
    rw [List.foldl_cons, ih]
    unfold stampWriter
    by_cases hk : key = k
    · subst hk
      cases hlist : b[key]? with
      | none => simp [hlist]
      | some list =>
        simp only [Table.get_insert, if_pos, Option.getD_some, List.map_map, List.mem_cons, true_or, true_and]
        refine List.map_congr_left fun view _ => ?_
        by_cases hv : view.txnId = t <;> simp [hv]
    · cases b[key]? <;> simp [hk, Ne.symm hk, eq_comm]

theorem writers_markCommitted (k : String) : (m.markCommitted t v).writers k = (m.writers k).map fun view =>
    if k ∈ ((m.byTxn[t]?).getD {}).writes.map (·.key) ∧ view.txnId = t then
      { view with committedVersion := v, isRecentlyCommitted := true } else view :=
  get_stampWriters ..

/-- An entry without the edges that name a transaction. -/
def without (t : String) (locks : SiTxnLocks) : SiTxnLocks :=
  { locks with
    inEdges := locks.inEdges.filter fun e => e.peer ≠ t
    outEdges := locks.outEdges.filter fun e => e.peer ≠ t }

theorem get_markAborted_of_ne (hx : m.byTxn[x]? = some locks) (hne : x ≠ t) :
    (m.markAborted t).byTxn[x]? = some (without t locks) := by
  simp [markAborted, without, hne.symm, hx]

theorem before_markAborted (hx : (m.markAborted t).byTxn[x]? = some locks') :
    x ≠ t ∧ ∃ locks, m.byTxn[x]? = some locks ∧ locks' = without t locks := by
  simp only [markAborted, Table.get_map, Table.get_erase, Option.map_eq_some_iff, Option.ite_none_left_eq_some] at hx
  obtain ⟨locks, ⟨hne, hlocks⟩, rfl⟩ := hx
  exact ⟨Ne.symm hne, locks, hlocks, rfl⟩

theorem readers_markAborted (k : String) : (m.markAborted t).readers k = (m.readers k).filter fun r => r ≠ t := by
  cases h : m.readersOf[k]? <;> simp [readers, markAborted, h]

theorem writers_markAborted (k : String) :
    (m.markAborted t).writers k = (m.writers k).filter fun view => view.txnId ≠ t := by
  cases h : m.writersOf[k]? <;> simp [writers, markAborted, h]

theorem beginTxn_fails (h : (m.byTxn[t]?).isSome) (v : Nat) : (m.beginTxn t v).2 = m := by
  simp [beginTxn, h]

theorem get_beginTxn (h : m.byTxn[t]? = none) (v : Nat) (x : String) : (m.beginTxn t v).2.byTxn[x]? =
    if t = x then some { snapshotVersion := v } else m.byTxn[x]? := by
  simp [beginTxn, h]

theorem indexes_beginTxn (m : SiLockManager) (t : String) (v : Nat) :
    (m.beginTxn t v).2.readers = m.readers ∧ (m.beginTxn t v).2.writers = m.writers := by
  unfold beginTxn
  split <;> exact ⟨rfl, rfl⟩

/-! ## Mirrored edges -/

/-- Every edge names a tracked transaction other than its own, which has the opposite edge: for an in-edge, as long as
it is active. -/
structure Mirrored (m : SiLockManager) : Prop where
  readers : ∀ k, ∀ r ∈ m.readers k, (m.byTxn[r]?).isSome
  /-- A view is of a tracked transaction, which is committed once the view is. -/
  writers : ∀ k, ∀ view ∈ m.writers k, ∃ locks, m.byTxn[view.txnId]? = some locks ∧
    (view.isRecentlyCommitted = true → locks.status = .committed)
  outs : ∀ t locks, m.byTxn[t]? = some locks → ∀ e ∈ locks.outEdges, e.peer ≠ t ∧
    ∃ peer, m.byTxn[e.peer]? = some peer ∧ HasEdge peer.inEdges t e.key
  ins : ∀ t locks, m.byTxn[t]? = some locks → ∀ e ∈ locks.inEdges, e.peer ≠ t ∧
    ∃ peer, m.byTxn[e.peer]? = some peer ∧ (peer.status = .active → HasEdge peer.outEdges t e.key)

namespace Mirrored

theorem empty : Mirrored {} :=
  ⟨by simp [SiLockManager.readers], by simp [SiLockManager.writers], by simp, by simp⟩

theorem grow (h : m.Mirrored) (hg : m.Grows m' g)
    (hreaders : ∀ k, ∀ r ∈ m'.readers k, r ∈ m.readers k ∨ (m.byTxn[r]?).isSome)
    (hwriters : ∀ k, ∀ view ∈ m'.writers k, ∃ locks, m.byTxn[view.txnId]? = some locks ∧
      (view.isRecentlyCommitted = true → g.commits view.txnId = true ∨ locks.status = .committed))
    (houts : ∀ t, ∀ e ∈ g.outs t, e.peer ≠ t ∧ (m.byTxn[e.peer]?).isSome ∧ HasEdge (g.ins e.peer) t e.key)
    (hins : ∀ t, ∀ e ∈ g.ins t, e.peer ≠ t ∧ ∃ peer, m.byTxn[e.peer]? = some peer ∧
      ((g.apply e.peer peer).status = .active → HasEdge (g.apply e.peer peer).outEdges t e.key)) : m'.Mirrored := by
  have hafter : ∀ {x locks}, m.byTxn[x]? = some locks → m'.byTxn[x]? = some (g.apply x locks) := fun hx => hg.after hx
  refine ⟨fun k r hr => ?_, fun k view hview => ?_, fun t locks' hlocks' e he => ?_, fun t locks' hlocks' e he => ?_⟩
  · have hr' : (m.byTxn[r]?).isSome := (hreaders k r hr).elim (h.readers k r) id
    rw [hg, Option.isSome_map]
    exact hr'
  · obtain ⟨locks, hlocks, hst⟩ := hwriters k view hview
    refine ⟨_, hafter hlocks, fun hview => ?_⟩
    rcases hst hview with hst | hst <;> simp [Growth.apply, hst]
  · obtain ⟨locks, hlocks, rfl⟩ := hg.before hlocks'
    rcases List.mem_append.1 he with he | he
    · obtain ⟨hne, peer, hpeer, hedge⟩ := h.outs t locks hlocks e he
      exact ⟨hne, _, hafter hpeer, hedge.append _⟩
    · obtain ⟨hne, hpeer, e', he', hpk⟩ := houts t e he
      obtain ⟨peer, hpeer⟩ := Option.isSome_iff_exists.1 hpeer
      exact ⟨hne, _, hafter hpeer, e', List.mem_append_right _ he', hpk⟩
  · obtain ⟨locks, hlocks, rfl⟩ := hg.before hlocks'
    rcases List.mem_append.1 he with he | he
    · obtain ⟨hne, peer, hpeer, hedge⟩ := h.ins t locks hlocks e he
      refine ⟨hne, _, hafter hpeer, fun hst => ?_⟩
      -- a transaction that is active afterwards was active before
      have hst' : peer.status = .active := by
        simp only [Growth.apply] at hst
        split at hst
        · cases hst
        · exact hst
      exact (hedge hst').append _
    · obtain ⟨hne, peer, hpeer, hedge⟩ := hins t e he
      exact ⟨hne, _, hafter hpeer, hedge⟩

theorem beginTxn (h : m.Mirrored) (t : String) (v : Nat) : (m.beginTxn t v).2.Mirrored := by
  cases hlocks : m.byTxn[t]? with
  | some locks =>
    rw [beginTxn_fails (by simp [hlocks])]
    exact h
  | none =>
    -- nothing names the new transaction, for it was not tracked
    have hget := get_beginTxn hlocks v
    have hother : ∀ {x : String} {locks}, m.byTxn[x]? = some locks → (m.beginTxn t v).2.byTxn[x]? = some locks := by
      intro x locks hx
      have hne : t ≠ x := by
        rintro rfl
        rw [hlocks] at hx
        cases hx
      rw [hget, if_neg hne, hx]
    have hold : ∀ {x : String} {locks}, (m.beginTxn t v).2.byTxn[x]? = some locks → locks.inEdges = [] ∧ locks.outEdges = [] ∨
        m.byTxn[x]? = some locks := by
      intro x locks hx
      rw [hget] at hx
      split at hx
      · cases hx
        exact .inl ⟨rfl, rfl⟩
      · exact .inr hx
    obtain ⟨hreaders, hwriters⟩ := indexes_beginTxn m t v
    refine ⟨fun k r hr => ?_, fun k view hview => ?_, fun x locks hx e he => ?_, fun x locks hx e he => ?_⟩
    · rw [hreaders] at hr
      obtain ⟨locks, hr⟩ := Option.isSome_iff_exists.1 (h.readers k r hr)
      simp [hother hr]
    · rw [hwriters] at hview
      obtain ⟨locks, hlocks, hst⟩ := h.writers k view hview
      exact ⟨locks, hother hlocks, hst⟩
    · rcases hold hx with ⟨-, hnil⟩ | hx
      · simp [hnil] at he
      · obtain ⟨hne, peer, hpeer, hedge⟩ := h.outs x locks hx e he
        exact ⟨hne, peer, hother hpeer, hedge⟩
    · rcases hold hx with ⟨hnil, -⟩ | hx
      · simp [hnil] at he
      · obtain ⟨hne, peer, hpeer, hedge⟩ := h.ins x locks hx e he
        exact ⟨hne, peer, hother hpeer, hedge⟩

theorem registerRead (h : m.Mirrored) (hlocks : m.byTxn[t]? = some locks) (hst : locks.status = .active) (etag : String) :
    (m.registerRead t key v etag).Mirrored := by
  refine h.grow (registerRead_grows m t key v etag) (fun k r hr => ?_) (fun k view hview => ?_) (fun x e he => ?_)
    fun x e he => ?_
  · rw [readers_registerRead] at hr
    split at hr
    · rcases List.mem_append.1 hr with hr | hr
      · exact .inl hr
      · obtain rfl := List.mem_singleton.1 hr
        exact .inr (by simp [hlocks])
    · exact .inl hr
  · obtain ⟨locks', hlocks', hst'⟩ := h.writers k view hview
    exact ⟨locks', hlocks', fun hview => .inr (hst' hview)⟩
  · cases he
  · -- the writer of an edge is committed, the reader is active
    by_cases ht : t = x
    · subst ht
      simp only [readGrowth, if_true, readEdges, List.mem_map, List.mem_filter, Bool.and_eq_true] at he
      obtain ⟨view, ⟨hview, hcommitted, -⟩, rfl⟩ := he
      obtain ⟨peer, hpeer, hpst⟩ := h.writers key view hview
      have hpst := hpst hcommitted
      refine ⟨?_, peer, hpeer, fun hactive => ?_⟩
      · rintro rfl
        cases hlocks.symm.trans hpeer
        rw [hst] at hpst
        cases hpst
      · simp [Growth.apply, readGrowth, hpst] at hactive
    · simp [readGrowth, ht] at he

theorem mem_otherReaders {r : String} : r ∈ m.otherReaders t key ↔ r ∈ m.readers key ∧ r ≠ t := by
  simp [otherReaders]

theorem registerWrite (h : m.Mirrored) (hlocks : m.byTxn[t]? = some locks) : (m.registerWrite t key v).Mirrored := by
  refine h.grow (registerWrite_grows m t key v) (fun k r hr => .inl hr) (fun k view hview => ?_) (fun x e he => ?_)
    fun x e he => ?_
  · rw [writers_registerWrite] at hview
    split at hview
    · rcases List.mem_append.1 hview with hview | hview
      · obtain ⟨locks', hlocks', hst'⟩ := h.writers k view hview
        exact ⟨locks', hlocks', fun hview => .inr (hst' hview)⟩
      · obtain rfl := List.mem_singleton.1 hview
        exact ⟨locks, hlocks, fun hview => by cases hview⟩
    · obtain ⟨locks', hlocks', hst'⟩ := h.writers k view hview
      exact ⟨locks', hlocks', fun hview => .inr (hst' hview)⟩
  · by_cases ht : t = x
    · subst ht
      simp only [writeGrowth, if_true, List.mem_map] at he
      obtain ⟨reader, hreader, rfl⟩ := he
      obtain ⟨hmem, hne⟩ := mem_otherReaders.1 hreader
      refine ⟨hne, h.readers key reader hmem, _, List.mem_replicate.2 ⟨?_, rfl⟩, rfl, rfl⟩
      exact (List.count_pos_iff.2 hreader).ne'
    · simp [writeGrowth, ht] at he
  · obtain ⟨hcount, rfl⟩ := List.mem_replicate.1 he
    have hreader := List.count_pos_iff.1 (Nat.pos_of_ne_zero hcount)
    refine ⟨(mem_otherReaders.1 hreader).2.symm, locks, hlocks, fun _ => ?_⟩
    exact ⟨⟨x, key, .read, v⟩, List.mem_append_right _ (by simpa [writeGrowth] using hreader), rfl, rfl⟩

theorem markCommitted (h : m.Mirrored) (t : String) (v : Nat) : (m.markCommitted t v).Mirrored := by
  obtain ⟨ins, hgrows, hins⟩ := markCommitted_grows m t v
  refine h.grow hgrows (fun k r hr => .inl hr) (fun k view' hview' => ?_) (fun x e he => by cases he) fun x e he => ?_
  · rw [writers_markCommitted, List.mem_map] at hview'
    obtain ⟨view, hview, rfl⟩ := hview'
    obtain ⟨locks, hlocks, hst⟩ := h.writers k view hview
    split
    case isTrue hstamp => exact ⟨locks, hlocks, fun _ => .inl (by simpa using hstamp.2.symm)⟩
    case isFalse => exact ⟨locks, hlocks, fun hview => .inr (hst hview)⟩
  · obtain ⟨rfl, locks, hlocks, o, ho, rfl, -⟩ := hins x e he
    refine ⟨(h.outs _ locks hlocks o ho).1.symm, locks, hlocks, fun hst => ?_⟩
    simp [Growth.apply] at hst

theorem markAborted (h : m.Mirrored) (t : String) : (m.markAborted t).Mirrored := by
  refine ⟨fun k r hr => ?_, fun k view hview => ?_, fun x locks' hx' e he => ?_, fun x locks' hx' e he => ?_⟩
  · rw [readers_markAborted, List.mem_filter, decide_eq_true_eq] at hr
    obtain ⟨locks, hlocks⟩ := Option.isSome_iff_exists.1 (h.readers k r hr.1)
    rw [get_markAborted_of_ne hlocks hr.2, Option.isSome_some]
  · rw [writers_markAborted, List.mem_filter, decide_eq_true_eq] at hview
    obtain ⟨locks, hlocks, hst⟩ := h.writers k view hview.1
    exact ⟨_, get_markAborted_of_ne hlocks hview.2, hst⟩
  · obtain ⟨hne, locks, hlocks, rfl⟩ := before_markAborted hx'
    simp only [without, List.mem_filter, decide_eq_true_eq] at he
    obtain ⟨hown, peer, hpeer, hedge⟩ := h.outs x locks hlocks e he.1
    exact ⟨hown, _, get_markAborted_of_ne hpeer he.2, hedge.filter hne⟩
  · obtain ⟨hne, locks, hlocks, rfl⟩ := before_markAborted hx'
    simp only [without, List.mem_filter, decide_eq_true_eq] at he
    obtain ⟨hown, peer, hpeer, hedge⟩ := h.ins x locks hlocks e he.1
    exact ⟨hown, _, get_markAborted_of_ne hpeer he.2, fun hst => (hedge hst).filter hne⟩

theorem step {op : LockOp} (h : m.Mirrored) (hstep : op.step m = some m') : m'.Mirrored := by
  obtain ⟨hadm, rfl⟩ := LockOp.step_eq_some.1 hstep
  cases op with
  | beginTxn t v => exact h.beginTxn t v
  | registerRead t key v etag =>
    obtain ⟨locks, hlocks, hst⟩ := isActive_iff.1 hadm
    exact h.registerRead hlocks hst etag
  | registerWrite t key v =>
    obtain ⟨locks, hlocks, -⟩ := isActive_iff.1 hadm
    exact h.registerWrite hlocks
  | markCommitted t v => exact h.markCommitted t v
  | markAborted t => exact h.markAborted t

end Mirrored

/-- Both an in-peer and an out-peer. -/
def TwoWay (locks : SiTxnLocks) (peer : String) : Prop :=
  (∃ e ∈ locks.inEdges, e.peer = peer) ∧ ∃ e ∈ locks.outEdges, e.peer = peer

theorem Mirrored.twoWay {p : String} {peer : SiTxnLocks} (h : m.Mirrored) (ht : m.byTxn[t]? = some locks)
    (hp : m.byTxn[p]? = some peer) (hst : peer.status = .active) (h₂ : TwoWay locks p) : TwoWay peer t := by
  obtain ⟨⟨i, hi, rfl⟩, o, ho, hop⟩ := h₂
  obtain ⟨-, peer₁, hpeer₁, e₁, he₁, hp₁, -⟩ := h.outs t locks ht o ho
  obtain ⟨-, peer₂, hpeer₂, hedge⟩ := h.ins t locks ht i hi
  cases hp.symm.trans hpeer₂
  rw [hop] at hpeer₁
  cases hp.symm.trans hpeer₁
  obtain ⟨e₂, he₂, hp₂, -⟩ := hedge hst
  exact ⟨⟨e₁, he₁, hp₁⟩, e₂, he₂, hp₂⟩

theorem findDangerousStructure_eq_some {p : String} (h : m.findDangerousStructure t = some p) :
    p ≠ t ∧ ∃ locks, m.byTxn[t]? = some locks ∧ TwoWay locks p := by
  unfold findDangerousStructure at h
  cases hlocks : m.byTxn[t]? with
  | none => simp [hlocks] at h
  | some locks =>
    simp only [hlocks, Option.map_eq_some_iff] at h
    obtain ⟨o, ho, rfl⟩ := h
    have hin := List.find?_some ho
    simp only [List.contains_eq_mem, List.mem_map, List.mem_filter, decide_eq_true_eq] at hin
    obtain ⟨i, ⟨hi, hne⟩, hpeer⟩ := hin
    exact ⟨hpeer ▸ hne, locks, rfl, ⟨i, hi, hpeer⟩, o, List.mem_of_find?_eq_some ho, rfl⟩

theorem findDangerousStructure_isSome {p : String} (hlocks : m.byTxn[t]? = some locks) (hne : p ≠ t)
    (h : TwoWay locks p) : (m.findDangerousStructure t).isSome := by
  obtain ⟨⟨i, hi, rfl⟩, o, ho, hpeer⟩ := h
  simp only [findDangerousStructure, hlocks, Option.isSome_map, List.find?_isSome]
  refine ⟨o, ho, ?_⟩
  simp only [List.contains_eq_mem, List.mem_map, List.mem_filter, decide_eq_true_eq]
  exact ⟨i, ⟨hi, hne⟩, hpeer.symm⟩

end SiLockManager

open SiLockManager

theorem mirrored_of_run {hist : List (SiLockManager × LockOp × SiLockManager)} {m : SiLockManager}
    (hrun : Run LockOp.step {} hist m) : m.Mirrored :=
  (hrun.invariant (I := SiLockManager.Mirrored) (C := fun _ _ => True) .empty
    (fun _ _ _ h _ hstep => h.step hstep) fun _ _ => trivial).1

/-- In every state of the lock manager, edges are mirrored, a peer both ways is one in both directions, so
both transactions find a dangerous structure, and no edge names its own transaction. -/
theorem edges_mirrored {hist : List (SiLockManager × LockOp × SiLockManager)} {m : SiLockManager}
    (hrun : Run LockOp.step {} hist m) :
    (∀ t locks, m.byTxn[t]? = some locks → ∀ e ∈ locks.outEdges, ∀ peer, m.byTxn[e.peer]? = some peer →
      HasEdge peer.inEdges t e.key) ∧
    (∀ p peer, m.byTxn[p]? = some peer → ∀ e ∈ peer.inEdges, ∀ locks, m.byTxn[e.peer]? = some locks →
      locks.status = .active → HasEdge locks.outEdges p e.key) ∧
    (∀ t p locks peer, m.byTxn[t]? = some locks → m.byTxn[p]? = some peer → locks.status = .active →
      peer.status = .active → (TwoWay locks p ↔ TwoWay peer t) ∧
        (m.findDangerousStructure t = some p → (m.findDangerousStructure p).isSome)) ∧
    ∀ (t : String) locks, m.byTxn[t]? = some locks → ∀ e ∈ locks.inEdges ++ locks.outEdges, e.peer ≠ t := by
  have h := mirrored_of_run hrun
  refine ⟨fun t locks ht e he peer hpeer => ?_, fun p peer hp e he locks hlocks hst => ?_,
    fun t p locks peer ht hp hst hpst => ⟨⟨h.twoWay ht hp hpst, h.twoWay hp ht hst⟩, fun hfound => ?_⟩,
    fun t locks ht e he => ?_⟩
  · obtain ⟨-, peer', hpeer', hedge⟩ := h.outs t locks ht e he
    obtain rfl := Option.some.inj (hpeer.symm.trans hpeer')
    exact hedge
  · obtain ⟨-, locks', hlocks', hedge⟩ := h.ins p peer hp e he
    obtain rfl := Option.some.inj (hlocks.symm.trans hlocks')
    exact hedge hst
  · obtain ⟨hne, locks', hlocks', htwo⟩ := findDangerousStructure_eq_some hfound
    obtain rfl := Option.some.inj (ht.symm.trans hlocks')
    exact findDangerousStructure_isSome hp hne.symm (h.twoWay ht hp hpst htwo)
  · rcases List.mem_append.1 he with he | he
    · exact (h.ins t locks ht e he).1
    · exact (h.outs t locks ht e he).1

/-- Two transactions that each write what the other has read. -/
theorem edges_mirrored_skew : ∃ hist m, Run LockOp.step {} hist m ∧
    (m.findDangerousStructure "T").isSome ∧ (m.findDangerousStructure "U").isSome := by
  obtain ⟨m, hrun, htest⟩ := Run.exists_of_exec LockOp.step {}
    [.beginTxn "T" 0, .beginTxn "U" 0, .registerRead "T" "a" 0 "", .registerRead "U" "b" 0 "",
      .registerWrite "T" "b" 0, .registerWrite "U" "a" 0]
    (fun m => m.isActive "T" && m.isActive "U" && m.findDangerousStructure "T" = some "U") (by decide +kernel)
  simp only [Bool.and_eq_true, decide_eq_true_eq, isActive_iff] at htest
  obtain ⟨⟨⟨locks, ht, hst⟩, peer, hp, hpst⟩, hfound⟩ := htest
  obtain ⟨-, hsym⟩ := (edges_mirrored hrun).2.2.1 "T" "U" locks peer ht hp hst hpst
  exact ⟨_, m, hrun, by simp [hfound], hsym hfound⟩

end Xtable
