import Xtable.Tx.Calls

/-! Each call goes through phases; a move says which action is in order in a phase, what answer the call relies on,
    and the phase it leads to. The programs are shown to follow the protocol once; invariants are proved about the
    moves. -/

namespace Xtable

variable {t : String} {row : TxnStateRecord}

/-- The row a commit stores before its chain append. -/
def TxnStateRecord.withAlloc (row : TxnStateRecord) (v : Nat) : TxnStateRecord :=
  { row with
    allocVersions := (row.writeKeys.insertionSort (· ≤ ·)).map fun key => (key, v)
    uploadedKeys := [] }

inductive Phase where
  /-- `begin`: nothing done; then the snapshot is pinned, the row is stored, the lock manager knows. -/
  | begin (t : String) (idem : Option String) (now : Int)
  | captured (t : String) (row : TxnStateRecord)
  | begun (t : String) (row : TxnStateRecord)
  | registered (t : String) (row : TxnStateRecord)
  /-- `stage`: the row has been read as `Active`, the write entry is stored, the key is noted. -/
  | stageStart (t key : String)
  | staging (t key : String) (txn : TxnStateRecord)
  | staged (t key : String) (txn : TxnStateRecord)
  | stageNoted (t key : String)
  | readStart (t key : String)
  | reading (t key : String) (txn : TxnStateRecord)
  | beatStart (t : String)
  | beating (t : String) (txn : TxnStateRecord)
  /-- `commit` before it owns the row. -/
  | commitStart (t : String)
  | commitSeen (t : String)
  | commitLost (t : String)
  /-- `commit` with the row `Committing`, up to the end of the WAL records. -/
  | owned (t : String)
  | loaded (t : String) (row : TxnStateRecord)
  | doomed (t : String) (row : TxnStateRecord)
  | allocated (t : String) (row : TxnStateRecord) (v : Nat) (passed : List String)
  | logged (t : String) (row : TxnStateRecord) (v : Nat)
  | ready (t : String) (row : TxnStateRecord) (v : Nat)
  | appended (t : String) (row : TxnStateRecord) (v : Nat)
  | walled (t : String) (row : TxnStateRecord) (v : Nat)
  /-- The row is `Committed`, the pin is still held. -/
  | finishing (t : String) (snap : Nat)
  /-- `abort` (`sweep = none`) or one transaction of a sweep, which may go on to collect the chains
  (`some true`) or not. -/
  | abortStart (t : String)
  | abortSeen (t : String) (row : TxnStateRecord) (sweep : Option Bool)
  | aborting (t : String) (snap : Nat) (sweep : Option Bool)
  /-- The row is terminal and the pin released. -/
  | released (t : String)
  | sweeping (collects : Bool)
  | ended

/-- Actions of a call that has finished with the row of `t`: they concern staged bodies, indexes and
memory only. -/
inductive Tidy (t : String) : Act → Prop where
  | iterWriteSet : Tidy t (.iterWriteSet t)
  | getBlob (h : String) : Tidy t (.getBlob h)
  | deleteBlob (h : String) : Tidy t (.deleteBlob h)
  | removeFile (p : String) : Tidy t (.removeFile p)
  | deleteWriteEntry (k : String) : Tidy t (.deleteWriteEntry t k)
  | markAborted : Tidy t (.markAborted t)

/-- Actions between the `Committed` row and the release of the pin. -/
inductive Publishing (t : String) : Act → Prop where
  | memPutInvisible (e : MemEntry) (aged : Bool) : Publishing t (.memPutInvisible e aged)
  | memPublish (rk : RecordKey) (v : Nat) : Publishing t (.memPublish rk v)
  | markCommitted (v : Nat) : Publishing t (.markCommitted t v)
  | pendingTake : Publishing t (.pendingTake t)
  | putRecordIndexWithBody (rk : RecordKey) (e : RecordIndexEntry) (j : String) (b : Bytes) :
      Publishing t (.putRecordIndexWithBody rk e j b)
  | putSchemaIndex (sp n : String) (e : SchemaIndexEntry) : Publishing t (.putSchemaIndex sp n e)

/-- Where the row read at the start of a call leads. -/
def Phase.onActive (k : TxnStateRecord → Phase) (other : Phase) : Option TxnStateRecord → Phase
  | some row => if row.status = .active then k row else other
  | none => other

def Phase.onRow (k : TxnStateRecord → Phase) : Option TxnStateRecord → Phase
  | some row => k row
  | none => .ended

inductive Move : Prog.Protocol Act.Res Phase where
  -- begin
  | capture {t : String} {idem : Option String} {now : Int} :
      Move (.begin t idem now) .captureAndRegisterSnapshot (fun _ => True)
        fun snap : Nat => .captured t (.newActive snap idem now)
  | putRow {t : String} {row : TxnStateRecord} :
      Move (.captured t row) (.putTxnState t row) (fun _ => True) fun _ => .begun t row
  | lockBegin {t : String} {row : TxnStateRecord} :
      Move (.begun t row) (.lockBeginTxn t row.snapshotVersion)
        (fun r : Except XtableError Unit => r = .ok ()) fun _ => .registered t row
  | walBegin {t : String} {row : TxnStateRecord} {idem : Option String} :
      Move (.registered t row) (.appendWal (.begin t row.snapshotVersion idem)) (fun _ => True)
        fun _ => .ended
  -- stage
  | stageRequire {t key : String} :
      Move (.stageStart t key) (.getTxnState t) (fun _ => True)
        (Phase.onActive (.staging t key) .ended)
  | stageFile {t key : String} {txn : TxnStateRecord} {path : String} {b : Bytes} :
      Move (.staging t key txn) (.writeFile path b) (fun _ => True) fun _ => .staging t key txn
  | stageBlob {t key : String} {txn : TxnStateRecord} {handle : String} {rec : BlobRecord} :
      Move (.staging t key txn) (.putBlob handle rec) (fun _ => True) fun _ => .staging t key txn
  | stageWal {t key : String} {txn : TxnStateRecord} {handle : Option String} :
      Move (.staging t key txn) (.appendWal (.stage t key handle)) (fun _ => True)
        fun _ => .staging t key txn
  | stageEntry {t key : String} {txn : TxnStateRecord} {e : WriteSetEntry} :
      Move (.staging t key txn) (.putWriteEntry t key e) (fun _ => True) fun _ => .staged t key txn
  | stageNote {t key : String} {txn : TxnStateRecord} (hkey : key ∉ txn.writeKeys) :
      Move (.staged t key txn) (.putTxnState t (txn.addWriteKey key))
        (fun _ => True) fun _ => .stageNoted t key
  | stageKnown {t key : String} {txn : TxnStateRecord} {v : Nat} (hkey : key ∈ txn.writeKeys) :
      Move (.staged t key txn) (.registerWrite t key v) (fun _ => True) fun _ => .ended
  | stageRegister {t key : String} {v : Nat} :
      Move (.stageNoted t key) (.registerWrite t key v) (fun _ => True) fun _ => .ended
  -- read and heartbeat
  | readRequire {t key : String} :
      Move (.readStart t key) (.getTxnState t) (fun _ => True)
        (Phase.onActive (.reading t key) .ended)
  | readRegister {t key : String} {txn : TxnStateRecord} {v : Nat} {etag : String} :
      Move (.reading t key txn) (.registerRead t key v etag) (fun _ => True)
        fun _ => .reading t key txn
  | readNote {t key : String} {txn : TxnStateRecord} (hkey : key ∉ txn.readKeys) :
      Move (.reading t key txn) (.putTxnState t (txn.addReadKey key))
        (fun _ => True) fun _ => .ended
  | beatRequire {t : String} :
      Move (.beatStart t) (.getTxnState t) (fun _ => True) (Phase.onActive (.beating t) .ended)
  | beatNote {t : String} {txn : TxnStateRecord} {now : Int} :
      Move (.beating t txn) (.putTxnState t { txn with lastHeartbeatMs := now }) (fun _ => True)
        fun _ => .ended
  -- commit: claiming the row
  | commitLook {t : String} :
      Move (.commitStart t) (.getTxnState t) (fun _ => True)
        (Phase.onActive (fun _ => .commitSeen t) .ended)
  | commitClaim {t : String} :
      Move (.commitSeen t) (.compareAndSetTxnStatus t .active .committing) (fun _ => True)
        fun won : Bool => if won then .owned t else .commitLost t
  | commitReplay {t : String} :
      Move (.commitLost t) (.getTxnState t) (fun _ => True) fun _ => .ended
  -- commit: with the row Committing
  | load {t : String} :
      Move (.owned t) (.getTxnState t) (fun r : Option TxnStateRecord => r.isSome) (Phase.onRow (.loaded t))
  | loadWrites {t : String} {row : TxnStateRecord} :
      Move (.loaded t row) (.iterWriteSet t) (fun _ => True) fun _ => .loaded t row
  | loadBlob {t : String} {row : TxnStateRecord} {handle : String} :
      Move (.loaded t row) (.getBlob handle) (fun _ => True) fun _ => .loaded t row
  | loadFile {t : String} {row : TxnStateRecord} {path : String} :
      Move (.loaded t row) (.readFile path) (fun _ => True) fun _ => .loaded t row
  | detect {t : String} {row : TxnStateRecord} :
      Move (.loaded t row) (.findDangerousStructure t) (fun _ => True) fun _ => .loaded t row
  | reload {t : String} {row : TxnStateRecord} :
      Move (.loaded t row) (.getTxnState t)
        (fun r : Option TxnStateRecord => r = some row ∧ row.status = .committing ∧ row.allocVersions = [])
        fun _ => .loaded t row
  | giveUp {t : String} {row : TxnStateRecord} {reason : String} :
      Move (.loaded t row) (.appendWal (.aborted t reason)) (fun _ => True) fun _ => .doomed t row
  | storeAborted {t : String} {row : TxnStateRecord} :
      Move (.doomed t row) (.putTxnState t { row with status := .aborted }) (fun _ => True)
        fun _ => .aborting t row.snapshotVersion none
  | allocate {t : String} {row : TxnStateRecord} (hkeys : row.writeKeys ≠ []) :
      Move (.loaded t row) .nextGlobalVersion (fun _ => True) fun v : Nat => .allocated t row v []
  | check {t : String} {row : TxnStateRecord} {v : Nat} {passed : List String} {key : String} :
      Move (.allocated t row v passed) (.readChain key) (fun _ => True) fun c : VersionChain =>
        if c.entries ≠ [] ∧ c.latestCommitVersion > row.snapshotVersion then .loaded t row
        else .allocated t row v (key :: passed)
  | logEmpty {t : String} {row : TxnStateRecord} (hkeys : row.writeKeys = []) :
      Move (.loaded t row) (.appendWal (.committing t [])) (fun _ => True)
        fun _ => .logged t row row.snapshotVersion
  | log {t : String} {row : TxnStateRecord} {v : Nat} {passed : List String}
      (hpassed : ∀ k ∈ row.writeKeys, k ∈ passed) :
      Move (.allocated t row v passed)
        (.appendWal (.committing t (row.writeKeys.insertionSort (· ≤ ·)))) (fun _ => True)
        fun _ => .logged t row v
  | storeAlloc {t : String} {row : TxnStateRecord} {v : Nat} :
      Move (.logged t row v) (.putTxnState t (row.withAlloc v)) (fun _ => True)
        fun _ => .ready t (row.withAlloc v) v
  | append {t : String} {row : TxnStateRecord} {v : Nat} {ws : WriteSet} :
      Move (.ready t row v)
        (.appendChainEntriesBulk (row.allocVersions.map fun x =>
          (x.1, Coordinator.chainEntry t ws x.1 x.2, row.snapshotVersion)))
        (fun r : Except XtableError Unit => r = .ok ()) fun _ => .appended t row v
  | putVersions {t : String} {row : TxnStateRecord} {v : Nat} {us : List (String × VersionRecord)} :
      Move (.appended t row v) (.putVersionsBulk us) (fun _ => True) fun _ => .appended t row v
  | walCommitted {t : String} {row : TxnStateRecord} {v : Nat} :
      Move (.appended t row v) (.appendWal (.committed t v)) (fun _ => True) fun _ => .walled t row v
  | walResult {t : String} {row : TxnStateRecord} {v : Nat} :
      Move (.walled t row v) (.appendWal (.commitResult t v true)) (fun _ => True)
        fun _ => .walled t row v
  | storeCommitted {t : String} {row : TxnStateRecord} {v : Nat} :
      Move (.walled t row v) (.putTxnState t { row with status := .committed }) (fun _ => True)
        fun _ => .finishing t row.snapshotVersion
  | publish {t : String} {snap : Nat} {a : Act} (ha : Publishing t a) :
      Move (.finishing t snap) a (fun _ => True) fun _ => .finishing t snap
  | finish {t : String} {snap : Nat} :
      Move (.finishing t snap) (.unregisterSnapshot snap) (fun _ => True) fun _ => .released t
  | tidyReleased {t : String} {a : Act} (ha : Tidy t a) :
      Move (.released t) a (fun _ => True) fun _ => .released t
  | recheck {t : String} :
      Move (.released t) (.getTxnState t)
        (fun r : Option TxnStateRecord => ∀ row, r = some row → row.status ≠ .committing)
        fun _ => .released t
  -- abort and sweep
  | abortLook {t : String} :
      Move (.abortStart t) (.getTxnState t) (fun _ => True)
        (Phase.onActive (fun row => .abortSeen t row none) .ended)
  | abortClaim {t : String} {row : TxnStateRecord} :
      Move (.abortSeen t row none) (.compareAndSetTxnStatus t .active .aborted) (fun _ => True)
        fun won : Bool => if won then .aborting t row.snapshotVersion none else .ended
  | tidyAborting {t : String} {snap : Nat} {sweep : Option Bool} {a : Act} (ha : Tidy t a) :
      Move (.aborting t snap sweep) a (fun _ => True) fun _ => .aborting t snap sweep
  | walAborted {t : String} {snap : Nat} {sweep : Option Bool} {reason : String} :
      Move (.aborting t snap sweep) (.appendWal (.aborted t reason)) (fun _ => True)
        fun _ => .aborting t snap sweep
  | release {t : String} {snap : Nat} {sweep : Option Bool} :
      Move (.aborting t snap sweep) (.unregisterSnapshot snap) (fun _ => True)
        fun _ => match sweep with
          | some collects => .sweeping collects
          | none => .released t
  | scan {b : Bool} {cutoff : Int} :
      Move (.sweeping b) (.scanStale cutoff) (fun _ => True) fun _ => .sweeping b
  | sweepLook {b : Bool} {t : String} :
      Move (.sweeping b) (.getTxnState t) (fun _ => True)
        (Phase.onActive (fun row => .abortSeen t row (some b)) (.sweeping b))
  | sweepClaim {b : Bool} {t : String} {row : TxnStateRecord} :
      Move (.abortSeen t row (some b)) (.compareAndSetTxnStatus t .active .aborted) (fun _ => True)
        fun won : Bool => if won then .aborting t row.snapshotVersion (some b) else .sweeping b
  | collect : Move (.sweeping true) .gcChainsAtActiveSnapshot (fun _ => True) fun _ => .sweeping true

/-! ## The programs follow the protocol -/

open Prog Coordinator

/-- A phase in which nothing is owed: no row is `Committing` and no pin is held on its account. -/
def Phase.Quiet : Phase → Prop
  | ended | released _ | sweeping _ | reading _ _ _ => True
  | _ => False

/-- A program that ends in a quiet phase, whatever its outcome. -/
abbrev Settles {α : Type} (p : Server α) (g : Phase) : Prop := p.Obeys Move g fun _ g' => g'.Quiet

theorem requireActive_obeys {g : Phase} {k : TxnStateRecord → Phase}
    {Q : Except XtableError TxnStateRecord → Phase → Prop}
    (hmove : Move g (.getTxnState t) (fun _ => True) (Phase.onActive k .ended))
    (hok : ∀ row, row.status = .active → Q (.ok row) (k row)) (herr : ∀ x, Q (.error x) .ended) :
    (requireActive t).Obeys Move g Q := by
  refine Obeys.perform hmove ?_
  rintro (_ | row) -
  · exact herr _
  · by_cases hrow : row.status = .active
    · simpa [Phase.onActive, hrow] using hok row hrow
    · simpa [Phase.onActive, hrow] using herr _

theorem begin_obeys (t : String) (idem : Option String) (now : Int) :
    Settles (Coordinator.begin t idem now) (.begin t idem now) := by
  refine Obeys.perform .capture fun snap _ => ?_
  refine Obeys.perform .putRow fun _ _ => ?_
  refine Obeys.perform .lockBegin ?_
  rintro _ rfl
  exact Obeys.act .walBegin fun _ _ => trivial

theorem spill_obeys (env : Env) {key : String} {body : Bytes} {txn : TxnStateRecord} :
    (spill env t key body).Obeys Move (.staging t key txn) fun r g =>
      (∃ h, r = .ok h) ∧ g = .staging t key txn := by
  unfold spill
  split
  · refine Obeys.perform .stageFile fun _ _ => ?_
    refine Obeys.perform .stageBlob fun _ _ => ?_
    exact ⟨⟨_, rfl⟩, rfl⟩
  · exact ⟨⟨_, rfl⟩, rfl⟩

theorem stage_obeys (env : Env) (t key : String) (body : Bytes) (contentType : Option String)
    (userMeta : List (String × String)) (deleted : Bool) :
    Settles (stage env t key body contentType userMeta deleted) (.stageStart t key) := by
  refine Obeys.bind (requireActive_obeys .stageRequire ?_ fun _ => trivial)
  intro txn _
  refine Obeys.bind ((spill_obeys env).mono ?_)
  rintro _ _ ⟨⟨handle, rfl⟩, rfl⟩
  refine Obeys.perform .stageWal fun _ _ => ?_
  refine Obeys.perform .stageEntry fun _ _ => ?_
  by_cases hkey : key ∈ txn.writeKeys
  · simp only [hkey, if_true, bind_eq]
    exact Obeys.act (.stageKnown hkey) fun _ _ => trivial
  · simp only [hkey, if_false, bind_eq]
    refine Obeys.perform (.stageNote hkey) fun _ _ => ?_
    exact Obeys.act .stageRegister fun _ _ => trivial

theorem read_obeys (t key : String) (version : Nat) (etag : String) :
    Settles (Coordinator.read t key version etag) (.readStart t key) := by
  refine Obeys.bind (requireActive_obeys .readRequire ?_ fun _ => trivial)
  intro txn _
  refine Obeys.perform .readRegister fun _ _ => ?_
  by_cases hkey : key ∈ txn.readKeys
  · simp only [hkey, if_true]
    trivial
  · simp only [hkey, if_false]
    exact Obeys.act (.readNote hkey) fun _ _ => trivial

theorem heartbeat_obeys (t : String) (now : Int) : Settles (heartbeat t now) (.beatStart t) := by
  refine Obeys.bind (requireActive_obeys .beatRequire ?_ fun _ => trivial)
  intro txn _
  exact Obeys.act .beatNote fun _ _ => trivial

/-! ### Commit -/

theorem replay_obeys {g : Phase} {rec : TxnStateRecord} {Q : Except XtableError Nat → Phase → Prop}
    (hQ : ∀ r, Q r g) : (Coordinator.replay rec).Obeys Move g Q := by
  unfold Coordinator.replay
  split <;> exact hQ _

theorem claim_obeys (t : String) :
    (claim t).Obeys Move (.commitStart t) fun r g =>
      match r with
      | .ok none => g = .owned t
      | _ => g.Quiet := by
  refine Obeys.perform .commitLook ?_
  rintro (_ | row) -
  · exact trivial
  by_cases hrow : row.status = .active
  · simp only [hrow, if_true, Phase.onActive]
    refine Obeys.perform .commitClaim ?_
    rintro (_ | _) -
    · refine Obeys.perform .commitReplay ?_
      rintro (_ | state) -
      · exact trivial
      · exact Obeys.bind (replay_obeys (by rintro (_ | _) <;> trivial))
    · exact rfl
  · simp only [hrow, if_false, Phase.onActive]
    exact Obeys.bind (replay_obeys (by rintro (_ | _) <;> trivial))

theorem stagedBody_obeys (we : WriteSetEntry) :
    (stagedBody we).Obeys Move (.loaded t row) fun _ g => g = .loaded t row := by
  unfold stagedBody
  split
  · rfl
  · rfl
  · refine Obeys.perform .loadBlob ?_
    rintro (_ | blob) -
    · rfl
    · refine Obeys.perform .loadFile ?_
      rintro (_ | body) - <;> rfl

theorem materialize_obeys (ws : WriteSet) (bodies : Table String Bytes) :
    (materialize bodies ws).Obeys Move (.loaded t row) fun _ g => g = .loaded t row := by
  induction ws generalizing bodies with
  | nil => rfl
  | cons x rest ih =>
    refine Obeys.bind ((stagedBody_obeys x.2).mono ?_)
    rintro (_ | body) _ rfl
    · rfl
    · exact ih _

theorem storeAborted_obeys (reason : String) :
    (Coordinator.storeAborted t row reason).Obeys Move (.loaded t row) fun r g =>
      r = .ok () ∧ g = .aborting t row.snapshotVersion none := by
  refine Obeys.perform .giveUp fun _ _ => ?_
  exact Obeys.act .storeAborted fun _ _ => ⟨rfl, rfl⟩

/-- Where the owned part of a commit can stop: still with the row as it was loaded, or done. -/
def Phase.Stopped (t : String) (g : Phase) : Prop := (∃ row, g = .loaded t row) ∨ g = .released t

theorem checkSnapshot_obeys {v : Nat} (keys passed : List String) :
    (checkSnapshot t row keys).Obeys Move (.allocated t row v passed) fun r g =>
      match r with
      | .ok _ => ∃ passed', g = .allocated t row v passed' ∧ ∀ k, k ∈ keys ∨ k ∈ passed → k ∈ passed'
      | .error _ => g = .released t := by
  induction keys generalizing passed with
  | nil => exact ⟨passed, rfl, by simp⟩
  | cons key rest ih =>
    refine Obeys.perform .check fun chain _ => ?_
    by_cases hconflict : chain.entries ≠ [] ∧ chain.latestCommitVersion > row.snapshotVersion
    · simp only [if_pos hconflict]
      refine Obeys.bind ((storeAborted_obeys _).mono ?_)
      rintro _ _ ⟨rfl, rfl⟩
      exact Obeys.perform .release fun _ _ => rfl
    · simp only [if_neg hconflict]
      refine (ih (key :: passed)).mono ?_
      rintro (x | _) g h
      · exact h
      · obtain ⟨passed', hg, hmem⟩ := h
        refine ⟨passed', hg, fun k hk => hmem k ?_⟩
        simp only [List.mem_cons] at hk ⊢
        tauto

theorem publishWrites_within {v : Nat} (bodies : Table String Bytes) (aged : String → Bool)
    (ws : WriteSet) : (publishWrites t v bodies aged ws).Within (Publishing t) := by
  refine Within.forEach fun x _ => ?_
  refine Within.perform (.memPutInvisible _ _) fun _ => ?_
  exact ⟨.memPublish _ _, fun _ => trivial⟩

theorem postCommitHook_within (env : Env) (ev : CommitEvent) :
    (Engine.postCommitHook env ev).Within (Publishing ev.txnId) := by
  refine Within.perform .pendingTake fun taken => ?_
  refine Within.bind (Within.forEach fun r _ => ?_) fun _ => Within.forEach fun s _ => ?_
  · exact ⟨.putRecordIndexWithBody _ _ _ _, fun _ => trivial⟩
  · refine Within.perform (.putSchemaIndex _ _ _) fun _ => ?_
    split
    · exact ⟨.putRecordIndexWithBody _ _ _ _, fun _ => trivial⟩
    · trivial

theorem dropSpilled_within (t : String) (we : WriteSetEntry) : (dropSpilled t we).Within (Tidy t) := by
  have hdelete : ∀ k, (Server.deleteWriteEntry t k).Within (Tidy t) :=
    fun k => ⟨.deleteWriteEntry k, fun _ => trivial⟩
  unfold dropSpilled
  split
  · trivial
  · refine Within.perform (.getBlob _) ?_
    rintro (_ | blob)
    · exact Within.perform (.deleteBlob _) fun _ => hdelete _
    · refine Within.perform (.deleteBlob _) fun _ => ?_
      exact Within.perform (.removeFile _) fun _ => hdelete _

theorem publish_obeys (env : Env) (aged : String → Bool) {v : Nat} (ws : WriteSet)
    (bodies : Table String Bytes) {g : Phase}
    (hlog : Move g (.appendWal (.committing t (row.writeKeys.insertionSort (· ≤ ·)))) (fun _ => True) fun _ =>
      .logged t row v) :
    (Coordinator.publish (Engine.postCommitHook env) aged t row ws bodies
      (row.writeKeys.insertionSort (· ≤ ·)) v).Obeys Move g fun _ g => g = .released t := by
  refine Obeys.perform hlog fun _ _ => ?_
  refine Obeys.perform .storeAlloc fun _ _ => ?_
  refine Obeys.perform .append ?_
  rintro _ rfl
  refine Obeys.perform .putVersions fun _ _ => ?_
  refine Obeys.perform .walCommitted fun _ _ => ?_
  refine Obeys.perform .walResult fun _ _ => ?_
  refine Obeys.perform .storeCommitted fun _ _ => ?_
  refine Obeys.bind (((publishWrites_within _ _ _).obeys fun _ ha => .publish ha).mono ?_)
  rintro _ _ ⟨⟨_, rfl⟩, rfl⟩
  refine Obeys.perform (.publish (.markCommitted _)) fun _ _ => ?_
  refine Obeys.bind (((postCommitHook_within env _).obeys fun _ ha => .publish ha).mono ?_)
  rintro _ _ ⟨⟨_, rfl⟩, rfl⟩
  refine Obeys.perform .finish fun _ _ => ?_
  refine Obeys.bind (((Within.forEach fun x _ => dropSpilled_within t x.2).obeys fun _ ha => .tidyReleased ha).mono ?_)
  rintro _ _ ⟨⟨_, rfl⟩, rfl⟩
  rfl

theorem commitOwned_obeys (env : Env) (aged : String → Bool) (t : String) :
    (commitOwned (Engine.postCommitHook env) aged t).Obeys Move (.owned t) fun r g =>
      match r with
      | .ok _ => g = .released t
      | .error _ => g.Stopped t := by
  refine Obeys.perform .load ?_
  rintro (_ | row) hsome
  · cases hsome
  refine Obeys.perform .loadWrites fun ws _ => ?_
  refine Obeys.bind ((materialize_obeys ws ∅).mono ?_)
  rintro (x | bodies) _ rfl
  · exact .inl ⟨row, rfl⟩
  refine Obeys.perform .detect ?_
  rintro (_ | peer) -
  · -- an empty transaction keeps its snapshot as version, any other allocates one
    have hpublish : ∀ {v : Nat} {g : Phase}, Move g
        (.appendWal (.committing t (row.writeKeys.insertionSort (· ≤ ·)))) (fun _ => True)
        (fun _ => .logged t row v) →
        (Coordinator.publish (Engine.postCommitHook env) aged t row ws bodies
          (row.writeKeys.insertionSort (· ≤ ·)) v).Obeys Move g fun r g =>
            match r with
            | .ok _ => g = .released t
            | .error _ => g.Stopped t := by
      intro v g hlog
      refine (publish_obeys env aged ws bodies hlog).mono ?_
      rintro (_ | _) _ rfl
      · exact .inr rfl
      · rfl
    by_cases hkeys : row.writeKeys = []
    · have hsort : row.writeKeys.insertionSort (· ≤ ·) = [] := by simp [hkeys]
      have := hpublish (v := row.snapshotVersion) (g := .loaded t row) (hsort ▸ Move.logEmpty hkeys)
      simpa [hsort, checkSnapshot] using this
    · have hsort : row.writeKeys.insertionSort (· ≤ ·) ≠ [] := by
        simpa [← List.length_eq_zero_iff] using hkeys
      simp only [hsort, if_false]
      refine Obeys.perform (.allocate hkeys) fun v _ => ?_
      refine Obeys.bind ((checkSnapshot_obeys _ _).mono ?_)
      rintro (_ | _) g hg
      · exact .inr hg
      · obtain ⟨passed, rfl, hmem⟩ := hg
        exact hpublish (.log fun k hk => hmem k (.inl ((List.mem_insertionSort _).2 hk)))
  · refine Obeys.bind ((storeAborted_obeys _).mono ?_)
    rintro _ _ ⟨rfl, rfl⟩
    refine Obeys.perform (.tidyAborting .markAborted) fun _ _ => ?_
    exact Obeys.perform .release fun _ _ => .inr rfl

theorem reconcile_obeys {g : Phase} (cause : XtableError) (hg : g.Stopped t) :
    (reconcileFailedCommit t cause).Obeys Move g fun _ g => g = .released t := by
  rcases hg with ⟨row, rfl⟩ | rfl
  · refine Obeys.perform .reload ?_
    rintro _ ⟨rfl, hstatus, halloc⟩
    -- nothing is allocated yet, so the chains are not consulted and the commit is given up
    simp only [hstatus, halloc, if_true, pure_eq, bind_eq, ret_bind, Bool.false_eq_true, if_false]
    refine Obeys.bind ((storeAborted_obeys _).mono ?_)
    rintro _ _ ⟨rfl, rfl⟩
    refine Obeys.perform (.tidyAborting .markAborted) fun _ _ => ?_
    exact Obeys.act .release fun _ _ => rfl
  · refine Obeys.perform .recheck ?_
    rintro (_ | row) hrow
    · rfl
    · simp only [hrow row rfl, if_false]
      rfl

theorem commit_obeys (env : Env) (aged : String → Bool) (t : String) :
    Settles (Coordinator.commit (Engine.postCommitHook env) aged t) (.commitStart t) := by
  refine Obeys.bind ((claim_obeys t).mono ?_)
  rintro (_ | _ | version) g hg
  · exact hg
  · obtain rfl : g = .owned t := hg
    refine Obeys.bind (Obeys.attempt ((commitOwned_obeys env aged t).mono ?_))
    rintro (err | version) g hg
    · refine Obeys.bind ((reconcile_obeys err hg).mono ?_)
      rintro (_ | _) _ rfl <;> trivial
    · obtain rfl : g = .released t := hg
      trivial
  · exact hg

/-! ### Abort and sweep -/

theorem dropStaged_within (t : String) (we : WriteSetEntry) : (dropStaged t we).Within (Tidy t) := by
  have hdelete : ∀ k, (Server.deleteWriteEntry t k).Within (Tidy t) :=
    fun k => ⟨.deleteWriteEntry k, fun _ => trivial⟩
  unfold dropStaged
  cases we.bodyHandle with
  | none => exact hdelete _
  | some handle =>
    refine Within.perform (.getBlob _) ?_
    rintro (_ | blob)
    · exact Within.perform (.deleteBlob _) fun _ => hdelete _
    · refine Within.perform (.removeFile _) fun _ => ?_
      exact Within.perform (.deleteBlob _) fun _ => hdelete _

theorem abortStaged_obeys {snap : Nat} {sweep : Option Bool} {α : Type} (reason : String) {rest : Server α}
    {Q : Except XtableError α → Phase → Prop} (hrest : rest.Obeys Move (.aborting t snap sweep) Q) :
    (do
      let ws ← Server.iterWriteSet t
      forEach ws fun x => dropStaged t x.2
      let _ ← Server.appendWal (.aborted t reason)
      rest).Obeys Move (.aborting t snap sweep) Q := by
  refine Obeys.perform (.tidyAborting .iterWriteSet) fun ws _ => ?_
  refine Obeys.bind (((Within.forEach fun x _ => dropStaged_within t x.2).obeys fun _ ha => .tidyAborting ha).mono ?_)
  rintro _ _ ⟨⟨_, rfl⟩, rfl⟩
  exact Obeys.perform .walAborted fun _ _ => hrest

theorem abort_obeys (t : String) : Settles (Coordinator.abort t) (.abortStart t) := by
  refine Obeys.perform .abortLook ?_
  rintro (_ | row) -
  · trivial
  cases hstatus : row.status with
  | active =>
    simp only [hstatus, if_true, Phase.onActive]
    refine Obeys.perform .abortClaim ?_
    rintro (_ | _) -
    · trivial
    · refine abortStaged_obeys _ ?_
      refine Obeys.perform .release fun _ _ => ?_
      exact Obeys.act (.tidyReleased .markAborted) fun _ _ => trivial
  | committing | committed | aborted => simp [Phase.onActive, hstatus, Phase.Quiet]

theorem abortTxnLocal_obeys (b : Bool) (t : String) :
    (Gc.abortTxnLocal t).Obeys Move (.sweeping b) fun r g => (∃ done, r = .ok done) ∧ g = .sweeping b := by
  refine Obeys.perform .sweepLook ?_
  rintro (_ | row) -
  · exact ⟨⟨_, rfl⟩, rfl⟩
  by_cases hrow : row.status = .active
  · simp only [hrow, if_true, Phase.onActive]
    refine Obeys.perform .sweepClaim ?_
    rintro (_ | _) -
    · exact ⟨⟨_, rfl⟩, rfl⟩
    · refine abortStaged_obeys _ ?_
      exact Obeys.perform .release fun _ _ => ⟨⟨_, rfl⟩, rfl⟩
  · simp only [hrow, if_false, Phase.onActive]
    exact ⟨⟨_, rfl⟩, rfl⟩

theorem abortEach_obeys {G : Type} {m : Protocol Act.Res G} {I : G → Prop}
    (hlocal : ∀ g t, I g → (Gc.abortTxnLocal t).Obeys m g fun r g' => (∃ done, r = .ok done) ∧ I g') {g : G} (hg : I g)
    (n : Nat) (ts : List String) : (Gc.abortEach n ts).Obeys m g fun r g' => (∃ k, r = .ok k) ∧ I g' := by
  induction ts generalizing n g with
  | nil => exact ⟨⟨_, rfl⟩, hg⟩
  | cons t rest ih =>
    refine Obeys.bind ((hlocal g t hg).mono ?_)
    rintro _ g' ⟨⟨done, rfl⟩, hg'⟩
    exact ih hg' _

theorem sweepStaleTxns_obeys (b : Bool) (now timeout : Int) :
    (Gc.sweepStaleTxns now timeout).Obeys Move (.sweeping b) fun r g => (∃ k, r = .ok k) ∧ g = .sweeping b :=
  Obeys.perform .scan fun stale _ =>
    abortEach_obeys (I := (· = Phase.sweeping b)) (fun _ t hg => hg ▸ abortTxnLocal_obeys b t) rfl 0 stale

theorem sweepAll_obeys (now timeout : Int) : Settles (Gc.sweepAll now timeout) (.sweeping true) := by
  refine Obeys.bind ((sweepStaleTxns_obeys true now timeout).mono ?_)
  rintro _ _ ⟨⟨k, rfl⟩, rfl⟩
  exact Obeys.perform .collect fun _ _ => trivial

/-! ### Programs by the actions they perform -/

section Actions

variable {P : Act → Prop}

theorem stagedBody_only (hblob : ∀ h, P (.getBlob h)) (hfile : ∀ path, P (.readFile path)) (we : WriteSetEntry) :
    (stagedBody we).Only P := by
  unfold stagedBody
  split
  · trivial
  · trivial
  · refine Only.perform (hblob _) fun blob => ?_
    cases blob with
    | none => trivial
    | some blob =>
      refine Only.perform (hfile _) fun body => ?_
      cases body <;> trivial

theorem materialize_only (hblob : ∀ h, P (.getBlob h)) (hfile : ∀ path, P (.readFile path)) (bodies : Table String Bytes)
    (ws : WriteSet) : (materialize bodies ws).Only P := by
  induction ws generalizing bodies with
  | nil => trivial
  | cons x rest ih => exact (stagedBody_only hblob hfile x.2).bind fun _ => ih _

theorem allPublished_only (hread : ∀ key, P (.readChain key)) (alloc : List (String × Nat)) :
    (allPublished t alloc).Only P := by
  induction alloc with
  | nil => trivial
  | cons x rest ih =>
    refine Only.perform (hread _) fun chain => ?_
    split
    · exact ih
    · trivial

/-- Actions that touch no row, no write-set row, no chain and not the log, and make no transaction known. -/
def Act.Idle : Act → Prop
  | putTxnState _ _ | deleteTxnState _ | compareAndSetTxnStatus _ _ _ | deleteWriteEntry _ _ | appendChainEntriesBulk _
  | appendWal _ | truncateWal _ | lockBeginTxn _ _ => False
  | _ => True

/-- What a call does to drop a transaction. -/
inductive DropAct (t : String) : Act → Prop where
  | idle {a : Act} (ha : a.Idle) : DropAct t a
  | log {r : WalRecord} (hid : r.txnId = some t) : DropAct t (.appendWal r)
  | drop {k : String} : DropAct t (.deleteWriteEntry t k)

/-- What a commit does when it has read the row, begun at `snap`; `moved` says that the row was not `Active`. -/
inductive CommitAct (t : String) (snap : Nat) (moved : Prop) : Act → Prop where
  | drop {a : Act} (ha : DropAct t a) : CommitAct t snap moved a
  | put {r : TxnStateRecord} (hsnap : r.snapshotVersion = snap) (hst : moved → r.status ≠ .active) :
      CommitAct t snap moved (.putTxnState t r)
  | append {entries : List (String × VersionEntry × Nat)} (h : ∀ x ∈ entries, x.2.1.txnId = t) :
      CommitAct t snap moved (.appendChainEntriesBulk entries)

theorem CommitAct.idle {snap : Nat} {moved : Prop} {a : Act} (ha : a.Idle) : CommitAct t snap moved a := .drop (.idle ha)

theorem CommitAct.log {snap : Nat} {moved : Prop} {r : WalRecord} (hid : r.txnId = some t) :
    CommitAct t snap moved (.appendWal r) := .drop (.log hid)

theorem Publishing.idle {a : Act} (h : Publishing t a) : a.Idle := by
  cases h <;> trivial

theorem Tidy.drop {a : Act} (h : Tidy t a) : DropAct t a := by
  cases h with
  | deleteWriteEntry k => exact .drop
  | _ => exact .idle trivial

theorem storeAborted_only {moved : Prop} (reason : String) :
    (Coordinator.storeAborted t row reason).Only (CommitAct t row.snapshotVersion moved) := by
  refine Only.perform (.log rfl) fun _ => ?_
  exact ⟨.put rfl fun _ => nofun, fun _ => trivial⟩

theorem checkSnapshot_only {moved : Prop} (keys : List String) :
    (checkSnapshot t row keys).Only (CommitAct t row.snapshotVersion moved) := by
  induction keys with
  | nil => trivial
  | cons key rest ih =>
    refine Only.perform (.idle trivial) fun chain => ?_
    by_cases hconflict : chain.entries ≠ [] ∧ chain.latestCommitVersion > row.snapshotVersion
    · simp only [if_pos hconflict]
      refine (storeAborted_only _).bind fun _ => ?_
      exact Only.perform (.idle trivial) fun _ => trivial
    · simp only [if_neg hconflict]
      exact ih

theorem publish_only (env : Env) (aged : String → Bool) (ws : WriteSet) (bodies : Table String Bytes)
    (keys : List String) (v : Nat) :
    (Coordinator.publish (Engine.postCommitHook env) aged t row ws bodies keys v).Only
      (CommitAct t row.snapshotVersion (row.status ≠ .active)) := by
  refine Only.perform (.log rfl) fun _ => ?_
  refine Only.perform (.put rfl id) fun _ => ?_
  refine Only.perform (.append ?_) fun r => ?_
  · intro x hx
    obtain ⟨y, -, rfl⟩ := List.mem_map.1 hx
    exact chainEntry_txnId t ws y.1 y.2
  cases r with
  | error err => trivial
  | ok _ =>
    refine Only.perform (.idle trivial) fun _ => ?_
    refine Only.perform (.log rfl) fun _ => ?_
    refine Only.perform (.log rfl) fun _ => ?_
    refine Only.perform (.put rfl fun _ => nofun) fun _ => ?_
    refine ((publishWrites_within (t := t) bodies aged ws).only fun _ h => .idle h.idle).bind fun _ => ?_
    refine Only.perform (.idle trivial) fun _ => ?_
    refine ((postCommitHook_within env _).only fun _ h => .idle h.idle).bind fun _ => ?_
    refine Only.perform (.idle trivial) fun _ => ?_
    exact ((Within.forEach fun x _ => dropSpilled_within t x.2).only fun _ h => .drop h.drop).bind fun _ => trivial

/-! ### Commit and abort, by what they do with the row

The rules say what a protocol has to allow: the look at the row, and what follows when it has been read.
-/

section Rules

variable {G : Type} {m : Protocol Act.Res G} {g : G} {A : Option TxnStateRecord → Prop} {N : Option TxnStateRecord → G}

theorem claim_walk {W : Bool → G} (hlook : m g (.getTxnState t) (fun _ => True) fun _ => g)
    (hclaim : m g (.compareAndSetTxnStatus t .active .committing) (fun _ => True) W) (hlost : W false = g) :
    (claim t).Obeys m g fun r g' =>
      match r with
      | .ok none => g' = W true
      | _ => g' = g := by
  have hreplay : ∀ rec : TxnStateRecord, ((Coordinator.replay rec).bind fun v => (ret (some v) : Server (Option Nat))).Obeys
      m g fun r g' =>
        match r with
        | .ok none => g' = W true
        | _ => g' = g := by
    intro rec
    unfold Coordinator.replay
    split <;> rfl
  refine Obeys.perform hlook fun row _ => ?_
  cases row with
  | none => rfl
  | some row =>
    by_cases hrow : row.status = .active
    · simp only [hrow, if_true]
      refine Obeys.perform hclaim fun won _ => ?_
      cases won with
      | true => rfl
      | false =>
        rw [hlost]
        refine Obeys.perform hlook fun state _ => ?_
        cases state with
        | none => rfl
        | some state => exact hreplay state
    · simp only [hrow, if_false]
      exact hreplay row

theorem commitOwned_walk (env : Env) (aged : String → Bool) {N' : TxnStateRecord → G} (hlook : m g (.getTxnState t) A N)
    (hread : ∀ txn, A (some txn) → m (N (some txn)) (.iterWriteSet t) (fun _ => True) fun _ => N' txn)
    (hacts : ∀ txn, A (some txn) → ∀ a, CommitAct t txn.snapshotVersion (txn.status ≠ .active) a →
      m (N' txn) a (fun _ => True) fun _ => N' txn) :
    (commitOwned (Engine.postCommitHook env) aged t).Obeys m g fun _ g' =>
      A none ∧ g' = N none ∨ ∃ txn, A (some txn) ∧ g' = N' txn := by
  refine Obeys.perform hlook fun row hrow => ?_
  cases row with
  | none => exact .inl ⟨hrow, rfl⟩
  | some txn =>
    refine Obeys.perform (hread txn hrow) fun ws _ => ?_
    refine (Only.obeys ?_ (hacts txn hrow)).mono fun _ _ h => .inr ⟨txn, hrow, h⟩
    refine (materialize_only (fun _ => .idle trivial) (fun _ => .idle trivial) ∅ ws).bind fun bodies => ?_
    refine Only.perform (.idle trivial) fun peer => ?_
    cases peer with
    | some peer =>
      refine (storeAborted_only _).bind fun _ => ?_
      refine Only.perform (.idle trivial) fun _ => ?_
      exact Only.perform (.idle trivial) fun _ => trivial
    | none =>
      have hrest : ∀ v, ((checkSnapshot t txn (txn.writeKeys.insertionSort (· ≤ ·))).bind fun _ =>
          Coordinator.publish (Engine.postCommitHook env) aged t txn ws bodies
            (txn.writeKeys.insertionSort (· ≤ ·)) v).Only (CommitAct t txn.snapshotVersion (txn.status ≠ .active)) :=
        fun v => (checkSnapshot_only _).bind fun _ => publish_only env aged ws bodies _ v
      by_cases hkeys : txn.writeKeys.insertionSort (· ≤ ·) = []
      · simp only [if_pos hkeys]
        exact hrest txn.snapshotVersion
      · simp only [if_neg hkeys]
        exact Only.perform (.idle trivial) hrest

theorem reconcile_walk (cause : XtableError) (hlook : m g (.getTxnState t) A N)
    (hacts : ∀ txn, A (some txn) → ∀ a, CommitAct t txn.snapshotVersion True a →
      m (N (some txn)) a (fun _ => True) fun _ => N (some txn)) :
    (reconcileFailedCommit t cause).Obeys m g fun _ g' => ∃ r, A r ∧ g' = N r := by
  refine Obeys.perform hlook fun row hrow => ?_
  cases row with
  | none => exact ⟨none, hrow, rfl⟩
  | some txn =>
    refine (Only.obeys ?_ (hacts txn hrow)).mono fun _ _ h => ⟨some txn, hrow, h⟩
    have hend : ∀ published : Bool, (if published = true then do
          Server.putTxnState t { txn with status := .committed }
          Server.markCommitted t txn.lastVersion
          Server.unregisterSnapshot txn.snapshotVersion
        else do
          Coordinator.storeAborted t txn ("commit failed before publish: " ++ cause.display)
          Server.markAborted t
          Server.unregisterSnapshot txn.snapshotVersion : Server Unit).Only (CommitAct t txn.snapshotVersion True) := by
      intro published
      split
      · refine Only.perform (.put rfl fun _ => nofun) fun _ => ?_
        refine Only.perform (.idle trivial) fun _ => ?_
        exact ⟨.idle trivial, fun _ => trivial⟩
      · refine (storeAborted_only _).bind fun _ => ?_
        refine Only.perform (.idle trivial) fun _ => ?_
        exact ⟨.idle trivial, fun _ => trivial⟩
    by_cases hst : txn.status = .committing
    · simp only [if_pos hst]
      by_cases halloc : txn.allocVersions = []
      · simp only [if_pos halloc]
        exact hend false
      · simp only [if_neg halloc]
        exact (allPublished_only (fun _ => .idle trivial) _).bind hend
    · simp only [if_neg hst]
      trivial

theorem abortStaged_within {α : Type} (reason : String) {rest : Server α} (hrest : rest.Within (DropAct t)) :
    (do
      let ws ← Server.iterWriteSet t
      forEach ws fun x => dropStaged t x.2
      let _ ← Server.appendWal (.aborted t reason)
      rest).Within (DropAct t) := by
  refine Within.perform (.idle trivial) fun ws => ?_
  refine ((Within.forEach fun x _ => dropStaged_within t x.2).mono fun _ h => h.drop).bind fun _ => ?_
  exact Within.perform (.log rfl) fun _ => hrest

variable {W : TxnStateRecord → Bool → G} (hlook : m g (.getTxnState t) (fun _ => True) N)
  (hclaim : ∀ row, m (N (some row)) (.compareAndSetTxnStatus t .active .aborted) (fun _ => True) (W row))
  (hdrop : ∀ row a, DropAct t a → m (W row true) a (fun _ => True) fun _ => W row true)

include hlook hclaim hdrop

theorem abort_walk :
    (Coordinator.abort t).Obeys m g fun _ g' => (∃ r, g' = N r) ∨ ∃ row won, g' = W row won := by
  refine Obeys.perform hlook fun row _ => ?_
  cases row with
  | none => exact .inl ⟨_, rfl⟩
  | some row =>
    cases hst : row.status with
    | committed | aborted | committing =>
      simp only [hst]
      exact .inl ⟨_, rfl⟩
    | active =>
      simp only [hst]
      refine Obeys.perform (hclaim row) fun won _ => ?_
      cases won with
      | false => exact .inr ⟨row, false, rfl⟩
      | true =>
        refine ((abortStaged_within _ ?_).obeys (hdrop row)).mono fun _ _ h => .inr ⟨row, true, h.2⟩
        refine Within.perform (.idle trivial) fun _ => ?_
        exact ⟨.idle trivial, fun _ => trivial⟩

theorem abortTxnLocal_walk : (Gc.abortTxnLocal t).Obeys m g fun r g' =>
    (∃ done, r = .ok done) ∧ ((∃ r, g' = N r) ∨ ∃ row won, g' = W row won) := by
  refine Obeys.perform hlook fun row _ => ?_
  cases row with
  | none => exact ⟨⟨_, rfl⟩, .inl ⟨_, rfl⟩⟩
  | some row =>
    by_cases hrow : row.status = .active
    · simp only [hrow, if_true]
      refine Obeys.perform (hclaim row) fun won _ => ?_
      cases won with
      | false => exact ⟨⟨_, rfl⟩, .inr ⟨row, false, rfl⟩⟩
      | true =>
        refine ((abortStaged_within _ ?_).obeys (hdrop row)).mono fun _ _ h => ⟨h.1, .inr ⟨row, true, h.2⟩⟩
        exact Within.perform (.idle trivial) fun _ => trivial
    · simp only [hrow, if_false]
      exact ⟨⟨_, rfl⟩, .inl ⟨_, rfl⟩⟩

end Rules

end Actions

/-! ### All calls -/

/-- The phase a call starts in. -/
def Call.start : Call → Phase
  | begin t idem now => .begin t idem now
  | stage t key _ _ _ _ => .stageStart t key
  | read t key _ _ => .readStart t key
  | heartbeat t _ => .beatStart t
  | commit t _ => .commitStart t
  | abort t => .abortStart t
  | sweepStale _ _ => .sweeping false
  | sweep _ _ => .sweeping true

theorem Call.body_obeys (env : Env) (c : Call) : Settles (c.body env) c.start := by
  have wrap : ∀ {α : Type} {p : Server α} {f : α → Server Reply} {g : Phase}, Settles p g →
      (∀ a, ∃ r, f a = ret r) → Settles (p >>= f) g := by
    intro α p f g hp hf
    refine Obeys.bind (hp.mono ?_)
    rintro (x | a) g' hg
    · exact hg
    · obtain ⟨r, hr⟩ := hf a
      simpa [hr] using hg
  cases c with
  | begin t idem now => exact wrap (begin_obeys t idem now) fun _ => ⟨_, rfl⟩
  | stage t key body contentType userMeta deleted =>
    exact wrap (stage_obeys env t key body contentType userMeta deleted) fun _ => ⟨_, rfl⟩
  | read t key version etag => exact wrap (read_obeys t key version etag) fun _ => ⟨_, rfl⟩
  | heartbeat t now => exact wrap (heartbeat_obeys t now) fun _ => ⟨_, rfl⟩
  | commit t aged => exact wrap (commit_obeys env aged t) fun _ => ⟨_, rfl⟩
  | abort t => exact wrap (abort_obeys t) fun _ => ⟨_, rfl⟩
  | sweepStale now timeout =>
    refine wrap ((sweepStaleTxns_obeys false now timeout).mono ?_) fun _ => ⟨_, rfl⟩
    rintro _ _ ⟨-, rfl⟩
    trivial
  | sweep now timeout => exact wrap (sweepAll_obeys now timeout) fun _ => ⟨_, rfl⟩

end Xtable
