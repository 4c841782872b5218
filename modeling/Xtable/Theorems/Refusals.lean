import Xtable.Theorems.Bodies
import Xtable.Theorems.LockEdges
import Xtable.Theorems.Replays

/-! The lock manager names only keys that a transaction has read or staged. A transaction that staged nothing has no
    out-edges, and one whose keys no other transaction touches has no in-edges. -/

namespace Xtable

namespace SiLockManager

variable {m m' : SiLockManager} {g : Growth} {t key : String} {v : Nat} {R W : String → String → Prop}

/-- The indexes and the edges name only reads and writes that took place. -/
structure Named (R W : String → String → Prop) (m : SiLockManager) : Prop where
  readers : ∀ k, ∀ r ∈ m.readers k, R r k
  writers : ∀ k, ∀ view ∈ m.writers k, W view.txnId k
  ins : ∀ (t : String) locks, m.byTxn[t]? = some locks → ∀ e ∈ locks.inEdges, R t e.key ∧ W e.peer e.key
  outs : ∀ (t : String) locks, m.byTxn[t]? = some locks → ∀ e ∈ locks.outEdges, W t e.key ∧ R e.peer e.key

namespace Named

theorem empty : Named R W {} :=
  ⟨by simp [SiLockManager.readers], by simp [SiLockManager.writers], by simp, by simp⟩

theorem grow (h : m.Named R W) (hg : m.Grows m' g) (hreaders : ∀ k, ∀ r ∈ m'.readers k, R r k)
    (hwriters : ∀ k, ∀ view ∈ m'.writers k, W view.txnId k)
    (hins : ∀ t, ∀ e ∈ g.ins t, R t e.key ∧ W e.peer e.key)
    (houts : ∀ t, ∀ e ∈ g.outs t, W t e.key ∧ R e.peer e.key) : m'.Named R W := by
  refine ⟨hreaders, hwriters, fun t locks' hlocks' e he => ?_, fun t locks' hlocks' e he => ?_⟩
  all_goals
    obtain ⟨locks, hlocks, rfl⟩ := hg.before hlocks'
    rcases List.mem_append.1 he with he | he
  · exact h.ins t locks hlocks e he
  · exact hins t e he
  · exact h.outs t locks hlocks e he
  · exact houts t e he

theorem beginTxn (h : m.Named R W) (t : String) (v : Nat) : (m.beginTxn t v).2.Named R W := by
  cases hlocks : m.byTxn[t]? with
  | some locks =>
    rw [beginTxn_fails (by simp [hlocks])]
    exact h
  | none =>
    obtain ⟨hreaders, hwriters⟩ := indexes_beginTxn m t v
    refine ⟨hreaders ▸ h.readers, hwriters ▸ h.writers, fun x locks hx e he => ?_, fun x locks hx e he => ?_⟩
    all_goals
      rw [get_beginTxn hlocks] at hx
      split at hx
    · cases hx
      cases he
    · exact h.ins x locks hx e he
    · cases hx
      cases he
    · exact h.outs x locks hx e he

theorem registerRead (h : m.Named R W) (hread : R t key) (etag : String) : (m.registerRead t key v etag).Named R W := by
  refine h.grow (registerRead_grows m t key v etag) (fun k r hr => ?_) h.writers (fun x e he => ?_) fun x e he => by cases he
  · rw [readers_registerRead] at hr
    split at hr
    case isTrue hk =>
      rcases List.mem_append.1 hr with hr | hr
      · exact h.readers k r hr
      · obtain rfl := List.mem_singleton.1 hr
        exact hk ▸ hread
    case isFalse => exact h.readers k r hr
  · by_cases hx : t = x
    · subst hx
      simp only [readGrowth, if_true, readEdges, List.mem_map, List.mem_filter] at he
      obtain ⟨view, ⟨hview, -⟩, rfl⟩ := he
      exact ⟨hread, h.writers key view hview⟩
    · simp [readGrowth, hx] at he

theorem registerWrite (h : m.Named R W) (hwrite : W t key) : (m.registerWrite t key v).Named R W := by
  have hother : ∀ {r}, r ∈ m.otherReaders t key → R r key := fun hr => h.readers key _ (Mirrored.mem_otherReaders.1 hr).1
  refine h.grow (registerWrite_grows m t key v) h.readers (fun k view hview => ?_) (fun x e he => ?_) fun x e he => ?_
  · rw [writers_registerWrite] at hview
    split at hview
    case isTrue hk =>
      rcases List.mem_append.1 hview with hview | hview
      · exact h.writers k view hview
      · obtain rfl := List.mem_singleton.1 hview
        exact hk ▸ hwrite
    case isFalse => exact h.writers k view hview
  · obtain ⟨hcount, rfl⟩ := List.mem_replicate.1 he
    exact ⟨hother (List.count_pos_iff.1 (Nat.pos_of_ne_zero hcount)), hwrite⟩
  · by_cases hx : t = x
    · subst hx
      simp only [writeGrowth, if_true, List.mem_map] at he
      obtain ⟨reader, hreader, rfl⟩ := he
      exact ⟨hwrite, hother hreader⟩
    · simp [writeGrowth, hx] at he

theorem markCommitted (h : m.Named R W) (t : String) (v : Nat) : (m.markCommitted t v).Named R W := by
  obtain ⟨ins, hgrows, hins⟩ := markCommitted_grows m t v
  refine h.grow hgrows h.readers (fun k view' hview' => ?_) (fun x e he => ?_) fun x e he => by cases he
  · rw [writers_markCommitted, List.mem_map] at hview'
    obtain ⟨view, hview, rfl⟩ := hview'
    have hw := h.writers k view hview
    split <;> exact hw
  · obtain ⟨rfl, locks, hlocks, o, ho, rfl, hkey⟩ := hins x e he
    obtain ⟨hwrite, hread⟩ := h.outs _ locks hlocks o ho
    exact hkey ▸ ⟨hread, hwrite⟩

theorem markAborted (h : m.Named R W) (t : String) : (m.markAborted t).Named R W := by
  refine ⟨fun k r hr => ?_, fun k view hview => ?_, fun x locks' hx e he => ?_, fun x locks' hx e he => ?_⟩
  · rw [readers_markAborted, List.mem_filter] at hr
    exact h.readers k r hr.1
  · rw [writers_markAborted, List.mem_filter] at hview
    exact h.writers k view hview.1
  all_goals
    obtain ⟨-, locks, hlocks, rfl⟩ := before_markAborted hx
    simp only [without, List.mem_filter] at he
  · exact h.ins x locks hlocks e he.1
  · exact h.outs x locks hlocks e he.1

end Named

end SiLockManager

/-! ## Calls -/

def Call.Stages (env : Env) (w : World) (c : Call) (t key : String) : Prop :=
  (∃ body contentType userMeta deleted, c = .stage t key body contentType userMeta deleted) ∧
    (c.run env w).1 = .ok .done

def Call.Reads (env : Env) (w : World) (c : Call) (t key : String) : Prop :=
  (∃ version etag, c = .read t key version etag) ∧ (c.run env w).1 = .ok .done

/-- The operation of the lock manager that a call makes. -/
inductive Call.Drives (env : Env) (w : World) : Call → LockOp → Prop where
  | begin {t : String} {idem : Option String} {now : Int} : Drives env w (.begin t idem now) (.beginTxn t w.store.globalVersion)
  | stage {c : Call} {t key : String} {v : Nat} (h : c.Stages env w t key) : Drives env w c (.registerWrite t key v)
  | read {c : Call} {t key : String} {v : Nat} {etag : String} (h : c.Reads env w t key) :
      Drives env w c (.registerRead t key v etag)
  | commit {t : String} {aged : String → Bool} {v : Nat} : Drives env w (.commit t aged) (.markCommitted t v)
  | refuse {t : String} {aged : String → Bool} : Drives env w (.commit t aged) (.markAborted t)
  | abort {t : String} : Drives env w (.abort t) (.markAborted t)

section Calls

variable {env : Env} {w w' : World} {t : String} {row : TxnStateRecord} {c : Call}

theorem Call.stages_of_active (key : String) (body : Bytes) (contentType : Option String)
    (userMeta : List (String × String)) (deleted : Bool) (hrow : w.store.getTxnState t = some row)
    (hst : row.status = .active) : (Call.stage t key body contentType userMeta deleted).Stages env w t key := by
  refine ⟨⟨_, _, _, _, rfl⟩, ?_⟩
  have hrun := Prog.run_bind_ok World.exec (stage_run env key body contentType userMeta deleted hrow hst)
    (f := fun _ => (pure Reply.done : Server Reply))
  exact congrArg Prod.fst hrun

theorem locks_sweptStale (w : World) (now timeout : Int) : (w.sweptStale now timeout).locks = w.locks :=
  sweptStale_frame World.locks (fun w _ _ => locks_discarded w) w now timeout

theorem Call.reads_of_active (key : String) (version : Nat) (etag : String) (hrow : w.store.getTxnState t = some row)
    (hst : row.status = .active) : (Call.read t key version etag).Reads env w t key := by
  refine ⟨⟨_, _, rfl⟩, ?_⟩
  have hrun := Prog.run_bind_ok World.exec (read_run key version etag hrow hst)
    (f := fun _ => (pure Reply.done : Server Reply))
  exact congrArg Prod.fst hrun

theorem CallEffect.drives (h : CallEffect env w c w') :
    w'.locks = w.locks ∨ ∃ op, c.Drives env w op ∧ w'.locks = op.apply w.locks := by
  cases h with
  | unchanged | heartbeat => exact .inl rfl
  | begin _ hlocks => exact .inr ⟨_, .begin, by simp [World.begun, LockOp.apply, SiLockManager.beginTxn, hlocks]⟩
  | stage hrow hst => exact .inr ⟨_, .stage (Call.stages_of_active _ _ _ _ _ hrow hst), rfl⟩
  | read hrow hst => exact .inr ⟨_, .read (Call.reads_of_active _ _ _ hrow hst), rfl⟩
  | commit h =>
    cases h with
    | unknown | settled => exact .inl rfl
    | unstaged | dangerous => exact .inr ⟨_, .refuse, rfl⟩
    | conflict => exact .inl (locks_bumped _)
    | published => exact .inr ⟨_, .commit, by rw [locks_published, locks_bumped]; rfl⟩
  | @abort t row =>
    have hlocks : (w.discarded t row "explicit abort").locks = w.locks := locks_discarded w _
    exact .inr ⟨_, .abort, congrArg (SiLockManager.markAborted · t) hlocks⟩
  | sweepStale | sweep => exact .inl (locks_sweptStale ..)

theorem writeKeys_sweptStale (w : World) (now timeout : Int) {row' : TxnStateRecord}
    (hrow' : (w.sweptStale now timeout).store.getTxnState t = some row') :
    ∃ row, w.store.getTxnState t = some row ∧ row'.writeKeys = row.writeKeys := by
  refine sweptStale_keeps (P := fun u => ∀ row', u.store.getTxnState t = some row' → ∃ row, w.store.getTxnState t = some row ∧
    row'.writeKeys = row.writeKeys) ?_ (fun row' hrow' => ⟨row', hrow', rfl⟩) now timeout row' hrow'
  intro u t₀ row hkeep hrow _ row' hrow'
  rw [txnState_discarded] at hrow'
  split at hrow'
  case isTrue ht =>
    cases hrow'
    exact hkeep row (ht ▸ hrow)
  case isFalse => exact hkeep row' hrow'

theorem CallEffect.writeKeys {key : String} {row' : TxnStateRecord} (h : CallEffect env w c w')
    (hrow' : w'.store.getTxnState t = some row') (hkey : key ∈ row'.writeKeys) :
    (∃ row, w.store.getTxnState t = some row ∧ key ∈ row.writeKeys) ∨ c.Stages env w t key := by
  -- a row that only changes in other fields
  have hsame : ∀ {t₀ : String} {row₀ row₁ : TxnStateRecord}, w.store.getTxnState t₀ = some row₀ →
      (∀ t', w'.store.getTxnState t' = if t₀ = t' then some row₁ else w.store.getTxnState t') → row₁.writeKeys = row₀.writeKeys →
      ∃ row, w.store.getTxnState t = some row ∧ key ∈ row.writeKeys := by
    intro t₀ row₀ row₁ hrow₀ hrows hkeys
    rw [hrows] at hrow'
    split at hrow'
    case isTrue ht =>
      cases hrow'
      exact ⟨row₀, ht ▸ hrow₀, hkeys ▸ hkey⟩
    case isFalse => exact ⟨row', hrow', hkey⟩
  have hswept : ∀ {now timeout : Int}, (w.sweptStale now timeout).store.getTxnState t = some row' →
      ∃ row, w.store.getTxnState t = some row ∧ key ∈ row.writeKeys := by
    intro now timeout hrow'
    obtain ⟨row, hrow, hkeys⟩ := writeKeys_sweptStale w now timeout hrow'
    exact ⟨row, hrow, hkeys ▸ hkey⟩
  cases h with
  | unchanged => exact .inl ⟨row', hrow', hkey⟩
  | begin =>
    rw [txnState_begun] at hrow'
    split at hrow'
    · cases hrow'
      simp [TxnStateRecord.newActive] at hkey
    · exact .inl ⟨row', hrow', hkey⟩
  | @stage t₀ key₀ body contentType userMeta deleted row hrow hst =>
    have hstaged : (w.staged env t₀ key₀ body contentType userMeta deleted row).store.getTxnState t = _ :=
      txnState_staged hrow t
    have hrow₁ := hstaged.symm.trans hrow'
    split at hrow₁
    case isFalse => exact .inl ⟨row', hrow₁, hkey⟩
    case isTrue ht =>
      subst ht
      cases hrow₁
      by_cases hk : key = key₀
      · subst hk
        exact .inr (Call.stages_of_active _ _ _ _ _ hrow hst)
      · refine .inl ⟨row, hrow, ?_⟩
        unfold TxnStateRecord.withWriteKey at hkey
        split at hkey
        · exact hkey
        · simpa [TxnStateRecord.addWriteKey, hk] using hkey
  | read hrow => exact .inl (hsame hrow (txnState_noteRead hrow) (by simp))
  | heartbeat hrow => exact .inl (hsame hrow (txnState_put _ _ _) rfl)
  | commit h =>
    rcases h.rows with ⟨rfl, -⟩ | ⟨row, row₁, hrow, -, hrow₁, hrows⟩
    · exact .inl ⟨row', hrow', hkey⟩
    · exact .inl (hsame hrow hrows (by rcases hrow₁ with rfl | rfl <;> rfl))
  | abort hrow => exact .inl (hsame hrow (txnState_discarded w _) rfl)
  | sweepStale | sweep => exact .inl (hswept hrow')

/-- What is recorded of a transaction names only what it has read and staged. -/
structure World.Named (R W : String → String → Prop) (w : World) : Prop where
  locks : w.locks.Named R W
  rows : ∀ t row, w.store.getTxnState t = some row → ∀ k ∈ row.writeKeys, W t k
  writes : ∀ (t k : String) we, w.store.writeSet[(t, k)]? = some we → W t k

theorem World.Named.step {R W : String → String → Prop} (h : w.Named R W)
    (hstages : ∀ t k, c.Stages env w t k → W t k) (hreads : ∀ t k, c.Reads env w t k → R t k)
    (he : CallEffect env w c w') : w'.Named R W := by
  refine ⟨?_, fun t row' hrow' k hk => ?_, fun t k we hwe => ?_⟩
  · rcases he.drives with hsame | ⟨op, hop, hlocks⟩
    · exact hsame ▸ h.locks
    · rw [hlocks]
      cases hop with
      | begin => exact h.locks.beginTxn _ _
      | stage hs => exact h.locks.registerWrite (hstages _ _ hs)
      | read hr => exact h.locks.registerRead (hreads _ _ hr) _
      | commit => exact h.locks.markCommitted _ _
      | refuse | abort => exact h.locks.markAborted _
  · rcases he.writeKeys hrow' hk with ⟨row, hrow, hkey⟩ | hs
    · exact h.rows t row hrow k hkey
    · exact hstages t k hs
  · have hsheds : Sheds w w' → W t k := fun hs => h.writes t k we (hs.writes _ we hwe)
    cases he with
    | unchanged | begin | heartbeat => exact h.writes t k we hwe
    | @stage t₀ key₀ body contentType userMeta deleted row hrow hst =>
      have hset : (w.store.staged env t₀ key₀ body contentType userMeta deleted row).writeSet = _ := writeSet_staged w.store
      have hwe' : (w.store.staged env t₀ key₀ body contentType userMeta deleted row).writeSet[(t, k)]? = some we := hwe
      rw [hset, Table.get_insert] at hwe'
      split at hwe'
      case isFalse => exact h.writes t k we hwe'
      case isTrue heq =>
        obtain ⟨rfl, rfl⟩ := Prod.mk.inj heq
        exact hstages _ _ (Call.stages_of_active _ _ _ _ _ hrow hst)
    | read hrow =>
      rw [noteRead_eq hrow] at hwe
      exact h.writes t k we hwe
    | commit hc => exact hsheds (.commits hc)
    | @abort t₀ row => exact hsheds ((Sheds.discarded w t₀ row _).trans (.of_eq rfl rfl rfl rfl))
    | sweepStale => exact hsheds (.sweptStale ..)
    | @sweep now timeout => exact hsheds ((Sheds.sweptStale w now timeout).trans (.of_eq rfl rfl rfl rfl))

end Calls

section Run

variable {env : Env} {hist : List (World × Call × World)} {w : World}

def StagedIn (env : Env) (hist : List (World × Call × World)) (t key : String) : Prop :=
  ∃ x ∈ hist, x.2.1.Stages env x.1 t key

def ReadIn (env : Env) (hist : List (World × Call × World)) (t key : String) : Prop :=
  ∃ x ∈ hist, x.2.1.Reads env x.1 t key

theorem named_of_run (hrun : Run (Call.step env) {} hist w) : w.Named (ReadIn env hist) (StagedIn env hist) := by
  refine (hrun.invariant (I := fun u => Inv True u (fun _ => none) ∧ u.Named (ReadIn env hist) (StagedIn env hist))
    (C := fun u c => (∀ t k, c.Stages env u t k → StagedIn env hist t k) ∧ ∀ t k, c.Reads env u t k → ReadIn env hist t k)
    ⟨World.inv_empty True, ⟨.empty, by simp [Store.getTxnState], by simp⟩⟩ ?_ ?_).1.2
  · rintro u c v ⟨hinv, hnamed⟩ ⟨hstages, hreads⟩ hstep
    exact ⟨hinv.call_step hstep, hnamed.step hstages hreads (.of_step hinv hstep)⟩
  · exact fun x hx => ⟨fun t k hs => ⟨x, hx, hs⟩, fun t k hr => ⟨x, hx, hr⟩⟩

end Run

theorem Inv.owner_writes {gc : Prop} {w : World} (h : Inv gc w fun _ => none) {k : String} {e : VersionEntry}
    (he : e ∈ (w.store.readChain k).entries) : ∃ row, w.store.getTxnState e.txnId = some row ∧ k ∈ row.writeKeys := by
  obtain ⟨row, hrow, hst, hmem⟩ := h.sound.owned k e he
  have hlanded : w.store.ledger.Landed gc e.txnId row := by
    rcases hst with hst | hst
    · rcases h.committing _ row hrow hst with (⟨hnil, -⟩ | ⟨-, hl⟩) | ⟨i, ph, hi, -⟩
      · simp [hnil] at hmem
      · exact hl
      · cases hi
    · exact (h.sound.rows _ row hrow).committed hst
  obtain ⟨v, ha, -⟩ := hlanded
  exact ⟨row, hrow, (ha.mem hmem).1⟩

theorem commit_publishes (env : Env) {w : World} {t : String} {row : TxnStateRecord} (aged : String → Bool)
    (hinv : Inv True w fun _ => none) (hrow : w.store.getTxnState t = some row) (hst : row.status = .active)
    (hbodies : ∀ e, w.stagedBodies ∅ (w.store.iterWriteSet t) ≠ .error e) (hpeer : w.locks.findDangerousStructure t = none)
    (hkeys : ∀ k ∈ row.writeKeys, (w.store.readChain k).latestCommitVersion ≤ row.snapshotVersion) :
    ∃ v w', (Coordinator.commit (Engine.postCommitHook env) aged t).run World.exec w = (.ok v, w') ∧
      Publication env w t row w' := by
  have hends := Commits.of_inv env aged hinv t
  generalize hrun : (Coordinator.commit (Engine.postCommitHook env) aged t).run World.exec w = out at hends
  obtain ⟨r, w'⟩ := out
  cases hends with
  | unknown hnone => simp [hrow] at hnone
  | settled hrow' hst' =>
    cases hrow.symm.trans hrow'
    exact absurd hst hst'
  | unstaged _ _ herr => exact absurd herr (hbodies _)
  | dangerous _ _ _ hsome =>
    rw [hpeer] at hsome
    cases hsome
  | conflict hrow' _ _ _ hkey =>
    cases hrow.symm.trans hrow'
    obtain ⟨hmem, hnewer⟩ := Store.newerKey_some hkey
    exact absurd hnewer (Nat.not_lt.2 (hkeys _ ((List.mem_insertionSort _).1 hmem)))
  | published hrow' _ hbodies _ hkey =>
    cases hrow.symm.trans hrow'
    exact ⟨_, _, rfl, World.Ready.publication
      ⟨hrow, hst, hinv.committable hrow hst, Store.newerKey_insertionSort hkey⟩ hbodies⟩

theorem commit_ok_of {env : Env} {w : World} {t : String} {row : TxnStateRecord} (aged : String → Bool)
    (hinv : Inv True w fun _ => none) (hrow : w.store.getTxnState t = some row) (hst : row.status = .active)
    (hbodies : ∀ e, w.stagedBodies ∅ (w.store.iterWriteSet t) ≠ .error e) (hpeer : w.locks.findDangerousStructure t = none)
    (hkeys : ∀ k ∈ row.writeKeys, (w.store.readChain k).latestCommitVersion ≤ row.snapshotVersion) :
    ∃ v, ((Call.commit t aged).run env w).1 = .ok (.committed v) := by
  obtain ⟨v, w', hrun, -⟩ := commit_publishes env aged hinv hrow hst hbodies hpeer hkeys
  rw [Call.run_commit, hrun]
  exact ⟨v, rfl⟩

/-- A commit of an active transaction answers a version if the transaction has staged nothing, and also if no other
transaction has read or staged a key that it has read or staged. -/
theorem no_needless_refusals (env : Env) {hist : List (World × Call × World)} {w : World}
    (hrun : Run (Call.step env) {} hist w) (t : String) (row : TxnStateRecord) (aged : String → Bool)
    (hrow : w.store.getTxnState t = some row) (hst : row.status = .active) :
    ((∀ k, ¬ StagedIn env hist t k) → ∃ v, ((Call.commit t aged).run env w).1 = .ok (.committed v)) ∧
    ((∀ t' k, t' ≠ t → ReadIn env hist t k ∨ StagedIn env hist t k → ¬ (ReadIn env hist t' k ∨ StagedIn env hist t' k)) →
      ∃ v, ((Call.commit t aged).run env w).1 = .ok (.committed v)) := by
  obtain ⟨hinv, -⟩ := inv_of_calls hrun
  have hnamed := named_of_run hrun
  -- a peer of a dangerous structure has written what `t` has read, and read what `t` has written
  have hpeer : ∀ p, w.locks.findDangerousStructure t = some p → p ≠ t ∧
      (∃ k, ReadIn env hist t k ∧ StagedIn env hist p k) ∧ ∃ k, StagedIn env hist t k ∧ ReadIn env hist p k := by
    intro p hp
    obtain ⟨hne, locks, hlocks, ⟨i, hi, rfl⟩, o, ho, hop⟩ := SiLockManager.findDangerousStructure_eq_some hp
    exact ⟨hne, ⟨_, hnamed.locks.ins t locks hlocks i hi⟩, _, hop ▸ hnamed.locks.outs t locks hlocks o ho⟩
  have hbodies := (spills_of_calls hrun).stagedBodies_ok hrow hst
  refine ⟨fun hnone => ?_, fun hapart => ?_⟩
  · have hkeys : row.writeKeys = [] := List.eq_nil_iff_forall_not_mem.2 fun k hk => hnone k (hnamed.rows t row hrow k hk)
    refine commit_ok_of aged hinv hrow hst hbodies (Option.eq_none_iff_forall_ne_some.2 fun p hp => ?_) (by simp [hkeys])
    obtain ⟨-, -, k, hstaged, -⟩ := hpeer p hp
    exact hnone k hstaged
  · refine commit_ok_of aged hinv hrow hst hbodies (Option.eq_none_iff_forall_ne_some.2 fun p hp => ?_) fun k hk => ?_
    · obtain ⟨hne, ⟨k, hread, hstaged⟩, -⟩ := hpeer p hp
      exact hapart p k hne (.inl hread) (.inr hstaged)
    · -- the chain of a key that only `t` has staged is empty
      have hempty : (w.store.readChain k).entries = [] := by
        refine List.eq_nil_iff_forall_not_mem.2 fun e he => ?_
        obtain ⟨r, hr, hown⟩ := hinv.owner_writes he
        have hne := ((hinv.sound.rows t row hrow).active hst).2.2 k e he
        exact hapart e.txnId k hne (.inr (hnamed.rows t row hrow k hk)) (.inr (hnamed.rows _ r hr k hown))
      simp [VersionChain.latestCommitVersion, hempty]

/-- One transaction reads what another overwrites, and a third writes a key of its own. -/
def apartCalls : List Call :=
  [.begin "T" none 0, .begin "U" none 0, .begin "V" none 0, .read "T" "a" 0 "", .stage "U" "a" [1] none [] false,
    .commit "U" fun _ => false, .stage "V" "z" [2] none [] false]

/-- A transaction that only reads a key another one overwrites, and one whose key no other one touches. -/
theorem no_needless_refusals_reader : ∃ hist w v₁ v₂, Run (Call.step .sample) {} hist w ∧
    ((Call.commit "T" fun _ => false).run .sample w).1 = .ok (.committed v₁) ∧
    ((Call.commit "V" fun _ => false).run .sample w).1 = .ok (.committed v₂) := by
  obtain ⟨w, hrun, htest⟩ := Run.exists_of_exec (Call.step .sample) {} apartCalls
    (fun w => ["T", "V"].all fun t => (w.store.getTxnState t).any fun row => row.status = .active) (by decide +kernel)
  simp only [List.all_cons, List.all_nil, Bool.and_true, Bool.and_eq_true, Option.any_eq_true, decide_eq_true_eq] at htest
  obtain ⟨⟨rowT, hT, hstT⟩, rowV, hV, hstV⟩ := htest
  -- who has read and staged what, from the calls of the run
  have hstaged : ∀ t k, StagedIn .sample (history (Call.step .sample) apartCalls {}) t k → t = "U" ∧ k = "a" ∨ t = "V" ∧ k = "z" := by
    intro t k hs
    obtain ⟨x, hx, ⟨body, contentType, userMeta, deleted, hcall⟩, -⟩ := hs
    have hlabel := label_mem_of_mem_history hx
    simp only [hcall, apartCalls, List.mem_cons, reduceCtorEq, List.not_mem_nil, or_false, false_or, Call.stage.injEq] at hlabel
    tauto
  have hread : ∀ t k, ReadIn .sample (history (Call.step .sample) apartCalls {}) t k → t = "T" ∧ k = "a" := by
    intro t k hr
    obtain ⟨x, hx, ⟨version, etag, hcall⟩, -⟩ := hr
    have hlabel := label_mem_of_mem_history hx
    simp only [hcall, apartCalls, List.mem_cons, reduceCtorEq, List.not_mem_nil, or_false, false_or, Call.read.injEq] at hlabel
    tauto
  obtain ⟨v₁, h₁⟩ := (no_needless_refusals .sample hrun "T" rowT (fun _ => false) hT hstT).1 fun k hk => by
    simpa using hstaged "T" k hk
  obtain ⟨v₂, h₂⟩ := (no_needless_refusals .sample hrun "V" rowV (fun _ => false) hV hstV).2
    fun t' k hne hV' ht' => by
      have hk : k = "z" := by
        rcases hV' with hV' | hV'
        · simpa using hread "V" k hV'
        · simpa using hstaged "V" k hV'
      subst hk
      rcases ht' with ht' | ht'
      · simpa using hread t' "z" ht'
      · exact hne (by simpa using hstaged t' "z" ht')
  exact ⟨_, w, v₁, v₂, hrun, h₁, h₂⟩

end Xtable
