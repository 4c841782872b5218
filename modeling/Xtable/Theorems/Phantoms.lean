import Xtable.Theorems.FirstCommitter

/-! `mark_aborted` takes a transaction out of the lock manager, with every edge that names it. As long as every
    abort gets there, no aborted transaction can be the reason of a conflict. -/

namespace Xtable

variable {b : Table String SiTxnLocks}

namespace SiLockManager

variable {m : SiLockManager} {t t' key : String} {v : Nat}

/-- The edges of an entry do not name `t`. -/
def EdgeFree (t : String) (locks : SiTxnLocks) : Prop :=
  (∀ e ∈ locks.inEdges, e.peer ≠ t) ∧ ∀ e ∈ locks.outEdges, e.peer ≠ t

/-- The entries of a table are not `t`'s and do not name it. -/
def Unnamed (t : String) (byTxn : Table String SiTxnLocks) : Prop :=
  byTxn[t]? = none ∧ ∀ (t' : String) locks, byTxn[t']? = some locks → EdgeFree t locks

/-- The lock manager has nothing of `t`. -/
structure Free (m : SiLockManager) (t : String) : Prop where
  entries : Unnamed t m.byTxn
  readers : ∀ (key : String) list, m.readersOf[key]? = some list → t ∉ list
  writers : ∀ (key : String) list, m.writersOf[key]? = some list → ∀ w ∈ list, w.txnId ≠ t

theorem Unnamed.insert {locks : SiTxnLocks} (h : Unnamed t b) (hne : t' ≠ t) (hlocks : EdgeFree t locks) :
    Unnamed t (b.insert t' locks) := by
  refine ⟨by simp [hne, h.1], fun t'' locks' ht'' => ?_⟩
  rw [Table.get_insert] at ht''
  split at ht''
  · cases ht''
    exact hlocks
  · exact h.2 t'' locks' ht''

theorem Unnamed.ne {locks : SiTxnLocks} (h : Unnamed t b) (hlocks : b[t']? = some locks) : t' ≠ t := by
  rintro rfl
  rw [h.1] at hlocks
  cases hlocks

theorem Unnamed.update {f : SiTxnLocks → SiTxnLocks} (h : Unnamed t b)
    (hf : ∀ locks, EdgeFree t locks → EdgeFree t (f locks)) :
    Unnamed t (match b[t']? with
      | some entry => b.insert t' (f entry)
      | none => b) := by
  split
  case h_1 entry hentry => exact h.insert (h.ne hentry) (hf entry (h.2 t' entry hentry))
  case h_2 => exact h

theorem Unnamed.foldl {α : Type} {f : Table String SiTxnLocks → α → Table String SiTxnLocks}
    (hf : ∀ b x, Unnamed t b → Unnamed t (f b x)) (l : List α) (h : Unnamed t b) : Unnamed t (l.foldl f b) := by
  induction l generalizing b with
  | nil => exact h
  | cons x rest ih => exact ih (hf b x h)

theorem Unnamed.addInEdge {reader : String} {e : SIEdge} (h : Unnamed t b) (he : e.peer ≠ t) :
    Unnamed t (addInEdge b reader e) := by
  refine h.update (f := fun locks => { locks with inEdges := locks.inEdges ++ [e] }) fun locks hlocks => ⟨?_, hlocks.2⟩
  intro e' he'
  rcases List.mem_append.1 he' with he' | he'
  · exact hlocks.1 e' he'
  · rwa [List.mem_singleton.1 he']

theorem Unnamed.mirrorEdge {edge : String × String} (h : Unnamed t b) (hne : t' ≠ t) :
    Unnamed t (mirrorEdge t' v b edge) := by
  unfold SiLockManager.mirrorEdge
  split
  case h_1 peer hpeer =>
    have hlocks := h.2 edge.1 peer hpeer
    split
    · exact h
    · refine h.insert (h.ne hpeer) ⟨fun e he => ?_, hlocks.2⟩
      rcases List.mem_append.1 he with he | he
      · exact hlocks.1 e he
      · rwa [List.mem_singleton.1 he]
  case h_2 => exact h

/-! ## The operations -/

theorem Free.getD_readers (h : m.Free t) (key : String) : t ∉ (m.readersOf[key]?).getD [] := by
  cases hlist : m.readersOf[key]? with
  | none => simp
  | some list => exact h.readers key list hlist

theorem Free.getD_writers (h : m.Free t) (key : String) : ∀ w ∈ (m.writersOf[key]?).getD [], w.txnId ≠ t := by
  cases hlist : m.writersOf[key]? with
  | none => simp
  | some list => exact h.writers key list hlist

theorem Free.registerRead (h : m.Free t) (hne : t' ≠ t) (etag : String) : (m.registerRead t' key v etag).Free t := by
  refine ⟨h.entries.update fun locks hlocks => ⟨fun e he => ?_, hlocks.2⟩, fun key' list hlist => ?_, h.writers⟩
  · rcases List.mem_append.1 he with he | he
    · exact hlocks.1 e he
    · obtain ⟨w, hw, rfl⟩ := List.mem_map.1 he
      exact h.getD_writers key w (List.mem_filter.1 hw).1
  · simp only [SiLockManager.registerRead, Table.get_insert] at hlist
    split at hlist
    · cases hlist
      simpa [Ne.symm hne] using h.getD_readers key
    · exact h.readers key' list hlist

theorem Free.registerWrite (h : m.Free t) (hne : t' ≠ t) : (m.registerWrite t' key v).Free t := by
  refine ⟨?_, h.readers, fun key' list hlist => ?_⟩
  · refine Unnamed.foldl (fun b reader hb => hb.addInEdge hne) _ (h.entries.update fun locks hlocks => ⟨hlocks.1, ?_⟩)
    intro e he
    rcases List.mem_append.1 he with he | he
    · exact hlocks.2 e he
    · obtain ⟨reader, hreader, rfl⟩ := List.mem_map.1 he
      rintro rfl
      exact h.getD_readers key (List.mem_filter.1 hreader).1
  · simp only [SiLockManager.registerWrite, Table.get_insert] at hlist
    split at hlist
    · cases hlist
      intro w hw
      rcases List.mem_append.1 hw with hw | hw
      · exact h.getD_writers key w hw
      · rwa [List.mem_singleton.1 hw]
    · exact h.writers key' list hlist

/-- No list of writers names `t`. -/
def Unwritten (t : String) (writersOf : Table String (List WriterView)) : Prop :=
  ∀ (key : String) list, writersOf[key]? = some list → ∀ w ∈ list, w.txnId ≠ t

theorem Unwritten.stampWriter {b : Table String (List WriterView)} (h : Unwritten t b) :
    Unwritten t (stampWriter t' v b key) := by
  unfold SiLockManager.stampWriter
  split
  case h_1 list hlist =>
    intro key' list' hlist' w hw
    rw [Table.get_insert] at hlist'
    split at hlist'
    · cases hlist'
      obtain ⟨w₀, hw₀, rfl⟩ := List.mem_map.1 hw
      have hw₀' := h key list hlist w₀ hw₀
      split <;> exact hw₀'
    · exact h key' list' hlist' w hw
  case h_2 => exact h

theorem Free.markCommitted (h : m.Free t) (hne : t' ≠ t) : (m.markCommitted t' v).Free t := by
  refine ⟨?_, h.readers, ?_⟩
  · exact Unnamed.foldl (fun b edge hb => hb.mirrorEdge hne) _
      (h.entries.update (f := fun entry => { entry with status := .committed }) fun _ hlocks => hlocks)
  · have hfold : ∀ (keys : List String) (b : Table String (List WriterView)), Unwritten t b →
        Unwritten t (keys.foldl (SiLockManager.stampWriter t' v) b) := by
      intro keys
      induction keys with
      | nil => exact fun _ hb => hb
      | cons key rest ih => exact fun b hb => ih _ hb.stampWriter
    exact hfold _ _ h.writers

theorem markAborted_unnamed (m : SiLockManager) (t t' : String) (h : t' = t ∨ m.Free t') : (m.markAborted t).Free t' := by
  have hmapped : ∀ {μ : Type} {tbl : Table String (List μ)} {p : μ → Bool} {k : String} {list : List μ},
      (Std.ExtTreeMap.map (fun _ l => l.filter p) tbl)[k]? = some list →
        ∃ list₀, tbl[k]? = some list₀ ∧ list = list₀.filter p := by
    intro μ tbl p k list hlist
    rw [Table.get_map, Option.map_eq_some_iff] at hlist
    obtain ⟨list₀, hlist₀, rfl⟩ := hlist
    exact ⟨list₀, hlist₀, rfl⟩
  refine ⟨⟨?_, ?_⟩, ?_, ?_⟩
  · simp only [markAborted, Table.get_map, Table.get_erase, Option.map_eq_none_iff]
    rcases h with rfl | h
    · simp
    · simp [h.entries.1]
  · intro t'' locks hlocks
    simp only [markAborted, Table.get_map, Table.get_erase, Option.map_eq_some_iff] at hlocks
    obtain ⟨locks₀, hlocks₀, rfl⟩ := hlocks
    split at hlocks₀
    · cases hlocks₀
    · refine ⟨fun e he => ?_, fun e he => ?_⟩ <;> obtain ⟨he, hpeer⟩ := List.mem_filter.1 he
      · rcases h with rfl | h
        · simpa using hpeer
        · exact (h.entries.2 t'' locks₀ hlocks₀).1 e he
      · rcases h with rfl | h
        · simpa using hpeer
        · exact (h.entries.2 t'' locks₀ hlocks₀).2 e he
  · intro key list hlist
    obtain ⟨list₀, hlist₀, rfl⟩ := hmapped hlist
    rcases h with rfl | h
    · simp
    · exact fun hmem => h.readers key list₀ hlist₀ (List.mem_filter.1 hmem).1
  · intro key list hlist w hw
    obtain ⟨list₀, hlist₀, rfl⟩ := hmapped hlist
    obtain ⟨hw, hid⟩ := List.mem_filter.1 hw
    rcases h with rfl | h
    · simpa using hid
    · exact h.writers key list₀ hlist₀ w hw

theorem Free.not_dangerous (h : m.Free t) : m.findDangerousStructure t' ≠ some t := by
  unfold findDangerousStructure
  split
  · simp
  case h_2 me hme =>
    intro hfind
    simp only [Option.map_eq_some_iff] at hfind
    obtain ⟨e, he, hpeer⟩ := hfind
    exact (h.entries.2 t' me hme).2 e (List.mem_of_find?_eq_some he) hpeer

end SiLockManager

/-! ## Runs -/

/-- No aborted transaction is left in the lock manager. -/
def World.NoPhantoms (w : World) : Prop :=
  ∀ t row, w.store.getTxnState t = some row → row.status = .aborted → w.locks.Free t

/-- The calls after which the lock manager has forgotten what they abort: a sweep finds nothing stale, and a commit is
not refused for a newer version. -/
def Call.Forgets (w : World) : Call → Prop
  | .sweepStale now timeout | .sweep now timeout => w.store.scanStale (Gc.cutoff now timeout) = []
  | .commit t _ => ∀ row, w.store.getTxnState t = some row → row.status = .active →
      ∀ k ∈ row.writeKeys, (w.store.readChain k).latestCommitVersion ≤ row.snapshotVersion
  | _ => True

namespace World.NoPhantoms

variable {env : Env} {w w' : World} {t : String} {row : TxnStateRecord} {c : Call}

theorem own (h : w.NoPhantoms) (hrows : ∀ t', t ≠ t' → w'.store.getTxnState t' = w.store.getTxnState t')
    (hlocks : ∀ t', t ≠ t' → w.locks.Free t' → w'.locks.Free t')
    (hown : ∀ row, w'.store.getTxnState t = some row → row.status = .aborted → w'.locks.Free t) : w'.NoPhantoms := by
  intro t' row hrow hst
  by_cases ht : t = t'
  · subst ht
    exact hown row hrow hst
  · rw [hrows t' ht] at hrow
    exact hlocks t' ht (h t' row hrow hst)

theorem refused_forget (h : w.NoPhantoms) (reason : String) :
    (((w.claimed t row).refused t row reason).forget t).NoPhantoms := by
  refine h.own (t := t) (fun t' ht => ?_) (fun t' ht hfree => ?_) fun _ _ _ => ?_
  · have hrefused : ((w.claimed t row).refused t row reason).store.getTxnState t' = _ := txnState_refused _ reason t'
    rw [if_neg ht, txnState_claimed, if_neg ht] at hrefused
    exact hrefused
  · exact SiLockManager.markAborted_unnamed _ t t' (.inr hfree)
  · exact SiLockManager.markAborted_unnamed _ t t (.inl rfl)

theorem commits {aged : String → Bool} {r : Except XtableError Nat} (h : w.NoPhantoms)
    (hcond : (Call.commit t aged).Forgets w) (hc : Commits env aged t w r w') : w'.NoPhantoms := by
  cases hc with
  | unknown | settled => exact h
  | unstaged hrow hst hbodies | dangerous hrow hst hbodies hpeer => exact h.refused_forget _
  | @conflict row _ key _ hrow hst _ _ hkey =>
    obtain ⟨hmem, hnewer⟩ := Store.newerKey_some hkey
    have hle := hcond row hrow hst key ((List.mem_insertionSort _).1 hmem)
    omega
  | published hrow hst hbodies hpeer hkey =>
    refine h.own (t := t) (fun t' ht => ?_) (fun t' ht hfree => ?_) fun row' hrow' hst' => ?_
    · exact (txnState_committed w t').trans (if_neg ht)
    · rw [locks_published, locks_bumped]
      exact hfree.markCommitted ht
    · cases ((txnState_committed w t).trans (if_pos rfl)).symm.trans hrow'
      cases hst'

theorem step (h : w.NoPhantoms) (hcond : c.Forgets w) (he : CallEffect env w c w') : w'.NoPhantoms := by
  cases he with
  | unchanged => exact h
  | @begin t idem now hrow hlocks =>
    refine h.own (t := t) (fun t' ht => ?_) (fun t' ht hfree => ?_) fun row hrow' hst => ?_
    · exact (txnState_begun t').trans (if_neg ht)
    · exact { hfree with entries := hfree.entries.insert ht ⟨by simp, by simp⟩ }
    · cases ((txnState_begun t).trans (if_pos rfl)).symm.trans hrow'
      cases hst
  | @stage t key _ _ _ _ row hrow hst =>
    refine h.own (t := t) (fun t' ht => ?_) (fun t' ht hfree => hfree.registerWrite ht) fun row' hrow' hst' => ?_
    · exact (txnState_staged hrow t').trans (if_neg ht)
    · cases hrow'.symm.trans ((txnState_staged hrow t).trans (if_pos rfl))
      rw [TxnStateRecord.withWriteKey_status, hst] at hst'
      cases hst'
  | @read t key _ _ row hrow hst =>
    refine h.own (t := t) (fun t' ht => ?_) (fun t' ht hfree => hfree.registerRead ht _) fun row' hrow' hst' => ?_
    · exact (txnState_noteRead hrow t').trans (if_neg ht)
    · cases hrow'.symm.trans ((txnState_noteRead hrow t).trans (if_pos rfl))
      rw [TxnStateRecord.withReadKey_status, hst] at hst'
      cases hst'
  | @heartbeat t now row hrow hst =>
    refine h.own (t := t) (fun t' ht => ?_) (fun t' ht hfree => hfree) fun row' hrow' hst' => ?_
    · exact (txnState_put ..).trans (if_neg ht)
    · cases ((txnState_put ..).trans (if_pos rfl)).symm.trans hrow'
      cases hst.symm.trans hst'
  | commit hc => exact h.commits hcond hc
  | @abort t row hrow hst =>
    refine h.own (t := t) (fun t' ht => ?_) (fun t' ht hfree => ?_) fun _ _ _ => ?_
    · exact (txnState_discarded w _ t').trans (if_neg ht)
    · exact SiLockManager.markAborted_unnamed _ t t' (.inr (locks_discarded w _ ▸ hfree))
    · exact SiLockManager.markAborted_unnamed _ t t (.inl rfl)
  | @sweepStale now timeout =>
    have hstale : w.store.scanStale (Gc.cutoff now timeout) = [] := hcond
    rw [World.sweptStale, hstale]
    exact h
  | @sweep now timeout =>
    have hstale : w.store.scanStale (Gc.cutoff now timeout) = [] := hcond
    rw [World.sweptStale, hstale]
    exact h

end World.NoPhantoms

theorem noPhantoms_of_run (env : Env) {hist : List (World × Call × World)} {w : World}
    (hrun : Run (Call.step env) {} hist w) (hcond : ∀ x ∈ hist, x.2.1.Forgets x.1) :
    Inv True w (fun _ => none) ∧ w.NoPhantoms := by
  have hempty : ({} : World).NoPhantoms := by
    intro t row hrow
    simp [Store.getTxnState] at hrow
  refine (hrun.invariant (I := fun w => Inv True w (fun _ => none) ∧ w.NoPhantoms) (C := fun w c => c.Forgets w)
    ⟨World.inv_empty True, hempty⟩ ?_ hcond).1
  intro u c v hu hforgets hstep
  exact ⟨hu.1.call_step hstep, hu.2.step hforgets (.of_step hu.1 hstep)⟩

/-- As long as every abort reaches the lock manager, an aborted transaction is nowhere in it, and is neither
the peer of a dangerous structure nor the writer of a version in a chain. -/
theorem no_phantom_conflicts (env : Env) {hist : List (World × Call × World)} {w : World}
    (hrun : Run (Call.step env) {} hist w) (hcond : ∀ x ∈ hist, x.2.1.Forgets x.1) (t : String) (row : TxnStateRecord)
    (hrow : w.store.getTxnState t = some row) (hst : row.status = .aborted) :
    (w.locks.byTxn[t]? = none ∧ (∀ (key : String) list, w.locks.readersOf[key]? = some list → t ∉ list) ∧
      (∀ (key : String) list, w.locks.writersOf[key]? = some list → ∀ view ∈ list, view.txnId ≠ t) ∧
      ∀ (t' : String) locks, w.locks.byTxn[t']? = some locks →
        (∀ e ∈ locks.inEdges, e.peer ≠ t) ∧ ∀ e ∈ locks.outEdges, e.peer ≠ t) ∧
    (∀ t', w.locks.findDangerousStructure t' ≠ some t) ∧ ∀ k, ∀ e ∈ (w.store.readChain k).entries, e.txnId ≠ t := by
  obtain ⟨hinv, hfree⟩ := noPhantoms_of_run env hrun hcond
  have hfree := hfree t row hrow hst
  exact ⟨⟨hfree.entries.1, hfree.readers, hfree.writers, hfree.entries.2⟩, fun _ => hfree.not_dangerous,
    (hinv.sound.rows t row hrow).aborted hst⟩

/-- A transaction that is aborted while another one has edges to it. -/
theorem no_phantom_conflicts_after_abort : ∃ hist w, Run (Call.step .sample) {} hist w ∧ ∃ row,
    w.store.getTxnState "T" = some row ∧ row.status = .aborted ∧ w.locks.findDangerousStructure "U" ≠ some "T" := by
  obtain ⟨w, hrun, htest⟩ := Run.exists_of_exec (guarded (fun _ c => match c with
      | .sweepStale _ _ | .sweep _ _ | .commit _ _ => false
      | _ => true) (Call.step .sample)) {}
    [.begin "T" none 0, .begin "U" none 0, .read "T" "a" 0 "", .read "U" "b" 0 "", .stage "T" "b" [1] none [] false,
      .stage "U" "a" [2] none [] false, .abort "T"]
    (fun w => (w.store.getTxnState "T").any fun row => row.status = .aborted) (by decide +kernel)
  obtain ⟨row, hrow, hst⟩ := (Option.any_eq_true ..).1 htest
  obtain ⟨hrun, hguard⟩ := hrun.of_guarded
  refine ⟨_, w, hrun, row, hrow, by simpa using hst, ?_⟩
  refine (no_phantom_conflicts .sample hrun (fun x hx => ?_) "T" row hrow (by simpa using hst)).2.1 "U"
  have hx := hguard x hx
  revert hx
  cases x.2.1 <;> simp [Call.Forgets]

/-- A sweep aborts a stale transaction behind the lock manager's back, and its peer's commit is refused because
of it. -/
theorem phantom_conflict : ∃ hist w, Run (Call.step .sample) {} hist w ∧
    (∃ row, w.store.getTxnState "T" = some row ∧ row.status = .aborted) ∧ (w.locks.byTxn["T"]?).isSome ∧
    ((Call.commit "U" fun _ => false).run .sample w).1 = .error (.conflict "conflict on keys: SSI cycle with T") := by
  obtain ⟨w, hrun, htest⟩ := Run.exists_of_exec (Call.step .sample) {}
    [.begin "T" none 0, .begin "U" none 60000, .read "T" "a" 0 "", .read "U" "b" 0 "", .stage "T" "b" [1] none [] false,
      .stage "U" "a" [2] none [] false, .sweepStale 100000 50]
    (fun w => (w.store.getTxnState "T").any (fun row => row.status = .aborted) && (w.locks.byTxn["T"]?).isSome &&
      match ((Call.commit "U" fun _ => false).run .sample w).1 with
      | .error x => x = .conflict "conflict on keys: SSI cycle with T"
      | .ok _ => false)
    (by decide +kernel)
  simp only [Bool.and_eq_true] at htest
  obtain ⟨⟨hrow, hknown⟩, hreply⟩ := htest
  obtain ⟨row, hrow, hst⟩ := (Option.any_eq_true ..).1 hrow
  refine ⟨_, w, hrun, ⟨row, hrow, by simpa using hst⟩, hknown, ?_⟩
  revert hreply
  cases ((Call.commit "U" fun _ => false).run .sample w).1 <;> simp

end Xtable
