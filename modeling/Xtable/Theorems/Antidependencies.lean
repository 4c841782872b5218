import Xtable.Theorems.LockEdges

/-! Antidependencies. A read of a key that another transaction writes is recorded as an edge when the write comes
    after the read, and when the read comes after the writer's commit, but not when it comes after the write of a
    transaction that is still active. -/

namespace Xtable

/-- No other active transaction has registered a write of what is read, and a transaction is committed once. -/
def LockOp.inOrder (m : SiLockManager) : LockOp → Bool
  | registerRead t key _ _ => m.byTxn.toList.all fun x =>
    x.1 = t || x.2.status ≠ .active || x.2.writes.all fun write => write.key ≠ key
  | markCommitted t _ => (m.byTxn[t]?).all fun locks => locks.status = .active
  | _ => true

namespace SiLockManager

variable {m m' : SiLockManager} {g : Growth} {t x key : String} {v : Nat} {locks locks' : SiTxnLocks}

/-- Every read of a key is recorded against its active writers, and against the committed ones newer than what was
observed. -/
structure Recorded (m : SiLockManager) : Prop where
  readers : ∀ (t : String) locks, m.byTxn[t]? = some locks → ∀ read ∈ locks.reads, t ∈ m.readers read.key
  writers : ∀ (t : String) locks, m.byTxn[t]? = some locks → ∀ write ∈ locks.writes,
    ∃ view ∈ m.writers write.key, view.txnId = t
  active : ∀ (r t : String) reader locks, r ≠ t → m.byTxn[r]? = some reader → m.byTxn[t]? = some locks →
    locks.status = .active → ∀ read ∈ reader.reads, ∀ write ∈ locks.writes, read.key = write.key →
    HasEdge reader.inEdges t read.key ∧ HasEdge locks.outEdges r read.key
  committed : ∀ (r : String) reader, m.byTxn[r]? = some reader → ∀ read ∈ reader.reads, ∀ view ∈ m.writers read.key,
    view.txnId ≠ r → view.isRecentlyCommitted = true → read.versionObserved < view.committedVersion →
    HasEdge reader.inEdges view.txnId read.key

/-- The same, where only the transactions in `live` count as active writers. -/
structure RecordedFor (live : String → Prop) (m : SiLockManager) : Prop where
  readers : ∀ (t : String) locks, m.byTxn[t]? = some locks → ∀ read ∈ locks.reads, t ∈ m.readers read.key
  writers : ∀ (t : String) locks, m.byTxn[t]? = some locks → ∀ write ∈ locks.writes,
    ∃ view ∈ m.writers write.key, view.txnId = t
  active : ∀ (r t : String) reader locks, r ≠ t → m.byTxn[r]? = some reader → m.byTxn[t]? = some locks → live t →
    locks.status = .active → ∀ read ∈ reader.reads, ∀ write ∈ locks.writes, read.key = write.key →
    HasEdge reader.inEdges t read.key ∧ HasEdge locks.outEdges r read.key
  committed : ∀ (r : String) reader, m.byTxn[r]? = some reader → ∀ read ∈ reader.reads, ∀ view ∈ m.writers read.key,
    view.txnId ≠ r → view.isRecentlyCommitted = true → read.versionObserved < view.committedVersion →
    HasEdge reader.inEdges view.txnId read.key

theorem recorded_iff : m.Recorded ↔ m.RecordedFor fun _ => True :=
  ⟨fun h => ⟨h.readers, h.writers, fun r t reader locks hne hr ht _ => h.active r t reader locks hne hr ht, h.committed⟩,
    fun h => ⟨h.readers, h.writers, fun r t reader locks hne hr ht => h.active r t reader locks hne hr ht trivial,
      h.committed⟩⟩

namespace RecordedFor

variable {live live' : String → Prop}

theorem empty : RecordedFor live {} := ⟨by simp, by simp, by simp, by simp⟩

theorem status_of_apply (h : (g.apply t locks).status = .active) : locks.status = .active := by
  simp only [Growth.apply] at h
  split at h
  · cases h
  · exact h

theorem grow (h : m.RecordedFor live) (hg : m.Grows m' g)
    (hreaders : ∀ k, ∀ r ∈ m.readers k, r ∈ m'.readers k)
    (hreads : ∀ (t : String) locks, m.byTxn[t]? = some locks → ∀ read ∈ g.reads t, t ∈ m'.readers read.key)
    (hwriters : ∀ k, ∀ view ∈ m.writers k, ∃ view' ∈ m'.writers k, view'.txnId = view.txnId)
    (hwrites : ∀ t, ∀ write ∈ g.writes t, ∃ view ∈ m'.writers write.key, view.txnId = t)
    (hactive : ∀ (r t : String) reader locks, r ≠ t → m.byTxn[r]? = some reader → m.byTxn[t]? = some locks → live t →
      locks.status = .active → ∀ read ∈ reader.reads ++ g.reads r, ∀ write ∈ locks.writes ++ g.writes t,
      read ∈ g.reads r ∨ write ∈ g.writes t → read.key = write.key →
      HasEdge (reader.inEdges ++ g.ins r) t read.key ∧ HasEdge (locks.outEdges ++ g.outs t) r read.key)
    (hcommitted : ∀ (r : String) reader, m.byTxn[r]? = some reader → ∀ read ∈ reader.reads ++ g.reads r,
      ∀ view ∈ m'.writers read.key, view ∉ m.writers read.key ∨ read ∈ g.reads r → view.txnId ≠ r →
      view.isRecentlyCommitted = true → read.versionObserved < view.committedVersion →
      HasEdge (reader.inEdges ++ g.ins r) view.txnId read.key) : m'.RecordedFor live := by
  refine ⟨fun t locks' ht read hread => ?_, fun t locks' ht write hwrite => ?_,
    fun r t reader' locks' hne hr ht hl hst read hread write hwrite hkey => ?_,
    fun r reader' hr read hread view hview hne hc hv => ?_⟩
  · obtain ⟨locks, hlocks, rfl⟩ := hg.before ht
    rcases List.mem_append.1 hread with hread | hread
    · exact hreaders _ _ (h.readers t locks hlocks read hread)
    · exact hreads t locks hlocks read hread
  · obtain ⟨locks, hlocks, rfl⟩ := hg.before ht
    rcases List.mem_append.1 hwrite with hwrite | hwrite
    · obtain ⟨view, hview, rfl⟩ := h.writers t locks hlocks write hwrite
      exact hwriters _ view hview
    · exact hwrites t write hwrite
  · obtain ⟨reader, hreader, rfl⟩ := hg.before hr
    obtain ⟨locks, hlocks, rfl⟩ := hg.before ht
    by_cases hnew : read ∈ g.reads r ∨ write ∈ g.writes t
    · exact hactive r t reader locks hne hreader hlocks hl (status_of_apply hst) read hread write hwrite hnew hkey
    · rw [not_or] at hnew
      have hread' := (List.mem_append.1 hread).resolve_right hnew.1
      have hwrite' := (List.mem_append.1 hwrite).resolve_right hnew.2
      obtain ⟨hin, hout⟩ := h.active r t reader locks hne hreader hlocks hl (status_of_apply hst) read hread' write hwrite' hkey
      exact ⟨hin.append _, hout.append _⟩
  · obtain ⟨reader, hreader, rfl⟩ := hg.before hr
    by_cases hnew : view ∉ m.writers read.key ∨ read ∈ g.reads r
    · exact hcommitted r reader hreader read hread view hview hnew hne hc hv
    · rw [not_or, not_not] at hnew
      have hread' := (List.mem_append.1 hread).resolve_right hnew.2
      exact (h.committed r reader hreader read hread' view hnew.1 hne hc hv).append _

theorem beginTxn (h : m.RecordedFor live) (t : String) (v : Nat) : (m.beginTxn t v).2.RecordedFor live := by
  cases hlocks : m.byTxn[t]? with
  | some locks =>
    rw [beginTxn_fails (by simp [hlocks])]
    exact h
  | none =>
    have hold : ∀ {x : String} {locks}, (m.beginTxn t v).2.byTxn[x]? = some locks → locks.reads = [] ∧ locks.writes = [] ∨
        m.byTxn[x]? = some locks := by
      intro x locks hx
      rw [get_beginTxn hlocks] at hx
      split at hx
      · cases hx
        exact .inl ⟨rfl, rfl⟩
      · exact .inr hx
    obtain ⟨hreaders, hwriters⟩ := indexes_beginTxn m t v
    refine ⟨fun x locks hx read hread => ?_, fun x locks hx write hwrite => ?_,
      fun r x reader locks hne hr hx hl hst read hread write hwrite hkey => ?_, fun r reader hr read hread => ?_⟩
    · rcases hold hx with ⟨hnil, -⟩ | hx
      · simp [hnil] at hread
      · rw [hreaders]
        exact h.readers x locks hx read hread
    · rcases hold hx with ⟨-, hnil⟩ | hx
      · simp [hnil] at hwrite
      · rw [hwriters]
        exact h.writers x locks hx write hwrite
    · rcases hold hr with ⟨hnil, -⟩ | hr
      · simp [hnil] at hread
      · rcases hold hx with ⟨-, hnil⟩ | hx
        · simp [hnil] at hwrite
        · exact h.active r x reader locks hne hr hx hl hst read hread write hwrite hkey
    · rcases hold hr with ⟨hnil, -⟩ | hr
      · simp [hnil] at hread
      · rw [hwriters]
        exact h.committed r reader hr read hread

theorem registerRead (h : m.RecordedFor live) (etag : String) (hclear : ∀ (x : String) locks, m.byTxn[x]? = some locks →
      x ≠ t → live x → locks.status = .active → ∀ write ∈ locks.writes, write.key ≠ key) :
    (m.registerRead t key v etag).RecordedFor live := by
  have hmem : ∀ {x : String} {read : SIReadLock}, read ∈ (m.readGrowth t key v etag).reads x →
      t = x ∧ read = ⟨key, v, etag⟩ := by
    intro x read hread
    by_cases ht : t = x
    · exact ⟨ht, by simpa [readGrowth, ht] using hread⟩
    · simp [readGrowth, ht] at hread
  refine h.grow (registerRead_grows m t key v etag) (fun k r hr => ?_) (fun x locks _ read hread => ?_)
    (fun k view hview => ⟨view, hview, rfl⟩) (fun x write hwrite => by cases hwrite)
    (fun r x reader locks hne _ hx hl hst read hread write hwrite hnew hkey => ?_)
    fun r reader _ read hread view hview hnew hne hc hv => ?_
  · rw [readers_registerRead]
    split
    · exact List.mem_append_left _ hr
    · exact hr
  · obtain ⟨rfl, rfl⟩ := hmem hread
    simp [readers_registerRead]
  · -- a new read meets no active writer
    rcases hnew with hnew | hnew
    · obtain ⟨rfl, rfl⟩ := hmem hnew
      have hwrite' : write ∈ locks.writes := (List.mem_append.1 hwrite).resolve_right (by simp [readGrowth])
      exact absurd hkey.symm (hclear x locks hx hne.symm hl hst write hwrite')
    · cases hnew
  · rcases hnew with hnew | hnew
    · exact absurd hview hnew
    · obtain ⟨rfl, rfl⟩ := hmem hnew
      refine ⟨⟨view.txnId, key, .wrote, view.committedVersion⟩, List.mem_append_right _ ?_, rfl, rfl⟩
      simp only [readGrowth, if_true, readEdges, List.mem_map, List.mem_filter, Bool.and_eq_true, decide_eq_true_eq]
      exact ⟨view, ⟨hview, hc, hv⟩, rfl⟩

theorem registerWrite (h : m.RecordedFor live) : (m.registerWrite t key v).RecordedFor live := by
  have hmem : ∀ {x : String} {write : SIWriteLock}, write ∈ (m.writeGrowth t key v).writes x →
      t = x ∧ write = ⟨key, v⟩ := by
    intro x write hwrite
    by_cases ht : t = x
    · exact ⟨ht, by simpa [writeGrowth, ht] using hwrite⟩
    · simp [writeGrowth, ht] at hwrite
  refine h.grow (registerWrite_grows m t key v) (fun k r hr => hr) (fun x locks _ read hread => by cases hread)
    (fun k view hview => ⟨view, ?_, rfl⟩) (fun x write hwrite => ?_)
    (fun r x reader locks hne hr hx _ hst read hread write hwrite hnew hkey => ?_)
    fun r reader _ read hread view hview hnew hne hc hv => ?_
  · rw [writers_registerWrite]
    split
    · exact List.mem_append_left _ hview
    · exact hview
  · obtain ⟨rfl, rfl⟩ := hmem hwrite
    exact ⟨⟨t, 0, false⟩, by simp [writers_registerWrite], rfl⟩
  · -- the reader of a new write is in the index, so both get their edge
    rcases hnew with hnew | hnew
    · cases hnew
    · obtain ⟨rfl, rfl⟩ := hmem hnew
      have hkey : read.key = key := hkey
      have hread' : read ∈ reader.reads := (List.mem_append.1 hread).resolve_right (by simp [writeGrowth])
      have hreader : r ∈ m.otherReaders t key :=
        Mirrored.mem_otherReaders.2 ⟨hkey ▸ h.readers r reader hr read hread', hne⟩
      rw [hkey]
      constructor
      · exact ⟨⟨t, key, .wrote, v⟩,
          List.mem_append_right _ (List.mem_replicate.2 ⟨(List.count_pos_iff.2 hreader).ne', rfl⟩), rfl, rfl⟩
      · exact ⟨⟨r, key, .read, v⟩, List.mem_append_right _ (by simpa [writeGrowth] using hreader), rfl, rfl⟩
  · rcases hnew with hnew | hnew
    · rw [writers_registerWrite] at hview
      split at hview
      case isFalse => exact absurd hview hnew
      case isTrue =>
        obtain rfl := List.mem_singleton.1 ((List.mem_append.1 hview).resolve_left hnew)
        cases hc
    · cases hnew

theorem markCommitted (h : m.RecordedFor live) (hl : live t)
    (hst : ∀ locks, m.byTxn[t]? = some locks → locks.status = .active) :
    (m.markCommitted t v).RecordedFor live := by
  obtain ⟨ins, hgrows, -⟩ := markCommitted_grows m t v
  refine h.grow hgrows (fun k r hr => hr) (fun x locks _ read hread => by cases hread)
    (fun k view hview => ?_) (fun x write hwrite => by cases hwrite)
    (fun r x reader locks _ _ _ _ _ read _ write _ hnew => by rcases hnew with hnew | hnew <;> cases hnew)
    fun r reader hr read hread view' hview' hnew hne hc hv => ?_
  · rw [writers_markCommitted]
    refine ⟨_, List.mem_map_of_mem hview, ?_⟩
    split <;> rfl
  · rcases hnew with hnew | hnew
    · rw [writers_markCommitted, List.mem_map] at hview'
      obtain ⟨view, hview, rfl⟩ := hview'
      split at hnew
      case isFalse => exact absurd hview hnew
      case isTrue hstamp =>
        rw [if_pos hstamp] at hne ⊢
        obtain ⟨hkey, htxn⟩ := hstamp
        cases hlocks : m.byTxn[t]? with
        | none => simp [hlocks] at hkey
        | some locks =>
          simp only [hlocks, Option.getD_some, List.mem_map] at hkey
          obtain ⟨write, hwrite, hkey⟩ := hkey
          have hread' : read ∈ reader.reads := by simpa using hread
          have hedge := (h.active r t reader locks (fun heq => hne (htxn.trans heq.symm)) hr hlocks hl
            (hst locks hlocks) read hread' write hwrite hkey.symm).1
          exact htxn.symm ▸ hedge.append _
    · cases hnew

theorem markAborted (h : m.RecordedFor live) (t : String) : (m.markAborted t).RecordedFor live := by
  refine ⟨fun x locks' hx read hread => ?_, fun x locks' hx write hwrite => ?_,
    fun r x reader' locks' hne hr hx hl hst read hread write hwrite hkey => ?_,
    fun r reader' hr read hread view hview hne hc hv => ?_⟩
  · obtain ⟨hxt, locks, hlocks, rfl⟩ := before_markAborted hx
    rw [readers_markAborted, List.mem_filter, decide_eq_true_eq]
    exact ⟨h.readers x locks hlocks read hread, hxt⟩
  · obtain ⟨hxt, locks, hlocks, rfl⟩ := before_markAborted hx
    obtain ⟨view, hview, rfl⟩ := h.writers x locks hlocks write hwrite
    exact ⟨view, by rw [writers_markAborted, List.mem_filter, decide_eq_true_eq]; exact ⟨hview, hxt⟩, rfl⟩
  · obtain ⟨hrt, reader, hreader, rfl⟩ := before_markAborted hr
    obtain ⟨hxt, locks, hlocks, rfl⟩ := before_markAborted hx
    obtain ⟨hin, hout⟩ := h.active r x reader locks hne hreader hlocks hl hst read hread write hwrite hkey
    exact ⟨hin.filter hxt, hout.filter hrt⟩
  · obtain ⟨hrt, reader, hreader, rfl⟩ := before_markAborted hr
    rw [writers_markAborted, List.mem_filter, decide_eq_true_eq] at hview
    exact (h.committed r reader hreader read hread view hview.1 hne hc hv).filter hview.2

end RecordedFor

theorem Recorded.step {op : LockOp} (h : m.Recorded) (hcond : op.inOrder m = true) (hstep : op.step m = some m') :
    m'.Recorded := by
  obtain ⟨-, rfl⟩ := LockOp.step_eq_some.1 hstep
  rw [recorded_iff] at h ⊢
  cases op with
  | beginTxn t v => exact h.beginTxn t v
  | registerRead t key v etag =>
    refine h.registerRead etag fun x locks hx hne _ hst write hwrite => ?_
    have hentry := List.all_eq_true.1 hcond (x, locks) (Table.mem_toList.2 hx)
    simp only [hne, hst, ne_eq, not_true_eq_false, decide_false, Bool.or_self, Bool.false_or, List.all_eq_true,
      decide_eq_true_eq] at hentry
    exact hentry write hwrite
  | registerWrite t key v => exact h.registerWrite
  | markCommitted t v =>
    refine h.markCommitted trivial fun locks hlocks => ?_
    simpa [LockOp.inOrder, hlocks] using hcond
  | markAborted t => exact h.markAborted t


/-- The views of a committed transaction carry its version. -/
def Stamped (m : SiLockManager) (t : String) (v : Nat) : Prop :=
  ∃ locks, m.byTxn[t]? = some locks ∧ locks.status = .committed ∧ ∀ write ∈ locks.writes,
    ∃ view ∈ m.writers write.key, view.txnId = t ∧ view.isRecentlyCommitted = true ∧ view.committedVersion = v

theorem Stamped.grow {v : Nat} (h : m.Stamped t v) (hg : m.Grows m' g) (hwrites : g.writes t = [])
    (hwriters : ∀ k, ∀ view ∈ m.writers k, view.txnId = t → view ∈ m'.writers k) : m'.Stamped t v := by
  obtain ⟨locks, hlocks, hst, hviews⟩ := h
  refine ⟨_, hg.after hlocks, by simp [Growth.apply, hst], fun write hwrite => ?_⟩
  have hwrite' : write ∈ locks.writes := by simpa [Growth.apply, hwrites] using hwrite
  obtain ⟨view, hview, htxn, hc, hv⟩ := hviews write hwrite'
  exact ⟨view, hwriters _ view hview htxn, htxn, hc, hv⟩

theorem Stamped.step {op : LockOp} {v : Nat} (h : m.Stamped t v) (hcond : op.inOrder m = true)
    (hab : op ≠ .markAborted t) (hstep : op.step m = some m') : m'.Stamped t v := by
  obtain ⟨locks, hlocks, hst, hviews⟩ := id h
  obtain ⟨hadm, rfl⟩ := LockOp.step_eq_some.1 hstep
  cases op with
  | beginTxn x snap =>
    simp only [LockOp.apply]
    cases hx : m.byTxn[x]? with
    | some other =>
      rw [beginTxn_fails (by simp [hx])]
      exact h
    | none =>
      have hne : x ≠ t := by
        rintro rfl
        rw [hlocks] at hx
        cases hx
      refine ⟨locks, by rw [get_beginTxn hx, if_neg hne, hlocks], hst, ?_⟩
      rw [(indexes_beginTxn m x snap).2]
      exact hviews
  | registerRead x key v' etag =>
    exact h.grow (registerRead_grows m x key v' etag) rfl fun _ _ hview _ => hview
  | registerWrite x key v' =>
    simp only [LockOp.apply]
    have hne : x ≠ t := by
      rintro rfl
      obtain ⟨locks', hlocks', hst'⟩ := isActive_iff.1 hadm
      cases hlocks.symm.trans hlocks'
      rw [hst] at hst'
      cases hst'
    refine h.grow (registerWrite_grows m x key v') (by simp [writeGrowth, hne]) fun k view hview _ => ?_
    rw [writers_registerWrite]
    split
    · exact List.mem_append_left _ hview
    · exact hview
  | markCommitted x v' =>
    simp only [LockOp.apply]
    have hne : x ≠ t := by
      rintro rfl
      simp [LockOp.inOrder, hlocks, hst] at hcond
    obtain ⟨ins, hgrows, -⟩ := markCommitted_grows m x v'
    refine h.grow hgrows rfl fun k view hview htxn => ?_
    rw [writers_markCommitted, List.mem_map]
    exact ⟨view, hview, if_neg fun hstamp => hne (hstamp.2.symm.trans htxn)⟩
  | markAborted x =>
    simp only [LockOp.apply]
    have hne : t ≠ x := by
      rintro rfl
      exact hab rfl
    refine ⟨_, get_markAborted_of_ne hlocks hne, hst, fun write hwrite => ?_⟩
    obtain ⟨view, hview, htxn, hcv⟩ := hviews write hwrite
    exact ⟨view, by rw [writers_markAborted, List.mem_filter, decide_eq_true_eq]; exact ⟨hview, htxn ▸ hne⟩, htxn, hcv⟩

theorem Recorded.stamped (h : m.Recorded) (hlocks : m.byTxn[t]? = some locks) (v : Nat) :
    (m.markCommitted t v).Stamped t v := by
  obtain ⟨ins, hgrows, -⟩ := markCommitted_grows m t v
  refine ⟨_, hgrows.after hlocks, by simp [Growth.apply], fun write hwrite => ?_⟩
  have hwrite' : write ∈ locks.writes := by simpa [Growth.apply] using hwrite
  obtain ⟨view, hview, rfl⟩ := h.writers t locks hlocks write hwrite'
  have hkey : write.key ∈ ((m.byTxn[view.txnId]?).getD {}).writes.map (·.key) := by
    rw [hlocks]
    exact List.mem_map_of_mem hwrite'
  refine ⟨{ view with committedVersion := v, isRecentlyCommitted := true }, ?_, rfl, rfl, rfl⟩
  rw [writers_markCommitted, List.mem_map]
  exact ⟨view, hview, if_pos ⟨hkey, rfl⟩⟩

end SiLockManager

/-- The transaction was committed at the version, and has not been aborted since. -/
def CommittedAt (hist : List (SiLockManager × LockOp × SiLockManager)) (t : String) (v : Nat) : Prop :=
  ∃ before m m' after, hist = before ++ (m, .markCommitted t v, m') :: after ∧ (m.byTxn[t]?).isSome ∧
    ∀ x ∈ after, x.2.1 ≠ .markAborted t

open SiLockManager

section Run

variable {hist : List (SiLockManager × LockOp × SiLockManager)} {m : SiLockManager}

theorem recorded_of_run (hrun : Run LockOp.step {} hist m) (hcond : ∀ x ∈ hist, x.2.1.inOrder x.1 = true) :
    m.Recorded ∧ ∀ x ∈ hist, x.1.Recorded ∧ x.2.2.Recorded :=
  hrun.invariant (I := Recorded) (C := fun m op => op.inOrder m = true) (recorded_iff.2 .empty)
    (fun _ _ _ h hcond hstep => h.step hcond hstep) hcond

theorem stamped_of_run {t : String} {v : Nat} (hrun : Run LockOp.step {} hist m)
    (hcond : ∀ x ∈ hist, x.2.1.inOrder x.1 = true) (hat : CommittedAt hist t v) : m.Stamped t v := by
  obtain ⟨before, m₀, m₁, after, rfl, htracked, hab⟩ := hat
  obtain ⟨locks, hlocks⟩ := Option.isSome_iff_exists.1 htracked
  have hmem : (m₀, LockOp.markCommitted t v, m₁) ∈ before ++ (m₀, LockOp.markCommitted t v, m₁) :: after := by simp
  have hrec := ((recorded_of_run hrun hcond).2 _ hmem).1
  obtain ⟨u, -, hrun'⟩ := hrun.of_append
  obtain ⟨rfl, hl, hafter⟩ := hrun'.cons_inv
  have hm₁ : m₀.markCommitted t v = m₁ := Option.some.inj hl
  refine (hafter.invariant (I := fun m => m.Stamped t v)
    (C := fun m op => op.inOrder m = true ∧ op ≠ .markAborted t) (hm₁ ▸ hrec.stamped hlocks v)
    (fun _ _ _ h hcond hstep => h.step hcond.1 hcond.2 hstep) fun x hx => ⟨hcond x (by simp [hx]), hab x hx⟩).1

end Run

/-- If reads come when no other active transaction has written the key, and no transaction is committed twice: a read
of a key that another transaction writes is recorded with both, whether the write is active or committed at a version
newer than the one observed. -/
theorem antidependencies_recorded {hist : List (SiLockManager × LockOp × SiLockManager)} {m : SiLockManager}
    (hrun : Run LockOp.step {} hist m) (hcond : ∀ x ∈ hist, x.2.1.inOrder x.1 = true)
    (r t : String) (reader locks : SiTxnLocks) (hne : r ≠ t) (hr : m.byTxn[r]? = some reader)
    (ht : m.byTxn[t]? = some locks) (read : SIReadLock) (hread : read ∈ reader.reads) (write : SIWriteLock)
    (hwrite : write ∈ locks.writes) (hkey : read.key = write.key)
    (hwriter : locks.status = .active ∨ ∃ v, CommittedAt hist t v ∧ read.versionObserved < v) :
    HasEdge reader.inEdges t read.key ∧ (locks.status = .active → HasEdge locks.outEdges r read.key) := by
  have h := (recorded_of_run hrun hcond).1
  have hactive := fun hst => h.active r t reader locks hne hr ht hst read hread write hwrite hkey
  refine ⟨?_, fun hst => (hactive hst).2⟩
  rcases hwriter with hst | ⟨v, hat, hv⟩
  · exact (hactive hst).1
  · obtain ⟨locks', hlocks', -, hviews⟩ := stamped_of_run hrun hcond hat
    obtain rfl := Option.some.inj (ht.symm.trans hlocks')
    obtain ⟨view, hview, rfl, hc, rfl⟩ := hviews write hwrite
    exact h.committed r reader hr read hread view (hkey ▸ hview) hne.symm hc hv

/-- A read before the write, then the commit of the writer. -/
theorem antidependencies_recorded_read_first : ∃ hist m reader, Run LockOp.step {} hist m ∧
    m.byTxn["R"]? = some reader ∧ HasEdge reader.inEdges "W" "k" := by
  obtain ⟨m, hguarded, htest⟩ := Run.exists_of_exec (guarded (fun m (op : LockOp) => op.inOrder m) LockOp.step) {}
    [.beginTxn "R" 0, .beginTxn "W" 0, .registerRead "R" "k" 0 "", .registerWrite "W" "k" 0]
    (fun m => (m.byTxn["R"]?).any (fun l => l.reads = [⟨"k", 0, ""⟩]) &&
      (m.byTxn["W"]?).any fun l => l.writes = [⟨"k", 0⟩] && l.status = .active) (by decide +kernel)
  obtain ⟨hrun, hcond⟩ := hguarded.of_guarded
  simp only [Bool.and_eq_true, Option.any_eq_true, decide_eq_true_eq] at htest
  obtain ⟨⟨reader, hr, hreads⟩, locks, hw, hwrites, hst⟩ := htest
  refine ⟨_, m, reader, hrun, hr, ?_⟩
  exact (antidependencies_recorded hrun hcond "R" "W" reader locks (by decide) hr hw ⟨"k", 0, ""⟩ (by simp [hreads])
    ⟨"k", 0⟩ (by simp [hwrites]) rfl (.inl hst)).1

/-- The edges of two transactions, and the keys that the one has read and the other has written. -/
def SiLockManager.between (m : SiLockManager) (r t : String) : Option (List String × List String × Bool × Bool) := do
  let reader ← m.byTxn[r]?
  let locks ← m.byTxn[t]?
  return (reader.reads.map (·.key), locks.writes.map (·.key), reader.inEdges.any fun e => e.peer = t,
    locks.outEdges.any fun e => e.peer = r)

/-- A read that comes after the write of an active transaction gets no edge, and gets none when the writer
commits at a version newer than the one observed. -/
theorem antidependency_missed : ∃ hist m hist' m', Run LockOp.step {} hist m ∧
    m.between "R" "W" = some (["k"], ["k"], false, false) ∧ m.isActive "W" = true ∧
    Run LockOp.step {} hist' m' ∧ CommittedAt hist' "W" 1 ∧
    (m'.byTxn["R"]?).map (·.reads) = some [⟨"k", 0, ""⟩] ∧
    m'.between "R" "W" = some (["k"], ["k"], false, false) := by
  obtain ⟨m, hrun, htest⟩ := Run.exists_of_exec LockOp.step {}
    [.beginTxn "W" 0, .beginTxn "R" 0, .registerWrite "W" "k" 0, .registerRead "R" "k" 0 ""]
    (fun m => m.between "R" "W" = some (["k"], ["k"], false, false) && m.isActive "W") (by decide +kernel)
  obtain ⟨u, m', hrun', htest'⟩ := Run.exists_step_of_exec LockOp.step {}
    [.beginTxn "W" 0, .beginTxn "R" 0, .registerWrite "W" "k" 0, .registerRead "R" "k" 0 ""] (.markCommitted "W" 1)
    (fun u m' => (u.byTxn["W"]?).isSome && (m'.byTxn["R"]?).map (·.reads) = some [⟨"k", 0, ""⟩] &&
      m'.between "R" "W" = some (["k"], ["k"], false, false)) (by decide +kernel)
  simp only [Bool.and_eq_true, decide_eq_true_eq] at htest htest'
  obtain ⟨⟨htracked, hreads⟩, hbetween⟩ := htest'
  exact ⟨_, m, _, m', hrun, htest.1, htest.2, hrun', ⟨_, u, m', [], rfl, htracked, by simp⟩, hreads, hbetween⟩

end Xtable
