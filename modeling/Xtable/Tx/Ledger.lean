import Xtable.Tx.Recovery

/-! The ledger is the abstract content of the store as far as transactions are concerned: the version counter, each
    transaction's row, what the WAL says of it, and the chains. Every store action is a ledger operation, or leaves
    the ledger alone. -/

namespace Xtable

@[ext] structure Ledger where
  version : Nat
  row : String → Option TxnStateRecord
  /-- The last status the WAL records, as recovery reads it. -/
  last : String → Option TxnStatus
  /-- The keys of the last `Committing` record. -/
  uploaded : String → Option (List String)
  chain : String → List VersionEntry

namespace Ledger

def setRow (L : Ledger) (t : String) (r : TxnStateRecord) : Ledger :=
  { L with row := Function.update L.row t (some r) }

def setLast (L : Ledger) (t : String) (st : TxnStatus) : Ledger :=
  { L with last := Function.update L.last t (some st) }

def log (L : Ledger) : WalRecord → Ledger
  | .begin t _ _ | .stage t _ _ => L.setLast t ((L.last t).getD .active)
  | .committing t keys =>
    { L.setLast t .committing with uploaded := Function.update L.uploaded t (some keys) }
  | .committed t _ | .commitResult t _ _ => L.setLast t .committed
  | .aborted t _ => L.setLast t .aborted
  | .memtableFlushed _ _ _ => L

def bump (L : Ledger) : Ledger := { L with version := L.version + 1 }

/-- Append each item's entry to the chain of its key. -/
def append (L : Ledger) (items : List (String × VersionEntry × Nat)) : Ledger :=
  { L with chain := fun k => L.chain k ++ (items.filter (·.1 = k)).map (·.2.1) }

/-- Prune every chain below `m`. -/
def prune (L : Ledger) (m : WithTop Nat) : Ledger :=
  { L with chain := fun k => (VersionChain.pruneBelow ⟨k, L.chain k⟩ m).1.entries }

/-- The newest version of a key's chain, 0 when there is none. -/
def latest (L : Ledger) (k : String) : Nat := ((L.chain k).getLast?.map (·.commitVersion)).getD 0

end Ledger

/-- The ledger of a store. -/
def Store.ledger (s : Store) : Ledger where
  version := s.globalVersion
  row t := s.txnState[t]?
  last t := (Recovery.replay s.iterWal).lastStatus[t]?
  uploaded t := (Recovery.replay s.iterWal).lastUploaded[t]?
  chain k := (s.readChain k).entries

namespace Store

/-- Every WAL row has a sequence number that has been handed out. -/
def WalBound (s : Store) : Prop := ∀ (n : Nat) r, s.wal[n]? = some r → n ≤ s.lastWalSeq

theorem latest_readChain (s : Store) (k : String) :
    (s.readChain k).latestCommitVersion = s.ledger.latest k := rfl

@[simp] theorem ledger_putTxnState (s : Store) (t : String) (r : TxnStateRecord) :
    (s.putTxnState t r).ledger = s.ledger.setRow t r := by
  refine Ledger.ext rfl (funext fun t' => ?_) rfl rfl rfl
  simp only [ledger, putTxnState, Ledger.setRow]
  by_cases h : t = t'
  · subst h
    simp
  · simp [h, Ne.symm h]

theorem compareAndSet_eq {s : Store} {t : String} {old new : TxnStatus} :
    (∃ r, s.txnState[t]? = some r ∧ r.status = old ∧
      s.compareAndSetTxnStatus t old new = (true, s.putTxnState t { r with status := new })) ∨
    ((∀ r, s.txnState[t]? = some r → r.status ≠ old) ∧ s.compareAndSetTxnStatus t old new = (false, s)) := by
  unfold compareAndSetTxnStatus
  cases hr : s.txnState[t]? with
  | none => exact .inr ⟨by simp, rfl⟩
  | some r =>
    by_cases hst : r.status = old
    · exact .inl ⟨r, rfl, hst, by simp [hst]⟩
    · exact .inr ⟨by simpa using hst, by simp [hst]⟩

theorem walBound_appendWal {s : Store} (h : s.WalBound) (r : WalRecord) : (s.appendWal r).2.WalBound := by
  intro n r' hn
  simp only [appendWal, Table.get_insert] at hn ⊢
  split at hn
  · omega
  · exact le_trans (h n r' hn) (by omega)

theorem iterWal_appendWal {s : Store} (h : s.WalBound) (r : WalRecord) :
    (s.appendWal r).2.iterWal = s.iterWal ++ [(s.lastWalSeq + 1, r)] := by
  refine Table.toList_insert_last _ _ _ fun n r' hn => ?_
  rw [Nat.compare_eq_lt]
  exact Nat.lt_succ_of_le (h n r' hn)

theorem replay_append (log : List (Nat × WalRecord)) (x : Nat × WalRecord) :
    Recovery.replay (log ++ [x]) = (Recovery.replay log).note x.2 := by
  simp [Recovery.replay]

theorem ledger_appendWal {s : Store} (h : s.WalBound) (r : WalRecord) :
    (s.appendWal r).2.ledger = s.ledger.log r := by
  have hlog : (s.appendWal r).2.ledger =
      { s.ledger with
        last := fun t => ((Recovery.replay s.iterWal).note r).lastStatus[t]?
        uploaded := fun t => ((Recovery.replay s.iterWal).note r).lastUploaded[t]? } := by
    simp only [ledger, iterWal_appendWal h, replay_append]
    rfl
  have hupd : ∀ {α : Type} (m : Table String α) (t : String) (a : α),
      (fun t' => (m.insert t a)[t']?) = Function.update (fun t' => m[t']?) t (some a) := by
    intro α m t a
    funext t'
    by_cases htt : t = t'
    · subst htt
      simp
    · simp [htt, Ne.symm htt]
  -- `or_insert`: the status stays when there is one
  have hkeep : ∀ (m : Table String TxnStatus) (t : String) (old : TxnStatus), m[t]? = some old →
      (fun t' => m[t']?) = Function.update (fun t' => m[t']?) t (some old) := by
    intro m t old hm
    rw [← hm]
    exact (Function.update_eq_self t _).symm
  rw [hlog]
  cases r with
  | begin t _ _ | stage t _ _ =>
    simp only [Recovery.Replay.note, Ledger.log, Ledger.setLast]
    cases ht : (Recovery.replay s.iterWal).lastStatus[t]? with
    | none =>
      simp only [Option.isSome_none, Bool.false_eq_true, if_false, hupd]
      simp [ledger, ht]
    | some old =>
      simp only [Option.isSome_some, if_true]
      simp [ledger, ht, ← hkeep _ _ _ ht]
  | committing t keys => simp only [Recovery.Replay.note, Ledger.log, Ledger.setLast, hupd]; rfl
  | committed t v => simp only [Recovery.Replay.note, Ledger.log, Ledger.setLast, hupd]; rfl
  | commitResult t v b | aborted t reason => simp only [Recovery.Replay.note, Ledger.log, Ledger.setLast, hupd]; rfl
  | memtableFlushed c n v => rfl

theorem ledger_gcChains (s : Store) :
    s.gcChainsAtActiveSnapshot.2.ledger = s.ledger.prune s.minActiveSnapshot := by
  refine Ledger.ext rfl rfl rfl rfl (funext fun k => ?_)
  simp only [gcChainsAtActiveSnapshot, gcChainsInner, ledger, Ledger.prune, readChain, Table.get_map]
  cases s.versionChains[k]? with
  | none | some c => rfl

/-! ## Bulk append -/

/-- The entries under a key in a table of chains. -/
def entriesOf (chains : Table String VersionChain) (k : String) : List VersionEntry :=
  ((chains[k]?).getD (.new k)).entries

/-- An item that the bulk append accepts: the chain holds nothing newer than the item's snapshot, and
the item's version is newer. -/
def Appendable (chains : Table String VersionChain) (item : String × VersionEntry × Nat) : Prop :=
  ∀ e ∈ (entriesOf chains item.1).getLast?, e.commitVersion ≤ item.2.2 ∧ e.commitVersion < item.2.1.commitVersion

theorem appendChainEntry_ok {chains : Table String VersionChain} {item : String × VersionEntry × Nat}
    (h : Appendable chains item) :
    ∃ chains', appendChainEntry chains item = .ok chains' ∧
      ∀ k, entriesOf chains' k = entriesOf chains k ++ if item.1 = k then [item.2.1] else [] := by
  obtain ⟨key, entry, snap⟩ := item
  have hnew : ∀ k, entriesOf (chains.insert key (((chains[key]?).getD (.new key)).append entry)) k =
      entriesOf chains k ++ if key = k then [entry] else [] := by
    intro k
    by_cases hk : key = k
    · subst hk
      simp [entriesOf, VersionChain.append]
    · simp [entriesOf, hk]
  refine ⟨chains.insert key (((chains[key]?).getD (.new key)).append entry), ?_, hnew⟩
  simp only [Appendable, entriesOf] at h
  simp only [appendChainEntry]
  generalize ((chains[key]?).getD (.new key)) = chain at h ⊢
  have hlatest : chain.entries = [] ∨
      (chain.latestCommitVersion ≤ snap ∧ chain.latestCommitVersion < entry.commitVersion) := by
    cases hlast : chain.entries.getLast? with
    | none => exact .inl (List.getLast?_eq_none_iff.1 hlast)
    | some e => exact .inr (by simpa [VersionChain.latestCommitVersion, hlast] using h e hlast)
  rcases hlatest with hnil | ⟨hle, hlt⟩
  · simp [hnil]
  · rw [if_neg (by omega), if_neg (by omega), if_neg (by omega)]

theorem length_filter_key_le_one {β : Type} {l : List (String × β)} (hnodup : (l.map (·.1)).Nodup) (k : String) :
    (l.filter (·.1 = k)).length ≤ 1 := by
  induction l with
  | nil => simp
  | cons x rest ih =>
    rw [List.map_cons, List.nodup_cons] at hnodup
    by_cases hx : x.1 = k
    · have hnone : rest.filter (·.1 = k) = [] := by
        refine List.filter_eq_nil_iff.2 fun y hy hyk => hnodup.1 ?_
        rw [hx, ← of_decide_eq_true hyk]
        exact List.mem_map_of_mem hy
      simp [hx, hnone]
    · simpa [hx] using ih hnodup.2

theorem foldlM_appendChainEntry {l : List (String × VersionEntry × Nat)} {chains : Table String VersionChain}
    (hnodup : (l.map (·.1)).Nodup) (h : ∀ item ∈ l, Appendable chains item) :
    ∃ chains', l.foldlM appendChainEntry chains = .ok chains' ∧
      ∀ k, entriesOf chains' k = entriesOf chains k ++ (l.filter (·.1 = k)).map (·.2.1) := by
  induction l generalizing chains with
  | nil => exact ⟨chains, rfl, by simp⟩
  | cons item rest ih =>
    obtain ⟨mid, hmid, hentries⟩ := appendChainEntry_ok (h item (by simp))
    rw [List.map_cons, List.nodup_cons] at hnodup
    have hrest : ∀ item' ∈ rest, Appendable mid item' := by
      intro item' hitem'
      have hne : item.1 ≠ item'.1 := fun heq => hnodup.1 (heq ▸ List.mem_map_of_mem hitem')
      have := h item' (by simp [hitem'])
      simpa [Appendable, hentries, hne] using this
    obtain ⟨chains', hchains', hall⟩ := ih hnodup.2 hrest
    refine ⟨chains', ?_, fun k => ?_⟩
    · rw [List.foldlM_cons, hmid]
      exact hchains'
    · rw [hall, hentries, List.append_assoc]
      congr 1
      by_cases hk : item.1 = k
      · simp [hk]
      · simp [hk]

theorem ledger_appendChainEntriesBulk {s : Store} {items : List (String × VersionEntry × Nat)}
    (hnodup : (items.map (·.1)).Nodup)
    (h : ∀ item ∈ items, ∀ e ∈ (s.ledger.chain item.1).getLast?,
      e.commitVersion ≤ item.2.2 ∧ e.commitVersion < item.2.1.commitVersion) :
    (s.appendChainEntriesBulk items).1 = .ok () ∧
      (s.appendChainEntriesBulk items).2.ledger = s.ledger.append items := by
  have hperm := List.perm_insertionSort batchLe items
  obtain ⟨chains', hchains', hall⟩ := foldlM_appendChainEntry ((hperm.map _).nodup_iff.2 hnodup)
    fun item hitem => h item (hperm.mem_iff.1 hitem)
  rw [appendChainEntriesBulk, hchains']
  refine ⟨rfl, Ledger.ext rfl rfl rfl rfl (funext fun k => ?_)⟩
  simp only [Ledger.append]
  refine (hall k).trans ?_
  congr 1
  -- under distinct keys there is at most one item to a key, so the order of the batch is no matter
  have hperm' := hperm.filter fun x => decide (x.1 = k)
  have hle := length_filter_key_le_one hnodup k
  cases hitems : items.filter (·.1 = k) with
  | nil =>
    rw [hitems] at hperm'
    simp [hperm'.eq_nil]
  | cons x rest =>
    obtain rfl : rest = [] := by
      rw [hitems] at hle
      exact List.length_eq_zero_iff.1 (by simpa using hle)
    rw [hitems] at hperm'
    rw [List.perm_singleton.1 hperm']

theorem walBound_appendChainEntriesBulk {s : Store} {items : List (String × VersionEntry × Nat)}
    (h : s.WalBound) : (s.appendChainEntriesBulk items).2.WalBound := by
  unfold appendChainEntriesBulk
  split <;> exact h

end Store

end Xtable
