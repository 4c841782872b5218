import Xtable.Tx.Operations
import Xtable.Tx.Rebuild

/-! Every stored chain is non-empty and strictly ascending in commit version: an append puts an entry above the
    newest one, and a collection drops a front part. -/

namespace Xtable

variable {chains chains' : Table String VersionChain} {items : List (String × VersionEntry × Nat)}
  {item : String × VersionEntry × Nat} {e : VersionEntry}

/-- A chain as it is stored. -/
structure VersionChain.WellFormed (c : VersionChain) : Prop where
  nonempty : c.entries ≠ []
  ascending : c.entries.Pairwise fun a b => a.commitVersion < b.commitVersion

def WellFormedChains (chains : Table String VersionChain) : Prop :=
  ∀ (k : String) (c : VersionChain), chains[k]? = some c → c.WellFormed

/-- The entries of the chain under a key; none if there is no chain. -/
def chainAt (chains : Table String VersionChain) (k : String) : List VersionEntry :=
  ((chains[k]?).getD (.new k)).entries

namespace WellFormedChains

variable {chains : Table String VersionChain}

theorem ascending (h : WellFormedChains chains) (k : String) :
    (chainAt chains k).Pairwise fun a b => a.commitVersion < b.commitVersion := by
  unfold chainAt
  cases hc : chains[k]? with
  | none => simp [VersionChain.new]
  | some c => exact (h k c hc).ascending

theorem insert (h : WellFormedChains chains) {k : String}
    (habove : ∀ e' ∈ chainAt chains k, e'.commitVersion < e.commitVersion) :
    WellFormedChains (chains.insert k (((chains[k]?).getD (.new k)).append e)) := by
  intro k' c hc
  rw [Table.get_insert] at hc
  split at hc
  case isTrue =>
    cases hc
    refine ⟨by simp [VersionChain.append], ?_⟩
    refine List.pairwise_append.2 ⟨h.ascending k, by simp, fun a ha b hb => ?_⟩
    obtain rfl := List.mem_singleton.1 hb
    exact habove a ha
  case isFalse => exact h k' c hc

theorem prune (h : WellFormedChains chains) (m : WithTop Nat) :
    WellFormedChains (chains.map fun _ c => (c.pruneBelow m).1) := by
  intro k c hc
  rw [Table.get_map] at hc
  obtain ⟨c₀, hc₀, rfl⟩ := Option.map_eq_some_iff.1 hc
  obtain ⟨hne, hasc⟩ := h k c₀ hc₀
  refine ⟨fun hnil => ?_, hasc.sublist (c₀.pruneBelow_suffix m).sublist⟩
  -- the newest entry is never dropped
  have hlast := c₀.pruneBelow_getLast? m
  rw [hnil, List.getLast?_nil] at hlast
  exact hne (List.getLast?_eq_none_iff.1 hlast.symm)

end WellFormedChains

/-! ## Appends -/

theorem le_latestCommitVersion {c : VersionChain}
    (hasc : c.entries.Pairwise fun a b => a.commitVersion < b.commitVersion) (he : e ∈ c.entries) :
    e.commitVersion ≤ c.latestCommitVersion := by
  obtain ⟨front, last, hsplit⟩ := List.eq_nil_or_concat c.entries |>.resolve_left (List.ne_nil_of_mem he)
  rw [List.concat_eq_append] at hsplit
  rw [hsplit] at hasc he
  have hlatest : c.latestCommitVersion = last.commitVersion := by simp [VersionChain.latestCommitVersion, hsplit]
  rw [hlatest]
  rcases List.mem_append.1 he with hfront | hlast
  · exact ((List.pairwise_append.1 hasc).2.2 e hfront last (by simp)).le
  · obtain rfl := List.mem_singleton.1 hlast
    exact le_rfl

theorem above_of_monotonic {c : VersionChain} (hasc : c.entries.Pairwise fun a b => a.commitVersion < b.commitVersion)
    {v : Nat} (hmono : ¬ (v ≤ c.latestCommitVersion ∧ c.entries ≠ [])) (he : e ∈ c.entries) :
    e.commitVersion < v := by
  have hle := le_latestCommitVersion hasc he
  have hlt : ¬ v ≤ c.latestCommitVersion := fun hv => hmono ⟨hv, List.ne_nil_of_mem he⟩
  omega

theorem appendChainEntry_cases (h : WellFormedChains chains) (hok : Store.appendChainEntry chains item = .ok chains') :
    (chains' = chains ∧ ∃ e ∈ chainAt chains item.1, e.commitVersion = item.2.1.commitVersion) ∨
    (chains' = chains.insert item.1 (((chains[item.1]?).getD (.new item.1)).append item.2.1) ∧
      ∀ e ∈ chainAt chains item.1, e.commitVersion < item.2.1.commitVersion) := by
  obtain ⟨k, e, snap⟩ := item
  simp only [Store.appendChainEntry] at hok
  split at hok
  · cases hok
  split at hok
  case isTrue hdup =>
    obtain ⟨hversion, hlast⟩ := hdup
    obtain ⟨last, hlast, -⟩ := (Option.any_eq_true _ _).1 hlast
    refine .inl ⟨(Except.ok.inj hok).symm, last, List.mem_of_getLast? hlast, ?_⟩
    rw [hversion, VersionChain.latestCommitVersion, hlast]
    rfl
  case isFalse =>
    split at hok
    · cases hok
    case isFalse hmono =>
      exact .inr ⟨(Except.ok.inj hok).symm, fun e' he' => above_of_monotonic (h.ascending k) hmono he'⟩

/-- What a list of entries adds to a chain: entries in ascending order, one for each of its versions that the chain
does not have. -/
structure Extends (old new : List VersionEntry) (k : String) (items : List (String × VersionEntry × Nat)) : Prop where
  taken : ∀ e ∈ new, ∃ snap, (k, e, snap) ∈ items
  ascending : new.Pairwise fun a b => a.commitVersion < b.commitVersion
  versions : ∀ v, v ∈ new.map (·.commitVersion) ↔
    (∃ item ∈ items, item.1 = k ∧ item.2.1.commitVersion = v) ∧ v ∉ old.map (·.commitVersion)


theorem chainAt_insert (chains : Table String VersionChain) (k k' : String) (e : VersionEntry) :
    chainAt (chains.insert k (((chains[k]?).getD (.new k)).append e)) k' =
      chainAt chains k' ++ if k = k' then [e] else [] := by
  unfold chainAt
  rw [Table.get_insert]
  by_cases hk : k = k'
  · subst hk
    simp [VersionChain.append]
  · simp [hk]

theorem Extends.step {old new : List VersionEntry} {k : String} (hwf : WellFormedChains chains)
    (hnew : chainAt chains k = old ++ new) (h : Extends old new k items)
    (hok : Store.appendChainEntry chains item = .ok chains') :
    ∃ new', chainAt chains' k = old ++ new' ∧ Extends old new' k (items ++ [item]) := by
  have hmore : ∀ v, (∃ x ∈ items ++ [item], x.1 = k ∧ x.2.1.commitVersion = v) ↔
      (∃ x ∈ items, x.1 = k ∧ x.2.1.commitVersion = v) ∨ (item.1 = k ∧ item.2.1.commitVersion = v) := by
    intro v
    simp only [List.mem_append, List.mem_singleton, or_and_right, exists_or, exists_eq_left]
  have hold : ∀ v ∈ old.map (·.commitVersion), ∃ e ∈ chainAt chains k, e.commitVersion = v := by
    intro v hv
    obtain ⟨e, he, rfl⟩ := List.mem_map.1 hv
    exact ⟨e, by simp [hnew, he], rfl⟩
  have htaken : ∀ e ∈ new, ∃ snap, (k, e, snap) ∈ items ++ [item] := fun e he => by
    obtain ⟨snap, hsnap⟩ := h.taken e he
    exact ⟨snap, by simp [hsnap]⟩
  rcases appendChainEntry_cases hwf hok with ⟨rfl, e, he, hversion⟩ | ⟨rfl, habove⟩
  · -- the version is in the chain already
    refine ⟨new, hnew, htaken, h.ascending, fun v => ?_⟩
    rw [hmore, h.versions]
    refine and_congr_left fun hv => ⟨.inl, ?_⟩
    rintro (hin | ⟨hk, rfl⟩)
    · exact hin
    · subst hk
      rw [hnew, List.mem_append] at he
      rcases he with he | he
      · exact absurd (List.mem_map.2 ⟨e, he, hversion⟩) hv
      · exact ((h.versions _).1 (List.mem_map.2 ⟨e, he, hversion⟩)).1
  · by_cases hk : item.1 = k
    · subst hk
      refine ⟨new ++ [item.2.1], by rw [chainAt_insert, hnew]; simp, ?_, ?_, fun v => ?_⟩
      · intro e he
        rcases List.mem_append.1 he with he | he
        · exact htaken e he
        · obtain rfl := List.mem_singleton.1 he
          exact ⟨item.2.2, by simp⟩
      · refine List.pairwise_append.2 ⟨h.ascending, by simp, fun a ha b hb => ?_⟩
        obtain rfl := List.mem_singleton.1 hb
        exact habove a (by simp [hnew, ha])
      · rw [hmore, List.map_append, List.mem_append, h.versions, or_and_right]
        refine or_congr_right ?_
        simp only [List.map_cons, List.map_nil, List.mem_singleton, true_and]
        refine ⟨fun hv => ⟨hv.symm, fun hin => ?_⟩, fun hv => hv.1.symm⟩
        obtain ⟨e, he, heq⟩ := hold v hin
        have := habove e he
        omega
    · refine ⟨new, by rw [chainAt_insert, hnew]; simp [hk], htaken, h.ascending, fun v => ?_⟩
      rw [hmore, h.versions]
      simp [hk]

theorem foldlM_extends (hwf : WellFormedChains chains)
    (hok : items.foldlM Store.appendChainEntry chains = .ok chains') :
    WellFormedChains chains' ∧ ∀ k, ∃ new, chainAt chains' k = chainAt chains k ++ new ∧
      Extends (chainAt chains k) new k items := by
  -- the induction is on the entry appended last
  induction items using List.reverseRecOn generalizing chains' with
  | nil =>
    cases hok
    refine ⟨hwf, fun k => ⟨[], by simp, by simp, by simp, by simp⟩⟩
  | append_singleton items item ih =>
    rw [List.foldlM_append] at hok
    cases hmid : items.foldlM Store.appendChainEntry chains with
    | error x =>
      rw [hmid] at hok
      cases hok
    | ok mid =>
      rw [hmid] at hok
      have hlast : Store.appendChainEntry mid item = .ok chains' := by
        change (Store.appendChainEntry mid item >>= pure) = _ at hok
        rwa [bind_pure] at hok
      obtain ⟨hwf', hext⟩ := ih hmid
      constructor
      · rcases appendChainEntry_cases hwf' hlast with ⟨rfl, -⟩ | ⟨rfl, habove⟩
        · exact hwf'
        · exact hwf'.insert habove
      · intro k
        obtain ⟨new, hnew, hnew'⟩ := hext k
        exact hnew'.step hwf' hnew hlast

theorem foldlM_again (hwf : WellFormedChains chains)
    (hin : ∀ item ∈ items, ∃ e ∈ chainAt chains item.1, e.commitVersion = item.2.1.commitVersion)
    (hok : items.foldlM Store.appendChainEntry chains = .ok chains') : chains' = chains := by
  induction items with
  | nil => exact (Except.ok.inj hok).symm
  | cons item items ih =>
    rw [List.foldlM_cons] at hok
    cases hfirst : Store.appendChainEntry chains item with
    | error x =>
      rw [hfirst] at hok
      cases hok
    | ok mid =>
      rw [hfirst] at hok
      obtain ⟨e, he, hversion⟩ := hin item (by simp)
      rcases appendChainEntry_cases hwf hfirst with ⟨rfl, -⟩ | ⟨-, habove⟩
      · exact ih (fun x hx => hin x (by simp [hx])) hok
      · have := habove e he
        omega

/-! ### Batches that go through -/

theorem batchLe_iff {a b : String × VersionEntry × Nat} : Store.batchLe a b ↔
    (compareLex (compareOn fun x : String × VersionEntry × Nat => x.1)
      (compareOn fun x : String × VersionEntry × Nat => x.2.1.commitVersion) a b).isLE = true := by
  rw [Ordering.isLE_iff_ne_gt]
  rfl

instance : IsTrans (String × VersionEntry × Nat) Store.batchLe where
  trans _ _ _ hab hbc := batchLe_iff.2 (Std.TransCmp.isLE_trans (batchLe_iff.1 hab) (batchLe_iff.1 hbc))

instance : Std.Total Store.batchLe where
  total a b := by
    rw [batchLe_iff, batchLe_iff, @Std.OrientedCmp.eq_swap _ (compareLex _ _) _ b a]
    cases compareLex (compareOn fun x : String × VersionEntry × Nat => x.1)
      (compareOn fun x : String × VersionEntry × Nat => x.2.1.commitVersion) a b <;> simp

theorem commitVersion_le_of_batchLe {a b : String × VersionEntry × Nat} (h : Store.batchLe a b) (hkey : a.1 = b.1) :
    a.2.1.commitVersion ≤ b.2.1.commitVersion := by
  simpa [Store.batchLe, hkey, Nat.compare_eq_gt] using h

/-- The two entries are of one write: they have the version, the transaction, the object and the deletion in common.
-/
def VersionEntry.Repeats (e e' : VersionEntry) : Prop :=
  e.commitVersion = e'.commitVersion ∧ e.txnId = e'.txnId ∧ e.backendKey = e'.backendKey ∧ e.deleted = e'.deleted

/-- The entry can be appended after `last`: it is newer, or of the same write. -/
def VersionEntry.Follows (last e : VersionEntry) : Prop := last.commitVersion < e.commitVersion ∨ last.Repeats e

theorem VersionEntry.Repeats.follows_iff {e' x : VersionEntry} (h : e.Repeats e') : e.Follows x ↔ e'.Follows x := by
  obtain ⟨h₁, h₂, h₃, h₄⟩ := h
  simp only [Follows, Repeats, h₁, h₂, h₃, h₄]

theorem VersionEntry.Follows.trans {last x : VersionEntry} (h : last.Follows e) (hx : e.Follows x) :
    last.Follows x := by
  rcases h with hlt | hrep
  · rcases hx with hlt' | hrep'
    · exact .inl (hlt.trans hlt')
    · exact .inl (hrep'.1 ▸ hlt)
  · exact hrep.follows_iff.2 hx

theorem appendChainEntry_ok_iff (hsnap : item.2.1.commitVersion ≤ item.2.2) :
    (∃ chains', Store.appendChainEntry chains item = .ok chains') ↔
      ∀ last ∈ (chainAt chains item.1).getLast?, last.Follows item.2.1 := by
  obtain ⟨k, e, snap⟩ := item
  simp only [Store.appendChainEntry, chainAt] at hsnap ⊢
  generalize (chains[k]?).getD (.new k) = c
  cases hlast : c.entries.getLast? with
  | none =>
    have hnil : c.entries = [] := List.getLast?_eq_none_iff.1 hlast
    simp [hnil]
  | some last =>
    have hne : c.entries ≠ [] := List.ne_nil_of_mem (List.mem_of_getLast? hlast)
    have hlatest : c.latestCommitVersion = last.commitVersion := by simp [VersionChain.latestCommitVersion, hlast]
    simp only [hlatest, Option.mem_some_iff, forall_eq', VersionEntry.Follows, VersionEntry.Repeats]
    split_ifs with hconflict hrepeat hmono
    · simp only [exists_false, false_iff]
      omega
    · have hsame : last.txnId = e.txnId ∧ last.backendKey = e.backendKey ∧ last.deleted = e.deleted := by
        simpa [and_assoc] using hrepeat.2
      simp [hsame, hrepeat.1]
    · simp only [exists_false, false_iff]
      rintro (hlt | ⟨heq, h₂, h₃, h₄⟩)
      · omega
      · exact hrepeat ⟨heq.symm, by simp [h₂, h₃, h₄]⟩
    · simp only [Except.ok.injEq, exists_eq', true_iff]
      exact .inl (by_contra fun hge => hmono ⟨not_lt.1 hge, hne⟩)

theorem appendChainEntry_last (hok : Store.appendChainEntry chains item = .ok chains') :
    (∃ last, (chainAt chains' item.1).getLast? = some last ∧ last.Repeats item.2.1) ∧
      ∀ k, k ≠ item.1 → chainAt chains' k = chainAt chains k := by
  obtain ⟨k, e, snap⟩ := item
  simp only [Store.appendChainEntry] at hok
  split_ifs at hok with hconflict hrepeat hmono
  · obtain ⟨hversion, hlast⟩ := hrepeat
    obtain ⟨last, hlast, hsame⟩ := (Option.any_eq_true _ _).1 hlast
    cases hok
    refine ⟨⟨last, hlast, ?_, ?_⟩, fun _ _ => rfl⟩
    · rw [hversion, VersionChain.latestCommitVersion, hlast]
      rfl
    · simpa [and_assoc] using hsame
  · cases hok
    refine ⟨⟨e, by simp [chainAt_insert], rfl, rfl, rfl, rfl⟩, fun k' hk' => ?_⟩
    simp [chainAt_insert, Ne.symm hk']

theorem foldlM_ok_iff (hsnap : ∀ item ∈ items, item.2.1.commitVersion ≤ item.2.2) :
    (∃ chains', items.foldlM Store.appendChainEntry chains = .ok chains') ↔
      (∀ item ∈ items, ∀ last ∈ (chainAt chains item.1).getLast?, last.Follows item.2.1) ∧
        items.Pairwise fun a b => a.1 = b.1 → a.2.1.Follows b.2.1 := by
  induction items generalizing chains with
  | nil => simp [pure, Except.pure]
  | cons item items ih =>
    obtain ⟨hfits, hsnap⟩ := List.forall_mem_cons.1 hsnap
    rw [List.foldlM_cons, List.forall_mem_cons, List.pairwise_cons, ← appendChainEntry_ok_iff hfits]
    cases hfirst : Store.appendChainEntry chains item with
    | error x => simp [bind, Except.bind]
    | ok mid =>
      obtain ⟨⟨last, hlast, hrep⟩, hother⟩ := appendChainEntry_last hfirst
      have hbefore := (appendChainEntry_ok_iff hfits).1 ⟨mid, hfirst⟩
      refine (ih hsnap).trans ?_
      constructor
      · rintro ⟨hlasts, hrest⟩
        have hnext : ∀ x ∈ items, item.1 = x.1 → item.2.1.Follows x.2.1 := fun x hx hkey =>
          hrep.follows_iff.1 (hlasts x hx last (hkey ▸ hlast))
        refine ⟨⟨⟨mid, rfl⟩, fun x hx l hl => ?_⟩, hnext, hrest⟩
        by_cases hkey : item.1 = x.1
        · exact (hbefore l (hkey ▸ hl)).trans (hnext x hx hkey)
        · exact hlasts x hx l (hother x.1 (Ne.symm hkey) ▸ hl)
      · rintro ⟨⟨-, hlasts⟩, hnext, hrest⟩
        refine ⟨fun x hx l hl => ?_, hrest⟩
        by_cases hkey : item.1 = x.1
        · rw [← hkey, hlast] at hl
          cases hl
          exact hrep.follows_iff.2 (hnext x hx hkey)
        · exact hlasts x hx l (hother x.1 (Ne.symm hkey) ▸ hl)

/-! ## The transactions of the store -/

/-- Every stored chain is well formed. -/
def Store.WellFormed (s : Store) : Prop := WellFormedChains s.versionChains

namespace Store.WellFormed

variable {s : Store}

theorem appendChainEntryAlone (h : s.WellFormed) (key : String) (entry : VersionEntry) :
    (s.appendChainEntryAlone key entry).2.WellFormed := by
  unfold Store.appendChainEntryAlone
  simp only
  split
  · exact h
  case isFalse hmono =>
    exact WellFormedChains.insert h fun e he => above_of_monotonic (WellFormedChains.ascending h key) hmono he

theorem appendChainEntriesBulk (h : s.WellFormed) (entries : List (String × VersionEntry × Nat)) :
    (s.appendChainEntriesBulk entries).2.WellFormed := by
  unfold Store.appendChainEntriesBulk
  split
  case h_1 chains hok => exact (foldlM_extends h hok).1
  case h_2 => exact h

theorem gcChainsInner (h : s.WellFormed) (requestedMin : Option (WithTop Nat)) :
    (s.gcChainsInner requestedMin).2.WellFormed :=
  WellFormedChains.prune h _

theorem of_chains_eq {s' : Store} (h : s.WellFormed) (heq : s'.versionChains = s.versionChains) : s'.WellFormed := by
  unfold Store.WellFormed at h ⊢
  rwa [heq]

end Store.WellFormed

theorem World.exec_wellFormed (a : Act) (w : World) (h : w.store.WellFormed) : (w.exec a).2.store.WellFormed := by
  cases a <;> try exact h
  case unregisterSnapshot snap =>
    refine h.of_chains_eq ?_
    simp only [World.exec, World.setStore, Store.unregisterSnapshot]
    split <;> rfl
  case compareAndSetTxnStatus t expected next =>
    refine h.of_chains_eq ?_
    simp only [World.exec, World.onStore, Store.compareAndSetTxnStatus]
    split
    · rfl
    · split <;> rfl
  case appendChainEntriesBulk entries => exact h.appendChainEntriesBulk entries
  case gcChainsAtActiveSnapshot => exact h.gcChainsInner none

theorem RebuildAct.exec_wellFormed (a : RebuildAct) (s : Store) (h : s.WellFormed) : (a.exec s).2.WellFormed := by
  cases a <;> try exact h
  case putRecordVersionsBulk updates =>
    refine h.of_chains_eq ?_
    change (updates.foldl _ s).versionChains = _
    induction updates generalizing s with
    | nil => rfl
    | cons u us ih => exact ih (s.putRecordVersion u.1 u.2.1 u.2.2) h
  case appendChainEntriesBulk entries => exact h.appendChainEntriesBulk entries

/-! ## Runs -/

/-- What can touch the chains: requests to the server, direct appends, collections, and a cold rebuild. -/
inductive ChainOp where
  | request (r : Request)
  | appendChainEntry (key : String) (entry : VersionEntry)
  | appendChainEntriesBulk (entries : List (String × VersionEntry × Nat))
  | gcChains (requestedMin : Option (WithTop Nat))
  | rebuild (c : Codecs) (backend : Backend) (listed : Except String (List ListedObject))
      (order : List (RecordKey × Rebuild.PerKey) → List (RecordKey × Rebuild.PerKey))

def ChainOp.step (env : Env) : ChainOp → World → Option World
  | request r, w => r.step env w
  | appendChainEntry key entry, w => some { w with store := (w.store.appendChainEntryAlone key entry).2 }
  | appendChainEntriesBulk entries, w => some { w with store := (w.store.appendChainEntriesBulk entries).2 }
  | gcChains requestedMin, w => some { w with store := (w.store.gcChainsInner requestedMin).2 }
  | rebuild c backend listed order, w =>
    some { w with store := ((Xtable.rebuild c backend listed order).run RebuildAct.exec w.store).2 }

theorem ChainOp.step_wellFormed {env : Env} {op : ChainOp} {w w' : World} (h : w.store.WellFormed)
    (hstep : op.step env w = some w') : w'.store.WellFormed := by
  cases op with
  | request r =>
    simp only [ChainOp.step, Request.step] at hstep
    split at hstep
    case isFalse => cases hstep
    case isTrue =>
      cases hstep
      exact Prog.run_keeps World.exec (I := fun w => w.store.WellFormed) World.exec_wellFormed _ h
  | appendChainEntry key entry =>
    cases hstep
    exact h.appendChainEntryAlone key entry
  | appendChainEntriesBulk entries =>
    cases hstep
    exact h.appendChainEntriesBulk entries
  | gcChains requestedMin =>
    cases hstep
    exact h.gcChainsInner requestedMin
  | rebuild c backend listed order =>
    cases hstep
    exact Prog.run_keeps RebuildAct.exec (I := Store.WellFormed) RebuildAct.exec_wellFormed _ h

/-- In every reachable state every stored chain is non-empty and strictly ascending; a bulk append that fails
changes no chain, and one that succeeds extends each chain at its end, by the distinct new versions of its key. -/
theorem chains_well_formed (env : Env) {hist : List (World × ChainOp × World)} {w : World}
    (hrun : Run (ChainOp.step env) {} hist w) :
    w.store.WellFormed ∧ ∀ entries,
      (∀ x, (w.store.appendChainEntriesBulk entries).1 = .error x →
        (w.store.appendChainEntriesBulk entries).2.versionChains = w.store.versionChains) ∧
      ((w.store.appendChainEntriesBulk entries).1 = .ok () → ∀ k, ∃ new,
        ((w.store.appendChainEntriesBulk entries).2.readChain k).entries = (w.store.readChain k).entries ++ new ∧
          Extends (w.store.readChain k).entries new k entries) := by
  have hempty : ({} : World).store.WellFormed := fun k c hc => by simp at hc
  obtain ⟨hwf, -⟩ := hrun.invariant (I := fun w => w.store.WellFormed) (C := fun _ _ => True) hempty
    (fun u op v hu _ hstep => ChainOp.step_wellFormed hu hstep) fun _ _ => trivial
  refine ⟨hwf, fun entries => ?_⟩
  unfold Store.appendChainEntriesBulk
  cases hfold : (entries.insertionSort Store.batchLe).foldlM Store.appendChainEntry w.store.versionChains with
  | error x => exact ⟨fun _ _ => rfl, fun hok => by cases hok⟩
  | ok chains =>
    refine ⟨fun _ herr => (by cases herr), fun _ k => ?_⟩
    obtain ⟨new, hnew, hext⟩ := (foldlM_extends hwf hfold).2 k
    -- the batch is appended in sorted order, which has the same members
    refine ⟨new, hnew, fun e he => ?_, hext.ascending, fun v => ?_⟩
    · obtain ⟨snap, hsnap⟩ := hext.taken e he
      exact ⟨snap, (List.mem_insertionSort _).1 hsnap⟩
    · have hversions := hext.versions v
      simp only [List.mem_insertionSort] at hversions
      exact hversions

/-- A batch out of order, with a repeated version. -/
theorem chains_well_formed_batch : ∃ w, Run (ChainOp.step .sample) {}
      (history (ChainOp.step .sample) [.appendChainEntriesBulk
        [("k", .new 2 "" "b" "T" 0, 9), ("k", .new 1 "" "a" "T" 0, 9), ("k", .new 2 "" "b" "T" 0, 9)]] {}) w ∧
    (w.store.readChain "k").entries.map (·.commitVersion) = [1, 2] ∧ w.store.WellFormed := by
  obtain ⟨w, hrun, htest⟩ := Run.exists_of_exec (ChainOp.step .sample) {} [.appendChainEntriesBulk
    [("k", .new 2 "" "b" "T" 0, 9), ("k", .new 1 "" "a" "T" 0, 9), ("k", .new 2 "" "b" "T" 0, 9)]]
    (fun w => (w.store.readChain "k").entries.map (·.commitVersion) = [1, 2]) (by decide +kernel)
  exact ⟨w, hrun, of_decide_eq_true htest, (chains_well_formed .sample hrun).1⟩

end Xtable
