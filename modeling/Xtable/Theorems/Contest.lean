import Xtable.Tx.Cluster
import Xtable.Tx.Operations
import Xtable.Theorems.Status

/-! Calls of any number of coordinators on one store. The compare-and-set from `Active` decides which of them a
    transaction belongs to: only its winner touches the write set, the row and the chains on the transaction's
    account. -/

namespace Xtable

open Pool (Phases Phased)
open Prog Coordinator

variable {e : Nat × Act} {a : Act}

/-! ## The protocol of the contenders -/

/-- What a call has a stake in: nothing, a commit that has or has not read its write set, or the abort of a
transaction. -/
inductive Stake where
  | free
  | unread (t : String)
  | owner (t : String)
  | aborter (t : String)

/-- Actions that anyone may perform at any time: they touch no row, no write-set row and no chain. -/
def Act.Harmless (a : Act) : Prop :=
  match a with
  | deleteWriteEntry _ _ | appendChainEntriesBulk _ => False
  | a => a.KeepsRows

/-- What the winner of a commit may do once it has read the write set. -/
inductive OwnerAct (t : String) : Act → Prop where
  | harmless {a : Act} (ha : a.Harmless) : OwnerAct t a
  | put {r : TxnStateRecord} (hst : r.status ≠ .active) : OwnerAct t (.putTxnState t r)
  | append {entries : List (String × VersionEntry × Nat)} (h : ∀ x ∈ entries, x.2.1.txnId = t) :
      OwnerAct t (.appendChainEntriesBulk entries)
  | drop {k : String} : OwnerAct t (.deleteWriteEntry t k)

inductive AborterAct (t : String) : Act → Prop where
  | harmless {a : Act} (ha : a.Harmless) : AborterAct t a
  | drop {k : String} : AborterAct t (.deleteWriteEntry t k)

namespace Stake

/-- Free to contend for a transaction. -/
def Loose : Stake → Prop
  | free | aborter _ => True
  | _ => False

inductive Move : Protocol Act.Res Stake where
  | claimCommit {g : Stake} {t : String} (hg : g.Loose) :
      Move g (.compareAndSetTxnStatus t .active .committing) (fun _ => True)
        fun won : Bool => if won then .unread t else g
  | claimAbort {g : Stake} {t : String} (hg : g.Loose) :
      Move g (.compareAndSetTxnStatus t .active .aborted) (fun _ => True)
        fun won : Bool => if won then .aborter t else g
  | readRow {t : String} :
      Move (.unread t) (.getTxnState t)
        (fun r : Option TxnStateRecord => ∃ row, r = some row ∧ row.status ≠ .active) fun _ => .unread t
  | readWrites {t : String} : Move (.unread t) (.iterWriteSet t) (fun _ => True) fun _ => .owner t
  | owner {t : String} {a : Act} (ha : OwnerAct t a) : Move (.owner t) a (fun _ => True) fun _ => .owner t
  | aborter {t : String} {a : Act} (ha : AborterAct t a) : Move (.aborter t) a (fun _ => True) fun _ => .aborter t
  | look {a : Act} (ha : a.Harmless) : Move .free a (fun _ => True) fun _ => .free

/-- A call never ends between its claim and its reading of the write set. -/
def Settled (g : Stake) : Prop := ∀ t, g ≠ .unread t

theorem Loose.settled {g : Stake} (h : g.Loose) : g.Settled := by
  rintro t rfl
  exact h

theorem Loose.harmless {g : Stake} (h : g.Loose) (ha : a.Harmless) : Move g a (fun _ => True) fun _ => g := by
  cases g with
  | free => exact .look ha
  | aborter t => exact .aborter (.harmless ha)
  | unread t | owner t => exact h.elim

end Stake

/-! ## The programs follow it -/

section Programs

variable {t : String}

theorem Act.Idle.harmless {a : Act} (h : a.Idle) : a.Harmless := by
  cases a <;> first | exact h.elim | trivial

theorem DropAct.aborter {a : Act} (h : DropAct t a) : AborterAct t a := by
  cases h with
  | idle ha => exact .harmless ha.harmless
  | log => exact .harmless trivial
  | drop => exact .drop

theorem CommitAct.owner {snap : Nat} {moved : Prop} (hmoved : moved) {a : Act} (h : CommitAct t snap moved a) :
    OwnerAct t a := by
  cases h with
  | drop ha =>
    cases ha with
    | idle ha => exact .harmless ha.harmless
    | log => exact .harmless trivial
    | drop => exact .drop
  | put hsnap hst => exact .put (hst hmoved)
  | append h => exact .append h

theorem commitOwned_stakes (env : Env) (aged : String → Bool) (t : String) :
    (commitOwned (Engine.postCommitHook env) aged t).Obeys Stake.Move (.unread t) fun _ g => g = .owner t := by
  refine (commitOwned_walk env aged .readRow (fun _ _ => .readWrites) ?_).mono ?_
  · rintro txn ⟨_, ⟨⟩, hst⟩ a ha
    exact .owner (ha.owner hst)
  · rintro r g (⟨⟨_, hnone, -⟩, -⟩ | ⟨txn, -, hg⟩)
    · cases hnone
    · exact hg

theorem commit_stakes (env : Env) (aged : String → Bool) (t : String) :
    (Coordinator.commit (Engine.postCommitHook env) aged t).Obeys Stake.Move .free fun _ g => g.Settled := by
  refine Obeys.bind ((claim_walk (Stake.Move.look trivial) (.claimCommit trivial) rfl).mono ?_)
  rintro (_ | _ | version) g hg
  · exact hg ▸ nofun
  · obtain rfl : g = .unread t := hg
    refine Obeys.bind (Obeys.attempt ((commitOwned_stakes env aged t).mono ?_))
    rintro (err | version) _ rfl
    · have hlook : Stake.Move (.owner t) (.getTxnState t) (fun _ => True) fun _ => .owner t := .owner (.harmless trivial)
      refine Obeys.bind ((reconcile_walk err hlook fun _ _ a ha => .owner (ha.owner trivial)).mono ?_)
      rintro (_ | _) _ ⟨_, -, rfl⟩ <;> exact nofun
    · exact nofun
  · exact hg ▸ nofun

theorem abort_stakes (t : String) : (Coordinator.abort t).Obeys Stake.Move .free fun _ g => g.Settled := by
  refine (abort_walk (.look trivial) (fun _ => .claimAbort trivial) fun _ a ha => .aborter ha.aborter).mono ?_
  rintro _ _ (⟨_, rfl⟩ | ⟨_, _ | _, rfl⟩) <;> exact nofun

theorem sweepStaleTxns_stakes (now timeout : Int) :
    (Gc.sweepStaleTxns now timeout).Obeys Stake.Move .free fun r g => (∃ k, r = .ok k) ∧ g.Loose := by
  refine Obeys.perform (.look trivial) fun stale _ => abortEach_obeys ?_ trivial 0 stale
  intro g t hg
  have hlook : Stake.Move g (.getTxnState t) (fun _ => True) fun _ => g := hg.harmless trivial
  refine (abortTxnLocal_walk hlook (fun _ => .claimAbort hg) fun _ a ha => .aborter ha.aborter).mono ?_
  rintro _ _ ⟨hok, ⟨_, rfl⟩ | ⟨_, _ | _, rfl⟩⟩
  · exact ⟨hok, hg⟩
  · exact ⟨hok, hg⟩
  · exact ⟨hok, trivial⟩

end Programs

/-! ## The contest over one transaction -/

namespace Stake

/-- The transaction a call commits. -/
def commits : Stake → Option String
  | unread t | owner t => some t
  | _ => none

def aborts : Stake → Option String
  | aborter t => some t
  | _ => none

theorem Move.append_commits {g : Stake} {entries : List (String × VersionEntry × Nat)} {A N}
    (hm : Move g (.appendChainEntriesBulk entries) A N) {x : String × VersionEntry × Nat} (hx : x ∈ entries) :
    g.commits = some x.2.1.txnId := by
  cases hm with
  | owner ha =>
    cases ha with
    | append h => rw [h x hx]; rfl
    | harmless ha => exact ha.elim
  | aborter ha => cases ha with | harmless ha => exact ha.elim
  | look ha => exact ha.elim

theorem Move.delete_owner {g : Stake} {t k : String} {A N} (hm : Move g (.deleteWriteEntry t k) A N) :
    g = .owner t ∨ g = .aborter t := by
  cases hm with
  | owner ha =>
    cases ha with
    | drop => exact .inl rfl
    | harmless ha => exact ha.elim
  | aborter ha =>
    cases ha with
    | drop => exact .inr rfl
    | harmless ha => exact ha.elim
  | look ha => exact ha.elim

end Stake

/-- The status to which a compare-and-set moves the row of `t` from `Active`, if it passes. -/
def Store.claimed (s : Store) (t : String) : Act → Option TxnStatus
  | .compareAndSetTxnStatus t' .active next =>
    if t' = t ∧ (s.getTxnState t).map (·.status) = some .active then some next else none
  | _ => none

/-- The contest over `t` when `k` has been claimed: until then the row is `Active` and nobody has a stake in `t`;
afterwards it is not, and only the winner has. -/
structure Contest (t : String) (k : Option TxnStatus) (s : Store)
    (γ : Phases (Nat × Act) (Nat × Call) Stake) : Prop where
  row : ∃ row, s.getTxnState t = some row ∧ (row.status = .active ↔ k = none)
  commits : ∀ i ph, γ i = some ph → ph.phase.commits = some t → k = some .committing
  aborts : ∀ i ph, γ i = some ph → ph.phase.aborts = some t → k = some .aborted
  alone : ∀ i j a b, γ i = some a → γ j = some b → a.phase.commits = some t → b.phase.commits = some t → i = j

namespace Contest

variable {t : String} {k : Option TxnStatus} {s s' : Store} {γ : Phases (Nat × Act) (Nat × Call) Stake} {i : Nat}
  {x : Nat × Call} {d d' : List (Nat × Act)} {g g' : Stake}

theorem keep (h : Contest t k s γ) (hi : γ i = some ⟨x, d, g⟩)
    (hrow : ∃ row, s'.getTxnState t = some row ∧ (row.status = .active ↔ k = none))
    (hcommits : g'.commits = some t → g.commits = some t) (haborts : g'.aborts = some t → g.aborts = some t) :
    Contest t k s' (Function.update γ i (some ⟨x, d', g'⟩)) := by
  have hold : ∀ {j ph}, Function.update γ i (some ⟨x, d', g'⟩) j = some ph →
      ∃ ph', γ j = some ph' ∧ (ph.phase.commits = some t → ph'.phase.commits = some t) ∧
        (ph.phase.aborts = some t → ph'.phase.aborts = some t) := by
    intro j ph hj
    by_cases hji : j = i
    · subst hji
      obtain rfl : ⟨x, d', g'⟩ = ph := by simpa using hj
      exact ⟨_, hi, hcommits, haborts⟩
    · exact ⟨ph, by simpa [hji] using hj, id, id⟩
  refine ⟨hrow, fun j ph hj hc => ?_, fun j ph hj ha => ?_, fun j l a b hj hl hja hlb => ?_⟩
  · obtain ⟨ph', hj', hcommits', -⟩ := hold hj
    exact h.commits j ph' hj' (hcommits' hc)
  · obtain ⟨ph', hj', -, haborts'⟩ := hold hj
    exact h.aborts j ph' hj' (haborts' ha)
  · obtain ⟨a', hj', ha', -⟩ := hold hj
    obtain ⟨b', hl', hb', -⟩ := hold hl
    exact h.alone j l a' b' hj' hl' (ha' hja) (hb' hlb)

theorem of_stakeless (h : Contest t k s γ) {ph : Option (Phased (Nat × Act) (Nat × Call) Stake)}
    (hcommits : ∀ y, ph = some y → y.phase = .free) : Contest t k s (Function.update γ i ph) := by
  have hold : ∀ {j y}, Function.update γ i ph j = some y → y.phase = .free ∨ γ j = some y := by
    intro j y hj
    by_cases hji : j = i
    · subst hji
      exact .inl (hcommits y (by simpa using hj))
    · exact .inr (by simpa [hji] using hj)
  have hfree : ∀ {y : Phased (Nat × Act) (Nat × Call) Stake}, y.phase = .free →
      y.phase.commits ≠ some t ∧ y.phase.aborts ≠ some t := by
    intro y hy
    simp [hy, Stake.commits, Stake.aborts]
  refine ⟨h.row, fun j y hj hc => ?_, fun j y hj ha => ?_, fun j l a b hj hl hja hlb => ?_⟩
  · exact h.commits j y ((hold hj).resolve_left fun hy => (hfree hy).1 hc) hc
  · exact h.aborts j y ((hold hj).resolve_left fun hy => (hfree hy).2 ha) ha
  · exact h.alone j l a b ((hold hj).resolve_left fun hy => (hfree hy).1 hja)
      ((hold hl).resolve_left fun hy => (hfree hy).1 hlb) hja hlb

theorem win (h : Contest t none s γ) {next : TxnStatus} (hnext : next ≠ .active) {row : TxnStateRecord}
    (hrow : s'.getTxnState t = some row) (hst : row.status = next)
    (hcommits : g'.commits = some t → next = .committing) (haborts : g'.aborts = some t → next = .aborted) :
    Contest t (some next) s' (Function.update γ i (some ⟨x, d', g'⟩)) := by
  have hcommit : ∀ {j y}, Function.update γ i (some ⟨x, d', g'⟩) j = some y → y.phase.commits = some t →
      j = i ∧ y.phase = g' := by
    intro j y hj hc
    by_cases hji : j = i
    · subst hji
      obtain rfl : ⟨x, d', g'⟩ = y := by simpa using hj
      exact ⟨rfl, rfl⟩
    · exact absurd (h.commits j y (by simpa [hji] using hj) hc) nofun
  refine ⟨⟨row, hrow, by simp [hst, hnext]⟩, fun j y hj hc => ?_, fun j y hj ha => ?_, fun j l a b hj hl hja hlb => ?_⟩
  · obtain ⟨-, hy⟩ := hcommit hj hc
    rw [hcommits (hy ▸ hc)]
  · by_cases hji : j = i
    · subst hji
      obtain rfl : ⟨x, d', g'⟩ = y := by simpa using hj
      rw [haborts ha]
    · exact absurd (h.aborts j y (by simpa [hji] using hj) ha) nofun
  · rw [(hcommit hj hja).1, (hcommit hl hlb).1]

theorem idle {row : TxnStateRecord} (hrow : s.getTxnState t = some row) (hst : row.status = .active) :
    Contest t none s fun _ => none :=
  ⟨⟨row, hrow, by simp [hst]⟩, by simp, by simp, by simp⟩

end Contest

section Actions

variable {t : String} {k : Option TxnStatus} {c : Cluster} {γ : Phases (Nat × Act) (Nat × Call) Stake} {i : Nat}
  {x : Nat × Call} {d : List (Nat × Act)} {g : Stake}

theorem Store.claimed_keepsRows {s : Store} (h : a.KeepsRows) : s.claimed t a = none := by
  cases a <;> first | rfl | exact h.elim

theorem Act.Harmless.keepsRows (h : a.Harmless) : a.KeepsRows := by
  cases a <;> first | exact h.elim | trivial

theorem Cluster.exec_keepsRows (h : e.2.KeepsRows) : (exec e c).2.store.getTxnState t = c.store.getTxnState t :=
  congrFun (h.row_eq (c.world e.1)) t

theorem Cluster.exec_claim (c : Cluster) (n : Nat) (t' : String) (next : TxnStatus) :
    let a : Act := .compareAndSetTxnStatus t' .active next
    (∃ r, c.store.getTxnState t' = some r ∧ r.status = .active ∧ (exec (n, a) c).1 = true ∧
      ∀ t, (exec (n, a) c).2.store.getTxnState t =
          (if t = t' then some { r with status := next } else c.store.getTxnState t) ∧
        c.store.claimed t a = if t = t' then some next else none) ∨
    ((exec (n, a) c).1 = false ∧ ∀ t, (exec (n, a) c).2.store.getTxnState t = c.store.getTxnState t ∧
      c.store.claimed t a = none) := by
  rcases World.exec_compareAndSet (c.world n) t' .active next with
    ⟨r, hr, hst, heq⟩ | ⟨hne, heq⟩
  · have hrow : c.store.getTxnState t' = some r := hr
    refine .inl ⟨r, hr, hst, by simp only [exec, heq], fun t => ⟨?_, ?_⟩⟩
    · rw [exec_store, heq]
      simp only [Store.getTxnState, Store.putTxnState, Table.get_insert, eq_comm (a := t)]
      rfl
    · by_cases ht : t = t'
      · subst ht
        simp [Store.claimed, hrow, hst]
      · simp [Store.claimed, ht, Ne.symm ht]
  · have hne' : ∀ r, c.store.getTxnState t' = some r → r.status ≠ .active := hne
    refine .inr ⟨by simp only [exec, heq], fun t => ⟨?_, ?_⟩⟩
    · rw [exec_store, heq]
      rfl
    · simp only [Store.claimed, ite_eq_right_iff, reduceCtorEq, imp_false, not_and]
      rintro rfl hactive
      obtain ⟨r, hr, hst⟩ := Option.map_eq_some_iff.1 hactive
      exact hne' r hr hst

theorem Stake.Move.effect {A : e.2.Res → Prop} {N : e.2.Res → Stake} (hm : Stake.Move g e.2 A N) (c : Cluster) :
    let s' := (Cluster.exec e c).2.store
    let g' := N (Cluster.exec e c).1
    (g'.commits = g.commits ∧ g'.aborts = g.aborts ∧
      ∀ t, s'.getTxnState t = c.store.getTxnState t ∧ c.store.claimed t e.2 = none) ∨
    (g'.commits = g.commits ∧ g'.aborts = g.aborts ∧ ∃ t' r, g.commits = some t' ∧ r.status ≠ .active ∧
      ∀ t, s'.getTxnState t = (if t = t' then some r else c.store.getTxnState t) ∧ c.store.claimed t e.2 = none) ∨
    ∃ t' r next, c.store.getTxnState t' = some r ∧ r.status = .active ∧
      (next = .committing ∧ g' = .unread t' ∨ next = .aborted ∧ g' = .aborter t') ∧
      ∀ t, s'.getTxnState t = (if t = t' then some { r with status := next } else c.store.getTxnState t) ∧
        c.store.claimed t e.2 = if t = t' then some next else none := by
  obtain ⟨n, a⟩ := e
  have hkeeps : ∀ {N : a.Res → Stake}, a.KeepsRows → (∀ r, (N r).commits = g.commits ∧ (N r).aborts = g.aborts) →
      (N (Cluster.exec (n, a) c).1).commits = g.commits ∧ (N (Cluster.exec (n, a) c).1).aborts = g.aborts ∧
        ∀ t, (Cluster.exec (n, a) c).2.store.getTxnState t = c.store.getTxnState t ∧ c.store.claimed t a = none :=
    fun hk hN => ⟨(hN _).1, (hN _).2, fun t => ⟨Cluster.exec_keepsRows hk, Store.claimed_keepsRows hk⟩⟩
  cases hm with
  | readRow | readWrites => exact .inl (hkeeps trivial fun _ => ⟨rfl, rfl⟩)
  | look ha => exact .inl (hkeeps ha.keepsRows fun _ => ⟨rfl, rfl⟩)
  | aborter ha =>
    refine .inl (hkeeps ?_ fun _ => ⟨rfl, rfl⟩)
    cases ha with
    | harmless ha => exact ha.keepsRows
    | drop => trivial
  | @owner t' a ha =>
    cases ha with
    | harmless ha => exact .inl (hkeeps ha.keepsRows fun _ => ⟨rfl, rfl⟩)
    | append h | drop => exact .inl (hkeeps trivial fun _ => ⟨rfl, rfl⟩)
    | @put r hst =>
      refine .inr (.inl ⟨rfl, rfl, t', r, rfl, hst, fun t => ⟨?_, rfl⟩⟩)
      change (c.store.putTxnState t' r).txnState[t]? = _
      rw [Store.putTxnState, Table.get_insert]
      simp only [eq_comm (a := t)]
      rfl
  | @claimCommit _ t' hg =>
    rcases Cluster.exec_claim c n t' .committing with ⟨r, hr, hst, hwon, hafter⟩ | ⟨hlost, hafter⟩
    · exact .inr (.inr ⟨t', r, .committing, hr, hst, .inl ⟨rfl, if_pos hwon⟩, hafter⟩)
    · simp only [hlost]
      exact .inl ⟨rfl, rfl, hafter⟩
  | @claimAbort _ t' hg =>
    rcases Cluster.exec_claim c n t' .aborted with ⟨r, hr, hst, hwon, hafter⟩ | ⟨hlost, hafter⟩
    · exact .inr (.inr ⟨t', r, .aborted, hr, hst, .inr ⟨rfl, if_pos hwon⟩, hafter⟩)
    · simp only [hlost]
      exact .inl ⟨rfl, rfl, hafter⟩

theorem Stake.Move.unread {A : e.2.Res → Prop} {N : e.2.Res → Stake} (hm : Stake.Move g e.2 A N)
    (hclaim : c.store.claimed t e.2 = some .committing) : N (Cluster.exec e c).1 = .unread t := by
  rcases hm.effect c with ⟨-, -, hafter⟩ | ⟨-, -, t', r, -, -, hafter⟩ | ⟨t', r, next, -, -, hnext, hafter⟩
  · rw [(hafter t).2] at hclaim
    cases hclaim
  · rw [(hafter t).2] at hclaim
    cases hclaim
  · rw [(hafter t).2] at hclaim
    split at hclaim
    case isFalse => cases hclaim
    case isTrue heq =>
      subst heq
      rcases hnext with ⟨-, hg'⟩ | ⟨rfl, -⟩
      · exact hg'
      · cases hclaim

/-- A transaction that some commit has won is not `Active`. -/
def Staked (s : Store) (γ : Phases (Nat × Act) (Nat × Call) Stake) : Prop :=
  ∀ i ph t, γ i = some ph → ph.phase.commits = some t → ∃ row, s.getTxnState t = some row ∧ row.status ≠ .active

theorem Staked.answer {A : e.2.Res → Prop} {N : e.2.Res → Stake} (h : Staked c.store γ) (hi : γ i = some ⟨x, d, g⟩)
    (hm : Stake.Move g e.2 A N) : A (Cluster.exec e c).1 := by
  obtain ⟨n, a⟩ := e
  cases hm <;> try trivial
  case readRow t' =>
    obtain ⟨row, hrow, hst⟩ := h i _ t' hi rfl
    exact ⟨row, hrow, hst⟩

theorem Staked.act {A : e.2.Res → Prop} {N : e.2.Res → Stake} (h : Staked c.store γ) (hi : γ i = some ⟨x, d, g⟩)
    (hm : Stake.Move g e.2 A N) :
    Staked (Cluster.exec e c).2.store (Function.update γ i (some ⟨x, e :: d, N (Cluster.exec e c).1⟩)) := by
  -- rows that are not `Active` stay so
  have hstays : ∀ t, (∃ row, c.store.getTxnState t = some row ∧ row.status ≠ .active) →
      ∃ row, (Cluster.exec e c).2.store.getTxnState t = some row ∧ row.status ≠ .active := by
    rintro t ⟨row, hrow, hst⟩
    rcases hm.effect c with ⟨-, -, hafter⟩ | ⟨-, -, t', r, -, hr, hafter⟩ | ⟨t', r, next, hr, hactive, -, hafter⟩
    · exact ⟨row, (hafter t).1.trans hrow, hst⟩
    · rw [(hafter t).1]
      split
      · exact ⟨r, rfl, hr⟩
      · exact ⟨row, hrow, hst⟩
    · have hne : t ≠ t' := by
        rintro rfl
        cases hrow.symm.trans hr
        exact hst hactive
      rw [(hafter t).1, if_neg hne]
      exact ⟨row, hrow, hst⟩
  intro j ph t hj hc
  by_cases hji : j = i
  · subst hji
    obtain rfl : ⟨x, e :: d, N (Cluster.exec e c).1⟩ = ph := by simpa using hj
    rcases hm.effect c with ⟨hcommits, -⟩ | ⟨hcommits, -⟩ | ⟨t', r, next, -, -, hnext, hafter⟩
    · exact hstays t (h j _ t hi (hcommits ▸ hc))
    · exact hstays t (h j _ t hi (hcommits ▸ hc))
    · rcases hnext with ⟨rfl, hg'⟩ | ⟨-, hg'⟩
      · obtain rfl : t' = t := by simpa [hg', Stake.commits] using hc
        exact ⟨_, (hafter t').1.trans (if_pos rfl), nofun⟩
      · simp [hg', Stake.commits] at hc
  · exact hstays t (h j ph t (by simpa [hji] using hj) hc)

theorem Contest.act {A : e.2.Res → Prop} {N : e.2.Res → Stake} (h : Contest t k c.store γ) (hi : γ i = some ⟨x, d, g⟩)
    (hm : Stake.Move g e.2 A N) :
    Contest t ((c.store.claimed t e.2).or k) (Cluster.exec e c).2.store
      (Function.update γ i (some ⟨x, e :: d, N (Cluster.exec e c).1⟩)) ∧
    ∀ next, c.store.claimed t e.2 = some next → k = none := by
  rcases hm.effect c with ⟨hcommits, haborts, hafter⟩ | ⟨hcommits, haborts, t', r, hown, hr, hafter⟩ |
    ⟨t', r, next, hr, hactive, hnext, hafter⟩
  · rw [(hafter t).2]
    exact ⟨h.keep hi ((hafter t).1 ▸ h.row) (hcommits ▸ id) (haborts ▸ id), nofun⟩
  · rw [(hafter t).2]
    refine ⟨h.keep hi ?_ (hcommits ▸ id) (haborts ▸ id), nofun⟩
    rw [(hafter t).1]
    split
    case isTrue heq =>
      subst heq
      exact ⟨r, rfl, by simp [hr, h.commits i _ hi hown]⟩
    case isFalse => exact h.row
  · obtain ⟨hrow', hclaimed⟩ := hafter t
    by_cases ht : t = t'
    · subst ht
      rw [if_pos rfl] at hrow' hclaimed
      obtain ⟨row, hrow, hiff⟩ := h.row
      cases hrow.symm.trans hr
      obtain rfl := hiff.1 hactive
      rw [hclaimed]
      refine ⟨?_, fun _ _ => rfl⟩
      rcases hnext with ⟨rfl, hg'⟩ | ⟨rfl, hg'⟩
      · exact h.win nofun hrow' rfl (fun _ => rfl) (by simp [hg', Stake.aborts])
      · exact h.win nofun hrow' rfl (by simp [hg', Stake.commits]) fun _ => rfl
    · rw [if_neg ht] at hrow' hclaimed
      rw [hclaimed]
      refine ⟨h.keep hi (hrow' ▸ h.row) ?_ ?_, nofun⟩
      · rcases hnext with ⟨-, hg'⟩ | ⟨-, hg'⟩ <;> simp [hg', Stake.commits, Ne.symm ht]
      · rcases hnext with ⟨-, hg'⟩ | ⟨-, hg'⟩ <;> simp [hg', Stake.aborts, Ne.symm ht]

end Actions

/-! ## Runs -/

/-- The calls that contend for transactions. -/
def Call.contests : Call → Bool
  | commit _ _ | abort _ | sweepStale _ _ | sweep _ _ => true
  | _ => false

/-- The protocol of the contenders, whoever performs the action. -/
abbrev Stake.Step : Protocol (fun x : Nat × Act => x.2.Res) Stake := fun g e A N => Stake.Move g e.2 A N

abbrev ClusterPool.Follows (p : ClusterPool) (γ : Phases (Nat × Act) (Nat × Call) Stake) : Prop :=
  Pool.Follows Stake.Step (fun _ _ g => g.Settled) p γ

theorem Call.body_stakes (env : Env) {x : Nat × Call} (h : x.2.contests = true) :
    ((cluster env).body x).Obeys Stake.Step .free fun _ g => g.Settled := by
  have wrap : ∀ {α : Type} {p : Server α} {f : α → Server Reply}, p.Obeys Stake.Move .free (fun _ g => g.Settled) →
      (∀ a, ∃ r, f a = ret r) → (p >>= f).Obeys Stake.Move .free fun _ g => g.Settled := by
    intro α p f hp hf
    refine Obeys.bind (hp.mono fun r g hg => ?_)
    cases r with
    | error x => exact hg
    | ok a =>
      obtain ⟨r, hr⟩ := hf a
      simpa [hr] using hg
  refine Obeys.tag x.1 ?_
  obtain ⟨n, c⟩ := x
  cases c with
  | commit t aged => exact wrap (commit_stakes env aged t) fun _ => ⟨_, rfl⟩
  | abort t => exact wrap (abort_stakes t) fun _ => ⟨_, rfl⟩
  | sweepStale now timeout =>
    exact wrap ((sweepStaleTxns_stakes now timeout).mono fun _ _ hg => hg.2.settled) fun _ => ⟨_, rfl⟩
  | sweep now timeout =>
    refine wrap (p := Gc.sweepAll now timeout) (Obeys.bind ((sweepStaleTxns_stakes now timeout).mono ?_)) fun _ => ⟨_, rfl⟩
    rintro _ g ⟨⟨k, rfl⟩, hg⟩
    exact Obeys.perform (hg.harmless trivial) fun _ _ => hg.settled
  | begin | stage | read | heartbeat => cases h

namespace ClusterPool

/-- The status to which an event moves the row of `t` from `Active` by a compare-and-set that passes. -/
def claims (t : String) (p : ClusterPool) (ev : Pool.Event (Nat × Call)) : Option TxnStatus :=
  (p.performs ev).bind (p.state.store.claimed t)

variable {env : Env} {t : String} {k : Option TxnStatus} {u v : ClusterPool} {ev : Pool.Event (Nat × Call)}
  {γ : Phases (Nat × Act) (Nat × Call) Stake}

theorem contest_step (hstep : Step env ev u = some v) (hcall : ∀ i x, ev = .spawn i x → x.2.contests = true)
    (hf : u.Follows γ) (hs : Staked u.state.store γ) (hc : Contest t k u.state.store γ) :
    ∃ γ', v.Follows γ' ∧ Staked v.state.store γ' ∧ Contest t ((u.claims t ev).or k) v.state.store γ' ∧
      (∀ next, u.claims t ev = some next → k = none) ∧
      Pool.PhaseStep (cluster env) Stake.Step (fun _ => .free) (fun _ _ g => g.Settled) u γ ev v.state γ' := by
  obtain ⟨γ', hf', hmove⟩ := hf.step hstep
    (fun i x hev => Call.body_stakes env (hcall i x hev)) fun i x d g e A N _ _ hi hm => hs.answer hi hm
  refine ⟨γ', hf', ?_⟩
  generalize v.state = s' at hmove
  cases hmove with
  | @spawn i x hi hadm =>
    refine ⟨fun j ph t' hj hcommits => ?_, hc.of_stakeless fun y hy => ?_, nofun, .spawn hi hadm⟩
    · by_cases hji : j = i
      · subst hji
        obtain rfl : ⟨x, [], Stake.free⟩ = ph := by simpa using hj
        cases hcommits
      · exact hs j ph t' (by simpa [hji] using hj) hcommits
    · cases hy
      rfl
  | @act i x d g e A N hi hpend hm hA =>
    have hclaims : u.claims t (.act i) = u.state.store.claimed t e.2 := by
      simp only [claims, performs, hpend, Option.map_some, Option.bind_some]
    rw [hclaims]
    exact ⟨hs.act hi hm, (hc.act hi hm).1, (hc.act hi hm).2, .act hi hpend hm hA⟩
  | @finish i ph r hi hQ =>
    refine ⟨fun j y t' hj hcommits => ?_, hc.of_stakeless nofun, nofun, .finish (r := r) hi hQ⟩
    by_cases hji : j = i
    · subst hji
      simp at hj
    · exact hs j y t' (by simpa [hji] using hj) hcommits

/-- The claims of a run, in order. -/
def claimsOf (t : String) (hist : List (ClusterPool × Pool.Event (Nat × Call) × ClusterPool)) : List TxnStatus :=
  hist.filterMap fun x => x.1.claims t x.2.1

theorem contest_run {c : Cluster} {row : TxnStateRecord} (hrow : c.store.getTxnState t = some row)
    (hst : row.status = .active) {hist : List (ClusterPool × Pool.Event (Nat × Call) × ClusterPool)} {p : ClusterPool}
    (hrun : Run (Step env) (Pool.idle c) hist p)
    (hcalls : ∀ x ∈ hist, ∀ i y, x.2.1 = .spawn i y → y.2.contests = true) :
    (claimsOf t hist).length ≤ 1 ∧ ∃ γ, p.Follows γ ∧ Staked p.state.store γ ∧
      Contest t (claimsOf t hist).head? p.state.store γ := by
  induction hrun with
  | nil =>
    exact ⟨Nat.zero_le _, fun _ => none, fun i => .inl ⟨by simp [Pool.idle], rfl⟩, by simp [Staked],
      Contest.idle hrow hst⟩
  | @snoc hist u v ev _ hstep ih =>
    obtain ⟨hone, γ, hf, hs, hc⟩ := ih fun x hx => hcalls x (by simp [hx])
    obtain ⟨γ', hf', hs', hc', hfirst, -⟩ := contest_step hstep (hcalls (u, ev, v) (by simp)) hf hs hc
    have hsnoc : claimsOf t (hist ++ [(u, ev, v)]) = claimsOf t hist ++ (u.claims t ev).toList := by
      simp [claimsOf, List.filterMap_append, List.filterMap_cons]
      cases u.claims t ev <;> rfl
    rw [hsnoc]
    cases hclaims : u.claims t ev with
    | none =>
      rw [hclaims] at hc'
      simpa using ⟨hone, γ', hf', hs', hc'⟩
    | some next =>
      have hnil : claimsOf t hist = [] := List.head?_eq_none_iff.1 (hfirst next hclaims)
      rw [hclaims, hnil] at hc'
      simpa [hnil] using ⟨γ', hf', hs', hc'⟩

theorem unread_step {i : Nat} {x : Nat × Call} {d : List (Nat × Act)} (hstep : Step env ev u = some v)
    (hcall : ∀ i x, ev = .spawn i x → x.2.contests = true) (hf : u.Follows γ) (hs : Staked u.state.store γ)
    (hc : Contest t (some .committing) u.state.store γ) (hi : γ i = some ⟨x, d, .unread t⟩) :
    (∀ key, u.performs ev ≠ some (.deleteWriteEntry t key)) ∧
      (¬ (ev = .act i ∧ u.performs ev = some (.iterWriteSet t)) →
        ∃ γ' d', v.Follows γ' ∧ Staked v.state.store γ' ∧ Contest t (some .committing) v.state.store γ' ∧
          γ' i = some ⟨x, d', .unread t⟩) := by
  constructor
  · intro key hperforms
    cases ev with
    | spawn | finish => cases hperforms
    | act j =>
      obtain ⟨⟨y, n, a⟩, hpend, rfl⟩ := Option.map_eq_some_iff.1 hperforms
      obtain ⟨d', g, A, N, hj, hm⟩ := hf.pending hpend
      rcases hm.delete_owner with rfl | rfl
      · obtain rfl := hc.alone i j _ _ hi hj rfl rfl
        cases hi.symm.trans hj
      · cases hc.aborts j _ hj rfl
  · intro hread
    obtain ⟨γ', hf', hs', hc', hfirst, hmove⟩ := contest_step hstep hcall hf hs hc
    have hnone : u.claims t ev = none := by
      cases hclaims : u.claims t ev with
      | none => rfl
      | some next => cases hfirst next hclaims
    rw [hnone] at hc'
    refine ⟨γ', ?_⟩
    suffices hstays : ∃ d', γ' i = some ⟨x, d', .unread t⟩ by
      obtain ⟨d', hi'⟩ := hstays
      exact ⟨d', hf', hs', hc', hi'⟩
    clear hf' hs' hc'
    generalize v.state = s' at hmove
    cases hmove with
    | @spawn j y hj hadm =>
      have hij : i ≠ j := by
        rintro rfl
        rw [hj] at hi
        cases hi
      exact ⟨d, by rw [Function.update_of_ne hij, hi]⟩
    | @finish j ph r hj hQ =>
      have hij : i ≠ j := by
        rintro rfl
        cases hi.symm.trans hj
        exact hQ t rfl
      exact ⟨d, by rw [Function.update_of_ne hij, hi]⟩
    | @act j y d' g e A N hj hpend hm hA =>
      by_cases hij : i = j
      · subst hij
        cases hi.symm.trans hj
        obtain ⟨n, a⟩ := e
        refine ⟨(n, a) :: d, ?_⟩
        rw [Function.update_self]
        cases hm with
        | claimCommit hg | claimAbort hg => exact hg.elim
        | readRow => rfl
        | readWrites => exact absurd ⟨rfl, by simp [performs, hpend]⟩ hread
      · exact ⟨d, by rw [Function.update_of_ne hij, hi]⟩

end ClusterPool

/-- Commits, aborts and sweeps of any coordinators, on a store where `t` is `Active`: at most one compare-and-set on
`t` passes; after that of a commit nobody deletes from the write set before the commit has read it; after that of an
abort or a sweep no chain entry of `t` is ever appended. -/
theorem claims_exclusive (env : Env) {c : Cluster} {t : String} {row : TxnStateRecord}
    (hrow : c.store.getTxnState t = some row) (hst : row.status = .active)
    {hist : List (ClusterPool × Pool.Event (Nat × Call) × ClusterPool)} {p : ClusterPool}
    (hrun : Run (ClusterPool.Step env) (Pool.idle c) hist p)
    (hcalls : ∀ x ∈ hist, ∀ i y, x.2.1 = .spawn i y → y.2.contests = true) :
    (ClusterPool.claimsOf t hist).length ≤ 1 ∧
    (∀ before u i v between after, hist = before ++ (u, .act i, v) :: (between ++ after) →
      u.claims t (.act i) = some .committing →
      (∀ x ∈ between, ¬ (x.2.1 = .act i ∧ x.1.performs x.2.1 = some (.iterWriteSet t))) →
      ∀ x ∈ between, ∀ key, x.1.performs x.2.1 ≠ some (.deleteWriteEntry t key)) ∧
    (.aborted ∈ ClusterPool.claimsOf t hist → ∀ x ∈ hist, ∀ entries,
      x.1.performs x.2.1 = some (.appendChainEntriesBulk entries) → ∀ y ∈ entries, y.2.1.txnId ≠ t) := by
  refine ⟨(ClusterPool.contest_run hrow hst hrun hcalls).1, ?_, ?_⟩
  · intro before u i v between after hhist hclaim hunread
    subst hhist
    obtain ⟨u', hbefore, hrest⟩ := hrun.of_append
    obtain ⟨rfl, hstep, hrest⟩ := hrest.cons_inv
    obtain ⟨v', hbetween, -⟩ := hrest.of_append
    obtain ⟨-, γ, hf, hs, hc⟩ := ClusterPool.contest_run hrow hst hbefore fun x hx => hcalls x (by simp [hx])
    obtain ⟨γ', hf', hs', hc', -, hmove⟩ :=
      ClusterPool.contest_step hstep (hcalls (u, .act i, v) (by simp)) hf hs hc
    rw [hclaim, Option.some_or] at hc'
    have hwon : ∃ y d, γ' i = some ⟨y, d, .unread t⟩ := by
      clear hf' hs' hc'
      generalize v.state = s' at hmove
      cases hmove with
      | @act _ y d g e A N hi hpend hm hA =>
        have hclaimed : u.state.store.claimed t e.2 = some .committing := by
          simpa only [ClusterPool.claims, ClusterPool.performs, hpend, Option.map_some, Option.bind_some] using hclaim
        refine ⟨y, e :: d, ?_⟩
        rw [Function.update_self, ← hm.unread hclaimed]
        rfl
    obtain ⟨y, d, hi⟩ := hwon
    obtain ⟨-, hall⟩ := hbetween.invariant
      (I := fun q : ClusterPool => ∃ γ d, q.Follows γ ∧ Staked q.state.store γ ∧
        Contest t (some .committing) q.state.store γ ∧ γ i = some ⟨y, d, .unread t⟩)
      (C := fun q ev => (∀ j x, ev = .spawn j x → x.2.contests = true) ∧
        ¬ (ev = .act i ∧ q.performs ev = some (.iterWriteSet t)))
      ⟨γ', d, hf', hs', hc', hi⟩
      (fun q ev q' hq hcond hq' => by
        obtain ⟨γ, d, hf, hs, hc, hi⟩ := hq
        exact (ClusterPool.unread_step hq' hcond.1 hf hs hc hi).2 hcond.2)
      fun x hx => ⟨hcalls x (by simp [hx]), hunread x hx⟩
    intro x hx
    obtain ⟨γ, d, hf, hs, hc, hi⟩ := (hall x hx).1
    exact (ClusterPool.unread_step (hbetween.step_of_mem x hx) (hcalls x (by simp [hx])) hf hs hc hi).1
  · intro habort x hx entries hperforms y hy htxn
    obtain ⟨before, after, rfl, hbefore, -⟩ := hrun.split_of_mem hx
    obtain ⟨-, γ, hf, hs, hc⟩ := ClusterPool.contest_run hrow hst hbefore fun x hx => hcalls x (by simp [hx])
    obtain ⟨i, z, n, hpend⟩ : ∃ i z n, x.1.pendingAct i = some (z, n, .appendChainEntriesBulk entries) := by
      cases hev : x.2.1 with
      | spawn | finish => rw [hev] at hperforms; cases hperforms
      | act i =>
        rw [hev] at hperforms
        obtain ⟨⟨z, n, a⟩, hpend, rfl⟩ := Option.map_eq_some_iff.1 hperforms
        exact ⟨i, z, n, hpend⟩
    obtain ⟨d, g, A, N, hi, hm⟩ := hf.pending hpend
    have hcommit : (ClusterPool.claimsOf t before).head? = some .committing :=
      hc.commits i _ hi (htxn ▸ hm.append_commits hy)
    -- both claims would be among the claims of the run, of which there is at most one
    have hmem : .committing ∈ ClusterPool.claimsOf t (before ++ x :: after) := by
      rw [ClusterPool.claimsOf, List.filterMap_append]
      exact List.mem_append_left _ (List.mem_of_mem_head? hcommit)
    have hone := (ClusterPool.contest_run hrow hst hrun hcalls).1
    generalize ClusterPool.claimsOf t (before ++ x :: after) = claims at hmem habort hone
    match claims, hone with
    | [], _ => cases hmem
    | [st], _ => cases (List.mem_singleton.1 hmem).trans (List.mem_singleton.1 habort).symm

def Cluster.staged : Cluster where
  store := ((Call.stage "T" "k" [1] none [] false).run .sample ((Call.begin "T" none 0).run .sample {}).2).2.store

/-- A commit, an abort by another coordinator and a sweep by a third all see `T` as `Active`; the commit
wins, and runs to its end. -/
theorem claims_exclusive_race : ∃ hist p, Run (ClusterPool.Step .sample) (Pool.idle Cluster.staged) hist p ∧
    ClusterPool.claimsOf "T" hist = [.committing] ∧ (p.state.store.readChain "k").entries.length = 1 ∧
    (ClusterPool.claimsOf "T" hist).length ≤ 1 ∧
    (.aborted ∈ ClusterPool.claimsOf "T" hist → ∀ x ∈ hist, ∀ entries,
      x.1.performs x.2.1 = some (.appendChainEntriesBulk entries) → ∀ y ∈ entries, y.2.1.txnId ≠ "T") := by
  let events : List (Pool.Event (Nat × Call)) :=
    [.spawn 0 (0, .commit "T" fun _ => false), .spawn 1 (1, .abort "T"), .spawn 2 (2, .sweepStale 99999 1),
      .act 0, .act 1, .act 2, .act 2, .act 0, .act 1, .act 2, .finish 1, .finish 2] ++ List.replicate 17 (.act 0)
  obtain ⟨p, hrun, htest⟩ := Run.exists_of_exec (ClusterPool.Step .sample) (Pool.idle Cluster.staged) events
    (fun p => (p.state.store.readChain "k").entries.length = 1) (by decide +kernel)
  have hclaims : ClusterPool.claimsOf "T" (history (ClusterPool.Step .sample) events (Pool.idle Cluster.staged)) =
      [.committing] := by decide +kernel
  have hactive : (Cluster.staged.store.getTxnState "T").map (·.status) = some .active := by decide +kernel
  obtain ⟨row, hrow, hst⟩ := Option.map_eq_some_iff.1 hactive
  have hcalls : ∀ ev ∈ events, ∀ i y, ev = .spawn i y → y.2.contests = true := by
    intro ev hev i y heq
    subst heq
    simp [events] at hev
    rcases hev with ⟨-, rfl⟩ | ⟨-, rfl⟩ | ⟨-, rfl⟩ <;> rfl
  have hexclusive := claims_exclusive .sample hrow hst hrun fun x hx => hcalls _ (label_mem_of_mem_history hx)
  exact ⟨_, p, hrun, hclaims, of_decide_eq_true htest, hexclusive.1, hexclusive.2.2⟩

end Xtable
