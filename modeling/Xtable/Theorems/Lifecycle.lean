import Xtable.Tx.Protocol
import Xtable.Tx.Ledger

/-! What the ledger looks like between any two store transactions: which rows, WAL statuses and chain entries can
    meet, and what each call knows about the row it works on. -/

namespace Xtable

variable {row : TxnStateRecord}

namespace Ledger

/-- No chain has an entry of `t`. -/
def Clear (L : Ledger) (t : String) : Prop := ∀ k, ∀ e ∈ L.chain k, e.txnId ≠ t

/-- The WAL has nothing on `t` beyond its beginning. -/
def Open (L : Ledger) (t : String) : Prop := L.last t = none ∨ L.last t = some .active

/-- The version of `t` for key `k` is in the chain or, where garbage collection runs (`gc`), newer versions have taken
its place. -/
def Kept (gc : Prop) (L : Ledger) (t k : String) (v : Nat) : Prop :=
  (∃ e ∈ L.chain k, e.txnId = t ∧ e.commitVersion = v) ∨
    (gc ∧ L.chain k ≠ [] ∧ ∀ e ∈ L.chain k, v < e.commitVersion)

/-- The row allocates one version, newer than its snapshot, for all keys it writes. -/
structure Alloc (L : Ledger) (row : TxnStateRecord) (v : Nat) : Prop where
  eq : row.allocVersions = (row.writeKeys.insertionSort (· ≤ ·)).map fun key => (key, v)
  newer : row.writeKeys ≠ [] → row.snapshotVersion < v
  handedOut : row.writeKeys ≠ [] → v ≤ L.version

/-- A committed row: its versions are allocated and in the chains. -/
def Landed (gc : Prop) (L : Ledger) (t : String) (row : TxnStateRecord) : Prop :=
  ∃ v, L.Alloc row v ∧ ∀ k ∈ row.writeKeys, L.Kept gc t k v

structure RowOk (gc : Prop) (L : Ledger) (t : String) (row : TxnStateRecord) : Prop where
  snapshot : row.snapshotVersion ≤ L.version
  nodup : row.writeKeys.Nodup
  active : row.status = .active → row.allocVersions = [] ∧ L.Open t ∧ L.Clear t
  committed : row.status = .committed → L.Landed gc t row
  aborted : row.status = .aborted → L.Clear t

/-- A `Committing` row that no call works on: left by a crash, with nothing in the chains or with everything there and
logged. -/
def Stuck (gc : Prop) (L : Ledger) (t : String) (row : TxnStateRecord) : Prop :=
  (row.allocVersions = [] ∧ L.Clear t ∧ L.last t ≠ some .committing ∧ L.last t ≠ some .committed) ∨
    (L.last t = some .committed ∧ L.Landed gc t row)

/-- What holds of the ledger whatever the calls in flight do. -/
structure Sound (gc : Prop) (L : Ledger) : Prop where
  ascending : ∀ k, (L.chain k).Pairwise fun a b => a.commitVersion < b.commitVersion
  owned : ∀ k, ∀ e ∈ L.chain k, ∃ row, L.row e.txnId = some row ∧
    (row.status = .committing ∨ row.status = .committed) ∧ (k, e.commitVersion) ∈ row.allocVersions
  rows : ∀ t row, L.row t = some row → L.RowOk gc t row
  unlogged : ∀ t, L.row t = none → L.last t = none
  /-- Distinct transactions have distinct versions, and writers of one key do not overlap. -/
  apart : ∀ t₁ t₂ r₁ r₂, t₁ ≠ t₂ → L.row t₁ = some r₁ → L.row t₂ = some r₂ →
    r₁.status ≠ .aborted → r₂.status ≠ .aborted → ∀ x₁ ∈ r₁.allocVersions, ∀ x₂ ∈ r₂.allocVersions,
      x₁.2 ≠ x₂.2 ∧ (x₁.1 = x₂.1 → x₁.2 ≤ r₂.snapshotVersion ∨ x₂.2 ≤ r₁.snapshotVersion)

/-- A `Committing` row before anything is logged of the commit. -/
structure Claimed (L : Ledger) (t : String) (row : TxnStateRecord) : Prop where
  row_eq : L.row t = some row
  status : row.status = .committing
  alloc : row.allocVersions = []
  clear : L.Clear t
  open' : L.Open t

/-- A version handed out after every version that any transaction holds. -/
structure Newest (L : Ledger) (row : TxnStateRecord) (v : Nat) : Prop where
  newer : row.snapshotVersion < v
  handedOut : v ≤ L.version
  above : ∀ t r, L.row t = some r → r.status ≠ .aborted → ∀ x ∈ r.allocVersions, x.2 < v

/-- A `Committing` row whose commit is logged with its keys. -/
structure Logged (L : Ledger) (t : String) (row : TxnStateRecord) : Prop where
  row_eq : L.row t = some row
  status : row.status = .committing
  last : L.last t = some .committing
  uploaded : L.uploaded t = some (row.writeKeys.insertionSort (· ≤ ·))

/-- The row exists and was begun at the given snapshot. -/
def At (L : Ledger) (t : String) (snap : Nat) : Prop := ∃ r, L.row t = some r ∧ r.snapshotVersion = snap

/-- A row as a call has read it while it was `Active`. -/
structure ReadActive (L : Ledger) (t : String) (txn : TxnStateRecord) : Prop where
  status : txn.status = .active
  alloc : txn.allocVersions = []
  nodup : txn.writeKeys.Nodup
  at' : L.At t txn.snapshotVersion

/-- What a call in a phase knows of the ledger. -/
def PhaseOk (gc : Prop) (L : Ledger) : Phase → Prop
  | .begin t _ _ => L.row t = none
  | .captured t row => L.row t = none ∧ row.snapshotVersion ≤ L.version ∧
      ∃ idem now, row = .newActive row.snapshotVersion idem now
  | .begun t row | .registered t row => L.At t row.snapshotVersion
  | .staging t _ txn | .staged t _ txn | .reading t _ txn | .beating t txn => L.ReadActive t txn
  | .owned t => ∃ row, L.Claimed t row
  | .loaded t row => L.Claimed t row
  | .doomed t row => L.row t = some row ∧ row.status = .committing ∧ row.allocVersions = [] ∧
      L.Clear t ∧ L.last t = some .aborted
  | .allocated t row v passed => L.Claimed t row ∧ L.Newest row v ∧ row.writeKeys ≠ [] ∧
      ∀ k ∈ passed, L.latest k ≤ row.snapshotVersion
  | .logged t row v => L.Logged t row ∧ row.allocVersions = [] ∧ L.Clear t ∧
      (row.writeKeys ≠ [] → L.Newest row v ∧ ∀ k ∈ row.writeKeys, L.latest k ≤ row.snapshotVersion)
  | .ready t row v => L.Logged t row ∧ L.Alloc row v ∧ L.Clear t ∧
      ∀ k ∈ row.writeKeys, L.latest k ≤ row.snapshotVersion
  | .appended t row v => L.Logged t row ∧ L.Alloc row v ∧
      ∀ k ∈ row.writeKeys, ∃ e, (L.chain k).getLast? = some e ∧ e.txnId = t ∧ e.commitVersion = v
  | .walled t row v => L.row t = some row ∧ row.status = .committing ∧ L.last t = some .committed ∧
      L.Alloc row v ∧ ∀ k ∈ row.writeKeys, L.Kept gc t k v
  | .finishing t snap => ∃ row, L.row t = some row ∧ row.status = .committed ∧ row.snapshotVersion = snap
  | .abortSeen t row _ => L.At t row.snapshotVersion
  | .aborting t snap _ => ∃ row, L.row t = some row ∧ row.status = .aborted ∧ row.snapshotVersion = snap
  | .released t => ∃ row, L.row t = some row ∧ row.status.Terminal
  | _ => True

end Ledger

/-! ## What a step leaves alone for the others -/

namespace Ledger

variable {gc : Prop} {L L' : Ledger} {t : String}

/-- What every step of a call leaves alone for the calls that do not own a row. -/
structure Rely (L L' : Ledger) : Prop where
  version : L.version ≤ L'.version
  row : ∀ t r, L.row t = some r → ∃ r', L'.row t = some r' ∧ r'.snapshotVersion = r.snapshotVersion ∧
    (r.status.Terminal → r' = r)

/-- What a step of a call without the commit lock leaves alone for the call that holds it. -/
structure Calm (gc : Prop) (L L' : Ledger) : Prop extends Rely L L' where
  version_eq : L'.version = L.version
  committing : ∀ t r, L.row t = some r → r.status = .committing → L'.row t = some r ∧
    L'.uploaded t = L.uploaded t ∧
      (L'.last t = L.last t ∨ (L.last t = none ∧ L'.last t = some .active))
  alloc : ∀ t r', L'.row t = some r' → r'.status ≠ .aborted → r'.allocVersions = [] ∨
    ∃ r, L.row t = some r ∧ r.status ≠ .aborted ∧ r.allocVersions = r'.allocVersions
  chain : ∀ k, L'.chain k = L.chain k ∨
    (gc ∧ L'.chain k <:+ L.chain k ∧ (L'.chain k).getLast? = (L.chain k).getLast?)

theorem At.rely {snap : Nat} (h : Rely L L') (ht : L.At t snap) : L'.At t snap := by
  obtain ⟨r, hr, rfl⟩ := ht
  obtain ⟨r', hr', hsnap, -⟩ := h.row t r hr
  exact ⟨r', hr', hsnap⟩

theorem ReadActive.rely {txn : TxnStateRecord} (h : Rely L L') (ht : L.ReadActive t txn) : L'.ReadActive t txn :=
  { ht with at' := ht.at'.rely h }

theorem Alloc.mono {v : Nat} (h : L.version ≤ L'.version) (ha : L.Alloc row v) : L'.Alloc row v :=
  { ha with handedOut := fun hk => le_trans (ha.handedOut hk) h }

theorem Clear.of_subset (h : ∀ k, L'.chain k ⊆ L.chain k) (hc : L.Clear t) : L'.Clear t :=
  fun k e he => hc k e (h k he)

theorem Kept.prune {k : String} {v : Nat} (hasc : (L.chain k).Pairwise fun a b => a.commitVersion < b.commitVersion)
    (hchain : L'.chain k = L.chain k ∨
      (gc ∧ L'.chain k <:+ L.chain k ∧ (L'.chain k).getLast? = (L.chain k).getLast?))
    (hk : L.Kept gc t k v) : L'.Kept gc t k v := by
  rcases hchain with heq | ⟨hgc, ⟨front, hfront⟩, hlast⟩
  · simpa only [Kept, heq] using hk
  have hne : L.chain k ≠ [] → L'.chain k ≠ [] := by
    intro hne hnil
    rw [hnil, List.getLast?_nil, eq_comm, List.getLast?_eq_none_iff] at hlast
    exact hne hlast
  rcases hk with ⟨e, he, het, hev⟩ | ⟨-, hnil, hnewer⟩
  · rw [← hfront] at he hasc
    rcases List.mem_append.1 he with hdropped | hkept
    · refine .inr ⟨hgc, hne (List.ne_nil_of_mem (hfront ▸ he)), fun e' he' => ?_⟩
      rw [← hev]
      exact (List.pairwise_append.1 hasc).2.2 e hdropped e' he'
    · exact .inl ⟨e, hkept, het, hev⟩
  · refine .inr ⟨hgc, hne hnil, fun e he => hnewer e ?_⟩
    rw [← hfront]
    exact List.mem_append_right _ he

namespace Calm

section

variable (h : Calm gc L L')

include h

theorem chain_subset (k : String) : L'.chain k ⊆ L.chain k := by
  rcases h.chain k with heq | ⟨-, hsuf, -⟩
  · rw [heq]
    exact List.Subset.refl _
  · exact hsuf.subset

theorem getLast?_chain (k : String) : (L'.chain k).getLast? = (L.chain k).getLast? := by
  rcases h.chain k with heq | ⟨-, -, hlast⟩
  · rw [heq]
  · exact hlast

theorem latest (k : String) : L'.latest k = L.latest k := by
  simp only [Ledger.latest, h.getLast?_chain]

theorem newest {v : Nat} (hn : L.Newest row v) : L'.Newest row v where
  newer := hn.newer
  handedOut := by
    rw [h.version_eq]
    exact hn.handedOut
  above t r hr hst x hx := by
    rcases h.alloc t r hr hst with hnil | ⟨r₀, hr₀, hst₀, heq⟩
    · rw [hnil] at hx
      cases hx
    · exact hn.above t r₀ hr₀ hst₀ x (heq ▸ hx)

theorem claimed (hc : L.Claimed t row) : L'.Claimed t row where
  row_eq := (h.committing t row hc.row_eq hc.status).1
  status := hc.status
  alloc := hc.alloc
  clear := hc.clear.of_subset h.chain_subset
  open' := by
    rcases (h.committing t row hc.row_eq hc.status).2.2 with heq | ⟨-, hact⟩
    · simpa only [Open, heq] using hc.open'
    · exact .inr hact

theorem last_eq (hrow : L.row t = some row) (hst : row.status = .committing) {st : TxnStatus}
    (hlast : L.last t = some st) : L'.last t = some st := by
  rcases (h.committing t row hrow hst).2.2 with heq | ⟨hnone, -⟩
  · rw [heq, hlast]
  · rw [hnone] at hlast
    cases hlast

theorem logged (hl : L.Logged t row) : L'.Logged t row where
  row_eq := (h.committing t row hl.row_eq hl.status).1
  status := hl.status
  last := h.last_eq hl.row_eq hl.status hl.last
  uploaded := (h.committing t row hl.row_eq hl.status).2.1.trans hl.uploaded

theorem landed (hs : L.Sound gc) (hl : L.Landed gc t row) : L'.Landed gc t row := by
  obtain ⟨v, hv, hk⟩ := hl
  exact ⟨v, hv.mono h.version, fun k hkey => (hk k hkey).prune (hs.ascending k) (h.chain k)⟩

theorem stuck (hs : L.Sound gc) (hrow : L.row t = some row) (hst : row.status = .committing)
    (hl : L.Stuck gc t row) : L'.Stuck gc t row := by
  rcases hl with ⟨hnil, hclear, hl₁, hl₂⟩ | ⟨hlast, hland⟩
  · refine .inl ⟨hnil, hclear.of_subset h.chain_subset, ?_⟩
    rcases (h.committing t row hrow hst).2.2 with heq | ⟨-, hact⟩
    · rw [heq]
      exact ⟨hl₁, hl₂⟩
    · simp [hact]
  · exact .inr ⟨h.last_eq hrow hst hlast, h.landed hs hland⟩

end

end Calm

end Ledger

/-- The transaction a committing call owns. -/
def Phase.owns : Phase → Option String
  | owned t | loaded t _ | doomed t _ | allocated t _ _ _ | logged t _ _ | ready t _ _ | appended t _ _
  | walled t _ _ => some t
  | _ => none

/-- The id of a `begin` that has not stored its row yet. -/
def Phase.drawn : Phase → Option String
  | begin t _ _ | captured t _ => some t
  | _ => none

/-- The id of a `begin` the lock manager does not know yet. -/
def Phase.unregistered : Phase → Option String
  | begin t _ _ | captured t _ | begun t _ => some t
  | _ => none

/-- The calls that write the whole row back after reading it. -/
def Call.writesBack : Call → Bool
  | stage .. | read .. | heartbeat .. => true
  | _ => false

/-- Phases that only some calls reach. -/
def Phase.Fits (c : Call) : Phase → Prop
  | begin t _ _ | captured t _ | begun t _ | registered t _ => c.begins = some t
  | commitStart t | commitSeen t | commitLost t | owned t | loaded t _ | doomed t _ | allocated t _ _ _
  | logged t _ _ | ready t _ _ | appended t _ _ | walled t _ _ => ∃ aged, c = .commit t aged
  | stageStart _ _ | staging _ _ _ | staged _ _ _ | stageNoted _ _ | readStart _ _ | reading _ _ _
  | beatStart _ | beating _ _ => c.writesBack = true
  | _ => True

namespace Ledger

variable {gc : Prop} {L L' : Ledger}

theorem PhaseOk.rely (h : Rely L L') {g : Phase} (hown : g.owns = none) (hdrawn : g.drawn = none)
    (hg : L.PhaseOk gc g) : L'.PhaseOk gc g := by
  cases g <;> try trivial
  all_goals first
    | exact At.rely h hg
    | exact ReadActive.rely h hg
    | (cases hown; done)
    | (cases hdrawn; done)
    | skip
  case finishing t snap =>
    obtain ⟨r, hr, hst, hsnap⟩ := hg
    obtain ⟨r', hr', -, hterm⟩ := h.row t r hr
    obtain rfl := hterm (.inl hst)
    exact ⟨r', hr', hst, hsnap⟩
  case aborting t snap sweep =>
    obtain ⟨r, hr, hst, hsnap⟩ := hg
    obtain ⟨r', hr', -, hterm⟩ := h.row t r hr
    obtain rfl := hterm (.inr hst)
    exact ⟨r', hr', hst, hsnap⟩
  case released t =>
    obtain ⟨r, hr, hst⟩ := hg
    obtain ⟨r', hr', -, hterm⟩ := h.row t r hr
    obtain rfl := hterm hst
    exact ⟨r', hr', hst⟩

theorem PhaseOk.row_of_drawn {g : Phase} {t : String} (hdrawn : g.drawn = some t) (hg : L.PhaseOk gc g) :
    L.row t = none := by
  cases g <;> try (cases hdrawn; done)
  case begin => cases hdrawn; exact hg
  case captured => cases hdrawn; exact hg.1

theorem PhaseOk.row_of_owns {g : Phase} {t : String} (hown : g.owns = some t) (hg : L.PhaseOk gc g) :
    L.row t ≠ none := by
  cases g <;> try (cases hown; done)
  all_goals cases hown
  case owned =>
    obtain ⟨row, hrow⟩ := hg
    simp [hrow.row_eq]
  case loaded => simp [hg.row_eq]
  case doomed | walled => simp [hg.1]
  case allocated | logged | ready | appended => simp [hg.1.row_eq]

theorem PhaseOk.absent {g : Phase} {t : String} (hdrawn : g.drawn = some t) (hnone : L'.row t = none)
    (hv : L.version ≤ L'.version) (hg : L.PhaseOk gc g) : L'.PhaseOk gc g := by
  cases g <;> try (cases hdrawn; done)
  all_goals cases hdrawn
  case begin => exact hnone
  case captured => exact ⟨hnone, le_trans hg.2.1 hv, hg.2.2⟩

theorem PhaseOk.calm (h : Calm gc L L') (hs : L.Sound gc) {g : Phase} {t : String} (hown : g.owns = some t)
    (hg : L.PhaseOk gc g) : L'.PhaseOk gc g := by
  have hclear : ∀ {t}, L.Clear t → L'.Clear t := fun hc => hc.of_subset h.chain_subset
  cases g <;> try (cases hown; done)
  case owned t =>
    obtain ⟨row, hrow⟩ := hg
    exact ⟨row, h.claimed hrow⟩
  case loaded t row => exact h.claimed hg
  case doomed t row =>
    obtain ⟨hrow, hst, hnil, hcl, hlast⟩ := hg
    exact ⟨(h.committing t row hrow hst).1, hst, hnil, hclear hcl, h.last_eq hrow hst hlast⟩
  case allocated t row v passed =>
    obtain ⟨hc, hn, hne, hp⟩ := hg
    exact ⟨h.claimed hc, h.newest hn, hne, fun k hk => h.latest k ▸ hp k hk⟩
  case logged t row v =>
    obtain ⟨hl, hnil, hcl, hn⟩ := hg
    exact ⟨h.logged hl, hnil, hclear hcl, fun hne =>
      ⟨h.newest (hn hne).1, fun k hk => h.latest k ▸ (hn hne).2 k hk⟩⟩
  case ready t row v =>
    obtain ⟨hl, ha, hcl, hp⟩ := hg
    exact ⟨h.logged hl, ha.mono h.version, hclear hcl, fun k hk => h.latest k ▸ hp k hk⟩
  case appended t row v =>
    obtain ⟨hl, ha, hp⟩ := hg
    exact ⟨h.logged hl, ha.mono h.version, fun k hk => h.getLast?_chain k ▸ hp k hk⟩
  case walled t row v =>
    obtain ⟨hrow, hst, hlast, ha, hk⟩ := hg
    exact ⟨(h.committing t row hrow hst).1, hst, h.last_eq hrow hst hlast, ha.mono h.version,
      fun k hkey => (hk k hkey).prune (hs.ascending k) (h.chain k)⟩

end Ledger

end Xtable
