import Xtable.Theorems.Lifecycle

/-! For each operation on the ledger: under what it needs, soundness is kept, and what it leaves alone for the calls
    in flight (`Rely`, `Calm`) and for other rows (`Frame`). -/

namespace Xtable.Ledger

variable {gc : Prop} {L L' : Ledger} {t : String} {t' : String} {r : TxnStateRecord}

/-- What the owner of `t`'s row leaves alone of all other transactions. -/
structure Frame (gc : Prop) (t : String) (L L' : Ledger) : Prop where
  row : ∀ t', t' ≠ t → L'.row t' = L.row t'
  last : ∀ t', t' ≠ t → L'.last t' = L.last t'
  clear : ∀ t', t' ≠ t → L.Clear t' → L'.Clear t'
  landed : ∀ t' r, t' ≠ t → L.row t' = some r → r.status ≠ .aborted → L.Landed gc t' r → L'.Landed gc t' r

theorem Frame.stuck (h : Frame gc t L L') (hne : t' ≠ t) {row : TxnStateRecord} (hrow : L.row t' = some row)
    (hst : row.status = .committing) (hs : L.Stuck gc t' row) : L'.Stuck gc t' row := by
  rcases hs with ⟨hnil, hclear, hlast⟩ | ⟨hlast, hland⟩
  · exact .inl ⟨hnil, h.clear t' hne hclear, h.last t' hne ▸ hlast⟩
  · exact .inr ⟨h.last t' hne ▸ hlast, h.landed t' row hne hrow (by simp [hst]) hland⟩

theorem Rely.refl (L : Ledger) : Rely L L := ⟨le_rfl, fun _ r hr => ⟨r, hr, rfl, fun _ => rfl⟩⟩

theorem Calm.refl (L : Ledger) : Calm gc L L where
  toRely := .refl L
  version_eq := rfl
  committing _ _ hr _ := ⟨hr, rfl, .inl rfl⟩
  alloc _ r hr hst := .inr ⟨r, hr, hst, rfl⟩
  chain _ := .inl rfl

theorem Landed.mono (hv : L.version ≤ L'.version) (hc : L'.chain = L.chain) (hl : L.Landed gc t r) :
    L'.Landed gc t r := by
  obtain ⟨v, ha, hk⟩ := hl
  exact ⟨v, ha.mono hv, by simpa only [Kept, hc] using hk⟩

theorem Alloc.mem {v : Nat} (ha : L.Alloc r v) {x : String × Nat} (hx : x ∈ r.allocVersions) :
    x.1 ∈ r.writeKeys ∧ x.2 = v := by
  rw [ha.eq] at hx
  obtain ⟨k, hk, rfl⟩ := List.mem_map.1 hx
  exact ⟨(List.perm_insertionSort _ _).mem_iff.1 hk, rfl⟩

theorem Landed.mem_alloc {x : String × Nat} (hl : L.Landed gc t r) (hx : x ∈ r.allocVersions) :
    x.1 ∈ r.writeKeys ∧ r.snapshotVersion < x.2 ∧ x.2 ≤ L.version ∧ L.Kept gc t x.1 x.2 := by
  obtain ⟨v, ha, hk⟩ := hl
  obtain ⟨hkey, rfl⟩ := ha.mem hx
  have hne := List.ne_nil_of_mem hkey
  exact ⟨hkey, ha.newer hne, ha.handedOut hne, hk _ hkey⟩

/-! ## Storing a row -/

section SetRow

variable {r : TxnStateRecord}

@[simp] theorem setRow_row_self : (L.setRow t r).row t = some r := by simp [setRow]

@[simp] theorem setRow_row_ne (h : t' ≠ t) : (L.setRow t r).row t' = L.row t' := by
  simp [setRow, h]

theorem setRow_row_inv {r' : TxnStateRecord} (h : (L.setRow t r).row t' = some r') :
    (t' = t ∧ r' = r) ∨ (t' ≠ t ∧ L.row t' = some r') := by
  by_cases ht : t' = t
  · subst ht
    simp only [setRow_row_self, Option.some.injEq] at h
    exact .inl ⟨rfl, h.symm⟩
  · exact .inr ⟨ht, by simpa [ht] using h⟩

theorem Landed.setRow {r' : TxnStateRecord} (hl : L.Landed gc t' r') : (L.setRow t r).Landed gc t' r' :=
  hl.mono (le_refl L.version) rfl

theorem Sound.setRow (h : L.Sound gc) (hrow : L.RowOk gc t r)
    (hentries : ∀ k, ∀ e ∈ L.chain k, e.txnId = t →
      (r.status = .committing ∨ r.status = .committed) ∧ (k, e.commitVersion) ∈ r.allocVersions)
    (hapart : r.status ≠ .aborted → ∀ t' r', t' ≠ t → L.row t' = some r' → r'.status ≠ .aborted →
      ∀ x ∈ r.allocVersions, ∀ x' ∈ r'.allocVersions,
        x.2 ≠ x'.2 ∧ (x.1 = x'.1 → x.2 ≤ r'.snapshotVersion ∨ x'.2 ≤ r.snapshotVersion)) :
    (L.setRow t r).Sound gc where
  ascending := h.ascending
  owned k e he := by
    by_cases ht : e.txnId = t
    · exact ⟨r, by rw [ht, setRow_row_self], hentries k e he ht⟩
    · rw [setRow_row_ne ht]
      exact h.owned k e he
  rows t' r' hr' := by
    rcases setRow_row_inv hr' with ⟨rfl, rfl⟩ | ⟨-, hr'⟩
    · exact { hrow with committed := fun hst => (hrow.committed hst).setRow }
    · have hok := h.rows t' r' hr'
      exact { hok with committed := fun hst => (hok.committed hst).setRow }
  unlogged t' hr' := by
    have hne : t' ≠ t := by
      rintro rfl
      simp at hr'
    exact h.unlogged t' (by simpa [hne] using hr')
  apart t₁ t₂ r₁ r₂ hne h₁ h₂ hs₁ hs₂ x₁ hx₁ x₂ hx₂ := by
    rcases setRow_row_inv h₁ with ⟨rfl, rfl⟩ | ⟨hn₁, g₁⟩ <;>
      rcases setRow_row_inv h₂ with ⟨rfl, rfl⟩ | ⟨hn₂, g₂⟩
    · exact absurd rfl hne
    · exact hapart hs₁ t₂ r₂ hn₂ g₂ hs₂ x₁ hx₁ x₂ hx₂
    · obtain ⟨hv, hk⟩ := hapart hs₂ t₁ r₁ hn₁ g₁ hs₁ x₂ hx₂ x₁ hx₁
      exact ⟨hv.symm, fun heq => (hk heq.symm).symm⟩
    · exact h.apart t₁ t₂ r₁ r₂ hne g₁ g₂ hs₁ hs₂ x₁ hx₁ x₂ hx₂

theorem Sound.setRow_clear (h : L.Sound gc) (hrow : L.RowOk gc t r) (hclear : L.Clear t)
    (hnil : r.allocVersions = []) : (L.setRow t r).Sound gc :=
  h.setRow hrow (fun k e he ht => absurd ht (hclear k e he)) fun _ _ _ _ _ _ x hx => by
    rw [hnil] at hx
    cases hx

theorem Rely.setRow {r₀ : TxnStateRecord} (hr₀ : L.row t = some r₀) (hopen : ¬ r₀.status.Terminal)
    (hsnap : r.snapshotVersion = r₀.snapshotVersion) : Rely L (L.setRow t r) where
  version := le_rfl
  row t' r' hr' := by
    by_cases ht : t' = t
    · subst ht
      obtain rfl : r₀ = r' := Option.some.inj (hr₀.symm.trans hr')
      exact ⟨r, by simp, hsnap, fun hterm => absurd hterm hopen⟩
    · exact ⟨r', by simpa [ht] using hr', rfl, fun _ => rfl⟩

theorem Calm.setRow {r₀ : TxnStateRecord} (hr₀ : L.row t = some r₀) (hactive : r₀.status = .active)
    (hsnap : r.snapshotVersion = r₀.snapshotVersion) (hnil : r.allocVersions = []) :
    Calm gc L (L.setRow t r) where
  toRely := .setRow hr₀ (by simp [hactive, TxnStatus.Terminal]) hsnap
  version_eq := rfl
  committing t' r' hr' hst := by
    have hne : t' ≠ t := by
      rintro rfl
      rw [hr₀, Option.some.injEq] at hr'
      simp [← hr', hactive] at hst
    exact ⟨by simpa [hne] using hr', rfl, .inl rfl⟩
  alloc t' r' hr' hst := by
    rcases setRow_row_inv hr' with ⟨rfl, rfl⟩ | ⟨-, hr'⟩
    · exact .inl hnil
    · exact .inr ⟨r', hr', hst, rfl⟩
  chain _ := .inl rfl

theorem Calm.newRow (hr₀ : L.row t = none) (hnil : r.allocVersions = []) : Calm gc L (L.setRow t r) where
  version := le_rfl
  row t' r' hr' := by
    have hne : t' ≠ t := by
      rintro rfl
      simp [hr₀] at hr'
    exact ⟨r', by simpa [hne] using hr', rfl, fun _ => rfl⟩
  version_eq := rfl
  committing t' r' hr' _ := by
    have hne : t' ≠ t := by
      rintro rfl
      simp [hr₀] at hr'
    exact ⟨by simpa [hne] using hr', rfl, .inl rfl⟩
  alloc t' r' hr' hst := by
    rcases setRow_row_inv hr' with ⟨rfl, rfl⟩ | ⟨-, hr'⟩
    · exact .inl hnil
    · exact .inr ⟨r', hr', hst, rfl⟩
  chain _ := .inl rfl

theorem Frame.setRow : Frame gc t L (L.setRow t r) where
  row _ hne := setRow_row_ne hne
  last _ _ := rfl
  clear _ _ hc := hc
  landed _ _ _ _ _ hl := hl.setRow

end SetRow

/-! ## Logging -/

section Log

variable {rec : WalRecord}

@[simp] theorem log_row : (L.log rec).row = L.row := by cases rec <;> rfl

@[simp] theorem log_version : (L.log rec).version = L.version := by cases rec <;> rfl

@[simp] theorem log_chain : (L.log rec).chain = L.chain := by cases rec <;> rfl

theorem log_last_ne (hne : rec.txnId ≠ some t') : (L.log rec).last t' = L.last t' := by
  cases rec <;> simp_all [WalRecord.txnId, log, setLast, eq_comm]

theorem log_uploaded_ne (hne : rec.txnId ≠ some t') : (L.log rec).uploaded t' = L.uploaded t' := by
  cases rec <;> simp_all [WalRecord.txnId, log, setLast, eq_comm]

theorem log_clear : (L.log rec).Clear t' ↔ L.Clear t' := by simp [Clear]

theorem Landed.log (hl : L.Landed gc t' r) : (L.log rec).Landed gc t' r :=
  hl.mono (by simp) (by simp)

theorem Open.begun (h : L.Open t) : (L.setLast t ((L.last t).getD .active)).Open t := by
  rcases h with h | h <;> simp [Open, setLast, h]

theorem Sound.log (h : L.Sound gc) (hid : rec.txnId = some t) (hr : L.row t = some r)
    (hopen : r.status = .active → (L.log rec).Open t) : (L.log rec).Sound gc where
  ascending := by simpa using h.ascending
  owned := by simpa using h.owned
  rows t' r' hr' := by
    rw [log_row] at hr'
    have hok := h.rows t' r' hr'
    refine ⟨by simpa using hok.snapshot, hok.nodup, fun hst => ?_, fun hst => (hok.committed hst).log,
      fun hst => log_clear.2 (hok.aborted hst)⟩
    obtain ⟨hnil, hop, hclear⟩ := hok.active hst
    refine ⟨hnil, ?_, log_clear.2 hclear⟩
    by_cases ht : t' = t
    · subst ht
      obtain rfl : r = r' := Option.some.inj (hr.symm.trans hr')
      exact hopen hst
    · rw [Open, log_last_ne (by simp [hid, Ne.symm ht])]
      exact hop
  unlogged t' hr' := by
    rw [log_row] at hr'
    have hne : t' ≠ t := by
      rintro rfl
      simp [hr] at hr'
    rw [log_last_ne (by simp [hid, Ne.symm hne])]
    exact h.unlogged t' hr'
  apart := by simpa using h.apart

theorem Rely.log : Rely L (L.log rec) where
  version := by simp
  row _ r hr := ⟨r, by simpa using hr, rfl, fun _ => rfl⟩

theorem Frame.log (hid : rec.txnId = some t) : Frame gc t L (L.log rec) where
  row _ _ := by simp
  last t' hne := log_last_ne (by simp [hid, Ne.symm hne])
  clear _ _ hc := log_clear.2 hc
  landed _ _ _ _ _ hl := hl.log

theorem Calm.log (hid : rec.txnId = some t)
    (h : (∀ r, L.row t = some r → r.status ≠ .committing) ∨
      ((L.log rec).last t = some ((L.last t).getD .active) ∧ (L.log rec).uploaded t = L.uploaded t)) :
    Calm gc L (L.log rec) where
  toRely := .log
  version_eq := by simp
  committing t' r hr hst := by
    refine ⟨by simpa using hr, ?_⟩
    by_cases ht : t' = t
    · subst ht
      rcases h with h | ⟨hlast, hup⟩
      · exact absurd hst (h r hr)
      · refine ⟨hup, ?_⟩
        rw [hlast]
        cases L.last t' with
        | none => exact .inr ⟨rfl, rfl⟩
        | some st => exact .inl rfl
    · exact ⟨log_uploaded_ne (by simp [hid, Ne.symm ht]), .inl (log_last_ne (by simp [hid, Ne.symm ht]))⟩
  alloc t' r hr hst := .inr ⟨r, by simpa using hr, hst, rfl⟩
  chain k := .inl (by simp)


end Log

/-! ## Handing out a version -/

theorem Sound.bump (h : L.Sound gc) : L.bump.Sound gc where
  ascending := h.ascending
  owned := h.owned
  rows t r hr :=
    have hok := h.rows t r hr
    { hok with
      snapshot := Nat.le_succ_of_le hok.snapshot
      committed := fun hst => (hok.committed hst).mono (Nat.le_succ _) rfl }
  unlogged := h.unlogged
  apart := h.apart

theorem Rely.bump : Rely L L.bump := ⟨Nat.le_succ _, fun _ r hr => ⟨r, hr, rfl, fun _ => rfl⟩⟩

theorem Frame.bump : Frame gc t L L.bump where
  row _ _ := rfl
  last _ _ := rfl
  clear _ _ hc := hc
  landed _ _ _ _ _ hl := hl.mono (Nat.le_succ _) rfl

/-! ## Garbage collection -/

section Prune

variable {m : WithTop Nat}

theorem prune_chain (k : String) : (L.prune m).chain k <:+ L.chain k :=
  VersionChain.pruneBelow_suffix ⟨k, L.chain k⟩ m

theorem Calm.prune (hgc : gc) : Calm gc L (L.prune m) where
  toRely := ⟨le_rfl, (Rely.refl L).row⟩
  version_eq := rfl
  committing _ _ hr _ := ⟨hr, rfl, .inl rfl⟩
  alloc _ r hr hst := .inr ⟨r, hr, hst, rfl⟩
  chain k := .inr ⟨hgc, prune_chain k, VersionChain.pruneBelow_getLast? ⟨k, L.chain k⟩ m⟩

theorem Sound.prune (h : L.Sound gc) (hgc : gc) : (L.prune m).Sound gc where
  ascending k := (h.ascending k).sublist (prune_chain k).sublist
  owned k e he := h.owned k e ((prune_chain k).subset he)
  rows t r hr := by
    have hok := h.rows t r hr
    have hclear : L.Clear t → (L.prune m).Clear t := Clear.of_subset fun k => (prune_chain k).subset
    exact ⟨hok.snapshot, hok.nodup, fun hst => ⟨(hok.active hst).1, (hok.active hst).2.1, hclear (hok.active hst).2.2⟩,
      fun hst => (Calm.prune hgc).landed h (hok.committed hst), fun hst => hclear (hok.aborted hst)⟩
  unlogged := h.unlogged
  apart := h.apart

end Prune

/-! ## The chain append of a commit -/

section Append

variable {k : String} {v : Nat} {row : TxnStateRecord} {ws : WriteSet}

/-- The batch a commit appends. -/
def batch (t : String) (ws : WriteSet) (row : TxnStateRecord) :
    List (String × VersionEntry × Nat) :=
  row.allocVersions.map fun x => (x.1, Coordinator.chainEntry t ws x.1 x.2, row.snapshotVersion)

theorem le_latest (hasc : (L.chain k).Pairwise fun a b => a.commitVersion < b.commitVersion) {e : VersionEntry}
    (he : e ∈ L.chain k) : e.commitVersion ≤ L.latest k := by
  obtain ⟨front, last, hfront⟩ := (List.eq_nil_or_concat' _).resolve_left (List.ne_nil_of_mem he)
  rw [latest, hfront, List.getLast?_concat]
  rw [hfront] at he hasc
  rcases List.mem_append.1 he with he | he
  · exact le_of_lt ((List.pairwise_append.1 hasc).2.2 e he last (by simp))
  · obtain rfl := List.mem_singleton.1 he
    exact le_rfl

theorem Kept.le_latest (hasc : (L.chain k).Pairwise fun a b => a.commitVersion < b.commitVersion)
    (hk : L.Kept gc t k v) : v ≤ L.latest k := by
  rcases hk with ⟨e, he, -, rfl⟩ | ⟨-, hne, hnewer⟩
  · exact Ledger.le_latest hasc he
  · obtain ⟨e, he⟩ := List.exists_mem_of_ne_nil _ hne
    exact le_trans (le_of_lt (hnewer e he)) (Ledger.le_latest hasc he)

theorem append_batch_chain (ha : L.Alloc row v) (hnodup : row.writeKeys.Nodup) (k : String) :
    (L.append (batch t ws row)).chain k =
      L.chain k ++ if k ∈ row.writeKeys then [Coordinator.chainEntry t ws k v] else [] := by
  have hperm := List.perm_insertionSort (· ≤ ·) row.writeKeys
  have hcount : (row.writeKeys.insertionSort (· ≤ ·)).count k = if k ∈ row.writeKeys then 1 else 0 := by
    rw [hperm.count_eq, hnodup.count]
  have hfilter : (batch t ws row).filter (·.1 = k) =
      ((row.writeKeys.insertionSort (· ≤ ·)).filter (· = k)).map fun key =>
        (key, Coordinator.chainEntry t ws key v, row.snapshotVersion) := by
    simp only [batch, ha.eq, List.map_map, List.filter_map, Function.comp_def]
  simp only [append, hfilter, List.filter_eq, hcount]
  split <;> simp

theorem batch_nodup (ha : L.Alloc row v) (hnodup : row.writeKeys.Nodup) : ((batch t ws row).map (·.1)).Nodup := by
  have hkeys : (batch t ws row).map (·.1) = row.writeKeys.insertionSort (· ≤ ·) := by
    simp [batch, ha.eq, Function.comp_def]
  rw [hkeys]
  exact (List.perm_insertionSort _ _).nodup_iff.2 hnodup

/-- What the append needs: the row holds the version, and its keys are as they were at its snapshot. -/
structure Appends (L : Ledger) (t : String) (row : TxnStateRecord) (v : Nat) : Prop where
  row_eq : L.row t = some row
  status : row.status = .committing
  alloc : L.Alloc row v
  nodup : row.writeKeys.Nodup
  current : ∀ k ∈ row.writeKeys, L.latest k ≤ row.snapshotVersion

namespace Appends

variable (ha : L.Appends t row v)
include ha

theorem latest_lt (hk : k ∈ row.writeKeys) : L.latest k < v :=
  lt_of_le_of_lt (ha.current k hk) (ha.alloc.newer (List.ne_nil_of_mem hk))

theorem mem_alloc (hk : k ∈ row.writeKeys) : (k, v) ∈ row.allocVersions := by
  rw [ha.alloc.eq]
  exact List.mem_map_of_mem ((List.perm_insertionSort _ _).mem_iff.2 hk)

theorem appendable (ws : WriteSet) : ∀ item ∈ batch t ws row, ∀ e ∈ (L.chain item.1).getLast?,
    e.commitVersion ≤ item.2.2 ∧ e.commitVersion < item.2.1.commitVersion := by
  intro item hitem e he
  obtain ⟨x, hx, rfl⟩ := List.mem_map.1 hitem
  obtain ⟨hk, rfl⟩ := ha.alloc.mem hx
  have hlatest : L.latest x.1 = e.commitVersion := by
    rw [Option.mem_def] at he
    simp [latest, he]
  exact ⟨hlatest ▸ ha.current _ hk, by simpa using hlatest ▸ ha.latest_lt hk⟩

theorem mem_chain {e : VersionEntry} (he : e ∈ (L.append (batch t ws row)).chain k) :
    e ∈ L.chain k ∨ (k ∈ row.writeKeys ∧ e.txnId = t ∧ e.commitVersion = v) := by
  rw [append_batch_chain ha.alloc ha.nodup] at he
  rcases List.mem_append.1 he with he | he
  · exact .inl he
  · split at he
    case isTrue hk =>
      obtain rfl := List.mem_singleton.1 he
      exact .inr ⟨hk, Coordinator.chainEntry_txnId .., Coordinator.chainEntry_commitVersion ..⟩
    case isFalse => cases he

theorem chain_subset : L.chain k ⊆ (L.append (batch t ws row)).chain k := by
  rw [append_batch_chain ha.alloc ha.nodup]
  exact List.subset_append_left _ _

theorem clear (hne : t' ≠ t) (hc : L.Clear t') : (L.append (batch t ws row)).Clear t' := by
  intro k e he
  rcases ha.mem_chain he with he | ⟨-, het, -⟩
  · exact hc k e he
  · rw [het]
    exact hne.symm

theorem kept (hs : L.Sound gc) {v' : Nat} (hk : L.Kept gc t' k v') : (L.append (batch t ws row)).Kept gc t' k v' := by
  have hle := hk.le_latest (hs.ascending k)
  rcases hk with ⟨e, he, het⟩ | ⟨hgc, hne, hnewer⟩
  · exact .inl ⟨e, ha.chain_subset he, het⟩
  · refine .inr ⟨hgc, fun hnil => hne (List.subset_nil.1 (hnil ▸ ha.chain_subset)), fun e he => ?_⟩
    rcases ha.mem_chain he with he | ⟨hkey, -, hev⟩
    · exact hnewer e he
    · rw [hev]
      exact lt_of_le_of_lt hle (ha.latest_lt hkey)

theorem landed (hs : L.Sound gc) (hl : L.Landed gc t' r) : (L.append (batch t ws row)).Landed gc t' r := by
  obtain ⟨v', hv', hk⟩ := hl
  exact ⟨v', hv'.mono (le_refl L.version), fun k hkey => ha.kept hs (hk k hkey)⟩

theorem sound (hs : L.Sound gc) : (L.append (batch t ws row)).Sound gc where
  ascending k := by
    rw [append_batch_chain ha.alloc ha.nodup]
    split
    case isTrue hk =>
      refine List.pairwise_append.2 ⟨hs.ascending k, by simp, fun e he e' he' => ?_⟩
      obtain rfl := List.mem_singleton.1 he'
      rw [Coordinator.chainEntry_commitVersion]
      exact lt_of_le_of_lt (Ledger.le_latest (hs.ascending k) he) (ha.latest_lt hk)
    case isFalse => simpa using hs.ascending k
  owned k e he := by
    rcases ha.mem_chain he with he | ⟨hk, het, hev⟩
    · exact hs.owned k e he
    · exact ⟨row, by rw [het]; exact ha.row_eq, .inl ha.status, hev ▸ ha.mem_alloc hk⟩
  rows t' r hr := by
    have hok := hs.rows t' r hr
    have hne : r.status ≠ .committing → t' ≠ t := by
      rintro hst rfl
      exact hst (Option.some.inj (ha.row_eq.symm.trans hr) ▸ ha.status)
    refine ⟨hok.snapshot, hok.nodup, fun hst => ?_, fun hst => ha.landed hs (hok.committed hst),
      fun hst => ha.clear (hne (by simp [hst])) (hok.aborted hst)⟩
    obtain ⟨hnil, hopen, hclear⟩ := hok.active hst
    exact ⟨hnil, hopen, ha.clear (hne (by simp [hst])) hclear⟩
  unlogged := hs.unlogged
  apart := hs.apart

theorem frame (hs : L.Sound gc) : Frame gc t L (L.append (batch t ws row)) where
  row _ _ := rfl
  last _ _ := rfl
  clear _ hne hc := ha.clear hne hc
  landed _ _ _ _ _ hl := ha.landed hs hl

theorem getLast?_chain (hk : k ∈ row.writeKeys) : ((L.append (batch t ws row)).chain k).getLast? =
    some (Coordinator.chainEntry t ws k v) := by
  rw [append_batch_chain ha.alloc ha.nodup, if_pos hk, List.getLast?_concat]

end Appends

end Append

end Xtable.Ledger
