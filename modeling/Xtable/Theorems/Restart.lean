import Xtable.Tx.Operations
import Xtable.Theorems.Recovery

/-! `Halted` is what a crash between any two store transactions can leave; recovery turns that into a ledger in
    which every `Committing` row is stuck, and resolves every transaction that the log leaves open. -/

namespace Xtable

namespace Ledger

variable {gc : Prop} {L L' : Ledger} {t : String} {row : TxnStateRecord} {nowMs : Int}

/-- A logged commit, before or after its chain append. -/
structure MidCommit (L : Ledger) (t : String) (row : TxnStateRecord) : Prop where
  logged : L.Logged t row
  append : (L.Clear t ∧ (row.allocVersions = [] ∨
      ∃ v, L.Alloc row v ∧ ∀ k ∈ row.writeKeys, L.latest k ≤ row.snapshotVersion)) ∨
    ∃ v, L.Alloc row v ∧
      ∀ k ∈ row.writeKeys, ∃ e, (L.chain k).getLast? = some e ∧ e.txnId = t ∧ e.commitVersion = v

/-- What a crash can leave of the ledger. -/
structure Halted (gc : Prop) (L : Ledger) : Prop where
  sound : L.Sound gc
  committing : ∀ t row, L.row t = some row → row.status = .committing → L.Stuck gc t row ∨ L.MidCommit t row

theorem PhaseOk.cut {g : Phase} (hown : g.owns = some t) (hok : L.PhaseOk gc g) (hrow : L.row t = some row) :
    L.Stuck gc t row ∨ L.MidCommit t row := by
  have hclaimed : ∀ {r}, L.Claimed t r → L.Stuck gc t row := by
    intro r hc
    cases hc.row_eq.symm.trans hrow
    refine .inl ⟨hc.alloc, hc.clear, ?_⟩
    rcases hc.open' with h | h <;> simp [h]
  cases g <;> try (cases hown; done)
  all_goals cases hown
  case owned =>
    obtain ⟨r, hc⟩ := hok
    exact .inl (hclaimed hc)
  case loaded => exact .inl (hclaimed hok)
  case allocated => exact .inl (hclaimed hok.1)
  case doomed =>
    obtain ⟨hr, -, hnil, hclear, hlast⟩ := hok
    cases hr.symm.trans hrow
    exact .inl (.inl ⟨hnil, hclear, by simp [hlast], by simp [hlast]⟩)
  case logged =>
    obtain ⟨hl, hnil, hclear, -⟩ := hok
    cases hl.row_eq.symm.trans hrow
    exact .inr ⟨hl, .inl ⟨hclear, .inl hnil⟩⟩
  case ready =>
    obtain ⟨hl, ha, hclear, hcur⟩ := hok
    cases hl.row_eq.symm.trans hrow
    exact .inr ⟨hl, .inl ⟨hclear, .inr ⟨_, ha, hcur⟩⟩⟩
  case appended =>
    obtain ⟨hl, ha, hlast⟩ := hok
    cases hl.row_eq.symm.trans hrow
    exact .inr ⟨hl, .inr ⟨_, ha, hlast⟩⟩
  case walled =>
    obtain ⟨hr, -, hlast, ha, hk⟩ := hok
    cases hr.symm.trans hrow
    exact .inl (.inr ⟨hlast, _, ha, hk⟩)

end Ledger

theorem Inv.halted {gc : Prop} {w : World} {γ : Pool.Phases Act Call Phase} (h : Inv gc w γ) :
    w.store.ledger.Halted gc where
  sound := h.sound
  committing t row hrow hst := by
    rcases h.committing t row hrow hst with hstuck | ⟨i, ph, hi, hown⟩
    · exact .inl hstuck
    · exact (h.phases i ph hi).cut hown hrow

namespace Ledger

variable {gc : Prop} {L L' : Ledger} {t : String} {row : TxnStateRecord} {nowMs : Int}

/-- How recovery may change a ledger: chains stay, and rows that are not terminal may become so. -/
structure Recovers (gc : Prop) (L L' : Ledger) : Prop where
  halted : L'.Halted gc
  version : L'.version = L.version
  chain : L'.chain = L.chain
  logged : ∀ t, L.last t ≠ none → L'.last t ≠ none
  row : ∀ t, L'.row t = L.row t ∨ ∃ r st now, L.row t = some r ∧ ¬ r.status.Terminal ∧ st.Terminal ∧
    L'.row t = some { r with status := st, lastHeartbeatMs := now }

theorem Recovers.refl (h : L.Halted gc) : Recovers gc L L := ⟨h, rfl, rfl, fun _ h => h, fun _ => .inl rfl⟩

theorem Recovers.trans {L'' : Ledger} (h : Recovers gc L L') (h' : Recovers gc L' L'') : Recovers gc L L'' where
  halted := h'.halted
  version := h'.version.trans h.version
  chain := h'.chain.trans h.chain
  logged t hl := h'.logged t (h.logged t hl)
  row t := by
    rcases h'.row t with heq | ⟨r, st, now, hr, hopen, hst, hr'⟩
    · rw [heq]
      exact h.row t
    · rcases h.row t with heq | ⟨r₀, st₀, now₀, -, -, hst₀, hr₀⟩
      · exact .inr ⟨r, st, now, heq ▸ hr, hopen, hst, hr'⟩
      · cases hr₀.symm.trans hr
        exact absurd hst₀ hopen

theorem Recovers.of_frame (st : TxnStatus) (now : Int) (h : L.Halted gc) (hsound : L'.Sound gc) (hframe : Frame gc t L L')
    (hup : ∀ t', t' ≠ t → L'.uploaded t' = L.uploaded t') (hversion : L'.version = L.version)
    (hchain : L'.chain = L.chain) (hr : L.row t = some row) (hopen : ¬ row.status.Terminal)
    (hst : st.Terminal) (hlast : L'.last t ≠ none)
    (hr' : L'.row t = some { row with status := st, lastHeartbeatMs := now }) : Recovers gc L L' where
  halted := by
    refine ⟨hsound, fun t' r hrow hcomm => ?_⟩
    have hne : t' ≠ t := by
      rintro rfl
      cases hr'.symm.trans hrow
      rcases hst with rfl | rfl <;> cases hcomm
    rw [hframe.row t' hne] at hrow
    rcases h.committing t' r hrow hcomm with hstuck | hmid
    · exact .inl (hframe.stuck hne hrow hcomm hstuck)
    · obtain ⟨hl, happ⟩ := hmid
      refine .inr ⟨⟨(hframe.row t' hne).trans hrow, hl.status, (hframe.last t' hne).trans hl.last,
        (hup t' hne).trans hl.uploaded⟩, ?_⟩
      have hmono : ∀ {v}, L.Alloc r v → L'.Alloc r v := fun ha => ha.mono (le_of_eq hversion.symm)
      rcases happ with ⟨hclear, hnil | ⟨v, ha, hcur⟩⟩ | ⟨v, ha, hlast⟩
      · exact .inl ⟨hframe.clear t' hne hclear, .inl hnil⟩
      · refine .inl ⟨hframe.clear t' hne hclear, .inr ⟨v, hmono ha, ?_⟩⟩
        simpa only [latest, hchain] using hcur
      · refine .inr ⟨v, hmono ha, ?_⟩
        simpa only [hchain] using hlast
  version := hversion
  chain := hchain
  logged t' hl := by
    by_cases hne : t' = t
    · exact hne ▸ hlast
    · rw [hframe.last t' hne]
      exact hl
  row t' := by
    by_cases hne : t' = t
    · subst hne
      exact .inr ⟨row, st, now, hr, hopen, hst, hr'⟩
    · exact .inl (hframe.row t' hne)

theorem log_setRow {rec : WalRecord} {r : TxnStateRecord} : (L.log rec).setRow t r = (L.setRow t r).log rec := by
  cases rec <;> rfl

theorem Frame.trans {L'' : Ledger} (h : Frame gc t L L') (h' : Frame gc t L' L'') : Frame gc t L L'' where
  row t' hne := (h'.row t' hne).trans (h.row t' hne)
  last t' hne := (h'.last t' hne).trans (h.last t' hne)
  clear t' hne hc := h'.clear t' hne (h.clear t' hne hc)
  landed t' r hne hr hst hl :=
    h'.landed t' r hne ((h.row t' hne).trans hr) hst (h.landed t' r hne hr hst hl)

theorem Halted.abortRow (h : L.Halted gc) (hr : L.row t = some row) (hopen : ¬ row.status.Terminal)
    (hclear : L.Clear t) : Recovers gc L (L.abortRow nowMs t row) := by
  have hok := h.sound.rows t row hr
  have hrow : L.RowOk gc t { row with status := .aborted, lastHeartbeatMs := nowMs } :=
    ⟨hok.snapshot, hok.nodup, nofun, nofun, fun _ => hclear⟩
  have hset : (L.setRow t { row with status := .aborted, lastHeartbeatMs := nowMs }).Sound gc :=
    h.sound.setRow hrow (fun k e he ht => absurd ht (hclear k e he)) fun hst => absurd rfl hst
  refine .of_frame .aborted nowMs h ?_ (Frame.trans (.log rfl) .setRow) (fun _ _ => rfl) rfl rfl hr hopen (.inr rfl)
    (by simp [Ledger.abortRow, setRow, log, setLast]) setRow_row_self
  rw [Ledger.abortRow, log_setRow]
  exact hset.log rfl setRow_row_self nofun

theorem Halted.commitRow (h : L.Halted gc) (hr : L.row t = some row) (hst : row.status = .committing)
    (hland : L.Landed gc t row) : Recovers gc L (L.commitRow t row) := by
  have hok := h.sound.rows t row hr
  have hset : (L.setRow t { row with status := .committed }).Sound gc := by
    refine h.sound.setRow ⟨hok.snapshot, hok.nodup, nofun, fun _ => ?_, nofun⟩ ?_ ?_
    · obtain ⟨v, ha, hk⟩ := hland
      exact ⟨v, ⟨ha.eq, ha.newer, ha.handedOut⟩, hk⟩
    · rintro k e he rfl
      obtain ⟨r, hr', -, hmem⟩ := h.sound.owned k e he
      cases hr.symm.trans hr'
      exact ⟨.inr rfl, hmem⟩
    · intro _ t' r' hne hr' hst' x hx x' hx'
      exact h.sound.apart t t' row r' hne.symm hr hr' (by simp [hst]) hst' x hx x' hx'
  refine .of_frame .committed row.lastHeartbeatMs h ?_ (((Frame.log rfl).trans (.log rfl)).trans .setRow)
    (fun _ _ => rfl) rfl rfl hr (by simp [hst, TxnStatus.Terminal]) (.inl rfl)
    (by simp [Ledger.commitRow, setRow, log, setLast]) setRow_row_self
  rw [Ledger.commitRow, log_setRow, log_setRow]
  refine (hset.log (t := t) rfl setRow_row_self nofun).log (t := t)
    (r := { row with status := .committed }) rfl ?_ nofun
  rw [log_row, setRow_row_self]

theorem published_nil (h : row.allocVersions = []) (uploaded : List String) : L.published row uploaded = false := by
  simp [Ledger.published, h]

theorem published_behind {v : Nat} (ha : L.Alloc row v) (hcur : ∀ k ∈ row.writeKeys, L.latest k ≤ row.snapshotVersion)
    (uploaded : List String) : L.published row uploaded = false := by
  rw [← Bool.not_eq_true]
  intro hpub
  simp only [Ledger.published, Bool.and_eq_true, List.all_eq_true, List.any_eq_true, decide_eq_true_eq] at hpub
  obtain ⟨hall, x, hx, hup⟩ := hpub
  obtain ⟨hk, hv⟩ := ha.mem hx
  have hlatest := (hall x hx).resolve_left (not_not.2 hup)
  have hbehind := hcur _ hk
  have hnewer := ha.newer (List.ne_nil_of_mem hk)
  omega

theorem MidCommit.published (h : L.MidCommit t row) (hs : L.Sound gc) :
    if L.published row ((L.uploaded t).getD []) then L.Landed gc t row else L.Clear t := by
  obtain ⟨hl, happ⟩ := h
  rw [hl.uploaded]
  have hmem : ∀ {v}, L.Alloc row v → ∀ x ∈ row.allocVersions,
      x.1 ∈ row.writeKeys ∧ x.2 = v ∧ x.1 ∈ row.writeKeys.insertionSort (· ≤ ·) := fun ha x hx =>
    ⟨(ha.mem hx).1, (ha.mem hx).2, (List.perm_insertionSort _ _).mem_iff.2 (ha.mem hx).1⟩
  split
  case isTrue hpub =>
    rcases happ with ⟨-, hnil | ⟨v, ha, hcur⟩⟩ | ⟨v, ha, hlast⟩
    · rw [published_nil hnil] at hpub
      cases hpub
    · rw [published_behind ha hcur] at hpub
      cases hpub
    · refine ⟨v, ha, fun k hk => ?_⟩
      obtain ⟨e, he, het, hev⟩ := hlast k hk
      exact .inl ⟨e, List.mem_of_getLast? he, het, hev⟩
  case isFalse hpub =>
    rcases happ with ⟨hclear, -⟩ | ⟨v, ha, hlast⟩
    · exact hclear
    -- after the append, the comparison only fails for a commit without writes
    have hkeys : row.allocVersions = [] := by
      by_contra hne
      obtain ⟨x, hx⟩ := List.exists_mem_of_ne_nil _ hne
      refine hpub ?_
      simp only [Ledger.published, Option.getD_some, Bool.and_eq_true, List.all_eq_true, List.any_eq_true,
        decide_eq_true_eq]
      refine ⟨fun y hy => .inr ?_, x, hx, (hmem ha x hx).2.2⟩
      obtain ⟨hk, rfl, -⟩ := hmem ha y hy
      obtain ⟨e, he, -, hev⟩ := hlast _ hk
      simp [latest, he, hev]
    rintro k e he rfl
    obtain ⟨r, hr, -, hmem⟩ := hs.owned k e he
    cases hl.row_eq.symm.trans hr
    simp [hkeys] at hmem

/-- The log leaves the transaction open. -/
def OpenInLog (L : Ledger) (t : String) : Prop := L.last t = some .active ∨ L.last t = some .committing

theorem Halted.resolve (h : L.Halted gc) (nowMs : Int) (t : String) :
    Recovers gc L (L.resolve nowMs t (L.last t) ((L.uploaded t).getD [])) ∧
      (L.OpenInLog t → ∀ r, (L.resolve nowMs t (L.last t) ((L.uploaded t).getD [])).row t = some r →
        r.status.Terminal) := by
  unfold Ledger.resolve
  cases hrow : L.row t with
  | none => exact ⟨.refl h, fun _ r hr => by simp [hrow] at hr⟩
  | some row =>
    by_cases hterm : row.status.Terminal
    · simp only [if_pos hterm]
      refine ⟨.refl h, fun _ r hr => ?_⟩
      cases hrow.symm.trans hr
      exact hterm
    simp only [if_neg hterm]
    have habort : L.Clear t → Recovers gc L (L.abortRow nowMs t row) ∧
        (L.OpenInLog t → ∀ r, (L.abortRow nowMs t row).row t = some r → r.status.Terminal) := by
      refine fun hclear => ⟨h.abortRow hrow hterm hclear, fun _ r hr => ?_⟩
      cases setRow_row_self.symm.trans hr
      exact .inr rfl
    have hok := h.sound.rows t row hrow
    have hst : row.status = .active ∨ row.status = .committing := by
      cases hst : row.status <;> simp [hst, TxnStatus.Terminal] at hterm ⊢
    rcases hlast : L.last t with _ | (_ | _ | _ | _)
    case none | some.committed | some.aborted =>
      exact ⟨.refl h, fun hopen => by simp [OpenInLog, hlast] at hopen⟩
    case some.active =>
      refine habort ?_
      rcases hst with hst | hst
      · exact (hok.active hst).2.2
      · rcases h.committing t row hrow hst with (⟨-, hclear, -⟩ | ⟨hl, -⟩) | ⟨hl, -⟩
        · exact hclear
        · simp [hlast] at hl
        · cases hlast.symm.trans hl.last
    case some.committing =>
      have hmid : L.MidCommit t row := by
        rcases hst with hst | hst
        · rcases (hok.active hst).2.1 with hl | hl <;> simp [hlast] at hl
        · rcases h.committing t row hrow hst with (⟨-, -, hl, -⟩ | ⟨hl, -⟩) | hmid
          · exact absurd hlast hl
          · simp [hlast] at hl
          · exact hmid
      have hpub := hmid.published h.sound
      simp only
      split at hpub
      case isTrue hp =>
        rw [if_pos hp]
        refine ⟨h.commitRow hrow hmid.logged.status hpub, fun _ r hr => ?_⟩
        cases setRow_row_self.symm.trans hr
        exact .inl rfl
      case isFalse hp =>
        rw [if_neg hp]
        exact habort hpub

theorem resolve_ne {t' : String} (hne : t' ≠ t) (last : Option TxnStatus) (uploaded : List String) :
    (L.resolve nowMs t last uploaded).row t' = L.row t' ∧ (L.resolve nowMs t last uploaded).last t' = L.last t' ∧
      (L.resolve nowMs t last uploaded).uploaded t' = L.uploaded t' := by
  have habort : ∀ row, (L.abortRow nowMs t row).row t' = L.row t' ∧ (L.abortRow nowMs t row).last t' = L.last t' ∧
      (L.abortRow nowMs t row).uploaded t' = L.uploaded t' := fun row =>
    ⟨by simp [Ledger.abortRow, hne], by simp [Ledger.abortRow, log, setLast, setRow, hne], rfl⟩
  have hcommit : ∀ row, (L.commitRow t row).row t' = L.row t' ∧ (L.commitRow t row).last t' = L.last t' ∧
      (L.commitRow t row).uploaded t' = L.uploaded t' := fun row =>
    ⟨by simp [Ledger.commitRow, hne], by simp [Ledger.commitRow, log, setLast, setRow, hne], rfl⟩
  unfold Ledger.resolve
  split
  · exact ⟨rfl, rfl, rfl⟩
  split
  · exact ⟨rfl, rfl, rfl⟩
  split
  · exact habort _
  · split
    · exact hcommit _
    · exact habort _
  · exact ⟨rfl, rfl, rfl⟩

theorem resolve_of_not_open (h : ¬ L.OpenInLog t) (uploaded : List String) :
    L.resolve nowMs t (L.last t) uploaded = L := by
  unfold Ledger.resolve
  split
  · rfl
  split
  · rfl
  match hlast : L.last t with
  | none | some .committed | some .aborted => rfl
  | some .active => exact absurd (.inl hlast) h
  | some .committing => exact absurd (.inr hlast) h

theorem Halted.resolve_all (nowMs : Int) (L₀ : Ledger) {ts : List String} (hnodup : ts.Nodup) (h : L.Halted gc)
    (hsame : ∀ t ∈ ts, L.last t = L₀.last t ∧ L.uploaded t = L₀.uploaded t) :
    let L' := ts.foldl (fun L t => L.resolve nowMs t (L₀.last t) ((L₀.uploaded t).getD [])) L
    Recovers gc L L' ∧ (∀ t ∈ ts, L.OpenInLog t → ∀ r, L'.row t = some r → r.status.Terminal) ∧
      ∀ t, (t ∈ ts → ¬ L.OpenInLog t) → L'.last t = L.last t ∧ L'.row t = L.row t := by
  induction ts generalizing L with
  | nil => exact ⟨.refl h, by simp, fun _ _ => ⟨rfl, rfl⟩⟩
  | cons t rest ih =>
    rw [List.nodup_cons] at hnodup
    obtain ⟨hstep, hdone⟩ := h.resolve nowMs t
    rw [(hsame t (by simp)).1, (hsame t (by simp)).2] at hstep hdone
    have hne : ∀ t' ∈ rest, t' ≠ t := fun t' ht' heq => hnodup.1 (heq ▸ ht')
    obtain ⟨hrest, hterm, hkept⟩ := ih hnodup.2 hstep.halted fun t' ht' =>
      ⟨(resolve_ne (hne t' ht') _ _).2.1.trans (hsame t' (by simp [ht'])).1,
        (resolve_ne (hne t' ht') _ _).2.2.trans (hsame t' (by simp [ht'])).2⟩
    simp only [List.foldl_cons]
    refine ⟨hstep.trans hrest, fun t' ht' hopen r hr => ?_, fun t' ht' => ?_⟩
    · rcases List.mem_cons.1 ht' with rfl | ht'
      · -- resolved first, and a terminal row is not touched again
        rcases hrest.row t' with heq | ⟨r₀, st, now, -, -, hst, hr'⟩
        · exact hdone hopen r (heq ▸ hr)
        · cases hr'.symm.trans hr
          exact hst
      · refine hterm t' ht' ?_ r hr
        rw [OpenInLog, (resolve_ne (hne t' ht') _ _).2.1]
        exact hopen
    · by_cases heq : t' = t
      · subst heq
        have hsettled : L.resolve nowMs t' (L.last t') ((L₀.uploaded t').getD []) = L :=
          resolve_of_not_open (ht' (by simp)) _
        rw [(hsame t' (by simp)).1] at hsettled
        have hrest := hkept t' fun hmem => absurd hmem hnodup.1
        rwa [hsettled] at hrest ⊢
      · obtain ⟨hrow', hlast', -⟩ := @resolve_ne L t nowMs t' heq (L₀.last t) ((L₀.uploaded t).getD [])
        rw [← hlast', ← hrow']
        refine hkept t' fun hmem => ?_
        rw [OpenInLog, hlast']
        exact ht' (by simp [hmem])

end Ledger

/-- What a restart makes of a state that a crash has left. -/
structure Restarts (gc : Prop) (w w' : World) : Prop where
  inv : Inv gc w' fun _ => none
  recovers : w.store.ledger.Recovers gc w'.store.ledger
  resolved : ∀ t, w.store.ledger.OpenInLog t → ∀ r, w'.store.ledger.row t = some r → r.status.Terminal
  last : ∀ t, ¬ w.store.ledger.OpenInLog t → w'.store.ledger.last t = w.store.ledger.last t
  records : w'.records = w.crash.records

theorem Recovery.settle_all_ledger (nowMs : Int) (last : String → Option TxnStatus) (uploaded : String → List String)
    (ts : List String) (x : Ledger × Table Nat Nat) :
    (ts.foldl (fun x t => settle nowMs t (last t) (uploaded t) x) x).1 =
      ts.foldl (fun L t => L.resolve nowMs t (last t) (uploaded t)) x.1 := by
  induction ts generalizing x with
  | nil => rfl
  | cons t rest ih => exact ih _

theorem World.restart_settles {w w' : World} {nowMs : Int} {order : List String} (hwal : w.store.WalBound)
    (hr : w.restart nowMs order = some w') :
    order.Nodup ∧ (∀ t, t ∈ order ↔ w.store.ledger.last t ≠ none) ∧ w'.store.WalBound ∧
      (w'.store.ledger, w'.store.activeSnapshots) = order.foldl
        (fun x t => Recovery.settle nowMs t (w.store.ledger.last t) ((w.store.ledger.uploaded t).getD []) x)
        (w.store.ledger, w.store.activeSnapshots) ∧
      w'.records = w.crash.records := by
  unfold World.restart at hr
  split at hr
  case isFalse => cases hr
  case isTrue hperm =>
  obtain ⟨report, w₁, hrun, hwal₁, hL₁, hP₁, hrec₁⟩ :=
    Recovery.recover_resolves (w := w.crash) nowMs (fun _ => order) hwal
  rw [hrun] at hr
  cases hr
  refine ⟨hperm.nodup_iff.2 Table.nodup_keys, fun t => ?_, hwal₁, Prod.ext hL₁ hP₁, hrec₁⟩
  rw [hperm.mem_iff, List.mem_map]
  constructor
  · rintro ⟨⟨t', st⟩, hmem, rfl⟩
    simp [Store.ledger, Table.mem_toList.1 hmem]
  · intro hne
    obtain ⟨st, hst⟩ := Option.ne_none_iff_exists'.1 hne
    exact ⟨(t, st), Table.mem_toList.2 hst, rfl⟩

theorem World.restart_spec {gc : Prop} {w w' : World} {nowMs : Int} {order : List String}
    (hwal : w.store.WalBound) (h : w.store.ledger.Halted gc) (hr : w.restart nowMs order = some w') :
    Restarts gc w w' := by
  obtain ⟨hnodup, hmem, hwal', hsettled, hrec⟩ := World.restart_settles hwal hr
  obtain ⟨hrecovers, hterm, hkept⟩ := Ledger.Halted.resolve_all nowMs w.store.ledger hnodup h fun _ _ => ⟨rfl, rfl⟩
  have hL : w'.store.ledger = order.foldl (fun L t => L.resolve nowMs t (w.store.ledger.last t)
      ((w.store.ledger.uploaded t).getD [])) w.store.ledger :=
    (congrArg Prod.fst hsettled).trans (Recovery.settle_all_ledger _ _ _ _ _)
  rw [← hL] at hrecovers hterm hkept
  have hopen : ∀ t, w.store.ledger.OpenInLog t → t ∈ order := by
    rintro t (hl | hl) <;> simp [hmem, hl]
  have hlast' : ∀ t, ¬ w.store.ledger.OpenInLog t → w'.store.ledger.last t = w.store.ledger.last t :=
    fun t ht => (hkept t fun _ => ht).1
  refine ⟨.quiet hwal' hrecovers.halted.sound fun t row hrow hst => ?_, hrecovers,
    fun t ht => hterm t (hopen t ht) ht, hlast', hrec⟩
  rcases hrecovers.halted.committing t row hrow hst with hstuck | hmid
  · exact hstuck
  · exfalso
    by_cases ht : w.store.ledger.OpenInLog t
    · have := hterm t (hopen t ht) ht row hrow
      simp [hst, TxnStatus.Terminal] at this
    · exact ht (.inr ((hlast' t ht).symm.trans hmid.logged.last))

end Xtable
