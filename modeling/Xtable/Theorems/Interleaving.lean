import Xtable.Theorems.Invariant

/-! Every move keeps the life-cycle invariant: one lemma per group of moves, and the interleavings of the
    coordinator's calls at the end. -/

namespace Xtable.Inv

open Ledger
open Pool (Phases Phased)

variable {gc : Prop} {w : World} {γ : Phases Act Call Phase} {i : Nat} {c : Call} {d : List Act} {t key : String}
  {row txn : TxnStateRecord} {v : Nat}

/-! ## Begin -/

section

variable (h : Inv gc w γ)

include h

theorem putRow (hi : γ i = some ⟨c, d, .captured t row⟩) : Inv gc (w.exec (.putTxnState t row)).2
      (Function.update γ i (some ⟨c, .putTxnState t row :: d, .begun t row⟩)) := by
  obtain ⟨hnone, hsnap, idem, now, hnew⟩ := h.phases i _ hi
  have hL : (w.exec (.putTxnState t row)).2.store.ledger = w.store.ledger.setRow t row :=
    Store.ledger_putTxnState w.store t row
  have hclear : w.store.ledger.Clear t := by
    rintro k e he rfl
    obtain ⟨r, hr, -⟩ := h.sound.owned k e he
    simp [hnone] at hr
  have hst : row.status = .active := by
    rw [hnew]
    rfl
  have hnil : row.allocVersions = [] := by
    rw [hnew]
    rfl
  have hrow : w.store.ledger.RowOk gc t row := by
    refine ⟨hsnap, ?_, fun _ => ⟨hnil, .inl (h.sound.unlogged t hnone), hclear⟩, by simp [hst], by simp [hst]⟩
    rw [hnew]
    exact List.nodup_nil
  refine h.calm hi h.wal ?_ (hL ▸ .newRow hnone hnil) rfl ?_ ?_ (fun _ hn _ => hn) ?_ (h.fits i _ hi) ?_
  · rw [hL]
    exact h.sound.setRow_clear hrow hclear hnil
  · intro t' hnone' hb
    have hne : t' ≠ t := by
      rintro rfl
      exact hb (h.fits i _ hi)
    rw [hL]
    simpa [hne] using hnone'
  · intro t' r hr hst'
    rw [hL] at hr
    rcases setRow_row_inv hr with ⟨rfl, rfl⟩ | ⟨-, hr⟩
    · simp [hst] at hst'
    · exact .inr hr
  · rw [hL]
    exact ⟨row, by simp, rfl⟩
  · intro t' ht'
    exact h.unregistered i _ t' hi ht'

/-! ## Write-backs and claims -/

theorem writeBack {g g' : Phase} {r : TxnStateRecord} (hi : γ i = some ⟨c, d, g⟩)
    (hown : g.owns = none) (hback : c.writesBack = true) (hcond : WriteBackActive w c (.putTxnState t r))
    (hread : w.store.ledger.ReadActive t txn) (hst : r.status = txn.status)
    (hsnap : r.snapshotVersion = txn.snapshotVersion) (halloc : r.allocVersions = txn.allocVersions)
    (hnodup : r.writeKeys.Nodup) (hphase : ∀ L : Ledger, L.PhaseOk gc g') (hfits : g'.Fits c)
    (hunreg : g'.unregistered = none) :
    Inv gc (w.exec (.putTxnState t r)).2 (Function.update γ i (some ⟨c, .putTxnState t r :: d, g'⟩)) := by
  obtain ⟨r₀, hr₀, hactive⟩ := hcond hback t r rfl
  obtain ⟨r₁, hr₁, hsnap₁⟩ := hread.at'
  obtain rfl : r₀ = r₁ := Option.some.inj (hr₀.symm.trans hr₁)
  have hstatus : r.status = .active := hst.trans hread.status
  exact h.setRow_calm hi hown (Store.ledger_putTxnState w.store t r) h.wal rfl hr₀ hactive
    (hsnap.trans hsnap₁.symm) (halloc.trans hread.alloc) hnodup (by simp [hstatus]) (by simp [hstatus])
    (hphase _) hfits hunreg

theorem claim {g : Phase} {next : TxnStatus} {won lost : Phase}
    (hi : γ i = some ⟨c, d, g⟩) (hown : g.owns = none) (hnext : next ≠ .committed)
    (hwon : ∀ r, w.store.ledger.row t = some r → r.status = .active →
      (w.store.ledger.setRow t { r with status := next }).PhaseOk gc won)
    (hwons : next = .committing → won.owns = some t) (hlost : ∀ L : Ledger, L.PhaseOk gc lost)
    (hfits : won.Fits c ∧ lost.Fits c)
    (hunreg : won.unregistered = none ∧ lost.unregistered = none) :
    Inv gc (w.exec (.compareAndSetTxnStatus t .active next)).2
      (Function.update γ i (some ⟨c, .compareAndSetTxnStatus t .active next :: d,
        if (w.exec (.compareAndSetTxnStatus t .active next)).1 then won else lost⟩)) := by
  rcases w.exec_compareAndSet t _ _ with ⟨r, hr, hst, heq⟩ | ⟨-, heq⟩ <;> rw [heq]
  · exact h.setRow_calm hi hown (Store.ledger_putTxnState w.store t _) h.wal rfl hr hst rfl
      ((h.sound.rows t r hr).active hst).1 (h.sound.rows t r hr).nodup hnext hwons (hwon r hr hst) hfits.1
      hunreg.1
  · exact h.calm hi h.wal h.sound (.refl _) hown (fun _ hr _ => hr) (fun _ _ hr _ => .inr hr)
      (fun _ hn _ => hn) (hlost _) hfits.2 (by simp [hunreg.2])

/-! ## Commit, with the row owned -/

theorem giveUp {reason : String} (hi : γ i = some ⟨c, d, .loaded t row⟩) :
    Inv gc (w.exec (.appendWal (.aborted t reason))).2
      (Function.update γ i (some ⟨c, .appendWal (.aborted t reason) :: d, .doomed t row⟩)) := by
  have hc : w.store.ledger.Claimed t row := h.phases i _ hi
  refine h.log_owner hi rfl rfl hc.row_eq hc.status rfl ?_ (h.fits i _ hi) rfl
  exact ⟨by simpa using hc.row_eq, hc.status, hc.alloc, log_clear.2 hc.clear, by simp [log, setLast]⟩

theorem storeAborted (hi : γ i = some ⟨c, d, .doomed t row⟩) :
    Inv gc (w.exec (.putTxnState t { row with status := .aborted })).2
      (Function.update γ i (some ⟨c, .putTxnState t { row with status := .aborted } :: d,
        .aborting t row.snapshotVersion none⟩)) := by
  obtain ⟨hrow, hst, hnil, hclear, -⟩ := h.phases i _ hi
  have hok := h.sound.rows t row hrow
  have hok' : w.store.ledger.RowOk gc t { row with status := .aborted } :=
    ⟨hok.snapshot, hok.nodup, nofun, nofun, fun _ => hclear⟩
  exact h.setRow_owner hi rfl hrow hst rfl (h.sound.setRow_clear hok' hclear hnil) nofun
    ⟨_, setRow_row_self, rfl, rfl⟩ trivial rfl

theorem landed_of_alloc {g : Phase} (hi : γ i = some ⟨c, d, g⟩) (hown : g.owns = some t)
    {t' : String} {r : TxnStateRecord} (hne : t' ≠ t) (hr : w.store.ledger.row t' = some r)
    (hst : r.status ≠ .aborted) (halloc : r.allocVersions ≠ []) : w.store.ledger.Landed gc t' r := by
  have hok := h.sound.rows t' r hr
  cases hstatus : r.status with
  | active => exact absurd (hok.active hstatus).1 halloc
  | aborted => exact absurd hstatus hst
  | committed => exact hok.committed hstatus
  | committing =>
    rcases h.committing t' r hr hstatus with (⟨hnil, -⟩ | ⟨-, hl⟩) | ⟨j, ph, hj, hph⟩
    · exact absurd hnil halloc
    · exact hl
    · have hij := h.exclusive j i ph _ hj hi ((h.fits j ph hj).exclusive hph) ((h.fits i _ hi).exclusive hown)
      subst hij
      cases hi.symm.trans hj
      exact absurd (Option.some.inj (hph.symm.trans hown)) hne

theorem allocate (hi : γ i = some ⟨c, d, .loaded t row⟩) (hkeys : row.writeKeys ≠ []) :
    Inv gc (w.exec .nextGlobalVersion).2
      (Function.update γ i (some ⟨c, .nextGlobalVersion :: d,
        .allocated t row (w.exec .nextGlobalVersion).1 []⟩)) := by
  have hc : w.store.ledger.Claimed t row := h.phases i _ hi
  have hL : (w.exec .nextGlobalVersion).2.store.ledger = w.store.ledger.bump := rfl
  refine h.owner hi h.wal (hL ▸ h.sound.bump) (hL ▸ .bump) (hL ▸ .bump) rfl (fun _ _ _ => rfl)
    (fun _ hn _ => hn) ?_ (h.fits i _ hi) nofun
  refine ⟨⟨hc.row_eq, hc.status, hc.alloc, hc.clear, hc.open'⟩, ?_, hkeys, by simp⟩
  refine ⟨Nat.lt_succ_of_le (h.sound.rows t row hc.row_eq).snapshot, le_rfl, fun t' r hr hst x hx => ?_⟩
  have hne : t' ≠ t := by
    rintro rfl
    cases hc.row_eq.symm.trans hr
    simp [hc.alloc] at hx
  have hl := h.landed_of_alloc hi rfl hne hr hst (List.ne_nil_of_mem hx)
  exact Nat.lt_succ_of_le (hl.mem_alloc hx).2.2.1

theorem check {passed : List String} (hi : γ i = some ⟨c, d, .allocated t row v passed⟩) :
    Inv gc (w.exec (.readChain key)).2
      (Function.update γ i (some ⟨c, .readChain key :: d,
        if (w.store.readChain key).entries ≠ [] ∧
            (w.store.readChain key).latestCommitVersion > row.snapshotVersion then .loaded t row
        else .allocated t row v (key :: passed)⟩)) := by
  obtain ⟨hc, hn, hkeys, hp⟩ := h.phases i _ hi
  split
  case isTrue => exact h.silent hi trivial rfl hc (h.fits i _ hi) nofun nofun
  case isFalse hlatest =>
    refine h.silent hi trivial rfl ⟨hc, hn, hkeys, ?_⟩ (h.fits i _ hi) nofun nofun
    intro k hk
    rcases List.mem_cons.1 hk with rfl | hk
    · rw [Store.latest_readChain] at hlatest
      by_cases hnil : (w.store.readChain k).entries = []
      · have hzero : w.store.ledger.latest k = 0 := by
          simp only [Ledger.latest, Store.ledger, hnil]
          rfl
        omega
      · exact not_lt.1 fun hlt => hlatest ⟨hnil, hlt⟩
    · exact hp k hk

theorem logCommitting {g : Phase} (hi : γ i = some ⟨c, d, g⟩) (hown : g.owns = some t)
    (hc : w.store.ledger.Claimed t row)
    (hn : row.writeKeys ≠ [] → w.store.ledger.Newest row v ∧
      ∀ k ∈ row.writeKeys, w.store.ledger.latest k ≤ row.snapshotVersion)
    (hfits : (Phase.logged t row v).Fits c) :
    Inv gc (w.exec (.appendWal (.committing t (row.writeKeys.insertionSort (· ≤ ·))))).2
      (Function.update γ i
        (some ⟨c, .appendWal (.committing t (row.writeKeys.insertionSort (· ≤ ·))) :: d, .logged t row v⟩)) := by
  refine h.log_owner hi hown rfl hc.row_eq hc.status rfl ?_ hfits rfl
  refine ⟨⟨hc.row_eq, hc.status, by simp [log, setLast], by simp [log]⟩, hc.alloc, log_clear.2 hc.clear, fun hkeys => ?_⟩
  obtain ⟨hn, hcur⟩ := hn hkeys
  exact ⟨⟨hn.newer, hn.handedOut, hn.above⟩, hcur⟩

theorem storeAlloc (hi : γ i = some ⟨c, d, .logged t row v⟩) : Inv gc (w.exec (.putTxnState t (row.withAlloc v))).2
      (Function.update γ i (some ⟨c, .putTxnState t (row.withAlloc v) :: d, .ready t (row.withAlloc v) v⟩)) := by
  obtain ⟨hl, hnil, hclear, hn⟩ := h.phases i _ hi
  have hok := h.sound.rows t row hl.row_eq
  have hst : (row.withAlloc v).status = .committing := hl.status
  refine h.setRow_owner hi rfl hl.row_eq hl.status rfl ?_ (fun _ => rfl) ?_ (h.fits i _ hi) rfl
  · refine h.sound.setRow ⟨hok.snapshot, hok.nodup, by simp [hst], by simp [hst], by simp [hst]⟩
      (fun k e he het => absurd het (hclear k e he)) ?_
    intro _ t' r' hne hr' hst' x hx x' hx'
    obtain ⟨k, hk, rfl⟩ := List.mem_map.1 hx
    have hk : k ∈ row.writeKeys := (List.perm_insertionSort _ _).mem_iff.1 hk
    obtain ⟨hnewest, hcur⟩ := hn (List.ne_nil_of_mem hk)
    have hl' := (h.landed_of_alloc hi rfl hne hr' hst' (List.ne_nil_of_mem hx')).mem_alloc hx'
    refine ⟨ne_of_gt (hnewest.above t' r' hr' hst' x' hx'), ?_⟩
    rintro rfl
    exact .inr (le_trans (hl'.2.2.2.le_latest (h.sound.ascending _)) (hcur _ hk))
  · refine ⟨⟨setRow_row_self, hst, hl.last, hl.uploaded⟩, ⟨rfl, ?_, ?_⟩, hclear, ?_⟩
    · exact fun hkeys => (hn hkeys).1.newer
    · exact fun hkeys => (hn hkeys).1.handedOut
    · exact fun k hk => (hn (List.ne_nil_of_mem hk)).2 k hk

theorem appends (hi : γ i = some ⟨c, d, .ready t row v⟩) : w.store.ledger.Appends t row v := by
  obtain ⟨hl, ha, -, hcur⟩ := h.phases i _ hi
  exact ⟨hl.row_eq, hl.status, ha, (h.sound.rows t row hl.row_eq).nodup, hcur⟩

theorem exec_append (hi : γ i = some ⟨c, d, .ready t row v⟩) (ws : WriteSet) :
    (w.exec (.appendChainEntriesBulk (batch t ws row))).1 = .ok () ∧
      (w.exec (.appendChainEntriesBulk (batch t ws row))).2.store.ledger =
        w.store.ledger.append (batch t ws row) :=
  Store.ledger_appendChainEntriesBulk (s := w.store) (batch_nodup (h.appends hi).alloc (h.appends hi).nodup)
    ((h.appends hi).appendable ws)

theorem append (hi : γ i = some ⟨c, d, .ready t row v⟩) (ws : WriteSet) :
    (w.exec (.appendChainEntriesBulk (batch t ws row))).1 = .ok () ∧
      Inv gc (w.exec (.appendChainEntriesBulk (batch t ws row))).2
        (Function.update γ i
          (some ⟨c, .appendChainEntriesBulk (batch t ws row) :: d, .appended t row v⟩)) := by
  obtain ⟨hl, ha, -, -⟩ := h.phases i _ hi
  have happ := h.appends hi
  obtain ⟨hans, hL⟩ := h.exec_append hi ws
  refine ⟨hans, ?_⟩
  refine h.owner hi ?_ (hL ▸ happ.sound h.sound) (hL ▸ happ.frame h.sound) ?_ rfl (fun _ _ _ => rfl)
    (fun _ hn _ => hn) ?_ (h.fits i _ hi) nofun
  · exact Store.walBound_appendChainEntriesBulk h.wal
  · rw [hL]
    exact ⟨le_rfl, (Rely.refl _).row⟩
  · rw [hL]
    refine ⟨⟨hl.row_eq, hl.status, hl.last, hl.uploaded⟩, ⟨ha.eq, ha.newer, ha.handedOut⟩, fun k hk => ?_⟩
    exact ⟨_, happ.getLast?_chain hk, by simp, by simp⟩

theorem walCommitted (hi : γ i = some ⟨c, d, .appended t row v⟩) : Inv gc (w.exec (.appendWal (.committed t v))).2
      (Function.update γ i (some ⟨c, .appendWal (.committed t v) :: d, .walled t row v⟩)) := by
  obtain ⟨hl, ha, hlast⟩ := h.phases i _ hi
  refine h.log_owner hi rfl rfl hl.row_eq hl.status rfl ?_ (h.fits i _ hi) rfl
  refine ⟨hl.row_eq, hl.status, by simp [log, setLast], ⟨ha.eq, ha.newer, ha.handedOut⟩, fun k hk => ?_⟩
  obtain ⟨e, he, het, hev⟩ := hlast k hk
  exact .inl ⟨e, List.mem_of_getLast? he, het, hev⟩

theorem walResult (hi : γ i = some ⟨c, d, .walled t row v⟩) : Inv gc (w.exec (.appendWal (.commitResult t v true))).2
      (Function.update γ i (some ⟨c, .appendWal (.commitResult t v true) :: d, .walled t row v⟩)) := by
  obtain ⟨hrow, hst, -, ha, hk⟩ := h.phases i _ hi
  refine h.log_owner hi rfl rfl hrow hst rfl ?_ (h.fits i _ hi) rfl
  exact ⟨hrow, hst, by simp [log, setLast], ⟨ha.eq, ha.newer, ha.handedOut⟩, hk⟩

theorem storeCommitted (hi : γ i = some ⟨c, d, .walled t row v⟩) :
    Inv gc (w.exec (.putTxnState t { row with status := .committed })).2
      (Function.update γ i (some ⟨c, .putTxnState t { row with status := .committed } :: d,
        .finishing t row.snapshotVersion⟩)) := by
  obtain ⟨hrow, hst, -, ha, hk⟩ := h.phases i _ hi
  have hok := h.sound.rows t row hrow
  have hland : w.store.ledger.Landed gc t { row with status := .committed } :=
    ⟨v, ⟨ha.eq, ha.newer, ha.handedOut⟩, hk⟩
  refine h.setRow_owner hi rfl hrow hst rfl ?_ nofun ⟨_, setRow_row_self, rfl, rfl⟩ trivial rfl
  refine h.sound.setRow ⟨hok.snapshot, hok.nodup, nofun, fun _ => hland, nofun⟩ ?_ ?_
  · rintro k e he rfl
    obtain ⟨r, hr, -, hmem⟩ := h.sound.owned k e he
    cases hrow.symm.trans hr
    exact ⟨.inr rfl, hmem⟩
  · intro _ t' r' hne hr' hst' x hx x' hx'
    exact h.sound.apart t t' row r' hne.symm hrow hr' (by simp [hst]) hst' x hx x' hx'

/-! ## All moves -/

theorem readActive (hrow : w.store.txnState[t]? = some row) (hst : row.status = .active) :
    w.store.ledger.ReadActive t row :=
  have hok := h.sound.rows t row hrow
  ⟨hst, (hok.active hst).1, hok.nodup, row, hrow, rfl⟩

theorem look {g other : Phase} {k : TxnStateRecord → Phase} (hi : γ i = some ⟨c, d, g⟩) (hown : g.owns = none)
    (hk : ∀ row, w.store.txnState[t]? = some row → row.status = .active → w.store.ledger.PhaseOk gc (k row))
    (hother : w.store.ledger.PhaseOk gc other) (howns : (∀ row, (k row).owns = none) ∧ other.owns = none)
    (hfits : ∀ r, (Phase.onActive k other r).Fits c)
    (hunreg : (∀ row, (k row).unregistered = none) ∧ other.unregistered = none) :
    Inv gc (w.exec (.getTxnState t)).2
      (Function.update γ i (some ⟨c, .getTxnState t :: d,
        Phase.onActive k other (w.exec (.getTxnState t)).1⟩)) := by
  have hcases : ∀ P : Phase → Prop, (∀ row, w.store.txnState[t]? = some row → row.status = .active → P (k row)) →
      P other → P (Phase.onActive k other (w.store.txnState[t]?)) := by
    intro P hP ho
    cases hrow : w.store.txnState[t]? with
    | none => exact ho
    | some row =>
      simp only [Phase.onActive]
      split
      case isTrue hst => exact hP row hrow hst
      case isFalse => exact ho
  refine h.silent hi trivial ?_ (hcases _ hk hother) (hfits _) (by rintro _ _ ⟨⟩) ?_
  · rw [hown]
    exact hcases (fun g => g.owns = none) (fun row _ _ => howns.1 row) howns.2
  · have hnone := hcases (fun g => g.unregistered = none) (fun row _ _ => hunreg.1 row) hunreg.2
    intro t' ht'
    cases hnone.symm.trans ht'

theorem require {g : Phase} {k : TxnStateRecord → Phase} (hi : γ i = some ⟨c, d, g⟩) (hown : g.owns = none)
    (hk : ∀ row, w.store.ledger.ReadActive t row → w.store.ledger.PhaseOk gc (k row))
    (howns : ∀ row, (k row).owns = none ∧ (k row).unregistered = none) (hfits : ∀ r, (Phase.onActive k .ended r).Fits c) :
    Inv gc (w.exec (.getTxnState t)).2
      (Function.update γ i (some ⟨c, .getTxnState t :: d, Phase.onActive k .ended (w.exec (.getTxnState t)).1⟩)) :=
  h.look hi hown (fun row hr hst => hk row (h.readActive hr hst)) trivial ⟨fun row => (howns row).1, rfl⟩ hfits
    ⟨fun row => (howns row).2, rfl⟩

theorem lookAbort {g other : Phase} {sweep : Option Bool} (hi : γ i = some ⟨c, d, g⟩) (hown : g.owns = none)
    (hother : w.store.ledger.PhaseOk gc other) (howns : other.owns = none) (hunreg : other.unregistered = none)
    (hfits : ∀ r, (Phase.onActive (fun row => .abortSeen t row sweep) other r).Fits c) :
    Inv gc (w.exec (.getTxnState t)).2 (Function.update γ i (some ⟨c, .getTxnState t :: d,
      Phase.onActive (fun row => .abortSeen t row sweep) other (w.exec (.getTxnState t)).1⟩)) :=
  h.look hi hown (fun row hr _ => ⟨row, hr, rfl⟩) hother ⟨fun _ => rfl, howns⟩ hfits ⟨fun _ => rfl, hunreg⟩

theorem claimAbort {lost : Phase} {sweep : Option Bool} (hi : γ i = some ⟨c, d, .abortSeen t row sweep⟩)
    (hlost : ∀ L : Ledger, L.PhaseOk gc lost) (hfits : lost.Fits c) (hunreg : lost.unregistered = none) :
    Inv gc (w.exec (.compareAndSetTxnStatus t .active .aborted)).2
      (Function.update γ i (some ⟨c, .compareAndSetTxnStatus t .active .aborted :: d,
        if (w.exec (.compareAndSetTxnStatus t .active .aborted)).1 then .aborting t row.snapshotVersion sweep else lost⟩)) := by
  obtain ⟨r₀, hr₀, hsnap⟩ := h.phases i _ hi
  refine h.claim hi rfl (by decide) ?_ (by rintro ⟨⟩) hlost ⟨trivial, hfits⟩ ⟨rfl, hunreg⟩
  intro r hr hst
  cases hr₀.symm.trans hr
  exact ⟨_, setRow_row_self, rfl, hsnap⟩

theorem act {g : Phase} {e : Act} {A : e.Res → Prop} {N : e.Res → Phase}
    (hi : γ i = some ⟨c, d, g⟩) (hm : Move g e A N) (hcond : Steady gc w c e) :
    A (w.exec e).1 ∧
      Inv gc (w.exec e).2 (Function.update γ i (some ⟨c, e :: d, N (w.exec e).1⟩)) := by
  have hok := h.phases i _ hi
  have hfits : ∀ r, (N r).Fits c := fun r => hm.fits (h.fits i _ hi) r
  cases hm
  -- begin
  case capture t idem now =>
    exact ⟨trivial, h.silent hi trivial rfl ⟨hok, le_rfl, idem, now, rfl⟩ (hfits _) (by rintro _ _ ⟨⟩) fun _ ht => ht⟩
  case putRow => exact ⟨trivial, h.putRow hi⟩
  case lockBegin t row =>
    have hnone := h.unregistered i _ t hi rfl
    refine ⟨?_, h.silent hi trivial rfl hok (hfits (.ok ())) ?_ (by rintro _ ⟨⟩)⟩
    · simp only [World.exec, SiLockManager.beginTxn, hnone]
      rfl
    · rintro t' snap heq
      obtain ⟨rfl, rfl⟩ := Act.lockBeginTxn.inj heq
      exact ⟨h.fits i _ hi, rfl⟩
  case walBegin t row idem =>
    obtain ⟨r, hr, -⟩ := id hok
    refine ⟨trivial, h.log_calm hi rfl rfl hr ?_ (.log rfl (.inr ⟨by simp [log, setLast], rfl⟩)) trivial rfl
      rfl trivial rfl⟩
    exact fun hst => ((h.sound.rows t r hr).active hst).2.1.begun
  -- stage
  case stageRequire => exact ⟨trivial, h.require hi rfl (fun _ hr => hr) (fun _ => ⟨rfl, rfl⟩) hfits⟩
  case stageFile | stageBlob => exact ⟨trivial, h.unheard hi trivial rfl hok (hfits ()) rfl rfl⟩
  case stageWal t key txn handle =>
    obtain ⟨r, hr, -⟩ := hok.at'
    refine ⟨trivial, h.log_calm hi rfl rfl hr ?_ (.log rfl (.inr ⟨by simp [log, setLast], rfl⟩)) hok rfl
      rfl (h.fits i _ hi) rfl⟩
    exact fun hst => ((h.sound.rows t r hr).active hst).2.1.begun
  case stageEntry => exact ⟨trivial, h.unheard hi trivial rfl hok (hfits ()) rfl rfl⟩
  case stageNote t key txn hkey =>
    have hnodup : (txn.addWriteKey key).writeKeys.Nodup :=
      hok.nodup.append (List.nodup_singleton key) (by simpa using hkey)
    exact ⟨trivial, h.writeBack hi rfl (h.fits i _ hi) hcond.1 hok rfl rfl rfl hnodup (fun _ => trivial)
      (hfits ()) rfl⟩
  case stageKnown | stageRegister => exact ⟨trivial, h.unheard hi trivial rfl trivial (hfits ()) rfl rfl⟩
  -- read and heartbeat
  case readRequire => exact ⟨trivial, h.require hi rfl (fun _ hr => hr) (fun _ => ⟨rfl, rfl⟩) hfits⟩
  case readRegister => exact ⟨trivial, h.unheard hi trivial rfl hok (hfits ()) rfl rfl⟩
  case readNote t key txn hkey =>
    exact ⟨trivial, h.writeBack hi rfl (h.fits i _ hi) hcond.1 hok rfl rfl rfl hok.nodup (fun _ => trivial)
      (hfits ()) rfl⟩
  case beatRequire => exact ⟨trivial, h.require hi rfl (fun _ hr => hr) (fun _ => ⟨rfl, rfl⟩) hfits⟩
  case beatNote t txn now =>
    exact ⟨trivial, h.writeBack hi rfl (h.fits i _ hi) hcond.1 hok rfl rfl rfl hok.nodup (fun _ => trivial)
      (hfits ()) rfl⟩
  -- commit
  case commitLook => exact ⟨trivial, h.look hi rfl (fun _ _ _ => trivial) trivial ⟨fun _ => rfl, rfl⟩ hfits ⟨fun _ => rfl, rfl⟩⟩
  case commitClaim t =>
    refine ⟨trivial, h.claim hi rfl (by decide) ?_ (fun _ => rfl) (fun _ => trivial) ⟨h.fits i _ hi, h.fits i _ hi⟩
      ⟨rfl, rfl⟩⟩
    intro r hr hst
    obtain ⟨hnil, hopen, hclear⟩ := (h.sound.rows t r hr).active hst
    exact ⟨_, setRow_row_self, rfl, hnil, hclear, hopen⟩
  case commitReplay => exact ⟨trivial, h.unheard hi trivial rfl trivial (hfits none) rfl rfl⟩
  case load t =>
    obtain ⟨row, hc⟩ := id hok
    have hrow : (w.exec (.getTxnState t)).1 = some row := hc.row_eq
    refine ⟨by simp [hrow], ?_⟩
    rw [hrow]
    exact h.unheard hi trivial rfl hc (h.fits i _ hi) rfl rfl
  case loadWrites => exact ⟨trivial, h.unheard hi trivial rfl hok (hfits []) rfl rfl⟩
  case loadBlob | loadFile | detect => exact ⟨trivial, h.unheard hi trivial rfl hok (hfits none) rfl rfl⟩
  case reload =>
    exact ⟨⟨hok.row_eq, hok.status, hok.alloc⟩, h.unheard hi trivial rfl hok (hfits none) rfl rfl⟩
  case giveUp => exact ⟨trivial, h.giveUp hi⟩
  case storeAborted => exact ⟨trivial, h.storeAborted hi⟩
  case allocate t row hkeys => exact ⟨trivial, h.allocate hi hkeys⟩
  case check => exact ⟨trivial, h.check hi⟩
  case logEmpty t row hkeys =>
    have := h.logCommitting hi rfl hok (v := row.snapshotVersion) (fun hne => absurd hkeys hne) (h.fits i _ hi)
    rw [hkeys] at this
    exact ⟨trivial, this⟩
  case log t row v passed hpassed =>
    obtain ⟨hc, hn, -, hp⟩ := id hok
    exact ⟨trivial, h.logCommitting hi rfl hc (fun _ => ⟨hn, fun k hk => hp k (hpassed k hk)⟩) (h.fits i _ hi)⟩
  case storeAlloc => exact ⟨trivial, h.storeAlloc hi⟩
  case append t row v ws => exact h.append hi ws
  case putVersions => exact ⟨trivial, h.unheard hi trivial rfl hok (hfits ()) rfl rfl⟩
  case walCommitted => exact ⟨trivial, h.walCommitted hi⟩
  case walResult => exact ⟨trivial, h.walResult hi⟩
  case storeCommitted => exact ⟨trivial, h.storeCommitted hi⟩
  case publish t snap ha =>
    refine ⟨trivial, h.unheard hi ?_ rfl hok trivial ?_ rfl⟩
    · cases ha <;> trivial
    · cases ha <;> rfl
  case finish t snap =>
    obtain ⟨row, hrow, hst, -⟩ := id hok
    exact ⟨trivial, h.unheard hi trivial rfl ⟨row, hrow, .inl hst⟩ trivial rfl rfl⟩
  case tidyReleased t ha =>
    refine ⟨trivial, h.unheard hi ?_ rfl hok trivial ?_ rfl⟩
    · cases ha <;> trivial
    · cases ha <;> rfl
  case recheck t =>
    obtain ⟨row, hrow, hst⟩ := id hok
    refine ⟨?_, h.unheard hi trivial rfl hok trivial rfl rfl⟩
    intro row' hrow' hst'
    cases hrow.symm.trans hrow'
    simp [hst', TxnStatus.Terminal] at hst
  -- abort and sweep
  case abortLook => exact ⟨trivial, h.lookAbort hi rfl trivial rfl rfl hfits⟩
  case abortClaim => exact ⟨trivial, h.claimAbort hi (fun _ => trivial) trivial rfl⟩
  case tidyAborting t snap sweep ha =>
    refine ⟨trivial, h.unheard hi ?_ rfl hok trivial ?_ rfl⟩
    · cases ha <;> trivial
    · cases ha <;> rfl
  case walAborted t snap sweep reason =>
    obtain ⟨row, hrow, hst, -⟩ := id hok
    refine ⟨trivial, h.log_calm hi rfl rfl hrow (by simp [hst]) (.log rfl (.inl ?_)) hok rfl rfl trivial rfl⟩
    intro r hr
    cases hrow.symm.trans hr
    simp [hst]
  case release t snap sweep =>
    obtain ⟨row, hrow, hst, -⟩ := id hok
    cases sweep
    · exact ⟨trivial, h.unheard hi trivial rfl ⟨row, hrow, .inr hst⟩ trivial rfl rfl⟩
    · exact ⟨trivial, h.unheard hi trivial rfl trivial trivial rfl rfl⟩
  case scan => exact ⟨trivial, h.unheard hi trivial rfl trivial trivial rfl rfl⟩
  case sweepLook => exact ⟨trivial, h.lookAbort hi rfl trivial rfl rfl hfits⟩
  case sweepClaim => exact ⟨trivial, h.claimAbort hi (fun _ => trivial) trivial rfl⟩
  case collect =>
    have hgc : gc := hcond.2 rfl
    have hL : (w.exec .gcChainsAtActiveSnapshot).2.store.ledger =
        w.store.ledger.prune w.store.minActiveSnapshot := Store.ledger_gcChains w.store
    refine ⟨trivial, h.calm hi h.wal (hL ▸ h.sound.prune hgc) (hL ▸ .prune hgc) rfl (hL ▸ fun _ hr _ => hr)
      (hL ▸ fun _ _ hr _ => .inr hr) (fun _ hn _ => hn) trivial trivial (by rintro _ ⟨⟩)⟩

/-! ## Interleavings -/

theorem spawn (hi : γ i = none) {live : List Call}
    (hlive : ∀ c', c' ∈ live ↔ ∃ j ph, γ j = some ph ∧ ph.call = c') (hadm : c.admits w live = true) :
    Inv gc w (Function.update γ i (some ⟨c, [], c.start⟩)) := by
  obtain ⟨hlock, hfresh⟩ := Call.admits_iff.1 hadm
  -- no call in flight holds the lock if this one wants it, nor has drawn its id
  have hother : ∀ {j : Nat} {ph : Phased Act Call Phase}, γ j = some ph → c.exclusive = true →
      ph.call.exclusive = false :=
    fun hj hc => hlock hc _ ((hlive _).2 ⟨_, _, hj, rfl⟩)
  have hdrawn : ∀ {j : Nat} {ph : Phased Act Call Phase} {t : String}, γ j = some ph → c.begins = some t →
      ph.call.begins ≠ some t :=
    fun hj hb => (hfresh _ hb).2.2 _ ((hlive _).2 ⟨_, _, hj, rfl⟩)
  refine ⟨h.wal, h.sound, ?_, ?_, ?_, ?_, ?_, ?_⟩
  · intro t row hrow hst
    rcases h.committing t row hrow hst with hstuck | ⟨j, ph, hj, hown⟩
    · exact .inl hstuck
    · refine .inr ⟨j, ph, ?_, hown⟩
      have hji : j ≠ i := by
        rintro rfl
        simp [hi] at hj
      simpa [hji] using hj
  · intro j ph hj
    rcases Pool.update_some_inv hj with ⟨rfl, rfl⟩ | ⟨-, hj⟩
    · cases c <;> try trivial
      case begin t idem now => exact (hfresh t rfl).1
    · exact h.phases j ph hj
  · intro j ph hj
    rcases Pool.update_some_inv hj with ⟨rfl, rfl⟩ | ⟨-, hj⟩
    · cases c <;> first | trivial | exact ⟨_, rfl⟩
    · exact h.fits j ph hj
  · intro j ph t hj hun
    rcases Pool.update_some_inv hj with ⟨rfl, rfl⟩ | ⟨-, hj⟩
    · cases c <;> try (cases hun; done)
      case begin t' idem now =>
        cases hun
        exact (hfresh _ rfl).2.1
    · exact h.unregistered j ph t hj hun
  · intro j k a b hj hk ha hb
    rcases Pool.update_some_inv hj with ⟨rfl, rfl⟩ | ⟨-, hj'⟩ <;> rcases Pool.update_some_inv hk with ⟨rfl, rfl⟩ | ⟨-, hk'⟩
    · rfl
    · simp [hother hk' ha] at hb
    · simp [hother hj' hb] at ha
    · exact h.exclusive j k a b hj' hk' ha hb
  · intro j k a b t hj hk ha hb
    rcases Pool.update_some_inv hj with ⟨rfl, rfl⟩ | ⟨-, hj'⟩ <;> rcases Pool.update_some_inv hk with ⟨rfl, rfl⟩ | ⟨-, hk'⟩
    · rfl
    · exact absurd hb (hdrawn hk' ha)
    · exact absurd ha (hdrawn hj' hb)
    · exact h.begins j k a b t hj' hk' ha hb

theorem leave {ph : Phased Act Call Phase} (hi : γ i = some ph) (hnone : ph.phase.owns = none) :
    Inv gc w (Function.update γ i none) := by
  refine ⟨h.wal, h.sound, ?_, fun j ph' hj => h.phases j ph' (Pool.update_none_inv hj).2, fun j ph' hj => h.fits j ph' (Pool.update_none_inv hj).2,
    fun j ph' t hj => h.unregistered j ph' t (Pool.update_none_inv hj).2,
    fun j k a b hj hk => h.exclusive j k a b (Pool.update_none_inv hj).2 (Pool.update_none_inv hk).2,
    fun j k a b t hj hk => h.begins j k a b t (Pool.update_none_inv hj).2 (Pool.update_none_inv hk).2⟩
  intro t row hrow hst
  rcases h.committing t row hrow hst with hstuck | ⟨j, ph', hj, hown⟩
  · exact .inl hstuck
  · refine .inr ⟨j, ph', ?_, hown⟩
    have hji : j ≠ i := by
      rintro rfl
      cases hi.symm.trans hj
      rw [hnone] at hown
      cases hown
    simpa [hji] using hj

theorem finish {ph : Phased Act Call Phase} (hi : γ i = some ph) (hq : ph.phase.Quiet) :
    Inv gc w (Function.update γ i none) :=
  h.leave hi hq.owns

end

end Xtable.Inv

namespace Xtable

theorem inv_invariant (gc : Prop) (env : Env) :
    Pool.Invariant (coordinator env) Move Call.start (fun _ _ g => g.Quiet) (Steady gc) (Inv gc) where
  obeys := Call.body_obeys env
  spawn _ _ _ _ _ h hi hlive hadm := h.spawn hi hlive hadm
  act _ _ _ _ _ _ _ _ _ h hi hm hcond := h.act hi hm hcond
  finish _ _ _ _ _ h hi hq := h.finish hi hq

end Xtable
