import Xtable.Theorems.Pins
import Xtable.Theorems.Collection

/-! A transaction reads the same at its snapshot until it is terminal, in exactly those interleavings in which no
    commit appends at a version that an open snapshot already covers: a commit draws its version before it appends,
    and `begin` may capture the counter in between. -/

namespace Xtable

open Pool (Phases Phased)

/-! ## The registry bounds the collection -/

theorem foldl_min_le {α : Type} (f : α → WithTop Nat) (l : List α) (a : WithTop Nat) :
    l.foldl (fun m x => min m (f x)) a ≤ a ∧ ∀ x ∈ l, l.foldl (fun m x => min m (f x)) a ≤ f x := by
  induction l generalizing a with
  | nil => simp
  | cons y l ih =>
    obtain ⟨hacc, hmem⟩ := ih (min a (f y))
    refine ⟨hacc.trans (min_le_left _ _), fun x hx => ?_⟩
    rcases List.mem_cons.1 hx with rfl | hx
    · exact hacc.trans (min_le_right _ _)
    · exact hmem x hx

theorem Store.minActiveSnapshot_le {s : Store} {snap : Nat} (h : s.pins snap ≠ 0) :
    s.minActiveSnapshot ≤ (snap : WithTop Nat) := by
  cases hrow : s.activeSnapshots[snap]? with
  | none => simp [pins, hrow] at h
  | some n => exact (foldl_min_le (fun x => (x.1 : WithTop Nat)) _ ⊤).2 (snap, n) (Table.mem_toList.2 hrow)

theorem Pinned.pins_ne_zero {readers : List Nat} {w : World} {γ : Phases Act Call Phase} (h : Pinned readers w γ)
    {t : String} {snap : Nat} (hopen : w.store.ledger.OpenAt t snap) : w.store.pins snap ≠ 0 := by
  obtain ⟨H, hH, hcount⟩ := h.counts.count
  have hpos : 0 < (H snap).card := Finset.card_pos.2 ⟨t, (hH t snap).2 (.inl hopen)⟩
  rw [Store.pins, hcount]
  omega

/-! ## What an action does to a read -/

/-- What a transaction reads of a key at a snapshot. -/
def Ledger.read (L : Ledger) (k : String) (snap : Nat) : Option VersionEntry :=
  (L.chain k).reverse.find? fun e => e.commitVersion ≤ snap

theorem Store.readAtSnapshot_eq (s : Store) (k : String) (snap : Nat) :
    s.readAtSnapshot k snap = s.ledger.read k snap := rfl

/-- Actions that leave the chains alone. -/
def Act.KeepsChains : Act → Prop
  | appendChainEntriesBulk _ | gcChainsAtActiveSnapshot => False
  | _ => True

theorem Act.KeepsChains.chain_eq {a : Act} (h : a.KeepsChains) (w : World) :
    (w.exec a).2.store.ledger.chain = w.store.ledger.chain := by
  cases a <;> try first | exact h.elim | rfl
  case unregisterSnapshot snap =>
    simp only [World.exec, World.setStore, Store.unregisterSnapshot]
    split <;> rfl
  case compareAndSetTxnStatus t old new =>
    rcases w.exec_compareAndSet t _ _ with ⟨r, -, -, heq⟩ | ⟨-, heq⟩ <;> rw [heq]
    rfl

theorem Ledger.read_congr {L L' : Ledger} (h : L'.chain = L.chain) (k : String) (snap : Nat) :
    L'.read k snap = L.read k snap := by
  rw [Ledger.read, h]
  rfl

theorem Ledger.read_prune {L : Ledger} {m : WithTop Nat} {snap : Nat} (h : m ≤ snap) (k : String) :
    (L.prune m).read k snap = L.read k snap :=
  VersionChain.readAtSnapshot_pruneBelow (c := ⟨k, L.chain k⟩) (.inl h)

theorem Ledger.Appends.read_iff {L : Ledger} {t : String} {row : TxnStateRecord} {v : Nat} (ha : L.Appends t row v)
    (hasc : ∀ k, (L.chain k).Pairwise fun a b => a.commitVersion < b.commitVersion)
    (ws : WriteSet) (snap : Nat) :
    (∀ k, (L.append (batch t ws row)).read k snap = L.read k snap) ↔
      ∀ x ∈ batch t ws row, snap < x.2.1.commitVersion := by
  have hchain : ∀ k, (L.append (batch t ws row)).read k snap =
      if k ∈ row.writeKeys ∧ v ≤ snap then some (Coordinator.chainEntry t ws k v) else L.read k snap := by
    intro k
    rw [read, append_batch_chain ha.alloc ha.nodup]
    by_cases hk : k ∈ row.writeKeys
    · by_cases hv : v ≤ snap <;> simp [hk, hv, read]
    · simp [hk, read]
  constructor
  · intro hread x hx
    obtain ⟨y, hy, rfl⟩ := List.mem_map.1 hx
    obtain ⟨hk, rfl⟩ := ha.alloc.mem hy
    rw [Coordinator.chainEntry_commitVersion]
    by_contra hle
    -- the new entry is read, and it was not there before
    have hnew := hread y.1
    rw [hchain, if_pos ⟨hk, not_lt.1 hle⟩] at hnew
    have hmem : Coordinator.chainEntry t ws y.1 y.2 ∈ L.chain y.1 :=
      List.mem_reverse.1 (List.mem_of_find?_eq_some hnew.symm)
    have hlatest := le_latest (hasc y.1) hmem
    rw [Coordinator.chainEntry_commitVersion] at hlatest
    exact absurd (ha.latest_lt hk) (not_lt.2 hlatest)
  · intro hnewer k
    rw [hchain, if_neg]
    rintro ⟨hk, hv⟩
    have := hnewer (k, Coordinator.chainEntry t ws k v, row.snapshotVersion)
      (List.mem_map.2 ⟨(k, v), ha.mem_alloc hk, rfl⟩)
    rw [Coordinator.chainEntry_commitVersion] at this
    omega

/-! ## Interleavings -/

namespace CallPool

/-- `t` has begun and is not terminal: its row is `Active` or `Committing`, and its `begin` has returned. -/
def Open (p : CallPool) (t : String) (row : TxnStateRecord) : Prop :=
  p.state.store.getTxnState t = some row ∧ ¬ row.status.Terminal ∧ ∀ c ∈ p.live, c.begins ≠ some t

/-- The snapshot of a transaction that has begun and is not terminal. -/
def openSnapshot (p : CallPool) (t : String) : Option Nat :=
  (p.state.store.getTxnState t).bind fun row =>
    if row.status.Terminal ∨ p.live.any (·.begins = some t) then none else some row.snapshotVersion

theorem openSnapshot_eq_some {p : CallPool} {t : String} {snap : Nat} :
    p.openSnapshot t = some snap ↔ ∃ row, p.Open t row ∧ row.snapshotVersion = snap := by
  simp only [openSnapshot, Option.bind_eq_some_iff, Open]
  refine exists_congr fun row => ?_
  rw [and_assoc, and_congr_right_iff]
  intro _
  split
  case isTrue hend =>
    simp only [reduceCtorEq, false_iff]
    rintro ⟨⟨hterm, hlive⟩, -⟩
    rcases hend with hend | hend
    · exact hterm hend
    · obtain ⟨c, hc, hbegins⟩ := List.any_eq_true.1 hend
      exact hlive c hc (of_decide_eq_true hbegins)
  case isFalse hopen =>
    simp only [not_or, Bool.not_eq_true, List.any_eq_false, decide_eq_true_eq] at hopen
    simp only [Option.some.injEq]
    exact ⟨fun hsnap => ⟨hopen, hsnap⟩, And.right⟩

/-- The event's next action, if it appends to the chains, does so at versions that no open snapshot covers. -/
def AppendsUnseen (p : CallPool) : Pool.Event Call → Prop
  | .act i => ∀ c entries, p.pendingAct i = some (c, .appendChainEntriesBulk entries) →
      ∀ t row, p.Open t row → ∀ x ∈ entries, row.snapshotVersion < x.2.1.commitVersion
  | _ => True

/-- The life-cycle invariant, with the account of the pins. -/
def Pinning (p : CallPool) : Prop :=
  ∃ γ, Pool.Follows Move (fun _ _ g => g.Quiet) p γ ∧ Inv True p.state γ ∧ Pinned [] p.state γ

theorem pinning_idle : Pinning (Pool.idle {}) :=
  ⟨fun _ => none, fun i => .inl ⟨by simp [Pool.idle], rfl⟩, World.inv_empty True, Pinned.idle⟩

end CallPool

theorem pinned_invariant (gc : Prop) (env : Env) (readers : List Nat) :
    Pool.Invariant (coordinator env) Move Call.start (fun _ _ g => g.Quiet) (Steady gc)
      (fun w γ => Inv gc w γ ∧ Pinned readers w γ) where
  obeys := Call.body_obeys env
  spawn _ _ _ _ _ h hi hlive hadm := ⟨h.1.spawn hi hlive hadm, h.2.spawn hi⟩
  act _ _ _ _ _ _ _ _ _ h hi hm hcond := by
    obtain ⟨hA, hinv⟩ := h.1.act hi hm hcond
    exact ⟨hA, hinv, h.2.act h.1 hi hm hcond⟩
  finish _ _ _ _ _ h hi hq := ⟨h.1.finish hi hq, h.2.finish hi hq⟩

namespace CallPool.Pinning

open Ledger

variable {env : Env} {u v : CallPool} {ev : Pool.Event Call} {t : String}

section

variable (h : u.Pinning) (hback : u.WriteBacksActive ev) (hstep : CallPool.Step env ev u = some v)

include h hback hstep

theorem step : v.Pinning := by
  obtain ⟨γ, hf, hinv⟩ := h
  refine (pinned_invariant True env []).step hstep hf hinv ?_
  intro i c e hev hpend
  subst hev
  exact ⟨hback c e hpend, fun _ => trivial⟩

theorem rely : Rely u.state.store.ledger v.state.store.ledger := by
  obtain ⟨γ, hf, hinv, -⟩ := h
  cases ev with
  | spawn i c =>
    obtain ⟨-, -, rfl⟩ := Pool.step_spawn_inv hstep
    exact .refl _
  | finish i =>
    obtain ⟨th, -, -, rfl⟩ := Pool.step_finish_inv hstep
    exact .refl _
  | act i =>
    obtain ⟨c, d, e, k, hth, rfl⟩ := Pool.step_act_inv hstep
    obtain ⟨g, hγ, A, N, hm, -⟩ := hf.thread hth
    exact hinv.rely hγ hm ⟨hback c e (by simp [Pool.pendingAct, hth]), fun _ => trivial⟩

theorem begun_step
    {row : TxnStateRecord} (hrow : u.state.store.getTxnState t = some row) (hlive : ∀ c ∈ u.live, c.begins ≠ some t) :
    (∃ row', v.state.store.getTxnState t = some row' ∧ row'.snapshotVersion = row.snapshotVersion ∧
      (row.status.Terminal → row' = row)) ∧ ∀ c ∈ v.live, c.begins ≠ some t := by
  refine ⟨(h.rely hback hstep).row t row hrow, fun c hc hbegins => ?_⟩
  rcases Pool.mem_live_step hstep hc with hc | ⟨i, rfl⟩
  · exact hlive c hc hbegins
  · obtain ⟨-, hadm, -⟩ := Pool.step_spawn_inv hstep
    have hnone := ((Call.admits_iff.1 hadm).2 t hbegins).1
    rw [Store.getTxnState, hnone] at hrow
    cases hrow

theorem open_of_step {row row' : TxnStateRecord} (hrow : u.state.store.getTxnState t = some row)
    (hlive : ∀ c ∈ u.live, c.begins ≠ some t) (hopen : v.Open t row') :
    u.Open t row ∧ row'.snapshotVersion = row.snapshotVersion := by
  obtain ⟨⟨row'', hrow'', hsnap, hterm⟩, -⟩ := h.begun_step hback hstep hrow hlive
  cases hrow''.symm.trans hopen.1
  refine ⟨⟨hrow, fun ht => hopen.2.1 ?_, hlive⟩, hsnap⟩
  rw [hterm ht]
  exact ht

theorem open_of_rows
    (hrows : v.state.store.ledger.row = u.state.store.ledger.row) {row : TxnStateRecord} (hu : u.Open t row) :
    v.Open t row := by
  obtain ⟨-, hlive⟩ := h.begun_step hback hstep hu.1 hu.2.2
  exact ⟨(congrFun hrows t).trans hu.1, hu.2.1, hlive⟩

theorem reads_iff : (∀ t row row', u.Open t row → v.Open t row' → ∀ k,
      v.state.store.readAtSnapshot k row'.snapshotVersion = u.state.store.readAtSnapshot k row.snapshotVersion) ↔
      u.AppendsUnseen ev := by
  have hsnap : ∀ {t row row'}, u.Open t row → v.Open t row' → row'.snapshotVersion = row.snapshotVersion :=
    fun hu hv => (h.open_of_step hback hstep hu.1 hu.2.2 hv).2
  simp only [Store.readAtSnapshot_eq]
  obtain ⟨γ, hf, hinv, hpin⟩ := id h
  cases ev with
  | spawn i c =>
    obtain ⟨-, -, rfl⟩ := Pool.step_spawn_inv hstep
    exact iff_of_true (fun t row row' hu hv k => by rw [hsnap hu hv]) trivial
  | finish i =>
    obtain ⟨th, -, -, rfl⟩ := Pool.step_finish_inv hstep
    exact iff_of_true (fun t row row' hu hv k => by rw [hsnap hu hv]) trivial
  | act i =>
    obtain ⟨c, d, e, k, hth, rfl⟩ := Pool.step_act_inv hstep
    obtain ⟨g, hγ, A, N, hm, -⟩ := hf.thread hth
    have hpend : u.pendingAct i = some (c, e) := by simp [Pool.pendingAct, hth]
    have hkeeps : e.KeepsChains → ((∀ t row row', u.Open t row →
        CallPool.Open ⟨(u.state.exec e).2, u.threads.insert i ⟨c, e :: d, k (u.state.exec e).1⟩⟩ t row' → ∀ key,
          (u.state.exec e).2.store.ledger.read key row'.snapshotVersion =
            u.state.store.ledger.read key row.snapshotVersion) ↔ u.AppendsUnseen (.act i)) := by
      intro hk
      refine iff_of_true (fun t row row' hu hv key => ?_) fun c' entries hpend' => ?_
      · rw [hsnap hu hv, read_congr (hk.chain_eq u.state)]
      · rw [hpend] at hpend'
        cases hpend'
        exact hk.elim
    cases hm <;> try exact hkeeps trivial
    case publish ha | tidyReleased ha | tidyAborting ha => exact hkeeps (by cases ha <;> trivial)
    case collect =>
      refine iff_of_true (fun t row row' hu hv key => ?_) fun c' entries hpend' => ?_
      · have hmin := Store.minActiveSnapshot_le (hpin.pins_ne_zero ⟨row, hu.1, hu.2.1, rfl⟩)
        have hL : (u.state.exec .gcChainsAtActiveSnapshot).2.store.ledger =
            u.state.store.ledger.prune u.state.store.minActiveSnapshot := Store.ledger_gcChains u.state.store
        have hread := read_prune (L := u.state.store.ledger) hmin key
        rw [← hL] at hread
        rw [hsnap hu hv]
        exact hread
      · rw [hpend] at hpend'
        cases hpend'
    case append t₀ row₀ v₀ ws =>
      have happ := hinv.appends hγ
      obtain ⟨-, hL⟩ := hinv.exec_append hγ ws
      have hrows := Act.KeepsRows.row_eq (a := .appendChainEntriesBulk (batch t₀ ws row₀)) trivial u.state
      constructor
      · intro hread c' entries hpend' t row hu
        rw [hpend] at hpend'
        cases hpend'
        refine (happ.read_iff hinv.sound.ascending ws row.snapshotVersion).1 fun key => ?_
        rw [← hL]
        exact hread t row row hu (h.open_of_rows hback hstep hrows hu) key
      · intro hunseen t row row' hu hv key
        rw [hsnap hu hv]
        have hread := (happ.read_iff hinv.sound.ascending ws row.snapshotVersion).2
          (hunseen c _ hpend t row hu) key
        rw [← hL] at hread
        exact hread

end

theorem reads_of_run {hist : List (CallPool × Pool.Event Call × CallPool)} (hrun : Run (CallPool.Step env) u hist v)
    (hall : ∀ x ∈ hist, x.1.Pinning ∧ x.1.WriteBacksActive x.2.1 ∧ x.1.AppendsUnseen x.2.1)
    {row row' : TxnStateRecord} (hu : u.Open t row) (hv : v.Open t row') (k : String) :
    v.state.store.readAtSnapshot k row'.snapshotVersion = u.state.store.readAtSnapshot k row.snapshotVersion := by
  -- the induction carries that `t` has begun, so that being open can be followed back from the end
  suffices hboth : ((∃ r, v.state.store.getTxnState t = some r) ∧ ∀ c ∈ v.live, c.begins ≠ some t) ∧
      ∀ row', v.Open t row' → v.state.store.readAtSnapshot k row'.snapshotVersion =
        u.state.store.readAtSnapshot k row.snapshotVersion from hboth.2 row' hv
  clear hv
  induction hrun with
  | nil =>
    refine ⟨⟨⟨row, hu.1⟩, hu.2.2⟩, fun row' hv => ?_⟩
    rw [Option.some.inj (hu.1.symm.trans hv.1)]
  | @snoc hist v₀ v ev _ hstep ih =>
    obtain ⟨⟨⟨r, hr⟩, hlive⟩, hread⟩ := ih fun x hx => hall x (by simp [hx])
    obtain ⟨hpin, hback, hunseen⟩ := hall (v₀, ev, v) (by simp)
    obtain ⟨⟨r', hr', -⟩, hlive'⟩ := hpin.begun_step hback hstep hr hlive
    refine ⟨⟨⟨r', hr'⟩, hlive'⟩, fun row' hv => ?_⟩
    obtain ⟨hopen, -⟩ := hpin.open_of_step hback hstep hr hlive hv
    rw [← hread r hopen]
    exact (hpin.reads_iff hback hstep).2 hunseen t r row' hopen hv k

end CallPool.Pinning

/-- If write-backs find their rows `Active`: every transaction reads the same at its snapshot at any two moments at
which it has begun and is not terminal, exactly when no append is made at a version that the snapshot of an open
transaction covers. -/
theorem snapshotReads_stable_iff (env : Env) {hist : List (CallPool × Pool.Event Call × CallPool)} {p : CallPool}
    (hrun : Run (CallPool.Step env) (Pool.idle {}) hist p) (hback : ∀ x ∈ hist, x.1.WriteBacksActive x.2.1) :
    (∀ u v, Passes (CallPool.Step env) (Pool.idle {}) hist u v → ∀ t row row', u.Open t row → v.Open t row' → ∀ k,
      v.state.store.readAtSnapshot k row'.snapshotVersion = u.state.store.readAtSnapshot k row.snapshotVersion) ↔
      ∀ x ∈ hist, x.1.AppendsUnseen x.2.1 := by
  obtain ⟨-, hpin⟩ := hrun.invariant (I := CallPool.Pinning) (C := fun u ev => u.WriteBacksActive ev)
    CallPool.pinning_idle (fun u ev v hu hcond hstep => hu.step hcond hstep) hback
  constructor
  · intro hread x hx
    obtain ⟨before, after, heq, hbefore, -⟩ := hrun.split_of_mem hx
    have hstep := hrun.step_of_mem x hx
    refine ((hpin x hx).1.reads_iff (hback x hx) hstep).1 (hread x.1 x.2.2 ⟨before, [x], after, ?_, hbefore, ?_⟩)
    · simp [heq]
    · exact .snoc .nil hstep
  · rintro hunseen u v ⟨before, between, after, rfl, -, hbetween⟩ t row row' hu hv k
    refine CallPool.Pinning.reads_of_run hbetween (fun x hx => ?_) hu hv k
    have hmem : x ∈ before ++ between ++ after := by simp [hx]
    exact ⟨(hpin x hmem).1, hback x hmem, hunseen x hmem⟩

/-- A transaction reads on while another one commits over what it reads and the chains are collected. -/
theorem snapshotReads_over_commit : ∃ hist p, Run (CallPool.Step .sample) (Pool.idle {}) hist p ∧
    p.openSnapshot "T" = some 1 ∧ (p.state.store.readChain "k").entries.length = 2 ∧
    ((∀ u v, Passes (CallPool.Step .sample) (Pool.idle {}) hist u v → ∀ t row row', u.Open t row → v.Open t row' →
      ∀ k, v.state.store.readAtSnapshot k row'.snapshotVersion = u.state.store.readAtSnapshot k row.snapshotVersion) ↔
      ∀ x ∈ hist, x.1.AppendsUnseen x.2.1) := by
  obtain ⟨p, hguarded, htest⟩ := Run.exists_of_exec
    (guarded (fun (u : CallPool) ev => decide (u.WriteBacksActive ev)) (CallPool.Step .sample)) (Pool.idle {})
    ((Call.begin "V" none 0).alone 0 4 ++ (Call.stage "V" "k" [1] none [] false).alone 1 5 ++
      (Call.commit "V" fun _ => false).alone 2 19 ++ (Call.begin "T" none 0).alone 0 4 ++
      (Call.begin "W" none 0).alone 0 4 ++ (Call.stage "W" "k" [2] none [] false).alone 1 5 ++
      (Call.commit "W" fun _ => false).alone 2 19 ++ (Call.sweep 0 5).alone 3 2)
    (fun p => p.openSnapshot "T" = some 1 && (p.state.store.readChain "k").entries.length = 2) (by decide +kernel)
  obtain ⟨hrun, hback⟩ := hguarded.of_guarded
  simp only [Bool.and_eq_true, decide_eq_true_eq] at htest
  exact ⟨_, p, hrun, htest.1, htest.2,
    snapshotReads_stable_iff .sample hrun fun x hx => of_decide_eq_true (hback x hx)⟩

/-- A `begin` captures the version that a commit has drawn and not yet appended: what the transaction
reads changes under it. -/
theorem snapshotRead_changes : ∃ hist u v row, Run (CallPool.Step .sample) (Pool.idle {})
      (hist ++ [(u, .act 2, v)]) v ∧ u.Open "T" row ∧ (∃ row', v.Open "T" row' ∧
        row'.snapshotVersion = row.snapshotVersion) ∧
    u.state.store.readAtSnapshot "k" row.snapshotVersion = none ∧
    v.state.store.readAtSnapshot "k" row.snapshotVersion ≠ none := by
  obtain ⟨u, v, hrun, htest⟩ := Run.exists_step_of_exec (CallPool.Step .sample) (Pool.idle {})
    ((Call.begin "W" none 0).alone 0 4 ++ (Call.stage "W" "k" [1] none [] false).alone 1 5 ++
      (Call.commit "W" fun _ => false).first 2 9 ++ (Call.begin "T" none 0).alone 0 4) (.act 2)
    (fun u v => u.openSnapshot "T" = some 1 && (v.openSnapshot "T" = some 1 &&
      (u.state.store.readAtSnapshot "k" 1 = none && v.state.store.readAtSnapshot "k" 1 ≠ none))) (by decide +kernel)
  simp only [Bool.and_eq_true, decide_eq_true_eq] at htest
  obtain ⟨hu, hv, hbefore, hafter⟩ := htest
  obtain ⟨row, hopen, hsnap⟩ := CallPool.openSnapshot_eq_some.1 hu
  obtain ⟨row', hopen', hsnap'⟩ := CallPool.openSnapshot_eq_some.1 hv
  exact ⟨_, u, v, row, hrun, hopen, ⟨row', hopen', hsnap'.trans hsnap.symm⟩, by rw [hsnap]; exact hbefore,
    by rw [hsnap]; exact hafter⟩

end Xtable
