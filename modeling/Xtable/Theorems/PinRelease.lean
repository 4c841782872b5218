import Xtable.Theorems.Pins
import Xtable.Theorems.Resolution

/-! Recovery releases the pin of a transaction that it aborts, and no other. A pin outlives the restart where the
    crash leaves it to something that is gone: a reader, a `begin` that the log does not know, or a call that has
    decided its transaction and not released the pin. -/

namespace Xtable

open Pool (Phases Phased)

/-! ## Where a cut call leaves a pin behind -/

/-- What an action says of the pin of its call's transaction: from here on a restart does not release it, or nothing
is owed. -/
def Act.pinMark : Act → Option Bool
  | captureAndRegisterSnapshot => some true
  | appendWal (.begin _ _ _) => some false
  | appendChainEntriesBulk entries => if entries = [] then none else some true
  | appendWal (.committed _ _) | appendWal (.commitResult _ _ _) | appendWal (.aborted _ _) => some true
  | compareAndSetTxnStatus _ _ .aborted => some true
  | unregisterSnapshot _ => some false
  -- a sweep that has lost a transaction to another call goes on to the next
  | getTxnState _ | gcChainsAtActiveSnapshot => some false
  | _ => none

/-- By its last mark, a call that has performed these actions leaves a pin behind if it is cut. -/
def LeavesPin (done : List Act) : Prop := done.findSome? Act.pinMark = some true

instance (done : List Act) : Decidable (LeavesPin done) :=
  inferInstanceAs (Decidable (_ = _))

/-- The phases in which a restart would not release the pin of the call's transaction. -/
def Phase.Unreleased : Phase → Prop
  | captured _ _ | begun _ _ | registered _ _ | doomed _ _ | walled _ _ _ | finishing _ _ | aborting _ _ _ => True
  | appended _ row _ => row.allocVersions ≠ []
  | _ => False

theorem Phase.Torn.unreleased {g : Phase} (h : g.Torn) : g.Unreleased := by
  cases g <;> first | exact h.elim | trivial

theorem LeavesPin.mark {a : Act} {d : List Act} (h : a.pinMark = some true) : LeavesPin (a :: d) := by
  simp [LeavesPin, h]

theorem LeavesPin.pass {a : Act} {d : List Act} (hd : LeavesPin d) (h : a.pinMark = none) : LeavesPin (a :: d) := by
  rw [LeavesPin, List.findSome?_cons, h]
  exact hd

theorem Move.leavesPin {g : Phase} {e : Act} {A : e.Res → Prop} {N : e.Res → Phase} (hm : Move g e A N) {r : e.Res}
    {d : List Act} (h : g.Unreleased → LeavesPin d) (hN : (N r).Unreleased) : LeavesPin (e :: d) := by
  have hactive : ∀ {k : TxnStateRecord → Phase} {other : Phase} {r : Option TxnStateRecord},
      (∀ row, ¬ (k row).Unreleased) → ¬ other.Unreleased → ¬ (Phase.onActive k other r).Unreleased := by
    intro k other r hk ho
    cases r with
    | none => exact ho
    | some row =>
      simp only [Phase.onActive]
      split
      · exact hk row
      · exact ho
  cases hm <;> try first | exact hN.elim | exact .mark rfl | exact (h trivial).pass rfl | exact (h hN).pass rfl
  case stageRequire | readRequire | beatRequire | commitLook | abortLook | sweepLook =>
    exact absurd hN (hactive (fun _ => id) id)
  case commitClaim | check =>
    simp only at hN
    split at hN <;> exact hN.elim
  case load => cases r <;> exact hN.elim
  case append t row v ws =>
    have hne : row.allocVersions ≠ [] := hN
    exact .mark (by simp [Act.pinMark, hne])
  case publish ha | tidyAborting ha => exact (h trivial).pass (by cases ha <;> rfl)
  case release t snap sweep => cases sweep <;> exact hN.elim

/-- What holds of the calls in flight: a pin that a restart would not release is marked. -/
def Leaving (γ : Phases Act Call Phase) : Prop :=
  ∀ i ph, γ i = some ph → ph.phase.Unreleased → LeavesPin ph.done

section Calls

variable {γ : Phases Act Call Phase} {i : Nat} {c : Call} {d : List Act} {g : Phase}

theorem Leaving.update (h : Leaving γ) {x : Option (Phased Act Call Phase)}
    (hx : ∀ ph, x = some ph → ph.phase.Unreleased → LeavesPin ph.done) : Leaving (Function.update γ i x) := by
  intro j ph hj
  by_cases hji : j = i
  · subst hji
    exact hx ph (by simpa using hj)
  · exact h j ph (by simpa [hji] using hj)

theorem Leaving.spawn (h : Leaving γ) : Leaving (Function.update γ i (some ⟨c, [], c.start⟩)) := by
  refine h.update fun ph hph hun => ?_
  cases hph
  cases c <;> exact hun.elim

theorem Leaving.act {e : Act} {A : e.Res → Prop} {N : e.Res → Phase} (h : Leaving γ) (hi : γ i = some ⟨c, d, g⟩)
    (hm : Move g e A N) (r : e.Res) : Leaving (Function.update γ i (some ⟨c, e :: d, N r⟩)) := by
  refine h.update fun ph hph hun => ?_
  cases hph
  exact hm.leavesPin (h i _ hi) hun

theorem Leaving.finish (h : Leaving γ) : Leaving (Function.update γ i none) :=
  h.update fun ph hph => absurd hph (by simp)

theorem Leaving.idle : Leaving fun _ => none := fun _ _ hph => absurd hph (by simp)

end Calls

/-! ## What recovery releases -/

namespace Recovery

variable {L L₀ : Ledger} {P : Table Nat Nat} {t : String} {readers : List Nat}

/-- The registry counts the open transactions. -/
abbrev Counted (x : Ledger × Table Nat Nat) : Prop := Store.Counts x.2 x.1.OpenAt []

theorem Counted.abortRow {row : TxnStateRecord} (nowMs : Int) (h : Counted (L, P)) (hrow : L.row t = some row)
    (hopen : ¬ row.status.Terminal) :
    Counted (L.abortRow nowMs t row, Store.unpin P (some row.snapshotVersion)) := by
  have hopenAt : L.OpenAt t row.snapshotVersion := ⟨row, hrow, hopen, rfl⟩
  refine Store.Counts.release (s := { activeSnapshots := P }) h hopenAt fun t' n => ?_
  have hterm : ({ row with status := .aborted, lastHeartbeatMs := nowMs } : TxnStateRecord).status.Terminal := .inr rfl
  change ((L.log (.aborted t "crash recovery")).setRow t _).OpenAt t' n ↔ _
  rw [Ledger.openAt_setRow_terminal hterm]
  simp only [ne_eq, Prod.mk.injEq]
  refine and_congr_right fun hopen' => not_congr ⟨?_, And.left⟩
  rintro rfl
  exact ⟨rfl, Ledger.openAt_unique hopen' hopenAt⟩

theorem Counted.settle (nowMs : Int) (last : Option TxnStatus) {uploaded : List String} (h : Counted (L, P))
    (hun : ∀ row, L.row t = some row → ¬ row.status.Terminal → L.published row uploaded = false) :
    Counted (settle nowMs t last uploaded (L, P)) := by
  unfold Recovery.settle Ledger.resolve Ledger.aborts
  cases hrow : L.row t with
  | none => exact h
  | some row =>
    by_cases hterm : row.status.Terminal
    · simp only [if_pos hterm]
      exact h
    have habort := h.abortRow nowMs hrow hterm
    have hpub := hun row hrow hterm
    match last with
    | none | some .committed | some .aborted =>
      simp only [if_neg hterm]
      exact h
    | some .active => simpa only [if_neg hterm] using habort
    | some .committing => simpa [hterm, hpub] using habort

theorem Counted.settle_all (nowMs : Int) {ts : List String} (hnodup : ts.Nodup) {x : Ledger × Table Nat Nat}
    (h : Counted x) (last : String → Option TxnStatus) (uploaded : String → List String)
    (hun : ∀ t ∈ ts, ∀ row, x.1.row t = some row → ¬ row.status.Terminal →
      x.1.published row (uploaded t) = false) :
    Counted (ts.foldl (fun x t => Recovery.settle nowMs t (last t) (uploaded t) x) x) := by
  induction ts generalizing x with
  | nil => exact h
  | cons t rest ih =>
    rw [List.nodup_cons] at hnodup
    refine ih hnodup.2 (Counted.settle nowMs _ h (hun t (by simp))) fun t' ht' row hrow hopen => ?_
    have hne : t' ≠ t := fun heq => hnodup.1 (heq ▸ ht')
    simp only [Recovery.settle, (Ledger.resolve_ne hne _ _).1] at hrow ⊢
    rw [Ledger.published_resolve]
    exact hun t' (by simp [ht']) row hrow hopen

end Recovery

/-! ## Restarts -/

section Crash

variable {gc : Prop} {w w' : World} {γ : Phases Act Call Phase} {nowMs : Int} {order : List String}

theorem Tracked.unpublished (h : Tracked w γ) (hinv : Inv gc w γ)
    (hclean : ∀ i ph, γ i = some ph → ¬ ph.phase.Unreleased) {t : String} {row : TxnStateRecord}
    (hrow : w.store.ledger.row t = some row) (hopen : ¬ row.status.Terminal) (uploaded : List String) :
    w.store.ledger.published row uploaded = false := by
  have hsame : ∀ {r}, w.store.ledger.row t = some r → r = row := fun hr => Option.some.inj (hr.symm.trans hrow)
  cases hstatus : row.status with
  | committed => exact absurd (.inl hstatus) hopen
  | aborted => exact absurd (.inr hstatus) hopen
  | active => exact Ledger.published_nil ((hinv.sound.rows t row hrow).active hstatus).1 _
  | committing =>
    obtain ⟨i, ph, hi, hown⟩ := h.owned t row hrow hstatus
    have hok := hinv.phases i ph hi
    have hreleased := hclean i ph hi
    cases hg : ph.phase <;> rw [hg] at hown hok hreleased <;> try (cases hown; done)
    all_goals injection hown with hown; subst hown
    case owned =>
      obtain ⟨r, hc⟩ := hok
      exact Ledger.published_nil (hsame hc.row_eq ▸ hc.alloc) _
    case loaded => exact Ledger.published_nil (hsame hok.row_eq ▸ hok.alloc) _
    case allocated => exact Ledger.published_nil (hsame hok.1.row_eq ▸ hok.1.alloc) _
    case doomed | walled => exact absurd trivial hreleased
    case logged => exact Ledger.published_nil (hsame hok.1.row_eq ▸ hok.2.1) _
    case ready =>
      obtain ⟨hl, ha, -, hcur⟩ := hok
      obtain rfl := hsame hl.row_eq
      exact Ledger.published_behind ha hcur _
    case appended =>
      obtain rfl := hsame hok.1.row_eq
      exact Ledger.published_nil (not_not.1 hreleased) _

theorem Pinned.restart (h : Pinned [] w γ) (htr : Tracked w γ) (hinv : Inv gc w γ)
    (hclean : ∀ i ph, γ i = some ph → ¬ ph.phase.Unreleased) (hr : w.restart nowMs order = some w') :
    (∀ snap : Nat, w'.store.activeSnapshots[snap]? = none) ∧ Pinned [] w' fun _ => none := by
  have htorn : ∀ i ph, γ i = some ph → ¬ ph.phase.Torn := fun i ph hi ht => hclean i ph hi ht.unreleased
  obtain ⟨hterm, -⟩ := htr.restart hinv htorn hr
  obtain ⟨hnodup, -, -, hsettled, -⟩ := World.restart_settles hinv.wal hr
  -- without calls that hold a pin, the holders are the open transactions
  have hopen : ∀ t snap, w.store.ledger.OpenAt t snap ↔ Holder w.store.ledger γ t snap := by
    refine fun t snap => ⟨.inl, fun hholder => hholder.resolve_right ?_⟩
    rintro ⟨i, ph, hi, hholds⟩
    refine hclean i ph hi ?_
    cases hg : ph.phase <;> rw [hg] at hholds <;> first | (cases hholds; done) | trivial
  have hcounted := Recovery.Counted.settle_all nowMs hnodup (x := (w.store.ledger, w.store.activeSnapshots))
    (h.counts.congr hopen) w.store.ledger.last (fun t => (w.store.ledger.uploaded t).getD [])
    fun t _ row hrow hst => htr.unpublished hinv hclean hrow hst _
  rw [← hsettled] at hcounted
  have hnone : ∀ t snap, ¬ w'.store.ledger.OpenAt t snap := by
    rintro t snap ⟨row, hrow, hst, -⟩
    exact hst (hterm t row hrow)
  refine ⟨fun snap => hcounted.none_of_zero ?_, hcounted.congr fun t snap => ?_, by simp⟩
  · obtain ⟨H, hH, hcount⟩ := hcounted.count
    have hempty : H snap = ∅ := Finset.eq_empty_of_forall_notMem fun t ht => hnone t snap ((hH t snap).1 ht)
    rw [hcount, hempty]
    rfl
  · exact or_iff_left (by simp)

end Crash

/-- The life-cycle invariant of the calls in flight, with the account of the pins. -/
def Holding (readers : List Nat) (w : World) (γ : Phases Act Call Phase) : Prop :=
  Inv True w γ ∧ Tracked w γ ∧ Pinned readers w γ ∧ Leaving γ

theorem holding_invariant (env : Env) (readers : List Nat) :
    Pool.Invariant (coordinator env) Move Call.start (fun _ _ g => g.Quiet) (Steady True) (Holding readers) where
  obeys := Call.body_obeys env
  spawn _ _ _ _ _ h hi hlive hadm := by
    obtain ⟨hinv, htr, hpin, hleave⟩ := h
    exact ⟨hinv.spawn hi hlive hadm, htr.spawn hi, hpin.spawn hi, hleave.spawn⟩
  act _ _ _ _ _ _ _ _ _ h hi hm hcond := by
    obtain ⟨hinv, htr, hpin, hleave⟩ := h
    obtain ⟨hA, hinv'⟩ := hinv.act hi hm hcond
    exact ⟨hA, hinv', htr.act hinv hi hm hcond, hpin.act hinv hi hm hcond, hleave.act hi hm _⟩
  finish _ _ _ _ _ h hi hq := by
    obtain ⟨hinv, htr, hpin, hleave⟩ := h
    exact ⟨hinv.finish hi hq, htr.finish hi hq, hpin.finish hi hq, hleave.finish⟩

namespace Node

/-- Write-backs find their rows `Active`, and a crash falls where no reader is alive and no call leaves a pin behind.
-/
def Releasing (n : Node) : NodeEvent → Prop
  | .run ev => n.pool.WriteBacksActive ev
  | .acquireSnapshot | .dropReader _ => True
  | .restart _ _ => n.readers = [] ∧ ∀ (i : Nat) th, n.pool.threads[i]? = some th → ¬ LeavesPin th.done

instance (n : Node) : DecidablePred n.Releasing
  | .run ev => inferInstanceAs (Decidable (n.pool.WriteBacksActive ev))
  | .acquireSnapshot | .dropReader _ => .isTrue trivial
  | .restart _ _ => decidable_of_iff (n.readers = [] ∧ ∀ x ∈ n.pool.threads.toList, ¬ LeavesPin x.2.done)
      (and_congr_right fun _ => ⟨fun h i th hth => h (i, th) (Table.mem_toList.2 hth),
        fun h x hx => h x.1 x.2 (Table.mem_toList.1 hx)⟩)

def Kept (n : Node) : Prop :=
  ∃ γ, Pool.Follows Move (fun _ _ g => g.Quiet) n.pool γ ∧ Holding n.readers n.pool.state γ

variable {env : Env} {u v : Node}

theorem Kept.restart {nowMs : Int} {order : List String} (h : u.Kept) (hcond : u.Releasing (.restart nowMs order))
    (hstep : Node.step env (.restart nowMs order) u = some v) :
    (∀ snap : Nat, v.pool.state.store.activeSnapshots[snap]? = none) ∧ v.Kept := by
  obtain ⟨γ, hf, hinv, htr, hpin, hleave⟩ := h
  obtain ⟨hreaders, hdone⟩ := hcond
  simp only [Node.step, CallPool.serverStep, Option.map_eq_some_iff] at hstep
  obtain ⟨p, ⟨w', hw', rfl⟩, rfl⟩ := hstep
  have hclean : ∀ i ph, γ i = some ph → ¬ ph.phase.Unreleased := by
    intro i ph hi hun
    rcases hf i with ⟨-, hnone⟩ | ⟨th, g, hth, hph, -⟩
    · rw [hnone] at hi
      cases hi
    · cases hph.symm.trans hi
      exact hdone i th hth (hleave i _ hi hun)
  have htorn : ∀ i ph, γ i = some ph → ¬ ph.phase.Torn := fun i ph hi ht => hclean i ph hi ht.unreleased
  rw [hreaders] at hpin
  obtain ⟨hnone, hpin'⟩ := hpin.restart htr hinv hclean hw'
  refine ⟨hnone, fun _ => none, fun i => .inl ⟨by simp [Pool.idle], rfl⟩, ?_⟩
  exact ⟨(World.restart_spec hinv.wal hinv.halted hw').inv, (htr.restart hinv htorn hw').2, hpin', .idle⟩

theorem Kept.step {ev : NodeEvent} (h : u.Kept) (hcond : u.Releasing ev) (hstep : Node.step env ev u = some v) :
    v.Kept := by
  cases ev with
  | restart nowMs order => exact (h.restart hcond hstep).2
  | run ev =>
    obtain ⟨γ, hf, hholding⟩ := h
    simp only [Node.step, Option.map_eq_some_iff] at hstep
    obtain ⟨p, hp, rfl⟩ := hstep
    refine (holding_invariant env u.readers).step hp hf hholding ?_
    intro i c e hev hpend
    subst hev
    exact ⟨hcond c e hpend, fun _ => trivial⟩
  | acquireSnapshot =>
    obtain ⟨γ, hf, hinv, htr, hpin, hleave⟩ := h
    cases hstep
    exact ⟨γ, hf, hinv.of_eq hinv.wal rfl rfl, ⟨htr.owned, htr.begun, htr.marked⟩, hpin.acquire rfl, hleave⟩
  | dropReader snap =>
    obtain ⟨γ, hf, hinv, htr, hpin, hleave⟩ := h
    simp only [Node.step] at hstep
    split at hstep
    case isFalse => cases hstep
    case isTrue hmem =>
      cases hstep
      have hsilent : (Act.unregisterSnapshot snap).Silent := trivial
      have hledger := hsilent.ledger u.pool.state
      exact ⟨γ, hf, hinv.of_eq (hsilent.walBound hinv.wal) hledger rfl,
        ⟨hledger ▸ htr.owned, hledger ▸ htr.begun, htr.marked⟩, hpin.dropReader hmem rfl, hleave⟩

end Node

/-- If write-backs find their rows `Active`, and crashes fall where no reader is alive and no call leaves a pin
behind, each restart leaves the registry of snapshots empty. -/
theorem restart_releases_pins (env : Env) {hist : List (Node × NodeEvent × Node)} {n : Node}
    (hrun : Run (Node.step env) {} hist n) (hcond : ∀ x ∈ hist, x.1.Releasing x.2.1)
    {u v : Node} {nowMs : Int} {order : List String} (hx : (u, .restart nowMs order, v) ∈ hist) (snap : Nat) :
    v.pool.state.store.activeSnapshots[snap]? = none := by
  have hempty : Node.Kept {} :=
    ⟨fun _ => none, fun i => .inl ⟨by simp [Pool.idle], rfl⟩, World.inv_empty True,
      by constructor <;> simp [Store.ledger, Pool.idle], Pinned.idle, .idle⟩
  obtain ⟨-, hall⟩ := hrun.invariant (I := Node.Kept) (C := fun u ev => u.Releasing ev) hempty
    (fun u ev v hu hc hstep => hu.step hc hstep) hcond
  exact ((hall _ hx).1.restart (hcond _ hx) (hrun.step_of_mem _ hx)).1 snap

/-- A crash in the middle of a commit, before its chain append, next to an open transaction. -/
theorem restart_releases_pins_mid_commit : ∃ hist u v,
    Run (Node.step .sample) {} (hist ++ [(u, .restart 9 ["T", "U"], v)]) v ∧
    u.pool.state.store.activeSnapshots[0]? = some 2 ∧ v.pool.state.store.activeSnapshots[0]? = none := by
  obtain ⟨u, v, hguarded, htest⟩ := Run.exists_step_of_exec
    (guarded (fun (n : Node) ev => decide (n.Releasing ev)) (Node.step .sample)) {}
    ([.acquireSnapshot] ++ ((Call.begin "T" none 0).alone 0 4 ++ (Call.begin "U" none 0).alone 0 4 ++
      (Call.stage "T" "k" [1] none [] false).alone 1 5 ++ (Call.commit "T" fun _ => false).first 2 9).map .run ++
      [.dropReader 0]) (.restart 9 ["T", "U"])
    (fun u _ => u.pool.state.store.activeSnapshots[0]? = some 2) (by decide +kernel)
  obtain ⟨hrun, hcond⟩ := hguarded.of_guarded
  exact ⟨_, u, v, hrun, of_decide_eq_true htest, restart_releases_pins .sample hrun
    (fun x hx => of_decide_eq_true (hcond x hx)) (List.mem_append_right _ (List.mem_singleton_self _)) 0⟩

/-- Crashes that leave a pin behind: with a reader alive; in a `begin` after its capture or its row; in a commit after
its chain append or its `Committed` row; in an abort after its claim. -/
def Node.leaks : List (List NodeEvent) :=
  let staged := (Call.begin "T" none 0).alone 0 4 ++ (Call.stage "T" "k" [1] none [] false).alone 1 5
  [[.acquireSnapshot, .restart 9 []],
    ((Call.begin "T" none 0).first 0 1).map .run ++ [.restart 9 []],
    ((Call.begin "T" none 0).first 0 2).map .run ++ [.restart 9 []],
    (staged ++ (Call.commit "T" fun _ => false).first 2 10).map .run ++ [.restart 9 ["T"]],
    (staged ++ (Call.commit "T" fun _ => false).first 2 14).map .run ++ [.restart 9 ["T"]],
    (staged ++ (Call.abort "T").first 2 2).map .run ++ [.restart 9 ["T"]]]

theorem restart_leaks_pin : Node.leaks.Forall fun events =>
    ∃ n, Run (Node.step .sample) {} (history (Node.step .sample) events {}) n ∧
      n.pool.state.store.activeSnapshots[0]? = some 1 := by
  have hall : (Node.leaks.all fun events =>
      (exec (Node.step .sample) events {}).any fun n => n.pool.state.store.activeSnapshots[0]? = some 1) = true := by
    decide +kernel
  refine List.forall_iff_forall_mem.2 fun events h => ?_
  obtain ⟨n, hrun, hpin⟩ := Run.exists_of_exec (Node.step .sample) {} events
    (fun n => n.pool.state.store.activeSnapshots[0]? = some 1) (List.all_eq_true.1 hall events h)
  exact ⟨n, hrun, of_decide_eq_true hpin⟩

end Xtable
