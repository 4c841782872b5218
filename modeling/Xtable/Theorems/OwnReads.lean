import Xtable.Theorems.Queries

/-! A transaction should read what it has staged itself, and otherwise what was committed up to its snapshot.
    `get_record` looks at the committed versions only. -/

namespace Xtable

open Coordinator

/-- What a transaction should read of a record, by the history: the body it has staged last, or else the committed one
at its snapshot, with its version. -/
inductive OwnView (env : Env) (hist : List (World × NodeOp × World)) (t key : String) (rk : RecordKey) (snapshot : Nat) :
    Option (Value × Option Nat) → Prop where
  | staged {o : Operation} (hlast : lastOperation env hist t key = some o) :
    OwnView env hist t key rk snapshot (o.body.map fun body => (body, none))
  | committed {o : Operation} {v : Nat} (hlast : lastOperation env hist t key = none) (hwrote : Wrote env hist rk v o)
      (hle : v ≤ snapshot) (hmax : ∀ v' o', Wrote env hist rk v' o' → v' ≤ snapshot → v' ≤ v) :
    OwnView env hist t key rk snapshot (o.body.map fun body => (body, some v))
  | absent (hlast : lastOperation env hist t key = none) (hnone : ∀ v o, Wrote env hist rk v o → snapshot < v) :
    OwnView env hist t key rk snapshot none

/-- The answer of `get_record` is that view: no record, or one with the body as it is read back. -/
def SpaceEnv.ReadsView (e : SpaceEnv) (answer : Except Fault (Option Record)) : Option (Value × Option Nat) → Prop
  | none => answer = .ok none
  | some (body, version) => ∀ parsed, e.fromSlice (utf8 (e.jsonText body)) = .ok parsed → ∃ rec, answer = .ok (some rec) ∧
      rec.body = parsed ∧ ∀ v ∈ version, rec.commitVersion = v

theorem getRecord_of_read {e : SpaceEnv} {w : World} {space table rid key : String} {snapshot v : Nat} {a : ReadResult}
    {o : Operation} (hkey : recordKey space table rid = .ok key)
    (ha : Read.readAtSnapshot e.codecs w.mems w.store ⟨w.bucket, e.etag, e.notFound⟩ (space, table, rid) snapshot = .ok (some a))
    (hreturns : a.Returns e.toEnv v o) :
    e.ReadsView (Space.getRecord e w snapshot space table rid none).1 (o.body.map fun body => (body, some v)) := by
  cases hbody : o.body with
  | none =>
    have hdeleted : a.deleted = true := by rw [hreturns.deleted, hbody, Option.isNone_none]
    simp [SpaceEnv.ReadsView, Space.getRecord, ha, hdeleted]
  | some body =>
    intro parsed hparsed
    have hlive : a.deleted = false := by rw [hreturns.deleted, hbody, Option.isNone_some]
    have htext := hreturns.body body hbody
    refine ⟨⟨space, table, rid, parsed, a.schemaVersion, a.commitVersion, false⟩, ?_, rfl, fun v' hv' => ?_⟩
    · simp [Space.getRecord, ha, hlive, hkey, Space.parseRecord, htext, hparsed, Except.map]
    · cases hv'
      exact hreturns.version

/-- A transaction reads a record that it has not written right: the committed version at its snapshot, or nothing. -/
theorem own_reads (e : SpaceEnv)
    (hzstd : ∀ body compressed, e.codecs.zstdEncode body = .ok compressed → e.codecs.zstdDecode compressed = .ok body)
    (hjson : ∀ x, utf8 (e.jsonText x) ≠ []) {hist : List (World × NodeOp × World)} {w : World}
    (hrun : Run (NodeOp.step e.toEnv e.codecs) {} hist w) (hcond : ∀ x ∈ hist, x.2.1.Layers e.toEnv e.codecs x.1)
    (t : String) (snapshot : Nat) (space table rid key : String) (hkey : recordKey space table rid = .ok key)
    (huntouched : lastOperation e.toEnv hist t key = none) (view : Option (Value × Option Nat))
    (hview : OwnView e.toEnv hist t key (space, table, rid) snapshot view) :
    e.ReadsView (Space.getRecord e w snapshot space table rid none).1 view := by
  obtain ⟨horderly, -, hlayered⟩ := World.Layered.of_run hzstd hjson hrun hcond
  have hkeyed := horderly.structured.keyed
  have hwrites := Chronicled.of_run hrun hcond
  have hbucket : (⟨w.bucket, e.etag, e.notFound⟩ : Backend).objects = w.bucket := rfl
  cases hview with
  | staged hlast =>
    rw [huntouched] at hlast
    cases hlast
  | committed _ hwrote hle hmax =>
    obtain ⟨a, ha, hreturns⟩ := hwrites.reads hlayered hkeyed hbucket hwrote hle hmax
    exact getRecord_of_read hkey ha hreturns
  | absent _ hnone =>
    simp [SpaceEnv.ReadsView, Space.getRecord, hwrites.reads_none hlayered hkeyed hnone]

theorem own_reads_committed : ∃ hist w row o rec, Run (NodeOp.step .stored .stored) {} hist w ∧
    w.store.getTxnState "V" = some row ∧ row.status = .active ∧ Wrote Env.stored hist ("s", "t", "r") 2 o ∧
    o.body.map SpaceEnv.stored.jsonText = some "\"a\"" ∧
    (Space.getRecord .stored w row.snapshotVersion "s" "t" "r" none).1 = .ok (some rec) ∧ rec.commitVersion = 2 := by
  obtain ⟨hist, w, o, hrun, hcond, hwrote, htext, htest⟩ := exists_overwritten [.request (.call (.begin "V" none 0))]
    (fun w => (w.store.getTxnState "V").any (fun row => row.status = .active && row.snapshotVersion = 2) &&
      ((w.pendingOf "V").docAt "_xtable/s/t/r.json").isNone) (by decide +kernel)
  simp only [Bool.and_eq_true, Option.isNone_iff_eq_none] at htest
  obtain ⟨hactive, hdoc⟩ := htest
  obtain ⟨row, hrow, hst⟩ := (Option.any_eq_true ..).1 hactive
  simp only [Bool.and_eq_true, decide_eq_true_eq] at hst
  have huntouched : lastOperation Env.stored hist "V" "_xtable/s/t/r.json" = none := by
    rw [(Remembers.of_run hrun fun x hx => (hcond x hx).whole).active "V" row hrow hst.1, hdoc]
    rfl
  obtain ⟨body, hbody, -⟩ := Option.map_eq_some_iff.1 htext
  have hkey : recordKey "s" "t" "r" = .ok "_xtable/s/t/r.json" := by decide +kernel
  have hview := OwnView.committed huntouched hwrote hst.2.ge fun v' _ _ hle => hle.trans hst.2.le
  rw [hbody, Option.map_some] at hview
  obtain ⟨-, parsed, hparsed⟩ := SpaceEnv.stored_reads body
  obtain ⟨rec, hrec, -, hversion⟩ := own_reads .stored Codecs.stored_lossless.zstd SpaceEnv.stored_jsonText
    hrun hcond "V" row.snapshotVersion "s" "t" "r" _ hkey huntouched _ hview parsed hparsed
  exact ⟨hist, w, row, o, rec, hrun, hrow, hst.1, hwrote, htext, hrec, hversion 2 rfl⟩

/-- A transaction that has staged a record does not find it. -/
theorem own_writes_unread : ∃ hist w row view, Run (NodeOp.step .stored .stored) {} hist w ∧
    (∀ x ∈ hist, x.2.1.Layers .stored .stored x.1) ∧ w.store.getTxnState "T" = some row ∧ row.status = .active ∧
    OwnView Env.stored hist "T" "_xtable/s/t/r.json" ("s", "t", "r") row.snapshotVersion view ∧ view.isSome ∧
    (Space.getRecord .stored w row.snapshotVersion "s" "t" "r" none).1 = .ok none ∧
    ¬ SpaceEnv.stored.ReadsView (Space.getRecord .stored w row.snapshotVersion "s" "t" "r" none).1 view := by
  obtain ⟨w, hguarded, htest⟩ := Run.exists_of_exec layeredStep {} (writeOps "T" .null)
    (fun w => (w.store.getTxnState "T").any fun row => row.status = .active &&
      (Space.getRecord .stored w row.snapshotVersion "s" "t" "r" none).1.toOption.any (·.isNone)) (by decide +kernel)
  obtain ⟨hrun, hguard⟩ := hguarded.of_guarded
  obtain ⟨row, hrow, hkind⟩ := (Option.any_eq_true ..).1 htest
  simp only [Bool.and_eq_true, decide_eq_true_eq] at hkind hguard
  obtain ⟨hst, hread⟩ := hkind
  have hnone : (Space.getRecord .stored w row.snapshotVersion "s" "t" "r" none).1 = .ok none := by
    revert hread
    cases (Space.getRecord .stored w row.snapshotVersion "s" "t" "r" none).1 with
    | error => exact nofun
    | ok rec =>
      intro hread
      have hrec : rec.isNone = true := hread
      rw [Option.isNone_iff_eq_none.1 hrec]
  have hlast : (lastOperation Env.stored (history layeredStep (writeOps "T" .null) {}) "T"
      "_xtable/s/t/r.json").any (fun o => o.body.isSome) = true := by decide +kernel
  obtain ⟨o, ho, hsome⟩ := (Option.any_eq_true ..).1 hlast
  obtain ⟨body, hbody⟩ := Option.isSome_iff_exists.1 hsome
  refine ⟨_, w, row, _, hrun, fun x hx => NodeOp.layers_of_plain (nullEntry_fits (.inl rfl)) (hguard x hx).1 (hguard x hx).2, hrow, hst,
    .staged ho, by simp [hbody], hnone, fun hview => ?_⟩
  rw [hbody, Option.map_some, hnone] at hview
  obtain ⟨-, parsed, hparsed⟩ := SpaceEnv.stored_reads body
  obtain ⟨rec, hrec, -⟩ := hview parsed hparsed
  cases hrec

end Xtable
