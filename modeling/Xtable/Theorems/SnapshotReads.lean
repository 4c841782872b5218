import Xtable.Theorems.Layers
import Xtable.Theorems.LostSchemas

/-! The committed writes of a record are read off the history of a run: a commit writes the last operation of its
    transaction on each key, at the version it answers. A read at a snapshot answers the newest of them up to it. -/

namespace Xtable

open Coordinator

variable {env : Env} {c : Codecs} {w w' : World} {t : String} {rk : RecordKey} {row : TxnStateRecord} {v : Nat}
  {hist : List (World × NodeOp × World)} {o : Operation} {op : NodeOp}

/-! ## Committed writes -/

/-- A commit of the run has written the operation to the record at the version. -/
def Wrote (env : Env) (hist : List (World × NodeOp × World)) (rk : RecordKey) (v : Nat) (o : Operation) : Prop :=
  ∃ before u t aged u' after row, hist = before ++ (u, NodeOp.request (.commitTxn t aged), u') :: after ∧
    u.store.getTxnState t = some row ∧ row.status = .active ∧
    ((Engine.commitTxn env aged t).run World.exec u).1 = .ok v ∧ lastOperation env before t o.key = some o ∧ o.rk = rk

theorem Wrote.append (h : Wrote env hist rk v o) (more : List (World × NodeOp × World)) : Wrote env (hist ++ more) rk v o := by
  obtain ⟨before, u, t, aged, u', after, row, rfl, hrest⟩ := h
  exact ⟨before, u, t, aged, u', after ++ more, row, by simp, hrest⟩

theorem Wrote.of_snoc (h : Wrote env (hist ++ [(w, op, w')]) rk v o) :
    Wrote env hist rk v o ∨ ∃ t aged row, op = .request (.commitTxn t aged) ∧ w.store.getTxnState t = some row ∧
      row.status = .active ∧ ((Engine.commitTxn env aged t).run World.exec w).1 = .ok v ∧
      lastOperation env hist t o.key = some o ∧ o.rk = rk := by
  obtain ⟨before, u, t, aged, u', after, row, heq, hrest⟩ := h
  rcases after.eq_nil_or_concat with rfl | ⟨front, last, rfl⟩
  · obtain ⟨rfl, hlast⟩ := List.append_inj' heq rfl
    simp only [List.cons.injEq, Prod.mk.injEq, and_true] at hlast
    obtain ⟨rfl, rfl, -⟩ := hlast
    exact .inr ⟨t, aged, row, rfl, hrest⟩
  · have hsplit : hist ++ [(w, op, w')] = (before ++ (u, NodeOp.request (.commitTxn t aged), u') :: front) ++ [last] := by
      simpa using heq
    obtain ⟨rfl, -⟩ := List.append_inj' hsplit rfl
    exact .inl ⟨before, u, t, aged, u', front, row, rfl, hrest⟩

/-- A row has the tombstone or the body of an operation. -/
structure StoredRecordVersion.Of (env : Env) (r : StoredRecordVersion) (o : Operation) : Prop where
  deleted : r.entry.deleted = o.body.isNone
  body : ∀ body, o.body = some body → r.body = utf8 (env.jsonText body)

/-- The historical rows are the committed writes. -/
structure Chronicled (env : Env) (hist : List (World × NodeOp × World)) (w : World) : Prop where
  rows : ∀ (rk : RecordKey) (v : Nat) r, w.store.recordVersions[(rk, v)]? = some r → ∃ o, Wrote env hist rk v o ∧ r.Of env o
  writes : ∀ rk v o, Wrote env hist rk v o → ∃ r, w.store.recordVersions[(rk, v)]? = some r ∧ r.Of env o

namespace Chronicled

theorem quiet (h : Chronicled env hist w) (p : RecordKey → Nat → String → String)
    (hrows : ∀ (rk : RecordKey) (v : Nat), w'.store.recordVersions[(rk, v)]? = (w.store.recordVersions[(rk, v)]?).map
      fun r => { r with entry := r.entry.pointedAt (p rk v r.entry.chunkId) })
    (hquiet : ∀ t aged row v, op = .request (.commitTxn t aged) → w.store.getTxnState t = some row → row.status =
      .active → ((Engine.commitTxn env aged t).run World.exec w).1 ≠ .ok v) :
    Chronicled env (hist ++ [(w, op, w')]) w' := by
  refine ⟨fun rk v r' hr' => ?_, fun rk v o ho => ?_⟩
  · rw [hrows] at hr'
    obtain ⟨r, hr, rfl⟩ := Option.map_eq_some_iff.1 hr'
    obtain ⟨o, ho, hof⟩ := h.rows rk v r hr
    exact ⟨o, ho.append _, hof.deleted, hof.body⟩
  · rcases ho.of_snoc with ho | ⟨t, aged, row, hop, hrow, hst, hreply, -⟩
    · obtain ⟨r, hr, hof⟩ := h.writes rk v o ho
      refine ⟨{ r with entry := r.entry.pointedAt (p rk v r.entry.chunkId) }, ?_, hof.deleted, hof.body⟩
      rw [hrows, hr, Option.map_some]
    · exact absurd hreply (hquiet t aged row v hop hrow hst)

theorem kept (h : Chronicled env hist w) (hcatalog : w'.store.catalog = w.store.catalog)
    (hquiet : ∀ t aged row v, op = .request (.commitTxn t aged) → w.store.getTxnState t = some row → row.status =
      .active → ((Engine.commitTxn env aged t).run World.exec w).1 ≠ .ok v) :
    Chronicled env (hist ++ [(w, op, w')]) w' := by
  refine h.quiet (fun _ _ old => old) (fun rk v => ?_) hquiet
  rw [catalog_lookup (fun s => s.recordVersions[(rk, v)]?) (fun _ => rfl) hcatalog]
  exact (Option.map_id' ..).symm

theorem refiled (h : Chronicled env hist w) (hfiled : Refiled w w')
    (hop : ∀ t aged, op ≠ .request (.commitTxn t aged)) : Chronicled env (hist ++ [(w, op, w')]) w' := by
  obtain ⟨p, hrows, -⟩ := hfiled.rows
  exact h.quiet p hrows fun t aged _ _ heq => absurd heq (hop t aged)

theorem published {aged : String → Bool} (h : Chronicled env hist w) (hs : Structured w) (hbodies : Bodies env w)
    (hlast : Remembers env hist w) (hpub : Publication env w t row w')
    (hreply : ((Engine.commitTxn env aged t).run World.exec w).1 = .ok (w.nextVersion row)) :
    Chronicled env (hist ++ [(w, .request (.commitTxn t aged), w')]) w' := by
  have hdraft := hs.drafts.active t row hpub.found hpub.active
  have hof : ∀ {key : String} {d : Doc}, (w.pendingOf t).docAt key = some d → ∃ r,
      w'.store.recordVersions[(d.rk, w.nextVersion row)]? = some r ∧ r.Of env (d.operation t) := by
    intro key d hd
    obtain ⟨r, hr, -, hdeleted, hbody⟩ := (hpub.carries hdraft hs.agrees hbodies hd).version
    exact ⟨r, hr, hdeleted, hbody⟩
  refine ⟨fun rk v r hr => ?_, fun rk v o ho => ?_⟩
  · rcases hpub.row_cases hdraft hr with hold | ⟨d, hd, rfl, rfl, -⟩
    · obtain ⟨o, ho, hof⟩ := h.rows rk v r hold
      exact ⟨o, ho.append _, hof⟩
    · obtain ⟨d', hd', hrk⟩ := hdraft.docAt_of_mem hd
      obtain ⟨r', hr', hof⟩ := hof hd'
      rw [hrk] at hr'
      cases hr.symm.trans hr'
      have hwritten := hlast.active t row hpub.found hpub.active d.key
      rw [hd', Option.map_some] at hwritten
      have hkey : (d'.operation t).key = d.key := (PendingTxn.docAt_mem hd').2
      exact ⟨d'.operation t, ⟨hist, w, t, aged, w', [], row, rfl, hpub.found, hpub.active, hreply, hkey ▸ hwritten, hrk⟩, hof⟩
  · rcases ho.of_snoc with ho | ⟨t', aged', row', hop, hrow, hst, hreply', hwritten, rfl⟩
    · obtain ⟨r, hr, hof⟩ := h.writes rk v o ho
      exact ⟨r, hpub.row_stays hdraft hs.agrees hr, hof⟩
    · obtain ⟨rfl, rfl⟩ := Request.commitTxn.inj (NodeOp.request.inj hop)
      cases hreply.symm.trans hreply'
      rw [hlast.active t row hpub.found hpub.active o.key] at hwritten
      obtain ⟨d, hd, rfl⟩ := Option.map_eq_some_iff.1 hwritten
      exact hof hd

theorem step (h : Chronicled env hist w) (hs : Structured w) (hbodies : Bodies env w) (hlast : Remembers env hist w)
    (hop : op.Layers env c w) (hstep : op.step env c w = some w') : Chronicled env (hist ++ [(w, op, w')]) w' := by
  cases op with
  | rotate =>
    cases hstep
    exact h.refiled (.rotate w) (by rintro _ _ ⟨⟩)
  | flush => exact h.refiled (.flush (.of_flush hstep)) (by rintro _ _ ⟨⟩)
  | failedFlush chunkId nowMs entries n =>
    obtain rfl : n = 0 := by simpa [NodeOp.whole] using hop.whole
    exact h.refiled (.flush (.of_failedFlush hstep)) (by rintro _ _ ⟨⟩)
  | request r =>
    obtain ⟨-, heffect, -, -⟩ := hs.step hop.whole hstep
    by_cases hcommit : ∃ t aged, r = .commitTxn t aged
    · obtain ⟨t, aged, rfl⟩ := hcommit
      have hrun : ((Engine.commitTxn env aged t).run World.exec w).2 = w' := by
        simp only [NodeOp.step, Request.step] at hstep
        split at hstep
        · exact (congrArg Prod.snd (Prog.run_map World.exec _ (fun _ => ()) w)).symm.trans (Option.some.inj hstep)
        · cases hstep
      rcases commitTxn_cases env aged hs.inv t with ⟨hcatalog, hquiet⟩ | ⟨row, hpub, hreply⟩
      · rw [hrun] at hcatalog
        refine h.kept hcatalog fun t' aged' row v heq hrow hst => ?_
        obtain ⟨rfl, rfl⟩ := Request.commitTxn.inj (NodeOp.request.inj heq)
        exact hquiet row v hrow hst
      · rw [hrun] at hpub
        exact h.published hs hbodies hlast hpub hreply
    · have hquiet : ∀ t aged row v, NodeOp.request r = .request (.commitTxn t aged) → w.store.getTxnState t = some row →
          row.status = .active → ((Engine.commitTxn env aged t).run World.exec w).1 ≠ .ok v :=
        fun t aged _ _ heq => absurd ⟨t, aged, NodeOp.request.inj heq⟩ hcommit
      cases ServerStep.of_effect hs.inv hop.whole heffect with
      | kept hcatalog => exact h.kept hcatalog hquiet
      | swept hreq =>
        subst hreq
        cases hop.keeps
      | published hreq => exact absurd ⟨_, _, hreq⟩ hcommit

theorem of_run (hrun : Run (NodeOp.step env c) {} hist w)
    (hcond : ∀ x ∈ hist, x.2.1.Layers env c x.1) : Chronicled env hist w := by
  induction hrun with
  | nil =>
    refine ⟨fun rk v r hr => by simp at hr, fun rk v o ho => ?_⟩
    obtain ⟨before, u, t, aged, u', after, row, heq, -⟩ := ho
    simp at heq
  | @snoc hist u v op hrun hstep ih =>
    have hfirst : ∀ x ∈ hist, x.2.1.Layers env c x.1 := fun x hx => hcond x (List.mem_append_left _ hx)
    obtain ⟨horderly, hbodies⟩ := Bodies.of_run hrun fun x hx => ⟨(hfirst x hx).whole, (hfirst x hx).apart⟩
    exact (ih hfirst).step horderly.structured hbodies (.of_run hrun fun x hx => (hfirst x hx).whole)
      (hcond (u, op, v) (List.mem_append_right _ (List.mem_singleton_self _))) hstep

end Chronicled

/-! ## Reads -/

/-- A read answers an operation at a version: its tombstone, or its body. -/
structure ReadResult.Returns (env : Env) (a : ReadResult) (v : Nat) (o : Operation) : Prop where
  version : a.commitVersion = v
  deleted : a.deleted = o.body.isNone
  body : ∀ body, o.body = some body → a.body = utf8 (env.jsonText body)

theorem ReadResult.Answers.returns {a : ReadResult} {r : StoredRecordVersion} (h : a.Answers v r) (hof : r.Of env o) :
    a.Returns env v o := by
  refine ⟨h.version, h.deleted.trans hof.deleted, fun body hbody => ?_⟩
  have hlive : r.entry.deleted = false := by rw [hof.deleted, hbody, Option.isNone_some]
  exact (h.body hlive).trans (hof.body body hbody)

theorem Chronicled.reads {backend : Backend} {snapshot : Nat} (h : Chronicled env hist w) (hlayered : w.Layered c)
    (hkeyed : w.store.Keyed) (hbucket : backend.objects = w.bucket) (hwrote : Wrote env hist rk v o) (hle : v ≤ snapshot)
    (hmax : ∀ v' o', Wrote env hist rk v' o' → v' ≤ snapshot → v' ≤ v) :
    ∃ a, Read.readAtSnapshot c w.mems w.store backend rk snapshot = .ok (some a) ∧ a.Returns env v o := by
  obtain ⟨r, hr, hof⟩ := h.writes rk v o hwrote
  obtain ⟨a, ha, hanswers⟩ := hlayered.read_answers hkeyed hbucket hr hle fun u r' hr' hu => by
    obtain ⟨o', ho', -⟩ := h.rows rk u r' hr'
    exact hmax u o' ho' hu
  exact ⟨a, ha, hanswers.returns hof⟩

theorem Chronicled.reads_none {backend : Backend} {snapshot : Nat} (h : Chronicled env hist w) (hlayered : w.Layered c)
    (hkeyed : w.store.Keyed) (hnone : ∀ v o, Wrote env hist rk v o → snapshot < v) :
    Read.readAtSnapshot c w.mems w.store backend rk snapshot = .ok none := by
  refine hlayered.read_none hkeyed fun u r hr => ?_
  obtain ⟨o, ho, -⟩ := h.rows rk u r hr
  exact hnone u o ho

/-- In every run whose commits find the keys they write clear of immutable memtables, and whose flushes fit the format, a
read at a snapshot answers the committed write with the greatest version up to it, and nothing exactly if there is none. -/
theorem snapshot_reads_right (env : Env) (c : Codecs)
    (hzstd : ∀ body compressed, c.zstdEncode body = .ok compressed → c.zstdDecode compressed = .ok body)
    (hjson : ∀ x, utf8 (env.jsonText x) ≠ []) {hist : List (World × NodeOp × World)} {w : World}
    (hrun : Run (NodeOp.step env c) {} hist w) (hcond : ∀ x ∈ hist, x.2.1.Layers env c x.1) (etag notFound : String → String)
    (rk : RecordKey) (snapshot : Nat) :
    let answer := Read.readAtSnapshot c w.mems w.store ⟨w.bucket, etag, notFound⟩ rk snapshot
    (∀ v o, Wrote env hist rk v o → v ≤ snapshot →
      (∀ v' o', Wrote env hist rk v' o' → v' ≤ snapshot → v' ≤ v) → ∃ a, answer = .ok (some a) ∧ a.Returns env v o) ∧
    (answer = .ok none ↔ ∀ v o, Wrote env hist rk v o → snapshot < v) := by
  obtain ⟨horderly, -, hlayered⟩ := World.Layered.of_run hzstd hjson hrun hcond
  have hkeyed := horderly.structured.keyed
  have hwrites := Chronicled.of_run hrun hcond
  have hbucket : (⟨w.bucket, etag, notFound⟩ : Backend).objects = w.bucket := rfl
  refine ⟨fun v o ho hle hmax => hwrites.reads hlayered hkeyed hbucket ho hle hmax, fun hnone v o ho => ?_,
    hwrites.reads_none hlayered hkeyed⟩
  -- otherwise there is a greatest version, and it is answered
  by_contra hle
  classical
  let P : Nat → Prop := fun v => ∃ o, Wrote env hist rk v o
  obtain ⟨o', ho'⟩ : P (Nat.findGreatest P snapshot) := Nat.findGreatest_spec (not_lt.1 hle) ⟨o, ho⟩
  obtain ⟨a, ha, -⟩ := hwrites.reads hlayered hkeyed hbucket ho' (Nat.findGreatest_le snapshot) fun v' o' ho' hle' =>
    Nat.le_findGreatest hle' ⟨o', ho'⟩
  simp only [ha] at hnone
  cases hnone

def writeOps (t : String) (body : Value) : List NodeOp :=
  [.request (.call (.begin t none 0)), .request (.upsertRecord t "s" "t" "r" none body)]

def nullEntry (v : Nat) : MemEntry :=
  ⟨("s", "t", "r"), utf8 "null", (v : WithTop Nat), "T", false, some "application/json", Engine.recordMeta "s" "t" "r" none, 0, 1, 4⟩

theorem nullEntry_fits {v : Nat} (hv : v = 1 ∨ v = 2) : Flush.Fits .stored "c" [nullEntry v] := by
  let ce : ChunkEntry := ⟨"s", "t", "r", utf8 "null", UInt64.ofNat v, "T", false, some "application/json",
    Engine.recordMeta "s" "t" "r" none, 0, 1⟩
  have hvisible : [nullEntry v].filterMap Flush.chunkEntry = [ce] := rfl
  refine ⟨by decide, fun e he u hu => ?_, fun e he => ?_, ?_⟩
  · obtain rfl := List.mem_singleton.1 he
    obtain rfl : v = u := WithTop.coe_injective hu
    rcases hv with rfl | rfl <;> decide
  · rw [hvisible] at he
    obtain rfl := List.mem_singleton.1 he
    rcases hv with rfl | rfl <;>
      refine ⟨by decide, by decide, by decide, by decide, by decide, fun ct hct => ?_, by decide, by decide, by decide⟩ <;>
      obtain rfl := Option.some.inj hct <;> decide
  · rw [hvisible]
    let k : KeyIndexEntry := ⟨utf8 "s\x00t\x00r", 0, UInt64.ofNat v⟩
    have hki : sampleKeys .stored 0 0 [ce] = .ok [k] := by rcases hv with rfl | rfl <;> decide +kernel
    have hbs : Codecs.stored.bincodeSerialize [k] = .ok (leBytes 8 1 ++ indexEntryBytes k) := by
      rcases hv with rfl | rfl <;> decide +kernel
    exact .of_eq hki hbs (by rcases hv with rfl | rfl <;> decide +kernel)

/-- The decidable part of the condition on a step, and the entries of the only flush. -/
def NodeOp.plain (es : List MemEntry) (w : World) (op : NodeOp) : Bool :=
  op.whole && op.apart .stored w && !op.collects &&
    match op with
    | flush chunkId _ entries => chunkId = "c" && entries = es
    | _ => true

theorem NodeOp.plain_fits {es : List MemEntry} (hfits : Flush.Fits .stored "c" es) (h : op.plain es w = true) :
    op.Fits .stored := by
  cases op with
  | flush chunkId nowMs entries =>
    simp only [NodeOp.plain, Bool.and_eq_true, decide_eq_true_eq] at h
    obtain ⟨-, rfl, rfl⟩ := h
    exact hfits
  | request | rotate | failedFlush => exact True.intro

theorem NodeOp.layers_of_plain {w : World} {es : List MemEntry} (hfits : Flush.Fits .stored "c" es)
    (hplain : op.plain es w = true) (hclear : op.eachPut MemTableSet.clear w = true) : op.Layers .stored .stored w := by
  have hfits := NodeOp.plain_fits hfits hplain
  simp only [NodeOp.plain, Bool.and_eq_true, Bool.not_eq_true'] at hplain
  exact ⟨hplain.1.1.1, hplain.1.1.2, hplain.1.2, hclear, hfits⟩

theorem SpaceEnv.stored_jsonText (x : Value) : utf8 (Env.stored.jsonText x) ≠ [] := by
  have htexts : ∀ text ∈ ["\x7b\"type\":\"string\"\x7d", "\"a\"", "null"], utf8 text ≠ [] := by decide +kernel
  cases x <;> exact htexts _ (by simp [Env.stored, SpaceEnv.stored, SpaceEnv.sample])

/-- A write of `null`, and one of `"a"` that is not committed yet, with other steps between them. -/
def overwriteOps (between : List NodeOp) : List NodeOp :=
  writeOps "T" .null ++ .request (.commitTxn "T" fun _ => false) :: .rotate :: between ++ writeOps "U" (.string "a")

def World.answerAt (w : World) (snapshot : Nat) : Option (Nat × Bytes) :=
  (Read.readAtSnapshot .stored w.mems w.store ⟨w.bucket, id, id⟩ ("s", "t", "r") snapshot).toOption.join.map
    fun a => (a.commitVersion, a.body)

theorem World.answerAt_some {snapshot : Nat} {x : Nat × Bytes} (h : w.answerAt snapshot = some x) : ∃ a : ReadResult,
    Read.readAtSnapshot .stored w.mems w.store ⟨w.bucket, id, id⟩ ("s", "t", "r") snapshot = .ok (some a) ∧
      a.commitVersion = x.1 ∧ a.body = x.2 := by
  unfold World.answerAt at h
  revert h
  cases Read.readAtSnapshot .stored w.mems w.store ⟨w.bucket, id, id⟩ ("s", "t", "r") snapshot with
  | error => exact nofun
  | ok a =>
    cases a with
    | none => exact nofun
    | some a =>
      intro h
      cases h
      exact ⟨a, rfl, rfl, rfl⟩

theorem Wrote.of_middle {step : NodeOp → World → Option World} {front : List NodeOp} {u u' : World}
    {aged : String → Bool} {key : String} {after : List (World × NodeOp × World)}
    (hrow : (u.store.getTxnState t).any fun row => row.status = .active)
    (hreply : ((Engine.commitTxn env aged t).run World.exec u).1.toOption = some v)
    (hlast : lastOperation env (history step front {}) t key = some o) (hkey : o.key = key) :
    Wrote env (history step front {} ++ (u, .request (.commitTxn t aged), u') :: after) o.rk v o := by
  obtain ⟨row, hrow, hst⟩ := (Option.any_eq_true ..).1 hrow
  have hok : ((Engine.commitTxn env aged t).run World.exec u).1 = .ok v := by
    cases h : ((Engine.commitTxn env aged t).run World.exec u).1 <;> rw [h] at hreply <;> cases hreply
    rfl
  exact ⟨_, u, t, aged, u', after, row, rfl, hrow, of_decide_eq_true hst, hok, hkey ▸ hlast, rfl⟩

def layeredStep : NodeOp → World → Option World :=
  guarded (fun w op => NodeOp.plain [nullEntry 1] w op && op.eachPut MemTableSet.clear w) (NodeOp.step .stored .stored)

theorem exists_overwritten (back : List NodeOp) (f : World → Bool)
    (h : ((exec layeredStep (overwriteOps [.flush "c" 0 [nullEntry 1]]) {}).any fun u =>
      (layeredStep (.request (.commitTxn "U" fun _ => false)) u).any fun v => (exec layeredStep back v).any fun w =>
        (u.store.getTxnState "U").any (fun row => row.status = .active) &&
        ((Engine.commitTxn Env.stored (fun _ => false) "U").run World.exec u).1.toOption = some 2 && f w) = true) :
    ∃ hist w o, Run (NodeOp.step .stored .stored) {} hist w ∧ (∀ x ∈ hist, x.2.1.Layers .stored .stored x.1) ∧
      Wrote Env.stored hist ("s", "t", "r") 2 o ∧ o.body.map Env.stored.jsonText = some "\"a\"" ∧
      f w = true := by
  obtain ⟨u, u', w, hguarded, htest⟩ := Run.exists_middle_of_exec layeredStep {} (overwriteOps [.flush "c" 0 [nullEntry 1]])
    (.request (.commitTxn "U" fun _ => false)) back
    (fun u w => (u.store.getTxnState "U").any (fun row => row.status = .active) &&
      ((Engine.commitTxn Env.stored (fun _ => false) "U").run World.exec u).1.toOption = some 2 && f w) h
  obtain ⟨hrun, hguard⟩ := hguarded.of_guarded
  simp only [Bool.and_eq_true, decide_eq_true_eq] at htest hguard
  obtain ⟨⟨hrow, hreply⟩, hf⟩ := htest
  have hlast : (lastOperation Env.stored (history layeredStep (overwriteOps [.flush "c" 0 [nullEntry 1]]) {}) "U"
      "_xtable/s/t/r.json").any (fun o => o.rk = ("s", "t", "r") && o.key = "_xtable/s/t/r.json" &&
        o.body.map Env.stored.jsonText = some "\"a\"") = true := by decide +kernel
  obtain ⟨o, ho, hkind⟩ := (Option.any_eq_true ..).1 hlast
  simp only [Bool.and_eq_true, decide_eq_true_eq] at hkind
  obtain ⟨⟨hrk, hkey⟩, htext⟩ := hkind
  exact ⟨_, w, o, hrun, fun x hx => NodeOp.layers_of_plain (nullEntry_fits (.inl rfl)) (hguard x hx).1 (hguard x hx).2,
    hrk ▸ Wrote.of_middle hrow hreply ho hkey, htext, hf⟩

theorem snapshot_reads_right_flushed : ∃ hist w o a, Run (NodeOp.step .stored .stored) {} hist w ∧
    (∀ x ∈ hist, x.2.1.Layers .stored .stored x.1) ∧ Wrote Env.stored hist ("s", "t", "r") 2 o ∧
    o.body.map Env.stored.jsonText = some "\"a\"" ∧
    Read.readAtSnapshot .stored w.mems w.store ⟨w.bucket, id, id⟩ ("s", "t", "r") 2 = .ok (some a) ∧
    a.Returns Env.stored 2 o := by
  obtain ⟨hist, w, o, hrun, hcond, hwrote, htext, -⟩ := exists_overwritten [] (fun _ => true) (by decide +kernel)
  obtain ⟨a, ha, hreturns⟩ := (snapshot_reads_right _ _ Codecs.stored_lossless.zstd SpaceEnv.stored_jsonText
    hrun hcond id id ("s", "t", "r") 2).1 2 o hwrote le_rfl fun _ _ _ hle => hle
  exact ⟨hist, w, o, a, hrun, hcond, hwrote, htext, ha, hreturns⟩

/-- The second write is committed while an immutable memtable still holds the first, which is flushed as the second
version: once a third write has replaced the second in the active memtable, a read at version 2 answers the body of
version 1. -/
theorem snapshot_reads_stale : ∃ hist w o a, Run (NodeOp.step .stored .stored) {} hist w ∧
    (∀ x ∈ hist, x.2.1.whole = true ∧ x.2.1.apart .stored x.1 = true ∧ x.2.1.collects = false ∧ x.2.1.Fits .stored) ∧
    Wrote Env.stored hist ("s", "t", "r") 2 o ∧ o.body.map Env.stored.jsonText = some "\"a\"" ∧
    Read.readAtSnapshot .stored w.mems w.store ⟨w.bucket, id, id⟩ ("s", "t", "r") 2 = .ok (some a) ∧
    a.commitVersion = 2 ∧ a.body = utf8 "null" ∧ ¬ a.Returns Env.stored 2 o := by
  let step := guarded (NodeOp.plain [nullEntry 2]) (NodeOp.step .stored .stored)
  obtain ⟨u, u', w, hguarded, htest⟩ := Run.exists_middle_of_exec step {} (overwriteOps [])
    (.request (.commitTxn "U" fun _ => false))
    (.flush "c" 0 [nullEntry 2] :: writeOps "V" .null ++ [.request (.commitTxn "V" fun _ => false)])
    (fun u w => (u.store.getTxnState "U").any (fun row => row.status = .active) &&
      ((Engine.commitTxn Env.stored (fun _ => false) "U").run World.exec u).1.toOption = some 2 &&
      w.answerAt 2 = some (2, utf8 "null")) (by decide +kernel)
  obtain ⟨hrun, hplain⟩ := hguarded.of_guarded
  simp only [Bool.and_eq_true, decide_eq_true_eq] at htest
  obtain ⟨⟨hrow, hreply⟩, hread⟩ := htest
  obtain ⟨a, ha, hversion, hbody⟩ := World.answerAt_some hread
  have hlast : (lastOperation Env.stored (history step (overwriteOps []) {}) "U" "_xtable/s/t/r.json").any
      (fun o => o.rk = ("s", "t", "r") && o.key = "_xtable/s/t/r.json" &&
        o.body.map Env.stored.jsonText = some "\"a\"") = true := by decide +kernel
  obtain ⟨o, ho, hkind⟩ := (Option.any_eq_true ..).1 hlast
  simp only [Bool.and_eq_true, decide_eq_true_eq] at hkind
  obtain ⟨⟨hrk, hkey⟩, htext⟩ := hkind
  refine ⟨_, w, o, a, hrun, fun x hx => ?_, hrk ▸ Wrote.of_middle hrow hreply ho hkey, htext, ha, hversion, hbody, fun h => ?_⟩
  · have hx := hplain x hx
    have hfits := NodeOp.plain_fits (nullEntry_fits (.inr rfl)) hx
    simp only [NodeOp.plain, Bool.and_eq_true, Bool.not_eq_true'] at hx
    exact ⟨hx.1.1.1, hx.1.1.2, hx.1.2, hfits⟩
  · obtain ⟨body, hsome, htext⟩ := Option.map_eq_some_iff.1 htext
    have hsame := hbody.symm.trans (h.body body hsome)
    rw [htext] at hsame
    exact absurd hsame (by decide +kernel)

end Xtable
