import Xtable.Theorems.Documents

/-! A structured write stages the text of a document and notes the document; every other request only sheds what is
    staged. So the body that a commit reads is the text of the document, inline or in a spill file. -/

namespace Xtable

open Coordinator

variable {env : Env} {w w' : World} {t key : String} {row : TxnStateRecord} {r : Request}

/-- Nothing is staged or pending that was not before. -/
structure Sheds (w w' : World) : Prop where
  files : ∀ (path : String) text, w'.files[path]? = some text → w.files[path]? = some text
  blobs : ∀ (handle : String) blob, w'.store.stagedBlobs[handle]? = some blob → w.store.stagedBlobs[handle]? = some blob
  writes : ∀ (k : String × String) we, w'.store.writeSet[k]? = some we → w.store.writeSet[k]? = some we
  pending : ∀ (t : String) p, w'.pending[t]? = some p → w.pending[t]? = some p

namespace Sheds

theorem refl (w : World) : Sheds w w := ⟨fun _ _ h => h, fun _ _ h => h, fun _ _ h => h, fun _ _ h => h⟩

theorem trans {w'' : World} (h : Sheds w w') (h' : Sheds w' w'') : Sheds w w'' where
  files path text hget := h.files path text (h'.files path text hget)
  blobs handle blob hget := h.blobs handle blob (h'.blobs handle blob hget)
  writes k we hget := h.writes k we (h'.writes k we hget)
  pending t p hget := h.pending t p (h'.pending t p hget)

theorem of_eq (hfiles : w'.files = w.files) (hblobs : w'.store.stagedBlobs = w.store.stagedBlobs)
    (hwrites : w'.store.writeSet = w.store.writeSet) (hpending : w'.pending = w.pending) : Sheds w w' :=
  ⟨fun _ _ h => hfiles ▸ h, fun _ _ h => hblobs ▸ h, fun _ _ h => hwrites ▸ h, fun _ _ h => hpending ▸ h⟩

theorem dropBlob (w : World) (handle : String) : Sheds w (w.dropBlob handle) := by
  refine ⟨fun path text hget => ?_, fun _ _ h => Table.get_of_erase h, fun _ _ h => h, fun _ _ h => h⟩
  simp only [World.dropBlob] at hget
  split at hget
  · exact Table.get_of_erase hget
  · exact hget

theorem deleteWriteEntry (w : World) (t k : String) : Sheds w { w with store := w.store.deleteWriteEntry t k } :=
  ⟨fun _ _ h => h, fun _ _ h => h, fun _ _ h => Table.get_of_erase h, fun _ _ h => h⟩

theorem unpend (w : World) (t : String) : Sheds w (w.unpend t) :=
  ⟨fun _ _ h => h, fun _ _ h => h, fun _ _ h => h, fun _ _ h => Table.get_of_erase h⟩

theorem dropStaged (w : World) (t : String) (x : String × WriteSetEntry) : Sheds w (w.dropStaged t x) := by
  unfold World.dropStaged
  cases x.2.bodyHandle with
  | none => exact .deleteWriteEntry w t _
  | some handle => exact (dropBlob w handle).trans (.deleteWriteEntry _ t _)

theorem dropSpilled (w : World) (t : String) (x : String × WriteSetEntry) : Sheds w (w.dropSpilled t x) := by
  unfold World.dropSpilled
  cases x.2.bodyHandle with
  | none => exact .refl w
  | some handle => exact (dropBlob w handle).trans (.deleteWriteEntry _ t _)

theorem foldl {β : Type} {f : World → β → World} (hf : ∀ w b, Sheds w (f w b)) (l : List β) (w : World) :
    Sheds w (l.foldl f w) := by
  induction l generalizing w with
  | nil => exact .refl w
  | cons b l ih => exact (hf w b).trans (ih _)

theorem discarded (w : World) (t : String) (row : TxnStateRecord) (reason : String) : Sheds w (w.discarded t row reason) := by
  let w₁ : World := { w with store := w.store.putTxnState t { row with status := .aborted } }
  let w₂ := (w₁.store.iterWriteSet t).foldl (World.dropStaged t) w₁
  have hpin := unpinned_unregister (w₂.store.appendWal (.aborted t reason)).2 row.snapshotVersion
  have hdrop : Sheds w₁ w₂ := foldl (fun w x => dropStaged w t x) _ w₁
  have hblobs := congrArg Store.stagedBlobs hpin
  have hwrites := congrArg Store.writeSet hpin
  have hlast : Sheds w₂ (w.discarded t row reason) := of_eq rfl hblobs hwrites rfl
  have hfirst : Sheds w w₁ := of_eq rfl rfl rfl rfl
  exact hfirst.trans (hdrop.trans hlast)

theorem sweptStale (w : World) (now timeout : Int) : Sheds w (w.sweptStale now timeout) :=
  sweptStale_keeps (P := Sheds w) (fun u t row hu _ _ => hu.trans (discarded u t row _)) (.refl w) now timeout

theorem commits {aged : String → Bool} {x : Except XtableError Nat} (h : Commits env aged t w x w') : Sheds w w' := by
  obtain ⟨u, hw', hfiles, hblobs, hwrites, hpending⟩ := h.staging
  have hu : Sheds u w' := by
    rcases hw' with rfl | rfl
    · exact .refl _
    · exact foldl (fun w x => dropSpilled w t x) _ u
  refine ⟨fun _ _ h => hfiles ▸ hu.files _ _ h, fun _ _ h => hblobs ▸ hu.blobs _ _ h, fun _ _ h => hwrites ▸ hu.writes _ _ h,
    fun _ _ h => ?_⟩
  rcases hpending with heq | heq <;> rw [heq] at h
  · exact h
  · exact Table.get_of_erase h

end Sheds

/-! ## Requests -/

def Request.written : Request → Option Value
  | .registerSchema _ _ _ body | .bindTableSchema _ _ _ body | .upsertRecord _ _ _ _ _ body => some body
  | _ => none

/-- A structured write: its record and key, and the body unless it deletes. -/
structure Operation where
  txn : String
  rk : RecordKey
  key : String
  body : Option Value

def Doc.operation (t : String) (d : Doc) : Operation := ⟨t, d.rk, d.key, if d.deleted then none else some d.body⟩

def Request.operation (w : World) : Request → Option Operation
  | registerSchema t space name body =>
    (schemaKey space name (w.nextSchemaVersion t space name)).toOption.map fun key =>
      ⟨t, (space, "_schema", schemaId name (w.nextSchemaVersion t space name)), key, some body⟩
  | bindTableSchema t space table body =>
    (schemaKey space ("_table::" ++ table) (w.nextSchemaVersion t space ("_table::" ++ table))).toOption.map fun key =>
      ⟨t, (space, "_schema", schemaId ("_table::" ++ table) (w.nextSchemaVersion t space ("_table::" ++ table))), key,
        some body⟩
  | upsertRecord t space table recordId _ body =>
    (recordKey space table recordId).toOption.map fun key => ⟨t, (space, table, recordId), key, some body⟩
  | deleteRecord t space table recordId =>
    (recordKey space table recordId).toOption.map fun key => ⟨t, (space, table, recordId), key, none⟩
  | call _ | commitTxn _ _ | abortTxn _ => none

/-- A request spills no body under the handle of another staged write of its transaction: `uuid_like` keeps twelve
bytes of a digest, so two keys may have one spill file. -/
def Request.apart (env : Env) (w : World) (r : Request) : Bool :=
  (r.operation w).all fun o => o.body.all fun body =>
    decide ((utf8 (env.jsonText body)).length ≤ spillThreshold) || (w.store.iterWriteSet o.txn).all fun x =>
      decide (x.1 = o.key) || decide (x.2.bodyHandle ≠ some (spillHandle env o.txn o.key))

theorem Request.handle_ne {d : Doc} {we : WriteSetEntry} (hr : r.apart env w = true)
    (hop : r.operation w = some (d.operation t)) (hlive : d.deleted = false)
    (hspill : spillThreshold < (utf8 (env.jsonText d.body)).length) (hwe : w.store.writeSet[(t, key)]? = some we)
    (hkey : key ≠ d.key) : we.bodyHandle ≠ some (spillHandle env t d.key) := by
  simp only [apart, hop, Doc.operation, hlive, Option.all_some, Bool.or_eq_true, decide_eq_true_eq, List.all_eq_true,
    Bool.false_eq_true, if_false] at hr
  rcases hr with hshort | hothers
  · omega
  · exact (hothers (key, we) (mem_iterWriteSet.2 hwe)).resolve_left hkey

/-- Where a new document comes from: its schema version, and its body. -/
inductive Doc.From (w : World) : Request → Doc → Prop where
  | schema {r : Request} {d : Doc} (h : d.rk.2.1 = "_schema") : From w r d
  | upsert {t space table recordId key : String} {schemaVersion : Option Nat} {body : Value}
      (hkey : recordKey space table recordId = .ok key) : From w (.upsertRecord t space table recordId schemaVersion body)
        ⟨(space, table, recordId), key, false, schemaVersion.getD 0, body⟩
  | delete {t space table recordId key : String} {cur : RecordIndexEntry}
      (hcur : w.store.getRecordIndex (space, table, recordId) = some cur) (hkey : recordKey space table recordId = .ok key) :
      From w (.deleteRecord t space table recordId) ⟨(space, table, recordId), key, true, cur.schemaVersion, .null⟩

/-- A structured request sheds what is staged, or it stages the text of a document and notes the document. -/
inductive StagingStep (env : Env) (w : World) (r : Request) : World → Prop where
  | shed {w' : World} (h : Sheds w w') : StagingStep env w r w'
  | noted {t : String} {row : TxnStateRecord} {d : Doc} {body : Bytes} {contentType : Option String}
      {userMeta : List (String × String)} {p : PendingTxn} (hop : r.operation w = some (d.operation t))
      (hrow : w.store.getTxnState t = some row) (hst : row.status = .active)
      (hdocs : ∀ d' ∈ p.docs, d' ∈ (w.pendingOf t).docs ∨ d' = d)
      (hdoc : ∀ k, p.docAt k = if d.key = k then some d else (w.pendingOf t).docAt k)
      (hbody : (d.deleted = false ∧ r.written = some d.body ∧ body = utf8 (env.jsonText d.body)) ∨
        (d.deleted = true ∧ body = [])) (hfrom : d.From w r) :
      StagingStep env w r
        { w.staged env t d.key body contentType userMeta d.deleted row with pending := w.pending.insert t p }

theorem PendingTxn.mem_docs_addRecord {p : PendingTxn} {q : PendingRecord} {d : Doc} (hd : d ∈ (p.addRecord q).docs) :
    d ∈ p.docs ∨ d = q.doc := by
  simp only [docs, addRecord, List.map_append, List.map_cons, List.map_nil, List.mem_append, List.mem_singleton] at hd ⊢
  tauto

theorem PendingTxn.mem_docs_addSchema {p : PendingTxn} {q : PendingSchema} {d : Doc} (hd : d ∈ (p.addSchema q).docs) :
    d ∈ p.docs ∨ d = q.doc := by
  simp only [docs, addSchema, List.map_append, List.map_cons, List.map_nil, List.mem_append, List.mem_singleton] at hd ⊢
  tauto

theorem StagingStep.of_effect (hdrafts : Drafts w) (hr : r.structured = true) (he : RequestEffect env w r w') :
    StagingStep env w r w' := by
  cases he with
  | unchanged => exact .shed (.refl w)
  | call hc =>
    cases hc with
    | unchanged => exact .shed (.refl w)
    | begin | heartbeat => exact .shed (.of_eq rfl rfl rfl rfl)
    | stage | commit | abort => cases hr
    | read hrow =>
      rw [noteRead_eq hrow]
      exact .shed (.of_eq rfl rfl rfl rfl)
    | sweepStale => exact .shed (.sweptStale ..)
    | @sweep now timeout => exact .shed ((Sheds.sweptStale w now timeout).trans (.of_eq rfl rfl rfl rfl))
  | @schema _ t space name key body row hreq hkey hrow hst =>
    have hwritten : r.written = some body := by rcases hreq with rfl | ⟨table, -, rfl⟩ <;> rfl
    let q : PendingSchema := ⟨space, name, w.nextSchemaVersion t space name, body, key⟩
    have hop : r.operation w = some (q.doc.operation t) := by
      rcases hreq with rfl | ⟨table, rfl, rfl⟩ <;> simp only [Request.operation, hkey] <;> rfl
    exact .noted (d := q.doc) hop hrow hst (fun _ => PendingTxn.mem_docs_addSchema) (PendingTxn.docAt_addSchema q)
      (.inl ⟨rfl, hwritten, rfl⟩) (.schema rfl)
  | @upsert t space table recordId key schemaVersion body row hkey hrow hst =>
    let q : PendingRecord := ⟨space, table, recordId, schemaVersion.getD 0, body, false, key⟩
    have hop : (Request.upsertRecord t space table recordId schemaVersion body).operation w = some (q.doc.operation t) := by
      simp only [Request.operation, hkey]
      rfl
    exact .noted (d := q.doc) hop hrow hst (fun _ => PendingTxn.mem_docs_addRecord)
      (PendingTxn.docAt_addRecord (hdrafts.active t row hrow hst).keyed (r := q) hkey) (.inl ⟨rfl, rfl, rfl⟩) (.upsert hkey)
  | @delete t space table recordId key cur row hcur hkey hrow hst =>
    let q : PendingRecord := ⟨space, table, recordId, cur.schemaVersion, .null, true, key⟩
    have hop : (Request.deleteRecord t space table recordId).operation w = some (q.doc.operation t) := by
      simp only [Request.operation, hkey]
      rfl
    exact .noted (d := q.doc) hop hrow hst (fun _ => PendingTxn.mem_docs_addRecord)
      (PendingTxn.docAt_addRecord (hdrafts.active t row hrow hst).keyed (r := q) hkey) (.inr ⟨rfl, rfl⟩) (.delete hcur hkey)
  | commitFails hc => exact .shed (.commits hc)
  | commit hc => exact .shed ((Sheds.commits hc).trans (.unpend _ _))
  | @abort t row =>
    have hforget : Sheds (w.discarded t row "explicit abort") ((w.discarded t row "explicit abort").forget t) :=
      .of_eq rfl rfl rfl rfl
    exact .shed ((Sheds.discarded w t row "explicit abort").trans (hforget.trans (.unpend _ t)))
  | abortFails => exact .shed (.unpend w _)

/-! ## The body of a document -/

theorem spillPath_inj {handle handle' : String} (h : spillPath env handle = spillPath env handle') : handle = handle' := by
  have hlists := congrArg String.toList h
  simp only [spillPath, String.toList_append, List.append_cancel_left_eq] at hlists
  exact String.toList_inj.1 hlists

/-- A staged write holds a text, inline or in the spill file of its key. -/
def WriteSetEntry.Stages (env : Env) (files : Table String Bytes) (t key : String) (we : WriteSetEntry) (text : Bytes) : Prop :=
  we.inlineBody = some text ∨ (we.inlineBody = none ∧ we.bodyHandle = some (spillHandle env t key) ∧
    ∀ b, files[spillPath env (spillHandle env t key)]? = some b → b = text)

/-- The staged write of a document that stands holds its text. -/
structure Bodies (env : Env) (w : World) : Prop where
  blobs : ∀ (handle : String) blob, w.store.stagedBlobs[handle]? = some blob → blob.path = spillPath env handle
  texts : ∀ (t key : String) we d, w.store.writeSet[(t, key)]? = some we → (w.pendingOf t).docAt key = some d →
    d.deleted = false → we.Stages env w.files t key (utf8 (env.jsonText d.body))

theorem pending_of_docAt {d : Doc} (hd : (w.pendingOf t).docAt key = some d) : ∃ p, w.pending[t]? = some p ∧ w.pendingOf t = p := by
  unfold World.pendingOf at hd ⊢
  cases hp : w.pending[t]? with
  | none => simp [hp, PendingTxn.docAt, PendingTxn.docs] at hd
  | some p => exact ⟨p, rfl, rfl⟩

namespace Bodies

theorem empty : Bodies env {} := by
  refine ⟨fun handle blob hblob => ?_, fun t key we d hwe => ?_⟩
  · simp at hblob
  · simp at hwe

theorem shed (h : Bodies env w) (hs : Sheds w w') : Bodies env w' where
  blobs handle blob hblob := h.blobs handle blob (hs.blobs handle blob hblob)
  texts t key we d hwe hd hlive := by
    obtain ⟨p, hp, hsame⟩ := pending_of_docAt hd
    have hold : w.pendingOf t = p := by simp [World.pendingOf, hs.pending t p hp]
    rw [hsame, ← hold] at hd
    refine (h.texts t key we d (hs.writes _ we hwe) hd hlive).imp id ?_
    rintro ⟨hinline, hhandle, hfile⟩
    exact ⟨hinline, hhandle, fun b hb => hfile b (hs.files _ b hb)⟩

theorem noted {d : Doc} {body : Bytes} {contentType : Option String} {userMeta : List (String × String)} {p : PendingTxn}
    (h : Bodies env w) (hdoc : ∀ k, p.docAt k = if d.key = k then some d else (w.pendingOf t).docAt k)
    (hbody : d.deleted = false → body = utf8 (env.jsonText d.body))
    (hapart : spillThreshold < body.length → ∀ (k : String) we, w.store.writeSet[(t, k)]? = some we → k ≠ d.key →
      we.bodyHandle ≠ some (spillHandle env t d.key)) :
    Bodies env { w.staged env t d.key body contentType userMeta d.deleted row with pending := w.pending.insert t p } := by
  set w' : World := { w.staged env t d.key body contentType userMeta d.deleted row with pending := w.pending.insert t p }
  have hset : w'.store.writeSet = w.store.writeSet.insert (t, d.key)
      (writeEntry d.key body (stagedHandle env t d.key body) contentType userMeta d.deleted) := writeSet_staged w.store
  have hblobs : w'.store.stagedBlobs = if spillThreshold < body.length then
      w.store.stagedBlobs.insert (spillHandle env t d.key) ⟨spillPath env (spillHandle env t d.key), body.length⟩
      else w.store.stagedBlobs := stagedBlobs_staged w.store
  have hfiles : w'.files = if spillThreshold < body.length then w.files.insert (spillPath env (spillHandle env t d.key)) body
      else w.files := rfl
  refine ⟨fun handle blob hblob => ?_, fun t' k we d' hwe hd' hlive => ?_⟩
  · rw [hblobs] at hblob
    split at hblob
    case isTrue =>
      rw [Table.get_insert] at hblob
      split at hblob
      case isTrue hhandle =>
        cases hblob
        rw [hhandle]
      case isFalse => exact h.blobs handle blob hblob
    case isFalse => exact h.blobs handle blob hblob
  · rw [hset, Table.get_insert] at hwe
    by_cases hown : (t, d.key) = (t', k)
    · -- the write that was just staged
      obtain ⟨rfl, rfl⟩ := Prod.mk.inj hown
      rw [if_pos rfl] at hwe
      cases hwe
      have hpend : w'.pendingOf t = p := by simp [World.pendingOf, w']
      rw [hpend, hdoc, if_pos rfl] at hd'
      cases hd'
      obtain rfl := hbody hlive
      by_cases hspill : spillThreshold < (utf8 (env.jsonText d.body)).length
      · refine .inr ⟨by simp [writeEntry, stagedHandle, hspill], by simp [writeEntry, stagedHandle, hspill], fun b hb => ?_⟩
        rw [hfiles, if_pos hspill, Table.get_insert, if_pos rfl] at hb
        exact (Option.some.inj hb).symm
      · exact .inl (by simp [writeEntry, stagedHandle, hspill])
    · rw [if_neg hown] at hwe
      have hold : (w.pendingOf t').docAt k = some d' := by
        by_cases ht : t = t'
        · subst ht
          have hpend : w'.pendingOf t = p := by simp [World.pendingOf, w']
          have hk : d.key ≠ k := fun heq => hown (by rw [heq])
          rwa [hpend, hdoc, if_neg hk] at hd'
        · have hpend : w'.pendingOf t' = w.pendingOf t' := by simp [World.pendingOf, w', ht]
          rwa [hpend] at hd'
      refine (h.texts t' k we d' hwe hold hlive).imp id ?_
      rintro ⟨hinline, hhandle, hfile⟩
      refine ⟨hinline, hhandle, fun b hb => hfile b ?_⟩
      rw [hfiles] at hb
      split at hb
      case isFalse => exact hb
      case isTrue hspill =>
        rw [Table.get_insert, if_neg] at hb
        · exact hb
        · intro hpath
          have hsame := spillPath_inj hpath
          obtain rfl := spillHandle_inj hsame
          exact hapart hspill k we hwe (fun heq => hown (by rw [heq])) (hsame ▸ hhandle)

theorem step (h : Bodies env w) (hr : r.apart env w = true) (hstep : StagingStep env w r w') : Bodies env w' := by
  cases hstep with
  | shed hs => exact h.shed hs
  | noted hop _ _ _ hdoc hbody =>
    rcases hbody with ⟨hlive, -, rfl⟩ | ⟨hdeleted, rfl⟩
    · exact h.noted hdoc (fun _ => rfl) fun hspill k we hwe hk => r.handle_ne hr hop hlive hspill hwe hk
    · exact h.noted hdoc (by simp [hdeleted]) (by simp)

theorem stagedBody (h : Bodies env w) {we : WriteSetEntry} {d : Doc} {b : Bytes}
    (hwe : w.store.writeSet[(t, key)]? = some we) (hd : (w.pendingOf t).docAt key = some d) (hlive : d.deleted = false)
    (hb : w.stagedBody we = .ok b) : b = utf8 (env.jsonText d.body) := by
  unfold World.stagedBody at hb
  rcases h.texts t key we d hwe hd hlive with hinline | ⟨hinline, hhandle, hfile⟩
  · rw [hinline] at hb
    exact (Except.ok.inj hb).symm
  · rw [hinline, hhandle] at hb
    cases hblob : w.store.getBlob (spillHandle env t key) with
    | none => simp [hblob] at hb
    | some blob =>
      cases hget : w.files[blob.path]? with
      | none => simp [hblob, hget] at hb
      | some text =>
        simp only [hblob, hget] at hb
        rw [h.blobs _ blob hblob] at hget
        obtain rfl := Except.ok.inj hb
        exact hfile text hget

end Bodies

/-! ## Spilled bodies -/

section Spills

variable {env : Env} {w w' : World} {t key : String} {row : TxnStateRecord} {c : Call}

theorem stagedBodies_ne_error {ws : WriteSet} (h : ∀ x ∈ ws, ∃ body, w.stagedBody x.2 = .ok body)
    (bodies : Table String Bytes) (x : XtableError) : w.stagedBodies bodies ws ≠ .error x := by
  induction ws generalizing bodies with
  | nil => simp [World.stagedBodies]
  | cons entry ws ih =>
    obtain ⟨body, hbody⟩ := h entry List.mem_cons_self
    simp only [World.stagedBodies, hbody]
    exact ih (fun x hx => h x (List.mem_cons_of_mem _ hx)) _

/-- A spill file is there. -/
def World.Spilled (w : World) (handle : String) : Prop :=
  ∃ blob, w.store.getBlob handle = some blob ∧ w.files[blob.path]? ≠ none

/-- The spill files of a transaction are named after it, and are there as long as it is active. -/
structure Spills (env : Env) (w : World) : Prop where
  paths : ∀ handle blob, w.store.getBlob handle = some blob → blob.path = spillPath env handle
  writes : ∀ (t k : String) we, w.store.writeSet[(t, k)]? = some we → ∃ row, w.store.getTxnState t = some row ∧
    ∀ handle, we.bodyHandle = some handle → (∃ k', handle = spillHandle env t k') ∧ (row.status = .active → w.Spilled handle)

namespace Spills

theorem stagedBodies_ok (h : Spills env w) (hrow : w.store.getTxnState t = some row) (hst : row.status = .active)
    (x : XtableError) : w.stagedBodies ∅ (w.store.iterWriteSet t) ≠ .error x := by
  refine stagedBodies_ne_error (fun entry hentry => ?_) ∅ x
  obtain ⟨row', hrow', hhandle⟩ := h.writes t entry.1 entry.2 (mem_iterWriteSet.1 hentry)
  cases hrow.symm.trans hrow'
  unfold World.stagedBody
  split
  case h_1 | h_2 => exact ⟨_, rfl⟩
  case h_3 handle _ hsome =>
    obtain ⟨blob, hblob, hfile⟩ := (hhandle handle hsome).2 hst
    obtain ⟨body, hbody⟩ := Option.ne_none_iff_exists'.1 hfile
    exact ⟨body, by simp only [hblob, hbody]⟩

theorem shed (h : Spills env w) (hs : Sheds w w') (hrows : ∀ t row, w.store.getTxnState t = some row →
      ∃ row', w'.store.getTxnState t = some row' ∧ (row'.status = .active → row.status = .active ∧
        ∀ k, w.Spilled (spillHandle env t k) → w'.Spilled (spillHandle env t k))) : Spills env w' := by
  refine ⟨fun handle blob hblob => h.paths handle blob (hs.blobs handle blob hblob), fun t k we hwe => ?_⟩
  obtain ⟨row, hrow, hhandle⟩ := h.writes t k we (hs.writes _ we hwe)
  obtain ⟨row', hrow', hkeep⟩ := hrows t row hrow
  refine ⟨row', hrow', fun handle hsome => ?_⟩
  obtain ⟨⟨k', rfl⟩, hspilled⟩ := hhandle handle hsome
  exact ⟨⟨k', rfl⟩, fun hst' => (hkeep hst').2 k' (hspilled (hkeep hst').1)⟩

theorem staged {body : Bytes} {contentType : Option String} {userMeta : List (String × String)} {deleted : Bool}
    (h : Spills env w) (hrow : w.store.getTxnState t = some row) (hst : row.status = .active) :
    Spills env (w.staged env t key body contentType userMeta deleted row) := by
  let w₁ := w.staged env t key body contentType userMeta deleted row
  have hrows : ∀ t', w₁.store.getTxnState t' = if t = t' then some (row.withWriteKey key) else w.store.getTxnState t' :=
    txnState_staged hrow
  have hset : w₁.store.writeSet = _ := writeSet_staged w.store
  have hblobs : ∀ handle, w₁.store.getBlob handle =
      if spillThreshold < body.length ∧ spillHandle env t key = handle then some ⟨spillPath env handle, body.length⟩
      else w.store.getBlob handle := by
    intro handle
    have hstaged : w₁.store.stagedBlobs = _ := stagedBlobs_staged w.store
    rw [Store.getBlob, hstaged]
    by_cases hspill : spillThreshold < body.length <;> by_cases hhandle : spillHandle env t key = handle <;>
      simp [hspill, hhandle, Store.getBlob]
  have hpaths : ∀ handle blob, w₁.store.getBlob handle = some blob → blob.path = spillPath env handle := by
    intro handle blob hblob
    rw [hblobs] at hblob
    split at hblob
    · cases hblob
      rfl
    · exact h.paths handle blob hblob
  have hkept : ∀ handle, w.Spilled handle ∨ spillThreshold < body.length ∧ spillHandle env t key = handle → w₁.Spilled handle := by
    intro handle hor
    by_cases hnew : spillThreshold < body.length ∧ spillHandle env t key = handle
    · refine ⟨_, (hblobs handle).trans (if_pos hnew), ?_⟩
      simp [w₁, World.staged, hnew]
    · obtain ⟨blob, hblob, hfile⟩ := hor.resolve_right hnew
      refine ⟨blob, (hblobs handle).trans ((if_neg hnew).trans hblob), ?_⟩
      simp only [w₁, World.staged]
      split
      · rw [Table.get_insert]
        split
        · simp
        · exact hfile
      · exact hfile
  refine ⟨hpaths, fun t' k we hget => ?_⟩
  have hwe : w₁.store.writeSet[(t', k)]? = some we := hget
  rw [hset, Table.get_insert] at hwe
  split at hwe
  case isTrue heq =>
    obtain ⟨rfl, rfl⟩ := Prod.mk.inj heq
    cases hwe
    refine ⟨_, (hrows t).trans (if_pos rfl), fun handle hsome => ?_⟩
    have hspill : spillThreshold < body.length ∧ spillHandle env t key = handle := by
      simpa [writeEntry, stagedHandle] using hsome
    exact ⟨⟨key, hspill.2.symm⟩, fun _ => hkept handle (.inr hspill)⟩
  case isFalse =>
    obtain ⟨row', hrow', hhandle⟩ := h.writes t' k we hwe
    by_cases ht : t = t'
    · subst ht
      cases hrow.symm.trans hrow'
      exact ⟨_, (hrows t).trans (if_pos rfl), fun handle hsome =>
        ⟨(hhandle handle hsome).1, fun _ => hkept handle (.inl ((hhandle handle hsome).2 hst))⟩⟩
    · exact ⟨row', (hrows t').trans ((if_neg ht).trans hrow'), fun handle hsome =>
        ⟨(hhandle handle hsome).1, fun hst' => hkept handle (.inl ((hhandle handle hsome).2 hst'))⟩⟩

theorem spilled_foldl {f : World → String × WriteSetEntry → World} {handle : String} (hs : ∀ w x, Sheds w (f w x))
    (hf : ∀ w x, ((f w x).store.stagedBlobs, (f w x).files) =
      ((x.2.bodyHandle.elim w w.dropBlob).store.stagedBlobs, (x.2.bodyHandle.elim w w.dropBlob).files))
    {ws : WriteSet} (hws : ∀ x ∈ ws, x.2.bodyHandle ≠ some handle)
    (hpaths : ∀ handle blob, w.store.getBlob handle = some blob → blob.path = spillPath env handle)
    (h : w.Spilled handle) : (ws.foldl f w).Spilled handle := by
  induction ws generalizing w with
  | nil => exact h
  | cons x ws ih =>
    refine ih (fun y hy => hws y (List.mem_cons_of_mem _ hy))
      (fun handle blob hblob => hpaths handle blob ((hs w x).blobs handle blob hblob)) ?_
    obtain ⟨hblobs, hfiles⟩ := Prod.mk.inj (hf w x)
    rw [World.Spilled, Store.getBlob, hblobs, hfiles]
    cases hhandle : x.2.bodyHandle with
    | none => exact h
    | some other =>
      obtain ⟨blob, hblob, hfile⟩ := h
      have hne : other ≠ handle := fun heq => hws x List.mem_cons_self (heq ▸ hhandle)
      refine ⟨blob, (Table.get_erase ..).trans ((if_neg hne).trans hblob), ?_⟩
      simp only [Option.elim_some, World.dropBlob]
      cases hother : w.store.getBlob other with
      | none => exact hfile
      | some blob' =>
        have hpath : blob'.path ≠ blob.path := by
          rw [hpaths other blob' hother, hpaths handle blob hblob]
          exact fun heq => hne (spillPath_inj heq)
        simp only
        rw [Table.get_erase, if_neg hpath]
        exact hfile

theorem apart (h : Spills env w) {t' k : String} (ht : t ≠ t') :
    ∀ x ∈ w.store.iterWriteSet t, x.2.bodyHandle ≠ some (spillHandle env t' k) := by
  rintro ⟨k', we⟩ hx hsome
  obtain ⟨_, _, hhandle⟩ := h.writes t k' we (mem_iterWriteSet.1 hx)
  obtain ⟨⟨k'', heq⟩, -⟩ := hhandle _ hsome
  exact ht (spillHandle_inj heq).symm

theorem discarded (h : Spills env w) (t : String) (row : TxnStateRecord) (reason : String) :
    Spills env (w.discarded t row reason) := by
  refine h.shed (.discarded w t row reason) fun t' row' hrow' => ?_
  have hrows : (w.discarded t row reason).store.getTxnState t' = _ := txnState_discarded w reason t'
  by_cases ht : t = t'
  · exact ⟨_, hrows.trans (if_pos ht), fun hst => by cases hst⟩
  · refine ⟨row', hrows.trans ((if_neg ht).trans hrow'), fun hst => ⟨hst, fun k hspilled => ?_⟩⟩
    let w₁ : World := { w with store := w.store.putTxnState t { row with status := .aborted } }
    have hfold : ((w₁.store.iterWriteSet t).foldl (World.dropStaged t) w₁).Spilled (spillHandle env t' k) := by
      refine spilled_foldl (fun w x => .dropStaged w t x) (fun w x => ?_) (h.apart ht) h.paths hspilled
      unfold World.dropStaged
      cases x.2.bodyHandle <;> rfl
    obtain ⟨blob, hblob, hfile⟩ := hfold
    have hpin := congrArg (fun s : Store => s.getBlob (spillHandle env t' k)) (unpinned_unregister
      (((w₁.store.iterWriteSet t).foldl (World.dropStaged t) w₁).store.appendWal (.aborted t reason)).2 row.snapshotVersion)
    exact ⟨blob, hpin.trans hblob, hfile⟩

theorem sweptStale (h : Spills env w) (now timeout : Int) : Spills env (w.sweptStale now timeout) :=
  sweptStale_keeps (fun _ t row hu _ _ => hu.discarded t row _) h now timeout

theorem commits {aged : String → Bool} {r : Except XtableError Nat} (h : Spills env w) (hc : Commits env aged t w r w') :
    Spills env w' := by
  refine h.shed (.commits hc) fun t' row' hrow' => ?_
  rcases hc.rows with ⟨rfl, -⟩ | ⟨row, row₁, -, -, hrow₁, hrows⟩
  · exact ⟨row', hrow', fun hst => ⟨hst, fun _ hspilled => hspilled⟩⟩
  by_cases ht : t = t'
  · refine ⟨row₁, (hrows t').trans (if_pos ht), fun hst => ?_⟩
    rcases hrow₁ with rfl | rfl <;> cases hst
  · refine ⟨row', (hrows t').trans ((if_neg ht).trans hrow'), fun hst => ⟨hst, fun k hspilled => ?_⟩⟩
    obtain ⟨u, hw', hfiles, hblobs, -⟩ := hc.staging
    have hu : u.Spilled (spillHandle env t' k) := by
      rw [World.Spilled, Store.getBlob, hblobs, hfiles]
      exact hspilled
    rcases hw' with rfl | rfl
    · exact hu
    · refine spilled_foldl (fun w x => .dropSpilled w t x) (fun w x => ?_) (h.apart ht)
        (fun handle blob hblob => h.paths handle blob ?_) hu
      · unfold World.dropSpilled
        cases x.2.bodyHandle <;> rfl
      · rw [Store.getBlob, ← hblobs]
        exact hblob

theorem call (h : Spills env w) (he : CallEffect env w c w') : Spills env w' := by
  have hsame : ∀ {t₀ : String} {row₀ : TxnStateRecord} {u : World},
      (∀ t, u.store.getTxnState t = if t₀ = t then some row₀ else w.store.getTxnState t) →
      (∀ row, w.store.getTxnState t₀ = some row → row₀.status = row.status) → u.store.stagedBlobs = w.store.stagedBlobs →
      u.store.writeSet = w.store.writeSet → u.files = w.files → u.pending = w.pending → Spills env u := by
    intro t₀ row₀ u hrows hst hblobs hwrites hfiles hpending
    have hspilled : ∀ handle, w.Spilled handle → u.Spilled handle := by
      intro handle hspilled
      rw [World.Spilled, Store.getBlob, hblobs, hfiles]
      exact hspilled
    refine h.shed (.of_eq hfiles hblobs hwrites hpending) fun t row hrow => ?_
    by_cases ht : t₀ = t
    · subst ht
      exact ⟨row₀, (hrows t₀).trans (if_pos rfl), fun hactive => ⟨hst row hrow ▸ hactive, fun k => hspilled _⟩⟩
    · exact ⟨row, (hrows t).trans ((if_neg ht).trans hrow), fun hactive => ⟨hactive, fun k => hspilled _⟩⟩
  cases he with
  | unchanged => exact h
  | begin hnone => exact hsame txnState_begun (fun row hrow => by cases hnone.symm.trans hrow) rfl rfl rfl rfl
  | stage hrow hst => exact h.staged hrow hst
  | read hrow =>
    rw [noteRead_eq hrow]
    refine hsame (txnState_put _ _ _) (fun row' hrow' => ?_) rfl rfl rfl rfl
    cases hrow.symm.trans hrow'
    simp
  | heartbeat hrow =>
    refine hsame (txnState_put _ _ _) (fun row' hrow' => ?_) rfl rfl rfl rfl
    cases hrow.symm.trans hrow'
    rfl
  | commit hc => exact h.commits hc
  | @abort t₀ row =>
    have hdone := h.discarded t₀ row "explicit abort"
    exact ⟨hdone.paths, hdone.writes⟩
  | sweepStale => exact h.sweptStale _ _
  | @sweep now timeout =>
    have hdone := h.sweptStale now timeout
    exact ⟨hdone.paths, hdone.writes⟩

end Spills

end Spills

theorem spills_of_calls {env : Env} {hist : List (World × Call × World)} {w : World} (hrun : Run (Call.step env) {} hist w) :
    Spills env w := by
  have hempty : Spills env {} := ⟨by simp [Store.getBlob], by simp⟩
  refine (hrun.invariant (I := fun u => Inv True u (fun _ => none) ∧ Spills env u) (C := fun _ _ => True)
    ⟨World.inv_empty True, hempty⟩ (fun u c v hu _ hstep => ?_) fun _ _ => trivial).1.2
  exact ⟨hu.1.call_step hstep, hu.2.call (.of_step hu.1 hstep)⟩

end Xtable
