import Xtable.Theorems.Bodies
import Xtable.Theorems.Memtables
import Xtable.Theorems.Schemas
import Xtable.Schema.Space

/-! A schema document has one version, so whatever answers a read of it answers the same version, with a body that
    was staged and can be read back. -/

namespace Xtable

open Coordinator

variable {e : SpaceEnv} {w w' : World} {t space name key : String} {row : TxnStateRecord}

/-! ## Texts that can be read back -/

/-- `serde_json` reads the text. -/
def SpaceEnv.Reads (e : SpaceEnv) (text : Bytes) : Prop := text ≠ [] ∧ ∃ v, e.fromSlice text = .ok v

/-- What is staged and pending can be read back. -/
structure Texts (e : SpaceEnv) (w : World) : Prop where
  files : ∀ (path : String) text, w.files[path]? = some text → e.Reads text
  writes : ∀ (k : String × String) we, w.store.writeSet[k]? = some we → we.deleted = false →
    (∃ b, we.inlineBody = some b ∧ e.Reads b) ∨ (we.inlineBody = none ∧ we.bodyHandle ≠ none)
  pending : ∀ (t : String) p, w.pending[t]? = some p → ∀ d ∈ p.docs, d.deleted = false → e.Reads (utf8 (e.jsonText d.body))

namespace Texts

theorem shed (h : Texts e w) (hs : Sheds w w') : Texts e w' :=
  ⟨fun path text hget => h.files path text (hs.files path text hget),
    fun k we hget => h.writes k we (hs.writes k we hget), fun t p hp => h.pending t p (hs.pending t p hp)⟩

theorem pendingOf (h : Texts e w) {d : Doc} (hd : d ∈ (w.pendingOf t).docs) (hlive : d.deleted = false) :
    e.Reads (utf8 (e.jsonText d.body)) := by
  unfold World.pendingOf at hd
  cases hp : w.pending[t]? with
  | none => simp [hp, PendingTxn.docs] at hd
  | some p =>
    rw [hp] at hd
    exact h.pending t p hp d hd hlive

theorem noted {body : Bytes} {contentType : Option String} {userMeta : List (String × String)} {p : PendingTxn} {d : Doc}
    (h : Texts e w) (hbody : d.deleted = false → e.Reads body) (hspill : spillThreshold < body.length → e.Reads body)
    (hdocs : ∀ d' ∈ p.docs, d' ∈ (w.pendingOf t).docs ∨ (d'.deleted = false → e.Reads (utf8 (e.jsonText d'.body)))) :
    Texts e { w.staged e.toEnv t key body contentType userMeta d.deleted row with pending := w.pending.insert t p } := by
  refine ⟨fun path text hget => ?_, fun k we hget hlive => ?_, fun t' p' hp d' hd' hlive => ?_⟩
  · simp only [World.staged] at hget
    split at hget
    case isTrue hlong =>
      rw [Table.get_insert] at hget
      split at hget
      · cases hget
        exact hspill hlong
      · exact h.files path text hget
    case isFalse => exact h.files path text hget
  · have hset : (w.store.staged e.toEnv t key body contentType userMeta d.deleted row).writeSet =
        w.store.writeSet.insert (t, key) (writeEntry key body (stagedHandle e.toEnv t key body) contentType userMeta d.deleted) :=
      writeSet_staged w.store
    simp only [World.staged, hset, Table.get_insert] at hget
    split at hget
    · cases hget
      cases hhandle : stagedHandle e.toEnv t key body with
      | none => exact .inl ⟨body, by simp [writeEntry], hbody hlive⟩
      | some handle => exact .inr ⟨by simp [writeEntry], by simp [writeEntry]⟩
    · exact h.writes k we hget hlive
  · rw [Table.get_insert] at hp
    split at hp
    · cases hp
      rcases hdocs d' hd' with hold | hnew
      · exact h.pendingOf hold hlive
      · exact hnew hlive
    · exact h.pending t' p' hp d' hd' hlive

theorem step {r : Request} (h : Texts e w) (hbody : ∀ body, r.written = some body → e.Reads (utf8 (e.jsonText body)))
    (hstep : StagingStep e.toEnv w r w') : Texts e w' := by
  cases hstep with
  | shed hs => exact h.shed hs
  | @noted t row d body contentType userMeta p _ _ _ hdocs _ hstaged _ =>
    rcases hstaged with ⟨-, hwritten, rfl⟩ | ⟨hdeleted, rfl⟩
    · have hreads := hbody d.body hwritten
      refine h.noted (fun _ => hreads) (fun _ => hreads) fun d' hd' => (hdocs d' hd').imp id ?_
      rintro rfl
      exact fun _ => hreads
    · have hdead : ∀ {P : Prop}, d.deleted = false → P := fun hlive => absurd (hlive.symm.trans hdeleted) (by simp)
      refine h.noted hdead (fun hlong => absurd hlong (by simp)) fun d' hd' => (hdocs d' hd').imp id ?_
      rintro rfl
      exact hdead

end Texts

/-! ## What is committed -/

/-- Committed documents can be read back, from the tables and from the memtables. -/
structure Shelved (e : SpaceEnv) (w : World) : Prop where
  rows : ∀ (rk : RecordKey) (v : Nat) row, w.store.recordVersions[(rk, v)]? = some row → row.entry.deleted = false →
    e.Reads row.body
  known : ∀ (rk : RecordKey) row, w.store.recordIndex[rk]? = some row → ∃ key, DocKey rk key
  chunks : w.store.chunkIndex = ∅
  mems : ∀ space name i key, schemaKey space name i = .ok key → ∀ m, w.mems.Holds (space, "_schema", schemaId name i) m →
    ∃ c ∈ (w.store.readChain key).entries, m.commitVersion = (c.commitVersion : WithTop Nat) ∧ m.deleted = false ∧
      e.Reads m.value
  sole : ∀ space name i key, schemaKey space name i = .ok key → ∀ m m', w.mems.Holds (space, "_schema", schemaId name i) m →
    w.mems.Holds (space, "_schema", schemaId name i) m' → m = m'

theorem Texts.stagedBody (h : Texts e w) {k : String × String} {we : WriteSetEntry}
    (hwe : w.store.writeSet[k]? = some we) (hlive : we.deleted = false) {b : Bytes} (hb : w.stagedBody we = .ok b) :
    e.Reads b := by
  unfold World.stagedBody at hb
  rcases h.writes k we hwe hlive with ⟨b', hinline, hreads⟩ | ⟨hinline, hhandle⟩
  · rw [hinline] at hb
    cases hb
    exact hreads
  · obtain ⟨handle, hhandle⟩ := Option.ne_none_iff_exists'.1 hhandle
    rw [hinline, hhandle] at hb
    cases hblob : w.store.getBlob handle with
    | none => simp [hblob] at hb
    | some blob =>
      cases hfile : w.files[blob.path]? with
      | none => simp [hblob, hfile] at hb
      | some text =>
        simp only [hblob, hfile] at hb
        cases hb
        exact h.files _ _ hfile

theorem Draft.write_of_memKey {i : Nat} {x : String × WriteSetEntry} (hdraft : Draft w t row)
    (hkey : schemaKey space name i = .ok key) (hx : x ∈ w.store.iterWriteSet t)
    (hmk : memKey x.1 = (space, "_schema", schemaId name i)) :
    x.1 = key ∧ key ∈ row.writeKeys ∧ x.2.deleted = false := by
  have hdeleted := hdraft.writes x.1
  rw [mem_iterWriteSet.1 hx] at hdeleted
  obtain ⟨d, hd, hlive⟩ := Option.map_eq_some_iff.1 hdeleted.symm
  obtain ⟨hmem, hdkey⟩ := PendingTxn.docAt_mem hd
  have hdoc := hdraft.keyed.docKey hmem
  rw [hdkey] at hdoc
  rw [hdoc.memKey_eq] at hmk
  rw [hmk] at hdoc
  obtain rfl : x.1 = key := hdoc.key_unique (.schema hkey)
  obtain ⟨q, -, rfl, -⟩ := hdraft.keyed.docAt_of_schema hkey hd
  exact ⟨rfl, (hdraft.keys x.1).2 (by simp [hd]), hlive.symm⟩

theorem Publication.not_mem_writeKeys {env : Env} {i : Nat} (hpub : Publication env w t row w') (hdraft : Draft w t row)
    (hreg : Registry w) (hkey : schemaKey space name i = .ok key) (hne : (w.store.readChain key).entries ≠ []) :
    key ∉ row.writeKeys := by
  intro hmem
  have hlt := ((hpub.mem_writeKeys hdraft hreg hkey).1 hmem).1
  have hlength := hreg.documents space name i key hkey
  rw [if_neg (by omega)] at hlength
  exact hne (List.length_eq_zero_iff.1 hlength)

theorem Shelved.holds_published {env : Env} {i : Nat} {m : MemEntry} (h : Shelved e w) (hreg : Registry w)
    (hpub : Publication env w t row w') (hdraft : Draft w t row) (hkey : schemaKey space name i = .ok key)
    {aged : String → Bool} {bodies : Table String Bytes}
    (hmems : w'.mems = w.mems.published t (w.nextVersion row) bodies aged (w.store.iterWriteSet t))
    (hm : w'.mems.Holds (space, "_schema", schemaId name i) m) :
    (∃ x ∈ w.store.iterWriteSet t, memKey x.1 = (space, "_schema", schemaId name i) ∧
      m = memEntry t (w.nextVersion row) bodies x.1 x.2) ∨
    (w.mems.Holds (space, "_schema", schemaId name i) m ∧ key ∉ row.writeKeys) := by
  rw [hmems] at hm
  rcases hm.of_published with hx | ⟨m', hm', hcase⟩
  · exact .inl hx
  · obtain ⟨c, hc, -⟩ := h.mems space name i key hkey m' hm'
    have hfresh := hpub.not_mem_writeKeys hdraft hreg hkey (List.ne_nil_of_mem hc)
    rcases hcase with ⟨-, rfl⟩ | ⟨⟨x, hx, hmk⟩, -⟩
    · exact .inr ⟨hm', hfresh⟩
    · exact absurd (hdraft.write_of_memKey hkey hx hmk).2.1 hfresh

theorem Shelved.mems_published {env : Env} {i : Nat} {m : MemEntry} (h : Shelved e w) (ht : Texts e w) (hreg : Registry w)
    (hpub : Publication env w t row w') (hdraft : Draft w t row) (hkey : schemaKey space name i = .ok key)
    (hm : w'.mems.Holds (space, "_schema", schemaId name i) m) :
    ∃ c ∈ (w'.store.readChain key).entries, m.commitVersion = (c.commitVersion : WithTop Nat) ∧ m.deleted = false ∧
      e.Reads m.value := by
  obtain ⟨aged, bodies, hbodies, hmems⟩ := hpub.mems
  rcases h.holds_published hreg hpub hdraft hkey hmems hm with ⟨x, hx, hmk, rfl⟩ | ⟨hold, -⟩
  · obtain ⟨rfl, hmem, hlive⟩ := hdraft.write_of_memKey hkey hx hmk
    obtain ⟨b, hb, hget⟩ := (stagedBodies_get (nodup_iterWriteSet ..) hbodies).1 x hx
    refine ⟨chainEntry t (w.store.iterWriteSet t) x.1 (w.nextVersion row), ?_, ?_, hlive, ?_⟩
    · rw [hpub.chains, if_pos hmem]
      simp
    · simp [memEntry]
    · have hvalue : (memEntry t (w.nextVersion row) bodies x.1 x.2).value = b := by simp [memEntry, hget]
      rw [hvalue]
      exact ht.stagedBody (mem_iterWriteSet.1 hx) hlive hb
  · obtain ⟨c, hc, hentry⟩ := h.mems space name i key hkey m hold
    refine ⟨c, ?_, hentry⟩
    rw [hpub.chains]
    exact List.mem_append_left _ hc

theorem Shelved.sole_published {env : Env} {i : Nat} {m m' : MemEntry} (h : Shelved e w) (hreg : Registry w)
    (hpub : Publication env w t row w') (hdraft : Draft w t row) (hkey : schemaKey space name i = .ok key)
    (hm : w'.mems.Holds (space, "_schema", schemaId name i) m) (hm' : w'.mems.Holds (space, "_schema", schemaId name i) m') :
    m = m' := by
  obtain ⟨aged, bodies, -, hmems⟩ := hpub.mems
  rcases h.holds_published hreg hpub hdraft hkey hmems hm with ⟨x, hx, hmk, rfl⟩ | ⟨hold, hfresh⟩
  · obtain ⟨hxkey, hmem, -⟩ := hdraft.write_of_memKey hkey hx hmk
    rcases h.holds_published hreg hpub hdraft hkey hmems hm' with ⟨y, hy, hmk', rfl⟩ | ⟨-, hfresh⟩
    · obtain ⟨hykey, -⟩ := hdraft.write_of_memKey hkey hy hmk'
      have hsame := (mem_iterWriteSet.1 hx).symm.trans (hxkey.trans hykey.symm ▸ mem_iterWriteSet.1 hy)
      rw [hxkey, hykey, Option.some.inj hsame]
    · exact absurd hmem hfresh
  · rcases h.holds_published hreg hpub hdraft hkey hmems hm' with ⟨y, hy, hmk', rfl⟩ | ⟨hold', -⟩
    · exact absurd (hdraft.write_of_memKey hkey hy hmk').2.1 hfresh
    · exact h.sole space name i key hkey m m' hold hold'

theorem Shelved.step (h : Shelved e w) (ht : Texts e w) (hs : Structured w) (hreg : Registry w)
    (hc : CatalogStep e.toEnv w w') : Shelved e w' where
  rows rk v r hr hlive := by
    rcases hc.row_cases hs.drafts hr with hold | ⟨t, row, hpub, d, hd, -, -, rfl⟩
    · exact h.rows rk v r hold hlive
    · exact ht.pendingOf hd hlive
  known rk r hr := by
    rcases hc.latest_cases hs.drafts hs.agrees hr with hold | ⟨t, row, hpub, d, hd, rfl, -⟩
    · exact h.known rk r hold
    · exact ⟨d.key, (hs.drafts.active t row hpub.found hpub.active).keyed.docKey hd⟩
  chunks := hc.chunks.trans h.chunks
  mems space name i key hkey m hm := by
    rcases hc.mems_cases with hmems | ⟨t, row, hpub⟩
    · rw [hmems] at hm
      obtain ⟨c, hmem, hcv⟩ := h.mems space name i key hkey m hm
      rw [hc.schema_chain hs.drafts hreg hkey (List.ne_nil_of_mem hmem)]
      exact ⟨c, hmem, hcv⟩
    · exact h.mems_published ht hreg hpub (hs.drafts.active t row hpub.found hpub.active) hkey hm
  sole space name i key hkey m m' hm hm' := by
    rcases hc.mems_cases with hmems | ⟨t, row, hpub⟩
    · rw [hmems] at hm hm'
      exact h.sole space name i key hkey m m' hm hm'
    · exact h.sole_published hreg hpub (hs.drafts.active t row hpub.found hpub.active) hkey hm hm'

/-! ## Documents -/

/-- What a read of a document finds: its memtable entry, or else its historical row. -/
def World.Document (w : World) (rk : RecordKey) (v : Nat) (body : Bytes) : Prop :=
  (∃ m, w.mems.Holds rk m ∧ m.value = body) ∨
    ((∀ m, ¬ w.mems.Holds rk m) ∧ ∃ r, w.store.recordVersions[(rk, v)]? = some r ∧ r.body = body)

theorem Shelved.document_unique {i v : Nat} {body body' : Bytes} (h : Shelved e w)
    (hkey : schemaKey space name i = .ok key) (hd : w.Document (space, "_schema", schemaId name i) v body)
    (hd' : w.Document (space, "_schema", schemaId name i) v body') : body = body' := by
  rcases hd with ⟨m, hm, rfl⟩ | ⟨hnone, r, hr, rfl⟩
  · rcases hd' with ⟨m', hm', rfl⟩ | ⟨hnone, -⟩
    · rw [h.sole space name i key hkey m m' hm hm']
    · exact absurd hm (hnone m)
  · rcases hd' with ⟨m', hm', -⟩ | ⟨-, r', hr', rfl⟩
    · exact absurd hm' (hnone m')
    · rw [Option.some.inj (hr.symm.trans hr')]

theorem Shelved.holds_iff {i : Nat} {m : MemEntry} (h : Shelved e w) (hs : Structured w) (hreg : Registry w)
    (hc : CatalogStep e.toEnv w w') (hkey : schemaKey space name i = .ok key) (hne : (w.store.readChain key).entries ≠ []) :
    w'.mems.Holds (space, "_schema", schemaId name i) m ↔ w.mems.Holds (space, "_schema", schemaId name i) m := by
  rcases hc.mems_cases with hmems | ⟨t, row, hpub⟩
  · rw [hmems]
  · have hdraft := hs.drafts.active t row hpub.found hpub.active
    have hfresh := hpub.not_mem_writeKeys hdraft hreg hkey hne
    obtain ⟨aged, bodies, -, hmems⟩ := hpub.mems
    constructor
    · intro hm
      rcases h.holds_published hreg hpub hdraft hkey hmems hm with ⟨x, hx, hmk, -⟩ | ⟨hold, -⟩
      · exact absurd (hdraft.write_of_memKey hkey hx hmk).2.1 hfresh
      · exact hold
    · intro hm
      rw [hmems]
      exact hm.published fun x hx hmk => hfresh (hdraft.write_of_memKey hkey hx hmk).2.1

end Xtable
