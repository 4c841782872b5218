import Xtable.Theorems.Flushed
import Xtable.Theorems.Schemas

/-! A rotation or a flush changes where documents are found, and no document. -/

namespace Xtable

open Coordinator

variable {c : Codecs} {w w' : World} {t key : String} {rk : RecordKey} {row : TxnStateRecord}

/-- The documents stay as they are; their rows may point elsewhere, and the WAL may lose records. -/
structure Refiled (w w' : World) : Prop where
  unfiled : w'.store.unfiled = w.store.unfiled
  pending : w'.pending = w.pending
  files : w'.files = w.files
  bound : w.store.WalBound → w'.store.WalBound
  wal : ∀ x ∈ w'.store.iterWal, x ∈ w.store.iterWal ∨ x.2.txnId = none
  rows : ∃ p : RecordKey → Nat → String → String,
    (∀ (rk : RecordKey) (v : Nat), w'.store.recordVersions[(rk, v)]? =
      (w.store.recordVersions[(rk, v)]?).map fun r => { r with entry := r.entry.pointedAt (p rk v r.entry.chunkId) }) ∧
    ∀ rk : RecordKey, w'.store.recordIndex[rk]? =
      (w.store.recordIndex[rk]?).map fun r => { r with entry := r.entry.pointedAt (p rk r.entry.commitVersion r.entry.chunkId) }

theorem Refiled.lookup {γ : Type} (h : Refiled w w') (F : Store → γ) (hF : ∀ s, F (Store.unfiled s) = F s) :
    F w'.store = F w.store := by
  rw [← hF w'.store, h.unfiled, hF]

theorem Refiled.of_store (hstore : w'.store = w.store) (hpending : w'.pending = w.pending) (hfiles : w'.files = w.files) :
    Refiled w w' where
  unfiled := by rw [hstore]
  pending := hpending
  files := hfiles
  bound := by rw [hstore]; exact id
  wal x hx := .inl (hstore ▸ hx)
  rows := by
    refine ⟨fun _ _ old => old, fun rk v => ?_, fun rk => ?_⟩
    · rw [hstore]
      exact (Option.map_id' ..).symm
    · rw [hstore]
      exact (Option.map_id' ..).symm

theorem Refiled.trans {w'' : World} (h : Refiled w w') (h' : Refiled w' w'') : Refiled w w'' where
  unfiled := h'.unfiled.trans h.unfiled
  pending := h'.pending.trans h.pending
  files := h'.files.trans h.files
  bound := fun hb => h'.bound (h.bound hb)
  wal x hx := by
    rcases h'.wal x hx with hx | hx
    · exact h.wal x hx
    · exact .inr hx
  rows := by
    obtain ⟨p, hrows, hlatest⟩ := h.rows
    obtain ⟨p', hrows', hlatest'⟩ := h'.rows
    refine ⟨fun rk v old => p' rk v (p rk v old), fun rk v => ?_, fun rk => ?_⟩
    · rw [hrows', hrows, Option.map_map]
      rfl
    · rw [hlatest', hlatest, Option.map_map]
      rfl

theorem Refiled.flushed {chunkId : String} {mt : MemTable} {entries : List MemEntry} {file : Bytes}
    {header : ChunkHeader} {footer : ChunkFooter} :
    Refiled w (w.flushed c chunkId mt entries file header footer) where
  unfiled := unfiled_flushed
  pending := rfl
  files := rfl
  bound hb seq r hr := by
    have hr : (w.store.flushed chunkId _ mt entries).wal[seq]? = some r := hr
    rw [wal_flushed] at hr
    have hlast : (w.flushed c chunkId mt entries file header footer).store.lastWalSeq = w.store.lastWalSeq + 1 :=
      lastWalSeq_flushed
    rw [hlast]
    split at hr
    · split at hr
      · omega
      · exact (hb seq r hr).trans (Nat.le_succ _)
    · cases hr
  wal x hx := by
    obtain ⟨seq, r⟩ := x
    have hr : (w.store.flushed chunkId _ mt entries).wal[seq]? = some r := Table.mem_toList.1 hx
    rw [wal_flushed] at hr
    split at hr
    · split at hr
      · cases hr
        exact .inr rfl
      · exact .inl (Table.mem_toList.2 hr)
    · cases hr
  rows := by
    refine ⟨fun rk v old => if Shows entries rk v then chunkId else old, fun rk v => ?_, fun rk => ?_⟩
    · refine recordVersions_flushed.trans (congrFun (congrArg Option.map (funext fun r => ?_)) _)
      by_cases hshows : Shows entries rk v <;> simp [hshows, RecordIndexEntry.pointedAt]
    · refine recordIndex_flushed.trans (congrFun (congrArg Option.map (funext fun r => ?_)) _)
      by_cases hshows : Shows entries rk r.entry.commitVersion <;> simp [hshows, RecordIndexEntry.pointedAt]

theorem Refiled.flush (h : FlushStep c w w') : Refiled w w' := by
  cases h with
  | dropped | requeued => exact .of_store rfl rfl rfl
  | @written _ rest =>
    have hdequeued : Refiled w (w.dequeued rest) := .of_store rfl rfl rfl
    exact hdequeued.trans .flushed

theorem Refiled.rotate (w : World) : Refiled w w.rotate := .of_store rfl rfl rfl

/-! ## Invariants -/

section Invariants

variable (h : Refiled w w')

include h

theorem Refiled.getTxnState (t : String) : w'.store.getTxnState t = w.store.getTxnState t :=
  h.lookup (fun s => s.getTxnState t) fun _ => rfl

theorem Refiled.readChain (k : String) : w'.store.readChain k = w.store.readChain k :=
  h.lookup (fun s => s.readChain k) fun _ => rfl

theorem Refiled.pendingOf (t : String) : w'.pendingOf t = w.pendingOf t := by
  unfold World.pendingOf
  rw [h.pending]

theorem Refiled.agree (hagree : w.store.Agree rk key) : w'.store.Agree rk key := by
  obtain ⟨p, hrows, hlatest⟩ := h.rows
  have hlist : w'.store.recordRows rk = (w.store.recordRows rk).map fun x =>
      (x.1, { x.2 with entry := x.2.entry.pointedAt (p rk x.1.2 x.2.entry.chunkId) }) := by
    refine Store.recordRows_eq_of_mem (List.pairwise_map.2 (w.store.recordRows_ascending rk)) fun x => ?_
    obtain ⟨⟨rk', u⟩, r⟩ := x
    rw [List.mem_map]
    constructor
    · rintro ⟨⟨⟨rk₀, u₀⟩, r₀⟩, hmem, heq⟩
      obtain ⟨rfl, hget⟩ := Store.mem_recordRows_iff.1 hmem
      obtain ⟨hkeys, rfl⟩ := Prod.mk.inj heq
      obtain ⟨rfl, rfl⟩ := Prod.mk.inj hkeys
      exact ⟨rfl, by rw [hrows, hget]; rfl⟩
    · rintro ⟨rfl, hget⟩
      rw [hrows] at hget
      obtain ⟨r₀, hr₀, rfl⟩ := Option.map_eq_some_iff.1 hget
      exact ⟨((rk', u), r₀), Store.mem_recordRows.2 hr₀, rfl⟩
  refine ⟨fun v r hr => ?_, ?_, ?_, ?_⟩
  · rw [hrows] at hr
    obtain ⟨r₀, hr₀, rfl⟩ := Option.map_eq_some_iff.1 hr
    exact hagree.keyed v r₀ hr₀
  · rw [hlist, List.map_map, h.readChain]
    exact hagree.rows
  · rw [hlatest, Option.map_map, h.readChain]
    exact hagree.latest
  · rw [h.lookup (fun s => s.versions[key]?) fun _ => rfl, h.readChain]
    exact hagree.version

theorem Refiled.drafts (hdrafts : Drafts w) : Drafts w' where
  active t row hrow hst := by
    rw [h.getTxnState] at hrow
    have hdraft := hdrafts.active t row hrow hst
    have hwrites : ∀ k : String, w'.store.writeSet[(t, k)]? = w.store.writeSet[(t, k)]? :=
      fun k => h.lookup (fun s => s.writeSet[(t, k)]?) fun _ => rfl
    refine ⟨?_, fun k => ?_, fun k => ?_⟩
    · rw [h.pendingOf]
      exact hdraft.keyed
    · rw [h.pendingOf]
      exact hdraft.keys k
    · rw [h.pendingOf, hwrites]
      exact hdraft.writes k
  fresh t hnone := by
    rw [h.getTxnState] at hnone
    rw [h.pending, h.lookup (fun s => s.writeSet) fun _ => rfl]
    exact hdrafts.fresh t hnone

theorem Refiled.structured (hidle : ∀ t row, w.store.getTxnState t = some row → row.status ≠ .committing)
    (hs : Structured w) : Structured w' where
  inv := hs.inv.truncated hidle (h.lookup Store.txnState fun _ => rfl) (h.lookup Store.versionChains fun _ => rfl)
    (h.lookup Store.globalVersion fun _ => rfl) (h.bound hs.inv.wal) h.wal
  keyed rk v row hrow := by
    obtain ⟨p, hrows, -⟩ := h.rows
    rw [hrows] at hrow
    obtain ⟨r, hr, rfl⟩ := Option.map_eq_some_iff.1 hrow
    exact hs.keyed rk v r hr
  drafts := h.drafts hs.drafts
  agrees rk key hkey := h.agree (hs.agrees rk key hkey)

end Invariants

end Xtable
