import Xtable.Storage.Records

/-! A memtable holds one entry per record key. The set has one active memtable and a queue of immutable ones, oldest
    first, that wait to be flushed. -/

namespace Xtable

/-- An entry is invisible while its commit version is `⊤` (the source's `INVISIBLE`). -/
structure MemEntry where
  key : RecordKey
  value : Bytes
  commitVersion : WithTop Nat
  txnId : String
  deleted : Bool
  contentType : Option String
  userMeta : List (String × String)
  schemaVersion : Nat
  walSeq : Nat
  sizeBytes : Nat
  deriving DecidableEq

def MemEntry.visibleAt (e : MemEntry) (snapshot : Nat) : Bool :=
  e.commitVersion ≠ ⊤ && e.commitVersion ≤ (snapshot : WithTop Nat)

structure MemTable where
  id : Nat
  map : Table RecordKey MemEntry := ∅
  bytesEstimate : Nat := 0
  /-- `⊤` while the memtable is empty. -/
  earliestSeq : WithTop Nat := ⊤
  latestSeq : Nat := 0
  versionMin : WithTop Nat := ⊤
  versionMax : Nat := 0

namespace MemTable

/-- Insert an entry, replacing an older one under the same key. -/
def putInvisible (m : MemTable) (entry : MemEntry) : MemTable :=
  { m with
    map := m.map.insert entry.key entry
    bytesEstimate := m.bytesEstimate + max entry.sizeBytes 64
    earliestSeq := min m.earliestSeq (entry.walSeq : WithTop Nat)
    latestSeq := max m.latestSeq entry.walSeq
    versionMin := min m.versionMin entry.commitVersion
    versionMax := match entry.commitVersion with
      | some cv => max m.versionMax cv
      | none => m.versionMax }

/-- Set the commit version of the entry under `key`, whatever it was; `INVISIBLE`, the greatest `u64`, hides it again. -/
def publish (m : MemTable) (key : RecordKey) (commitVersion : WithTop Nat) : MemTable :=
  match m.map[key]? with
  | some entry =>
    { m with
      map := m.map.insert key { entry with commitVersion := commitVersion }
      versionMin := min m.versionMin commitVersion
      versionMax := max m.versionMax (commitVersion.untopD (2 ^ 64 - 1)) }
  | none => m

def getVisible (m : MemTable) (key : RecordKey) (snapshot : Nat) : Option MemEntry :=
  m.map[key]?.filter fun e => e.visibleAt snapshot

end MemTable

structure MemTableSet where
  active : MemTable := ⟨0, ∅, 0, ⊤, 0, ⊤, 0⟩
  /-- Immutable memtables awaiting flush, oldest first. -/
  flushing : List MemTable := []
  /-- `FlushPolicy::memtable_size_bytes`, 64 MiB by default. -/
  memtableSizeBytes : Nat := 64 * 1024 * 1024

namespace MemTableSet

/-- Make the active memtable immutable and start a new one. -/
def rotate (m : MemTableSet) : MemTableSet :=
  { m with active := { id := m.active.id + 1 }, flushing := m.flushing ++ [m.active] }

/-- Insert into the active memtable; it rotates once it is full, or when it is `aged` beyond the
policy's limit. -/
def putInvisible (m : MemTableSet) (entry : MemEntry) (aged : Bool) : MemTableSet :=
  let m' := { m with active := m.active.putInvisible entry }
  if m.memtableSizeBytes ≤ m'.active.bytesEstimate ∨ aged then m'.rotate else m'

/-- Publish a key in the active memtable and in every immutable one. -/
def publish (m : MemTableSet) (key : RecordKey) (commitVersion : Nat) : MemTableSet :=
  { m with
    active := m.active.publish key commitVersion
    flushing := m.flushing.map fun mt => mt.publish key commitVersion }

end MemTableSet

end Xtable
