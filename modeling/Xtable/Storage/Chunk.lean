import Xtable.Lib.Parser
import Xtable.Core

/-! The chunk file format: a header, the compressed body with the entries of a memtable, a footer, and the footer's
    length. Lengths are narrowed to the width of their field without a check; decoders panic where a slice is out of
    range. -/

namespace Xtable

structure ChunkEntry where
  space : String
  table : String
  recordId : String
  value : Bytes
  commitVersion : UInt64
  txnId : String
  deleted : Bool
  contentType : Option String
  userMeta : List (String × String)
  schemaVersion : UInt32
  walSeq : UInt64
  deriving DecidableEq, Repr

structure ChunkHeader where
  chunkId : String
  createdAtMs : Int64
  compressedBodyLen : UInt64
  uncompressedLen : UInt64
  space : String
  table : String
  keyMin : Bytes
  keyMax : Bytes
  recordCount : UInt64
  deriving DecidableEq

structure KeyIndexEntry where
  keyBytes : Bytes
  bodyOffset : UInt64
  commitVersion : UInt64
  deriving DecidableEq

structure ChunkFooter where
  bloom : Bytes
  keyIndex : List KeyIndexEntry
  bodyCrc32c : UInt32
  deriving DecidableEq

/-- How a decoder stops: with an error, or with a panic, on an index out of range or without memory. -/
inductive Fault where
  | error (e : XtableError)
  | panic
  deriving DecidableEq

/-- What the format takes from elsewhere: `zstd`, `bincode`, `crc32fast`, `xxh3`, the text of the standard library's UTF-8
error, and the sizes that the allocator serves. -/
structure Codecs where
  zstdEncode : Bytes → Except String Bytes
  zstdDecode : Bytes → Except String Bytes
  bincodeSerialize : List KeyIndexEntry → Except String Bytes
  bincodeDeserialize : Bytes → Except String (List KeyIndexEntry)
  crc32 : Bytes → UInt32
  xxh3 : Bytes → UInt64
  utf8Error : Bytes → String
  allocates : Nat → Bool

def chunkMagic : Bytes := utf8 "XTC1"

def footerMagic : Bytes := utf8 "XTCF"

def chunkVersion : Nat := 1

def bloomBitsPerKey : Nat := 10

def keyIndexSampleEvery : Nat := 256

/-! ## Reading -/

abbrev Decoder (α : Type) : Type := Parser Fault α

def storageFault (msg : String) : Fault := .error (.storage msg)

namespace Decoder

/-- `read_le::<n>`, as a number. -/
def readLe (n : Nat) : Decoder Nat := do
  let bs ← Parser.bytes n fun buf pos => storageFault ("chunk: truncated, need " ++ toString n ++
    " bytes at offset " ++ toString pos ++ ", have " ++ toString buf.length)
  return ofLeBytes bs

/-- `&buf[pos..pos + n]`. -/
def slice (n : Nat) : Decoder Bytes := Parser.bytes n fun _ _ => .panic

/-- `buf[pos]`, as a length. -/
def byte : Decoder Nat := do
  let bs ← slice 1
  return ofLeBytes bs

/-- `str::from_utf8`. -/
def text (c : Codecs) (what : String) (bs : Bytes) : Decoder String :=
  .lift (match String.fromUTF8? ⟨bs.toArray⟩ with
    | some s => .ok s
    | none => .error (storageFault (what ++ " utf8: " ++ c.utf8Error bs)))

end Decoder

open Decoder

/-! ## The header -/

def ChunkHeader.encode (h : ChunkHeader) : Bytes :=
  chunkMagic ++ leBytes 2 chunkVersion ++
  leBytes 2 (utf8 h.chunkId).length ++ utf8 h.chunkId ++
  leBytes 8 h.createdAtMs.toUInt64.toNat ++
  leBytes 8 h.compressedBodyLen.toNat ++
  leBytes 8 h.uncompressedLen.toNat ++
  leBytes 2 (utf8 h.space).length ++ utf8 h.space ++
  leBytes 2 (utf8 h.table).length ++ utf8 h.table ++
  leBytes 2 h.keyMin.length ++ h.keyMin ++
  leBytes 2 h.keyMax.length ++ h.keyMax ++
  leBytes 8 h.recordCount.toNat

/-- The header from the version on. -/
def headerFields (c : Codecs) : Decoder ChunkHeader := do
  let version ← readLe 2
  if version ≠ chunkVersion then
    .lift (.error (storageFault ("chunk version " ++ toString version ++ " unsupported")))
  else do
    let idLen ← readLe 2
    let idBytes ← slice idLen
    let chunkId ← text c "chunk_id" idBytes
    let createdAtMs ← readLe 8
    let compressedBodyLen ← readLe 8
    let uncompressedLen ← readLe 8
    let spaceLen ← readLe 2
    let spaceBytes ← slice spaceLen
    let space ← text c "space" spaceBytes
    let tableLen ← readLe 2
    let tableBytes ← slice tableLen
    let table ← text c "table" tableBytes
    let minLen ← readLe 2
    let keyMin ← slice minLen
    let maxLen ← readLe 2
    let keyMax ← slice maxLen
    let recordCount ← readLe 8
    return {
      chunkId, space, table, keyMin, keyMax
      createdAtMs := (UInt64.ofNat createdAtMs).toInt64
      compressedBodyLen := UInt64.ofNat compressedBodyLen
      uncompressedLen := UInt64.ofNat uncompressedLen
      recordCount := UInt64.ofNat recordCount }

/-- The header at the start of a file, and where the body starts. -/
def ChunkHeader.decode (c : Codecs) (buf : Bytes) : Except Fault (ChunkHeader × Nat) :=
  if buf.length < 4 + 2 ∨ buf.take 4 ≠ chunkMagic then .error (storageFault "chunk magic mismatch")
  else headerFields c buf 4

/-! ## The footer -/

def ChunkFooter.encode (c : Codecs) (f : ChunkFooter) : Except XtableError Bytes :=
  match c.bincodeSerialize f.keyIndex with
  | .error e => .error (.serde e)
  | .ok kiBytes => .ok (leBytes 4 f.bloom.length ++ f.bloom ++ leBytes 4 kiBytes.length ++ kiBytes ++
      leBytes 4 f.bodyCrc32c.toNat ++ footerMagic)

def footerFields (c : Codecs) : Decoder ChunkFooter := do
  let bloomLen ← readLe 4
  let bloom ← slice bloomLen
  let kiLen ← readLe 4
  let kiBytes ← slice kiLen
  let keyIndex ← .lift (match c.bincodeDeserialize kiBytes with
    | .ok keyIndex => .ok keyIndex
    | .error e => .error (.error (.serde e)))
  let bodyCrc32c ← readLe 4
  return { bloom, keyIndex, bodyCrc32c := UInt32.ofNat bodyCrc32c }

def ChunkFooter.decode (c : Codecs) (buf : Bytes) : Except Fault ChunkFooter :=
  if buf.length < 4 + 4 ∨ buf.drop (buf.length - 4) ≠ footerMagic then
    .error (storageFault "chunk footer magic mismatch")
  else (footerFields c buf 0).map (·.1)

/-! ## Entries -/

def composeKeyBytes (space table recordId : String) : Bytes :=
  utf8 space ++ 0 :: (utf8 table ++ 0 :: utf8 recordId)

def ChunkEntry.keyBytes (e : ChunkEntry) : Bytes := composeKeyBytes e.space e.table e.recordId

def metaBytes (x : String × String) : Bytes :=
  leBytes 1 (utf8 x.1).length ++ utf8 x.1 ++ leBytes 1 (utf8 x.2).length ++ utf8 x.2

/-- An entry without its checksum. -/
def entryPayload (e : ChunkEntry) : Bytes :=
  leBytes 2 e.keyBytes.length ++ e.keyBytes ++
  leBytes 4 e.value.length ++ e.value ++
  leBytes 1 (utf8 (e.contentType.getD "")).length ++ utf8 (e.contentType.getD "") ++
  leBytes 1 e.userMeta.length ++ e.userMeta.flatMap metaBytes ++
  leBytes 4 e.schemaVersion.toNat ++
  leBytes 1 (utf8 e.txnId).length ++ utf8 e.txnId ++
  leBytes 8 e.commitVersion.toNat ++
  leBytes 8 e.walSeq.toNat ++
  leBytes 1 (if e.deleted then 1 else 0)

/-- What the encoder takes the length of the payload to be. -/
def payloadLen (e : ChunkEntry) : Nat :=
  e.keyBytes.length + 2 + e.value.length + 4 + 1 + (utf8 (e.contentType.getD "")).length + 1 +
  (e.userMeta.map fun x => 1 + (utf8 x.1).length + 1 + (utf8 x.2).length).sum +
  4 + 1 + (utf8 e.txnId).length + 8 + 8 + 1

def encodeEntryInto (c : Codecs) (buf : Bytes) (e : ChunkEntry) : Except XtableError Bytes :=
  let buf := buf ++ entryPayload e
  let payloadStart := buf.length - payloadLen e
  .ok (buf ++ leBytes 4 (c.crc32 (buf.drop payloadStart)).toNat)

def metaPair (c : Codecs) : Decoder (String × String) := do
  let klen ← byte
  let kBytes ← slice klen
  let k ← text c "um k" kBytes
  let vlen ← byte
  let vBytes ← slice vlen
  let v ← text c "um v" vBytes
  return (k, v)

def contentTypeField (c : Codecs) : Decoder (Option String) := do
  let ctLen ← byte
  if 0 < ctLen then do
    let ctBytes ← slice ctLen
    let ct ← text c "ct" ctBytes
    return some ct
  else return none

/-- The parts of a key between its NUL bytes; further parts are dropped, missing ones are empty. -/
def keyParts (c : Codecs) (keyBytes : Bytes) : Decoder (String × String × String) := do
  let parts := keyBytes.splitOn 0
  let space ← text c "space" ((parts[0]?).getD [])
  let table ← text c "table" ((parts[1]?).getD [])
  let recordId ← text c "record_id" ((parts[2]?).getD [])
  return (space, table, recordId)

/-- An entry, from its key on. -/
def entryFields (c : Codecs) (keyLen : Nat) : Decoder ChunkEntry := do
  let keyBytes ← slice keyLen
  let key ← keyParts c keyBytes
  let valueLen ← readLe 4
  let value ← slice valueLen
  let contentType ← contentTypeField c
  let umCount ← byte
  let userMeta ← (metaPair c).times umCount
  let schemaVersion ← readLe 4
  let txnLen ← byte
  let txnBytes ← slice txnLen
  let txnId ← text c "txn" txnBytes
  let commitVersion ← readLe 8
  let walSeq ← readLe 8
  let flags ← byte
  -- the checksum is read and not compared
  let _crc ← readLe 4
  return {
    space := key.1, table := key.2.1, recordId := key.2.2
    value, contentType, userMeta, txnId
    schemaVersion := UInt32.ofNat schemaVersion
    commitVersion := UInt64.ofNat commitVersion
    walSeq := UInt64.ofNat walSeq
    deleted := flags % 2 ≠ 0 }

def decodeEntry (c : Codecs) : Decoder ChunkEntry := do
  let keyLen ← readLe 2
  entryFields c keyLen

/-- The loop of `decode_body_entries`, for at most `fuel` entries. -/
def decodeEntries (c : Codecs) (body : Bytes) : Nat → Nat → Except Fault (List ChunkEntry)
  | 0, offset => if offset < body.length then .error .panic else .ok []
  | fuel + 1, offset =>
    if offset < body.length then
      match decodeEntry c body offset with
      | .error x => .error x
      | .ok (e, offset) => (decodeEntries c body fuel offset).map (e :: ·)
    else .ok []

/-- All entries of a body. `expectedCount` only sizes an allocation; every entry takes at least one byte,
so the length of the body bounds their number. -/
def decodeBodyEntries (c : Codecs) (body : Bytes) (_expectedCount : UInt64) : Except Fault (List ChunkEntry) :=
  decodeEntries c body body.length 0

/-- `Vec::with_capacity` for elements of `size` bytes: a request beyond `isize::MAX` bytes panics, and one that the allocator
refuses aborts the process. -/
def withCapacity (c : Codecs) (size n : Nat) : Except Fault Unit :=
  if size * n < 2 ^ 63 ∧ c.allocates (size * n) then .ok () else .error .panic

/-- `decode_body_entries` with its allocation, for entries that take `size` bytes in memory. -/
def decodeBodyEntriesAllocating (c : Codecs) (size : Nat) (body : Bytes) (expectedCount : UInt64) :
    Except Fault (List ChunkEntry) := do
  withCapacity c size expectedCount.toNat
  decodeBodyEntries c body expectedCount

/-! ## The writer -/

/-- The bytes of a bloom filter for `n` keys. -/
def bloomLen (n bitsPerKey : Nat) : Nat := (max (max n 1 * bitsPerKey) 64 + 7) / 8

def setBit (bits : Bytes) (pos : Nat) : Bytes := bits.modify (pos / 8) (· ||| (1 <<< UInt8.ofNat (pos % 8)))

def buildBloom (c : Codecs) (keys : List Bytes) (bitsPerKey : Nat) : Bytes :=
  let totalBytes := bloomLen keys.length bitsPerKey
  keys.foldl (fun bits k =>
    let h1 := c.xxh3 k
    let h2 := c.xxh3 (leBytes 8 h1.toNat)
    [h1, h2].foldl (fun bits h => setBit bits (h.toNat % (totalBytes * 8))) bits) (List.replicate totalBytes 0)

/-- `total_bytes`, with the product in `usize`, which wraps in a release build. -/
def bloomLenWrapping (n bitsPerKey : Nat) : Nat := (max (max n 1 * bitsPerKey % 2 ^ 64) 64 + 7) / 8

/-- `bits[pos / 8] |= 1 << (pos % 8)`, with its index. -/
def setBitIndexing (bits : Bytes) (pos : Nat) : Except Fault Bytes :=
  if pos / 8 < bits.length then .ok (setBit bits pos) else .error .panic

/-- `(h as usize) % (total_bytes * 8)`. -/
def bloomPos (totalBytes : Nat) (h : UInt64) : Except Fault Nat :=
  if totalBytes * 8 = 0 then .error .panic else .ok (h.toNat % (totalBytes * 8))

/-- The loop of `build_bloom` with its indices, over a filter of `totalBytes` zero bytes. -/
def fillBloomIndexing (c : Codecs) (keys : List Bytes) (totalBytes : Nat) : Except Fault Bytes :=
  keys.foldlM (fun bits k =>
    let h1 := c.xxh3 k
    let h2 := c.xxh3 (leBytes 8 h1.toNat)
    [h1, h2].foldlM (fun bits h => do
      let pos ← bloomPos totalBytes h
      setBitIndexing bits pos) bits) (List.replicate totalBytes 0)

/-- `Iterator::min` over keys, which are ordered byte by byte; empty if there are none. -/
def leastKey : List Bytes → Bytes
  | [] => []
  | k :: ks => ks.foldl (fun m k => if k < m then k else m) k

/-- `Iterator::max`. -/
def greatestKey : List Bytes → Bytes
  | [] => []
  | k :: ks => ks.foldl (fun m k => if k < m then m else k) k

def encodedEntryLen (c : Codecs) (e : ChunkEntry) : Except XtableError Nat :=
  (encodeEntryInto c [] e).map (·.length)

/-- The sampled key index from entry `i` on, at `offset` in the body. -/
def sampleKeys (c : Codecs) (i offset : Nat) : List ChunkEntry → Except XtableError (List KeyIndexEntry)
  | [] => .ok []
  | e :: es => do
    let entryLen ← encodedEntryLen c e
    let rest ← sampleKeys c (i + 1) (offset + entryLen) es
    if i % keyIndexSampleEvery = 0 then return ⟨e.keyBytes, UInt64.ofNat offset, e.commitVersion⟩ :: rest
    else return rest

structure ChunkWriter where
  chunkId : String
  space : String
  table : String
  body : Bytes := []
  entries : List ChunkEntry := []
  keys : List Bytes := []

namespace ChunkWriter

def append (c : Codecs) (w : ChunkWriter) (e : ChunkEntry) : Except XtableError ChunkWriter := do
  let body ← encodeEntryInto c w.body e
  return { w with body := body, entries := w.entries ++ [e], keys := w.keys ++ [e.keyBytes] }

/-- The file, with its header and footer; `nowMs` is the time of day. -/
def finalize (c : Codecs) (nowMs : Int64) (w : ChunkWriter) : Except XtableError (Bytes × ChunkHeader × ChunkFooter) :=
  match c.zstdEncode w.body with
  | .error e => .error (.storage ("zstd encode: " ++ e))
  | .ok compressed => do
    let keyIndex ← sampleKeys c 0 0 w.entries
    let header : ChunkHeader := {
      chunkId := w.chunkId
      createdAtMs := nowMs
      compressedBodyLen := UInt64.ofNat compressed.length
      uncompressedLen := UInt64.ofNat w.body.length
      space := w.space
      table := w.table
      keyMin := leastKey w.keys
      keyMax := greatestKey w.keys
      recordCount := UInt64.ofNat w.entries.length }
    let footer : ChunkFooter := ⟨buildBloom c w.keys bloomBitsPerKey, keyIndex, c.crc32 w.body⟩
    let footerBytes ← footer.encode c
    return (header.encode ++ compressed ++ footerBytes ++ leBytes 4 footerBytes.length, header, footer)

/-- Append entries one after the other. -/
def appendAll (c : Codecs) : List ChunkEntry → ChunkWriter → Except XtableError ChunkWriter
  | [], w => .ok w
  | e :: es, w => do
    let w ← w.append c e
    w.appendAll c es

end ChunkWriter

/-! ## Reading a file -/

/-- `&file[start..stop]`. -/
def sliceRange (file : Bytes) (start stop : Nat) : Except Fault Bytes :=
  if start ≤ stop ∧ stop ≤ file.length then .ok ((file.take stop).drop start) else .error .panic

def decompressBody (c : Codecs) (file : Bytes) : Except Fault Bytes := do
  let (_, bodyOffset) ← ChunkHeader.decode c file
  if file.length < bodyOffset + 4 then
    .error (storageFault ("chunk too short for footer (len=" ++ toString file.length ++ ", body_offset=" ++
      toString bodyOffset ++ ")"))
  else do
    let footerLenPos := file.length - 4
    let (footerLen, _) ← readLe 4 file footerLenPos
    let compressed ← sliceRange file bodyOffset (footerLenPos - footerLen)
    match c.zstdDecode compressed with
    | .ok body => .ok body
    | .error e => .error (storageFault ("zstd decode: " ++ e))

/-- The footer, found by the length at the end of the file. -/
def decodeFooter (c : Codecs) (file : Bytes) : Except Fault ChunkFooter := do
  let (footerLen, _) ← readLe 4 file (file.length - 4)
  let footerBytes ← sliceRange file (file.length - 4 - footerLen) (file.length - 4)
  ChunkFooter.decode c footerBytes

/-- `bloom_may_contain`. -/
def bloomMayContain (c : Codecs) (bloom key : Bytes) : Bool :=
  if bloom = [] then true
  else
    let h1 := c.xxh3 key
    let h2 := c.xxh3 (leBytes 8 h1.toNat)
    [h1, h2].all fun h =>
      let pos := h.toNat % (bloom.length * 8)
      ((bloom[pos / 8]?).getD 0) &&& (1 <<< UInt8.ofNat (pos % 8)) ≠ 0

/-- The loop of `bloom_may_contain` with its indices. -/
def bitsSetIndexing (bloom : Bytes) : List UInt64 → Except Fault Bool
  | [] => .ok true
  | h :: hs => do
    let pos ← bloomPos bloom.length h
    match bloom[pos / 8]? with
    | none => .error .panic
    | some byte => if byte &&& (1 <<< UInt8.ofNat (pos % 8)) = 0 then .ok false else bitsSetIndexing bloom hs

/-- `bloom_may_contain` with its indices. -/
def bloomMayContainIndexing (c : Codecs) (bloom key : Bytes) : Except Fault Bool :=
  if bloom = [] then .ok true
  else
    let h1 := c.xxh3 key
    let h2 := c.xxh3 (leBytes 8 h1.toNat)
    bitsSetIndexing bloom [h1, h2]

end Xtable
