import Mathlib.Data.UInt
import Dejaveph.Lib.Pieces

namespace Dejaveph
open Lib

abbrev Bytes := List UInt8

structure Chunk (Hash : Type) where
  hash : Hash
  data : Bytes
deriving DecidableEq

structure XorbObjectInfoV1 (Hash : Type) where
  numChunks : UInt32
  chunkHashes : List Hash
  chunkBoundaryOffsets : List UInt32
  unpackedChunkOffsets : List UInt32
deriving DecidableEq

structure SerializedXorbObject (Hash : Type) where
  hash : Hash
  serializedData : Bytes
deriving DecidableEq

namespace Server

structure RegisterTerm where
  xorb : String
  start : UInt32
  end_ : UInt32
  unpackedLength : ℕ
deriving DecidableEq

structure RegisterFile where
  fileHash : String
  totalSize : ℕ
  terms : List RegisterTerm
  volume : Option String
  path : Option String
deriving DecidableEq

end Server

/-- The functions that the repository calls and does not contain: those of the vendored
fork, a git submodule, and the writer of JSON. They are total: a call that panics is
not modelled. -/
structure XetCore (Hash : Type) where
  hex : Hash → String
  fromHex : String → Option Hash
  computeDataHash : Bytes → Hash
  /-- `Chunker::default().next_block(bytes, true)` -/
  nextBlock : Bytes → List (Chunk Hash)
  fileHash : List (Hash × ℕ) → Hash
  /-- `RawXorbData::from_chunks`, then `SerializedXorbObject::from_xorb` with a
  footer and lz4. -/
  fromXorb : List (Chunk Hash) → Except String (SerializedXorbObject Hash)
  validateXorbObject : Bytes → Hash → Except String (Option (XorbObjectInfoV1 Hash))
  /-- The data of the chunk at the cursor, and the bytes that follow it. -/
  deserializeChunk : Bytes → Except String (Bytes × Bytes)
  /-- `serde_json::to_vec` of a registration. -/
  registrationJson : Server.RegisterFile → Bytes

variable {Hash : Type}

structure XorbObjectInfoV1.WellFormed (info : XorbObjectInfoV1 Hash) : Prop where
  some_chunk : 0 < info.numChunks.toNat
  hashes : info.chunkHashes.length = info.numChunks.toNat
  boundaries : info.chunkBoundaryOffsets.length = info.numChunks.toNat
  unpacked : info.unpackedChunkOffsets.length = info.numChunks.toNat
  boundaries_increase : (0 :: info.chunkBoundaryOffsets).Pairwise (· < ·)
  unpacked_increase : (0 :: info.unpackedChunkOffsets).Pairwise (· < ·)

/-- The uncompressed length of chunk `i`: its cumulative end offset less that
of the chunk before it. -/
def XorbObjectInfoV1.unpackedLen (info : XorbObjectInfoV1 Hash) (i : ℕ) : Option ℕ := do
  let e ← info.unpackedChunkOffsets[i]?
  let b ← (0 :: info.unpackedChunkOffsets)[i]?
  some (e.toNat - b.toNat)

namespace XetCore
variable (core : XetCore Hash)

def Commits (xorb : Hash) (info : XorbObjectInfoV1 Hash) : Prop :=
  ∃ body, core.validateXorbObject body xorb = .ok (some info)

/-- The hex form of a hash is read back, and is a non-empty text of letters
and digits. -/
structure HexLaws : Prop where
  from_hex : ∀ h, core.fromHex (core.hex h) = some h
  non_empty : ∀ h, (core.hex h).toList ≠ []
  alphanum : ∀ h, ∀ c ∈ (core.hex h).toList, c.isAlphanum = true

/-- The gate accepts consistent footers only. -/
structure GateLaws : Prop where
  well_formed : ∀ xorb info, core.Commits xorb info → info.WellFormed
  /-- One xorb hash fixes one chunk list. -/
  one_list : ∀ xorb info info', core.Commits xorb info → core.Commits xorb info' →
    info.chunkHashes = info'.chunkHashes ∧
      info.unpackedChunkOffsets = info'.unpackedChunkOffsets

/-- A body laid out as the serialized chunks of `group`, then a footer. -/
structure Layout (group : List (Chunk Hash)) (body : Bytes)
    (info : XorbObjectInfoV1 Hash) (pieces : List Bytes) (footer : Bytes) : Prop where
  body_eq : body = pieces.flatten ++ footer
  chunk_pieces : List.Forall₂ (fun c p => p ≠ [] ∧
    ∀ rest, core.deserializeChunk (p ++ rest) = .ok (c.data, rest)) group pieces
  hashes : info.chunkHashes = group.map Chunk.hash
  boundaries : info.chunkBoundaryOffsets.map UInt32.toNat = Pieces.ends pieces
  unpacked : info.unpackedChunkOffsets.map UInt32.toNat = Pieces.ends (group.map Chunk.data)

/-- The chunker, the hashes and the serializer fit together. -/
structure PipelineLaws : Prop where
  concat : ∀ b, ((core.nextBlock b).map Chunk.data).flatten = b
  chunk_hash : ∀ b, ∀ c ∈ core.nextBlock b, c.hash = core.computeDataHash c.data
  data_hash_injective : Function.Injective core.computeDataHash
  file_hash_injective : Function.Injective core.fileHash
  /-- The gate accepts what the serializer writes for a run of chunks, and
  reports its layout. -/
  serialized : ∀ b group ser, group <:+: core.nextBlock b → group ≠ [] →
    core.fromXorb group = .ok ser →
    ∃ info pieces footer, core.validateXorbObject ser.serializedData ser.hash = .ok (some info) ∧
      core.Layout group ser.serializedData info pieces footer

def fileHashOf (b : Bytes) : Hash :=
  core.fileHash ((core.nextBlock b).map (fun c => (c.hash, c.data.length)))

variable {core}

theorem HexLaws.hex_injective (hx : core.HexLaws) {a b : Hash} (h : core.hex a = core.hex b) :
    a = b := by
  have := hx.from_hex a
  rw [h, hx.from_hex b] at this
  exact (Option.some.inj this).symm

end XetCore

end Dejaveph
