import Dejaveph.Lib.Text
import Dejaveph.Server.Blob

namespace Dejaveph.Server
open Lib

inductive Status where
  | badRequest
  | notFound
  | payloadTooLarge
  | rangeNotSatisfiable
  | internalServerError
deriving DecidableEq

structure Failure where
  status : Status
  text : String
deriving DecidableEq

/-- A chunk-index range, the end exclusive. -/
structure ChunkRange where
  start : UInt32
  end_ : UInt32
deriving DecidableEq

/-- A byte range, the end inclusive. -/
structure ByteRange where
  start : ℕ
  end_ : ℕ
deriving DecidableEq

structure ReconTerm where
  hash : String
  unpackedLength : ℕ
  range : ChunkRange
deriving DecidableEq

structure FetchInfo where
  range : ChunkRange
  url : String
  urlRange : ByteRange
deriving DecidableEq

structure ReconResponse where
  offsetIntoFirstRange : ℕ
  terms : List ReconTerm
  fetchInfo : Table String (List FetchInfo)

structure EntryOut where
  path : String
  fileHash : String
  size : ℕ
deriving DecidableEq

/-- A term with its byte range, as collected under the index lock. -/
structure Resolved (Hash : Type) where
  xorb : Hash
  start : UInt32
  end_ : UInt32
  unpacked : ℕ
  byteStart : ℕ
  byteEnd : ℕ
deriving DecidableEq

variable {Hash : Type} [DecidableEq Hash] (core : XetCore Hash)

/-- The first byte of a term. It fails where the source indexes out of bounds. -/
def byteStart (xorbMeta : XorbMeta) (t : Term Hash) : Option ℕ :=
  if t.start = 0 then some 0
  else (xorbMeta.boundaryOffsets[t.start.toNat - 1]?).map UInt32.toNat

/-- The last byte of a term. It fails where the source indexes out of bounds or
subtracts below zero. -/
def byteEnd (xorbMeta : XorbMeta) (t : Term Hash) : Option ℕ :=
  if t.end_ = 0 then none
  else (xorbMeta.boundaryOffsets[t.end_.toNat - 1]?).bind
    (fun e => if e = 0 then none else some (e.toNat - 1))

def byteRange (xorbMeta : XorbMeta) (t : Term Hash) : Option ByteRange :=
  (byteStart xorbMeta t).bind (fun b => (byteEnd xorbMeta t).map (fun e => ⟨b, e⟩))

/-- The loop of `reconstruct` over the terms of a file, under the index lock. -/
def collectTerms (idx : Index Hash) :
    List (Term Hash) → Option (Except Status (List (Resolved Hash)))
  | [] => some (.ok [])
  | t :: ts =>
    match idx.xorbs.lookup t.xorb with
    | none => some (.error .internalServerError)
    | some xorbMeta =>
      match byteRange xorbMeta t with
      | none => none
      | some r => (collectTerms idx ts).map (fun rest => rest.map (fun v =>
          ⟨t.xorb, t.start, t.end_, t.unpackedLength, r.start, r.end_⟩ :: v))

def collect (idx : Index Hash) (fh : Hash) : Option (Except Status (List (Resolved Hash))) :=
  match idx.files.lookup fh with
  | none => some (.error .notFound)
  | some file => collectTerms idx file.terms

def pushFetch (m : Table String (List FetchInfo)) (xorbHex : String) (fi : FetchInfo) :
    Table String (List FetchInfo) :=
  m.insert xorbHex ((m.lookup xorbHex).getD [] ++ [fi])

/-- The loop of `reconstruct` after the lock is released. -/
def presignTerms (presign : Hash → Except String String) : List (Resolved Hash) →
    List ReconTerm → Table String (List FetchInfo) → Except Failure ReconResponse
  | [], terms, fetchInfo => .ok ⟨0, terms, fetchInfo⟩
  | t :: ts, terms, fetchInfo =>
    match presign t.xorb with
    | .error e => .error ⟨.internalServerError, "presign: " ++ e⟩
    | .ok url =>
      let xorbHex := core.hex t.xorb
      let range : ChunkRange := ⟨t.start, t.end_⟩
      presignTerms presign ts (terms ++ [⟨xorbHex, t.unpacked, range⟩])
        (pushFetch fetchInfo xorbHex ⟨range, url, ⟨t.byteStart, t.byteEnd⟩⟩)

/-- The loop of `registerFile` over the terms of the request. -/
def registerTerms (idx : Index Hash) : List RegisterTerm → Except Failure (List (Term Hash))
  | [] => .ok []
  | t :: ts =>
    match core.fromHex t.xorb with
    | none => .error ⟨.badRequest, "malformed xorb hash"⟩
    | some xorb =>
      if xorb ∈ idx.xorbs then
        (registerTerms idx ts).map (fun rest => ⟨xorb, t.start, t.end_, t.unpackedLength⟩ :: rest)
      else .error ⟨.badRequest, "term references an xorb that was not uploaded"⟩

/-- The insertions of an accepted registration. -/
def recordFile (idx : Index Hash) (fh : Hash) (file : FileRecord Hash)
    (volume path : Option String) : Index Hash :=
  let idx := { idx with files := idx.files.insert fh file }
  match volume, path with
  | some v, some p => { idx with catalog := idx.catalog.insert (v, p) fh }
  | _, _ => idx

/-- The lock section of `registerFile`, answering 0 when the file existed. -/
def registerFile (idx : Index Hash) (fh : Hash) (req : RegisterFile) :
    Except Failure (ℕ × Index Hash) :=
  match registerTerms core idx req.terms with
  | .error f => .error f
  | .ok terms =>
    .ok (if fh ∈ idx.files then 0 else 1,
      recordFile idx fh ⟨req.totalSize, terms⟩ req.volume req.path)

def listEntries (idx : Index Hash) (volume : String) : List EntryOut :=
  (idx.catalog.entries.filter (fun e => e.1.1 == volume)).map (fun e =>
    ⟨e.1.2, core.hex e.2, ((idx.files.lookup e.2).map FileRecord.totalSize).getD 0⟩)

/-- The integrity gate of `putXorb`. -/
def gate (hashHex : String) (body : Bytes) : Except Failure (Hash × XorbObjectInfoV1 Hash) :=
  match core.fromHex hashHex with
  | none => .error ⟨.badRequest, "malformed xorb hash"⟩
  | some hash =>
    match core.validateXorbObject body hash with
    | .ok (some info) => .ok (hash, info)
    | .ok none =>
      .error ⟨.badRequest, "xorb failed integrity check (hash mismatch or malformed)"⟩
    | .error _ => .error ⟨.badRequest, "could not parse xorb"⟩

/-- The lock section of `putXorb`. -/
def indexXorb (idx : Index Hash) (hash : Hash) (info : XorbObjectInfoV1 Hash) :
    Option (Index Hash) :=
  (idx.putXorb hash info).indexChunks hash info

abbrev HeaderValue := List UInt8

/-- The text of a header of visible ASCII characters. -/
def HeaderValue.toStr (h : HeaderValue) : Option (List Char) :=
  if h.all (fun b => (32 ≤ b && b < 127) || b == 9) then some (h.map (fun b => Char.ofNat b.toNat))
  else none

def rangeHeader (start stop : ℕ) : HeaderValue :=
  ("bytes=".toList ++ (Text.numeral start ++ '-' :: Text.numeral stop)).map
    (fun c => UInt8.ofNat c.toNat)

/-- Parse an inclusive `bytes=START-END` range against `total`; an absent
header means the whole object. -/
def parseRange (h : Option HeaderValue) (total : ℕ) : Option (ℕ × ℕ) :=
  match h with
  | none => some (0, total - 1)
  | some h => do
    let s ← h.toStr
    let spec ← Text.stripPrefix "bytes=".toList s
    let (a, b) ← Text.splitOnce '-' spec
    let start ← Text.parseU64 a
    let stop ← if b = [] then some (total - 1) else Text.parseU64 b
    if start > stop ∨ start ≥ total then none else some (start, min stop (total - 1))

theorem toStr_visible {s : List Char} (h : ∀ c ∈ s, 32 ≤ c.toNat ∧ c.toNat < 127) :
    HeaderValue.toStr (s.map (fun c => UInt8.ofNat c.toNat)) = some s := by
  have hb {c : Char} (hc : c ∈ s) : (UInt8.ofNat c.toNat).toNat = c.toNat := by
    have := (h c hc).2
    exact UInt8.toNat_ofNat_of_lt' (Nat.lt_trans this (by decide))
  have hall : (s.map (fun c => UInt8.ofNat c.toNat)).all
      (fun b => (32 ≤ b && b < 127) || b == 9) = true := by
    rw [List.all_eq_true]
    intro b hm
    obtain ⟨c, hc, rfl⟩ := List.mem_map.mp hm
    obtain ⟨hlo, hhi⟩ := h c hc
    simp only [UInt8.le_iff_toNat_le, UInt8.lt_iff_toNat_lt, hb hc]
    simp [hlo, hhi]
  rw [HeaderValue.toStr, if_pos hall, List.map_map]
  refine congrArg some ((List.map_congr_left ?_).trans (List.map_id s))
  intro c hc
  simp only [Function.comp_apply, hb hc, id_eq]
  exact Char.ofNat_toNat c

/-- What `rangeHeader` writes, `parseRange` reads. -/
theorem parseRange_rangeHeader {a b total : ℕ} (ha : a < 2 ^ 64) (hb : b < 2 ^ 64) :
    parseRange (some (rangeHeader a b)) total =
      if a > b ∨ a ≥ total then none else some (a, min b (total - 1)) := by
  have hvis : ∀ c ∈ "bytes=".toList ++ (Text.numeral a ++ '-' :: Text.numeral b),
      32 ≤ c.toNat ∧ c.toNat < 127 := by
    have hdigit {n : ℕ} {c : Char} (hc : c ∈ Text.numeral n) : 32 ≤ c.toNat ∧ c.toNat < 127 := by
      have hd := Text.numeral_digits hc
      simp only [Char.isDigit, Bool.and_eq_true, decide_eq_true_eq] at hd
      obtain ⟨hlo, hhi⟩ := hd
      have hlo' : 48 ≤ c.toNat := UInt32.le_iff_toNat_le.mp hlo
      have hhi' : c.toNat ≤ 57 := UInt32.le_iff_toNat_le.mp hhi
      omega
    have hpre : ∀ c ∈ "bytes=".toList, 32 ≤ c.toNat ∧ c.toNat < 127 := by simp
    intro c hc
    rcases List.mem_append.mp hc with hc | hc
    · exact hpre c hc
    · rcases List.mem_append.mp hc with hc | hc
      · exact hdigit hc
      · rcases List.mem_cons.mp hc with rfl | hc
        · decide
        · exact hdigit hc
  have hdash : '-' ∉ Text.numeral a := Text.not_mem_numeral rfl
  have hstr := toStr_visible hvis
  have hstrip := Text.stripPrefix_append "bytes=".toList (Text.numeral a ++ '-' :: Text.numeral b)
  have hsplit := Text.splitOnce_append (Text.numeral b) hdash
  unfold parseRange rangeHeader
  generalize "bytes=".toList = pre at hstr hstrip
  simp only [hstr, hstrip, hsplit, Option.bind_eq_bind, Option.bind_some, Text.parseU64_numeral ha,
    Text.parseU64_numeral hb, Text.numeral_ne_nil, ↓reduceIte]

theorem parseRange_end {h : Option HeaderValue} {total start stop : ℕ}
    (hp : parseRange h total = some (start, stop)) : stop ≤ total - 1 := by
  cases h with
  | none =>
    cases hp
    exact Nat.le_refl _
  | some h =>
    simp only [parseRange, Option.bind_eq_bind, Option.bind_eq_some_iff] at hp
    obtain ⟨_, _, _, _, ⟨a, b⟩, _, _, _, hp⟩ := hp
    split at hp
    all_goals
      simp only [Option.bind_eq_some_iff] at hp
      obtain ⟨e, _, hp⟩ := hp
      split at hp
      · cases hp
      · cases hp
        exact Nat.min_le_right _ _

structure PartialContent where
  headers : List (String × String)
  body : Bytes
deriving DecidableEq

def partialContent (hashHex : String) (start stop len : ℕ) (body : Bytes) : PartialContent where
  headers :=
    [("Content-Range",
        "bytes " ++ toString start ++ "-" ++ toString stop ++ "/" ++ toString len),
      ("Accept-Ranges", "bytes"),
      ("ETag", "\"" ++ hashHex ++ "\""),
      ("Cache-Control", "public, immutable, max-age=300")]
  body := body

/-- The roots of the mark phase: every xorb that a term of a file names. -/
def referenced (idx : Index Hash) : List Hash :=
  (Table.values idx.files).flatMap (fun f => f.terms.map Term.xorb)

/-- The lock section of the sweep, for one xorb. -/
def evict (idx : Index Hash) (x : Hash) : Index Hash :=
  { idx with
    xorbs := idx.xorbs.erase x
    chunkIndex := Table.retain idx.chunkIndex (fun _ loc => loc.xorb ≠ x) }

omit [DecidableEq Hash] in
theorem gate_commits {core : XetCore Hash} {hashHex : String} {body : Bytes} {hash : Hash}
    {info : XorbObjectInfoV1 Hash} (h : gate core hashHex body = .ok (hash, info)) :
    core.fromHex hashHex = some hash ∧ core.validateXorbObject body hash = .ok (some info) := by
  unfold gate at h
  split at h
  · cases h
  · rename_i x hx
    split at h
    · rename_i i hv
      cases h
      exact ⟨hx, hv⟩
    · cases h
    · cases h

theorem indexXorb_total (idx : Index Hash) (xorb : Hash) {info : XorbObjectInfoV1 Hash}
    (hw : info.WellFormed) : ∃ idx', indexXorb idx xorb info = some idx' := by
  obtain ⟨m, hm⟩ : ∃ m, Index.indexChunksFrom xorb info.unpackedChunkOffsets 0 0 info.chunkHashes
      (idx.putXorb xorb info).chunkIndex = some m :=
    Index.indexChunksFrom_total rfl (by rw [hw.unpacked, hw.hashes, Nat.zero_add])
      hw.unpacked_increase
  exact ⟨{ idx.putXorb xorb info with chunkIndex := m }, by simp [indexXorb, Index.indexChunks, hm]⟩

/-- What the lock section of `putXorb` changes: the first footer and the first
location under a hash stay, everything else is untouched. -/
theorem indexXorb_spec {idx idx' : Index Hash} {xorb : Hash} {info : XorbObjectInfoV1 Hash}
    (h : indexXorb idx xorb info = some idx') :
    idx'.xorbs = Table.orInsert idx.xorbs xorb (XorbMeta.fromInfo info) ∧
      idx'.files = idx.files ∧ idx'.catalog = idx.catalog ∧
      Index.indexChunksFrom xorb info.unpackedChunkOffsets 0 0 info.chunkHashes idx.chunkIndex =
        some idx'.chunkIndex := by
  obtain ⟨m, hm, rfl⟩ := Option.map_eq_some_iff.mp h
  exact ⟨rfl, rfl, rfl, hm⟩

theorem registerFile_spec {core : XetCore Hash} {idx idx' : Index Hash} {fh : Hash}
    {req : RegisterFile} {result : ℕ} (h : registerFile core idx fh req = .ok (result, idx')) :
    ∃ terms, registerTerms core idx req.terms = .ok terms ∧
      idx'.files = idx.files.insert fh ⟨req.totalSize, terms⟩ ∧
      idx'.xorbs = idx.xorbs ∧ idx'.chunkIndex = idx.chunkIndex := by
  unfold registerFile at h
  split at h
  · cases h
  · rename_i terms ht
    cases h
    refine ⟨terms, ht, ?_⟩
    unfold recordFile
    split <;> exact ⟨rfl, rfl, rfl⟩

theorem registerTerms_spec {core : XetCore Hash} {idx : Index Hash} {ts : List RegisterTerm}
    {terms : List (Term Hash)} (h : registerTerms core idx ts = .ok terms) :
    List.Forall₂ (fun r t => core.fromHex r.xorb = some t.xorb ∧ t.xorb ∈ idx.xorbs ∧
      t.start = r.start ∧ t.end_ = r.end_ ∧ t.unpackedLength = r.unpackedLength) ts terms := by
  induction ts generalizing terms with
  | nil =>
    cases h
    exact .nil
  | cons r ts ih =>
    unfold registerTerms at h
    split at h
    · cases h
    · rename_i xorb hx
      split at h
      · rename_i hm
        cases hr : registerTerms core idx ts with
        | error f =>
          rw [hr] at h
          cases h
        | ok rest =>
          rw [hr] at h
          cases h
          exact .cons ⟨hx, hm, rfl, rfl, rfl⟩ (ih hr)
      · cases h

theorem registerTerms_uploaded {core : XetCore Hash} {idx : Index Hash} {ts : List RegisterTerm}
    {terms : List (Term Hash)} (h : registerTerms core idx ts = .ok terms) :
    ∀ t ∈ terms, t.xorb ∈ idx.xorbs := by
  intro t ht
  have hall := registerTerms_spec h
  clear h
  induction hall with
  | nil => cases ht
  | cons hd _ ih =>
    rcases List.mem_cons.mp ht with rfl | ht
    · exact hd.2.1
    · exact ih ht

theorem registerTerms_known {core : XetCore Hash} {idx : Index Hash} {ts : List RegisterTerm}
    {terms : List (Term Hash)} (h : registerTerms core idx ts = .ok terms) :
    ∀ t ∈ ts, ∃ x, core.fromHex t.xorb = some x ∧ x ∈ idx.xorbs := by
  intro t ht
  have hall := registerTerms_spec h
  clear h
  induction hall with
  | nil => cases ht
  | cons hd _ ih =>
    rcases List.mem_cons.mp ht with rfl | ht
    · exact ⟨_, hd.1, hd.2.1⟩
    · exact ih ht

theorem registerTerms_total {core : XetCore Hash} {idx : Index Hash} {ts : List RegisterTerm}
    (h : ∀ t ∈ ts, ∃ x, core.fromHex t.xorb = some x ∧ x ∈ idx.xorbs) :
    ∃ terms, registerTerms core idx ts = .ok terms := by
  induction ts with
  | nil => exact ⟨[], rfl⟩
  | cons t ts ih =>
    obtain ⟨x, hx, hm⟩ := h t (by simp)
    obtain ⟨rest, hr⟩ := ih (fun u hu => h u (by simp [hu]))
    exact ⟨⟨x, t.start, t.end_, t.unpackedLength⟩ :: rest,
      by simp [registerTerms, hx, hm, hr, Except.map]⟩

/-- A rejected registration names an unreadable xorb, or one that is not indexed. -/
theorem registerTerms_rejected {core : XetCore Hash} {idx : Index Hash} {ts : List RegisterTerm}
    {f : Failure}
    (h : registerTerms core idx ts = .error f) : f.status = .badRequest ∧
      ∃ t ∈ ts, ∀ x, core.fromHex t.xorb = some x → x ∉ idx.xorbs := by
  induction ts with
  | nil => cases h
  | cons t ts ih =>
    simp only [registerTerms] at h
    split at h
    · rename_i hx
      cases h
      exact ⟨rfl, t, by simp, by simp [hx]⟩
    · rename_i x hx
      split at h
      · cases hrest : registerTerms core idx ts with
        | ok rest =>
          rw [hrest] at h
          cases h
        | error f' =>
          rw [hrest] at h
          cases h
          obtain ⟨hs, u, hu, hnot⟩ := ih hrest
          exact ⟨hs, u, by simp [hu], hnot⟩
      · rename_i hnot
        cases h
        refine ⟨rfl, t, by simp, ?_⟩
        intro y hy
        obtain rfl := Option.some.inj (hx.symm.trans hy)
        exact hnot

theorem registerFile_rejected {core : XetCore Hash} {idx : Index Hash} {fh : Hash}
    {req : RegisterFile} {f : Failure}
    (h : registerFile core idx fh req = .error f) : f.status = .badRequest ∧
      ∃ t ∈ req.terms, ∀ x, core.fromHex t.xorb = some x → x ∉ idx.xorbs := by
  unfold registerFile at h
  split at h
  · rename_i ht
    cases h
    exact registerTerms_rejected ht
  · cases h

theorem listEntries_paths (core : XetCore Hash) (idx : Index Hash) (v : String) :
    ((listEntries core idx v).map EntryOut.path).Nodup := by
  unfold listEntries
  rw [List.map_map]
  refine List.Nodup.map_on ?_ (idx.catalog.nodupKeys.nodup.filter _)
  rintro ⟨⟨v1, p1⟩, h1⟩ hm1 ⟨⟨v2, p2⟩, h2⟩ hm2 he
  rw [List.mem_filter, beq_iff_eq] at hm1 hm2
  obtain rfl : v1 = v2 := hm1.2.trans hm2.2.symm
  obtain rfl : p1 = p2 := he
  have h2 := Table.lookup_eq_some.mpr hm2.1
  rw [Table.lookup_eq_some.mpr hm1.1, Option.some.injEq] at h2
  rw [h2]

theorem mem_listEntries (core : XetCore Hash) (idx : Index Hash) (v : String) (e : EntryOut) :
    e ∈ listEntries core idx v ↔ ∃ fh, idx.catalog.lookup (v, e.path) = some fh ∧
      e = ⟨e.path, core.hex fh, ((idx.files.lookup fh).map FileRecord.totalSize).getD 0⟩ := by
  simp only [listEntries, List.mem_map, List.mem_filter, beq_iff_eq, Table.lookup_eq_some]
  constructor
  · rintro ⟨⟨⟨v', p⟩, fh⟩, ⟨hm, rfl⟩, rfl⟩
    exact ⟨fh, hm, rfl⟩
  · rintro ⟨fh, hm, he⟩
    exact ⟨⟨(v, e.path), fh⟩, ⟨hm, rfl⟩, he.symm⟩

end Dejaveph.Server
