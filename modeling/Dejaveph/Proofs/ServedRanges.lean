import Dejaveph.PlainCore
import Dejaveph.Server.System

namespace Dejaveph.Proofs.ServedRanges
open Lib Server

variable {Hash : Type} {core : XetCore Hash}

theorem xorbDataRoute_presign (hx : core.HexLaws) (publicBase : String) (x : Hash) :
    xorbDataRoute publicBase (publicBase ++ xorbDataPath ++ core.hex x) = some (core.hex x) := by
  have hstrip := Text.stripPrefix_append (publicBase ++ xorbDataPath).toList (core.hex x).toList
  rw [← String.toList_append] at hstrip
  have hspecial : ∀ c ∈ ['/', '?', '#', '%'], c.isAlphanum = false := by simp
  have hplain : (core.hex x).toList.all (fun c => c ∉ ['/', '?', '#', '%']) = true := by
    rw [List.all_eq_true]
    intro c hc
    rw [decide_eq_true_eq]
    intro hm
    have ha := hx.alphanum x c hc
    rw [hspecial c hm] at ha
    cases ha
  simp only [xorbDataRoute, hstrip, Option.bind_eq_bind, Option.bind_some, ne_eq, hx.non_empty x,
    not_false_eq_true, hplain, and_self, ↓reduceIte, String.ofList_toList]

variable [DecidableEq Hash]

/-- The stored bytes of a xorb are these serialized chunks, then a footer, and
its recorded end offsets are theirs. -/
structure Laid (fs : LocalFs Hash) (x : Hash) (xorbMeta : XorbMeta) (pieces : List Bytes) : Prop where
  stored : ∃ footer, fs.files.lookup x = some (pieces.flatten ++ footer)
  nonempty : ∀ p ∈ pieces, p ≠ []
  boundaries : xorbMeta.boundaryOffsets.map UInt32.toNat = Pieces.ends pieces
  count : xorbMeta.numChunks.toNat = pieces.length

section
variable {fs : LocalFs Hash} {x : Hash} {xorbMeta : XorbMeta} {pieces : List Bytes}

theorem Laid.boundary (h : Laid fs x xorbMeta pieces) {i : ℕ} (hi : i < pieces.length) :
    ∃ e, xorbMeta.boundaryOffsets[i]? = some e ∧ e.toNat = Pieces.offset pieces (i + 1) := by
  have he := Pieces.ends_get pieces i hi
  rw [← h.boundaries, List.getElem?_map] at he
  exact Option.map_eq_some_iff.mp he

theorem Laid.byteRange (h : Laid fs x xorbMeta pieces) {t : Term Hash} (ht : t.start < t.end_)
    (hle : t.end_ ≤ xorbMeta.numChunks) : Server.byteRange xorbMeta t =
      some ⟨Pieces.offset pieces t.start.toNat, Pieces.offset pieces t.end_.toNat - 1⟩ := by
  have hlt : t.start.toNat < t.end_.toNat := UInt32.lt_iff_toNat_lt.mp ht
  have hcount : t.end_.toNat ≤ pieces.length := h.count ▸ UInt32.le_iff_toNat_le.mp hle
  have hstart : byteStart xorbMeta t = some (Pieces.offset pieces t.start.toNat) := by
    by_cases hs : t.start = 0
    · simp [byteStart, hs]
    · have hpos : 0 < t.start.toNat := Nat.pos_of_ne_zero (fun h => hs (UInt32.toNat_inj.mp h))
      obtain ⟨e, he, hoff⟩ := h.boundary (i := t.start.toNat - 1) (by omega)
      rw [Nat.sub_add_cancel hpos] at hoff
      simp [byteStart, hs, he, hoff]
  obtain ⟨e, he, hoff⟩ := h.boundary (i := t.end_.toNat - 1) (by omega)
  rw [Nat.sub_add_cancel (by omega)] at hoff
  have hne : t.end_ ≠ 0 := by
    intro h0
    rw [h0] at hlt
    exact absurd hlt (by simp)
  have hpos : 0 < e.toNat := by
    have := Pieces.offset_lt pieces h.nonempty (s := 0) (e := t.end_.toNat) (by omega) hcount
    rw [Pieces.offset_zero] at this
    omega
  have he0 : e ≠ 0 := by
    rintro rfl
    exact absurd hpos (by simp)
  have hend : byteEnd xorbMeta t = some (Pieces.offset pieces t.end_.toNat - 1) := by
    simp [byteEnd, hne, he, he0, hoff]
  simp [Server.byteRange, hstart, hend]

/-- A term that names chunks of a xorb with these serialized chunks. -/
structure Within (fs : LocalFs Hash) (idx : Index Hash) (pieces : Hash → List Bytes)
    (t : Term Hash) : Prop where
  laid : ∃ xorbMeta, idx.xorbs.lookup t.xorb = some xorbMeta ∧
    Laid fs t.xorb xorbMeta (pieces t.xorb) ∧ t.end_ ≤ xorbMeta.numChunks
  nonempty : t.start < t.end_

/-- A term with the byte range of its serialized chunks. -/
def resolve (pieces : Hash → List Bytes) (t : Term Hash) : Resolved Hash :=
  ⟨t.xorb, t.start, t.end_, t.unpackedLength,
    Pieces.offset (pieces t.xorb) t.start.toNat, Pieces.offset (pieces t.xorb) t.end_.toNat - 1⟩

theorem collectTerms_resolve {fs : LocalFs Hash} {idx : Index Hash} {pieces : Hash → List Bytes}
    {ts : List (Term Hash)} (h : ∀ t ∈ ts, Within fs idx pieces t) :
    collectTerms idx ts = some (.ok (ts.map (resolve pieces))) := by
  induction ts with
  | nil => rfl
  | cons t ts ih =>
    obtain ⟨⟨xorbMeta, hm, hlaid, hle⟩, hne⟩ := h t (by simp)
    simp only [collectTerms, hm, hlaid.byteRange hne hle, ih (fun u hu => h u (by simp [hu])),
      Option.map_some, Except.map, List.map_cons, resolve]

def reconTerm (core : XetCore Hash) (t : Resolved Hash) : ReconTerm :=
  ⟨core.hex t.xorb, t.unpacked, ⟨t.start, t.end_⟩⟩

def fetchInfo (url : Hash → String) (t : Resolved Hash) : FetchInfo :=
  ⟨⟨t.start, t.end_⟩, url t.xorb, ⟨t.byteStart, t.byteEnd⟩⟩

omit [DecidableEq Hash] in
/-- What the loop over the collected terms builds: one term for each in order,
and under each xorb its byte ranges in order. -/
theorem presignTerms_spec (core : XetCore Hash) (url : Hash → String) (ts : List (Resolved Hash))
    (terms : List ReconTerm) (m : Table String (List FetchInfo)) :
    ∃ m', presignTerms core (fun x => .ok (url x)) ts terms m =
        .ok ⟨0, terms ++ ts.map (reconTerm core), m'⟩ ∧
      (∀ k, (m'.lookup k).getD [] = (m.lookup k).getD [] ++
        (ts.filter (fun t => core.hex t.xorb = k)).map (fetchInfo url)) ∧
      ∀ k ∈ m', k ∈ m ∨ ∃ t ∈ ts, core.hex t.xorb = k := by
  induction ts generalizing terms m with
  | nil => exact ⟨m, by simp [presignTerms], by simp, fun k hk => .inl hk⟩
  | cons t ts ih =>
    obtain ⟨m', hm', hfetch, hkeys⟩ := ih (terms ++ [reconTerm core t])
      (pushFetch m (core.hex t.xorb) (fetchInfo url t))
    refine ⟨m', by simpa [presignTerms, reconTerm, fetchInfo] using hm', ?_, ?_⟩
    · intro k
      rw [hfetch k]
      by_cases hk : core.hex t.xorb = k
      · subst hk
        simp [pushFetch]
      · have hne : k ≠ core.hex t.xorb := Ne.symm hk
        simp [pushFetch, hk, AList.lookup_insert_ne hne]
    · intro k hk
      rcases hkeys k hk with hk | ⟨u, hu, he⟩
      · rcases (AList.mem_insert _).mp hk with rfl | hk
        · exact .inr ⟨t, by simp, rfl⟩
        · exact .inl hk
      · exact .inr ⟨u, by simp [hu], he⟩

/-- The client reads this body from the URL with the range as its header. -/
def Fetches (core : XetCore Hash) (publicBase : String) (app : AppState Hash (LocalFs Hash))
    (fi : FetchInfo) (body : Bytes) : Prop :=
  ∃ hashHex content, xorbDataRoute publicBase fi.url = some hashHex ∧
    respond core (localFs core publicBase) app (.xorbData hashHex
      (some (rangeHeader fi.urlRange.start fi.urlRange.end_))) =
        some (app, .xorbData (.ok content)) ∧
    content.body = body

theorem respond_xorbData {publicBase : String} {app : AppState Hash (LocalFs Hash)} {x : Hash}
    {hashHex : String} {range : Option HeaderValue} {data body : Bytes} {a b : ℕ}
    (hx : core.fromHex hashHex = some x) (hdata : app.blob.files.lookup x = some data)
    (hparse : parseRange range data.length = some (a, b)) (hread : readRange data a b = some body) :
    respond core (localFs core publicBase) app (.xorbData hashHex range) =
      some (app, .xorbData (.ok (partialContent hashHex a b data.length body))) := by
  simp [respond, start, hx, runAlone, advance, localFs, LocalFs.head, LocalFs.getRange, hdata,
    hparse, hread]

theorem readRange_pieces {pieces : List Bytes} {footer : Bytes} (hne : ∀ p ∈ pieces, p ≠ [])
    {s e : ℕ} (hlt : s < e) (he : e ≤ pieces.length) (hsize : Pieces.offset pieces e < 2 ^ 64) :
    readRange (pieces.flatten ++ footer) (Pieces.offset pieces s) (Pieces.offset pieces e - 1) =
      some (Pieces.slice pieces s e).flatten := by
  have hoff := Pieces.offset_lt pieces hne hlt he
  have hend : Pieces.offset pieces e - 1 + 1 = Pieces.offset pieces e := by omega
  have hle : Pieces.offset pieces e ≤ (pieces.flatten ++ footer).length := by
    have := Pieces.offset_le pieces e
    rw [List.length_append]
    omega
  rw [readRange, hend, if_neg (by omega)]
  simp only [Nat.min_eq_left hle, Nat.min_eq_left (Nat.le_trans hoff.le hle),
    Nat.max_eq_left hoff.le, Pieces.cut_pieces pieces footer hlt.le]

/-- A GET of the byte range of a term reads exactly its serialized chunks. -/
theorem fetches_chunks {publicBase : String} (hx : core.HexLaws)
    {app : AppState Hash (LocalFs Hash)} {pieces : Hash → List Bytes} {t : Term Hash}
    (h : Within app.blob app.index pieces t) :
    Fetches core publicBase app
      (fetchInfo (fun x => publicBase ++ xorbDataPath ++ core.hex x) (resolve pieces t))
      (Pieces.slice (pieces t.xorb) t.start.toNat t.end_.toNat).flatten := by
  obtain ⟨⟨xorbMeta, _, hlaid, hle⟩, hne⟩ := h
  obtain ⟨footer, hstored⟩ := hlaid.stored
  have hlt : t.start.toNat < t.end_.toNat := UInt32.lt_iff_toNat_lt.mp hne
  have hcount : t.end_.toNat ≤ (pieces t.xorb).length :=
    hlaid.count ▸ UInt32.le_iff_toNat_le.mp hle
  generalize hs : t.start.toNat = s at *
  generalize he : t.end_.toNat = e at *
  have hoff := Pieces.offset_lt (pieces t.xorb) hlaid.nonempty hlt hcount
  have hsize : Pieces.offset (pieces t.xorb) e < 2 ^ 64 := by
    obtain ⟨o, _, ho⟩ := hlaid.boundary (i := e - 1) (by omega)
    rw [Nat.sub_add_cancel (by omega)] at ho
    rw [← ho]
    exact Nat.lt_trans o.toNat_lt (by decide)
  have hlen : Pieces.offset (pieces t.xorb) e ≤ ((pieces t.xorb).flatten ++ footer).length := by
    have := Pieces.offset_le (pieces t.xorb) e
    rw [List.length_append]
    omega
  have hparse : parseRange (some (rangeHeader (Pieces.offset (pieces t.xorb) s)
      (Pieces.offset (pieces t.xorb) e - 1))) ((pieces t.xorb).flatten ++ footer).length =
      some (Pieces.offset (pieces t.xorb) s, Pieces.offset (pieces t.xorb) e - 1) := by
    rw [parseRange_rangeHeader (by omega) (by omega), if_neg (by omega), Nat.min_eq_left (by omega)]
  have hread : readRange ((pieces t.xorb).flatten ++ footer) (Pieces.offset (pieces t.xorb) s)
      (Pieces.offset (pieces t.xorb) e - 1) = some (Pieces.slice (pieces t.xorb) s e).flatten :=
    readRange_pieces hlaid.nonempty hlt hcount hsize
  simp only [Fetches, fetchInfo, resolve, hs, he]
  exact ⟨_, _, xorbDataRoute_presign hx publicBase t.xorb,
    respond_xorbData (hx.from_hex t.xorb) hstored hparse hread, rfl⟩

/-- The response to a reconstruction of this file: one term for each stored one
in order, under each xorb the ranges of that xorb's terms in order, and every
range of a xorb fetches exactly its serialized chunks. -/
structure Serves (core : XetCore Hash) (publicBase : String) (app : AppState Hash (LocalFs Hash))
    (pieces : Hash → List Bytes) (file : FileRecord Hash) (resp : ReconResponse) : Prop where
  offset : resp.offsetIntoFirstRange = 0
  terms : resp.terms = file.terms.map (fun t =>
    ⟨core.hex t.xorb, t.unpackedLength, ⟨t.start, t.end_⟩⟩)
  ranges : ∀ x, ((resp.fetchInfo.lookup (core.hex x)).getD []).map FetchInfo.range =
    (file.terms.filter (fun t => t.xorb = x)).map (fun t => ⟨t.start, t.end_⟩)
  keys : ∀ k ∈ resp.fetchInfo, ∃ t ∈ file.terms, core.hex t.xorb = k
  bodies : ∀ x fis, resp.fetchInfo.lookup (core.hex x) = some fis → ∀ fi ∈ fis,
    Fetches core publicBase app fi
      (Pieces.slice (pieces x) fi.range.start.toNat fi.range.end_.toNat).flatten

theorem respond_serves (hx : core.HexLaws) (publicBase : String)
    {app : AppState Hash (LocalFs Hash)} (clean : app.poisoned = false)
    {pieces : Hash → List Bytes} {fh : Hash} {file : FileRecord Hash}
    (registered : app.index.files.lookup fh = some file)
    (within : ∀ t ∈ file.terms, Within app.blob app.index pieces t) :
    ∃ resp, respond core (localFs core publicBase) app (.reconstruct (core.hex fh)) =
        some (app, .reconstruct (.ok resp)) ∧ Serves core publicBase app pieces file resp := by
  have hcollect : collect app.index fh = some (.ok (file.terms.map (resolve pieces))) := by
    simp only [collect, registered, collectTerms_resolve within]
  obtain ⟨m, hm, hfetch, hkeys⟩ := presignTerms_spec core
    (fun x => publicBase ++ xorbDataPath ++ core.hex x) (file.terms.map (resolve pieces)) [] ∅
  have hlookup (x : Hash) : (m.lookup (core.hex x)).getD [] =
      (file.terms.filter (fun t => t.xorb = x)).map (fun t =>
        fetchInfo (fun x => publicBase ++ xorbDataPath ++ core.hex x) (resolve pieces t)) := by
    rw [hfetch]
    simp only [AList.lookup_empty, Option.getD_none, List.nil_append, List.filter_map, List.map_map]
    refine congrArg (List.map _) (List.filter_congr ?_)
    intro t _
    exact decide_eq_decide.mpr ⟨hx.hex_injective, congrArg core.hex⟩
  refine ⟨⟨0, (file.terms.map (resolve pieces)).map (reconTerm core), m⟩, ?_, rfl, ?_, ?_, ?_, ?_⟩
  · simp [respond, start, hx.from_hex, runAlone, advance, lock, clean, hcollect, localFs, hm]
  · simp [reconTerm, resolve, Function.comp_def]
  · intro x
    change ((m.lookup (core.hex x)).getD []).map FetchInfo.range = _
    rw [hlookup x, List.map_map]
    rfl
  · intro k hk
    rcases hkeys k hk with h | ⟨r, hr, he⟩
    · exact absurd h (AList.notMem_empty k)
    · obtain ⟨t, ht, rfl⟩ := List.mem_map.mp hr
      exact ⟨t, ht, he⟩
  · intro x fis hfis fi hfi
    have hmem := hlookup x
    change m.lookup (core.hex x) = some fis at hfis
    rw [hfis, Option.getD_some] at hmem
    rw [hmem] at hfi
    obtain ⟨t, ht, rfl⟩ := List.mem_map.mp hfi
    obtain ⟨htm, htx⟩ := List.mem_filter.mp ht
    obtain rfl := of_decide_eq_true htx
    exact fetches_chunks hx (within t htm)

/-- A registered file whose terms name chunks of well laid out xorbs is
reconstructed by exactly the byte ranges of its terms. -/
theorem served_ranges_exact (hx : core.HexLaws) (publicBase : String) (fs : LocalFs Hash)
    (idx : Index Hash) (metrics : Metrics) (pieces : Hash → List Bytes)
    (laid : ∀ x xorbMeta, idx.xorbs.lookup x = some xorbMeta → Laid fs x xorbMeta (pieces x))
    (fh : Hash) (file : FileRecord Hash) (registered : idx.files.lookup fh = some file)
    (within : ∀ t ∈ file.terms, ∃ xorbMeta, idx.xorbs.lookup t.xorb = some xorbMeta ∧
      t.start < t.end_ ∧ t.end_ ≤ xorbMeta.numChunks) :
    ∃ resp, respond core (localFs core publicBase) { blob := fs, index := idx, metrics }
        (.reconstruct (core.hex fh)) =
          some ({ blob := fs, index := idx, metrics }, .reconstruct (.ok resp)) ∧
      Serves core publicBase { blob := fs, index := idx, metrics } pieces file resp := by
  have hwithin : ∀ t ∈ file.terms, Within fs idx pieces t := by
    intro t ht
    obtain ⟨xorbMeta, hm, hlt, hle⟩ := within t ht
    exact ⟨⟨xorbMeta, hm, laid _ _ hm, hle⟩, hlt⟩
  have clean : (AppState.mk fs idx false metrics).poisoned = false := rfl
  exact respond_serves hx publicBase clean registered hwithin

end

/-- A stored xorb of two chunks, and a file that names the second, then both. -/
def twoChunks : LocalFs Plain.PlainHash :=
  { files := (∅ : Table _ _).insert [1, 1, 1, 2] [0, 1, 1, 0, 1, 2, 2] }

def twoTerms : Index Plain.PlainHash where
  xorbs := (∅ : Table _ _).insert [1, 1, 1, 2] ⟨2, [3, 6], [1, 2]⟩
  files := (∅ : Table _ _).insert [7] ⟨3, [⟨[1, 1, 1, 2], 1, 2, 1⟩, ⟨[1, 1, 1, 2], 0, 2, 2⟩]⟩

theorem served_ranges_exact_two : ∃ resp,
    respond Plain.plain (localFs Plain.plain "http://x") { blob := twoChunks, index := twoTerms }
      (.reconstruct (Plain.hex [7])) =
        some ({ blob := twoChunks, index := twoTerms }, .reconstruct (.ok resp)) ∧
    Serves Plain.plain "http://x" { blob := twoChunks, index := twoTerms }
      (fun _ => [[0, 1, 1], [0, 1, 2]])
      ⟨3, [⟨[1, 1, 1, 2], 1, 2, 1⟩, ⟨[1, 1, 1, 2], 0, 2, 2⟩]⟩ resp := by
  have hlookup {x : Plain.PlainHash} {xorbMeta : XorbMeta}
      (h : twoTerms.xorbs.lookup x = some xorbMeta) :
      x = [1, 1, 1, 2] ∧ xorbMeta = ⟨2, [3, 6], [1, 2]⟩ := by
    simp only [twoTerms, Table.lookup_insert_if] at h
    split at h
    · rename_i hx
      exact ⟨hx, (Option.some.inj h).symm⟩
    · cases h
  refine served_ranges_exact Plain.plain_hex "http://x" twoChunks twoTerms {}
    (fun _ => [[0, 1, 1], [0, 1, 2]]) ?_ [7] _ (by decide) ?_
  · intro x xorbMeta h
    obtain ⟨rfl, rfl⟩ := hlookup h
    exact ⟨⟨[2], by decide⟩, by decide, by decide, by decide⟩
  · intro t ht
    refine ⟨⟨2, [3, 6], [1, 2]⟩, ?_⟩
    rcases List.mem_cons.mp ht with rfl | ht
    · decide
    · obtain rfl := List.mem_singleton.mp ht
      decide

end Dejaveph.Proofs.ServedRanges
