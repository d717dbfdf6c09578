import Dejaveph.Agent.Presigned
import Dejaveph.Proofs.DistinctChunks
import Dejaveph.Proofs.Layout

namespace Dejaveph.Proofs.PresignedReads
open Lib Server Agent DedupSound RegisteredTerms ServedRanges StoredXorbs RoundTrip DistinctChunks
  Layout

variable {Hash σ : Type} {core : XetCore Hash} [DecidableEq Hash]

theorem exists_files (stored : Hash → Option Bytes) (xs : List Hash) :
    ∃ files : Table Hash Bytes, ∀ x ∈ xs, files.lookup x = stored x := by
  induction xs with
  | nil => exact ⟨∅, by simp⟩
  | cons x xs ih =>
    obtain ⟨files, hfiles⟩ := ih
    cases hx : stored x with
    | none =>
      refine ⟨files.erase x, ?_⟩
      intro y hy
      rw [Table.lookup_erase_if]
      split
      · rename_i he
        rw [he, hx]
      · exact hfiles y ((List.mem_cons.mp hy).resolve_left ‹_›)
    | some body =>
      refine ⟨files.insert x body, ?_⟩
      intro y hy
      rw [Table.lookup_insert_if]
      split
      · rename_i he
        rw [he, hx]
      · exact hfiles y ((List.mem_cons.mp hy).resolve_left ‹_›)

/-- A file lies in the objects of a store as it would in files. -/
theorem shelved_layout {objects : σ → Hash → Option Bytes} (gate : core.GateLaws)
    (pipe : core.PipelineLaws) {s : State Hash σ} (hs : Shelved core objects s) {b : Bytes}
    {file : FileRecord Hash} (h : Recorded core s.app.index (core.fileHashOf b) file) :
    ∃ fs : LocalFs Hash, (∀ x ∈ s.app.index.xorbs, fs.object x = objects s.app.blob x) ∧
      ∃ content pieces, LaidOut core { blob := fs, index := s.app.index } b content pieces file := by
  obtain ⟨files, hfiles⟩ := exists_files (objects s.app.blob) s.app.index.xorbs.keys
  have hshelved : Shelved core LocalFs.object
      (⟨{ blob := { files }, index := s.app.index }, fun _ => none⟩ : State Hash (LocalFs Hash)) := by
    refine ⟨fun _ _ ht => (by cases ht), ?_⟩
    intro x xorbMeta hx
    obtain ⟨info, he, content, body, hb, hrest⟩ := hs.indexed x xorbMeta hx
    exact ⟨info, he, content, body, (hfiles x (Table.mem_of_lookup hx)).trans hb, hrest⟩
  exact ⟨{ files }, hfiles, recorded_layout gate pipe hshelved h⟩

variable {client : ObjectStore σ} {objects : σ → String → Option Bytes}

theorem s3_whole (hex : core.HexLaws) (doc : client.Documented objects) (call : PutCall Hash)
    (io : Io) (s : σ) :
    StoresWhole (s3 core client) (fun s x => objects s (S3.keyFor core x)) call io s where
  effect := S3.putStep_cases hex doc call io s
  pending _ := S3.putStep_pending

section
variable {s : σ} {fs : LocalFs Hash} {idx : Index Hash} {b : Bytes}
  {content : Hash → List (Chunk Hash)} {pieces : Hash → List Bytes} {file : FileRecord Hash}
  {resp : ReconResponse} {url : Hash → String}

theorem object_chunks (same : ∀ x ∈ idx.xorbs, fs.object x = objects s (S3.keyFor core x))
    {x : Hash} (serves : ∀ data start stop, objects s (S3.keyFor core x) = some data →
      start ≤ stop → stop < data.length →
      client.getUrl (url x) start stop s = .body (Pieces.slice data start (stop + 1)))
    {t : Term Hash} (hx : t.xorb = x) (h : Within fs idx pieces t) :
    fetchObject client s (fetchInfo url (resolve pieces t)) =
      .ok (Pieces.slice (pieces t.xorb) t.start.toNat t.end_.toNat).flatten := by
  obtain ⟨⟨xorbMeta, hmeta, hlaid, hle⟩, hne⟩ := h
  obtain ⟨footer, hstored⟩ := hlaid.stored
  have hobject := (same _ (Table.mem_of_lookup hmeta)).symm.trans hstored
  have hlt : t.start.toNat < t.end_.toNat := UInt32.lt_iff_toNat_lt.mp hne
  have hcount : t.end_.toNat ≤ (pieces t.xorb).length :=
    hlaid.count ▸ UInt32.le_iff_toNat_le.mp hle
  have hoff := Pieces.offset_lt (pieces t.xorb) hlaid.nonempty hlt hcount
  have hlen : Pieces.offset (pieces t.xorb) t.end_.toNat ≤
      ((pieces t.xorb).flatten ++ footer).length := by
    have := Pieces.offset_le (pieces t.xorb) t.end_.toNat
    rw [List.length_append]
    omega
  have hlast : Pieces.offset (pieces t.xorb) t.end_.toNat - 1 + 1 =
      Pieces.offset (pieces t.xorb) t.end_.toNat := by omega
  subst hx
  have hsent := serves _ _ (Pieces.offset (pieces t.xorb) t.end_.toNat - 1) hobject
    (Nat.le_sub_one_of_lt hoff) (by omega)
  rw [hlast, Pieces.cut_pieces _ _ hlt.le] at hsent
  simp only [fetchObject, fetchInfo, resolve, hsent]

theorem presigned_gathers (hex : core.HexLaws)
    (same : ∀ x ∈ idx.xorbs, fs.object x = objects s (S3.keyFor core x))
    (serves : ∀ x data start stop, objects s (S3.keyFor core x) = some data → start ≤ stop →
      stop < data.length →
      client.getUrl (url x) start stop s = .body (Pieces.slice data start (stop + 1)))
    (hlay : LaidOut core { blob := fs, index := idx } b content pieces file)
    (hresp : presignTerms core (fun x => .ok (url x)) (file.terms.map (resolve pieces)) [] ∅ =
      .ok resp) : Gathers core pieces file resp.fetchInfo (fetchObject client s) := by
  intro t ht
  obtain ⟨u, hpick, hum, hx, hu⟩ := presigned_entry hex hresp ht
  exact ⟨_, u, hpick, hu, hx ▸ object_chunks same (serves u.xorb) rfl (hlay.within u hum)⟩

end

/-- With the S3 backend over a documented object store, whatever objects it held before and
whatever calls of it fail, in every state that a run of calls reaches, `reconstruct` reads
through the signed URLs, for the hash that a call has returned, the data of some chunks.
These are the chunks of the call's bytes exactly when the first covers of the record are
aligned, as they are when no chunk of the bytes repeats. -/
theorem presigned_reads (hex : core.HexLaws) (gate : core.GateLaws) (pipe : core.PipelineLaws)
    (doc : client.Documented objects) (blob : σ) (events : List (Event Hash)) (w : World Hash σ)
    (run : Run.exec (World.step core (s3 core client)) (World.boot blob) events = some w)
    (i : ℕ) (c : Client Hash) (h : String) (call : w.clients i = some c)
    (returned : c.stage = .finished (.ok h)) :
    h = core.hex (core.fileHashOf c.job.bytes) ∧
    ∃ file chunks, w.server.app.index.files.lookup (core.fileHashOf c.job.bytes) = some file ∧
      reconstructPresigned core client w.server.app h = .ok (chunks.map Chunk.data).flatten ∧
      (chunks = core.nextBlock c.job.bytes ↔ Aligned core file) ∧
      (Distinct core c.job.bytes →
        reconstructPresigned core client w.server.app h = .ok c.job.bytes) := by
  have hi := (run_world hex gate pipe run).server
  have hclean := (run_clean gate run).unpoisoned
  have hshelved := run_shelved (G := fun _ _ => True) hex gate pipe
    (fun w _ c _ _ _ _ call _ _ => s3_whole hex doc call c.io w.server.app.blob)
    (Run.guarded_of_forall (fun _ _ _ => trivial) _) run
  obtain ⟨rfl, hm⟩ := (run_confirmed hex gate pipe run).calls i c call h returned
  obtain ⟨file, hfile⟩ := Table.mem_iff.mp hm
  have hrec := hi.files _ file hfile
  obtain ⟨fs, hsame, content, pieces, hlay⟩ := shelved_layout gate pipe hshelved hrec
  choose url hurl using fun x => doc.signed (S3.keyFor core x)
  have hpresign : (s3 core client).presignGet = fun x => .ok (url x) := funext fun x => (hurl x).1
  obtain ⟨m, hok, _⟩ := presignTerms_spec core url (file.terms.map (resolve pieces)) [] ∅
  obtain ⟨hoffset, hterms⟩ := presigned_terms hok
  have hout := assemble_reads (presigned_gathers (b := c.job.bytes) hex hsame
    (fun x => (hurl x).2 w.server.app.blob) hlay hok) hlay.inside hlay.reads (fun _ ht => ht)
  rw [← hterms] at hout
  have hcollect : collect w.server.app.index (core.fileHashOf c.job.bytes) =
      some (.ok (file.terms.map (resolve pieces))) := by
    simp only [collect, hfile, collectTerms_resolve hlay.within]
  have hrecon : reconstructPresigned core client w.server.app
      (core.hex (core.fileHashOf c.job.bytes)) =
        .ok ((file.terms.map (RoundTrip.read content file.terms)).flatten.map Chunk.data).flatten := by
    simp only [reconstructPresigned, respond, start, hex.from_hex, runAlone, advance, lock, hclean,
      hcollect, Bool.false_eq_true, ↓reduceIte, Option.bind_some, hpresign, hok, hout, bind,
      Except.bind]
    rfl
  refine ⟨rfl, file, _, hfile, hrecon, ?_, ?_⟩
  · have hiff := reads_own gate pipe hlay.inside hlay.packed
    rwa [hlay.own] at hiff
  · intro hd
    rw [hrecon, hlay.whole gate pipe (aligned_distinct gate pipe hi.packed hrec hd)]

/-- The bytes of an object in a range, or the text of a refusal. -/
def cut (m : Table String Bytes) (key : String) (start stop : ℕ) : Bytes :=
  match m.lookup key with
  | none => "NoSuchKey".toUTF8.toList
  | some data =>
    if stop < start then data
    else if data.length ≤ start then "InvalidRange".toUTF8.toList
    else Pieces.slice data start (min (stop + 1) data.length)

/-- A bucket in which the URL of a key is the key. -/
def bucket : ObjectStore (Table String Bytes) where
  headObject key io m :=
    match io, m.lookup key with
    | .fail e _, _ => .error ⟨false, e⟩
    | .ok, none => .error ⟨true, "NotFound"⟩
    | .ok, some data => .ok (some data.length)
  putObject key body io m :=
    match io with
    | .ok => (true, m.insert key body)
    | .fail _ none => (false, m)
    -- the response is lost
    | .fail _ (some _) => (false, m.insert key body)
  getObject key start stop io m :=
    match io with
    | .fail _ none => .noResponse
    | .fail _ (some _) => .brokenOff
    | .ok =>
      match m.lookup key with
      | some data =>
        if stop < start ∨ start < data.length then .body (cut m key start stop) else .noResponse
      | none => .noResponse
  deleteObject key io m :=
    match io with
    | .ok => (true, m.erase key)
    | .fail _ _ => (false, m)
  presigned := .ok
  getUrl url start stop m := .body (cut m url start stop)

theorem bucket_documented : bucket.Documented (fun m key => m.lookup key) where
  put key body io m := by
    cases io with
    | ok => exact .inl fun k => Table.lookup_insert_if ..
    | fail e left =>
      cases left with
      | none => exact .inr ⟨rfl, fun _ => rfl⟩
      | some b => exact .inl fun k => Table.lookup_insert_if ..
  signed key := by
    refine ⟨key, rfl, fun m data start stop hdata hle hlt => congrArg ObjectOut.body ?_⟩
    rw [cut, hdata]
    simp only
    rw [if_neg (by omega), if_neg (by omega), Nat.min_eq_left hlt]

/-- A file of two chunks is ingested. The `head_object` of its upload fails. -/
def ingestSigned : List (Event Plain.PlainHash) :=
  .begin 0 ⟨"v", "p", [1, 2]⟩ :: ask 0 0 ++ ask 0 1 ++ [.compute 0, .compute 0, .send 0 2,
    .serve 2 { io := .fail "timeout" none }, .serve 2 {}, .serve 2 {}, .serve 2 {}, .receive 0,
    .compute 0] ++ ask 0 3

theorem presigned_reads_two : ∃ w : World Plain.PlainHash (Table String Bytes),
    Run.exec (World.step Plain.plain (s3 Plain.plain bucket)) (World.boot ∅) ingestSigned = some w ∧
    reconstructPresigned Plain.plain bucket w.server.app
      (Plain.hex (Plain.plain.fileHashOf [1, 2])) = .ok [1, 2] := by
  have hrun : (Run.exec (World.step Plain.plain (s3 Plain.plain bucket)) (World.boot ∅)
      ingestSigned).map (fun w => (w.clients 0).map (fun c => (c.job.bytes, hashReturned c))) =
      some (some ([1, 2], some (Plain.hex (Plain.plain.fileHashOf [1, 2])))) := by decide +kernel
  obtain ⟨w, hw, hl⟩ := Option.map_eq_some_iff.mp hrun
  obtain ⟨c, hc, hdone⟩ := Option.map_eq_some_iff.mp hl
  obtain ⟨hbytes, hret⟩ := Prod.ext_iff.mp hdone
  have h := presigned_reads Plain.plain_hex Plain.plain_gate Plain.plain_pipeline
    bucket_documented ∅ ingestSigned w hw 0 c _ hc (hashReturned_eq hret)
  obtain ⟨_, _, _, _, _, _, hback⟩ := h
  simp only at hbytes
  rw [hbytes] at hback
  exact ⟨w, hw, hback (by decide)⟩

end Dejaveph.Proofs.PresignedReads
