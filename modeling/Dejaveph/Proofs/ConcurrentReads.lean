import Dejaveph.Agent.Reader
import Dejaveph.Proofs.AtRest

namespace Dejaveph.Proofs.ConcurrentReads
open Lib Server Agent Unpoisoned RegisteredTerms ServedRanges StoredXorbs RoundTrip DistinctChunks
  Layout AtRest

variable {Hash : Type} {core : XetCore Hash} {publicBase : String} [DecidableEq Hash]

/-- Every indexed xorb keeps its offsets and its bytes, and no file is forgotten. -/
structure Stays (app app' : AppState Hash (LocalFs Hash)) : Prop where
  xorbs : ∀ x xorbMeta, app.index.xorbs.lookup x = some xorbMeta →
    app'.index.xorbs.lookup x = some xorbMeta
  blobs : ∀ x ∈ app.index.xorbs, app'.blob.files.lookup x = app.blob.files.lookup x
  files : ∀ fh ∈ app.index.files, fh ∈ app'.index.files

theorem Stays.refl (app : AppState Hash (LocalFs Hash)) : Stays app app :=
  ⟨fun _ _ h => h, fun _ _ => rfl, fun _ h => h⟩

section
variable {app app' : AppState Hash (LocalFs Hash)}

theorem Stays.mem (h : Stays app app') {x : Hash} (hx : x ∈ app.index.xorbs) :
    x ∈ app'.index.xorbs := by
  obtain ⟨xorbMeta, hm⟩ := Table.mem_iff.mp hx
  exact Table.mem_of_lookup (h.xorbs x xorbMeta hm)

theorem effect_metas {c : Choice Hash} {r : Request} {g g' : Handler Hash}
    (heff : Effect core (localFs core publicBase) c app g app' g') (hs : Served core r g) {x : Hash}
    {xorbMeta : XorbMeta} (hx : app.index.xorbs.lookup x = some xorbMeta) :
    app'.index.xorbs.lookup x = some xorbMeta := by
  cases heff with
  | indexed y info len index metrics clean done =>
    rw [(indexXorb_spec done).1]
    exact Table.lookup_orInsert_of_some hx
  | registered fh req result index clean done =>
    obtain ⟨_, _, _, hxorbs, _⟩ := registerFile_spec done
    exact hxorbs ▸ hx
  | evicted => exact absurd hs id
  | _ => exact hx

/-- Bytes stored under one hash, as the serializer wrote them, are the same bytes. -/
theorem shelved_blob (gate : core.GateLaws) (pipe : core.PipelineLaws)
    {s s' : State Hash (LocalFs Hash)} (h : Shelved core LocalFs.object s)
    (h' : Shelved core LocalFs.object s') {x : Hash}
    (hx : x ∈ s.app.index.xorbs) (hx' : x ∈ s'.app.index.xorbs) :
    s'.app.blob.files.lookup x = s.app.blob.files.lookup x := by
  obtain ⟨xorbMeta, hm⟩ := Table.mem_iff.mp hx
  obtain ⟨xorbMeta', hm'⟩ := Table.mem_iff.mp hx'
  obtain ⟨_, _, content, body, hb, hser, _⟩ := h.indexed x xorbMeta hm
  obtain ⟨_, _, content', body', hb', hser', _⟩ := h'.indexed x xorbMeta' hm'
  obtain ⟨_, rfl⟩ := Serialized.unique gate pipe hser hser'
  exact hb'.trans hb.symm

theorem world_stays (gate : core.GateLaws) (pipe : core.PipelineLaws)
    {w w' : World Hash (LocalFs Hash)} {e : Event Hash} (hi : RegisteredTerms.Invariant core w)
    (hs : Shelved core LocalFs.object w.server) (hs' : Shelved core LocalFs.object w'.server)
    (h : World.step core (localFs core publicBase) w e = some w') :
    Stays w.server.app w'.server.app := by
  have hidx : Extends w.server.app.index w'.server.app.index ∧
      ∀ x xorbMeta, w.server.app.index.xorbs.lookup x = some xorbMeta →
        w'.server.app.index.xorbs.lookup x = some xorbMeta := by
    obtain he | ⟨n, r, _, _, _, hstep⟩ | ⟨n, c, _, hstep⟩ := World.server_step h
    · rw [he]
      exact ⟨.refl _, fun _ _ h => h⟩
    · obtain ⟨i, r', he, _, hw⟩ | ⟨_, _, _, _, _, he, _⟩ := step_cases core _ hstep
      · rw [hw]
        exact ⟨.refl _, fun _ _ h => h⟩
      · cases he
    · obtain ⟨_, _, he, _⟩ | ⟨i, c', t, app, g', he, ht, heff, hw⟩ := step_cases core _ hstep
      · cases he
      · rw [hw]
        have hserved := hi.server.served i t ht
        exact ⟨effect_extends heff hserved, fun _ _ => effect_metas heff hserved⟩
  obtain ⟨hext, hmetas⟩ := hidx
  exact ⟨hmetas, fun x hx => shelved_blob gate pipe hs hs' hx (hext.xorbs x hx), hext.files⟩

theorem within_stays {pieces : Hash → List Bytes} {t : Term Hash} (hs : Stays app app')
    (h : Within app.blob app.index pieces t) : Within app'.blob app'.index pieces t := by
  obtain ⟨⟨xorbMeta, hm, hlaid, hle⟩, hne⟩ := h
  have hblob := hs.blobs _ (Table.mem_of_lookup hm)
  refine ⟨⟨xorbMeta, hs.xorbs _ _ hm, ⟨?_, hlaid.nonempty, hlaid.boundaries, hlaid.count⟩, hle⟩, hne⟩
  rw [hblob]
  exact hlaid.stored

theorem layout_stays {b : Bytes} {content : Hash → List (Chunk Hash)} {pieces : Hash → List Bytes}
    {file : FileRecord Hash} (hs : Stays app app') (h : LaidOut core app b content pieces file) :
    LaidOut core app' b content pieces file :=
  ⟨h.inside, fun t ht => within_stays hs (h.within t ht), h.packed, h.reads, h.own⟩

end

/-- What the server answers for a file whose terms lie like this. -/
def Responds (core : XetCore Hash) (publicBase : String) (pieces : Hash → List Bytes)
    (file : FileRecord Hash) (resp : ReconResponse) : Prop :=
  presignTerms core (localFs core publicBase).presignGet (file.terms.map (resolve pieces)) [] ∅ =
    .ok resp

/-- The address of a xorb's bytes. -/
def urlOf (core : XetCore Hash) (publicBase : String) (x : Hash) : String :=
  publicBase ++ xorbDataPath ++ core.hex x

section
variable {app : AppState Hash (LocalFs Hash)} {pieces : Hash → List Bytes}
  {file : FileRecord Hash} {resp : ReconResponse} {b : Bytes} {content : Hash → List (Chunk Hash)}

theorem responds_exists (core : XetCore Hash) (publicBase : String) (pieces : Hash → List Bytes)
    (file : FileRecord Hash) : ∃ resp, Responds core publicBase pieces file resp := by
  obtain ⟨m, hm, _⟩ := presignTerms_spec core (urlOf core publicBase)
    (file.terms.map (resolve pieces)) [] ∅
  exact ⟨_, hm⟩

theorem respond_read {app' : AppState Hash (LocalFs Hash)} {x : Hash} {hashHex : String}
    {range : Option HeaderValue} {reply : PartialContent} (hx : core.fromHex hashHex = some x)
    (h : respond core (localFs core publicBase) app (.xorbData hashHex range) =
      some (app', .xorbData (.ok reply))) :
    ∃ data first last, app.blob.files.lookup x = some data ∧
      parseRange range data.length = some (first, last) ∧
      readRange data first last = some reply.body := by
  simp only [respond, start, hx, runAlone, advance, localFs, LocalFs.head] at h
  cases hl : app.blob.files.lookup x with
  | none => simp [hl, runAlone] at h
  | some data =>
    simp only [hl, Option.map_some] at h
    cases hp : parseRange range data.length with
    | none => simp [hp, runAlone] at h
    | some p =>
      obtain ⟨first, last⟩ := p
      simp only [hp, Option.bind_some, runAlone, advance, LocalFs.getRange, hl] at h
      cases hr : readRange data first last with
      | none => simp [hr, runAlone] at h
      | some body =>
        simp only [hr, Option.map_some, Option.bind_some, runAlone, Option.some.injEq,
          Prod.mk.injEq, Answer.xorbData.injEq, Except.ok.injEq] at h
        rw [← h.2]
        exact ⟨data, first, last, rfl, hp, hr⟩

end

/-- The handler of a ranged GET is about to answer with this body. -/
def Carries (app : AppState Hash (LocalFs Hash)) (body : Bytes) : Handler Hash → Prop
  | .dataHead x _ range => x ∈ app.index.xorbs ∧ ∃ data first last,
    app.blob.files.lookup x = some data ∧ parseRange range data.length = some (first, last) ∧
      readRange data first last = some body
  | .dataRead x _ first last _ => x ∈ app.index.xorbs ∧ ∃ data,
    app.blob.files.lookup x = some data ∧ readRange data first last = some body
  | .reply a | .answered a => ∃ reply, a = .xorbData (.ok reply) ∧ reply.body = body
  | _ => False

/-- The handler of a reconstruction is about to answer with terms of the file. -/
def Looks (core : XetCore Hash) (publicBase : String) (app : AppState Hash (LocalFs Hash))
    (b : Bytes) : Handler Hash → Prop
  | .reconLock fh => fh = core.fileHashOf b
  | .reconPresign collected => ∃ content pieces file, LaidOut core app b content pieces file ∧
    Aligned core file ∧ collected = file.terms.map (resolve pieces)
  | .reply a | .answered a => ∃ content pieces file resp, LaidOut core app b content pieces file ∧
    Aligned core file ∧ Responds core publicBase pieces file resp ∧ a = .reconstruct (.ok resp)
  | _ => False

/-- What a call has read of a file, and what it has left to read. -/
def Gathered (core : XetCore Hash) (publicBase : String) (app : AppState Hash (LocalFs Hash))
    (b : Bytes) (entries : Table String (List FetchInfo)) (todo : List ReconTerm) (out : Bytes) :
    Prop :=
  ∃ content pieces file resp done rest, LaidOut core app b content pieces file ∧
    Aligned core file ∧ Responds core publicBase pieces file resp ∧ resp.fetchInfo = entries ∧
    file.terms = done ++ rest ∧ todo = rest.map (named core) ∧
    out = ((done.map (read content file.terms)).flatten.map Chunk.data).flatten

/-- How many steps a handler is from its response. -/
def stepsLeft : Handler Hash → ℕ
  | .reconLock _ | .dataHead .. => 3
  | .reconPresign _ | .dataRead .. => 2
  | .reply _ => 1
  | _ => 0

section
variable {app app' : AppState Hash (LocalFs Hash)} {b body : Bytes} {g : Handler Hash}

theorem carries_stays (hs : Stays app app') (h : Carries app body g) : Carries app' body g := by
  cases g with
  | dataHead x hashHex range =>
    obtain ⟨hx, data, first, last, hdata, hparse, hread⟩ := h
    exact ⟨hs.mem hx, data, first, last, (hs.blobs x hx).trans hdata, hparse, hread⟩
  | dataRead x hashHex first last len =>
    obtain ⟨hx, data, hdata, hread⟩ := h
    exact ⟨hs.mem hx, data, (hs.blobs x hx).trans hdata, hread⟩
  | _ => exact h

theorem looks_stays (hs : Stays app app') (h : Looks core publicBase app b g) :
    Looks core publicBase app' b g := by
  cases g with
  | reconPresign collected =>
    obtain ⟨content, pieces, file, hlay, hrest⟩ := h
    exact ⟨content, pieces, file, layout_stays hs hlay, hrest⟩
  | reply a | answered a =>
    obtain ⟨content, pieces, file, resp, hlay, hrest⟩ := h
    exact ⟨content, pieces, file, resp, layout_stays hs hlay, hrest⟩
  | _ => exact h

theorem gathered_stays {entries : Table String (List FetchInfo)} {todo : List ReconTerm}
    {out : Bytes} (hs : Stays app app') (h : Gathered core publicBase app b entries todo out) :
    Gathered core publicBase app' b entries todo out := by
  obtain ⟨content, pieces, file, resp, done, rest, hlay, hmore⟩ := h
  exact ⟨content, pieces, file, resp, done, rest, layout_stays hs hlay, hmore⟩

theorem carries_step {c : Choice Hash} (works : c.io = .ok) (h : Carries app body g) :
    (∃ a, g = .answered a) ∨ ∃ g', advance core (localFs core publicBase) c app g = some (app, g') ∧
      Carries app body g' ∧ stepsLeft g' < stepsLeft g := by
  cases g with
  | dataHead x hashHex range =>
    obtain ⟨hx, data, first, last, hdata, hparse, hread⟩ := h
    refine .inr ⟨.dataRead x hashHex first last data.length, ?_, ⟨hx, data, hdata, hread⟩, ?_⟩
    · simp [advance, localFs, LocalFs.head, works, hdata, hparse]
    · simp [stepsLeft]
  | dataRead x hashHex first last len =>
    obtain ⟨hx, data, hdata, hread⟩ := h
    refine .inr ⟨.reply (.xorbData (.ok (partialContent hashHex first last len body))), ?_,
      ⟨_, rfl, rfl⟩, by simp [stepsLeft]⟩
    simp [advance, localFs, LocalFs.getRange, works, hdata, hread]
  | reply a => exact .inr ⟨.answered a, rfl, h, by simp [stepsLeft]⟩
  | answered a => exact .inl ⟨a, rfl⟩
  | _ => exact absurd h id

theorem looks_step {c : Choice Hash} (clean : app.poisoned = false)
    (found : ∃ content pieces file, app.index.files.lookup (core.fileHashOf b) = some file ∧
      LaidOut core app b content pieces file ∧ Aligned core file)
    (h : Looks core publicBase app b g) :
    (∃ a, g = .answered a) ∨ ∃ g', advance core (localFs core publicBase) c app g = some (app, g') ∧
      Looks core publicBase app b g' ∧ stepsLeft g' < stepsLeft g := by
  cases g with
  | reconLock fh =>
    obtain rfl := h
    obtain ⟨content, pieces, file, hfile, hlay, hal⟩ := found
    refine .inr ⟨.reconPresign (file.terms.map (resolve pieces)), ?_,
      ⟨content, pieces, file, hlay, hal, rfl⟩, by simp [stepsLeft]⟩
    simp only [advance, lock, clean, collect, hfile, collectTerms_resolve hlay.within,
      Bool.false_eq_true, ↓reduceIte]
  | reconPresign collected =>
    obtain ⟨content, pieces, file, hlay, hal, rfl⟩ := h
    obtain ⟨resp, hresp⟩ := responds_exists core publicBase pieces file
    refine .inr ⟨.reply (.reconstruct (.ok resp)), ?_,
      ⟨content, pieces, file, resp, hlay, hal, hresp, rfl⟩, by simp [stepsLeft]⟩
    rw [advance, hresp]
  | reply a => exact .inr ⟨.answered a, rfl, h, by simp [stepsLeft]⟩
  | answered a => exact .inl ⟨a, rfl⟩
  | _ => exact absurd h id

/-- The next term of a file has a request, whose body holds the chunks to be read for
the term. -/
theorem gathered_next (hex : core.HexLaws) {entries : Table String (List FetchInfo)}
    {t : ReconTerm} {ts : List ReconTerm} {out : Bytes}
    (h : Gathered core publicBase app b entries (t :: ts) out) :
    ∃ fi request body data, pick entries t = .ok fi ∧
      rangeRequest publicBase fi = some request ∧ Carries app body (start core request) ∧
      deserializeChunks core (t.range.end_.toNat - t.range.start.toNat) body = .ok data ∧
      Gathered core publicBase app b entries ts (out ++ data) := by
  obtain ⟨content, pieces, file, resp, done, rest, hlay, hal, hresp, rfl, hterms, htodo, rfl⟩ := h
  cases rest with
  | nil => cases htodo
  | cons v rest =>
    rw [List.map_cons] at htodo
    obtain ⟨rfl, rfl⟩ := List.cons.inj htodo
    have hv : v ∈ file.terms := by simp [hterms]
    obtain ⟨u, hpick, hum, hx, hu⟩ := presigned_entry hex hresp hv
    -- the entry is that of the first cover, under the xorb's own address
    have hfetch : Fetches core publicBase app _ _ := fetches_chunks hex (hlay.within u hum)
    obtain ⟨hashHex, reply, hroute, hread, hbody⟩ := hfetch
    have hhex := hroute
    rw [show (fetchInfo _ (resolve pieces u)).url = publicBase ++ xorbDataPath ++ core.hex u.xorb
      from rfl, xorbDataRoute_presign hex, Option.some.injEq] at hhex
    have hfrom : core.fromHex hashHex = some u.xorb := by rw [← hhex, hex.from_hex]
    obtain ⟨⟨xorbMeta, hmeta, _⟩, _⟩ := hlay.within u hum
    refine ⟨fetchInfo (urlOf core publicBase) (resolve pieces u), .xorbData hashHex
      (some (rangeHeader (resolve pieces u).byteStart (resolve pieces u).byteEnd)), reply.body,
      ((RoundTrip.read content file.terms v).map Chunk.data).flatten, hpick, ?_, ?_, ?_, ?_⟩
    · exact Option.map_eq_some_iff.mpr ⟨hashHex, hroute, rfl⟩
    · simp only [start, hfrom]
      exact ⟨Table.mem_of_lookup hmeta, respond_read hfrom hread⟩
    · rw [hbody, hx]
      exact term_reads hlay.inside hlay.reads hv hu
    · exact ⟨content, pieces, file, resp, done ++ [v], rest, hlay, hal, hresp, rfl,
        by simp [hterms], rfl, by simp⟩

theorem gathered_whole (gate : core.GateLaws) (pipe : core.PipelineLaws)
    {entries : Table String (List FetchInfo)} {out : Bytes}
    (h : Gathered core publicBase app b entries [] out) : out = b := by
  obtain ⟨content, pieces, file, resp, done, rest, hlay, hal, _, _, hterms, htodo, rfl⟩ := h
  obtain rfl := List.map_eq_nil_iff.mp htodo.symm
  rw [List.append_nil] at hterms
  rw [← hterms, hlay.whole gate pipe hal]

end

/-- The world of the calls is one that they reach by themselves, and the readers'
requests are answered without a trace on the server. -/
structure Steady (core : XetCore Hash) (publicBase : String) (s : Net Hash) : Prop where
  reached : ∃ events,
    Run.Guarded (World.step core (localFs core publicBase)) Whole (World.boot {}) events ∧
    Run.exec (World.step core (localFs core publicBase)) (World.boot {}) events = some s.world
  tasks : ∀ n t, s.tasks n = some t → Reconstructing t.handler ∨ Ranging t.handler
  few : ∃ n, Run.Below n s.tasks

section
variable {s s' : Net Hash}

theorem Steady.invariant (hex : core.HexLaws) (gate : core.GateLaws) (pipe : core.PipelineLaws)
    (h : Steady core publicBase s) : RegisteredTerms.Invariant core s.world ∧
      Shelved core LocalFs.object s.world.server ∧ s.app.poisoned = false := by
  obtain ⟨events, whole, run⟩ := h.reached
  exact ⟨run_world hex gate pipe run, run_shelved hex gate pipe whole_serve whole run,
    (run_clean gate run).unpoisoned⟩

theorem Steady.layout (hex : core.HexLaws) (gate : core.GateLaws) (pipe : core.PipelineLaws)
    (h : Steady core publicBase s) {fh : Hash} (hm : fh ∈ s.app.index.files) :
    ∃ b content pieces file, core.fileHashOf b = fh ∧ s.app.index.files.lookup fh = some file ∧
      LaidOut core s.app b content pieces file := by
  obtain ⟨hi, hs, _⟩ := h.invariant hex gate pipe
  obtain ⟨file, hfile⟩ := Table.mem_iff.mp hm
  have hrec := hi.server.files fh file hfile
  have hbytes := hrec
  obtain ⟨b, rfl, _⟩ := hbytes
  obtain ⟨content, pieces, hlay⟩ := recorded_layout gate pipe hs hrec
  exact ⟨b, content, pieces, file, rfl, hfile, hlay⟩

theorem Steady.found (hex : core.HexLaws) (gate : core.GateLaws) (pipe : core.PipelineLaws)
    (h : Steady core publicBase s) {b : Bytes} (hd : Distinct core b)
    (hm : core.fileHashOf b ∈ s.app.index.files) :
    ∃ content pieces file, s.app.index.files.lookup (core.fileHashOf b) = some file ∧
      LaidOut core s.app b content pieces file ∧ Aligned core file := by
  obtain ⟨hi, _, _⟩ := h.invariant hex gate pipe
  obtain ⟨b', content, pieces, file, hb, hfile, hlay⟩ := h.layout hex gate pipe hm
  obtain rfl := fileHashOf_injective pipe hb
  exact ⟨content, pieces, file, hfile, hlay,
    aligned_distinct gate pipe hi.server.packed (hi.server.files _ file hfile) hd⟩

theorem Steady.collects (hex : core.HexLaws) (gate : core.GateLaws) (pipe : core.PipelineLaws)
    (h : Steady core publicBase s) (fh : Hash) : collect s.app.index fh ≠ none := by
  cases hl : s.app.index.files.lookup fh with
  | none => simp [collect, hl]
  | some file =>
    obtain ⟨_, _, pieces, file', _, hfile, hlay⟩ :=
      h.layout hex gate pipe (Table.mem_of_lookup hl)
    simp [collect, hfile, collectTerms_resolve hlay.within]

theorem Steady.traceless (hex : core.HexLaws) (gate : core.GateLaws) (pipe : core.PipelineLaws)
    (h : Steady core publicBase s) {c : Choice Hash} {app : AppState Hash (LocalFs Hash)}
    {g g' : Handler Hash} (hg : Reconstructing g ∨ Ranging g)
    (move : advance core (localFs core publicBase) c s.app g = some (app, g')) :
    (Reconstructing g' ∨ Ranging g') ∧ app = s.app := by
  rcases hg with hg | hg
  · obtain ⟨hg', rfl | ⟨_, fh, _, hn⟩⟩ := advance_reconstructing hg move
    · exact ⟨.inl hg', rfl⟩
    · exact absurd hn (h.collects hex gate pipe fh)
  · obtain ⟨hg', rfl⟩ := advance_ranging hg move
    exact ⟨.inr hg', rfl⟩

omit [DecidableEq Hash] in
theorem nextFetch_start {fileHashHex : String} {stage : Fetching} {r : Request}
    (h : nextFetch publicBase fileHashHex stage = some r) :
    Reconstructing (start core r) ∨ Ranging (start core r) := by
  cases stage with
  | query =>
    cases h
    exact .inl (start_reconstructing _)
  | gather entries offset todo out =>
    cases todo with
    | nil => cases h
    | cons t ts =>
      simp only [nextFetch] at h
      split at h
      · cases h
      · obtain ⟨hashHex, _, rfl⟩ := Option.map_eq_some_iff.mp h
        exact .inr (start_ranging _ _)
  | finished result => cases h

/-- A file operation behind a request of reader `i` succeeds, and a rename of a call
puts the call's own body in place. -/
def Working (i : ℕ) (s : Net Hash) : NetEvent Hash → Prop
  | .call e => Whole s.world e
  | .serve n c => ∀ r, s.readers i = some r → r.waiting = some n → c.io = .ok
  | _ => True

theorem Steady.step (hex : core.HexLaws) (gate : core.GateLaws) (pipe : core.PipelineLaws)
    {i : ℕ} {e : NetEvent Hash} (h : Steady core publicBase s) (works : Working i s e)
    (hs : Net.step core publicBase s e = some s') :
    Steady core publicBase s' ∧ Stays s.app s'.app := by
  cases Net.step_moved hs with
  | called e world step =>
    obtain ⟨events, whole, run⟩ := h.reached
    have hreached : Steady core publicBase { s with world } := by
      refine ⟨⟨events ++ [e], Run.guarded_append.mpr ⟨whole, ?_⟩, Run.exec_append.mpr
        ⟨s.world, run, by simp [Run.exec, step]⟩⟩, h.tasks, h.few⟩
      intro w hw
      obtain rfl := Option.some.inj (run.symm.trans hw)
      exact ⟨works, fun _ _ => trivial⟩
    obtain ⟨hi, hshelf, _⟩ := h.invariant hex gate pipe
    exact ⟨hreached, world_stays gate pipe hi hshelf (hreached.invariant hex gate pipe).2.1 step⟩
  | sent i' n r request call idle next free =>
    obtain ⟨m, hm⟩ := h.few
    refine ⟨⟨h.reached, Run.update_forall h.tasks (nextFetch_start next), max m (n + 1), ?_⟩,
      .refl _⟩
    refine Run.Below.update ?_ (by omega)
    exact fun j hj => hm j (by omega)
  | served n c t app g task move =>
    obtain ⟨hg, rfl⟩ := h.traceless hex gate pipe (h.tasks n t task) move
    obtain ⟨m, hm⟩ := h.few
    exact ⟨⟨h.reached, Run.update_forall h.tasks hg, m, hm.update (hm.lt task)⟩, .refl _⟩
  | _ => exact ⟨⟨h.reached, h.tasks, h.few⟩, .refl _⟩

end

/-- A call has read some terms of the file, or all of it unless a response was lost. -/
def Standing (core : XetCore Hash) (publicBase : String) (app : AppState Hash (LocalFs Hash))
    (b : Bytes) (lost : Prop) : Fetching → Prop
  | .query => True
  | .gather entries offset todo out => offset = 0 ∧ Gathered core publicBase app b entries todo out
  | .finished result => result = .ok b ∨ lost

/-- The handler of the request that a call waits for brings what comes next. -/
def Awaited (core : XetCore Hash) (publicBase : String) (app : AppState Hash (LocalFs Hash))
    (b : Bytes) : Fetching → Handler Hash → Prop
  | .query, g => Looks core publicBase app b g
  | .gather entries _ (t :: ts) out, g => ∃ body data, Carries app body g ∧
    deserializeChunks core (t.range.end_.toNat - t.range.start.toNat) body = .ok data ∧
      Gathered core publicBase app b entries ts (out ++ data)
  | _, _ => False

/-- How many terms are left to a call, and its end. -/
def termsLeft : Fetching → ℕ
  | .gather _ _ todo _ => todo.length + 1
  | _ => 0

section
variable {app app' : AppState Hash (LocalFs Hash)} {b : Bytes} {lost : Prop} {stage : Fetching}
  {g : Handler Hash}

theorem standing_stays (hs : Stays app app') (h : Standing core publicBase app b lost stage) :
    Standing core publicBase app' b lost stage := by
  cases stage with
  | gather entries offset todo out => exact ⟨h.1, gathered_stays hs h.2⟩
  | _ => exact h

theorem awaited_stays (hs : Stays app app') (h : Awaited core publicBase app b stage g) :
    Awaited core publicBase app' b stage g := by
  cases stage with
  | query => exact looks_stays hs h
  | gather entries offset todo out =>
    cases todo with
    | nil => exact absurd h id
    | cons t ts =>
      obtain ⟨body, data, hc, hd, hnext⟩ := h
      exact ⟨body, data, carries_stays hs hc, hd, gathered_stays hs hnext⟩
  | finished result => exact absurd h id

theorem awaited_step {c : Choice Hash} (works : c.io = .ok) (clean : app.poisoned = false)
    (found : ∃ content pieces file, app.index.files.lookup (core.fileHashOf b) = some file ∧
      LaidOut core app b content pieces file ∧ Aligned core file)
    (h : Awaited core publicBase app b stage g) :
    (∃ a, g = .answered a) ∨ ∃ g', advance core (localFs core publicBase) c app g = some (app, g') ∧
      Awaited core publicBase app b stage g' ∧ stepsLeft g' < stepsLeft g := by
  cases stage with
  | query => exact looks_step clean found h
  | gather entries offset todo out =>
    cases todo with
    | nil => exact absurd h id
    | cons t ts =>
      obtain ⟨body, data, hc, hnext⟩ := h
      obtain ha | ⟨g', ha, hc', hlt⟩ := carries_step works hc
      · exact .inl ha
      · exact .inr ⟨g', ha, ⟨body, data, hc', hnext⟩, hlt⟩
  | finished result => exact absurd h id

theorem awaited_answer {a : Answer} (hs : Standing core publicBase app b lost stage)
    (h : Awaited core publicBase app b stage (.answered a)) :
    Standing core publicBase app b lost (resumeFetch core stage a) ∧
      resumeFetch core stage a ≠ .query ∧
      (stage ≠ .query → termsLeft (resumeFetch core stage a) < termsLeft stage) := by
  cases stage with
  | query =>
    obtain ⟨content, pieces, file, resp, hlay, hal, hresp, rfl⟩ := h
    obtain ⟨hoffset, hterms⟩ := presigned_terms hresp
    exact ⟨⟨hoffset, content, pieces, file, resp, [], file.terms, hlay, hal, hresp, rfl, rfl,
      hterms, rfl⟩, by simp [resumeFetch], by simp⟩
  | gather entries offset todo out =>
    cases todo with
    | nil => exact absurd h id
    | cons t ts =>
      obtain ⟨body, data, ⟨reply, rfl, rfl⟩, hd, hnext⟩ := h
      have hresume : resumeFetch core (.gather entries offset (t :: ts) out)
          (.xorbData (.ok reply)) = .gather entries offset ts (out ++ data) := by
        simp only [resumeFetch, bodyOf, hd]
      rw [hresume]
      exact ⟨⟨hs.1, hnext⟩, by simp, by simp [termsLeft]⟩
  | finished result => exact absurd h id

theorem standing_next (hex : core.HexLaws) (gate : core.GateLaws) (pipe : core.PipelineLaws)
    (h : Standing core publicBase app b lost stage) :
    (∃ result, stage = .finished result) ∨
    (settle publicBase stage = some (.finished (.ok b)) ∧
      nextFetch publicBase (core.hex (core.fileHashOf b)) stage = none ∧ 0 < termsLeft stage ∧
      stage ≠ .query ∧ ∀ g : Handler Hash, ¬ Awaited core publicBase app b stage g) ∨
    ∃ r, settle publicBase stage = none ∧
      nextFetch publicBase (core.hex (core.fileHashOf b)) stage = some r ∧
      Awaited core publicBase app b stage (start core r) ∧ stepsLeft (start core r) ≤ 3 := by
  cases stage with
  | query =>
    refine .inr (.inr ⟨_, rfl, rfl, ?_, ?_⟩)
    · simp only [start, hex.from_hex]
      rfl
    · simp [start, hex.from_hex, stepsLeft]
  | gather entries offset todo out =>
    obtain ⟨rfl, hg⟩ := h
    cases todo with
    | nil =>
      obtain rfl := gathered_whole gate pipe hg
      exact .inr (.inl ⟨rfl, rfl, by simp [termsLeft], by simp, fun _ => id⟩)
    | cons t ts =>
      obtain ⟨fi, r, body, data, hpick, hr, hc, hd, hnext⟩ := gathered_next hex hg
      refine .inr (.inr ⟨r, ?_, ?_, ⟨body, data, hc, hd, hnext⟩, ?_⟩)
      · simp only [settle, hpick, hr]
      · simp only [nextFetch, hpick, hr]
      · generalize start core r = g at hc
        cases g <;> simp [stepsLeft]
  | finished result => exact .inl ⟨result, rfl⟩

end

/-- Call `i` reads the file of these bytes. -/
structure Follows (core : XetCore Hash) (publicBase : String) (i : ℕ) (b : Bytes) (lost : Prop)
    (s : Net Hash) : Prop extends Steady core publicBase s where
  registered : core.fileHashOf b ∈ s.app.index.files
  reading : ∃ r, s.readers i = some r ∧ r.fileHashHex = core.hex (core.fileHashOf b) ∧
    Standing core publicBase s.app b lost r.stage ∧ ∀ n, r.waiting = some n →
      ∃ t, s.tasks n = some t ∧ Awaited core publicBase s.app b r.stage t.handler

section
variable {s s' : Net Hash} {i : ℕ} {b : Bytes} {lost : Prop} {e : NetEvent Hash}

omit [DecidableEq Hash] in
theorem update_other {j : ℕ} {r r' : Reader} (hj : j ≠ i) (hr : s.readers i = some r) :
    (s.update j r').readers i = some r := by
  simp [Net.update, Ne.symm hj, hr]

omit [DecidableEq Hash] in
theorem update_same {r' : Reader} : (s.update i r').readers i = some r' := by
  simp [Net.update]

theorem Follows.step (hex : core.HexLaws) (gate : core.GateLaws) (pipe : core.PipelineLaws)
    (hd : Distinct core b) (h : Follows core publicBase i b lost s) (works : Working i s e)
    (loses : ∀ inBody, e = .hangUp i inBody → lost)
    (hs : Net.step core publicBase s e = some s') : Follows core publicBase i b lost s' := by
  obtain ⟨hsteady, hstays⟩ := h.toSteady.step hex gate pipe works hs
  obtain ⟨_, _, hclean⟩ := h.toSteady.invariant hex gate pipe
  have hfound := h.toSteady.found hex gate pipe hd h.registered
  refine ⟨hsteady, hstays.files _ h.registered, ?_⟩
  obtain ⟨r, hr, hhex, hstand, hwait⟩ := h.reading
  cases Net.step_moved hs with
  | called e world step =>
    refine ⟨r, hr, hhex, standing_stays hstays hstand, ?_⟩
    intro n hn
    obtain ⟨t, ht, ha⟩ := hwait n hn
    exact ⟨t, ht, awaited_stays hstays ha⟩
  | begun j fileHashHex fresh =>
    have hj : j ≠ i := by
      rintro rfl
      cases fresh.symm.trans hr
    exact ⟨r, update_other hj hr, hhex, hstand, hwait⟩
  | settled j r' stage call next =>
    by_cases hj : j = i
    · subst hj
      obtain rfl := Option.some.inj (call.symm.trans hr)
      obtain ⟨_, he⟩ | ⟨hend, _, _, _, hnone⟩ | ⟨_, hnone, _⟩ :=
        standing_next hex gate pipe hstand
      · rw [he] at next
        cases next
      · obtain rfl := Option.some.inj (next.symm.trans hend)
        refine ⟨_, update_same, hhex, .inl rfl, ?_⟩
        intro n hn
        obtain ⟨t, _, ha⟩ := hwait n hn
        exact absurd ha (hnone _)
      · cases next.symm.trans hnone
    · exact ⟨r, update_other hj hr, hhex, hstand, hwait⟩
  | sent j n r' request call idle next free =>
    by_cases hj : j = i
    · subst hj
      obtain rfl := Option.some.inj (call.symm.trans hr)
      refine ⟨_, update_same, hhex, hstand, ?_⟩
      intro m hm
      cases hm
      refine ⟨⟨request, start core request⟩, by simp [Net.update], ?_⟩
      rw [hhex] at next
      obtain ⟨_, he⟩ | ⟨_, hnone, _⟩ | ⟨_, _, hnext, ha, _⟩ := standing_next hex gate pipe hstand
      · rw [he] at next
        cases next
      · cases next.symm.trans hnone
      · obtain rfl := Option.some.inj (next.symm.trans hnext)
        exact ha
    · refine ⟨r, update_other hj hr, hhex, hstand, ?_⟩
      intro m hm
      obtain ⟨t, ht, ha⟩ := hwait m hm
      have hne : m ≠ n := by
        rintro rfl
        cases free.symm.trans ht
      exact ⟨t, by simp [Net.update, hne, ht], ha⟩
  | received j n r' request a call waits task =>
    by_cases hj : j = i
    · subst hj
      obtain rfl := Option.some.inj (call.symm.trans hr)
      obtain ⟨t, ht, ha⟩ := hwait n waits
      obtain rfl := Option.some.inj (task.symm.trans ht)
      exact ⟨_, update_same, hhex, (awaited_answer hstand ha).1, fun m hm => by cases hm⟩
    · exact ⟨r, update_other hj hr, hhex, hstand, hwait⟩
  | lost j inBody r' call =>
    by_cases hj : j = i
    · subst hj
      obtain rfl := Option.some.inj (call.symm.trans hr)
      refine ⟨_, update_same, hhex, ?_, fun m hm => by cases hm⟩
      cases hst : r'.stage with
      | finished result =>
        rw [hst] at hstand
        exact hstand
      | _ => exact .inr (loses inBody rfl)
    · exact ⟨r, update_other hj hr, hhex, hstand, hwait⟩
  | served n c t app g task move =>
    obtain ⟨_, rfl⟩ := h.toSteady.traceless hex gate pipe (h.tasks n t task) move
    refine ⟨r, hr, hhex, hstand, ?_⟩
    intro m hm
    obtain ⟨t', ht', ha⟩ := hwait m hm
    by_cases hne : m = n
    · subst hne
      obtain rfl := Option.some.inj (task.symm.trans ht')
      refine ⟨⟨t.request, g⟩, by simp [Net.served], ?_⟩
      obtain ⟨a, he⟩ | ⟨g', hg', ha', _⟩ := awaited_step (works r hr hm) hclean hfound ha
      · rw [he] at move
        cases move
      · obtain ⟨_, rfl⟩ := Prod.ext_iff.mp (Option.some.inj (move.symm.trans hg'))
        exact ha'
    · exact ⟨t', by simp [Net.served, hne, ht'], ha⟩

/-- A step of call `i`, or one of the handler that it waits for, which does not fail. -/
def Alone (i : ℕ) (s : Net Hash) : NetEvent Hash → Prop
  | .settle j | .send j _ | .receive j => j = i
  | .serve n c => c.io = .ok ∧ ∃ r, s.readers i = some r ∧ r.waiting = some n
  | _ => False

/-- How many steps a call is from its next stage. -/
def waitLeft (s : Net Hash) (r : Reader) : ℕ :=
  match r.waiting with
  | none => 5
  | some n => ((s.tasks n).map (fun t => stepsLeft t.handler + 1)).getD 0

/-- A call comes closer to its next stage, or to its end. -/
def Advances (s s' : Net Hash) (r r' : Reader) : Prop :=
  (r'.stage = r.stage ∧ waitLeft s' r' < waitLeft s r) ∨
    (r'.stage ≠ .query ∧ (r.stage ≠ .query → termsLeft r'.stage < termsLeft r.stage))

/-- A call that is not done can take a step, or its handler can. -/
theorem Follows.progress (hex : core.HexLaws) (gate : core.GateLaws) (pipe : core.PipelineLaws)
    (hd : Distinct core b) (h : Follows core publicBase i b lost s) {r : Reader}
    (hr : s.readers i = some r) (busy : ∀ result, r.stage ≠ .finished result) :
    ∃ e s' r', Alone i s e ∧ Working i s e ∧ Net.step core publicBase s e = some s' ∧
      s'.readers i = some r' ∧ Advances s s' r r' := by
  obtain ⟨_, _, hclean⟩ := h.toSteady.invariant hex gate pipe
  have hfound := h.toSteady.found hex gate pipe hd h.registered
  obtain ⟨r', hr', hhex, hstand, hwait⟩ := h.reading
  obtain rfl := Option.some.inj (hr.symm.trans hr')
  cases hw : r.waiting with
  | none =>
    obtain ⟨result, he⟩ | ⟨hend, _, hpos, hq, _⟩ | ⟨request, _, hnext, _, hleft⟩ :=
      standing_next hex gate pipe hstand
    · exact absurd he (busy result)
    · refine ⟨.settle i, s.update i { r with stage := .finished (.ok b) }, _, rfl, trivial, ?_,
        update_same, .inr ⟨by simp, fun _ => by simpa [termsLeft] using hpos⟩⟩
      simp [Net.step, hr, hend]
    · obtain ⟨n, hn⟩ := h.few
      have hfree : s.tasks n = none := hn n (Nat.le_refl n)
      let asked : Net Hash :=
        { s with tasks := Function.update s.tasks n (some ⟨request, start core request⟩) }
      refine ⟨.send i n, asked.update i { r with waiting := some n }, { r with waiting := some n },
        rfl, trivial, ?_, update_same, .inl ⟨rfl, ?_⟩⟩
      · simp only [Net.step, Server.step, Net.server, hr, hw, hhex, hnext, hfree,
          Option.bind_eq_bind, Option.bind_some, Option.isSome_none, Bool.false_eq_true, ↓reduceIte]
        rfl
      · simp only [waitLeft, hw, asked, Net.update, Function.update_self, Option.map_some,
          Option.getD_some]
        omega
  | some n =>
    obtain ⟨⟨request, g⟩, ht, ha⟩ := hwait n hw
    obtain ⟨a, rfl⟩ | ⟨g', hg', _, hlt⟩ := awaited_step (c := {}) rfl hclean hfound ha
    · obtain ⟨_, hq, hleft⟩ := awaited_answer hstand ha
      refine ⟨.receive i, s.update i { r with stage := resumeFetch core r.stage a, waiting := none },
        _, rfl, trivial, ?_, update_same, .inr ⟨hq, hleft⟩⟩
      simp [Net.step, hr, hw, ht]
    · refine ⟨.serve n {}, s.served ⟨s.app, Function.update s.tasks n (some ⟨request, g'⟩)⟩, r,
        ⟨rfl, r, hr, hw⟩, fun _ _ _ => rfl, ?_, hr, .inl ⟨rfl, ?_⟩⟩
      · have hg' : advance core (localFs core publicBase) {} s.server.app g = some (s.app, g') := hg'
        simp only [Net.step, Server.step, Net.server, ht, Option.bind_eq_bind] at hg' ⊢
        simp only [hg', Option.map_some, Option.bind_some]
      · simpa [waitLeft, hw, ht, Net.served] using hlt

omit [DecidableEq Hash] in
theorem waitLeft_le (s : Net Hash) (r : Reader) : waitLeft s r ≤ 5 := by
  have hsteps : ∀ g : Handler Hash, stepsLeft g ≤ 3 := by
    intro g
    cases g <;> simp [stepsLeft]
  unfold waitLeft
  split
  · exact Nat.le_refl 5
  · rename_i n _
    cases s.tasks n with
    | none => simp
    | some t =>
      have := hsteps t.handler
      simp only [Option.map_some, Option.getD_some]
      omega

/-- Call `i` stands at a stage like this. -/
def At (i : ℕ) (P : Fetching → Prop) (s : Net Hash) : Prop :=
  ∃ r, s.readers i = some r ∧ P r.stage

/-- How far a call is from the terms of the file. -/
def queryLeft (s : Net Hash) (r : Reader) : ℕ :=
  match r.stage with
  | .query => waitLeft s r + 1
  | _ => 0

/-- How far a call is from its end, once it has the terms of the file. -/
def workLeft (s : Net Hash) (r : Reader) : ℕ := 6 * termsLeft r.stage + waitLeft s r

omit [DecidableEq Hash] in
theorem queryLeft_lt {r r' : Reader} (h : Advances s s' r r') (hq : r.stage = .query) :
    queryLeft s' r' < queryLeft s r := by
  unfold queryLeft
  rw [hq]
  rcases h with ⟨he, hlt⟩ | ⟨hq', _⟩
  · rw [he, hq]
    exact Nat.succ_lt_succ hlt
  · cases hst : r'.stage with
    | query => exact absurd hst hq'
    | _ => exact Nat.succ_pos _

omit [DecidableEq Hash] in
theorem workLeft_lt {r r' : Reader} (h : Advances s s' r r') (hq : r.stage ≠ .query) :
    r'.stage ≠ .query ∧ workLeft s' r' < workLeft s r := by
  have hle := waitLeft_le s' r'
  unfold workLeft
  rcases h with ⟨he, hlt⟩ | ⟨hq', hlt⟩
  · rw [he]
    exact ⟨hq, by omega⟩
  · have := hlt hq
    exact ⟨hq', by omega⟩

theorem Follows.advance (hex : core.HexLaws) (gate : core.GateLaws) (pipe : core.PipelineLaws)
    (hd : Distinct core b) (h : Follows core publicBase i b False s) {r : Reader}
    (hr : s.readers i = some r) (hnot : ¬ At i (· = .finished (.ok b)) s) :
    ∃ e s' r', Alone i s e ∧ Net.step core publicBase s e = some s' ∧
      Follows core publicBase i b False s' ∧ s'.readers i = some r' ∧ Advances s s' r r' := by
  have hbusy : ∀ result, r.stage ≠ .finished result := by
    intro result he
    obtain ⟨r', hr', _, hstand, _⟩ := h.reading
    obtain rfl := Option.some.inj (hr.symm.trans hr')
    rw [he] at hstand
    obtain rfl := hstand.resolve_right id
    exact hnot ⟨r, hr, he⟩
  obtain ⟨e, s', r', halone, hworks, hstep, hr', hadv⟩ := h.progress hex gate pipe hd hr hbusy
  refine ⟨e, s', r', halone, hstep, h.step hex gate pipe hd hworks ?_ hstep, hr', hadv⟩
  rintro inBody rfl
  exact halone

theorem Follows.reaches {J : Fetching → Prop} (done : Net Hash → Prop)
    (rank : Net Hash → Reader → ℕ) (hex : core.HexLaws) (gate : core.GateLaws)
    (pipe : core.PipelineLaws) (hd : Distinct core b)
    (ends : ∀ s, At i (· = .finished (.ok b)) s → At i J s → done s)
    (lowers : ∀ s s' r r', s.readers i = some r → J r.stage → ¬ done s → Advances s s' r r' →
      J r'.stage ∧ rank s' r' < rank s r)
    (h : Follows core publicBase i b False s) (hJ : At i J s) :
    ∃ more s', Run.Guarded (Net.step core publicBase) (Alone i) s more ∧
      Run.exec (Net.step core publicBase) s more = some s' ∧
      Follows core publicBase i b False s' ∧ done s' := by
  have hmove : ∀ s, Follows core publicBase i b False s ∧ At i J s → ¬ done s →
      ∃ e s', Alone i s e ∧ Net.step core publicBase s e = some s' ∧
        (Follows core publicBase i b False s' ∧ At i J s') ∧
        (s'.readers i).elim 0 (rank s') < (s.readers i).elim 0 (rank s) := by
    rintro s ⟨hf, r, hr, hst⟩ hnot
    obtain ⟨e, s', r', halone, hstep, hf', hr', hadv⟩ :=
      hf.advance hex gate pipe hd hr (fun hend => hnot (ends s hend ⟨r, hr, hst⟩))
    obtain ⟨hst', hlt⟩ := lowers s s' r r' hr hst hnot hadv
    refine ⟨e, s', halone, hstep, ⟨hf', r', hr', hst'⟩, ?_⟩
    rw [hr, hr', Option.elim_some, Option.elim_some]
    exact hlt
  obtain ⟨more, s', hguard, hrun, ⟨hf, _⟩, hdone⟩ := Run.exec_reaches _ hmove ⟨h, hJ⟩
  exact ⟨more, s', hguard, hrun, hf, hdone⟩

/-- A call that loses no response ends with the bytes of the file, by its own steps. -/
theorem Follows.completes (hex : core.HexLaws) (gate : core.GateLaws) (pipe : core.PipelineLaws)
    (hd : Distinct core b) (h : Follows core publicBase i b False s) :
    ∃ more s', Run.Guarded (Net.step core publicBase) (Alone i) s more ∧
      Run.exec (Net.step core publicBase) s more = some s' ∧
      At i (· = .finished (.ok b)) s' := by
  have hquery : ∀ s : Net Hash, ¬ At i (· ≠ .query) s → ∀ r, s.readers i = some r →
      r.stage = .query := by
    intro s hnot r hr
    by_contra hq
    exact hnot ⟨r, hr, hq⟩
  have hstart : At i (fun _ => True) s := h.reading.imp (fun _ hr => ⟨hr.1, trivial⟩)
  obtain ⟨first, u, hfirst, hu, hfollow, hterms⟩ :=
    h.reaches (J := fun _ => True) (At i (· ≠ .query)) queryLeft hex gate pipe hd
      (by
        rintro s ⟨r, hr, he⟩ _
        exact ⟨r, hr, by rw [he]; simp⟩)
      (fun s s' r r' hr _ hnot hadv => ⟨trivial, queryLeft_lt hadv (hquery s hnot r hr)⟩) hstart
  obtain ⟨second, s', hsecond, hs', _, hdone⟩ :=
    hfollow.reaches (J := (· ≠ .query)) (At i (· = .finished (.ok b))) workLeft
      hex gate pipe hd (fun _ hend _ => hend)
      (fun _ _ _ _ _ hq _ hadv => workLeft_lt hadv hq) hterms
  refine ⟨first ++ second, s', ?_, Run.exec_append.mpr ⟨u, hu, hs'⟩, hdone⟩
  refine Run.guarded_append.mpr ⟨hfirst, fun v hv => ?_⟩
  obtain rfl := Option.some.inj (hu.symm.trans hv)
  exact hsecond

end

theorem boot_steady (core : XetCore Hash) (publicBase : String) :
    Steady core publicBase (Net.boot : Net Hash) where
  reached := ⟨[], trivial, rfl⟩
  tasks := by
    intro n t ht
    cases ht
  few := ⟨0, fun _ _ => rfl⟩

/-- The whole run of a call, from its begin on. -/
theorem follows_run (lost : Prop) (hex : core.HexLaws) (gate : core.GateLaws)
    (pipe : core.PipelineLaws)
    {before after : List (NetEvent Hash)} {i j : ℕ} {u s : Net Hash} {c : Client Hash}
    {h : String}
    (working : Run.Guarded (Net.step core publicBase) (Working i) Net.boot
      (before ++ .begin i h :: after))
    (start : Run.exec (Net.step core publicBase) Net.boot before = some u)
    (call : u.world.clients j = some c) (returned : c.stage = .finished (.ok h))
    (distinct : Distinct core c.job.bytes)
    (loses : ∀ inBody, .hangUp i inBody ∈ after → lost)
    (run : Run.exec (Net.step core publicBase) u (.begin i h :: after) = some s) :
    Follows core publicBase i c.job.bytes lost s := by
  obtain ⟨hbefore, hrest⟩ := Run.guarded_append.mp working
  have hsteady := Run.exec_invariant (I := Steady core publicBase)
    (fun _ _ _ hi hw hs => (hi.step hex gate pipe hw hs).1) (boot_steady core publicBase) hbefore
    start
  obtain ⟨events, _, hworld⟩ := hsteady.reached
  obtain ⟨rfl, hm⟩ := (run_confirmed hex gate pipe hworld).calls j c call h returned
  obtain ⟨v, hbegin, hafter⟩ := Run.exec_cons.mp run
  have hguard := (hrest u start).2 v hbegin
  have hfollow : Follows core publicBase i c.job.bytes lost v := by
    obtain ⟨hv, hstays⟩ := hsteady.step hex gate pipe (hrest u start).1 hbegin
    refine ⟨hv, hstays.files _ hm, ?_⟩
    cases Net.step_moved hbegin with
    | begun _ _ fresh => exact ⟨_, update_same, rfl, trivial, fun n hn => by cases hn⟩
  have hin : Run.Guarded (Net.step core publicBase) (fun _ e => e ∈ after) v after :=
    Run.guarded_of_forall (fun _ he _ => he) v
  refine Run.exec_invariant (fun s e s' hi hw hs => ?_) hfollow (Run.guarded_and hguard hin) hafter
  refine hi.step hex gate pipe distinct hw.1 ?_ hs
  rintro inBody rfl
  exact loses inBody hw.2

/-- A call of `reconstruct` that begins once an ingest of distinct chunks has returned
its hash ends with the ingested bytes, whatever is ingested and read meanwhile, unless it
loses a response. Wherever it stands, it comes to its end by its own steps and those of
the handlers that it waits for. -/
theorem reads_concurrent (hex : core.HexLaws) (gate : core.GateLaws) (pipe : core.PipelineLaws)
    (publicBase : String) (before after : List (NetEvent Hash)) (i j : ℕ) (u s : Net Hash)
    (c : Client Hash) (h : String)
    (working : Run.Guarded (Net.step core publicBase) (Working i) Net.boot
      (before ++ .begin i h :: after))
    (start : Run.exec (Net.step core publicBase) Net.boot before = some u)
    (call : u.world.clients j = some c) (returned : c.stage = .finished (.ok h))
    (distinct : Distinct core c.job.bytes)
    (run : Run.exec (Net.step core publicBase) u (.begin i h :: after) = some s) :
    (∀ r result, s.readers i = some r → r.stage = .finished result →
      result = .ok c.job.bytes ∨ ∃ inBody, .hangUp i inBody ∈ after) ∧
    ((∀ inBody, .hangUp i inBody ∉ after) → ∃ more s',
      Run.Guarded (Net.step core publicBase) (Alone i) s more ∧
      Run.exec (Net.step core publicBase) s more = some s' ∧
      At i (· = .finished (.ok c.job.bytes)) s') := by
  constructor
  · intro r result hr hdone
    have hfollow := follows_run (∃ inBody, .hangUp i inBody ∈ after) hex gate pipe working
      start call returned distinct (fun inBody hin => ⟨inBody, hin⟩) run
    obtain ⟨r', hr', _, hstand, _⟩ := hfollow.reading
    obtain rfl := Option.some.inj (hr.symm.trans hr')
    rw [hdone] at hstand
    exact hstand
  · intro kept
    exact (follows_run False hex gate pipe working start call returned distinct kept
      run).completes hex gate pipe distinct

/-- A file of two chunks is ingested. -/
def ingestOne : List (Event Plain.PlainHash) :=
  .begin 0 ⟨"v", "p", [1, 2]⟩ :: ask 0 0 ++ ask 0 1 ++ [.compute 0, .compute 0] ++ put 0 2 ++
    .compute 0 :: ask 0 3

/-- A call has asked for the file while another file is ingested. -/
def readWhile : List (NetEvent Plain.PlainHash) :=
  [.send 0 0, .serve 0 {}, .call (.begin 1 ⟨"v", "q", [1, 2, 2]⟩)] ++ (ask 1 4).map .call ++
    [.serve 0 {}, .serve 0 {}, .receive 0, .send 0 1]

/-- A test of `Working`. -/
def workingTest (s : Net Plain.PlainHash) : NetEvent Plain.PlainHash → Bool
  | .call e => wholeTest s.world e
  | .serve _ c => c.io = .ok
  | _ => true

theorem workingTest_working {i : ℕ} {s : Net Plain.PlainHash} {e : NetEvent Plain.PlainHash}
    (h : workingTest s e = true) : Working i s e := by
  cases e with
  | call e => exact wholeTest_whole h
  | serve n c => exact fun _ _ _ => of_decide_eq_true h
  | _ => trivial

theorem reads_concurrent_two : ∃ s more s',
    Run.exec (Net.step Plain.plain "") Net.boot
      (ingestOne.map .call ++
        .begin 0 (Plain.hex (Plain.plain.fileHashOf [1, 2])) :: readWhile) = some s ∧
    Run.exec (Net.step Plain.plain "") s more = some s' ∧
    At 0 (· = .finished (.ok [1, 2])) s' := by
  have hstart : (Run.exec (Net.step Plain.plain "") Net.boot (ingestOne.map .call)).map (fun u =>
      (u.world.clients 0).map (fun c => (c.job.bytes, hashReturned c))) =
      some (some ([1, 2], some (Plain.hex (Plain.plain.fileHashOf [1, 2])))) := by decide +kernel
  have hworks : Run.check (Net.step Plain.plain "") workingTest Net.boot
      (ingestOne.map .call ++
        .begin 0 (Plain.hex (Plain.plain.fileHashOf [1, 2])) :: readWhile) = true := by
    decide +kernel
  have hrun : (Run.exec (Net.step Plain.plain "") Net.boot
      (ingestOne.map .call ++
        .begin 0 (Plain.hex (Plain.plain.fileHashOf [1, 2])) :: readWhile)).isSome =
      true := by decide +kernel
  obtain ⟨s, hs⟩ := Option.isSome_iff_exists.mp hrun
  obtain ⟨u, hu, hafter⟩ := Run.exec_append.mp hs
  obtain ⟨u', hu', hl⟩ := Option.map_eq_some_iff.mp hstart
  obtain rfl := Option.some.inj (hu.symm.trans hu')
  obtain ⟨c, hc, hdone⟩ := Option.map_eq_some_iff.mp hl
  obtain ⟨hbytes, hret⟩ := Prod.ext_iff.mp hdone
  simp only at hbytes
  obtain ⟨_, hend⟩ := reads_concurrent Plain.plain_hex Plain.plain_gate Plain.plain_pipeline ""
    (ingestOne.map .call) readWhile 0 0 u s c _
    (Run.guarded_of_test (fun _ _ => workingTest_working) hworks) hu hc (hashReturned_eq hret)
    (by rw [hbytes]; decide) hafter
  rw [hbytes] at hend
  obtain ⟨more, s', _, hmore, hfinal⟩ := hend (by simp [readWhile, ask])
  exact ⟨s, more, s', hs, hmore, hfinal⟩

end Dejaveph.Proofs.ConcurrentReads
