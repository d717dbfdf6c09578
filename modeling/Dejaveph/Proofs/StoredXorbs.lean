import Dejaveph.Proofs.Unpoisoned
import Dejaveph.Proofs.RegisteredTerms
import Dejaveph.Proofs.ServedRanges

namespace Dejaveph.Proofs.StoredXorbs
open Lib Server Agent DedupSound Unpoisoned RegisteredTerms ServedRanges

variable {Hash β : Type} {core : XetCore Hash}

/-- A xorb hash determines what the serializer wrote under it. -/
theorem Serialized.unique (gate : core.GateLaws) (pipe : core.PipelineLaws) {x : Hash}
    {content content' : List (Chunk Hash)} {body body' : Bytes}
    (h : Serialized core content ⟨x, body⟩) (h' : Serialized core content' ⟨x, body'⟩) :
    content = content' ∧ body = body' := by
  obtain rfl := (h.packed pipe).unique gate pipe (h'.packed pipe)
  have hw := h.written
  rw [h'.written] at hw
  cases hw
  exact ⟨rfl, rfl⟩

/-- The bytes stored under `x` are those that the serializer wrote for a run of
chunks, and this is their footer. -/
def Kept (core : XetCore Hash) (stored : Hash → Option Bytes) (x : Hash)
    (info : XorbObjectInfoV1 Hash) : Prop :=
  ∃ content body, stored x = some body ∧ Serialized core content ⟨x, body⟩ ∧
    core.validateXorbObject body x = .ok (some info)

/-- An upload in flight carries what the serializer wrote, and it is stored once
the upload is about to be indexed. -/
def Upload (core : XetCore Hash) (stored : Hash → Option Bytes) : Handler Hash → Prop
  | .putStore x info call => call.key = x ∧ (∃ content, Serialized core content ⟨x, call.bytes⟩) ∧
    core.validateXorbObject call.bytes x = .ok (some info)
  | .putIndex x info _ => Kept core stored x info
  | _ => True

section
variable {stored stored' : Hash → Option Bytes} {g : Handler Hash}

theorem quiet_upload (hq : g.Quiet) : Upload core stored g := by
  cases g <;> trivial

theorem start_upload (hex : core.HexLaws) {r : Request} (h : Asked core r) :
    Upload core stored (start core r) := by
  have hs := start_started core r
  generalize start core r = g at hs
  cases hs with
  | putXorb ns hashHex body hash info accepted =>
    obtain ⟨content, x, rfl, hser⟩ := h
    obtain ⟨hx, hv⟩ := gate_commits accepted
    rw [hex.from_hex] at hx
    obtain rfl := Option.some.inj hx
    exact ⟨rfl, ⟨content, hser⟩, hv⟩
  | quiet _ _ still => exact quiet_upload still
  | _ => trivial

theorem Kept.congr {x : Hash} {info : XorbObjectInfoV1 Hash} (h : Kept core stored x info)
    (he : stored' x = stored x) : Kept core stored' x info := by
  obtain ⟨content, body, hb, hser, hv⟩ := h
  exact ⟨content, body, he.trans hb, hser, hv⟩

theorem Upload.mono (hk : ∀ x info, Kept core stored x info → Kept core stored' x info)
    (h : Upload core stored g) : Upload core stored' g := by
  cases g with
  | putIndex x info len => exact hk x info h
  | _ => exact h

end

variable [DecidableEq Hash]

/-- A step of a `put` leaves the objects alone and has not written, or stores its whole body
under its key. It goes on with that key and body. -/
structure StoresWhole (store : BlobStore Hash β) (objects : β → Hash → Option Bytes)
    (call : PutCall Hash) (io : Io) (blob : β) : Prop where
  effect : ((∀ x, objects (store.putStep call io blob).2 x = objects blob x) ∧
      (store.putStep call io blob).1 ≠ .done (.ok true)) ∨
    ∀ x, objects (store.putStep call io blob).2 x =
      if x = call.key then some call.bytes else objects blob x
  pending : ∀ call', (store.putStep call io blob).1 = .pending call' →
    call'.key = call.key ∧ call'.bytes = call.bytes

/-- A rename puts a body in place that is the one of its own upload. -/
def Whole (w : World Hash (LocalFs Hash)) : Event Hash → Prop
  | .serve n c => ∀ r x info call, w.server.tasks n = some ⟨r, .putStore x info call⟩ →
    call.stage = .rename → c.io = .ok → ∀ body, w.server.app.blob.tmp.lookup x = some body →
      body = call.bytes
  | _ => True

theorem localFs_whole {publicBase : String} {call : PutCall Hash} {io : Io} {fs : LocalFs Hash}
    (own : call.stage = .rename → io = .ok → ∀ body, fs.tmp.lookup call.key = some body →
      body = call.bytes) :
    StoresWhole (localFs core publicBase) LocalFs.object call io fs where
  effect := by
    obtain ⟨hfiles, hdone⟩ | ⟨b, hstage, hio, hb, _, hfiles⟩ := LocalFs.putStep_cases call io fs
    · exact .inl ⟨fun x => congrArg (AList.lookup x) hfiles, hdone⟩
    · obtain rfl := own hstage hio b hb
      exact .inr fun x => (congrArg (AList.lookup x) hfiles).trans (Table.lookup_insert_if ..)
  pending _ := LocalFs.putStep_pending

section
variable {store : BlobStore Hash β} {objects : β → Hash → Option Bytes}

theorem putStep_upload (gate : core.GateLaws) (pipe : core.PipelineLaws) {blob : β}
    {x : Hash} {info : XorbObjectInfoV1 Hash} {call : PutCall Hash} {io : Io} (len : ℕ)
    (whole : StoresWhole store objects call io blob)
    (h : Upload core (objects blob) (.putStore x info call)) :
    (∀ y info', Kept core (objects blob) y info' →
        Kept core (objects (store.putStep call io blob).2) y info') ∧
      Upload core (objects (store.putStep call io blob).2)
        (afterPut x info len (store.putStep call io blob).1) := by
  obtain ⟨rfl, ⟨content, hser⟩, hv⟩ := h
  have hkeeps : ∀ y info', Kept core (objects blob) y info' →
      Kept core (objects (store.putStep call io blob).2) y info' := by
    intro y info' hkept
    obtain ⟨hsame, _⟩ | hnew := whole.effect
    · exact hkept.congr (hsame y)
    · by_cases hy : y = call.key
      · subst hy
        obtain ⟨content', body', _, hser', hv'⟩ := hkept
        obtain ⟨rfl, rfl⟩ := Serialized.unique gate pipe hser hser'
        exact ⟨content, call.bytes, by rw [hnew, if_pos rfl], hser, hv'⟩
      · exact hkept.congr (by rw [hnew, if_neg hy])
  refine ⟨hkeeps, ?_⟩
  cases hout : (store.putStep call io blob).1 with
  | pending call' =>
    obtain ⟨hk, hbytes⟩ := whole.pending call' hout
    exact ⟨hk, ⟨content, hbytes ▸ hser⟩, hbytes ▸ hv⟩
  | done result =>
    unfold afterPut
    split
    · rename_i he
      cases he
    · rename_i he
      obtain ⟨_, hno⟩ | hnew := whole.effect
      · exact absurd (hout.trans he) hno
      · exact ⟨content, call.bytes, by rw [hnew, if_pos rfl], hser, hv⟩
    · trivial
    · trivial

/-- Every upload in flight and every indexed xorb is what the serializer wrote. -/
structure Shelved (core : XetCore Hash) (objects : β → Hash → Option Bytes) (s : State Hash β) :
    Prop where
  uploads : ∀ n t, s.tasks n = some t → Upload core (objects s.app.blob) t.handler
  indexed : ∀ x xorbMeta, s.app.index.xorbs.lookup x = some xorbMeta →
    ∃ info, xorbMeta = XorbMeta.fromInfo info ∧ Kept core (objects s.app.blob) x info

/-- What a step of a handler does to the stored xorbs. -/
theorem effect_shelved (gate : core.GateLaws) (pipe : core.PipelineLaws) {c : Choice Hash}
    {app app' : AppState Hash β} {r : Request} {g g' : Handler Hash}
    (heff : Effect core store c app g app' g') (hs : Served core r g)
    (hu : Upload core (objects app.blob) g)
    (hidx : ∀ x xorbMeta, app.index.xorbs.lookup x = some xorbMeta →
      ∃ info, xorbMeta = XorbMeta.fromInfo info ∧ Kept core (objects app.blob) x info)
    (whole : ∀ x info call, g = .putStore x info call →
      StoresWhole store objects call c.io app.blob) :
    (∀ x info, Kept core (objects app.blob) x info → Kept core (objects app'.blob) x info) ∧
      Upload core (objects app'.blob) g' ∧
      ∀ x xorbMeta, app'.index.xorbs.lookup x = some xorbMeta →
        ∃ info, xorbMeta = XorbMeta.fromInfo info ∧ Kept core (objects app'.blob) x info := by
  have hsame : ∀ x info, Kept core (objects app.blob) x info → Kept core (objects app.blob) x info :=
    fun _ _ h => h
  cases heff with
  | stored x info call =>
    obtain ⟨hk, hnext⟩ := putStep_upload gate pipe call.bytes.length (whole x info call rfl) hu
    refine ⟨hk, hnext, ?_⟩
    intro y xorbMeta hy
    obtain ⟨info', hm, hkept⟩ := hidx y xorbMeta hy
    exact ⟨info', hm, hk y info' hkept⟩
  | indexed x info len index metrics clean done =>
    refine ⟨hsame, trivial, ?_⟩
    intro y xorbMeta hy
    rw [(indexXorb_spec done).1, Table.lookup_orInsert] at hy
    split at hy
    · rename_i he
      subst he
      cases hold : app.index.xorbs.lookup y with
      | some old =>
        simp only [hold, Option.getD_some, Option.some.injEq] at hy
        subst hy
        exact hidx y old hold
      | none =>
        simp only [hold, Option.getD_none, Option.some.injEq] at hy
        exact ⟨info, hy.symm, hu⟩
    · exact hidx y xorbMeta hy
  | registered fh req result index clean done =>
    obtain ⟨_, _, _, hx, _⟩ := registerFile_spec done
    refine ⟨hsame, trivial, ?_⟩
    simp only [hx]
    exact hidx
  | marked | deleted | evicted => exact absurd hs id
  | quiet _ _ metrics live still => exact ⟨hsame, quiet_upload still, hidx⟩
  | _ => exact ⟨hsame, trivial, hidx⟩

theorem step_shelved (hex : core.HexLaws) (gate : core.GateLaws) (pipe : core.PipelineLaws)
    {s s' : State Hash β} {l : Label Hash} (hs : ServerOk core s) (hi : Shelved core objects s)
    (hreq : ∀ n r, l = .request n r → Asked core r)
    (whole : ∀ n c, l = .step n c → ∀ r x info call, s.tasks n = some ⟨r, .putStore x info call⟩ →
      call.key = x → StoresWhole store objects call c.io s.app.blob)
    (h : Server.step core store s l = some s') : Shelved core objects s' := by
  obtain ⟨i, r, rfl, _, rfl⟩ | ⟨i, c, t, app, g', rfl, ht, heff, rfl⟩ := step_cases core _ h
  · exact ⟨Run.update_forall hi.uploads (start_upload hex (hreq i r rfl)), hi.indexed⟩
  · obtain ⟨hk, hnext, hidx⟩ := effect_shelved gate pipe heff (hs.served i t ht)
      (hi.uploads i t ht) hi.indexed (by
        rintro x info call hg
        have hu := hi.uploads i t ht
        rw [hg] at hu
        refine whole i c rfl t.request x info call ?_ hu.1
        rw [ht, ← hg])
    exact ⟨Run.update_forall (fun j u hu => (hi.uploads j u hu).mono hk) hnext, hidx⟩

theorem boot_shelved (blob : β) : Shelved core objects (Server.boot blob : State Hash β) where
  uploads := by
    intro n t ht
    cases ht
  indexed := by
    intro x xorbMeta hx
    cases hx

theorem world_shelved (hex : core.HexLaws) (gate : core.GateLaws) (pipe : core.PipelineLaws)
    {w w' : World Hash β} {e : Event Hash} (hi : RegisteredTerms.Invariant core w)
    (hs : Shelved core objects w.server)
    (whole : ∀ n c, e = .serve n c → ∀ r x info call,
      w.server.tasks n = some ⟨r, .putStore x info call⟩ → call.key = x →
        StoresWhole store objects call c.io w.server.app.blob)
    (h : World.step core store w e = some w') : Shelved core objects w'.server := by
  cases World.step_moved h with
  | sent i n c r server call idle next fits arrives =>
    refine step_shelved hex gate pipe hi.server hs ?_ (fun n' c' he => by cases he) arrives
    rintro n' r' he
    cases he
    exact nextRequest_asked (hi.calls i c call) next
  | served n c server steps =>
    refine step_shelved hex gate pipe hi.server hs (fun n' r' he => by cases he) ?_ steps
    rintro n' c' he
    cases he
    exact whole n c rfl
  | _ => exact hs

/-- In a run of calls whose `put`s store their own bodies whole, whatever was stored before,
every indexed xorb is stored as the serializer wrote it. -/
theorem run_shelved (hex : core.HexLaws) (gate : core.GateLaws) (pipe : core.PipelineLaws)
    {G : World Hash β → Event Hash → Prop}
    (hwhole : ∀ w n c, G w (.serve n c) → ∀ r x info call,
      w.server.tasks n = some ⟨r, .putStore x info call⟩ → call.key = x →
        StoresWhole store objects call c.io w.server.app.blob) {blob : β}
    {events : List (Event Hash)} {w : World Hash β}
    (guarded : Run.Guarded (World.step core store) G (World.boot blob) events)
    (run : Run.exec (World.step core store) (World.boot blob) events = some w) :
    Shelved core objects w.server := by
  suffices h : RegisteredTerms.Invariant core w ∧ Shelved core objects w.server from h.2
  refine Run.exec_invariant (C := G) (I := fun w => RegisteredTerms.Invariant core w ∧
    Shelved core objects w.server) ?_ ⟨boot_world blob, boot_shelved blob⟩ guarded run
  rintro w e w' ⟨hi, hs⟩ hw h
  refine ⟨step_world hex gate pipe hi h, world_shelved hex gate pipe hi hs ?_ h⟩
  rintro n c rfl
  exact hwhole w n c hw

end

theorem whole_serve {publicBase : String} (w : World Hash (LocalFs Hash)) (n : ℕ) (c : Choice Hash)
    (hw : Whole w (.serve n c)) (r : Request) (x : Hash) (info : XorbObjectInfoV1 Hash)
    (call : PutCall Hash) (task : w.server.tasks n = some ⟨r, .putStore x info call⟩)
    (key : call.key = x) :
    StoresWhole (localFs core publicBase) LocalFs.object call c.io w.server.app.blob :=
  localFs_whole (key ▸ hw r x info call task)

variable {publicBase : String}

omit [DecidableEq Hash] in
theorem nextRequest_noReconstruct {job : Job} {stage : Stage Hash} {r : Request}
    (h : nextRequest core job stage = some r) (n : ℕ) :
    NoReconstruct (.request n r : Label Hash) := by
  cases stage with
  | query locs todo =>
    cases todo with
    | nil => cases h
    | cons c todo =>
      cases h
      trivial
  | upload | register =>
    cases h
    trivial
  | walk | finished => cases h

theorem world_clean (gate : core.GateLaws) {store : BlobStore Hash β} {w w' : World Hash β}
    {e : Event Hash} (hc : Clean core w.server) (h : World.step core store w e = some w') :
    Clean core w'.server := by
  obtain he | ⟨n, r, job, stage, hr, hs⟩ | ⟨n, c, _, hs⟩ := World.server_step h
  · exact he ▸ hc
  · exact step_clean gate (nextRequest_noReconstruct hr n) hc hs
  · have quiet : NoReconstruct (.step n c : Label Hash) := trivial
    exact step_clean gate quiet hc hs

theorem run_clean (gate : core.GateLaws) {store : BlobStore Hash β} {blob : β}
    {events : List (Event Hash)} {w : World Hash β}
    (run : Run.exec (World.step core store) (World.boot blob) events = some w) :
    Clean core w.server :=
  Run.exec_preserves (I := fun w => Clean core w.server) (fun _ _ _ hc h => world_clean gate hc h)
    (boot_clean blob) run

/-- The serialized chunks of a xorb, each with the chunk it holds. -/
structure Pieced (core : XetCore Hash) (fs : LocalFs Hash) (idx : Index Hash) (x : Hash)
    (content : List (Chunk Hash)) (pieces : List Bytes) : Prop where
  packed : Packed core x content
  laid : ∀ xorbMeta, idx.xorbs.lookup x = some xorbMeta → Laid fs x xorbMeta pieces
  chunks : List.Forall₂ (fun c p => p ≠ [] ∧
    ∀ rest, core.deserializeChunk (p ++ rest) = .ok (c.data, rest)) content pieces

theorem Shelved.pieced (gate : core.GateLaws) (pipe : core.PipelineLaws)
    {s : State Hash (LocalFs Hash)} (h : Shelved core LocalFs.object s) {x : Hash}
    (hx : x ∈ s.app.index.xorbs) :
    ∃ content pieces, Pieced core s.app.blob s.app.index x content pieces := by
  obtain ⟨xorbMeta, hm⟩ := Table.mem_iff.mp hx
  obtain ⟨info, rfl, content, body, hb, hser, hv⟩ := h.indexed x xorbMeta hm
  obtain ⟨b, hpiece⟩ := hser.piece
  obtain ⟨info', pieces, footer, hv', hlay⟩ :=
    pipe.serialized b content ⟨x, body⟩ hpiece hser.nonempty hser.written
  obtain rfl : info = info' := by
    simp only [hv, Except.ok.injEq, Option.some.injEq] at hv'
    exact hv'
  have hpacked := hser.packed pipe
  refine ⟨content, pieces, hpacked, ?_, hlay.chunk_pieces⟩
  intro xorbMeta' hm'
  obtain rfl := Option.some.inj (hm.symm.trans hm')
  refine ⟨⟨footer, hlay.body_eq ▸ hb⟩, ?_, hlay.boundaries, ?_⟩
  · intro p hp
    obtain ⟨i, hi, rfl⟩ := List.getElem_of_mem hp
    exact (List.forall₂_iff_get.mp hlay.chunk_pieces).2 i
      (by rw [hlay.chunk_pieces.length_eq]; exact hi) hi |>.1
  · rw [← hlay.chunk_pieces.length_eq]
    exact hpacked.count gate ⟨body, hv⟩

end Dejaveph.Proofs.StoredXorbs
