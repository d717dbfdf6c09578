import Dejaveph.Agent.Alone
import Dejaveph.Proofs.GcExact
import Dejaveph.Proofs.ServedRanges

namespace Dejaveph.Proofs.FailedIngest
open Lib Server Agent

variable {Hash : Type} [DecidableEq Hash] {core : XetCore Hash} {publicBase : String}
  {app app' app'' : AppState Hash (LocalFs Hash)} {a : Answer} {cut : Option (Handler Hash)}

section
variable {hash : Hash} {info : XorbObjectInfoV1 Hash}

theorem completes_failedPut {P : Choice Hash → Prop} {call : PutCall Hash}
    (h : Completes core (localFs core publicBase) P app (.putStore hash info call) a app')
    (hf : failed a = true) :
    app'.index = app.index ∧ app'.blob.files = app.blob.files := by
  generalize hg : Handler.putStore hash info call = g at h
  induction h generalizing call with
  | reply => cases hg
  | @step app1 _ _ _ _ _ c allowed move rest ih =>
    subst hg
    simp only [advance, Option.some.injEq, Prod.mk.injEq] at move
    obtain ⟨rfl, rfl⟩ := move
    obtain ⟨hfiles, hne⟩ | ⟨b, _, _, _, hdone, _⟩ := LocalFs.putStep_cases call c.io app1.blob
    · generalize hout : ((localFs core publicBase).putStep call c.io app1.blob).1 = out
        at rest ih
      rcases out with call' | (e | inserted)
      · obtain ⟨hi, hb⟩ := ih hf rfl
        exact ⟨hi, hb.trans hfiles⟩
      · obtain ⟨_, rfl⟩ := completes_reply rest
        exact ⟨rfl, hfiles⟩
      · cases inserted with
        | false =>
          obtain ⟨_, rfl⟩ := completes_reply rest
          exact ⟨rfl, hfiles⟩
        | true => exact absurd hout hne
    · change ((localFs core publicBase).putStep call c.io app1.blob).1 = _ at hdone
      rw [hdone] at rest
      obtain ⟨_, _, _, rfl, _⟩ := completes_putIndex rest
      cases hf

end

/-- A server behind which all is in place: each xorb that a file names is indexed,
and each indexed xorb is stored. -/
structure Stocked (core : XetCore Hash) (app : AppState Hash (LocalFs Hash)) : Prop where
  sound : DedupSound.Sound core app.index
  stored : ∀ x ∈ app.index.xorbs, x ∈ app.blob.files
  named : ∀ fh file, app.index.files.lookup fh = some file → ∀ t ∈ file.terms,
    t.xorb ∈ app.index.xorbs

/-- What uploads that no file names yet have added to a server. -/
structure Grew (app app' : AppState Hash (LocalFs Hash)) : Prop where
  files : app'.index.files = app.index.files
  catalog : app'.index.catalog = app.index.catalog
  poisoned : app'.poisoned = app.poisoned
  xorbs : ∀ x m, app.index.xorbs.lookup x = some m → app'.index.xorbs.lookup x = some m
  chunks : ∀ h loc, app.index.chunkIndex.lookup h = some loc →
    app'.index.chunkIndex.lookup h = some loc
  blobs : ∀ k b, app.blob.files.lookup k = some b → app'.blob.files.lookup k = some b
  newXorb : ∀ x ∈ app'.index.xorbs,
    x ∈ app.index.xorbs ∨ x ∉ app.blob.files ∧ x ∈ app'.blob.files
  newChunk : ∀ h loc, app'.index.chunkIndex.lookup h = some loc →
    app.index.chunkIndex.lookup h = some loc ∨
      loc.xorb ∉ app.index.xorbs ∧ loc.xorb ∈ app'.index.xorbs
  newBlob : ∀ k ∈ app'.blob.files, k ∈ app.blob.files ∨ k ∈ app'.index.xorbs

theorem Grew.refl : Grew app app :=
  ⟨rfl, rfl, rfl, fun _ _ h => h, fun _ _ h => h, fun _ _ h => h, fun _ h => .inl h,
    fun _ _ h => .inl h, fun _ h => .inl h⟩

theorem Grew.same (hg : Grew app app') (hp : app''.poisoned = app'.poisoned)
    (hi : app''.index = app'.index) (hb : app''.blob.files = app'.blob.files) :
    Grew app app'' := by
  obtain ⟨files, catalog, poisoned, xorbs, chunks, blobs, newXorb, newChunk, newBlob⟩ := hg
  exact ⟨hi ▸ files, hi ▸ catalog, hp ▸ poisoned, hi ▸ xorbs, hi ▸ chunks, hb ▸ blobs,
    by rw [hi, hb]; exact newXorb, hi ▸ newChunk, by rw [hi, hb]; exact newBlob⟩

section
variable {hash : Hash} {info : XorbObjectInfoV1 Hash} {bytes : Bytes} {idx : Index Hash}

theorem indexXorb_mem (h : indexXorb app.index hash info = some idx) {x : Hash} :
    x ∈ idx.xorbs ↔ x = hash ∨ x ∈ app.index.xorbs := by
  rw [(indexXorb_spec h).1, Table.mem_orInsert]

theorem Grew.put (hs : Stocked core app) (hg : Grew app app') (hnew : hash ∉ app'.blob.files)
    (hp : app''.poisoned = app'.poisoned)
    (hb : app''.blob.files = app'.blob.files.insert hash bytes)
    (hi : indexXorb app'.index hash info = some app''.index) : Grew app app'' := by
  obtain ⟨hx, hf, hc, hm⟩ := indexXorb_spec hi
  have hfresh : hash ∉ app.blob.files := by
    intro h
    obtain ⟨b, hb⟩ := Table.mem_iff.mp h
    exact hnew (Table.mem_of_lookup (hg.blobs _ _ hb))
  have hnot : hash ∉ app.index.xorbs := fun h => hfresh (hs.stored _ h)
  refine ⟨hf.trans hg.files, hc.trans hg.catalog, hp.trans hg.poisoned, ?_, ?_, ?_, ?_, ?_, ?_⟩
  · intro x m hl
    rw [hx]
    exact Table.lookup_orInsert_of_some (hg.xorbs x m hl)
  · intro h loc hl
    exact Index.indexChunksFrom_keeps hm (hg.chunks h loc hl)
  · intro k b hl
    have hl' := hg.blobs k b hl
    rw [hb, AList.lookup_insert_ne, hl']
    rintro rfl
    exact hnew (Table.mem_of_lookup hl')
  · intro x hmem
    rw [hb, AList.mem_insert]
    rcases (indexXorb_mem hi).mp hmem with rfl | hold
    · exact .inr ⟨hfresh, .inl rfl⟩
    · exact (hg.newXorb x hold).imp_right (fun h => ⟨h.1, .inr h.2⟩)
  · intro h loc hl
    rcases Index.indexChunksFrom_new rfl hm hl with hold | ⟨j, b, e, _, _, _, _, rfl⟩
    · rcases hg.newChunk h loc hold with h1 | ⟨h1, h2⟩
      · exact .inl h1
      · exact .inr ⟨h1, (indexXorb_mem hi).mpr (.inr h2)⟩
    · exact .inr ⟨hnot, (indexXorb_mem hi).mpr (.inl rfl)⟩
  · intro k hk
    rw [hb, AList.mem_insert] at hk
    rcases hk with rfl | hk
    · exact .inr ((indexXorb_mem hi).mpr (.inl rfl))
    · exact (hg.newBlob k hk).imp_right (fun h => (indexXorb_mem hi).mpr (.inr h))

end

theorem handled_grew (hs : Stocked core app) (hg : Grew app app') {job : Job} {stage : Stage Hash}
    {r : Request} (hr : nextRequest core job stage = some r) (hstage : ∀ ts, stage ≠ .register ts)
    (h : Handled core (localFs core publicBase) app' r a app'') : Grew app app'' := by
  have hp : app''.poisoned = app'.poisoned := by
    rcases h with h | ⟨h, _⟩ <;> exact completes_poisoned h
  cases stage with
  | query locs todo =>
    cases todo with
    | nil => cases hr
    | cons c todo =>
      cases hr
      have hreads : (start core (.globalDedup "default-merkledb" (core.hex c.hash))).Reads := by
        simp only [start]
        split <;> trivial
      obtain ⟨hi, hb⟩ : app''.index = app'.index ∧ app''.blob = app'.blob := by
        rcases h with h | ⟨h, _⟩ <;> exact completes_reads hreads h
      exact hg.same hp hi (by rw [hb])
  | upload terms group serialized rest =>
    cases hr
    simp only [Handled, Serves, start] at h
    split at h
    · rcases h with h | ⟨h, _⟩
      all_goals
        obtain ⟨_, rfl⟩ := completes_reply h
        exact hg
    · rcases h with h | ⟨h, hf⟩
      · obtain ⟨_, rfl, _⟩ | ⟨_, hnew, hb, hi⟩ := completes_put h
        · exact hg
        · exact hg.put hs hnew hp hb hi
      · obtain ⟨hi, hb⟩ := completes_failedPut h hf
        exact hg.same hp hi hb
  | register ts => exact absurd rfl (hstage ts)
  | walk terms rest => cases hr
  | finished result => cases hr

theorem handled_register {req : RegisterFile}
    (h : Handled core (localFs core publicBase) app (.registerFile req) a app') :
    app' = app ∨ ∃ n, a = .registerFile (.ok n) := by
  have hboth : ∀ P, Serves core (localFs core publicBase) P app (.registerFile req) a app' →
      app' = app ∨ ∃ n, a = .registerFile (.ok n) := by
    intro P h
    simp only [Serves, start] at h
    split at h
    · exact .inl (completes_reply h).2
    · obtain ⟨f, _, _, rfl⟩ | ⟨n, idx, _, rfl, _⟩ := completes_register h
      · exact .inl rfl
      · exact .inr ⟨n, rfl⟩
  rcases h with h | ⟨h, _⟩ <;> exact hboth _ h

/-- The rename of an upload of this xorb was the last that its handler did: the blob is in
place and not indexed. -/
structure Strands (app app' : AppState Hash (LocalFs Hash)) (x : Hash) : Prop where
  index : app'.index = app.index
  poisoned : app'.poisoned = app.poisoned
  fresh : x ∉ app.blob.files
  stored : ∃ b, app'.blob.files = app.blob.files.insert x b

omit [DecidableEq Hash] in
theorem nextRequest_ne_gc {job : Job} {stage : Stage Hash} {r : Request}
    (hr : nextRequest core job stage = some r) : r ≠ .gc := by
  rintro rfl
  cases stage with
  | query locs todo => cases todo <;> cases hr
  | _ => cases hr

/-- A request whose handler is dropped adds nothing, unless it is an upload that has put
its blob in place. -/
theorem dropped_left {r : Request} {g : Handler Hash} (hr : r ≠ .gc)
    (h : Dropped core (localFs core publicBase) app r g app') :
    ((∀ x info len, g ≠ .putIndex x info len) ∧ app'.index = app.index ∧
        app'.poisoned = app.poisoned ∧ app'.blob.files = app.blob.files) ∨
      ∃ x info len, g = .putIndex x info len ∧ Strands app app' x := by
  obtain ⟨mid, hreached⟩ := h
  obtain ⟨P, hreach, hworks⟩ : ∃ P, Reaches core (localFs core publicBase) P app (start core r)
      app' g ∧ ∀ x info len, g = .putIndex x info len →
        Reaches core (localFs core publicBase) Choice.Works app (start core r) app' g := by
    rcases hreached with h | ⟨⟨_, _, _, rfl⟩, h⟩
    · exact ⟨_, h, fun _ _ _ _ => h⟩
    · exact ⟨_, h, fun _ _ _ he => by cases he⟩
  have hreads : (start core r).Reads → (∀ x info len, g ≠ .putIndex x info len) ∧
      app'.index = app.index ∧ app'.poisoned = app.poisoned ∧
      app'.blob.files = app.blob.files := by
    intro hs
    obtain ⟨hg, hi, hb⟩ := reaches_reads hs hreach
    refine ⟨?_, hi, reaches_poisoned hreach mid, by rw [hb]⟩
    rintro x info len rfl
    exact hg
  have hs := start_started core r
  generalize start core r = g0 at hs hreach hworks hreads
  cases hs with
  | putXorb ns hashHex body hash info accepted =>
    obtain ⟨hi, hp, ⟨⟨call, rfl⟩, hb⟩ | ⟨len, b, rfl, hb⟩⟩ := reaches_put hreach mid
    · exact .inl ⟨nofun, hi, hp, hb⟩
    · exact .inr ⟨hash, info, len, rfl, hi, hp, reaches_fresh (hworks hash info len rfl), b, hb⟩
  | registerFile req fh read =>
    obtain ⟨rfl, rfl⟩ := reaches_registerLock hreach mid
    exact .inl ⟨nofun, rfl, rfl, rfl⟩
  | gc => exact absurd rfl hr
  | quiet _ _ still => exact .inl (hreads (quiet_reads still))
  | _ => exact .inl (hreads trivial)

/-- A call that fails before its file is registered has added uploads at most, and on top
of them the blob of an upload that was dropped before it was indexed. -/
theorem ingests_left {job : Job} {stage : Stage Hash} {e : String}
    (h : Ingests core (localFs core publicBase) job stage app' cut (.error e) app'')
    (he : e ≠ "register file") (hs : Stocked core app) (hg : Grew app app') :
    ((∀ x info len, cut ≠ some (.putIndex x info len)) ∧ Grew app app'') ∨
      ∃ x info len app1, cut = some (.putIndex x info len) ∧ Grew app app1 ∧
        Strands app1 app'' x := by
  generalize hres : (Except.error e : Except String String) = result at h
  -- a registration that gets no response ends with another error
  have hlost : ∀ {stage cut app1 app2 result} {r : Request}, nextRequest core job stage = some r →
      Ingests core (localFs core publicBase) job (hangUp stage) app1 cut result app2 →
      Except.error e = result → ∀ ts, stage ≠ .register ts := by
    rintro stage cut app1 app2 result r hr hi rfl ts rfl
    exact he (Except.error.inj (ingests_finished hi).2.1)
  induction h with
  | finished => exact .inl ⟨nofun, hg⟩
  | computed next rest ih => exact ih hg hres
  | @answered stage _ _ _ _ _ r a next fits handled rest ih =>
    by_cases hstage : ∀ ts, stage ≠ .register ts
    · exact ih (handled_grew hs hg next hstage handled) hres
    · simp only [ne_eq, not_forall, not_not] at hstage
      obtain ⟨ts, rfl⟩ := hstage
      cases next
      obtain rfl | ⟨n, rfl⟩ := handled_register handled
      · exact ih hg hres
      · have hok := (ingests_finished rest).2.1
        rw [← hres] at hok
        cases hok
  | refused next large rest ih => exact ih hg hres
  | lost next handled rest ih =>
    obtain rfl | ⟨_, a, handled⟩ := handled
    · exact ih hg hres
    · exact ih (handled_grew hs hg next (hlost next rest hres) handled) hres
  | dropped next fits dropped rest ih =>
    obtain ⟨e', he'⟩ := hangUp_finished next
    obtain ⟨hnot, hi, hp, hb⟩ | ⟨x, info, len, rfl, hstrands⟩ :=
      dropped_left (nextRequest_ne_gc next) dropped
    all_goals
      rw [he'] at rest
      obtain ⟨_, _, rfl⟩ := ingests_finished rest
    · exact .inl ⟨fun x info len hx => hnot x info len (Option.some.inj hx), hg.same hp hi hb⟩
    · exact .inr ⟨x, info, len, _, rfl, hg, hstrands⟩

theorem Sound.sweep {idx : Index Hash} (hs : DedupSound.Sound core idx) (xs : List Hash) :
    DedupSound.Sound core (sweep idx xs) := by
  induction xs generalizing idx with
  | nil => exact hs
  | cons x xs ih => exact ih (hs.evict x)

theorem Stocked.serves (gate : core.GateLaws) (hs : Stocked core app) {r : Request}
    (h : Serves core (localFs core publicBase) Choice.Works app r a app') : Stocked core app' := by
  cases serves_outcome h with
  | put ns hashHex body hash info _ _ accepted done =>
    obtain ⟨_, rfl, _⟩ | ⟨_, _, hb, hi⟩ := completes_put done
    · exact hs
    · have hmem : ∀ {x}, x ∈ app'.index.xorbs ↔ x = hash ∨ x ∈ app.index.xorbs := indexXorb_mem hi
      refine ⟨hs.sound.indexXorb gate ⟨body, (gate_commits accepted).2⟩ hi, ?_, ?_⟩
      · intro x hx
        rw [hb, AList.mem_insert]
        exact (hmem.mp hx).imp_right (hs.stored x)
      · intro fh file hf t ht
        rw [(indexXorb_spec hi).2.1] at hf
        exact hmem.mpr (.inr (hs.named fh file hf t ht))
  | registered req fh result idx done =>
    obtain ⟨terms, ht, hf, hx, hch⟩ := registerFile_spec done
    refine ⟨⟨?_, ?_⟩, ?_, ?_⟩
    · simpa only [hx] using hs.sound.metas
    · simpa only [hx, hch] using hs.sound.entries
    · simpa only [hx] using hs.stored
    · intro k file hl t htm
      simp only [hf, Table.lookup_insert_if] at hl
      simp only [hx]
      split at hl
      · cases hl
        exact registerTerms_uploaded ht t htm
      · exact hs.named k file hl t htm
  | collected =>
    obtain ⟨order, all, hi, hb⟩ := serves_gc h
    refine ⟨hi ▸ Sound.sweep hs.sound _, ?_, ?_⟩
    · intro x hx
      rw [hi, mem_collected all] at hx
      rw [Table.mem_iff, hb, if_neg (fun hg => ((mem_garbage all).mp hg).2 hx.2), ← Table.mem_iff]
      exact hs.stored x hx.1
    · intro fh file hf t ht
      rw [hi, sweep_files] at hf
      rw [hi, mem_collected all]
      exact ⟨hs.named fh file hf t ht, mem_referenced.mpr ⟨fh, file, hf, t, ht, rfl⟩⟩
  | unchanged _ _ _ _ hi hb => exact ⟨hi ▸ hs.sound, hi ▸ hb ▸ hs.stored, hi ▸ hs.named⟩

/-- Two servers with the same files, paths, xorbs, dedup entries and stored xorbs. -/
structure SameStore (app app' : AppState Hash (LocalFs Hash)) : Prop where
  files : app'.index.files = app.index.files
  catalog : app'.index.catalog = app.index.catalog
  xorbs : ∀ x, app'.index.xorbs.lookup x = app.index.xorbs.lookup x
  chunks : ∀ h, app'.index.chunkIndex.lookup h = app.index.chunkIndex.lookup h
  blobs : ∀ k, app'.blob.files.lookup k = app.blob.files.lookup k

/-- Of the old xorbs two collections take the same, of the new ones the second
takes all. -/
structure TakesNew (app app' : AppState Hash (LocalFs Hash)) (taken taken' : List Hash) : Prop where
  same : ∀ x ∈ app.index.xorbs, (x ∈ taken' ↔ x ∈ taken)
  new : ∀ x ∈ app'.index.xorbs, x ∉ app.index.xorbs → x ∈ taken'
  old : ∀ x ∈ taken, x ∈ app.index.xorbs
  known : ∀ x ∈ taken', x ∈ app'.index.xorbs

theorem Grew.takes (hs : Stocked core app) (hg : Grew app app') {order order' : List Hash}
    (all : order.Perm app.index.xorbs.keys) (all' : order'.Perm app'.index.xorbs.keys) :
    TakesNew app app' (garbage app.index order) (garbage app'.index order') := by
  have href : referenced app'.index = referenced app.index := by
    rw [referenced, referenced, hg.files]
  refine ⟨?_, ?_, fun x hx => ((mem_garbage all).mp hx).1, fun x hx => ((mem_garbage all').mp hx).1⟩
  · intro x hx
    obtain ⟨m, hm⟩ := Table.mem_iff.mp hx
    have hx' := Table.mem_of_lookup (hg.xorbs x m hm)
    rw [mem_garbage all', mem_garbage all, href]
    exact and_congr_left fun _ => ⟨fun _ => hx, fun _ => hx'⟩
  · intro x hx hn
    rw [mem_garbage all', href]
    refine ⟨hx, fun hr => hn ?_⟩
    obtain ⟨fh, file, hf, t, ht, rfl⟩ := mem_referenced.mp hr
    exact hs.named fh file hf t ht

section
variable {taken taken' : List Hash} (ht : TakesNew app app' taken taken')
include ht

theorem TakesNew.xorbs (hg : Grew app app') (x : Hash) :
    (sweep app'.index taken').xorbs.lookup x = (sweep app.index taken).xorbs.lookup x := by
  rw [sweep_xorbs, sweep_xorbs]
  by_cases hx : x ∈ app.index.xorbs
  · obtain ⟨m, hm⟩ := Table.mem_iff.mp hx
    rw [hg.xorbs x m hm, hm]
    simp only [ht.same x hx]
  · rw [if_neg (fun h => hx (ht.old x h)), AList.lookup_eq_none.mpr hx]
    by_cases hx' : x ∈ app'.index.xorbs
    · rw [if_pos (ht.new x hx' hx)]
    · rw [AList.lookup_eq_none.mpr hx']
      split <;> rfl

theorem TakesNew.chunks (hs : Stocked core app) (hg : Grew app app') (h : Hash) :
    (sweep app'.index taken').chunkIndex.lookup h =
      (sweep app.index taken).chunkIndex.lookup h := by
  rw [sweep_chunkIndex, sweep_chunkIndex]
  cases hl' : app'.index.chunkIndex.lookup h with
  | none =>
    cases hl : app.index.chunkIndex.lookup h with
    | none => rfl
    | some loc =>
      rw [hg.chunks h loc hl] at hl'
      cases hl'
  | some loc =>
    rcases hg.newChunk h loc hl' with hl | ⟨hn, hx⟩
    · have hin := (hs.sound.entries h loc hl).1
      rw [hl]
      simp only [Option.filter_some, ht.same loc.xorb hin]
    · cases hl : app.index.chunkIndex.lookup h with
      | none =>
        rw [Option.filter_some, if_neg (by simpa using ht.new _ hx hn)]
        rfl
      | some loc' =>
        have hin := (hs.sound.entries h loc' hl).1
        rw [hg.chunks h loc' hl, Option.some.injEq] at hl'
        rw [← hl'] at hn
        exact absurd hin hn

theorem TakesNew.blobs (hs : Stocked core app) (hg : Grew app app') (k : Hash) :
    (if k ∈ taken' then none else app'.blob.files.lookup k) =
      if k ∈ taken then none else app.blob.files.lookup k := by
  by_cases hx : k ∈ app.index.xorbs
  · obtain ⟨b, hb⟩ := Table.mem_iff.mp (hs.stored k hx)
    rw [hg.blobs k b hb, hb]
    simp only [ht.same k hx]
  · rw [if_neg (fun h => hx (ht.old k h))]
    cases hb : app.blob.files.lookup k with
    | some b =>
      rw [hg.blobs k b hb, if_neg]
      intro htaken
      rcases hg.newXorb k (ht.known k htaken) with h | ⟨h, _⟩
      · exact hx h
      · exact h (Table.mem_of_lookup hb)
    | none =>
      split
      · rfl
      · rename_i hng
        rw [AList.lookup_eq_none]
        intro hk
        rcases hg.newBlob k hk with h | h
        · exact absurd (AList.lookup_isSome.mpr h) (by rw [hb]; simp)
        · exact hng (ht.new k h hx)

end

section
variable {app1 app2 : AppState Hash (LocalFs Hash)} {a1 a2 : Answer}

/-- A collection takes away all that the uploads have added. -/
theorem Grew.collected (hs : Stocked core app) (hg : Grew app app')
    (h1 : Serves core (localFs core publicBase) Choice.Works app .gc a1 app1)
    (h2 : Serves core (localFs core publicBase) Choice.Works app' .gc a2 app2) :
    SameStore app1 app2 := by
  obtain ⟨order1, all1, hi1, hb1⟩ := serves_gc h1
  obtain ⟨order2, all2, hi2, hb2⟩ := serves_gc h2
  have ht := hg.takes hs all1 all2
  refine ⟨?_, ?_, ?_, ?_, ?_⟩
  · rw [hi1, hi2, sweep_files, sweep_files, hg.files]
  · rw [hi1, hi2, sweep_catalog, sweep_catalog, hg.catalog]
  · intro x
    rw [hi1, hi2]
    exact ht.xorbs hg x
  · intro h
    rw [hi1, hi2]
    exact ht.chunks hs hg h
  · intro k
    rw [hb1, hb2]
    exact ht.blobs hs hg k

end

section
variable (publicBase)

theorem respond_stored {s : String} {x : Hash} (hx : core.fromHex s = some x)
    (hb : app'.blob.files.lookup x = app.blob.files.lookup x) (range : Option HeaderValue) :
    (respond core (localFs core publicBase) app' (.xorbData s range)).map Prod.snd =
      (respond core (localFs core publicBase) app (.xorbData s range)).map Prod.snd := by
  simp only [respond, start, hx, runAlone, advance, localFs, LocalFs.head, hb]
  cases hl : app.blob.files.lookup x with
  | none => rfl
  | some b =>
    simp only [Option.map_some]
    cases parseRange range b.length with
    | none => rfl
    | some r =>
      simp only [Option.bind_some, runAlone, advance, LocalFs.getRange, hb, hl]
      cases readRange b r.1 r.2 <;> rfl

end

theorem collectTerms_xorb {idx : Index Hash} {ts : List (Term Hash)} {rs : List (Resolved Hash)}
    (h : collectTerms idx ts = some (.ok rs)) : ∀ r ∈ rs, ∃ t ∈ ts, t.xorb = r.xorb := by
  induction ts generalizing rs with
  | nil =>
    cases h
    nofun
  | cons t ts ih =>
    unfold collectTerms at h
    split at h
    · cases h
    · split at h
      · cases h
      · obtain ⟨rest, hrest, he⟩ := Option.map_eq_some_iff.mp h
        cases rest with
        | error => cases he
        | ok rest =>
          cases he
          intro r hr
          rcases List.mem_cons.mp hr with rfl | hr
          · exact ⟨t, List.mem_cons_self, rfl⟩
          · obtain ⟨u, hu, hx⟩ := ih hrest r hr
            exact ⟨u, List.mem_cons_of_mem _ hu, hx⟩

omit [DecidableEq Hash] in
theorem assemble_congr {fetch fetch' : FetchInfo → Except String Bytes}
    {m : Table String (List FetchInfo)} {ts : List ReconTerm}
    (h : ∀ k fis, m.lookup k = some fis → ∀ fi ∈ fis, fetch' fi = fetch fi) :
    assemble core fetch' m ts = assemble core fetch m ts := by
  induction ts with
  | nil => rfl
  | cons t ts ih =>
    simp only [assemble, bind, Except.bind]
    cases hp : pick m t with
    | error e => rfl
    | ok fi =>
      obtain ⟨fis, hl, hfi⟩ := pick_mem hp
      simp only [h _ fis hl fi hfi, ih]

theorem respond_reconstruct_ok {hex : String} {resp : ReconResponse}
    (h : respond core (localFs core publicBase) app (.reconstruct hex) =
      some (app', .reconstruct (.ok resp))) : ∃ fh file rs,
    app.index.files.lookup fh = some file ∧ collectTerms app.index file.terms = some (.ok rs) ∧
      presignTerms core (localFs core publicBase).presignGet rs [] ∅ = .ok resp := by
  simp only [respond, start] at h
  cases hx : core.fromHex hex with
  | none =>
    rw [hx] at h
    cases h
  | some fh =>
    simp only [hx, runAlone, advance, lock, Option.bind_some] at h
    cases hp : app.poisoned with
    | true =>
      simp only [hp, ↓reduceIte] at h
      cases h
    | false =>
      simp only [hp, Bool.false_eq_true, ↓reduceIte] at h
      rcases hc : collect app.index fh with _ | (status | rs)
      · rw [hc] at h
        cases h
      · rw [hc] at h
        cases h
      · simp only [hc, runAlone, advance, Option.bind_some, Option.some.injEq, Prod.mk.injEq,
          Answer.reconstruct.injEq] at h
        unfold collect at hc
        split at hc
        · cases hc
        · rename_i file hf
          exact ⟨fh, file, rs, hf, hc, h.2⟩

theorem fetchRange_stored (hx : core.HexLaws) {x : Hash} {fi : FetchInfo}
    (hu : fi.url = publicBase ++ xorbDataPath ++ core.hex x)
    (hb : app'.blob.files.lookup x = app.blob.files.lookup x) :
    fetchRange core publicBase app' fi = fetchRange core publicBase app fi := by
  have hsame := respond_stored publicBase (hx.from_hex x) hb
    (some (rangeHeader fi.urlRange.start fi.urlRange.end_))
  unfold fetchRange
  rw [hu, ServedRanges.xorbDataRoute_presign hx]
  simp only
  generalize respond core (localFs core publicBase) app' _ = r' at hsame ⊢
  generalize respond core (localFs core publicBase) app _ = r at hsame ⊢
  rcases r' with _ | ⟨app1, a1⟩ <;> rcases r with _ | ⟨app2, a2⟩
  · rfl
  · cases hsame
  · cases hsame
  · obtain rfl := Option.some.inj hsame
    rcases a1 with _ | _ | _ | _ | _ | (_ | _) | _ | _ <;> rfl

theorem Grew.collect (hs : Stocked core app) (hg : Grew app app') (fh : Hash) :
    collect app'.index fh = collect app.index fh := by
  simp only [Server.collect, hg.files]
  cases hf : app.index.files.lookup fh with
  | none => rfl
  | some file =>
    refine GcExact.collectTerms_congr (fun t ht => ?_)
    obtain ⟨m, hm⟩ := Table.mem_iff.mp (hs.named fh file hf t ht)
    rw [hg.xorbs _ m hm, hm]

theorem Grew.reconstruct (hx : core.HexLaws) (hs : Stocked core app) (hg : Grew app app')
    (hex : String) : Agent.reconstruct core publicBase app' hex =
      Agent.reconstruct core publicBase app hex := by
  have hself : respond core (localFs core publicBase) app (.reconstruct hex) =
      (respond core (localFs core publicBase) app (.reconstruct hex)).map (fun p => (app, p.2)) :=
    respond_collected publicBase rfl (fun _ => rfl) hex
  unfold Agent.reconstruct
  rw [respond_collected publicBase hg.poisoned (hg.collect hs) hex]
  cases hr : respond core (localFs core publicBase) app (.reconstruct hex) with
  | none => rfl
  | some p =>
    obtain ⟨app1, ans⟩ := p
    rw [hr, Option.map_some, Option.some.injEq, Prod.mk.injEq] at hself
    obtain ⟨rfl, _⟩ := hself
    simp only [Option.map_some]
    rcases ans with _ | _ | (_ | resp) | _ | _ | _ | _ | _
    case reconstruct.ok =>
      obtain ⟨fh, file, rs, hf, hrs, hpre⟩ := respond_reconstruct_ok hr
      obtain ⟨m, hm, hfetch, _⟩ := ServedRanges.presignTerms_spec core
        (fun x => publicBase ++ xorbDataPath ++ core.hex x) rs [] ∅
      obtain rfl := Except.ok.inj (hpre.symm.trans hm)
      have hall : ∀ k fis, m.lookup k = some fis → ∀ fi ∈ fis,
          fetchRange core publicBase app' fi = fetchRange core publicBase app1 fi := by
        intro k fis hl fi hfi
        have hlist := hfetch k
        rw [hl, Option.getD_some, Table.lookup_empty, Option.getD_none, List.nil_append] at hlist
        rw [hlist] at hfi
        obtain ⟨r, hr, rfl⟩ := List.mem_map.mp hfi
        obtain ⟨t, ht, hxorb⟩ := collectTerms_xorb hrs r (List.mem_filter.mp hr).1
        obtain ⟨b, hb⟩ := Table.mem_iff.mp (hs.stored _ (hs.named fh file hf t ht))
        rw [hxorb] at hb
        exact fetchRange_stored hx rfl ((hg.blobs _ b hb).trans hb.symm)
      simp only [assemble_congr hall]
    all_goals rfl

/-- A stored chunk, and a file of it. -/
def oneFile : List Request :=
  [.putXorb "default" (Plain.hex [1, 5]) [0, 1, 5, 2],
    .registerFile ⟨Plain.hex [7], 1, [⟨Plain.hex [1, 5], 0, 1, 1⟩], some "vol", some "/f"⟩]

end Dejaveph.Proofs.FailedIngest
