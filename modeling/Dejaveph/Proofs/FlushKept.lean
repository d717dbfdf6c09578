import Dejaveph.Lib.Run
import Dejaveph.Mount.Posix
import Dejaveph.Mount.Shelf
import Dejaveph.Mount.Steps

namespace Dejaveph.Proofs.FlushKept
open Lib Server Mount

variable {σ : Type} {agent : XetAgent σ}

/-- The catalog entry of an inode's path denotes these bytes. -/
def Cataloged (agent : XetAgent σ) (m : Mounted σ) (ino : ℕ) (b : Bytes) : Prop :=
  ∃ path fh, m.fs.fullPath ino = some path ∧
    agent.catalog (m.fs.volume, path) m.server = some fh ∧ agent.reconstruct fh m.server = .ok b

/-- The bytes are in the catalog, or staged for another try. -/
def Kept (agent : XetAgent σ) (m : Mounted σ) (ino : ℕ) (b : Bytes) : Prop :=
  Cataloged agent m ino b ∨ m.fs.openFiles.lookup ino = some ⟨b, true⟩

/-- What a flush of a dirty inode has to find: the server takes the bytes, and no
other inode of the same path was flushed with other bytes. -/
def Accepting (agent : XetAgent σ) (m : Mounted σ) (r : Request) : Prop :=
  ∀ ino st path, r.flushed = some ino → m.fs.openFiles.lookup ino = some st →
    st.dirty = true → m.fs.fullPath ino = some path →
    (∃ fh server', agent.ingestBytes m.fs.volume path st.buf m.server = (.ok fh, server')) ∧
    ∀ j st', m.fs.openFiles.lookup j = some st' → st'.dirty = false →
      m.fs.fullPath j = some path → st'.buf = st.buf

/-- Each staging buffer that is clean is in the catalog. -/
structure Sound (agent : XetAgent σ) (m : Mounted σ) : Prop where
  closed : Closed m.fs.nodes m.fs.next
  clean : ∀ ino st, m.fs.openFiles.lookup ino = some st → st.dirty = false →
    Cataloged agent m ino st.buf

section
variable {m : Mounted σ} {fs' : Xetfs} {ino : ℕ} {b : Bytes}

theorem Cataloged.congr {m' : Mounted σ} (hp : m'.fs.fullPath ino = m.fs.fullPath ino)
    (hv : m'.fs.volume = m.fs.volume) (hs : m'.server = m.server) (h : Cataloged agent m ino b) :
    Cataloged agent m' ino b := by
  obtain ⟨path, fh, hpath, hcat, hrec⟩ := h
  exact ⟨path, fh, hp.trans hpath, by rw [hv, hs, hcat], by rw [hs, hrec]⟩

section
variable {st : Staging} {path fh : String} {server' : σ} (records : agent.Records)
  (hingest : agent.ingestBytes m.fs.volume path st.buf m.server = (.ok fh, server'))
  (hf : Xetfs.Flushes m.fs fs' ino st.buf fh) {i : ℕ}
include records hingest hf

theorem cataloged_flushed (hi : m.fs.fullPath i = some path) :
    Cataloged agent ⟨fs', server'⟩ i st.buf := by
  refine ⟨path, fh, (hf.outline.fullPath i).trans hi, ?_, records.content _ _ _ _ _ _ hingest⟩
  simp only [hf.volume]
  exact records.catalog _ _ _ _ _ _ hingest

theorem Cataloged.others {c : Bytes} (h : Cataloged agent m i c)
    (hi : m.fs.fullPath i ≠ some path) : Cataloged agent ⟨fs', server'⟩ i c := by
  obtain ⟨path', fh', hpath', hcat', hrec'⟩ := h
  refine ⟨path', fh', (hf.outline.fullPath i).trans hpath', ?_,
    records.keeps _ _ _ _ _ _ hingest fh' _ hrec'⟩
  simp only [hf.volume]
  rw [records.others _ _ _ _ _ _ hingest, hcat']
  intro he
  exact hi (hpath'.trans (congrArg some (Prod.mk.inj he).2))

end

theorem Sound.stages (hs : Sound agent m) (h : Xetfs.Stages m.fs fs' ino b) :
    Sound agent { m with fs := fs' } := by
  constructor
  · have hc := h.outline.closed hs.closed
    rwa [← h.next] at hc
  · intro i st hst hd
    change fs'.openFiles.lookup i = some st at hst
    rw [h.files] at hst
    split at hst
    · cases hst
      cases hd
    · exact (hs.clean i st hst hd).congr (h.outline.fullPath i) h.volume rfl

theorem Sound.creates (hs : Sound agent m) {parent : ℕ} {name : String}
    (h : Xetfs.Creates m.fs fs' parent name) : Sound agent { m with fs := fs' } := by
  constructor
  · have hc := hs.closed.addNode h.added
    rwa [← h.next] at hc
  · intro i st hst hd
    change fs'.openFiles.lookup i = some st at hst
    rw [h.files] at hst
    split at hst
    · cases hst
      cases hd
    · rename_i hi
      exact (hs.clean i st hst hd).congr
        (congrArg (Option.map _) (hs.closed.pathParts h.added _ hi)) h.volume rfl

theorem Sound.recached (hs : Sound agent m) (cache : Table ℕ Bytes) :
    Sound agent { m with fs := { m.fs with cache := cache } } :=
  ⟨hs.closed, hs.clean⟩

theorem Sound.released (hs : Sound agent m) :
    Sound agent { m with fs := { m.fs with openFiles := m.fs.openFiles.erase ino } } := by
  refine ⟨hs.closed, ?_⟩
  intro i st hst hd
  change AList.lookup i (m.fs.openFiles.erase ino) = some st at hst
  rw [Table.lookup_erase_if] at hst
  split at hst
  · cases hst
  · exact hs.clean i st hst hd

/-- After an accepted flush the bytes that were staged are in the catalog, and
those of the other clean inodes still are. -/
theorem Sound.flushes (records : agent.Records) (hs : Sound agent m) {st : Staging}
    {path fh : String} {server' : σ} (hpath : m.fs.fullPath ino = some path)
    (hingest : agent.ingestBytes m.fs.volume path st.buf m.server = (.ok fh, server'))
    (hsame : ∀ j st', m.fs.openFiles.lookup j = some st' → st'.dirty = false →
      m.fs.fullPath j = some path → st'.buf = st.buf)
    (hf : Xetfs.Flushes m.fs fs' ino st.buf fh) :
    Sound agent ⟨fs', server'⟩ ∧ Cataloged agent ⟨fs', server'⟩ ino st.buf := by
  have hnew : ∀ i, m.fs.fullPath i = some path → Cataloged agent ⟨fs', server'⟩ i st.buf :=
    fun i hi => cataloged_flushed records hingest hf hi
  refine ⟨⟨?_, ?_⟩, hnew ino hpath⟩
  · have hc := hf.outline.closed hs.closed
    rwa [← hf.next] at hc
  · intro i st' hst hd
    change fs'.openFiles.lookup i = some st' at hst
    rw [hf.files] at hst
    split at hst
    · rename_i hi
      subst hi
      cases hst
      exact hnew i hpath
    · by_cases hp : m.fs.fullPath i = some path
      · rw [hsame i st' hst hd hp]
        exact hnew i hp
      · exact (hs.clean i st' hst hd).others records hingest hf hp

theorem flush_sound (records : agent.Records) (hs : Sound agent m) {r : Request}
    (hr : r.flushed = some ino) (ha : Accepting agent m r) {server' : σ}
    (h : m.fs.flushIfDirty agent m.server ino = some (fs', server')) :
    Sound agent ⟨fs', server'⟩ ∧ ∀ st, m.fs.openFiles.lookup ino = some st →
      Cataloged agent ⟨fs', server'⟩ ino st.buf := by
  by_cases hd : ∃ st, m.fs.openFiles.lookup ino = some st ∧ st.dirty = true
  · obtain ⟨st, hst, hd⟩ := hd
    obtain ⟨path, hpath⟩ : ∃ path, m.fs.fullPath ino = some path := by
      simp only [Xetfs.flushIfDirty, hst, hd, ↓reduceIte, Xetfs.flushBytes] at h
      obtain ⟨path, hpath, _⟩ := Option.map_eq_some_iff.mp h
      exact ⟨path, hpath⟩
    obtain ⟨⟨fh, server'', hingest⟩, hsame⟩ := ha ino st path hr hst hd hpath
    obtain ⟨fs'', hflush, hf⟩ := Xetfs.flushIfDirty_ok hst hd hpath hingest
    obtain ⟨rfl, rfl⟩ := Prod.mk.inj (Option.some.inj (hflush.symm.trans h))
    obtain ⟨hs', hc⟩ := hs.flushes records hpath hingest hsame hf
    refine ⟨hs', ?_⟩
    intro st' hst'
    obtain rfl := Option.some.inj (hst.symm.trans hst')
    exact hc
  · have hclean : ∀ st, m.fs.openFiles.lookup ino = some st → st.dirty = false :=
      fun st hst => Bool.eq_false_iff.mpr (fun ht => hd ⟨st, hst, ht⟩)
    rw [Xetfs.flushIfDirty_clean hclean] at h
    obtain ⟨rfl, rfl⟩ := Prod.mk.inj (Option.some.inj h)
    exact ⟨hs, fun st hst => hs.clean ino st hst (hclean st hst)⟩

theorem flushed_kept (records : agent.Records) (hs : Sound agent m) {r : Request}
    (hr : r.flushed = some ino) (ha : Accepting agent m r) {m' : Mounted σ} {reply : Reply}
    (h : serve agent m r = some (m', reply)) : reply = .ok ∧ Sound agent m' ∧
      ∀ st, m.fs.openFiles.lookup ino = some st → Kept agent m' ino st.buf := by
  cases r with
  | fsync i fh | flush i fh =>
    cases hr
    obtain ⟨⟨fs', server'⟩, hf, he⟩ := Option.map_eq_some_iff.mp h
    cases he
    obtain ⟨hs', hc⟩ := flush_sound records hs rfl ha hf
    exact ⟨rfl, hs', fun st hst => .inl (hc st hst)⟩
  | release i fh =>
    cases hr
    obtain ⟨⟨fs', server'⟩, hf, he⟩ := Option.map_eq_some_iff.mp h
    cases he
    obtain ⟨hs', hc⟩ := flush_sound records hs rfl ha hf
    exact ⟨rfl, hs'.released, fun st hst => .inl (hc st hst)⟩
  | _ => cases hr

theorem serve_sound (records : agent.Records) (hs : Sound agent m) {r : Request}
    (ha : Accepting agent m r) {m' : Mounted σ} {reply : Reply}
    (h : serve agent m r = some (m', reply)) : Sound agent m' := by
  cases r with
  | create parent name =>
    obtain ⟨⟨fs', reply'⟩, hc, he⟩ := Option.map_eq_some_iff.mp h
    cases he
    obtain ⟨a, _, hst | ⟨_, hcr⟩⟩ := Xetfs.create_cases hc
    · exact hs.stages hst
    · exact hs.creates hcr
  | write i fh offset data =>
    cases h
    exact hs.stages (Xetfs.write_stages offset data)
  | setattr i size =>
    cases h
    cases size with
    | none => exact hs
    | some size => exact hs.stages (Xetfs.setattr_stages size)
  | fsync i fh | flush i fh | release i fh => exact (flushed_kept records hs rfl ha h).2.1
  | read i fh offset size =>
    cases h
    obtain ⟨cache, hc⟩ : ∃ cache, (m.fs.read agent m.server i offset size).1 =
      { m.fs with cache := cache } := Xetfs.read_frame offset size
    rw [hc]
    exact hs.recached cache
  | readdir i fh offset room =>
    obtain ⟨reply', _, he⟩ := Option.map_eq_some_iff.mp h
    cases he
    exact hs
  | _ =>
    cases h
    exact hs

theorem sound_connect {volume : String} {entries : List EntryOut} {uid gid : ℕ} {fs : Xetfs}
    (h : connect volume entries uid gid = some fs) (server : σ) : Sound agent ⟨fs, server⟩ := by
  obtain ⟨fs', hc, _, hopen, _, ht, _⟩ := connect_ok volume entries uid gid
  obtain rfl := Option.some.inj (h.symm.trans hc)
  refine ⟨ht.closed, ?_⟩
  intro ino st hst
  rw [hopen] at hst
  cases hst

end

/-- Over any requests and any answers of the server, the staged bytes that a flush
or a release acknowledges are in the catalog or staged for another try, when the
flushes of a run are accepted. -/
theorem flushed_bytes_kept (records : agent.Records) (volume : String)
    (entries : List EntryOut) (uid gid : ℕ) (server : σ) (fs : Xetfs)
    (hc : connect volume entries uid gid = some fs) (requests : List Request) (r : Request)
    (accepting : Run.Guarded (next agent) (Accepting agent) ⟨fs, server⟩ (requests ++ [r]))
    (m m' : Mounted σ) (reply : Reply) (h : Run.exec (next agent) ⟨fs, server⟩ requests = some m)
    (hr : serve agent m r = some (m', reply)) (ino : ℕ) (hf : r.flushed = some ino) :
    reply = .ok ∧
      ∀ st, m.fs.openFiles.lookup ino = some st → Kept agent m' ino st.buf := by
  obtain ⟨hg, hlast⟩ := Run.guarded_append.mp accepting
  have hstep : ∀ m r m', Sound agent m → Accepting agent m r → next agent m r = some m' →
      Sound agent m' := by
    intro m r m' hs ha hn
    obtain ⟨⟨m'', reply⟩, hserve, he⟩ := Option.map_eq_some_iff.mp hn
    cases he
    exact serve_sound records hs ha hserve
  have hs := Run.exec_invariant hstep (sound_connect hc server) hg h
  obtain ⟨hok, _, hkept⟩ := flushed_kept records hs hf (hlast m h).1 hr
  exact ⟨hok, hkept⟩

/-- A test for an accepted flush, on a shelf. -/
def accepts (up : ℕ → Bool) (m : Mounted Shelf) (r : Request) : Bool :=
  r.flushed.all (fun ino => up m.server.calls && m.fs.openFiles.entries.all (fun e =>
    e.2.dirty || decide (m.fs.fullPath e.1 ≠ m.fs.fullPath ino)))

theorem accepts_accepting {up : ℕ → Bool} {m : Mounted Shelf} {r : Request}
    (h : accepts up m r = true) : Accepting (Shelf.agent up) m r := by
  intro ino st path hr _ _ hpath
  simp only [accepts, hr, Option.all_some, Bool.and_eq_true, List.all_eq_true, Bool.or_eq_true,
    decide_eq_true_eq] at h
  refine ⟨⟨_, _, if_pos h.1⟩, ?_⟩
  intro j st' hst' hd hp
  rcases h.2 _ (Table.lookup_eq_some.mp hst') with hdirty | hne
  · exact absurd (hd.symm.trans hdirty) nofun
  · exact absurd (hp.trans hpath.symm) hne

/-- Two files are written, one is flushed and written again. -/
def session : List Request :=
  [.create root "a", .write 2 0 0 [1], .create root "b", .write 3 0 2 [5], .fsync 2 0,
    .write 2 0 1 [2], .setattr 3 (some 4)]

theorem flushed_bytes_kept_session : ∃ fs m m',
    connect "v" [] 0 0 = some fs ∧
    Run.exec (next (Shelf.agent (fun _ => true))) ⟨fs, {}⟩ session = some m ∧
    serve (Shelf.agent (fun _ => true)) m (.release 2 0) = some (m', .ok) ∧
    Kept (Shelf.agent (fun _ => true)) m' 2 [1, 2] := by
  have hrun : (connect "v" [] 0 0).map (fun fs =>
      (Run.check (next (Shelf.agent (fun _ => true))) (accepts (fun _ => true)) ⟨fs, {}⟩
          (session ++ [.release 2 0]),
        (Run.exec (next (Shelf.agent (fun _ => true))) ⟨fs, {}⟩ session).map (fun m =>
          (m.fs.openFiles.lookup 2, (serve (Shelf.agent (fun _ => true)) m (.release 2 0)).map
            Prod.snd)))) = some (true, some (some ⟨[1, 2], true⟩, some .ok)) := by decide
  obtain ⟨fs, hc, hrun⟩ := Option.map_eq_some_iff.mp hrun
  simp only [Prod.mk.injEq, Option.map_eq_some_iff] at hrun
  obtain ⟨hg, m, hm, hst, ⟨m', _⟩, hserve, rfl⟩ := hrun
  have ha : Run.Guarded (next (Shelf.agent (fun _ => true)))
      (Accepting (Shelf.agent (fun _ => true))) ⟨fs, {}⟩ (session ++ [.release 2 0]) :=
    Run.guarded_of_test (fun _ _ => accepts_accepting) hg
  have hkept := flushed_bytes_kept Shelf.records "v" [] 0 0 {} fs hc session (.release 2 0) ha m
    m' _ hm hserve 2 rfl
  exact ⟨fs, m, m', hc, hm, hserve, hkept.2 _ hst⟩

/-- A release replies that all is well although the server is down: the bytes are
neither in the catalog nor staged any more. -/
theorem failed_release_loses : ∃ fs m m',
    connect "v" [] 0 0 = some fs ∧
    Run.exec (next (Shelf.agent (fun _ => false))) ⟨fs, {}⟩
      [.create root "a", .write 2 0 0 [1]] = some m ∧
    m.fs.openFiles.lookup 2 = some ⟨[1], true⟩ ∧
    serve (Shelf.agent (fun _ => false)) m (.release 2 0) = some (m', .ok) ∧
    ¬ Kept (Shelf.agent (fun _ => false)) m' 2 [1] := by
  have hrun : (connect "v" [] 0 0).any (fun fs =>
      (Run.exec (next (Shelf.agent (fun _ => false))) ⟨fs, {}⟩
        [.create root "a", .write 2 0 0 [1]]).any (fun m =>
          m.fs.openFiles.lookup 2 = some ⟨[1], true⟩ &&
          (serve (Shelf.agent (fun _ => false)) m (.release 2 0)).any (fun p =>
            p.2 = .ok && p.1.fs.openFiles.keys.isEmpty && p.1.server.catalog.keys.isEmpty))) =
      true := by decide
  simp only [Option.any_eq_true, Bool.and_eq_true, decide_eq_true_eq, List.isEmpty_iff] at hrun
  obtain ⟨fs, hc, m, hm, hst, ⟨m', reply⟩, hserve, ⟨rfl, hopen⟩, hcat⟩ := hrun
  refine ⟨fs, m, m', hc, hm, hst, hserve, ?_⟩
  rintro (⟨path, fh, _, hlook, _⟩ | hlook)
  · have hmem := AList.mem_keys.mp (Table.mem_of_lookup hlook)
    rw [hcat] at hmem
    cases hmem
  · have hmem := AList.mem_keys.mp (Table.mem_of_lookup hlook)
    rw [hopen] at hmem
    cases hmem

end Dejaveph.Proofs.FlushKept
