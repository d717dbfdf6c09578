import Dejaveph.PlainCore
import Dejaveph.Server.Steps

namespace Dejaveph.Proofs.CatalogLast
open Lib Server

variable {Hash β : Type} [DecidableEq Hash] {core : XetCore Hash} {store : BlobStore Hash β}

/-- The registration that a handler's step accepts: the file hash and the
request of a lock section that ends in a success. -/
def accepts : Handler Hash → Handler Hash → Option (Hash × RegisterFile)
  | .registerLock fh req, .reply (.registerFile (.ok _)) => some (fh, req)
  | _, _ => none

def accepted (s : State Hash β) (l : Label Hash) (s' : State Hash β) :
    Option (Hash × RegisterFile) :=
  match l with
  | .request .. => none
  | .step i _ => (s.handler i).bind (fun g => (s'.handler i).bind (accepts g))

/-- The accepted registrations of a run, in order. -/
def registrations (core : XetCore Hash) (store : BlobStore Hash β) (blob : β)
    (labels : List (Label Hash)) : List (Hash × RegisterFile) :=
  Run.events (step core store) accepted (boot blob) labels

/-- What a registration writes to the catalog entry of this path. -/
def names (v p : String) (e : Hash × RegisterFile) : Option Hash :=
  if e.2.volume = some v ∧ e.2.path = some p then some e.1 else none

/-- What a registration writes to the size of this file hash. -/
def sizes (fh : Hash) (e : Hash × RegisterFile) : Option ℕ :=
  if e.1 = fh then some e.2.totalSize else none

/-- The tables hold the last accepted registrations. -/
structure Last (idx : Index Hash) (log : List (Hash × RegisterFile)) : Prop where
  named : ∀ v p, idx.catalog.lookup (v, p) = lastWritten (names v p) log
  sized : ∀ fh, (idx.files.lookup fh).map FileRecord.totalSize = lastWritten (sizes fh) log

theorem recordFile_catalog (idx : Index Hash) (fh : Hash) (file : FileRecord Hash)
    (req : RegisterFile) (v p : String) :
    (recordFile idx fh file req.volume req.path).catalog.lookup (v, p) =
      (names v p (fh, req)).or (idx.catalog.lookup (v, p)) := by
  unfold recordFile names
  split
  · rename_i v' p' hv hp
    rw [hv, hp, Table.lookup_insert_if]
    by_cases he : (v, p) = (v', p')
    · obtain ⟨rfl, rfl⟩ := Prod.mk.inj he
      simp
    · have hne : ¬ (some v' = some v ∧ some p' = some p) := by
        rintro ⟨h, h'⟩
        exact he (by rw [Option.some.inj h, Option.some.inj h'])
      rw [if_neg he, if_neg hne]
      rfl
  · rename_i hno
    rw [if_neg (fun h => hno v p h.1 h.2)]
    rfl

theorem Last.registered {idx idx' : Index Hash} {log : List (Hash × RegisterFile)} {fh : Hash}
    {req : RegisterFile} {result : ℕ} (hi : Last idx log)
    (h : registerFile core idx fh req = .ok (result, idx')) : Last idx' (log ++ [(fh, req)]) := by
  obtain ⟨terms, ht, hf, _, _⟩ := registerFile_spec h
  constructor
  · intro v p
    rw [lastWritten_snoc, ← hi.named]
    simp only [registerFile, ht, Except.ok.injEq, Prod.mk.injEq] at h
    rw [← h.2]
    exact recordFile_catalog _ _ _ _ _ _
  · intro k
    rw [lastWritten_snoc, ← hi.sized, hf, Table.lookup_insert_if, sizes]
    by_cases hk : k = fh
    · rw [if_pos hk, if_pos hk.symm]
      rfl
    · rw [if_neg hk, if_neg (Ne.symm hk)]
      rfl

omit [DecidableEq Hash] in
theorem quiet_accepts {g g' : Handler Hash} (still : g'.Quiet) : accepts g g' = none := by
  unfold accepts
  split
  · exact absurd still id
  · rfl

theorem step_registers {s s' : State Hash β} {l : Label Hash}
    (h : step core store s l = some s') :
    (accepted s l s' = none ∧ s'.app.index.catalog = s.app.index.catalog ∧
      s'.app.index.files = s.app.index.files) ∨
    ∃ fh req result, accepted s l s' = some (fh, req) ∧
      registerFile core s.app.index fh req = .ok (result, s'.app.index) := by
  obtain ⟨i, r, rfl, _, happ, _⟩ | ⟨i, c, g, g', rfl, hg, heff, hh⟩ := step_handlers core store h
  · exact .inl ⟨rfl, by rw [happ], by rw [happ]⟩
  · have hacc : accepted s (.step i c) s' = accepts g g' := by simp [accepted, hg, hh]
    rw [hacc]
    clear hacc hh h hg
    generalize s'.app = app' at heff ⊢
    cases heff with
    | registered fh req result index clean done => exact .inr ⟨fh, req, result, rfl, done⟩
    | indexed hash info len index metrics clean done =>
      obtain ⟨_, hf, hc, _⟩ := indexXorb_spec done
      exact .inl ⟨rfl, hc, hf⟩
    | quiet _ _ metrics live still => exact .inl ⟨quiet_accepts still, rfl, rfl⟩
    | poisoned _ panics =>
      refine .inl ⟨?_, rfl, rfl⟩
      unfold accepts
      split <;> first | rfl | contradiction
    | _ => exact .inl ⟨rfl, rfl, rfl⟩

theorem step_last {s s' : State Hash β} {log : List (Hash × RegisterFile)} {l : Label Hash}
    (hi : Last s.app.index log) (h : step core store s l = some s') :
    Last s'.app.index (log ++ (accepted s l s').toList) := by
  obtain ⟨hn, hc, hf⟩ | ⟨fh, req, result, ha, done⟩ := step_registers h
  · rw [hn, Option.toList_none, List.append_nil]
    exact ⟨by rw [hc]; exact hi.named, by rw [hf]; exact hi.sized⟩
  · rw [ha]
    exact hi.registered done

theorem run_last {blob : β} {labels : List (Label Hash)} {s : State Hash β}
    (run : Run.exec (step core store) (boot blob) labels = some s) :
    Last s.app.index (registrations core store blob labels) := by
  have hboot : Last (boot blob : State Hash β).app.index [] := ⟨fun _ _ => rfl, fun _ => rfl⟩
  have hstep : ∀ (s : State Hash β) log l s', Last s.app.index log →
      step core store s l = some s' → Last s'.app.index (log ++ (accepted s l s').toList) :=
    fun _ _ _ _ hi h => step_last hi h
  exact Run.exec_events (I := fun (s : State Hash β) log => Last s.app.index log) hstep hboot run

section
variable {idx : Index Hash} {log : List (Hash × RegisterFile)}

theorem Last.filed (hi : Last idx log) {k : String × String} {fh : Hash}
    (hk : idx.catalog.lookup k = some fh) : fh ∈ idx.files := by
  obtain ⟨v, p⟩ := k
  rw [hi.named] at hk
  obtain ⟨e, he, hn⟩ := mem_of_lastWritten _ hk
  have hs : (lastWritten (sizes fh) log).isSome := by
    refine (lastWritten_isSome _).mpr ⟨e, he, ?_⟩
    unfold names at hn
    split at hn
    · cases hn
      simp [sizes]
    · cases hn
  rw [← hi.sized, Option.isSome_map] at hs
  exact AList.lookup_isSome.mp hs

/-- A listing has the last accepted registration of each path, with the size of
the last accepted registration of its file hash. -/
theorem Last.listed (hi : Last idx log) (v : String) (e : EntryOut) :
    e ∈ listEntries core idx v ↔ ∃ fh size, lastWritten (names v e.path) log = some fh ∧
      lastWritten (sizes fh) log = some size ∧ e = ⟨e.path, core.hex fh, size⟩ := by
  rw [mem_listEntries]
  constructor
  · rintro ⟨fh, hl, he⟩
    obtain ⟨file, hf⟩ := Table.mem_iff.mp (hi.filed hl)
    rw [hf] at he
    refine ⟨fh, file.totalSize, (hi.named _ _).symm.trans hl, ?_, he⟩
    rw [← hi.sized, hf]
    rfl
  · rintro ⟨fh, size, hl, hs, he⟩
    rw [← hi.sized] at hs
    refine ⟨fh, (hi.named _ _).trans hl, ?_⟩
    rw [hs]
    exact he

end

/-- Where the handler of a registration can be. -/
def Registering : Handler Hash → Prop
  | .registerLock .. | .reply (.registerFile _) | .answered (.registerFile _) | .panicked => True
  | _ => False

/-- The handler has accepted its registration. -/
def Accepting : Handler Hash → Prop
  | .reply (.registerFile (.ok _)) | .answered (.registerFile (.ok _)) => True
  | _ => False

theorem advance_registering {c : Choice Hash} {app app' : AppState Hash β} {g g' : Handler Hash}
    (hg : Registering g) (h : advance core store c app g = some (app', g')) :
    Registering g' ∧ (Accepting g → Accepting g') ∧
      (¬ Accepting g' → app'.index = app.index ∧ app'.blob = app.blob) := by
  cases g with
  | registerLock fh req =>
    simp only [advance, lock, Option.some.injEq] at h
    split at h
    · cases h
      exact ⟨trivial, False.elim, fun _ => ⟨rfl, rfl⟩⟩
    · split at h
      · cases h
        exact ⟨trivial, False.elim, fun _ => ⟨rfl, rfl⟩⟩
      · cases h
        exact ⟨trivial, False.elim, fun hn => absurd trivial hn⟩
  | reply a =>
    cases h
    refine ⟨?_, ?_, fun _ => ⟨rfl, rfl⟩⟩
    · cases a <;> exact hg
    · intro ha
      unfold Accepting at ha
      split at ha
      · rename_i he
        cases he
        trivial
      · contradiction
      · exact absurd ha id
  | answered a => cases h
  | panicked => cases h
  | _ => exact absurd hg id

/-- The handlers of registrations are registering. -/
def Kept (s : State Hash β) : Prop :=
  ∀ i t, s.tasks i = some t → ∀ req, t.request = .registerFile req → Registering t.handler

theorem step_kept {s s' : State Hash β} {l : Label Hash} (hi : Kept s)
    (h : step core store s l = some s') : Kept s' := by
  obtain ⟨i, r, rfl, _, rfl⟩ | ⟨i, c, t, app, g', rfl, ht, ha, rfl⟩ := step_advance core store h
  · apply Run.update_forall hi
    rintro req rfl
    simp only [start]
    split <;> trivial
  · apply Run.update_forall hi
    intro req hr
    exact (advance_registering (hi i t ht req hr) ha).1

/-- Request `i` is a registration that has been accepted. -/
def AcceptedAt (i : ℕ) (s : State Hash β) : Prop :=
  ∃ req g, s.tasks i = some ⟨.registerFile req, g⟩ ∧ Accepting g

theorem step_accepted {s s' : State Hash β} {l : Label Hash} {i : ℕ} (hk : Kept s)
    (hi : AcceptedAt i s) (h : step core store s l = some s') : AcceptedAt i s' := by
  obtain ⟨req, g, ht, hg⟩ := hi
  obtain ⟨j, r, rfl, hn, rfl⟩ | ⟨j, c, t, app, g', rfl, htj, ha, rfl⟩ := step_advance core store h
  · have hne : i ≠ j := by
      rintro rfl
      rw [hn] at ht
      cases ht
    exact ⟨req, g, (Function.update_of_ne hne _ _).trans ht, hg⟩
  · by_cases hij : i = j
    · subst hij
      obtain rfl := Option.some.inj (ht.symm.trans htj)
      have hadv := advance_registering (hk i _ ht req rfl) ha
      exact ⟨req, g', Function.update_self .., hadv.2.1 hg⟩
    · exact ⟨req, g, (Function.update_of_ne hij _ _).trans ht, hg⟩

/-- The request that a step is about. -/
def requestOf : Label Hash → ℕ
  | .request i _ | .step i _ => i

theorem step_unaccepted {s s' : State Hash β} {l : Label Hash} (hk : Kept s)
    (h : step core store s l = some s') {req : RegisterFile} {t' : Exchange Hash}
    (ht : s'.tasks (requestOf l) = some t') (hr : t'.request = .registerFile req)
    (hn : ¬ AcceptedAt (requestOf l) s') :
    s'.app.index = s.app.index ∧ s'.app.blob = s.app.blob := by
  obtain ⟨i, r, rfl, _, rfl⟩ | ⟨i, c, t, app, g', rfl, hti, ha, rfl⟩ := step_advance core store h
  · exact ⟨rfl, rfl⟩
  · have he : t' = ⟨t.request, g'⟩ := by
      have hself : Function.update s.tasks i (some ⟨t.request, g'⟩) i = some t' := ht
      rw [Function.update_self] at hself
      exact (Option.some.inj hself).symm
    subst he
    have hadv := advance_registering (hk i t hti req hr) ha
    refine hadv.2.2 (fun hg => hn ⟨req, g', ?_, hg⟩)
    change Function.update s.tasks i _ i = _
    rw [Function.update_self, ← hr]

theorem step_present {s s' : State Hash β} {l : Label Hash} (h : step core store s l = some s') :
    ∃ t, s'.tasks (requestOf l) = some t := by
  obtain ⟨i, r, rfl, _, rfl⟩ | ⟨i, c, t, app, g', rfl, _, _, rfl⟩ := step_advance core store h
  · exact ⟨_, Function.update_self ..⟩
  · exact ⟨_, Function.update_self ..⟩

theorem run_request {s s' : State Hash β} {labels : List (Label Hash)}
    (run : Run.exec (step core store) s labels = some s') {n : ℕ} {t : Exchange Hash}
    (ht : s.tasks n = some t) : ∃ t', s'.tasks n = some t' ∧ t'.request = t.request := by
  refine Run.exec_preserves (I := fun s : State Hash β => ∃ t', s.tasks n = some t' ∧
    t'.request = t.request) ?_ ⟨t, ht, rfl⟩ run
  rintro s l s' ⟨t', ht', hr⟩ h
  obtain ⟨t'', ht'', hr'⟩ := step_request core store h ht'
  exact ⟨t'', ht'', hr'.trans hr⟩

theorem run_kept {blob : β} {labels : List (Label Hash)} {s : State Hash β}
    (run : Run.exec (step core store) (boot blob) labels = some s) : Kept s :=
  Run.exec_preserves (fun _ _ _ hi h => step_kept hi h) (fun _ _ ht => by cases ht) run

theorem run_accepted {s s' : State Hash β} {labels : List (Label Hash)} {i : ℕ} (hk : Kept s)
    (hi : AcceptedAt i s) (run : Run.exec (step core store) s labels = some s') :
    AcceptedAt i s' :=
  (Run.exec_preserves (I := fun s : State Hash β => Kept s ∧ AcceptedAt i s)
    (fun _ _ _ hi h => ⟨step_kept hi.1 h, step_accepted hi.1 hi.2 h⟩) ⟨hk, hi⟩ run).2

/-- No step of a registration that ends rejected changes the index or the store. -/
theorem rejected_unchanged {blob : β} {before after : List (Label Hash)} {l : Label Hash}
    {s u v : State Hash β} (hu : Run.exec (step core store) (boot blob) before = some u)
    (hv : step core store u l = some v) (hs : Run.exec (step core store) v after = some s)
    {req : RegisterFile} {g : Handler Hash}
    (ht : s.tasks (requestOf l) = some ⟨.registerFile req, g⟩) (hg : ¬ Accepting g) :
    v.app.index = u.app.index ∧ v.app.blob = u.app.blob := by
  have hk := run_kept hu
  obtain ⟨t, htv⟩ := step_present hv
  obtain ⟨t', hts, hr⟩ := run_request hs htv
  obtain rfl := Option.some.inj (ht.symm.trans hts)
  refine step_unaccepted hk hv htv hr.symm (fun hacc => ?_)
  obtain ⟨req', g', ht', hg'⟩ := run_accepted (step_kept hk hv) hacc hs
  cases ht.symm.trans ht'
  exact hg hg'

/-- Over every run the catalog is a last-writer-wins map: a listing has each named
path once, with the file hash of the last accepted registration for it and the
size of the last accepted registration of that hash. A registration that is
rejected leaves the index and the store as they were. -/
theorem catalog_last_writer (blob : β) (labels : List (Label Hash)) (s : State Hash β)
    (run : Run.exec (step core store) (boot blob) labels = some s) :
    (∀ v, ((listEntries core s.app.index v).map EntryOut.path).Nodup ∧
      (∀ p, (∃ e ∈ listEntries core s.app.index v, e.path = p) ↔
        ∃ a ∈ registrations core store blob labels, a.2.volume = some v ∧ a.2.path = some p) ∧
      ∀ e, e ∈ listEntries core s.app.index v ↔ ∃ fh size,
        lastWritten (names v e.path) (registrations core store blob labels) = some fh ∧
        lastWritten (sizes fh) (registrations core store blob labels) = some size ∧
        e = ⟨e.path, core.hex fh, size⟩) ∧
    (∀ k fh, s.app.index.catalog.lookup k = some fh → fh ∈ s.app.index.files) ∧
    (∀ i c v s', s.handler i = some (.entriesLock v) → s.app.poisoned = false →
      step core store s (.step i c) = some s' →
      s'.handler i = some (.reply (.listEntries (listEntries core s.app.index v)))) ∧
    ∀ before l after u v req f g, labels = before ++ l :: after →
      Run.exec (step core store) (boot blob) before = some u → step core store u l = some v →
      s.tasks (requestOf l) = some ⟨.registerFile req, g⟩ →
      g = .reply (.registerFile (.error f)) ∨ g = .answered (.registerFile (.error f)) →
      v.app.index = u.app.index ∧ v.app.blob = u.app.blob := by
  have hlast := run_last run
  refine ⟨?_, fun k fh hk => hlast.filed hk, ?_, ?_⟩
  · intro v
    refine ⟨listEntries_paths core _ v, ?_, fun e => hlast.listed v e⟩
    intro p
    have hp : (∃ e ∈ listEntries core s.app.index v, e.path = p) ↔
        (s.app.index.catalog.lookup (v, p)).isSome := by
      simp only [mem_listEntries, Option.isSome_iff_exists]
      constructor
      · rintro ⟨e, ⟨fh, hl, _⟩, rfl⟩
        exact ⟨fh, hl⟩
      · rintro ⟨fh, hl⟩
        exact ⟨⟨p, core.hex fh, _⟩, ⟨fh, hl, rfl⟩, rfl⟩
    rw [hp, hlast.named, lastWritten_isSome]
    simp only [names, Option.isSome_ite]
  · intro i c v s' hi hp h
    obtain ⟨t, ht, hg⟩ := handler_eq_some.mp hi
    simp only [step, ht, hg, advance, lock, hp, Bool.false_eq_true, ↓reduceIte, Option.map_some,
      Option.some.injEq] at h
    subst h
    simp [State.handler]
  · intro before l after u v req f g he hu hv ht hg
    subst he
    obtain ⟨u', hu', hrest⟩ := Run.exec_append.mp run
    obtain rfl := Option.some.inj (hu.symm.trans hu')
    obtain ⟨v', hv', hs⟩ := Run.exec_cons.mp hrest
    obtain rfl := Option.some.inj (hv.symm.trans hv')
    apply rejected_unchanged hu hv hs ht
    rcases hg with rfl | rfl <;> exact id

/-- A registration of one chunk, under an optional path of one volume. -/
def oneChunk (fh : Plain.PlainHash) (size : ℕ) (xorb : Plain.PlainHash) (path : Option String) :
    RegisterFile :=
  ⟨Plain.hex fh, size, [⟨Plain.hex xorb, 0, 1, 1⟩], some "vol", path⟩

/-- Two files are registered under one path, the second one again with another
size, and a registration of an unknown xorb is rejected. -/
def registerTwice : List (Label Plain.PlainHash) :=
  [.request 0 (.putXorb "default" (Plain.hex [1, 1]) [0, 1, 1, 2]), .step 0 {}, .step 0 {},
    .request 1 (.registerFile (oneChunk [7] 1 [1, 1] (some "/f"))),
    .request 2 (.registerFile (oneChunk [8] 2 [1, 1] (some "/f"))),
    .request 3 (.registerFile (oneChunk [8] 3 [1, 1] none)),
    .request 4 (.registerFile (oneChunk [9] 4 [1, 5] (some "/f"))),
    .step 1 {}, .step 2 {}, .step 4 {}, .step 3 {}]

theorem catalog_last_writer_twice : ∃ s, Run.exec (step Plain.plain (writeOnce Plain.plain ""))
      (boot ∅) registerTwice = some s ∧
    ⟨"/f", Plain.hex [8], 3⟩ ∈ listEntries Plain.plain s.app.index "vol" := by
  have hrun : (Run.exec (step Plain.plain (writeOnce Plain.plain "")) (boot ∅)
      registerTwice).isSome := by decide
  obtain ⟨s, hs⟩ := Option.isSome_iff_exists.mp hrun
  refine ⟨s, hs, ?_⟩
  apply (((catalog_last_writer ∅ registerTwice s hs).1 "vol").2.2 _).mpr
  exact ⟨[8], 3, by decide, by decide, rfl⟩

end Dejaveph.Proofs.CatalogLast
