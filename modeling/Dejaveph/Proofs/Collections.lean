import Dejaveph.Proofs.AtRest
import Dejaveph.Proofs.ConcurrentReads
import Dejaveph.Proofs.GcExact

namespace Dejaveph.Proofs.Collections
open Lib Server Agent Unpoisoned DedupSound RegisteredTerms ServedRanges StoredXorbs RoundTrip
  DistinctChunks Layout AtRest
open ConcurrentReads (ingestOne)

variable {Hash β : Type} [DecidableEq Hash]

section
variable (core : XetCore Hash) (store : BlobStore Hash β)

/-- A handler runs to its response under these choices of the environment, while no
other handler moves. -/
def serveChoosing : List (Choice Hash) → AppState Hash β → Handler Hash →
    Option (AppState Hash β × Answer)
  | _, app, .reply a => some (app, a)
  | [], _, _ => none
  | c :: cs, app, g =>
    (advance core store c app g).bind (fun p => serveChoosing cs p.1 p.2)

/-- What can happen to the server and its calls: a step of theirs, or a collection that
no other step of the server interrupts. -/
inductive Turn (Hash : Type) where
  | call (e : Event Hash)
  | collect (cs : List (Choice Hash))

def takeTurn (w : World Hash β) : Turn Hash → Option (World Hash β)
  | .call e => World.step core store w e
  | .collect cs => (serveChoosing core store cs w.server.app (start core .gc)).map (fun p =>
      { w with server := { w.server with app := p.1 } })

end

variable {core : XetCore Hash} {store : BlobStore Hash β}

theorem serveChoosing_completes {cs : List (Choice Hash)} {app app' : AppState Hash β}
    {g : Handler Hash} {a : Answer} (h : serveChoosing core store cs app g = some (app', a)) :
    Completes core store (fun _ => True) app g a app' := by
  induction cs generalizing app g with
  | nil =>
    unfold serveChoosing at h
    split at h
    · cases h
      exact .reply _ _
    · cases h
    · rename_i he _
      cases he
  | cons c cs ih =>
    unfold serveChoosing at h
    split at h
    · cases h
      exact .reply _ _
    · rename_i he _
      cases he
    · rename_i he _
      cases he
      obtain ⟨⟨app1, g1⟩, hm, h⟩ := Option.bind_eq_some_iff.mp h
      exact .step c trivial hm (ih h)

/-- What ties the server and its calls together when collections are run too. -/
structure Sturdy (core : XetCore Hash) (w : World Hash (LocalFs Hash)) : Prop where
  calls : RegisteredTerms.Invariant core w
  shelved : Shelved core LocalFs.object w.server
  clean : Clean core w.server
  confirmed : Confirmed core w

section
variable {publicBase : String} {w w' : World Hash (LocalFs Hash)}

theorem boot_sturdy : Sturdy core (World.boot {}) :=
  ⟨boot_world _, boot_shelved _, boot_clean _, boot_confirmed _⟩

theorem Sturdy.call (hex : core.HexLaws) (gate : core.GateLaws) (pipe : core.PipelineLaws)
    (hi : Sturdy core w) {e : Event Hash} (whole : Whole w e)
    (h : World.step core (localFs core publicBase) w e = some w') : Sturdy core w' := by
  refine ⟨step_world hex gate pipe hi.calls h,
    world_shelved hex gate pipe hi.calls hi.shelved ?_ h, world_clean gate hi.clean h,
    step_confirmed hex hi.calls hi.confirmed h⟩
  rintro n c rfl
  exact whole_serve w n c whole

/-- No upload has stored its xorb anew and not yet indexed it, where no file uses what is
indexed of it. -/
def Unpending (s : State Hash (LocalFs Hash)) : Prop :=
  ∀ n t, s.tasks n = some t → ∀ x info len, t.handler = .putIndex x info len →
    x ∈ s.app.index.xorbs → x ∈ referenced s.app.index

/-- A collection that runs between two steps of the server, wherever the calls stand. -/
theorem Sturdy.collect (hi : Sturdy core w) (pending : Unpending w.server)
    {cs : List (Choice Hash)} {app : AppState Hash (LocalFs Hash)} {a : Answer}
    (h : serveChoosing core (localFs core publicBase) cs w.server.app (start core .gc) =
      some (app, a)) :
    Sturdy core { w with server := { w.server with app } } := by
  have hc := serveChoosing_completes h
  have hpoisoned := completes_poisoned hc
  obtain ⟨order, all, _, ios, _, _, rfl⟩ := completes_gc hc
  have hkept : ∀ x ∈ (sweep w.server.app.index (garbage w.server.app.index order)).xorbs,
      x ∉ garbage w.server.app.index order := by
    intro x hx hg
    rw [mem_collected all] at hx
    exact ((mem_garbage all).mp hg).2 hx.2
  have hdedup := hi.calls.server.dedup
  refine ⟨⟨⟨⟨FailedIngest.Sound.sweep hdedup.sound _, hdedup.accepted⟩, ?_, hi.calls.server.served,
    ?_⟩, hi.calls.calls, hi.calls.waits⟩, ⟨?_, ?_⟩, ⟨hi.clean.unpoisoned, hi.clean.collects,
    hi.clean.accepted⟩, ⟨?_, ?_⟩⟩
  · intro x hx
    exact hi.calls.server.packed x ((mem_collected all).mp hx).1
  · intro fh file hf
    simp only [sweep_files] at hf
    exact swept_recorded all hf (hi.calls.server.files fh file hf)
  · intro n t ht
    have hu := hi.shelved.uploads n t ht
    have hold := pending n t ht
    cases hg : t.handler with
    | putIndex x info len =>
      rw [hg] at hu
      refine Kept.congr hu (GcExact.deleteAll_lookup ?_)
      rintro p hp rfl
      obtain ⟨hx, hunused⟩ := (mem_garbage all).mp (List.of_mem_zip hp).1
      exact hunused (hold _ _ _ hg hx)
    | putStore x info call =>
      rw [hg] at hu
      exact hu
    | _ => trivial
  · intro x xorbMeta hx
    have hnot := hkept x (Table.mem_of_lookup hx)
    simp only [sweep_xorbs, if_neg hnot] at hx
    obtain ⟨info, he, hk⟩ := hi.shelved.indexed x xorbMeta hx
    refine ⟨info, he, hk.congr (GcExact.deleteAll_lookup ?_)⟩
    rintro p hp rfl
    exact hnot (List.of_mem_zip hp).1
  · intro n t ht
    exact (hi.confirmed.tasks n t ht).mono (by simp)
  · intro i c hc h hs
    simpa using hi.confirmed.calls i c hc h hs

/-- The renames move the body of their own upload, and a collection finds no upload of
an unused xorb between its two steps. -/
def Careful (w : World Hash (LocalFs Hash)) : Turn Hash → Prop
  | .call e => Whole w e
  | .collect _ => Unpending w.server

theorem Sturdy.turn (hex : core.HexLaws) (gate : core.GateLaws) (pipe : core.PipelineLaws)
    (hi : Sturdy core w) {t : Turn Hash} (careful : Careful w t)
    (h : takeTurn core (localFs core publicBase) w t = some w') : Sturdy core w' := by
  cases t with
  | call e => exact hi.call hex gate pipe careful h
  | collect cs =>
    obtain ⟨⟨app, a⟩, hserved, rfl⟩ := Option.map_eq_some_iff.mp h
    exact hi.collect careful hserved

theorem Sturdy.reconstruct (hex : core.HexLaws) (gate : core.GateLaws) (pipe : core.PipelineLaws)
    (hi : Sturdy core w) {i : ℕ} {c : Client Hash} {h : String} (call : w.clients i = some c)
    (returned : c.stage = .finished (.ok h)) (distinct : Distinct core c.job.bytes) :
    Agent.reconstruct core publicBase w.server.app h = .ok c.job.bytes := by
  obtain ⟨rfl, hm⟩ := hi.confirmed.calls i c call h returned
  obtain ⟨file, hfile⟩ := Table.mem_iff.mp hm
  have hrec := hi.calls.server.files _ file hfile
  obtain ⟨content, pieces, hlay⟩ := recorded_layout gate pipe hi.shelved hrec
  have hal := aligned_distinct gate pipe hi.calls.server.packed hrec distinct
  rw [reconstruct_reads publicBase hex hi.clean.unpoisoned hfile hlay.within hlay.inside
    hlay.reads, hlay.whole gate pipe hal]

end

/-- Collections that no step of the server interrupts may be run at any point of any
number of concurrent ingests, whatever their deletions come to: each file of distinct
chunks whose ingest has returned is read back in every state, unless a collection finds
an upload of a xorb no file uses between its store and its index. -/
theorem collections_safe (hex : core.HexLaws) (gate : core.GateLaws) (pipe : core.PipelineLaws)
    (publicBase : String) (turns : List (Turn Hash)) (w : World Hash (LocalFs Hash))
    (careful : Run.Guarded (takeTurn core (localFs core publicBase)) Careful (World.boot {}) turns)
    (run : Run.exec (takeTurn core (localFs core publicBase)) (World.boot {}) turns = some w)
    (i : ℕ) (c : Client Hash) (h : String) (call : w.clients i = some c)
    (returned : c.stage = .finished (.ok h)) (distinct : Distinct core c.job.bytes) :
    reconstruct core publicBase w.server.app h = .ok c.job.bytes := by
  have hi : Sturdy core w :=
    Run.exec_invariant (I := Sturdy core) (fun _ _ _ hs hc ht => hs.turn hex gate pipe hc ht)
      boot_sturdy careful run
  exact hi.reconstruct hex gate pipe call returned distinct

/-- A test of `Careful` while the tasks of the server lie below `n`. -/
def carefulTest (n : ℕ) (w : World Hash (LocalFs Hash)) : Turn Hash → Bool
  | .call e => wholeTest w e && e.below n
  | .collect _ => w.server.all n (fun t =>
    match t.handler with
    | .putIndex x _ _ => x ∉ w.server.app.index.xorbs || x ∈ referenced w.server.app.index
    | _ => true)

theorem carefulTest_careful {n : ℕ} {w : World Hash (LocalFs Hash)} {t : Turn Hash}
    (hn : Below n w.server) (h : carefulTest n w t = true) : Careful w t := by
  cases t with
  | call e => exact wholeTest_whole (Bool.and_eq_true_iff.mp h).1
  | collect cs =>
    intro i u hu x info len hg hx
    have hu := all_tasks hn h hu
    simp only [hg, Bool.or_eq_true, decide_eq_true_eq] at hu
    exact hu.resolve_left (fun hnot => hnot hx)

theorem takeTurn_below {publicBase : String} {n : ℕ} {w w' : World Hash (LocalFs Hash)}
    {t : Turn Hash} (hn : Below n w.server) (ht : carefulTest n w t = true)
    (h : takeTurn core (localFs core publicBase) w t = some w') : Below n w'.server := by
  cases t with
  | call e => exact World.step_below hn (Bool.and_eq_true_iff.mp ht).2 h
  | collect cs =>
    obtain ⟨_, _, rfl⟩ := Option.map_eq_some_iff.mp h
    exact hn

/-- Another file is about to be registered. -/
def uploadUnused : List (Event Plain.PlainHash) :=
  .begin 1 ⟨"v", "q", [3]⟩ :: ask 1 4 ++ [.compute 1, .compute 1] ++ put 1 5

/-- The uploaded xorb is collected before its call registers the file. -/
def collectUnused : List (Turn Plain.PlainHash) :=
  (ingestOne ++ uploadUnused).map .call ++
    .collect [{ order := [[1, 3], [1, 1, 1, 2]] }, {}, {}] ::
      (Event.compute 1 :: ask 1 6).map .call

theorem collections_safe_two : ∃ w : World Plain.PlainHash (LocalFs Plain.PlainHash),
    Run.exec (takeTurn Plain.plain (localFs Plain.plain "")) (World.boot {}) collectUnused =
      some w ∧
    w.server.app.blob.files.keys = [[1, 1, 1, 2]] ∧
    reconstruct Plain.plain "" w.server.app (Plain.hex (Plain.plain.fileHashOf [1, 2])) =
      .ok [1, 2] := by
  have hrun : (Run.exec (takeTurn Plain.plain (localFs Plain.plain "")) (World.boot {})
      collectUnused).map (fun w => (w.server.app.blob.files.keys,
        (w.clients 0).map (fun c => (c.job.bytes, hashReturned c)))) =
      some ([[1, 1, 1, 2]], some ([1, 2], some (Plain.hex (Plain.plain.fileHashOf [1, 2])))) := by
    decide +kernel
  have hcareful : Run.check (takeTurn Plain.plain (localFs Plain.plain "")) (carefulTest 7)
      (World.boot {}) collectUnused = true := by decide +kernel
  obtain ⟨w, hw, he⟩ := Option.map_eq_some_iff.mp hrun
  obtain ⟨hblobs, hcall⟩ := Prod.mk.inj he
  obtain ⟨c, hc, hdone⟩ := Option.map_eq_some_iff.mp hcall
  obtain ⟨hbytes, hret⟩ := Prod.mk.inj hdone
  have hguard := Run.guarded_of_check (I := fun w => Below 7 w.server)
    (fun _ _ => carefulTest_careful) (fun _ _ _ => takeTurn_below) (fun _ _ => rfl) hcareful
  have hback := collections_safe Plain.plain_hex Plain.plain_gate Plain.plain_pipeline ""
    collectUnused w hguard hw 0 c _ hc (hashReturned_eq hret) (by rw [hbytes]; decide)
  rw [hbytes] at hback
  exact ⟨w, hw, hblobs, hback⟩

end Dejaveph.Proofs.Collections
