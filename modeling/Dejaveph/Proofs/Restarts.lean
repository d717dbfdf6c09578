import Dejaveph.Proofs.IngestSucceeds

namespace Dejaveph.Proofs.Restarts
open Lib Server Agent RegisteredTerms DistinctChunks AtRest IngestSucceeds

variable {Hash : Type} [DecidableEq Hash] {core : XetCore Hash}
  {app app' : AppState Hash (LocalFs Hash)}

/-- A call that fails before its registration is answered leaves files and paths as they
were. -/
theorem failed_keeps (hs : Holding core app) {publicBase : String} {job : Job} {e : String}
    (he : e ≠ "register file")
    (call : Ingests core (localFs core publicBase) job (.query [] (core.nextBlock job.bytes)) app
      none (.error e) app') :
    app'.index.files = app.index.files ∧ app'.index.catalog = app.index.catalog := by
  obtain ⟨_, hg⟩ | ⟨_, _, _, _, hcut, _⟩ := FailedIngest.ingests_left call he hs.stocked .refl
  · exact ⟨hg.files, hg.catalog⟩
  · cases hcut

/-- A server that has started over any store, and any calls, however they ended, and any
collections, whatever their deletions did, each with the server to itself. A xorb that is
stored and not indexed stays so whatever comes next, its bytes as they are; and what comes
next adds to them the one of an upload that it drops between its store and its index, or
those whose deletion fails, and no other. A call whose requests are served and answered
ends as the terms that it registers say: refused by the router when its registration is too
large, rejected when one of them names such a xorb, and else with its file hash. What was
returned is read back where no chunk repeats. -/
theorem restart_exact (hex : core.HexLaws) (gate : core.GateLaws) (pipe : core.PipelineLaws)
    (packs : Packs core) (publicBase : String) {disk : LocalFs Hash} {acts : List (Act Hash)}
    {results : List (Option (Except String String))}
    (past : Run.Runs (Does core publicBase) { blob := disk } acts results app) :
    (∀ act result app', Does core publicBase app act result app' →
      (∀ x, Stranded app x → app'.blob.files.lookup x = app.blob.files.lookup x) ∧
      ∀ x, Stranded app' x ↔ Stranded app x ∨ act.Strands app app' x) ∧
    ∀ job n k, 3 * (core.nextBlock job.bytes).length + 4 ≤ k → ∃ result app',
      ingestAlone core (localFs core publicBase) (n + 5) job k []
        (.query [] (core.nextBlock job.bytes)) app = some (result, app') ∧
      EndsWith core job (termsFor core app.index job.bytes) (Stranded app) result ∧
      (∀ e, result = .error e →
        app'.index.files = app.index.files ∧ app'.index.catalog = app.index.catalog) ∧
      ∀ old cut fh, (.ingest old cut, some (.ok fh)) ∈ acts.zip results ∨
          (old = job ∧ result = .ok fh) →
        Distinct core old.bytes → reconstruct core publicBase app' fh = .ok old.bytes := by
  obtain ⟨_, hs, _, _, hold⟩ := past_settled hex gate pipe (settled_boot disk) past
  have hs : Settled core (Stranded app) app := ⟨hs.toHolding, fun _ => Iff.rfl⟩
  refine ⟨fun act result app' hdoes => ?_, fun job n k enough => ?_⟩
  · obtain ⟨hs', _, hstays⟩ := does_settled hex gate pipe hs hdoes
    exact ⟨fun x hx => (hstays x hx).1, hs'.stranded⟩
  obtain ⟨result, app', hrun, hend⟩ := settled_ends hex gate pipe packs publicBase hs job n k enough
  have hcall := ingestAlone_ingests hrun
  obtain ⟨hs', hext, _⟩ := hs.ingests hex gate pipe stageOk_start hcall
  refine ⟨result, app', hrun, hend, ?_, ?_⟩
  · rintro e rfl
    refine failed_keeps hs.toHolding ?_ hcall
    cases hend <;> decide
  · rintro old cut fh (hm | ⟨rfl, rfl⟩) hd
    · obtain ⟨hfh, hkept⟩ := hold old cut fh hm
      rw [hfh]
      exact hs'.toHolding.reconstruct hex gate pipe publicBase hd (hext.files _ hkept)
    · obtain ⟨hfh, _, hrec⟩ := ingested_recorded hex hs'.toHolding hcall
      rw [hfh]
      exact hs'.toHolding.reconstruct hex gate pipe publicBase hd hrec

/-- A store that holds one xorb, of two chunks. -/
def oneXorb : LocalFs Plain.PlainHash :=
  { files := (∅ : Table Plain.PlainHash Bytes).insert [1, 5, 1, 4] [0, 1, 5, 0, 1, 4, 2] }

/-- The two chunks are ingested again and rejected, before and after a collection. Once one
of them has been ingested in another file, so is the other. -/
theorem restart_exact_again : ∃ app app',
    Run.Runs (Does Plain.plain "") { blob := oneXorb } [.ingest ⟨"vol", "/f", [5, 4]⟩ none,
      .collect true, .ingest ⟨"vol", "/f", [5, 4]⟩ none, .ingest ⟨"vol", "/g", [5]⟩ none]
      [some (.error refused), none, some (.error refused),
        some (.ok (Plain.hex (Plain.plain.fileHashOf [5])))] app ∧
    IngestBytes Plain.plain (localFs Plain.plain "") ⟨"vol", "/f", [5, 4]⟩ app
      (.ok (Plain.hex (Plain.plain.fileHashOf [5, 4]))) app' ∧
    reconstruct Plain.plain "" app' (Plain.hex (Plain.plain.fileHashOf [5])) = .ok [5] ∧
    reconstruct Plain.plain "" app' (Plain.hex (Plain.plain.fileHashOf [5, 4])) = .ok [5, 4] := by
  have hrun : ((ingestAlone Plain.plain (localFs Plain.plain "") 9 ⟨"vol", "/f", [5, 4]⟩ 14 []
      (.query [] (Plain.plain.nextBlock [5, 4])) { blob := oneXorb }).bind (fun p =>
        (runAlone Plain.plain (localFs Plain.plain "") 9 p.2 (start Plain.plain .gc)).bind
          (fun q => (ingestAlone Plain.plain (localFs Plain.plain "") 9 ⟨"vol", "/f", [5, 4]⟩ 14 []
            (.query [] (Plain.plain.nextBlock [5, 4])) q.1).bind (fun r =>
              (ingestAlone Plain.plain (localFs Plain.plain "") 9 ⟨"vol", "/g", [5]⟩ 14 []
                (.query [] (Plain.plain.nextBlock [5])) r.2).bind (fun t =>
                  (ingestAlone Plain.plain (localFs Plain.plain "") 9 ⟨"vol", "/f", [5, 4]⟩ 14 []
                    (.query [] (Plain.plain.nextBlock [5, 4])) t.2).map (fun u =>
                      (p.1, r.1, t.1, u.1))))))) =
      some (.error refused, .error refused, .ok (Plain.hex (Plain.plain.fileHashOf [5])),
        .ok (Plain.hex (Plain.plain.fileHashOf [5, 4]))) := by decide +kernel
  obtain ⟨⟨first, app1⟩, h1, hrun⟩ := Option.bind_eq_some_iff.mp hrun
  obtain ⟨⟨app2, a⟩, h2, hrun⟩ := Option.bind_eq_some_iff.mp hrun
  obtain ⟨⟨again, app3⟩, h3, hrun⟩ := Option.bind_eq_some_iff.mp hrun
  obtain ⟨⟨kept, app⟩, h4, hrun⟩ := Option.bind_eq_some_iff.mp hrun
  obtain ⟨⟨last, app'⟩, h5, he⟩ := Option.map_eq_some_iff.mp hrun
  simp only [Prod.mk.injEq] at he
  obtain ⟨rfl, rfl, rfl, rfl⟩ := he
  have past : Run.Runs (Does Plain.plain "") { blob := oneXorb }
      [.ingest ⟨"vol", "/f", [5, 4]⟩ none, .collect true, .ingest ⟨"vol", "/f", [5, 4]⟩ none,
        .ingest ⟨"vol", "/g", [5]⟩ none]
      [some (.error refused), none, some (.error refused),
        some (.ok (Plain.hex (Plain.plain.fileHashOf [5])))] app :=
    .cons (.ingested _ _ _ _ (ingestAlone_ingests h1))
      (.cons (.collected true a _ (runAlone_completes (fun _ _ => rfl) h2))
        (.cons (.ingested _ _ _ _ (ingestAlone_ingests h3))
          (.cons (.ingested _ _ _ _ (ingestAlone_ingests h4)) (.nil app))))
  obtain ⟨_, hends⟩ := restart_exact Plain.plain_hex Plain.plain_gate Plain.plain_pipeline
    plain_packs "" past
  obtain ⟨result, app'', hcall, _, _, hread⟩ := hends ⟨"vol", "/f", [5, 4]⟩ 4 14 (by decide)
  obtain ⟨rfl, rfl⟩ := Prod.mk.inj (Option.some.inj (hcall.symm.trans h5))
  exact ⟨app, app'', past, ⟨none, ingestAlone_ingests hcall⟩,
    hread ⟨"vol", "/g", [5]⟩ none _ (.inl (by simp)) (by decide),
    hread _ none _ (.inr ⟨rfl, rfl⟩) (by decide)⟩

end Dejaveph.Proofs.Restarts
