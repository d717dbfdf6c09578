import Dejaveph.Agent.Reconstruct
import Dejaveph.Server.Alone

namespace Dejaveph.Agent
open Lib Server

def failed : Answer → Bool
  | .putXorb (.error _) | .registerFile (.error _) | .reconstruct (.error _)
  | .globalDedup (.error _) | .xorbData (.error _) => true
  | _ => false

variable {Hash β : Type} [DecidableEq Hash]

section
variable (core : XetCore Hash) (store : BlobStore Hash β)

/-- A request is served with no failing file operation, or answered with an error: no put
succeeds after a file operation of it has failed. -/
def Handled (app : AppState Hash β) (r : Request) (a : Answer) (app' : AppState Hash β) : Prop :=
  Serves core store Choice.Works app r a app' ∨
    Serves core store (fun _ => True) app r a app' ∧ failed a = true

/-- The handler of a request has come to `g` and goes no further, as its client has hung
up. No file operation has failed before, unless it is still at its `put`. -/
structure Dropped (app : AppState Hash β) (r : Request) (g : Handler Hash)
    (app' : AppState Hash β) : Prop where
  midway : g.midway = true
  reached : Reaches core store Choice.Works app (start core r) app' g ∨
    (∃ x info call, g = .putStore x info call) ∧
      Reaches core store (fun _ => True) app (start core r) app' g

/-- The rest of an `ingestBytes` call, from a stage on, while no one else uses the
server. A request whose response is lost has been handled, has not reached it, or has
had its handler dropped on the way: `cut` is the handler where it was dropped. -/
inductive Ingests (job : Job) : Stage Hash → AppState Hash β → Option (Handler Hash) →
    Except String String → AppState Hash β → Prop
  | finished (result : Except String String) (app : AppState Hash β) :
      Ingests job (.finished result) app none result app
  | computed {stage stage' : Stage Hash} {app app' : AppState Hash β} {cut : Option (Handler Hash)}
      {result : Except String String} (next : compute core stage = some stage')
      (rest : Ingests job stage' app cut result app') : Ingests job stage app cut result app'
  | answered {stage : Stage Hash} {app app' app'' : AppState Hash β} {cut : Option (Handler Hash)}
      {result : Except String String} {r : Request} {a : Answer}
      (next : nextRequest core job stage = some r) (fits : r.Fits core)
      (handled : Handled core store app r a app')
      (rest : Ingests job (resume core job stage a) app' cut result app'') :
      Ingests job stage app cut result app''
  | refused {stage : Stage Hash} {app app' : AppState Hash β} {cut : Option (Handler Hash)}
      {result : Except String String} {r : Request} (next : nextRequest core job stage = some r)
      (large : ¬ r.Fits core) (rest : Ingests job (tooLarge stage) app cut result app') :
      Ingests job stage app cut result app'
  | lost {stage : Stage Hash} {app app' app'' : AppState Hash β} {cut : Option (Handler Hash)}
      {result : Except String String} {r : Request} (next : nextRequest core job stage = some r)
      (handled : app' = app ∨ r.Fits core ∧ ∃ a, Handled core store app r a app')
      (rest : Ingests job (hangUp stage) app' cut result app'') :
      Ingests job stage app cut result app''
  | dropped {stage : Stage Hash} {app app' app'' : AppState Hash β} {cut : Option (Handler Hash)}
      {result : Except String String} {r : Request} {g : Handler Hash}
      (next : nextRequest core job stage = some r) (fits : r.Fits core)
      (dropped : Dropped core store app r g app')
      (rest : Ingests job (hangUp stage) app' cut result app'') :
      Ingests job stage app (some g) result app''

def IngestBytes (job : Job) (app : AppState Hash β) (result : Except String String)
    (app' : AppState Hash β) : Prop :=
  ∃ cut, Ingests core store job (.query [] (core.nextBlock job.bytes)) app cut result app'

/-- An `ingestBytes` call within `n` steps, each request served within `n` more.
The flags say which requests reach the server; after them every one does. -/
def ingestAlone (n : ℕ) (job : Job) : ℕ → List Bool → Stage Hash → AppState Hash β →
    Option (Except String String × AppState Hash β)
  | 0, _, _, _ => none
  | k + 1, flags, stage, app =>
    match stage with
    | .finished result => some (result, app)
    | stage =>
      match compute core stage with
      | some stage => ingestAlone n job k flags stage app
      | none => (nextRequest core job stage).bind (fun r =>
          if ¬ r.Fits core then ingestAlone n job k flags.tail (tooLarge stage) app
          else if flags.head?.getD true then
            (runAlone core store n app (start core r)).bind (fun p =>
              ingestAlone n job k flags.tail (resume core job stage p.2) p.1)
          else ingestAlone n job k flags.tail (hangUp stage) app)

end

variable {core : XetCore Hash} {store : BlobStore Hash β} {job : Job}
  {app app' : AppState Hash β} {cut : Option (Handler Hash)} {result : Except String String}

theorem ingests_finished {result' : Except String String}
    (h : Ingests core store job (.finished result) app cut result' app') :
    cut = none ∧ result' = result ∧ app' = app := by
  cases h with
  | finished => exact ⟨rfl, rfl, rfl⟩
  | computed next | answered next | refused next | lost next | dropped next => cases next

omit [DecidableEq Hash] in
theorem hangUp_finished {stage : Stage Hash} {r : Request}
    (hr : nextRequest core job stage = some r) : ∃ e, hangUp stage = .finished (.error e) := by
  cases stage with
  | walk => cases hr
  | finished => cases hr
  | query | upload | register => exact ⟨_, rfl⟩

/-- What `ingestAlone` computes is an outcome of the call. -/
theorem ingestAlone_ingests {n k : ℕ} {flags : List Bool} {stage : Stage Hash}
    (h : ingestAlone core store n job k flags stage app = some (result, app')) :
    Ingests core store job stage app none result app' := by
  induction k generalizing flags stage app with
  | zero => cases h
  | succ k ih =>
    unfold ingestAlone at h
    split at h
    · cases h
      exact .finished _ _
    · split at h
      · rename_i stage' hc
        exact .computed hc (ih h)
      · obtain ⟨r, hr, h⟩ := Option.bind_eq_some_iff.mp h
        split at h
        · rename_i hlarge
          exact .refused hr hlarge (ih h)
        · rename_i hfits
          split at h
          · obtain ⟨⟨app1, a⟩, hs, h⟩ := Option.bind_eq_some_iff.mp h
            exact .answered hr (not_not.mp hfits) (.inl (runAlone_completes (fun _ => rfl) hs))
              (ih h)
          · exact .lost hr (.inl rfl) (ih h)

theorem handled_catalog {a : Answer} {r : Request} (hr : ∀ req, r ≠ .registerFile req)
    (h : Handled core store app r a app') : app'.index.catalog = app.index.catalog := by
  rcases h with h | ⟨h, _⟩ <;> exact serves_catalog hr h

theorem handled_registers (hx : core.HexLaws) {a : Answer} {ts : List RegisterTerm} {r : Request}
    (hr : nextRequest core job (.register ts) = some r) (h : Handled core store app r a app') :
    (∃ f, a = .registerFile (.error f)) ∨ ∃ n, a = .registerFile (.ok n) ∧ app'.index.catalog =
      app.index.catalog.insert (job.volume, job.dest) (core.fileHashOf job.bytes) := by
  have hboth : ∀ P, Serves core store P app r a app' → (∃ f, a = .registerFile (.error f)) ∨
      ∃ n, a = .registerFile (.ok n) ∧ app'.index.catalog =
        app.index.catalog.insert (job.volume, job.dest) (core.fileHashOf job.bytes) := by
    intro P h
    cases hr
    simp only [Serves, start, hx.from_hex] at h
    obtain ⟨f, _, ha, _⟩ | ⟨n, idx, hreg, ha, rfl⟩ := completes_register h
    · exact .inl ⟨f, ha⟩
    · refine .inr ⟨n, ha, ?_⟩
      unfold registerFile at hreg
      split at hreg
      · cases hreg
      · cases hreg
        rfl
  rcases h with h | ⟨h, _⟩ <;> exact hboth _ h

/-- A call that succeeds writes the catalog entry of its path, with the hash of its
bytes, and no other. -/
theorem ingests_catalog (hx : core.HexLaws) {stage : Stage Hash} {fh : String}
    (hstage : ∀ s, stage ≠ .finished (.ok s))
    (h : Ingests core store job stage app cut (.ok fh) app') :
    fh = core.hex (core.fileHashOf job.bytes) ∧ app'.index.catalog =
      app.index.catalog.insert (job.volume, job.dest) (core.fileHashOf job.bytes) := by
  generalize hres : (Except.ok fh : Except String String) = result at h
  have hfailed : ∀ {stage app cut result app'} {e : String},
      Ingests core store job stage app cut result app' → stage = .finished (.error e) →
      Except.ok fh ≠ result := by
    rintro stage app cut result app' e hi rfl rfl
    cases (ingests_finished hi).2.1
  induction h with
  | finished result app => exact absurd (congrArg Stage.finished hres.symm) (hstage fh)
  | computed next rest ih => exact ih (compute_unfinished core next) hres
  | @answered stage _ _ _ _ _ r a next fits handled rest ih =>
    cases stage with
    | query locs todo =>
      cases todo with
      | nil => cases next
      | cons c todo =>
        rw [← handled_catalog (by cases next; nofun) handled]
        refine ih ?_ hres
        unfold resume
        split <;> (try split) <;> simp_all
    | upload terms group serialized rest' =>
      rw [← handled_catalog (by cases next; nofun) handled]
      refine ih ?_ hres
      unfold resume
      split <;> (try split) <;> simp_all
    | register ts =>
      obtain ⟨f, rfl⟩ | ⟨n, rfl, hc⟩ := handled_registers hx next handled
      · exact absurd hres (hfailed rest rfl)
      · obtain ⟨_, hok, rfl⟩ := ingests_finished rest
        rw [← hres] at hok
        exact ⟨Except.ok.inj hok, hc⟩
    | walk terms rest => cases next
    | finished result => cases next
  | refused next large rest ih =>
    obtain ⟨e, he⟩ := tooLarge_finished core next large
    exact absurd hres (hfailed rest he)
  | lost next handled rest ih =>
    obtain ⟨e, he⟩ := hangUp_finished next
    exact absurd hres (hfailed rest he)
  | dropped next fits dropped rest ih =>
    obtain ⟨e, he⟩ := hangUp_finished next
    exact absurd hres (hfailed rest he)

end Dejaveph.Agent
