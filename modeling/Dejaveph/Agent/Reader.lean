import Dejaveph.Agent.Reconstruct
import Dejaveph.Server.Alone

namespace Dejaveph.Agent
open Lib Server

/-- Where a `reconstruct` call stands. It waits for a response in `query`, and in
`gather` for the bytes of the first term left. -/
inductive Fetching where
  | query
  | gather (fetchInfo : Table String (List FetchInfo)) (offset : ℕ) (todo : List ReconTerm)
      (out : Bytes)
  | finished (result : Except String Bytes)

section
variable (publicBase : String)

/-- The ranged GET for an entry, when the server has a route for its URL. -/
def rangeRequest (fi : FetchInfo) : Option Request :=
  (xorbDataRoute publicBase fi.url).map (fun hashHex =>
    .xorbData hashHex (some (rangeHeader fi.urlRange.start fi.urlRange.end_)))

def nextFetch (fileHashHex : String) : Fetching → Option Request
  | .query => some (.reconstruct fileHashHex)
  | .gather fetchInfo _ (t :: _) _ =>
    match pick fetchInfo t with
    | .error _ => none
    | .ok fi => rangeRequest publicBase fi
  | _ => none

/-- What a call does with no response: it ends after the last term, or fails on a
term that it has no request for. -/
def settle : Fetching → Option Fetching
  | .gather _ offset [] out => some (.finished (.ok (dropOffset offset out)))
  | .gather fetchInfo _ (t :: _) _ =>
    match pick fetchInfo t with
    | .error e => some (.finished (.error e))
    | .ok fi =>
      match rangeRequest publicBase fi with
      | none => some (.finished (.error "fetch xorb range"))
      | some _ => none
  | _ => none

end

/-- The body of a response to a ranged GET. Its status is not looked at. -/
def bodyOf : Except Failure PartialContent → Bytes
  | .ok content => content.body
  | .error f => f.text.toUTF8.toList

variable {Hash : Type} (core : XetCore Hash)

def resumeFetch : Fetching → Answer → Fetching
  | .query, .reconstruct (.ok resp) =>
    .gather resp.fetchInfo resp.offsetIntoFirstRange resp.terms []
  | .query, .reconstruct (.error f) =>
    .finished (.error ("reconstruction query failed: HTTP " ++ statusText f.status))
  | .gather fetchInfo offset (t :: ts) out, .xorbData content =>
    match deserializeChunks core (t.range.end_.toNat - t.range.start.toNat) (bodyOf content) with
    | .error e => .finished (.error e)
    | .ok data => .gather fetchInfo offset ts (out ++ data)
  | stage, _ => stage

/-- How a call ends when it gets no response, or its response breaks off in the body. -/
def hangUpFetch (inBody : Bool) : Fetching → Fetching
  | .query =>
    .finished (.error (if inBody then "parse reconstruction" else "query reconstruction"))
  | .gather .. =>
    .finished (.error (if inBody then "read xorb range body" else "fetch xorb range"))
  | stage => stage

variable [DecidableEq Hash] (publicBase : String)

/-- A call, from a stage on, against a server that does nothing else meanwhile. -/
def fetchAlone (app : AppState Hash (LocalFs Hash)) (fileHashHex : String) :
    ℕ → Fetching → Option (Except String Bytes)
  | _, .finished result => some result
  | 0, _ => none
  | n + 1, stage =>
    match settle publicBase stage with
    | some stage => fetchAlone app fileHashHex n stage
    | none => (nextFetch publicBase fileHashHex stage).bind (fun r =>
        match respond core (localFs core publicBase) app r with
        | some (_, a) => fetchAlone app fileHashHex n (resumeFetch core stage a)
        | none => fetchAlone app fileHashHex n (hangUpFetch false stage))

/-- The steps that a call takes: one for its query, one for each term, and its last. -/
def fetchSteps (app : AppState Hash (LocalFs Hash)) (fileHashHex : String) : ℕ :=
  match respond core (localFs core publicBase) app (.reconstruct fileHashHex) with
  | some (_, .reconstruct (.ok resp)) => resp.terms.length + 2
  | _ => 1

def Reconstructing : Handler Hash → Prop
  | .reconLock _ | .reconPresign _ | .panicked => True
  | .reply a | .answered a => ∃ result, a = .reconstruct result
  | _ => False

def Ranging : Handler Hash → Prop
  | .dataHead .. | .dataRead .. | .panicked => True
  | .reply a | .answered a => ∃ content, a = .xorbData content
  | _ => False

section
variable {core publicBase} {app app' : AppState Hash (LocalFs Hash)} {a : Answer}
  {g g' : Handler Hash} {c : Choice Hash}

omit [DecidableEq Hash] in
theorem start_reconstructing (fileHashHex : String) :
    Reconstructing (start core (.reconstruct fileHashHex)) := by
  simp only [start]
  split
  · exact ⟨_, rfl⟩
  · trivial

omit [DecidableEq Hash] in
theorem start_ranging (hashHex : String) (range : Option HeaderValue) :
    Ranging (start core (.xorbData hashHex range)) := by
  simp only [start]
  split
  · exact ⟨_, rfl⟩
  · trivial

theorem advance_reconstructing (hg : Reconstructing g)
    (h : advance core (localFs core publicBase) c app g = some (app', g')) :
    Reconstructing g' ∧
      (app' = app ∨ g' = .panicked ∧ ∃ fh, g = .reconLock fh ∧ collect app.index fh = none) := by
  cases g with
  | reconLock fh =>
    simp only [advance, lock, panicLocked, Option.some.injEq] at h
    split at h
    · cases h
      exact ⟨trivial, .inl rfl⟩
    · split at h
      · rename_i hn
        cases h
        exact ⟨trivial, .inr ⟨rfl, fh, rfl, hn⟩⟩
      · cases h
        exact ⟨⟨_, rfl⟩, .inl rfl⟩
      · cases h
        exact ⟨trivial, .inl rfl⟩
  | reconPresign collected =>
    cases h
    exact ⟨⟨_, rfl⟩, .inl rfl⟩
  | reply b =>
    cases h
    exact ⟨hg, .inl rfl⟩
  | answered b => cases h
  | panicked => cases h
  | _ => exact absurd hg id

theorem advance_ranging (hg : Ranging g)
    (h : advance core (localFs core publicBase) c app g = some (app', g')) :
    Ranging g' ∧ app' = app := by
  cases g with
  | dataHead hash hashHex range =>
    simp only [advance] at h
    repeat' split at h
    all_goals
      cases h
    · exact ⟨trivial, rfl⟩
    · exact ⟨⟨_, rfl⟩, rfl⟩
    · exact ⟨⟨_, rfl⟩, rfl⟩
  | dataRead hash hashHex start stop len =>
    simp only [advance] at h
    split at h
    all_goals
      cases h
    · exact ⟨trivial, rfl⟩
    · exact ⟨⟨_, rfl⟩, rfl⟩
    · exact ⟨⟨_, rfl⟩, rfl⟩
  | reply b =>
    cases h
    exact ⟨hg, rfl⟩
  | answered b => cases h
  | panicked => cases h
  | _ => exact absurd hg id

theorem respond_reconstruct {fileHashHex : String}
    (h : respond core (localFs core publicBase) app (.reconstruct fileHashHex) = some (app', a)) :
    app' = app ∧ ∃ result, a = .reconstruct result := by
  have hc := runAlone_completes (P := fun _ => True) (fun _ => trivial) h
  have hg : Reconstructing (start core (.reconstruct fileHashHex)) := start_reconstructing fileHashHex
  generalize start core (.reconstruct fileHashHex) = g at hc hg
  clear h
  induction hc with
  | reply => exact ⟨rfl, hg⟩
  | step c _ move rest ih =>
    obtain ⟨hg', rfl | ⟨rfl, _⟩⟩ := advance_reconstructing hg move
    · exact ih hg'
    · exact absurd rest (completes_stuck rfl)

theorem respond_content {hashHex : String} {range : Option HeaderValue}
    (h : respond core (localFs core publicBase) app (.xorbData hashHex range) = some (app', a)) :
    ∃ content, a = .xorbData content := by
  have hc := runAlone_completes (P := fun _ => True) (fun _ => trivial) h
  have hg : Ranging (start core (.xorbData hashHex range)) := start_ranging hashHex range
  generalize start core (.xorbData hashHex range) = g at hc hg
  clear h
  induction hc with
  | reply => exact hg
  | step c _ move rest ih => exact ih (advance_ranging hg move).1

variable (core app) in
/-- What a ranged GET comes to is the body of its answer, or that it was lost. -/
theorem fetchRange_request {fi : FetchInfo} {r : Request}
    (hr : rangeRequest publicBase fi = some r) :
    (respond core (localFs core publicBase) app r = none ∧
      fetchRange core publicBase app fi = .error "fetch xorb range") ∨
    ∃ app' content, respond core (localFs core publicBase) app r =
      some (app', .xorbData content) ∧ fetchRange core publicBase app fi = .ok (bodyOf content) := by
  obtain ⟨hashHex, hroute, rfl⟩ := Option.map_eq_some_iff.mp hr
  cases hresp : respond core (localFs core publicBase) app
      (.xorbData hashHex (some (rangeHeader fi.urlRange.start fi.urlRange.end_))) with
  | none => exact .inl ⟨rfl, by simp only [fetchRange, hroute, hresp]⟩
  | some p =>
    obtain ⟨app', a⟩ := p
    obtain ⟨content, rfl⟩ := respond_content hresp
    refine .inr ⟨app', content, rfl, ?_⟩
    cases content <;> simp only [fetchRange, hroute, hresp, bodyOf]

theorem fetchAlone_gather (fileHashHex : String) (fetchInfo : Table String (List FetchInfo))
    (offset : ℕ) (ts : List ReconTerm) (out : Bytes) :
    fetchAlone core publicBase app fileHashHex (ts.length + 1)
        (.gather fetchInfo offset ts out) =
      some ((assemble core (fetchRange core publicBase app) fetchInfo ts).map
        (fun rest => dropOffset offset (out ++ rest))) := by
  induction ts generalizing out with
  | nil => simp [fetchAlone, settle, assemble, Except.map]
  | cons t ts ih =>
    simp only [List.length_cons, fetchAlone, settle, nextFetch, assemble, bind, Except.bind]
    cases hp : pick fetchInfo t with
    | error e => simp [fetchAlone, Except.map]
    | ok fi =>
      cases hr : rangeRequest publicBase fi with
      | none =>
        have hroute := Option.map_eq_none_iff.mp hr
        simp [hr, fetchRange, hroute, fetchAlone, Except.map]
      | some r =>
        obtain ⟨hresp, hbody⟩ | ⟨app', content, hresp, hbody⟩ := fetchRange_request core app hr
        · simp [hr, hresp, hbody, hangUpFetch, fetchAlone, Except.map]
        · simp only [hr, Option.bind_some, hresp, hbody, resumeFetch]
          cases deserializeChunks core (t.range.end_.toNat - t.range.start.toNat)
              (bodyOf content) with
          | error e => simp [fetchAlone, Except.map]
          | ok data =>
            simp only [ih]
            cases assemble core (fetchRange core publicBase app) fetchInfo ts <;> simp [Except.map]

/-- A call that has the server to itself computes what `reconstruct` does. -/
theorem fetchAlone_reconstruct (app : AppState Hash (LocalFs Hash)) (fileHashHex : String) :
    fetchAlone core publicBase app fileHashHex (fetchSteps core publicBase app fileHashHex) .query =
      some (reconstruct core publicBase app fileHashHex) := by
  unfold fetchSteps
  cases hresp : respond core (localFs core publicBase) app (.reconstruct fileHashHex) with
  | none => simp [fetchAlone, settle, nextFetch, hresp, hangUpFetch, reconstruct]
  | some p =>
    obtain ⟨app', a⟩ := p
    obtain ⟨rfl, result, rfl⟩ := respond_reconstruct hresp
    cases result with
    | error f => simp [fetchAlone, settle, nextFetch, hresp, resumeFetch, reconstruct]
    | ok resp =>
      have hquery : ∀ n, fetchAlone core publicBase app' fileHashHex (n + 1) .query =
          fetchAlone core publicBase app' fileHashHex n
            (.gather resp.fetchInfo resp.offsetIntoFirstRange resp.terms []) := by
        intro n
        simp [fetchAlone, settle, nextFetch, hresp, resumeFetch]
      rw [hquery, fetchAlone_gather]
      simp only [reconstruct, hresp, List.nil_append]
      cases assemble core (fetchRange core publicBase app') resp.fetchInfo resp.terms <;> rfl

end

structure Reader where
  fileHashHex : String
  stage : Fetching
  waiting : Option ℕ := none

/-- The server with every `ingestBytes` call and every `reconstruct` call so far.
The requests of the latter are numbered on their own. -/
structure Net (Hash : Type) where
  world : World Hash (LocalFs Hash)
  tasks : Run.Pool (Exchange Hash)
  readers : Run.Pool Reader

inductive NetEvent (Hash : Type) where
  | call (e : Event Hash)
  | begin (i : ℕ) (fileHashHex : String)
  | settle (i : ℕ)
  | send (i n : ℕ)
  | receive (i : ℕ)
  | hangUp (i : ℕ) (inBody : Bool)
  | serve (n : ℕ) (c : Choice Hash)

namespace Net
variable {core publicBase}

def app (s : Net Hash) : AppState Hash (LocalFs Hash) := s.world.server.app

/-- The server as the requests of the readers see it. -/
def server (s : Net Hash) : State Hash (LocalFs Hash) := ⟨s.app, s.tasks⟩

/-- The server has moved on a request of a reader. -/
def served (s : Net Hash) (server : State Hash (LocalFs Hash)) : Net Hash :=
  { s with
    world := { s.world with server := { s.world.server with app := server.app } }
    tasks := server.tasks }

def update (s : Net Hash) (i : ℕ) (r : Reader) : Net Hash :=
  { s with readers := Function.update s.readers i (some r) }

end Net

/-- One step of a call, or of the server on a request. -/
def Net.step (s : Net Hash) : NetEvent Hash → Option (Net Hash)
  | .call e => do
    let world ← World.step core (localFs core publicBase) s.world e
    some { s with world }
  | .begin i fileHashHex =>
    match s.readers i with
    | some _ => none
    | none => some (s.update i ⟨fileHashHex, .query, none⟩)
  | .settle i => do
    let r ← s.readers i
    let stage ← Agent.settle publicBase r.stage
    some (s.update i { r with stage })
  | .send i n => do
    let r ← s.readers i
    if r.waiting.isSome then none
    else
      let request ← nextFetch publicBase r.fileHashHex r.stage
      let server ← Server.step core (localFs core publicBase) s.server (.request n request)
      some ((s.served server).update i { r with waiting := some n })
  | .receive i => do
    let r ← s.readers i
    let n ← r.waiting
    match s.tasks n with
    | some ⟨_, .answered a⟩ =>
      some (s.update i { r with stage := resumeFetch core r.stage a, waiting := none })
    | _ => none
  | .hangUp i inBody => do
    let r ← s.readers i
    let _ ← r.waiting
    some (s.update i { r with stage := hangUpFetch inBody r.stage, waiting := none })
  | .serve n c => do
    let server ← Server.step core (localFs core publicBase) s.server (.step n c)
    some (s.served server)

def Net.boot : Net Hash := ⟨World.boot {}, fun _ => none, fun _ => none⟩

section
variable {core publicBase} {s s' : Net Hash} {e : NetEvent Hash}

inductive Net.Moved (core : XetCore Hash) (publicBase : String) (s : Net Hash) :
    NetEvent Hash → Net Hash → Prop
  | called (e : Event Hash) (world : World Hash (LocalFs Hash))
      (step : World.step core (localFs core publicBase) s.world e = some world) :
      Moved core publicBase s (.call e) { s with world }
  | begun (i : ℕ) (fileHashHex : String) (fresh : s.readers i = none) :
      Moved core publicBase s (.begin i fileHashHex) (s.update i ⟨fileHashHex, .query, none⟩)
  | settled (i : ℕ) (r : Reader) (stage : Fetching) (call : s.readers i = some r)
      (next : settle publicBase r.stage = some stage) :
      Moved core publicBase s (.settle i) (s.update i { r with stage })
  | sent (i n : ℕ) (r : Reader) (request : Request) (call : s.readers i = some r)
      (idle : r.waiting = none) (next : nextFetch publicBase r.fileHashHex r.stage = some request)
      (free : s.tasks n = none) :
      Moved core publicBase s (.send i n)
        ({ s with tasks := Function.update s.tasks n (some ⟨request, start core request⟩) }.update i
          { r with waiting := some n })
  | received (i n : ℕ) (r : Reader) (request : Request) (a : Answer) (call : s.readers i = some r)
      (waits : r.waiting = some n) (task : s.tasks n = some ⟨request, .answered a⟩) :
      Moved core publicBase s (.receive i)
        (s.update i { r with stage := resumeFetch core r.stage a, waiting := none })
  | lost (i : ℕ) (inBody : Bool) (r : Reader) (call : s.readers i = some r) :
      Moved core publicBase s (.hangUp i inBody)
        (s.update i { r with stage := hangUpFetch inBody r.stage, waiting := none })
  | served (n : ℕ) (c : Choice Hash) (t : Exchange Hash) (app : AppState Hash (LocalFs Hash))
      (g : Handler Hash) (task : s.tasks n = some t)
      (move : advance core (localFs core publicBase) c s.app t.handler = some (app, g)) :
      Moved core publicBase s (.serve n c)
        (s.served ⟨app, Function.update s.tasks n (some ⟨t.request, g⟩)⟩)

theorem Net.step_moved (h : Net.step core publicBase s e = some s') :
    Net.Moved core publicBase s e s' := by
  cases e with
  | call e =>
    simp only [Net.step, Option.bind_eq_bind, Option.bind_eq_some_iff, Option.some.injEq] at h
    obtain ⟨world, hw, rfl⟩ := h
    exact .called e world hw
  | begin i fileHashHex =>
    simp only [Net.step] at h
    split at h
    · cases h
    · rename_i hn
      cases h
      exact .begun i fileHashHex hn
  | settle i =>
    simp only [Net.step, Option.bind_eq_bind, Option.bind_eq_some_iff, Option.some.injEq] at h
    obtain ⟨r, hr, stage, hn, rfl⟩ := h
    exact .settled i r stage hr hn
  | send i n =>
    simp only [Net.step, Option.bind_eq_bind, Option.bind_eq_some_iff] at h
    obtain ⟨r, hr, h⟩ := h
    split at h
    · cases h
    · rename_i hw
      simp only [Option.bind_eq_some_iff, Option.some.injEq] at h
      obtain ⟨request, hn, server, hs, rfl⟩ := h
      obtain ⟨_, _, he, hfree, rfl⟩ | ⟨_, _, _, _, _, he, _⟩ := step_advance core _ hs
      · cases he
        exact .sent i n r request hr (by simpa using hw) hn hfree
      · cases he
  | receive i =>
    simp only [Net.step, Option.bind_eq_bind, Option.bind_eq_some_iff] at h
    obtain ⟨r, hr, n, hn, h⟩ := h
    split at h
    · rename_i request a ht
      cases h
      exact .received i n r request a hr hn ht
    · cases h
  | hangUp i inBody =>
    simp only [Net.step, Option.bind_eq_bind, Option.bind_eq_some_iff, Option.some.injEq] at h
    obtain ⟨r, hr, _, _, rfl⟩ := h
    exact .lost i inBody r hr
  | serve n c =>
    simp only [Net.step, Option.bind_eq_bind, Option.bind_eq_some_iff, Option.some.injEq] at h
    obtain ⟨server, hs, rfl⟩ := h
    obtain ⟨_, _, he, _⟩ | ⟨_, _, t, app, g, he, ht, hm, rfl⟩ := step_advance core _ hs
    · cases he
    · cases he
      exact .served n c t app g ht hm

end

end Dejaveph.Agent
