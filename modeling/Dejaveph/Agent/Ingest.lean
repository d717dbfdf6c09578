import Dejaveph.Server.Steps

namespace Dejaveph.Agent
open Lib Server

/-- The bounds up to which chunks are packed into a xorb. -/
def maxXorbUncompressed : ℕ := 60 * 1024 * 1024

def maxXorbChunks : ℕ := 8192

/-- Where a chunk already lives, per the global dedup index. -/
abbrev ChunkLoc := String × UInt32

structure Job where
  volume : String
  dest : String
  bytes : Bytes

/-- Where an `ingestBytes` call stands. It waits for a response in `query` while
chunks are left, in `upload` and in `register`. -/
inductive Stage (Hash : Type) where
  | query (locs : List (Chunk Hash × Option ChunkLoc)) (todo : List (Chunk Hash))
  | walk (terms : List RegisterTerm) (rest : List (Chunk Hash × Option ChunkLoc))
  | upload (terms : List RegisterTerm) (group : List (Chunk Hash))
      (serialized : SerializedXorbObject Hash) (rest : List (Chunk Hash × Option ChunkLoc))
  | register (terms : List RegisterTerm)
  | finished (result : Except String String)

def statusText : Status → String
  | .badRequest => "400 Bad Request"
  | .notFound => "404 Not Found"
  | .payloadTooLarge => "413 Payload Too Large"
  | .rangeNotSatisfiable => "416 Range Not Satisfiable"
  | .internalServerError => "500 Internal Server Error"

/-- What a response to a chunk query means: a hit, or a miss on `404`. -/
def queryChunk : Except Failure DedupHit → Except String (Option ChunkLoc)
  | .ok hit => .ok (some (hit.xorb, hit.chunkIndex))
  | .error f =>
    if f.status = .notFound then .ok none
    else .error ("chunk query failed: HTTP " ++ statusText f.status)

def uploadXorb : Except Failure Bool → Except String Unit
  | .ok _ => .ok ()
  | .error f => .error ("xorb upload failed: HTTP " ++ statusText f.status)

def checkRegistration : Except Failure ℕ → Except String Unit
  | .ok _ => .ok ()
  | .error f => .error ("file registration failed: HTTP " ++ statusText f.status)

variable {Hash : Type}

def unpackedLength (group : List (Chunk Hash)) : ℕ := (group.map (fun c => c.data.length)).sum

theorem unpackedLength_append (a b : List (Chunk Hash)) :
    unpackedLength (a ++ b) = unpackedLength a + unpackedLength b := by
  simp [unpackedLength]

/-- The loop over a run of hits: the chunks that continue it, the index expected
after them, and the chunks left. -/
def takeHits (xorb : String) : UInt32 → List (Chunk Hash × Option ChunkLoc) →
    List (Chunk Hash) × UInt32 × List (Chunk Hash × Option ChunkLoc)
  | expected, (c, some (x2, i2)) :: rest =>
    if x2 = xorb ∧ i2 = expected then
      let (run, next, rest) := takeHits xorb (expected + 1) rest
      (c :: run, next, rest)
    else ([], expected, (c, some (x2, i2)) :: rest)
  | expected, rest => ([], expected, rest)

/-- The loop over a run of misses, within the bounds of a xorb. -/
def takeNovel : ℕ → ℕ → List (Chunk Hash × Option ChunkLoc) →
    List (Chunk Hash) × List (Chunk Hash × Option ChunkLoc)
  | n, acc, (c, none) :: rest =>
    if n < maxXorbChunks ∧ acc + c.data.length ≤ maxXorbUncompressed then
      let (group, rest) := takeNovel (n + 1) (acc + c.data.length) rest
      (c :: group, rest)
    else ([], (c, none) :: rest)
  | _, _, rest => ([], rest)

/-- The novel run that begins with a miss. A chunk above the bounds still gets
its own xorb. -/
def novelGroup (c : Chunk Hash) (rest : List (Chunk Hash × Option ChunkLoc)) :
    List (Chunk Hash) × List (Chunk Hash × Option ChunkLoc) :=
  match takeNovel 0 0 ((c, none) :: rest) with
  | ([], _) => ([c], rest)
  | taken => taken

section

theorem succ_toNat {e : UInt32} (h : e.toNat + 1 < 2 ^ 32) : (e + 1).toNat = e.toNat + 1 := by
  rw [UInt32.toNat_add, UInt32.toNat_one, Nat.mod_eq_of_lt h]

theorem takeNovel_cut (n acc : ℕ) (rest : List (Chunk Hash × Option ChunkLoc)) :
    ∃ taken, rest = taken ++ (takeNovel n acc rest).2 ∧
      taken.map Prod.fst = (takeNovel n acc rest).1 ∧ (∀ p ∈ taken, p.2 = none) ∧
      taken.length ≤ maxXorbChunks - n ∧
      (taken ≠ [] → acc + unpackedLength (taken.map Prod.fst) ≤ maxXorbUncompressed) := by
  induction rest generalizing n acc with
  | nil => exact ⟨[], rfl, rfl, nofun, Nat.zero_le _, fun h => absurd rfl h⟩
  | cons p rest ih =>
    obtain ⟨c, loc⟩ := p
    cases loc with
    | some loc => exact ⟨[], rfl, rfl, nofun, Nat.zero_le _, fun h => absurd rfl h⟩
    | none =>
      simp only [takeNovel]
      split
      · rename_i hc
        obtain ⟨taken, hrest, hgroup, hnone, hlen, hsize⟩ := ih (n + 1) (acc + c.data.length)
        refine ⟨(c, none) :: taken, ?_, ?_, List.forall_mem_cons.mpr ⟨rfl, hnone⟩, ?_, ?_⟩
        · rw [List.cons_append, ← hrest]
        · rw [List.map_cons, hgroup]
        · rw [List.length_cons]
          omega
        · intro _
          rw [List.map_cons, unpackedLength, List.map_cons, List.sum_cons, ← Nat.add_assoc]
          by_cases ht : taken = []
          · subst ht
            simpa using hc.2
          · exact hsize ht
      · exact ⟨[], rfl, rfl, nofun, Nat.zero_le _, fun h => absurd rfl h⟩

/-- The group that begins with a miss: within the bounds, or of one chunk. -/
theorem novelGroup_cut (c : Chunk Hash) (rest : List (Chunk Hash × Option ChunkLoc)) :
    ∃ taken, (c, none) :: rest = taken ++ (novelGroup c rest).2 ∧ taken ≠ [] ∧
      taken.map Prod.fst = (novelGroup c rest).1 ∧ (∀ p ∈ taken, p.2 = none) ∧
      taken.length ≤ maxXorbChunks ∧
      (unpackedLength (taken.map Prod.fst) ≤ maxXorbUncompressed ∨ taken.length = 1) := by
  obtain ⟨taken, hrest, hgroup, hnone, hlen, hsize⟩ := takeNovel_cut 0 0 ((c, none) :: rest)
  unfold novelGroup
  split
  · exact ⟨[(c, none)], rfl, by simp, rfl, by simp, by simp [maxXorbChunks], .inr rfl⟩
  · rename_i hne
    have ht : taken ≠ [] := by
      rintro rfl
      exact hne _ (Prod.ext hgroup.symm rfl)
    have hfit := hsize ht
    rw [Nat.zero_add] at hfit
    exact ⟨taken, hrest, ht, hgroup, hnone, hlen, .inl hfit⟩

end

variable (core : XetCore Hash)

def packNovel (terms : List RegisterTerm) (group : List (Chunk Hash))
    (rest : List (Chunk Hash × Option ChunkLoc)) : Stage Hash :=
  match core.fromXorb group with
  | .error _ => .finished (.error "serialize xorb")
  | .ok serialized => .upload terms group serialized rest

/-- One iteration of the loop that emits a term for each run. -/
def walkRun (terms : List RegisterTerm) : List (Chunk Hash × Option ChunkLoc) → Stage Hash
  | [] => .register terms
  | (c, some (xorb, idx)) :: rest =>
    let (run, expected, rest) := takeHits xorb (idx + 1) rest
    .walk (terms ++ [⟨xorb, idx, expected, unpackedLength (c :: run)⟩]) rest
  | (c, none) :: rest =>
    let (group, rest) := novelGroup c rest
    packNovel core terms group rest

/-- The steps of a call between two requests. -/
def compute : Stage Hash → Option (Stage Hash)
  | .query locs [] => some (.walk [] locs)
  | .walk terms rest => some (walkRun core terms rest)
  | _ => none

theorem compute_unfinished {stage stage' : Stage Hash} (h : compute core stage = some stage')
    (s : String) : stage' ≠ .finished (.ok s) := by
  unfold compute at h
  split at h
  · cases h
    nofun
  · cases h
    unfold walkRun packNovel
    repeat' split
    all_goals nofun
  · cases h

def nextRequest (job : Job) : Stage Hash → Option Request
  | .query _ (c :: _) => some (.globalDedup "default-merkledb" (core.hex c.hash))
  | .upload _ _ serialized _ =>
    some (.putXorb "default" (core.hex serialized.hash) serialized.serializedData)
  | .register terms => some (.registerFile
      { fileHash := core.hex (core.fileHashOf job.bytes)
        totalSize := unpackedLength (core.nextBlock job.bytes)
        terms := terms
        volume := some job.volume
        path := some job.dest })
  | _ => none

def resume (job : Job) : Stage Hash → Answer → Stage Hash
  | .query locs (c :: todo), .globalDedup hit =>
    match queryChunk hit with
    | .ok loc => .query (locs ++ [(c, loc)]) todo
    | .error e => .finished (.error e)
  | .upload terms group serialized rest, .putXorb wasInserted =>
    match uploadXorb wasInserted with
    | .ok _ => .walk (terms ++ [⟨core.hex serialized.hash, 0, UInt32.ofNat group.length,
        unpackedLength group⟩]) rest
    | .error e => .finished (.error e)
  | .register _, .registerFile result =>
    match checkRegistration result with
    | .ok _ => .finished (.ok (core.hex (core.fileHashOf job.bytes)))
    | .error e => .finished (.error e)
  | stage, _ => stage

/-- How a call ends when its request gets no response. -/
def hangUp : Stage Hash → Stage Hash
  | .query .. => .finished (.error "chunk dedup query")
  | .upload .. => .finished (.error "upload xorb")
  | .register _ => .finished (.error "register file")
  | stage => stage

/-- How a call ends when the router refuses its request by its size. -/
def tooLarge : Stage Hash → Stage Hash
  | .upload .. => .finished (.error ("xorb upload failed: HTTP " ++ statusText .payloadTooLarge))
  | .register _ =>
    .finished (.error ("file registration failed: HTTP " ++ statusText .payloadTooLarge))
  | stage => stage

theorem tooLarge_finished {job : Job} {stage : Stage Hash} {r : Request}
    (hr : nextRequest core job stage = some r) (large : ¬ r.Fits core) :
    ∃ e, tooLarge stage = .finished (.error e) := by
  cases stage with
  | query locs todo =>
    cases todo with
    | nil => cases hr
    | cons c todo =>
      cases hr
      exact absurd (Nat.zero_le _) large
  | walk => cases hr
  | upload => exact ⟨_, rfl⟩
  | register => exact ⟨_, rfl⟩
  | finished => cases hr

structure Client (Hash : Type) where
  job : Job
  stage : Stage Hash
  waiting : Option ℕ := none

/-- The server together with every `ingestBytes` call so far. -/
structure World (Hash β : Type) where
  server : State Hash β
  clients : Run.Pool (Client Hash)

inductive Event (Hash : Type) where
  | begin (i : ℕ) (job : Job)
  | compute (i : ℕ)
  | send (i n : ℕ)
  | refuse (i : ℕ)
  | receive (i : ℕ)
  | hangUp (i : ℕ)
  | serve (n : ℕ) (c : Choice Hash)

variable {β : Type} [DecidableEq Hash] (store : BlobStore Hash β)

def World.update (w : World Hash β) (i : ℕ) (c : Client Hash) : World Hash β :=
  { w with clients := Function.update w.clients i (some c) }

/-- One step of the server or of one call. Requests come from the calls only. A handler
that is dropped when its call hangs up is one that is not served any more. -/
def World.step (w : World Hash β) : Event Hash → Option (World Hash β)
  | .begin i job =>
    match w.clients i with
    | some _ => none
    | none => some (w.update i ⟨job, .query [] (core.nextBlock job.bytes), none⟩)
  | .compute i => do
    let c ← w.clients i
    let stage ← Agent.compute core c.stage
    some (w.update i { c with stage })
  | .send i n => do
    let c ← w.clients i
    if c.waiting.isSome then none
    else
      let r ← nextRequest core c.job c.stage
      if r.Fits core then
        let server ← Server.step core store w.server (.request n r)
        some ({ w with server }.update i { c with waiting := some n })
      else none
  | .refuse i => do
    let c ← w.clients i
    if c.waiting.isSome then none
    else
      let r ← nextRequest core c.job c.stage
      if r.Fits core then none
      else some (w.update i { c with stage := tooLarge c.stage })
  | .receive i => do
    let c ← w.clients i
    let n ← c.waiting
    match w.server.tasks n with
    | some ⟨_, .answered a⟩ =>
      some (w.update i { c with stage := resume core c.job c.stage a, waiting := none })
    | _ => none
  | .hangUp i => do
    let c ← w.clients i
    -- the connection may also break while a body over the limit is sent
    if c.waiting.isSome ∨ (nextRequest core c.job c.stage).any (fun r => ¬ r.Fits core) then
      some (w.update i { c with stage := hangUp c.stage, waiting := none })
    else none
  | .serve n c => do
    let server ← Server.step core store w.server (.step n c)
    some { w with server }

def World.boot (blob : β) : World Hash β := ⟨Server.boot blob, fun _ => none⟩

section
variable {core store} {w w' : World Hash β} {e : Event Hash}

inductive World.Moved (core : XetCore Hash) (store : BlobStore Hash β) (w : World Hash β) :
    Event Hash → World Hash β → Prop
  | begun (i : ℕ) (job : Job) :
      Moved core store w (.begin i job) (w.update i ⟨job, .query [] (core.nextBlock job.bytes), none⟩)
  | computed (i : ℕ) (c : Client Hash) (stage : Stage Hash) (call : w.clients i = some c)
      (next : compute core c.stage = some stage) :
      Moved core store w (.compute i) (w.update i { c with stage })
  | sent (i n : ℕ) (c : Client Hash) (r : Request) (server : State Hash β)
      (call : w.clients i = some c) (idle : c.waiting = none)
      (next : nextRequest core c.job c.stage = some r) (fits : r.Fits core)
      (arrives : Server.step core store w.server (.request n r) = some server) :
      Moved core store w (.send i n) ({ w with server }.update i { c with waiting := some n })
  | refused (i : ℕ) (c : Client Hash) (r : Request) (call : w.clients i = some c)
      (idle : c.waiting = none) (next : nextRequest core c.job c.stage = some r)
      (large : ¬ r.Fits core) :
      Moved core store w (.refuse i) (w.update i { c with stage := tooLarge c.stage })
  | received (i n : ℕ) (c : Client Hash) (r : Request) (a : Answer)
      (call : w.clients i = some c) (waits : c.waiting = some n)
      (task : w.server.tasks n = some ⟨r, .answered a⟩) :
      Moved core store w (.receive i)
        (w.update i { c with stage := resume core c.job c.stage a, waiting := none })
  | lost (i : ℕ) (c : Client Hash) (call : w.clients i = some c) :
      Moved core store w (.hangUp i)
        (w.update i { c with stage := hangUp c.stage, waiting := none })
  | served (n : ℕ) (c : Choice Hash) (server : State Hash β)
      (steps : Server.step core store w.server (.step n c) = some server) :
      Moved core store w (.serve n c) { w with server }

theorem World.step_moved (h : World.step core store w e = some w') :
    World.Moved core store w e w' := by
  cases e with
  | begin i job =>
    simp only [World.step] at h
    split at h
    · cases h
    · cases h
      exact .begun i job
  | compute i =>
    simp only [World.step, Option.bind_eq_bind, Option.bind_eq_some_iff, Option.some.injEq] at h
    obtain ⟨c, hc, stage, hn, rfl⟩ := h
    exact .computed i c stage hc hn
  | send i n =>
    simp only [World.step, Option.bind_eq_bind, Option.bind_eq_some_iff] at h
    obtain ⟨c, hc, h⟩ := h
    split at h
    · cases h
    · rename_i hw
      simp only [Option.bind_eq_some_iff] at h
      obtain ⟨r, hr, h⟩ := h
      split at h
      · rename_i hfits
        obtain ⟨server, hs, h⟩ := Option.bind_eq_some_iff.mp h
        cases h
        exact .sent i n c r server hc (by simpa using hw) hr hfits hs
      · cases h
  | refuse i =>
    simp only [World.step, Option.bind_eq_bind, Option.bind_eq_some_iff] at h
    obtain ⟨c, hc, h⟩ := h
    split at h
    · cases h
    · rename_i hw
      simp only [Option.bind_eq_some_iff] at h
      obtain ⟨r, hr, h⟩ := h
      split at h
      · cases h
      · rename_i hlarge
        cases h
        exact .refused i c r hc (by simpa using hw) hr hlarge
  | receive i =>
    simp only [World.step, Option.bind_eq_bind, Option.bind_eq_some_iff] at h
    obtain ⟨c, hc, n, hn, h⟩ := h
    split at h
    · rename_i r a ht
      cases h
      exact .received i n c r a hc hn ht
    · cases h
  | hangUp i =>
    simp only [World.step, Option.bind_eq_bind, Option.bind_eq_some_iff] at h
    obtain ⟨c, hc, h⟩ := h
    split at h
    · cases h
      exact .lost i c hc
    · cases h
  | serve n c =>
    simp only [World.step, Option.bind_eq_bind, Option.bind_eq_some_iff, Option.some.injEq] at h
    obtain ⟨server, hs, rfl⟩ := h
    exact .served n c server hs

theorem World.server_step (h : World.step core store w e = some w') :
    w'.server = w.server ∨
    (∃ n r job stage, nextRequest core job stage = some r ∧
      Server.step core store w.server (.request n r) = some w'.server) ∨
    ∃ n c, e = .serve n c ∧ Server.step core store w.server (.step n c) = some w'.server := by
  cases World.step_moved h with
  | sent i n c r server call idle next fits arrives => exact .inr (.inl ⟨n, r, _, _, next, arrives⟩)
  | served n c server steps => exact .inr (.inr ⟨n, c, rfl, steps⟩)
  | _ => exact .inl rfl

/-- The event sends no request numbered `n` or above. -/
def Event.below (n : ℕ) : Event Hash → Bool
  | .send _ m => m < n
  | _ => true

theorem World.step_below {n : ℕ} (hn : Below n w.server) (he : e.below n = true)
    (h : World.step core store w e = some w') : Below n w'.server := by
  cases World.step_moved h with
  | sent i m c r server call idle next fits arrives =>
    have hlabel : (Label.request m r : Label Hash).below n = true := he
    exact Server.step_below hn hlabel arrives
  | served m c server steps => exact Server.step_below hn rfl steps
  | _ => exact hn

theorem World.run_below {n : ℕ} {blob : β} {events : List (Event Hash)}
    (hn : events.all (Event.below n) = true)
    (run : Run.exec (World.step core store) (World.boot blob) events = some w) :
    Below n w.server :=
  Run.exec_invariant (I := fun w => Below n w.server) (fun _ _ _ hi he h => step_below hi he h)
    (fun _ _ => rfl)
    (Run.guarded_of_forall (fun e he _ => List.all_eq_true.mp hn e he) _) run

end

end Dejaveph.Agent
