import Dejaveph.Server.Steps

namespace Dejaveph.Server
open Lib

variable {Hash β : Type} [DecidableEq Hash]

section
variable (core : XetCore Hash) (store : BlobStore Hash β) (P : Choice Hash → Prop)

/-- A handler comes to its response while no other handler moves, under choices
of the environment that are allowed. -/
inductive Completes : AppState Hash β → Handler Hash → Answer → AppState Hash β → Prop
  | reply (app : AppState Hash β) (a : Answer) : Completes app (.reply a) a app
  | step {app app' app'' : AppState Hash β} {g g' : Handler Hash} {a : Answer} (c : Choice Hash)
      (allowed : P c) (move : advance core store c app g = some (app', g'))
      (rest : Completes app' g' a app'') : Completes app g a app''

/-- What a handler comes to while no other handler moves. -/
inductive Reaches : AppState Hash β → Handler Hash → AppState Hash β → Handler Hash → Prop
  | here (app : AppState Hash β) (g : Handler Hash) : Reaches app g app g
  | step {app app' app'' : AppState Hash β} {g g' g'' : Handler Hash} (c : Choice Hash)
      (allowed : P c) (move : advance core store c app g = some (app', g'))
      (rest : Reaches app' g' app'' g'') : Reaches app g app'' g''

def Serves (app : AppState Hash β) (r : Request) (a : Answer) (app' : AppState Hash β) : Prop :=
  Completes core store P app (start core r) a app'

end

/-- Every file operation succeeds. -/
def Choice.Works (c : Choice Hash) : Prop := c.io = .ok

/-- A handler that reads the index and the store only. -/
def Handler.Reads : Handler Hash → Prop
  | .putStore .. | .putIndex .. | .registerLock .. | .gcMark | .gcDelete .. | .gcEvict .. => False
  | _ => True

omit [DecidableEq Hash] in
theorem quiet_reads {g : Handler Hash} (hq : g.Quiet) : g.Reads := by
  cases g <;> trivial

def Handler.replying : Handler Hash → Bool
  | .reply _ => true
  | _ => false

/-- The handler has not come to its response, and may be dropped where it is. -/
def Handler.midway : Handler Hash → Bool
  | .reply _ | .answered _ | .panicked => false
  | _ => true

def sweep (idx : Index Hash) (xs : List Hash) : Index Hash := xs.foldl evict idx

/-- The xorbs that no file names, in the order of the walk. -/
def garbage (idx : Index Hash) (order : List Hash) : List Hash :=
  order.filter (fun x => x ∉ referenced idx)

section
variable (idx : Index Hash) (xs : List Hash)

@[simp] theorem sweep_files : (sweep idx xs).files = idx.files := by
  induction xs generalizing idx with
  | nil => rfl
  | cons x xs ih => exact ih (evict idx x)

@[simp] theorem sweep_catalog : (sweep idx xs).catalog = idx.catalog := by
  induction xs generalizing idx with
  | nil => rfl
  | cons x xs ih => exact ih (evict idx x)

theorem sweep_xorbs (x : Hash) :
    (sweep idx xs).xorbs.lookup x = if x ∈ xs then none else idx.xorbs.lookup x := by
  induction xs generalizing idx with
  | nil => rfl
  | cons y xs ih =>
    change (sweep (evict idx y) xs).xorbs.lookup x = _
    rw [ih]
    by_cases hx : x ∈ xs
    · simp [hx]
    · rw [if_neg hx, evict, Table.lookup_erase_if]
      simp [hx]

theorem sweep_chunkIndex (h : Hash) : (sweep idx xs).chunkIndex.lookup h =
    (idx.chunkIndex.lookup h).filter (fun loc => loc.xorb ∉ xs) := by
  induction xs generalizing idx with
  | nil =>
    change idx.chunkIndex.lookup h = _
    cases idx.chunkIndex.lookup h <;> simp [Option.filter]
  | cons y xs ih =>
    change (sweep (evict idx y) xs).chunkIndex.lookup h = _
    rw [ih, evict, Table.lookup_retain, Option.filter_filter]
    refine congrArg (Option.filter · _) (funext (fun loc => ?_))
    simp [not_or]

end

section
variable {idx : Index Hash} {order : List Hash}

theorem mem_referenced {x : Hash} : x ∈ referenced idx ↔
    ∃ fh file, idx.files.lookup fh = some file ∧ ∃ t ∈ file.terms, t.xorb = x := by
  simp only [referenced, List.mem_flatMap, Table.mem_values, List.mem_map]
  constructor
  · rintro ⟨file, ⟨fh, hf⟩, ht⟩
    exact ⟨fh, file, hf, ht⟩
  · rintro ⟨fh, file, hf, ht⟩
    exact ⟨file, ⟨fh, hf⟩, ht⟩

theorem mem_garbage (all : order.Perm idx.xorbs.keys) {x : Hash} :
    x ∈ garbage idx order ↔ x ∈ idx.xorbs ∧ x ∉ referenced idx := by
  rw [garbage, List.mem_filter, all.mem_iff, AList.mem_keys, decide_eq_true_eq]

theorem mem_collected (all : order.Perm idx.xorbs.keys) {x : Hash} :
    x ∈ (sweep idx (garbage idx order)).xorbs ↔ x ∈ idx.xorbs ∧ x ∈ referenced idx := by
  rw [Table.mem_iff, sweep_xorbs]
  by_cases hx : x ∈ garbage idx order
  · rw [if_pos hx]
    have := (mem_garbage all).mp hx
    simp [this.2]
  · rw [if_neg hx, ← Table.mem_iff]
    rw [mem_garbage all, not_and_or, not_not] at hx
    constructor
    · intro hm
      exact ⟨hm, hx.resolve_left (fun h => h hm)⟩
    · exact And.left

end

/-- The store after deletions with these outcomes. -/
def deleteAll (store : BlobStore Hash β) (blob : β) (xs : List (Hash × Io)) : β :=
  xs.foldl (fun blob p => (store.delete p.1 p.2 blob).2) blob

variable {core : XetCore Hash} {store : BlobStore Hash β} {P : Choice Hash → Prop}
  {app app' : AppState Hash β} {a : Answer}

theorem reaches_reply {g : Handler Hash} {b : Answer}
    (h : Reaches core store P app (.reply b) app' g) : g.midway = false := by
  cases h with
  | here => rfl
  | step c _ move rest =>
    cases move
    cases rest with
    | here => rfl
    | step _ _ move _ => cases move

theorem reaches_panicked {g : Handler Hash} (h : Reaches core store P app .panicked app' g) :
    g.midway = false := by
  cases h with
  | here => rfl
  | step _ _ move _ => cases move

theorem completes_stuck {g : Handler Hash} (hg : g.running = false) :
    ¬ Completes core store P app g a app' := by
  intro h
  cases h with
  | reply => cases hg
  | step c _ move _ => cases g <;> cases hg <;> cases move

theorem completes_reply {b : Answer} (h : Completes core store P app (.reply b) a app') :
    a = b ∧ app' = app := by
  cases h with
  | reply => exact ⟨rfl, rfl⟩
  | step c _ move rest =>
    cases move
    exact absurd rest (completes_stuck rfl)

theorem reaches_last {g g' : Handler Hash}
    (last : ∀ c p, advance core store c app g = some p → p.2.replying = true ∨ p.2 = .panicked)
    (h : Reaches core store P app g app' g') (mid : g'.midway = true) : g' = g ∧ app' = app := by
  cases h with
  | here => exact ⟨rfl, rfl⟩
  | @step _ app1 _ _ g1 _ c _ move rest =>
    have hend := last c _ move
    cases g1 with
    | reply b => exact absurd mid (Bool.eq_false_iff.mp (reaches_reply rest))
    | panicked => exact absurd mid (Bool.eq_false_iff.mp (reaches_panicked rest))
    | _ => simp [Handler.replying] at hend

theorem reaches_putIndex {hash : Hash} {info : XorbObjectInfoV1 Hash} {len : ℕ}
    {g : Handler Hash} (h : Reaches core store P app (.putIndex hash info len) app' g)
    (mid : g.midway = true) : g = .putIndex hash info len ∧ app' = app := by
  refine reaches_last (fun c p hp => ?_) h mid
  obtain rfl := Option.some.inj hp
  unfold lock
  split
  · exact .inr rfl
  · split
    · exact .inr rfl
    · exact .inl rfl

theorem reaches_registerLock {fh : Hash} {req : RegisterFile} {g : Handler Hash}
    (h : Reaches core store P app (.registerLock fh req) app' g) (mid : g.midway = true) :
    g = .registerLock fh req ∧ app' = app := by
  refine reaches_last (fun c p hp => ?_) h mid
  obtain rfl := Option.some.inj hp
  unfold lock
  split
  · exact .inr rfl
  · split <;> exact .inl rfl

theorem completes_next {g : Handler Hash} (hg : g.replying = false)
    (h : Completes core store P app g a app') : ∃ c p, P c ∧
      advance core store c app g = some p ∧ Completes core store P p.1 p.2 a app' := by
  cases h with
  | reply => cases hg
  | step c allowed move rest => exact ⟨c, _, allowed, move, rest⟩

/-- Where the next step does not depend on the choice, a handler comes to the
responses that it comes to from there. -/
theorem completes_iff {g g' : Handler Hash} {app1 : AppState Hash β} {c : Choice Hash}
    (hg : g.replying = false) (hc : P c)
    (h : ∀ c, P c → advance core store c app g = some (app1, g')) :
    Completes core store P app g a app' ↔ Completes core store P app1 g' a app' := by
  constructor
  · intro hcomp
    obtain ⟨c, p, hc, hp, hrest⟩ := completes_next hg hcomp
    obtain rfl := Option.some.inj ((h c hc).symm.trans hp)
    exact hrest
  · exact .step c hc (h c hc)

theorem completes_lock {section_ p : AppState Hash β × Handler Hash} (hp : lock app section_ = p)
    (h : Completes core store P p.1 p.2 a app') :
    app.poisoned = false ∧ Completes core store P section_.1 section_.2 a app' := by
  unfold lock at hp
  split at hp
  · subst hp
    exact absurd h (completes_stuck rfl)
  · rename_i hc
    subst hp
    exact ⟨Bool.eq_false_iff.mpr hc, h⟩

theorem completes_register {fh : Hash} {req : RegisterFile}
    (h : Completes core store P app (.registerLock fh req) a app') :
    (∃ f, registerFile core app.index fh req = .error f ∧ a = .registerFile (.error f) ∧
      app' = app) ∨
    ∃ result idx, registerFile core app.index fh req = .ok (result, idx) ∧
      a = .registerFile (.ok result) ∧ app' = { app with index := idx } := by
  obtain ⟨c, p, _, hp, h⟩ := completes_next rfl h
  obtain ⟨_, h⟩ := completes_lock (Option.some.inj hp) h
  split at h
  · rename_i f hf
    obtain ⟨rfl, rfl⟩ := completes_reply h
    exact .inl ⟨f, hf, rfl, rfl⟩
  · rename_i result idx hr
    obtain ⟨rfl, rfl⟩ := completes_reply h
    exact .inr ⟨result, idx, hr, rfl, rfl⟩

theorem completes_putIndex {hash : Hash} {info : XorbObjectInfoV1 Hash} {len : ℕ}
    (h : Completes core store P app (.putIndex hash info len) a app') :
    ∃ idx metrics, indexXorb app.index hash info = some idx ∧ a = .putXorb (.ok true) ∧
      app' = { app with index := idx, metrics } := by
  obtain ⟨c, p, _, hp, h⟩ := completes_next rfl h
  obtain ⟨_, h⟩ := completes_lock (Option.some.inj hp) h
  split at h
  · exact absurd h (completes_stuck rfl)
  · rename_i idx hi
    obtain ⟨rfl, rfl⟩ := completes_reply h
    exact ⟨idx, _, hi, rfl, rfl⟩

/-- An upload alone indexes its xorb, or leaves the index as it is. -/
theorem completes_putStore {hash : Hash} {info : XorbObjectInfoV1 Hash} {call : PutCall Hash}
    (h : Completes core store P app (.putStore hash info call) a app') :
    (a ≠ .putXorb (.ok true) ∧ app'.index = app.index) ∨
    (a = .putXorb (.ok true) ∧ indexXorb app.index hash info = some app'.index) := by
  generalize hg : Handler.putStore hash info call = g at h
  induction h generalizing call with
  | reply => cases hg
  | step c allowed move rest ih =>
    subst hg
    cases move
    generalize hout : (store.putStep call c.io _).1 = out at rest ih
    rcases out with call' | (e | b)
    · exact ih rfl
    · obtain ⟨rfl, rfl⟩ := completes_reply rest
      exact .inl ⟨nofun, rfl⟩
    · cases b with
      | false =>
        obtain ⟨rfl, rfl⟩ := completes_reply rest
        exact .inl ⟨nofun, rfl⟩
      | true =>
        obtain ⟨idx, metrics, hi, rfl, rfl⟩ := completes_putIndex rest
        exact .inr ⟨rfl, hi⟩

theorem completes_gcNext {swept : ℕ} {todo : List Hash}
    (h : Completes core store P app (gcNext swept todo) a app') :
    a = .gc (swept + todo.length) ∧ ∃ ios : List Io, ios.length = todo.length ∧
      (∀ io ∈ ios, ∃ c, P c ∧ c.io = io) ∧
      app' = { app with
        blob := deleteAll store app.blob (todo.zip ios), index := sweep app.index todo } := by
  induction todo generalizing app swept with
  | nil =>
    obtain ⟨rfl, rfl⟩ := completes_reply h
    exact ⟨rfl, [], rfl, nofun, rfl⟩
  | cons x todo ih =>
    obtain ⟨c, p, hc, hp, h⟩ := completes_next rfl h
    cases hp
    obtain ⟨_, p, _, hp, h⟩ := completes_next rfl h
    obtain ⟨_, h⟩ := completes_lock (Option.some.inj hp) h
    obtain ⟨ha, ios, hlen, hios, rfl⟩ := ih h
    refine ⟨?_, c.io :: ios, ?_, ?_, rfl⟩
    · rw [ha, List.length_cons, Nat.add_assoc, Nat.add_comm 1]
    · rw [List.length_cons, List.length_cons, hlen]
    · intro io hm
      rcases List.mem_cons.mp hm with rfl | hm
      · exact ⟨c, hc, rfl⟩
      · exact hios io hm

/-- A collection alone sweeps the garbage, in some order. -/
theorem completes_gc (h : Completes core store P app .gcMark a app') :
    ∃ order, order.Perm app.index.xorbs.keys ∧
      a = .gc (garbage app.index order).length ∧ ∃ ios : List Io,
      ios.length = (garbage app.index order).length ∧ (∀ io ∈ ios, ∃ c, P c ∧ c.io = io) ∧
      app' = { app with
        blob := deleteAll store app.blob ((garbage app.index order).zip ios)
        index := sweep app.index (garbage app.index order) } := by
  obtain ⟨c, p, _, hp, h⟩ := completes_next rfl h
  simp only [advance] at hp
  split at hp
  · rename_i hall
    obtain ⟨_, h⟩ := completes_lock (Option.some.inj hp) h
    obtain ⟨ha, hrest⟩ := completes_gcNext h
    exact ⟨c.order, hall, by rw [ha, Nat.zero_add]; rfl, hrest⟩
  · cases hp

theorem gcNext_completes {swept : ℕ} {todo : List Hash} {ios : List Io}
    (clean : app.poisoned = false) (hlen : ios.length = todo.length)
    (hP : ∀ io ∈ .ok :: ios, ∀ order, P ⟨io, order⟩) :
    Completes core store P app (gcNext swept todo) (.gc (swept + todo.length)) { app with
      blob := deleteAll store app.blob (todo.zip ios), index := sweep app.index todo } := by
  induction todo generalizing app swept ios with
  | nil => exact .reply app _
  | cons x todo ih =>
    cases ios with
    | nil => cases hlen
    | cons io ios =>
      have hevict : advance core store {} { app with blob := (store.delete x io app.blob).2 }
          (.gcEvict swept x todo) = some ({ app with
            blob := (store.delete x io app.blob).2, index := evict app.index x },
            gcNext (swept + 1) todo) := by
        simp only [advance, lock, clean, Bool.false_eq_true, ↓reduceIte]
      refine .step ⟨io, []⟩ (hP io (by simp) _) rfl (.step {} (hP .ok (by simp) _) hevict ?_)
      rw [List.length_cons, Nat.add_comm todo.length, ← Nat.add_assoc]
      refine ih clean (Nat.succ.inj hlen) (fun io' hio => hP io' ?_)
      rcases List.mem_cons.mp hio with rfl | hio
      · exact List.mem_cons_self
      · exact List.mem_cons_of_mem _ (List.mem_cons_of_mem _ hio)

theorem gc_completes {order : List Hash} {ios : List Io} (clean : app.poisoned = false)
    (all : order.Perm app.index.xorbs.keys)
    (hlen : ios.length = (garbage app.index order).length)
    (hP : ∀ io ∈ .ok :: ios, ∀ order, P ⟨io, order⟩) :
    Serves core store P app .gc (.gc (garbage app.index order).length) { app with
      blob := deleteAll store app.blob ((garbage app.index order).zip ios)
      index := sweep app.index (garbage app.index order) } := by
  have hmark : advance core store ⟨.ok, order⟩ app .gcMark =
      some (app, gcNext 0 (garbage app.index order)) := by
    simp only [advance, lock, clean, Bool.false_eq_true, ↓reduceIte, all]
    rfl
  refine .step ⟨.ok, order⟩ (hP .ok (by simp) _) hmark ?_
  rw [← Nat.zero_add (garbage app.index order).length]
  exact gcNext_completes clean hlen hP

theorem advance_reads {c : Choice Hash} {g g' : Handler Hash} (hg : g.Reads)
    (h : advance core store c app g = some (app', g')) :
    g'.Reads ∧ app'.index = app.index ∧ app'.blob = app.blob := by
  have heff := advance_effect core store h
  cases heff with
  | asked | sent => exact ⟨trivial, rfl, rfl⟩
  | poisoned => exact ⟨trivial, rfl, rfl⟩
  | quiet _ _ metrics live still => exact ⟨quiet_reads still, rfl, rfl⟩
  | _ => exact absurd hg id

theorem reaches_reads {g g' : Handler Hash} (hg : g.Reads)
    (h : Reaches core store P app g app' g') :
    g'.Reads ∧ app'.index = app.index ∧ app'.blob = app.blob := by
  induction h with
  | here => exact ⟨hg, rfl, rfl⟩
  | step c allowed move rest ih =>
    obtain ⟨hr, hi, hb⟩ := advance_reads hg move
    obtain ⟨hr', hi', hb'⟩ := ih hr
    exact ⟨hr', hi'.trans hi, hb'.trans hb⟩

theorem completes_reads {g : Handler Hash} (hg : g.Reads)
    (h : Completes core store P app g a app') :
    app'.index = app.index ∧ app'.blob = app.blob := by
  induction h with
  | reply => exact ⟨rfl, rfl⟩
  | step c allowed move rest ih =>
    obtain ⟨hr, hi, hb⟩ := advance_reads hg move
    obtain ⟨hi', hb'⟩ := ih hr
    exact ⟨hi'.trans hi, hb'.trans hb⟩

theorem completes_poisoned {g : Handler Hash} (h : Completes core store P app g a app') :
    app'.poisoned = app.poisoned := by
  induction h with
  | reply => rfl
  | step c allowed move rest ih =>
    have heff := advance_effect core store move
    cases heff with
    | poisoned => exact absurd rest (completes_stuck rfl)
    | _ => exact ih

theorem reaches_poisoned {g g' : Handler Hash} (h : Reaches core store P app g app' g')
    (mid : g'.midway = true) : app'.poisoned = app.poisoned := by
  induction h with
  | here => rfl
  | step c allowed move rest ih =>
    have heff := advance_effect core store move
    cases heff with
    | poisoned => exact absurd mid (Bool.eq_false_iff.mp (reaches_panicked rest))
    | _ => exact ih mid

theorem runAlone_completes {n : ℕ} {g : Handler Hash}
    (hP : ∀ order, P { order := order }) (h : runAlone core store n app g = some (app', a)) :
    Completes core store P app g a app' := by
  induction n generalizing app g with
  | zero =>
    unfold runAlone at h
    split at h
    · cases h
      exact .reply _ _
    · cases h
    · rename_i he _
      cases he
  | succ n ih =>
    unfold runAlone at h
    split at h
    · cases h
      exact .reply _ _
    · rename_i he _
      cases he
    · rename_i n' he _
      cases he
      obtain ⟨⟨app1, g1⟩, hm, h⟩ := Option.bind_eq_some_iff.mp h
      exact .step _ (hP _) hm (ih h)

/-- Requests that are served one after another, with no failing file operation. -/
def serveAll (core : XetCore Hash) (store : BlobStore Hash β) (n : ℕ) :
    AppState Hash β → List Request → Option (AppState Hash β × List Answer) :=
  Run.trace (fun app r => runAlone core store n app (start core r))

theorem serveAll_runs {C : AppState Hash β → Request → Prop} {n : ℕ} {rs : List Request}
    {answers : List Answer} (hP : ∀ order, P { order := order })
    (hg : Run.Guarded (fun app r => (runAlone core store n app (start core r)).map Prod.fst) C
      app rs) (h : serveAll core store n app rs = some (app', answers)) :
    Run.Runs (fun app r a app' => C app r ∧ Serves core store P app r a app') app rs answers
      app' :=
  Run.trace_runs (fun _ _ _ _ hc hs => ⟨hc, runAlone_completes hP hs⟩) hg h

theorem serveAll_serves {n : ℕ} {rs : List Request} {answers : List Answer}
    (hP : ∀ order, P { order := order }) (h : serveAll core store n app rs = some (app', answers)) :
    Run.Runs (Serves core store P) app rs answers app' := by
  have hg : Run.Guarded (fun app r => (runAlone core store n app (start core r)).map Prod.fst)
      (fun _ _ => True) app rs := Run.guarded_of_forall (fun _ _ _ => trivial) app
  exact (serveAll_runs hP hg h).mono (fun _ _ _ _ hs => hs.2)

variable (core store P app) in
inductive Outcome : Request → Answer → AppState Hash β → Prop
  | put (ns hashHex : String) (body : Bytes) (hash : Hash) (info : XorbObjectInfoV1 Hash)
      (a : Answer) (app' : AppState Hash β) (accepted : gate core hashHex body = .ok (hash, info))
      (done : Completes core store P app (.putStore hash info (PutCall.start hash body)) a app') :
      Outcome (.putXorb ns hashHex body) a app'
  | registered (req : RegisterFile) (fh : Hash) (result : ℕ) (idx : Index Hash)
      (done : registerFile core app.index fh req = .ok (result, idx)) :
      Outcome (.registerFile req) (.registerFile (.ok result)) { app with index := idx }
  | collected (a : Answer) (app' : AppState Hash β)
      (done : Completes core store P app .gcMark a app') : Outcome .gc a app'
  | unchanged (r : Request) (a : Answer) (app' : AppState Hash β) (other : r ≠ .gc)
      (index : app'.index = app.index) (blob : app'.blob = app.blob) : Outcome r a app'

theorem serves_outcome {r : Request} (h : Serves core store P app r a app') :
    Outcome core store P app r a app' := by
  by_cases hgc : r = .gc
  · subst hgc
    exact .collected a app' h
  have hreads : ∀ g : Handler Hash, g.Reads → Completes core store P app g a app' →
      Outcome core store P app r a app' := by
    intro g hg h
    obtain ⟨hi, hb⟩ := completes_reads hg h
    exact .unchanged r a app' hgc hi hb
  have hs := start_started core r
  unfold Serves at h
  generalize start core r = g at hs h
  cases hs with
  | putXorb ns hashHex body hash info accepted =>
    exact .put ns hashHex body hash info a app' accepted h
  | registerFile req fh read =>
    obtain ⟨_, _, rfl, rfl⟩ | ⟨result, idx, hr, rfl, rfl⟩ := completes_register h
    · exact .unchanged _ _ _ hgc rfl rfl
    · exact .registered req fh result idx hr
  | gc => exact absurd rfl hgc
  | reconstruct hex fh read => exact hreads (.reconLock fh) trivial h
  | globalDedup ns hex ch read => exact hreads (.dedupLock ch) trivial h
  | quiet _ _ still => exact hreads _ (quiet_reads still) h

inductive IndexChange (core : XetCore Hash) (idx : Index Hash) : Request → Index Hash → Prop
  | same (r : Request) (other : r ≠ .gc) : IndexChange core idx r idx
  | uploaded (r : Request) (hash : Hash) (info : XorbObjectInfoV1 Hash) (idx' : Index Hash)
      (other : r ≠ .gc) (commits : core.Commits hash info)
      (done : indexXorb idx hash info = some idx') : IndexChange core idx r idx'
  | registered (r : Request) (fh : Hash) (req : RegisterFile) (result : ℕ) (idx' : Index Hash)
      (other : r ≠ .gc) (done : registerFile core idx fh req = .ok (result, idx')) :
      IndexChange core idx r idx'
  | collected (order : List Hash) (all : order.Perm idx.xorbs.keys) :
      IndexChange core idx .gc (sweep idx (garbage idx order))

theorem serves_index {r : Request} (h : Serves core store P app r a app') :
    IndexChange core app.index r app'.index := by
  cases serves_outcome h with
  | put ns hashHex body hash info _ _ accepted done =>
    obtain ⟨_, hi⟩ | ⟨_, hi⟩ := completes_putStore done
    · rw [hi]
      exact .same _ (by simp)
    · exact .uploaded _ hash info _ (by simp) ⟨body, (gate_commits accepted).2⟩ hi
  | registered req fh result idx done => exact .registered _ fh req result idx (by simp) done
  | collected _ _ done =>
    obtain ⟨order, hall, _, ios, _, _, rfl⟩ := completes_gc done
    exact .collected order hall
  | unchanged _ _ _ other index =>
    rw [index]
    exact .same _ other

theorem serves_catalog {r : Request} (hr : ∀ req, r ≠ .registerFile req)
    (h : Serves core store P app r a app') : app'.index.catalog = app.index.catalog := by
  cases serves_outcome h with
  | put ns hashHex body hash info _ _ accepted done =>
    obtain ⟨_, hi⟩ | ⟨_, hi⟩ := completes_putStore done
    · rw [hi]
    · exact (indexXorb_spec hi).2.2.1
  | registered req => exact absurd rfl (hr req)
  | collected _ _ done =>
    obtain ⟨order, _, _, ios, _, _, rfl⟩ := completes_gc done
    exact sweep_catalog _ _
  | unchanged _ _ _ other index => rw [index]

section
variable {publicBase : String} {app app' : AppState Hash (LocalFs Hash)} {hash : Hash}
  {info : XorbObjectInfoV1 Hash}

variable (publicBase) in
theorem respond_collected (hp : app'.poisoned = app.poisoned)
    (hc : ∀ fh, collect app'.index fh = collect app.index fh) (hex : String) :
    respond core (localFs core publicBase) app' (.reconstruct hex) =
      (respond core (localFs core publicBase) app (.reconstruct hex)).map
        (fun p => (app', p.2)) := by
  simp only [respond, start]
  cases core.fromHex hex with
  | none => rfl
  | some fh =>
    simp only [runAlone, advance, lock, hp, hc fh, Option.bind_some]
    cases app.poisoned with
    | true => rfl
    | false => rcases collect app.index fh with _ | (status | collected) <;> rfl

theorem completes_putStep {call : PutCall Hash}
    (h : Completes core (localFs core publicBase) Choice.Works app (.putStore hash info call) a
      app') :
    Completes core (localFs core publicBase) Choice.Works
      { app with blob := (LocalFs.putStep call .ok app.blob).2 }
      (afterPut hash info call.bytes.length (LocalFs.putStep call .ok app.blob).1) a app' := by
  refine (completes_iff (P := Choice.Works) (c := {}) rfl rfl ?_).mp h
  intro c hc
  have hio : c.io = .ok := hc
  simp only [advance, localFs, hio]

/-- An upload alone, with no failing file operation: the blob was there and
nothing changes, or it is stored and indexed. -/
theorem completes_put {bytes : Bytes} (h : Completes core (localFs core publicBase) Choice.Works app
      (.putStore hash info (PutCall.start hash bytes)) a app') :
    (a = .putXorb (.ok false) ∧ app' = app ∧ hash ∈ app.blob.files) ∨
    (a = .putXorb (.ok true) ∧ hash ∉ app.blob.files ∧
      app'.blob.files = app.blob.files.insert hash bytes ∧
      indexXorb app.index hash info = some app'.index) := by
  have h := completes_putStep h
  by_cases hm : hash ∈ app.blob.files
  · have hstep : LocalFs.putStep (PutCall.start hash bytes) .ok app.blob =
        (.done (.ok false), app.blob) := if_pos hm
    rw [hstep] at h
    obtain ⟨rfl, rfl⟩ := completes_reply h
    exact .inl ⟨rfl, rfl, hm⟩
  · have hstep : LocalFs.putStep (PutCall.start hash bytes) .ok app.blob =
        ((PutCall.start hash bytes).at .createDir, app.blob) := if_neg hm
    rw [hstep] at h
    have h := completes_putStep (completes_putStep (completes_putStep h))
    simp only [LocalFs.putStep, AList.lookup_insert] at h
    obtain ⟨idx, metrics, hi, rfl, rfl⟩ := completes_putIndex h
    exact .inr ⟨rfl, hm, rfl, hi⟩

/-- An upload that is dropped midway leaves the index alone. It is still at its `put`, and
the stored files are as they were, or it has put its blob in place. -/
theorem reaches_put {call : PutCall Hash} {g : Handler Hash}
    (h : Reaches core (localFs core publicBase) P app (.putStore hash info call) app' g)
    (mid : g.midway = true) : app'.index = app.index ∧ app'.poisoned = app.poisoned ∧
      ((∃ call', g = .putStore hash info call') ∧ app'.blob.files = app.blob.files ∨
        ∃ len b, g = .putIndex hash info len ∧
          app'.blob.files = app.blob.files.insert call.key b) := by
  generalize hg : Handler.putStore hash info call = g0 at h
  induction h generalizing call with
  | here => exact ⟨rfl, rfl, .inl ⟨⟨call, hg.symm⟩, rfl⟩⟩
  | @step app0 _ _ _ _ _ c allowed move rest ih =>
    subst hg
    simp only [advance, Option.some.injEq, Prod.mk.injEq] at move
    obtain ⟨rfl, rfl⟩ := move
    obtain ⟨hfiles, hne⟩ | ⟨b, _, _, _, hdone, hfiles⟩ := LocalFs.putStep_cases call c.io app0.blob
    · generalize hout : ((localFs core publicBase).putStep call c.io app0.blob).1 = out at rest ih
      rcases out with call' | (e | inserted)
      · obtain ⟨hi, hp, hput⟩ := ih mid rfl
        obtain ⟨hkey, _⟩ := LocalFs.putStep_pending hout
        refine ⟨hi, hp, ?_⟩
        rw [← hkey, ← hfiles]
        exact hput
      · exact absurd mid (Bool.eq_false_iff.mp (reaches_reply rest))
      · cases inserted with
        | false => exact absurd mid (Bool.eq_false_iff.mp (reaches_reply rest))
        | true => exact absurd hout hne
    · change ((localFs core publicBase).putStep call c.io app0.blob).1 = _ at hdone
      rw [hdone] at rest
      obtain ⟨rfl, rfl⟩ := reaches_putIndex rest mid
      exact ⟨rfl, rfl, .inr ⟨_, b, rfl, hfiles⟩⟩

/-- An upload none of whose file operations fails puts its blob in place only where there
was none. -/
theorem reaches_fresh {bytes : Bytes} {len : ℕ}
    (h : Reaches core (localFs core publicBase) Choice.Works app
      (.putStore hash info (PutCall.start hash bytes)) app' (.putIndex hash info len)) :
    hash ∉ app.blob.files := by
  intro hm
  cases h with
  | step c allowed move rest =>
    have hio : c.io = .ok := allowed
    have hstep : LocalFs.putStep (PutCall.start hash bytes) .ok app.blob =
        (.done (.ok false), app.blob) := if_pos hm
    simp only [advance, localFs, hio, hstep, Option.some.injEq, Prod.mk.injEq] at move
    obtain ⟨_, rfl⟩ := move
    exact absurd (reaches_reply rest) (by simp [Handler.midway])

theorem deleteAll_keeps {xs : List Hash} {ios : List Io} {fs : LocalFs Hash}
    (hlen : ios.length = xs.length) {k : Hash} (hk : k ∉ xs) :
    (deleteAll (localFs core publicBase) fs (xs.zip ios)).files.lookup k = fs.files.lookup k := by
  induction xs generalizing ios fs with
  | nil => rfl
  | cons x xs ih =>
    cases ios with
    | nil => cases hlen
    | cons io ios =>
      rw [List.mem_cons, not_or] at hk
      exact (ih (Nat.succ.inj hlen) hk.2).trans (LocalFs.delete_lookup hk.1)

theorem deleteAll_ok {xs : List Hash} {ios : List Io} {fs : LocalFs Hash}
    (hlen : ios.length = xs.length) (hok : ∀ io ∈ ios, io = .ok) (k : Hash) :
    (deleteAll (localFs core publicBase) fs (xs.zip ios)).files.lookup k =
      if k ∈ xs then none else fs.files.lookup k := by
  induction xs generalizing ios fs with
  | nil => rfl
  | cons x xs ih =>
    cases ios with
    | nil => cases hlen
    | cons io ios =>
      obtain rfl := hok io List.mem_cons_self
      refine (ih (Nat.succ.inj hlen) (fun io h => hok io (List.mem_cons_of_mem _ h))).trans ?_
      by_cases hk : k ∈ xs
      · rw [if_pos hk, if_pos (List.mem_cons_of_mem _ hk)]
      · rw [if_neg hk]
        refine (Table.lookup_erase_if fs.files x k).trans ?_
        simp [hk]

theorem serves_gc (h : Serves core (localFs core publicBase) Choice.Works app .gc a app') :
    ∃ order, order.Perm app.index.xorbs.keys ∧
      app'.index = sweep app.index (garbage app.index order) ∧
      ∀ k, app'.blob.files.lookup k =
        if k ∈ garbage app.index order then none else app.blob.files.lookup k := by
  obtain ⟨order, all, _, ios, hlen, hios, rfl⟩ := completes_gc h
  refine ⟨order, all, rfl, deleteAll_ok hlen ?_⟩
  intro io hm
  obtain ⟨c, hc, rfl⟩ := hios io hm
  exact hc

end

end Dejaveph.Server
