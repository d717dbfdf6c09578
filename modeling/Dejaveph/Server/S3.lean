import Dejaveph.Server.System

namespace Dejaveph.Server
open Lib

/-- Why a `head_object` has failed. -/
structure HeadError where
  notFound : Bool
  text : String

/-- What comes of a GET: no response, a body that breaks off, or a body. -/
inductive ObjectOut where
  | noResponse
  | brokenOff
  | body (bytes : Bytes)

/-- An object store in the state `σ` as its client library presents it. Each call meets
what its `Io` says, and tells whether it has succeeded. A GET is one of an inclusive range
of bytes. -/
structure ObjectStore (σ : Type) where
  headObject : String → Io → σ → Except HeadError (Option ℤ)
  putObject : String → Bytes → Io → σ → Bool × σ
  getObject : String → ℕ → ℕ → Io → σ → ObjectOut
  deleteObject : String → Io → σ → Bool × σ
  presigned : String → Except String String
  /-- A GET of a URL by anyone, with the body of the response whatever its status. -/
  getUrl : String → ℕ → ℕ → σ → ObjectOut

/-- What an object store is documented to do: a `put_object` stores its whole object and
nothing else, whatever the caller hears, or fails and stores nothing; every key can be
signed, and while its URL is valid a GET of a range of the object has that range. -/
structure ObjectStore.Documented {σ : Type} (client : ObjectStore σ)
    (objects : σ → String → Option Bytes) : Prop where
  put : ∀ key body io s,
    (∀ k, objects (client.putObject key body io s).2 k =
      if k = key then some body else objects s k) ∨
    (client.putObject key body io s).1 = false ∧
      ∀ k, objects (client.putObject key body io s).2 k = objects s k
  signed : ∀ key, ∃ url, client.presigned key = .ok url ∧
    ∀ s data start stop, objects s key = some data → start ≤ stop → stop < data.length →
      client.getUrl url start stop s = .body (Pieces.slice data start (stop + 1))

namespace S3
variable {Hash σ : Type} (core : XetCore Hash) (client : ObjectStore σ)

/-- Content-addressed, fanned-out object key. -/
def keyFor (x : Hash) : String :=
  let h := (core.hex x).toList
  String.intercalate "/"
    ["xorbs", String.ofList (h.take 2), String.ofList ((h.drop 2).take 2), core.hex x]

/-- A `put` is a `head_object`, and unless that succeeds a `put_object`. -/
def putStep (call : PutCall Hash) (io : Io) (s : σ) : PutOut Hash × σ :=
  match call.stage with
  | .tryExists =>
    match client.headObject (keyFor core call.key) io s with
    | .ok _ => (.done (.ok false), s)
    | .error _ => (call.at .write, s)
  | _ =>
    match client.putObject (keyFor core call.key) call.bytes io s with
    | (true, s) => (.done (.ok true), s)
    | (false, s) => (.done (.error "s3 put_object"), s)

def head (x : Hash) (io : Io) (s : σ) : Except String (Option ℕ) :=
  match client.headObject (keyFor core x) io s with
  | .ok len => .ok (some (len.getD 0).toNat)
  | .error e => if e.notFound then .ok none else .error ("s3 head_object: " ++ e.text)

def getRange (x : Hash) (start stop : ℕ) (io : Io) (s : σ) : Option (Except String Bytes) :=
  match client.getObject (keyFor core x) start stop io s with
  | .noResponse => some (.error "s3 get_object")
  | .brokenOff => some (.error "s3 collect body")
  | .body data => some (.ok data)

def delete (x : Hash) (io : Io) (s : σ) : Except String Unit × σ :=
  match client.deleteObject (keyFor core x) io s with
  | (true, s) => (.ok (), s)
  | (false, s) => (.error "s3 delete_object", s)

end S3

/-- The S3 backend. -/
def s3 {Hash σ : Type} (core : XetCore Hash) (client : ObjectStore σ) : BlobStore Hash σ where
  putStep := S3.putStep core client
  head := S3.head core client
  getRange := S3.getRange core client
  presignGet := fun x => client.presigned (S3.keyFor core x)
  delete := S3.delete core client

namespace S3
variable {Hash σ : Type} {core : XetCore Hash} {client : ObjectStore σ}

/-- Different xorbs have different keys. -/
theorem keyFor_injective (hx : core.HexLaws) : Function.Injective (keyFor core) := by
  have hname : ∀ (x : Hash) (s : List Char), s ⊆ (core.hex x).toList → '/' ∉ s := by
    intro x s hs hm
    have := hx.alphanum x _ (hs hm)
    simp at this
  have hparts : ∀ x : Hash, ∀ s ∈ ["xorbs", String.ofList ((core.hex x).toList.take 2),
      String.ofList (((core.hex x).toList.drop 2).take 2), core.hex x], '/' ∉ s.toList := by
    intro x s hs
    rcases List.mem_cons.mp hs with rfl | hs
    · simp
    rcases List.mem_cons.mp hs with rfl | hs
    · rw [String.toList_ofList]
      exact hname x _ (List.take_subset _ _)
    rcases List.mem_cons.mp hs with rfl | hs
    · rw [String.toList_ofList]
      exact hname x _ (fun _ h => List.mem_of_mem_drop (List.mem_of_mem_take h))
    · obtain rfl := List.mem_singleton.mp hs
      exact hname x _ (List.Subset.refl _)
  intro x y h
  have hlist := Text.intercalate_injective (by simp) (by simp) (hparts x) (hparts y) h
  simp only [List.cons.injEq, and_true] at hlist
  exact hx.hex_injective hlist.2.2.2

/-- The blobs are the objects of a documented store: a call of a `put` leaves them alone, or
stores the whole body. -/
theorem putStep_cases [DecidableEq Hash] (hx : core.HexLaws)
    {objects : σ → String → Option Bytes} (doc : client.Documented objects) (call : PutCall Hash)
    (io : Io) (s : σ) :
    ((∀ x, objects (putStep core client call io s).2 (keyFor core x) =
        objects s (keyFor core x)) ∧ (putStep core client call io s).1 ≠ .done (.ok true)) ∨
      ∀ x, objects (putStep core client call io s).2 (keyFor core x) =
        if x = call.key then some call.bytes else objects s (keyFor core x) := by
  unfold putStep
  split
  · split
    · exact .inl ⟨fun _ => rfl, by simp⟩
    · exact .inl ⟨fun _ => rfl, by simp [PutCall.at]⟩
  · have hput := doc.put (keyFor core call.key) call.bytes io s
    cases hout : client.putObject (keyFor core call.key) call.bytes io s with
    | mk done s' =>
      rw [hout] at hput
      obtain hstored | ⟨hfailed, hsame⟩ := hput
      · refine .inr fun x => ?_
        rw [← if_congr (keyFor_injective hx).eq_iff rfl rfl, ← hstored]
        cases done <;> rfl
      · obtain rfl : done = false := hfailed
        exact .inl ⟨fun x => hsame _, by simp⟩

theorem putStep_pending {call call' : PutCall Hash} {io : Io} {s : σ}
    (h : (putStep core client call io s).1 = .pending call') :
    call'.key = call.key ∧ call'.bytes = call.bytes := by
  revert h
  unfold putStep PutCall.at
  repeat' split
  all_goals
    intro h
    cases h
  exact ⟨rfl, rfl⟩

end S3

end Dejaveph.Server
