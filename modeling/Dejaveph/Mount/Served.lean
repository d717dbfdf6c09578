import Dejaveph.Agent.Alone
import Dejaveph.Mount.Steps

namespace Dejaveph.Mount
open Lib Server Agent

section
variable {Hash β : Type} [DecidableEq Hash] (core : XetCore Hash) (store : BlobStore Hash β)

/-- The catalog's file hash for a path within a volume, whose name comes through the path
of the URL unchanged. -/
def catalogFileHash (index : Index Hash) (volume path : String) : Option String :=
  ((listEntries core index volume).find? (fun e => e.path = path)).map EntryOut.fileHash

/-- The agent ingests as `ingestBytes` does, with the server to itself. -/
def Follows (agent : XetAgent (AppState Hash β)) : Prop :=
  ∀ volume dest b app, IngestBytes core store ⟨volume, dest, b⟩ app
    (agent.ingestBytes volume dest b app).1 (agent.ingestBytes volume dest b app).2

/-- The result of a call whose first request gets no response. -/
def firstLost (b : Bytes) : Except String String :=
  .error (if (core.nextBlock b).isEmpty then "register file" else "chunk dedup query")

/-- An agent that reaches the server until its call is done, when that takes at
most `n` steps. -/
def agentAlone (publicBase : String) (n : ℕ) : XetAgent (AppState Hash (LocalFs Hash)) where
  ingestBytes volume dest b app :=
    (ingestAlone core (localFs core publicBase) n ⟨volume, dest, b⟩ n []
      (.query [] (core.nextBlock b)) app).getD (firstLost core b, app)
  reconstruct fh app := Agent.reconstruct core publicBase app fh
  catalog key app := catalogFileHash core app.index key.1 key.2

variable {core store}

theorem catalogFileHash_eq (core : XetCore Hash) (index : Index Hash) (volume path : String) :
    catalogFileHash core index volume path =
      (index.catalog.lookup (volume, path)).map core.hex := by
  unfold catalogFileHash
  cases hl : index.catalog.lookup (volume, path) with
  | none =>
    rw [Option.map_none, Option.map_eq_none_iff, List.find?_eq_none]
    intro e he hp
    obtain ⟨fh, hfh, _⟩ := (mem_listEntries core index volume e).mp he
    rw [of_decide_eq_true hp, hl] at hfh
    cases hfh
  | some fh =>
    have hsome : ((listEntries core index volume).find? (fun e => e.path = path)).isSome := by
      rw [List.find?_isSome]
      exact ⟨_, (mem_listEntries core index volume ⟨path, core.hex fh, _⟩).mpr ⟨fh, hl, rfl⟩,
        decide_eq_true rfl⟩
    obtain ⟨e, he⟩ := Option.isSome_iff_exists.mp hsome
    obtain ⟨fh', hfh', hentry⟩ :=
      (mem_listEntries core index volume e).mp (List.mem_of_find?_eq_some he)
    have hp : e.path = path := by simpa using List.find?_some he
    rw [hp, hl, Option.some.injEq] at hfh'
    subst hfh'
    rw [he, Option.map_some, Option.map_some, hentry]

theorem ingest_firstLost (job : Job) (app : AppState Hash β) :
    IngestBytes core store job app (firstLost core job.bytes) app := by
  unfold IngestBytes firstLost
  cases core.nextBlock job.bytes with
  | nil => exact ⟨none, .computed rfl (.computed rfl (.lost rfl (.inl rfl) (.finished _ _)))⟩
  | cons c cs => exact ⟨none, .lost rfl (.inl rfl) (.finished _ _)⟩

theorem agentAlone_follows (publicBase : String) (n : ℕ) :
    Follows core (localFs core publicBase) (agentAlone core publicBase n) := by
  intro volume dest b app
  simp only [agentAlone]
  cases hi : ingestAlone core (localFs core publicBase) n ⟨volume, dest, b⟩ n []
      (.query [] (core.nextBlock b)) app with
  | none => exact ingest_firstLost ⟨volume, dest, b⟩ app
  | some r => exact ⟨none, ingestAlone_ingests hi⟩

end

section
variable {σ : Type} {agent : XetAgent σ} {m m' : Mounted σ}

/-- The mount serves a request, or other clients change the server. -/
def sharedNext (agent : XetAgent σ) (m : Mounted σ) : Request ⊕ σ → Option (Mounted σ)
  | .inl r => next agent m r
  | .inr server => some { m with server }

open Xetfs in

theorem Xetfs.flushIfDirty_frame {fs fs' : Xetfs} {server server' : σ} {ino : ℕ}
    (h : fs.flushIfDirty agent server ino = some (fs', server')) :
    fs'.volume = fs.volume ∧ fs'.next = fs.next ∧ SameShape fs.nodes fs'.nodes := by
  obtain ⟨rfl, _, _⟩ | ⟨st, path, result, _, _, _, _, rfl⟩ := flushIfDirty_cases h
  · exact ⟨rfl, rfl, fun _ => rfl⟩
  · cases result with
    | ok fh => exact ⟨modifyNode_volume _, modifyNode_next _, modifyNode_shape (fun _ => rfl)⟩
    | error e => exact ⟨rfl, rfl, fun _ => rfl⟩

/-- What a request leaves of the tree: every node but its content. The creation of a
name that is not there adds a file. -/
theorem serve_shape {r : Request} {reply : Reply} (h : serve agent m r = some (m', reply)) :
    m'.fs.volume = m.fs.volume ∧
      (m'.fs.next = m.fs.next ∧ SameShape m.fs.nodes m'.fs.nodes ∨
        ∃ parent name, r = .create parent name ∧ m.fs.childNamed parent name = none ∧
          Xetfs.Creates m.fs m'.fs parent name) := by
  cases r with
  | create parent name =>
    obtain ⟨⟨fs', reply'⟩, hc, he⟩ := Option.map_eq_some_iff.mp h
    cases he
    cases hn : m.fs.childNamed parent name with
    | some i =>
      obtain ⟨a, _, _, rfl⟩ := Xetfs.create_present hn hc
      exact ⟨rfl, .inl ⟨rfl, fun _ => rfl⟩⟩
    | none =>
      obtain ⟨a, _, _, hcr⟩ := Xetfs.create_absent hn hc
      exact ⟨hcr.volume, .inr ⟨parent, name, rfl, hn, hcr⟩⟩
  | write ino fh offset data =>
    cases h
    have hst : Xetfs.Stages m.fs (m.fs.write agent m.server ino offset data).1 ino _ :=
      Xetfs.write_stages offset data
    exact ⟨hst.volume, .inl ⟨hst.next, Xetfs.resized_shape⟩⟩
  | setattr ino size =>
    cases h
    cases size with
    | none => exact ⟨rfl, .inl ⟨rfl, fun _ => rfl⟩⟩
    | some size =>
      have hst : Xetfs.Stages m.fs (m.fs.setattr agent m.server ino (some size)).1 ino _ :=
        Xetfs.setattr_stages size
      exact ⟨hst.volume, .inl ⟨hst.next, Xetfs.resized_shape⟩⟩
  | fsync ino fh | flush ino fh | release ino fh =>
    obtain ⟨⟨fs', server'⟩, hf, he⟩ := Option.map_eq_some_iff.mp h
    cases he
    obtain ⟨hv, hn, hs⟩ := Xetfs.flushIfDirty_frame hf
    exact ⟨hv, .inl ⟨hn, hs⟩⟩
  | read ino fh offset size =>
    cases h
    obtain ⟨cache, hc⟩ : ∃ cache, (m.fs.read agent m.server ino offset size).1 =
      { m.fs with cache := cache } := Xetfs.read_frame offset size
    rw [hc]
    exact ⟨rfl, .inl ⟨rfl, fun _ => rfl⟩⟩
  | readdir ino fh offset room =>
    obtain ⟨reply', _, he⟩ := Option.map_eq_some_iff.mp h
    cases he
    exact ⟨rfl, .inl ⟨rfl, fun _ => rfl⟩⟩
  | _ =>
    cases h
    exact ⟨rfl, .inl ⟨rfl, fun _ => rfl⟩⟩

theorem serve_nodes {r : Request} {reply : Reply} (h : serve agent m r = some (m', reply)) :
    m'.fs.volume = m.fs.volume ∧
      (m'.fs.next = m.fs.next ∧ SameOutline m.fs.nodes m'.fs.nodes ∨
        ∃ parent name, Xetfs.Creates m.fs m'.fs parent name) := by
  obtain ⟨hv, ⟨hn, hs⟩ | ⟨parent, name, _, _, hc⟩⟩ := serve_shape h
  · exact ⟨hv, .inl ⟨hn, hs.outline⟩⟩
  · exact ⟨hv, .inr ⟨parent, name, hc⟩⟩

end

end Dejaveph.Mount
