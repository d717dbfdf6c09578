import Dejaveph.Mount.Inodes
import Dejaveph.Mount.Shelf

namespace Dejaveph.Proofs.ReaddirPages
open Lib Server Mount

/-- An entry as the kernel accepts it: inode, offset, kind and name. -/
abbrev Entry := ℕ × ℕ × Kind × String

/-- What one entry shows, of an inode that may not be there. -/
abbrev Row := ℕ × ℕ × Option (Kind × String)

def seen (e : Entry) : Row := (e.1, e.2.1, some e.2.2)

/-- A directory, its parent and then its children in the order of insertion, numbered
from 1. -/
def listing (nodes : Table ℕ Node) (d : ℕ) (n : Node) : List Row :=
  (((d, some (.dir, ".")) :: (n.parent, some (.dir, "..")) ::
    n.children.map (fun c => (c, (nodes.lookup c).map (fun m => (m.kind, m.name))))).zipIdx).map
      (fun p => (p.1.1, p.2 + 1, p.1.2))

/-- The offset of the entry accepted last, 0 at first. -/
def resumeAt (accepted : List Entry) : ℤ := ((accepted.getLast?.map (fun e => e.2.1)).getD 0 : ℕ)

/-- The mount, and the entries that an enumeration has accepted. -/
structure Enumeration (σ : Type) where
  mount : Mounted σ
  accepted : List Entry := []

inductive Turn where
  /-- The next call, with room for so many entries. -/
  | page (fh room : ℕ)
  /-- Another request in between. -/
  | request (r : Mount.Request)

def Turn.isPage : Turn → Bool
  | .page .. => true
  | .request _ => false

section
variable {σ : Type} (agent : XetAgent σ) (d : ℕ)

def turn (s : Enumeration σ) : Turn → Option (Enumeration σ)
  | .page fh room =>
    match serve agent s.mount (.readdir d fh (resumeAt s.accepted) room) with
    | some (m, .directory entries) => some ⟨m, s.accepted ++ entries⟩
    | _ => none
  | .request r => (next agent s.mount r).map (fun m => { s with mount := m })

/-- Each reply buffer takes an entry, and files are created in directories. -/
def Allowed (s : Enumeration σ) : Turn → Prop
  | .page _ room => 1 ≤ room
  | .request r => InDirectory s.mount r

instance (s : Enumeration σ) : DecidablePred (Allowed s)
  | .page _ room => inferInstanceAs (Decidable (1 ≤ room))
  | .request r => inferInstanceAs (Decidable (InDirectory s.mount r))

end

section
variable {nodes nodes' : Table ℕ Node} {d : ℕ} {n n' : Node} {accepted : List Entry}

theorem listing_length : (listing nodes d n).length = n.children.length + 2 := by
  simp [listing]

theorem listing_offset {i : ℕ} {row : Row} (h : (listing nodes d n)[i]? = some row) :
    row.2.1 = i + 1 := by
  rw [listing, List.getElem?_map, List.getElem?_zipIdx, Option.map_map,
    Option.map_eq_some_iff] at h
  obtain ⟨_, _, rfl⟩ := h
  simp

theorem resumeAt_prefix (h : accepted.map seen <+: listing nodes d n) :
    resumeAt accepted = accepted.length := by
  unfold resumeAt
  cases hl : accepted.getLast? with
  | none =>
    rw [List.getLast?_eq_none_iff.mp hl]
    rfl
  | some e =>
    have hlen : 0 < accepted.length :=
      List.length_pos_iff.mpr (fun hn => by simp [hn] at hl)
    have hlast : (listing nodes d n)[accepted.length - 1]? = some (seen e) := by
      obtain ⟨rest, hrest⟩ := h
      rw [List.getLast?_eq_getElem?] at hl
      rw [← hrest, List.getElem?_append_left (by rw [List.length_map]; omega), List.getElem?_map,
        hl]
      rfl
    have hoff := listing_offset hlast
    simp only [seen] at hoff
    rw [Option.map_some, Option.getD_some, hoff]
    omega

theorem prefix_continued {α : Type} {done all : List α} (h : done <+: all) (k : ℕ) :
    done ++ (all.drop done.length).take k <+: all := by
  obtain ⟨rest, rfl⟩ := h
  rw [List.drop_left]
  exact (List.prefix_append_right_inj done).mpr (List.take_prefix k rest)

/-- The listing of a directory that has got more children continues the old one. -/
theorem listing_grows (hp : n'.parent = n.parent) (hc : n.children <+: n'.children)
    (hsame : ∀ c ∈ n.children, (nodes'.lookup c).map (fun m => (m.kind, m.name)) =
      (nodes.lookup c).map (fun m => (m.kind, m.name))) :
    listing nodes d n <+: listing nodes' d n' := by
  obtain ⟨more, hmore⟩ := hc
  have hold : n.children.map (fun c => (c, (nodes'.lookup c).map (fun m => (m.kind, m.name)))) =
      n.children.map (fun c => (c, (nodes.lookup c).map (fun m => (m.kind, m.name)))) :=
    List.map_congr_left (fun c hm => by rw [hsame c hm])
  unfold listing
  rw [hp, ← hmore, List.map_append, hold, ← List.cons_append, ← List.cons_append,
    List.zipIdx_append, List.map_append]
  exact List.prefix_append _ _

/-- A call replies the entries from its offset on, as far as there is room. -/
theorem readdir_listing {fs : Xetfs} (hl : Linked fs.nodes) (hn : fs.nodes.lookup d = some n)
    (hk : n.kind = .dir) : ∃ entries : List Entry, entries.map seen = listing fs.nodes d n ∧
      ∀ i room : ℕ, fs.readdir d i room =
        some (.directory ((entries.drop i).take room)) := by
  obtain ⟨cs, hcs, hrows⟩ := hl.children hn
  refine ⟨((d, Kind.dir, ".") :: (n.parent, Kind.dir, "..") :: cs).zipIdx.map
    (fun p => (p.1.1, p.2 + 1, p.1.2)), ?_, ?_⟩
  · unfold listing
    rw [← hrows, List.map_map]
    have hmap : (d, some (Kind.dir, ".")) :: (n.parent, some (Kind.dir, "..")) ::
        cs.map (fun c => (c.1, some c.2)) =
          ((d, Kind.dir, ".") :: (n.parent, Kind.dir, "..") :: cs).map
            (fun c => (c.1, some c.2)) := rfl
    rw [hmap, List.zipIdx_map, List.map_map]
    rfl
  · intro i room
    have hneg : ¬ (i : ℤ) < 0 := by omega
    simp only [Xetfs.readdir, hn, hk, hcs, Option.map_some, hneg, ↓reduceIte, ne_eq,
      not_true_eq_false, Int.toNat_natCast]

end

section
variable {σ : Type} {agent : XetAgent σ} {d : ℕ} {s s' : Enumeration σ}

/-- The accepted entries are the first ones of the directory. -/
structure Enumerated (d : ℕ) (s : Enumeration σ) (n : Node) : Prop where
  inodes : Inodes s.mount.fs.nodes s.mount.fs.next
  node : s.mount.fs.nodes.lookup d = some n
  kind : n.kind = .dir
  accepted : s.accepted.map seen <+: listing s.mount.fs.nodes d n

variable (agent) in
theorem page_step {n : Node} (he : Enumerated d s n) (fh room : ℕ) :
    ∃ entries : List Entry, serve agent s.mount (.readdir d fh (resumeAt s.accepted) room) =
        some (s.mount, .directory entries) ∧
      entries.length = min room (n.children.length + 2 - s.accepted.length) ∧
      Enumerated d ⟨s.mount, s.accepted ++ entries⟩ n := by
  obtain ⟨entries, hseen, hreply⟩ := readdir_listing he.inodes.linked he.node he.kind
  have hlen : entries.length = n.children.length + 2 := by
    rw [← listing_length, ← hseen, List.length_map]
  refine ⟨(entries.drop s.accepted.length).take room, ?_, ?_, he.inodes, he.node, he.kind, ?_⟩
  · simp only [serve, resumeAt_prefix he.accepted, hreply, Option.map_some]
  · rw [List.length_take, List.length_drop, hlen]
  · have hnext := prefix_continued he.accepted room
    rwa [List.length_map, ← hseen, ← List.map_drop, ← List.map_take, ← List.map_append,
      hseen] at hnext

theorem request_step {n : Node} {m : Mounted σ} {r : Mount.Request} {reply : Reply}
    (he : Enumerated d s n) (hr : InDirectory s.mount r)
    (h : serve agent s.mount r = some (m, reply)) :
    ∃ n', Enumerated d ⟨m, s.accepted⟩ n' ∧ n.children <+: n'.children ∧
      listing s.mount.fs.nodes d n <+: listing m.fs.nodes d n' := by
  have hkept := serve_kept he.inodes hr h
  obtain ⟨n', hn', _, hkind, hparent, hpre⟩ := hkept.old d n he.node
  have hgrows : listing s.mount.fs.nodes d n <+: listing m.fs.nodes d n' := by
    apply listing_grows hparent hpre
    intro c hc
    obtain ⟨_, o, ho, _⟩ := he.inodes.linked.child d n he.node c hc
    obtain ⟨o', ho', hname, hkind, _⟩ := hkept.old c o ho
    rw [ho, ho', Option.map_some, Option.map_some, hname, hkind]
  exact ⟨n', ⟨serve_inodes he.inodes hr h, hn', hkind.trans he.kind, he.accepted.trans hgrows⟩,
    hpre, hgrows⟩

/-- A run of turns is not stuck, and each call takes it one entry further, up to the
end of the directory as it was at first. -/
theorem turns_accept {turns : List Turn} {n : Node} (he : Enumerated d s n)
    (hg : Run.Guarded (turn agent d) Allowed s turns) :
    ∃ s' n', Run.exec (turn agent d) s turns = some s' ∧ Enumerated d s' n' ∧
      n.children <+: n'.children ∧
      listing s.mount.fs.nodes d n <+: listing s'.mount.fs.nodes d n' ∧
      min (s.accepted.length + turns.countP Turn.isPage) (n.children.length + 2) ≤
        s'.accepted.length ∧
      ((∀ parent name, .request (.create parent name) ∉ turns) → n'.children = n.children) := by
  induction turns generalizing s n with
  | nil =>
    refine ⟨s, n, rfl, he, List.prefix_refl _, List.prefix_refl _, ?_, fun _ => rfl⟩
    rw [List.countP_nil]
    exact Nat.min_le_left _ _
  | cons t turns ih =>
    cases t with
    | page fh room =>
      have hroom : 1 ≤ room := hg.1
      obtain ⟨entries, hserve, hlen, he'⟩ := page_step agent he fh room
      have hturn : turn agent d s (.page fh room) = some ⟨s.mount, s.accepted ++ entries⟩ := by
        simp only [turn, hserve]
      obtain ⟨s', n', hexec, hs', hpre, hgrows, hcount, hsame⟩ := ih he' (hg.2 _ hturn)
      refine ⟨s', n', Run.exec_cons.mpr ⟨_, hturn, hexec⟩, hs', hpre, hgrows, ?_, ?_⟩
      · rw [List.length_append, hlen] at hcount
        rw [List.countP_cons_of_pos rfl]
        omega
      · intro hno
        exact hsame (fun parent name hm => hno parent name (List.mem_cons_of_mem _ hm))
    | request r =>
      obtain ⟨m, reply, hserve⟩ := serve_total agent he.inodes hg.1
      obtain ⟨n1, he', hpre1, hgrows1⟩ := request_step he hg.1 hserve
      have hturn : turn agent d s (.request r) = some ⟨m, s.accepted⟩ := by
        simp [turn, next, hserve]
      obtain ⟨s', n', hexec, hs', hpre, hgrows, hcount, hsame⟩ := ih he' (hg.2 _ hturn)
      refine ⟨s', n', Run.exec_cons.mpr ⟨_, hturn, hexec⟩, hs', hpre1.trans hpre,
        hgrows1.trans hgrows, ?_, ?_⟩
      · have hle := hpre1.length_le
        rw [List.countP_cons_of_neg (by simp [Turn.isPage])]
        simp only at hcount
        omega
      · intro hno
        rw [hsame (fun parent name hm => hno parent name (List.mem_cons_of_mem _ hm))]
        obtain ⟨_, ⟨_, hs⟩ | ⟨parent, name, rfl, _⟩⟩ := serve_shape hserve
        · obtain ⟨o, ho, hshape⟩ := hs.lookup he'.node
          obtain rfl := Option.some.inj (he.node.symm.trans ho)
          simp only [Node.shape, Node.mk.injEq] at hshape
          exact hshape.2.2.2.1.symm
        · exact absurd List.mem_cons_self (hno parent name)

end

/-- What an enumeration of a directory has accepted is '.', '..' and the children in
the order of insertion, up to some point: past every child that was there at first,
once it has had a call for each, and past all of them, once a reply is empty. -/
theorem readdir_once {σ : Type} (agent : XetAgent σ) (volume : String)
    (entries : List EntryOut) (uid gid : ℕ) (server : σ) :
    ∃ fs, connect volume entries uid gid = some fs ∧
      ∀ requests, Run.Guarded (next agent) InDirectory ⟨fs, server⟩ requests →
        ∃ m replies, Run.trace (serve agent) ⟨fs, server⟩ requests = some (m, replies) ∧
          ∀ d n, m.fs.nodes.lookup d = some n → n.kind = .dir →
            ∀ turns, Run.Guarded (turn agent d) Allowed ⟨m, []⟩ turns →
              ∃ s n', Run.exec (turn agent d) ⟨m, []⟩ turns = some s ∧
                s.mount.fs.nodes.lookup d = some n' ∧ n.children <+: n'.children ∧
                n'.children.Nodup ∧
                s.accepted.map seen <+: listing s.mount.fs.nodes d n' ∧
                (n.children.length + 2 ≤ turns.countP Turn.isPage →
                  listing m.fs.nodes d n <+: s.accepted.map seen) ∧
                (∀ fh room, 1 ≤ room →
                  serve agent s.mount (.readdir d fh (resumeAt s.accepted) room) =
                    some (s.mount, .directory []) →
                  s.accepted.map seen = listing s.mount.fs.nodes d n') ∧
                ((∀ parent name, .request (.create parent name) ∉ turns) →
                  n.children.length + 2 ≤ turns.countP Turn.isPage → ∀ fh room,
                    serve agent s.mount (.readdir d fh (resumeAt s.accepted) room) =
                      some (s.mount, .directory [])) := by
  obtain ⟨fs, hc, hi, _⟩ := connect_inodes volume entries uid gid
  refine ⟨fs, hc, ?_⟩
  intro requests hrequests
  obtain ⟨m, replies, htrace, hm, _⟩ := trace_kept hi hrequests
  refine ⟨m, replies, htrace, ?_⟩
  intro d n hn hk turns hturns
  have hstart : Enumerated d ⟨m, []⟩ n := ⟨hm, hn, hk, List.nil_prefix⟩
  obtain ⟨s, n', hexec, hs, hpre, hgrows, hcount, hsame⟩ := turns_accept hstart hturns
  refine ⟨s, n', hexec, hs.node, hpre, hs.inodes.linked.once d n' hs.node, hs.accepted, ?_, ?_, ?_⟩
  · intro hpages
    refine List.prefix_of_prefix_length_le hgrows hs.accepted ?_
    rw [listing_length, List.length_map]
    simp only [List.length_nil, Nat.zero_add] at hcount
    omega
  · intro fh room hroom hempty
    obtain ⟨page, hpage, hlen, _⟩ := page_step agent hs fh room
    have hnone : page = [] := by
      rw [hempty] at hpage
      simpa using hpage.symm
    rw [hnone, List.length_nil] at hlen
    refine hs.accepted.eq_of_length_le ?_
    rw [listing_length, List.length_map]
    omega
  · intro hno hpages fh room
    obtain ⟨page, hpage, hlen, _⟩ := page_step agent hs fh room
    have hnone : page = [] := by
      rw [hsame hno] at hlen
      simp only [List.length_nil, Nat.zero_add] at hcount
      rw [← List.length_eq_zero_iff]
      omega
    rw [hpage, hnone]

def folder : List EntryOut := [⟨"d/a", "0", 2⟩, ⟨"d/b", "1", 3⟩]

/-- Small pages, with two new files of the directory between them. -/
def pages : List Turn :=
  [.page 0 1, .request (.create 2 "c"), .page 0 2, .page 0 1, .request (.create 2 "d"),
    .page 0 1, .page 0 3, .page 0 2]

theorem readdir_once_pages : ∃ fs, ∃ s : Enumeration Shelf, ∃ n', connect "v" folder 0 0 = some fs ∧
    Run.exec (turn (Shelf.agent (fun _ => true)) 2) ⟨⟨fs, {}⟩, []⟩ pages = some s ∧
    s.accepted.map (fun e => e.2.2.2) = [".", "..", "a", "b", "c", "d"] ∧
    s.accepted.map seen = listing s.mount.fs.nodes 2 n' := by
  obtain ⟨fs, hc, h⟩ := readdir_once (Shelf.agent (fun _ => true)) "v" folder 0 0 {}
  have hstart : (connect "v" folder 0 0).map (fun fs =>
      ((fs.nodes.lookup 2).map Node.kind,
        Run.check (turn (Shelf.agent (fun _ => true)) 2) (fun s t => Allowed s t)
          ⟨⟨fs, {}⟩, []⟩ pages)) = some (some .dir, true) := by decide
  have hend : (connect "v" folder 0 0).map (fun fs =>
      (Run.exec (turn (Shelf.agent (fun _ => true)) 2) ⟨⟨fs, {}⟩, []⟩ pages).map (fun s =>
        (s.accepted.map (fun e => e.2.2.2), (serve (Shelf.agent (fun _ => true)) s.mount
          (.readdir 2 0 (resumeAt s.accepted) 1)).map (fun r => r.2)))) =
      some (some ([".", "..", "a", "b", "c", "d"], some (.directory []))) := by decide
  rw [hc, Option.map_some, Option.some.injEq] at hstart hend
  obtain ⟨hdir, hcheck⟩ := Prod.mk.inj hstart
  obtain ⟨m, replies, htrace, hm⟩ := h [] trivial
  cases htrace
  obtain ⟨n, hn, hkind⟩ := Option.map_eq_some_iff.mp hdir
  have hguard : Run.Guarded (turn (Shelf.agent (fun _ => true)) 2) Allowed ⟨⟨fs, {}⟩, []⟩ pages :=
    Run.guarded_of_test (fun _ _ => of_decide_eq_true) hcheck
  obtain ⟨s, n', hexec, _, _, _, _, _, hempty, _⟩ := hm 2 n hn hkind pages hguard
  rw [hexec, Option.map_some, Option.some.injEq, Prod.mk.injEq] at hend
  obtain ⟨r, hr, hreply⟩ := Option.map_eq_some_iff.mp hend.2
  have hserve : serve (Shelf.agent (fun _ => true)) s.mount
      (.readdir 2 0 (resumeAt s.accepted) 1) = some (s.mount, .directory []) := by
    rw [hr]
    obtain ⟨reply, hreaddir, he⟩ := Option.map_eq_some_iff.mp hr
    rw [← he] at hreply ⊢
    simp only at hreply ⊢
    rw [hreply]
  exact ⟨fs, s, n', hc, hexec, hend.1, hempty 0 1 (Nat.le_refl 1) hserve⟩

end Dejaveph.Proofs.ReaddirPages
