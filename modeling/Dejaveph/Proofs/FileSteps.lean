import Dejaveph.PlainCore
import Dejaveph.Server.Calls
import Dejaveph.Server.Effects

namespace Dejaveph.Proofs.FileSteps
open Lib Server TempFiles Points Effects
variable {Hash : Type}

/-- The operation of a `put` that its next file-system step belongs to. -/
def stageOf : PutPc → PutStage
  | .tryExists => .tryExists
  | .createDir => .createDir
  | .create | .write _ _ => .write
  | .rename => .rename
  | .recheck e => .recheck e
  | .removeTmp => .removeTmp

/-- A call as the operations on whole files have it, where it is `fate` in the end. A read
that has its file open has its answer, which is the one that it will give. -/
inductive Matches (fate : Option (BlobTask Hash)) : BlobTask Hash → StoreTask Hash → Prop
  | put (key : Hash) (bytes : Bytes) (pc : PutPc) :
    Matches fate (.put key bytes pc) (.put ⟨key, bytes, stageOf pc⟩)
  | head (key : Hash) : Matches fate (.head key) (.head key)
  | unread (key : Hash) (start stop : ℕ) :
    Matches fate (.getRange key start stop .open_) (.getRange key start stop)
  | reading (key : Hash) (start stop inode : ℕ) (data : Bytes) (r : BlobResult)
    (fated : ∀ r', fate = some (.returned (.getRange key start stop) r') → r' = r) :
    Matches fate (.getRange key start stop (.read inode data))
      (.returned (.getRange key start stop) r)
  | delete (key : Hash) : Matches fate (.delete key) (.delete key)
  | returned (call : BlobCall Hash) (r : BlobResult) :
    Matches fate (.returned call r) (.returned call r)

/-- A `put` has the temporary file of the key open. -/
def Open (s : BlobState Hash) (key : Hash) : Prop :=
  ∃ i bytes inode n, s.tasks i = some (.put key bytes (.write inode n))

variable [DecidableEq Hash]

/-- The disk and the calls on it as operations on whole files have them. A temporary file
that is being written is yet to be written. -/
structure Merged (fate : Run.Pool (BlobTask Hash)) (s : BlobState Hash)
    (u : StoreState Hash (LocalFs Hash)) : Prop where
  sound : Sound s
  opened : ∀ i key bytes inode n, s.tasks i = some (.put key bytes (.write inode n)) →
    s.disk.tmp.lookup key = some inode
  objects : Holds s.disk u.blob.files
  tmp : ∀ key, ¬ Open s key →
    u.blob.tmp.lookup key = (s.disk.tmp.lookup key).map s.disk.contents
  tasks : ∀ i, Option.Rel (Matches (fate i)) (s.tasks i) (u.tasks i)

section
variable {fate : Run.Pool (BlobTask Hash)} {s : BlobState Hash} {i : ℕ}
  {u : StoreState Hash (LocalFs Hash)} {tasks : Run.Pool (StoreTask Hash)} {blob : LocalFs Hash}
  {d : Disk Hash} {new : BlobTask Hash}

omit [DecidableEq Hash] in
theorem open_moved (hold : ∀ task, s.tasks i = some task → ∀ a, ¬ Owns a task)
    (hnew : ∀ a, ¬ Owns a new) {key : Hash} : Open (moved s i new d) key ↔ Open s key := by
  constructor
  · rintro ⟨j, b, a, n, hj⟩
    rcases Run.update_eq_some.mp hj with ⟨_, rfl⟩ | ⟨_, hj⟩
    · exact absurd rfl (hnew a)
    · exact ⟨j, b, a, n, hj⟩
  · rintro ⟨j, b, a, n, hj⟩
    refine ⟨j, b, a, n, Run.update_eq_some.mpr (.inr ⟨?_, hj⟩)⟩
    rintro rfl
    exact hold _ hj a rfl

/-- A step of a call that has no file open for writing, and opens none. -/
theorem Merged.moves (hr : Merged fate s u) (hsound : Sound (moved s i new d))
    (hold : ∀ task, s.tasks i = some task → ∀ a, ¬ Owns a task) (hnew : ∀ a, ¬ Owns a new)
    (hopen : ∀ key, Open s key → d.tmp.lookup key = s.disk.tmp.lookup key)
    (hobjects : Holds d blob.files)
    (htmp : ∀ key, ¬ Open s key → blob.tmp.lookup key = (d.tmp.lookup key).map d.contents)
    (htasks : ∀ j, Option.Rel (Matches (fate j)) ((moved s i new d).tasks j) (tasks j)) :
    Merged fate (moved s i new d) ⟨blob, tasks⟩ where
  sound := hsound
  opened := by
    intro j key b a n hj
    rcases Run.update_eq_some.mp hj with ⟨_, rfl⟩ | ⟨_, hj⟩
    · exact absurd rfl (hnew a)
    · exact (hopen key ⟨j, b, a, n, hj⟩).trans (hr.opened j key b a n hj)
  objects := hobjects
  tmp := fun key hno => htmp key fun ho => hno ((open_moved hold hnew).mpr ho)
  tasks := htasks

theorem Merged.rests (hr : Merged fate s u) (hsound : Sound (moved s i new s.disk))
    (hold : ∀ task, s.tasks i = some task → ∀ a, ¬ Owns a task) (hnew : ∀ a, ¬ Owns a new)
    (htasks : ∀ j, Option.Rel (Matches (fate j)) ((moved s i new s.disk).tasks j) (tasks j)) :
    Merged fate (moved s i new s.disk) ⟨u.blob, tasks⟩ :=
  hr.moves hsound hold hnew (fun _ _ => rfl) hr.objects hr.tmp htasks

/-- A step of a `put` that writes at most the temporary file of its key, which no other
`put` is using. -/
theorem Merged.writes {key : Hash} {bytes : Bytes} {pc : PutPc} (hr : Merged fate s u)
    (hsound : Sound (moved s i new d)) (hi : s.tasks i = some (.put key bytes pc))
    (hothers : ∀ j task, j ≠ i → s.tasks j = some task → ¬ Writing key task)
    (hbody : ∀ k, d.body k = s.disk.body k)
    (htmps : ∀ k, k ≠ key → d.tmp.lookup k = s.disk.tmp.lookup k)
    (hcontents : ∀ k j, k ≠ key → s.disk.tmp.lookup k = some j →
      d.contents j = s.disk.contents j)
    (hnew : ∀ k b a n, new = .put k b (.write a n) → k = key ∧ d.tmp.lookup key = some a)
    (hfiles : blob.files = u.blob.files)
    (hblob : ∀ k, k ≠ key → blob.tmp.lookup k = u.blob.tmp.lookup k)
    (hkey : ¬ Open (moved s i new d) key →
      blob.tmp.lookup key = (d.tmp.lookup key).map d.contents)
    (htasks : ∀ j, Option.Rel (Matches (fate j)) ((moved s i new d).tasks j) (tasks j)) :
    Merged fate (moved s i new d) ⟨blob, tasks⟩ where
  sound := hsound
  opened := by
    intro j k b a n hj
    rcases Run.update_eq_some.mp hj with ⟨_, hn⟩ | ⟨hne, hj⟩
    · obtain ⟨rfl, ha⟩ := hnew k b a n hn.symm
      exact ha
    · have hk : k ≠ key := fun he => hothers j _ hne hj he
      exact (htmps k hk).trans (hr.opened j k b a n hj)
  objects := by
    intro k
    rw [hfiles, hr.objects k, hbody k]
  tmp := by
    intro k hno
    by_cases hk : k = key
    · subst hk
      exact hkey hno
    · have hclosed : ¬ Open s k := by
        rintro ⟨j, b, a, n, hj⟩
        refine hno ⟨j, b, a, n, Run.update_eq_some.mpr (.inr ⟨?_, hj⟩)⟩
        rintro rfl
        rw [hi] at hj
        cases hj
        exact hk rfl
      rw [hblob k hk, hr.tmp k hclosed, htmps k hk]
      cases hl : s.disk.tmp.lookup k with
      | none => rfl
      | some j => exact congrArg some (hcontents k j hk hl).symm
  tasks := htasks

theorem Merged.task (hr : Merged fate s u) {old : BlobTask Hash} (hi : s.tasks i = some old) :
    ∃ old', u.tasks i = some old' ∧ Matches (fate i) old old' := by
  have h := hr.tasks i
  rw [hi] at h
  generalize hu : u.tasks i = o at h
  cases h with
  | some hm => exact ⟨_, rfl, hm⟩

theorem Merged.put_task (hr : Merged fate s u) {key : Hash} {bytes : Bytes} {pc : PutPc}
    (hi : s.tasks i = some (.put key bytes pc)) :
    u.tasks i = some (.put ⟨key, bytes, stageOf pc⟩) := by
  obtain ⟨_, hu, hm⟩ := hr.task hi
  cases hm
  exact hu

theorem Merged.stays (hr : Merged fate s u) {old' : StoreTask Hash} (hu : u.tasks i = some old')
    (hm : Matches (fate i) new old') (j : ℕ) :
    Option.Rel (Matches (fate j)) ((moved s i new d).tasks j) (u.tasks j) := by
  have hsame : Function.update u.tasks i (some old') = u.tasks := by
    rw [← hu, Function.update_eq_self]
  have h := Run.update_rel hr.tasks hm j
  rwa [hsame] at h

end

variable (core : XetCore Hash) (publicBase : String)

/-- The operations on whole files do nothing, or take one step, to the state. -/
def Follows (fate : Run.Pool (BlobTask Hash)) (t : BlobState Hash)
    (u : StoreState Hash (LocalFs Hash)) : Prop :=
  Merged fate t u ∨ ∃ l u', storeStep (localFs core publicBase) u l = some u' ∧ Merged fate t u'

section
variable {core publicBase} {fate : Run.Pool (BlobTask Hash)} {s : BlobState Hash} {i : ℕ}
  {u : StoreState Hash (LocalFs Hash)} {old new : BlobTask Hash} {old' new' : StoreTask Hash}
  {d : Disk Hash}

theorem follows_rests (hr : Merged fate s u) (hi : s.tasks i = some old)
    (hu : u.tasks i = some old') (hsound : Sound (moved s i new s.disk))
    (hold : ∀ a, ¬ Owns a old) (hnew : ∀ a, ¬ Owns a new) (io : Io)
    (hadvance : old'.advance (localFs core publicBase) io u.blob = some (new', u.blob))
    (hm : Matches (fate i) new new') : Follows core publicBase fate (moved s i new s.disk) u := by
  refine .inr ⟨.step i io, _, storeStep_step hu hadvance, ?_⟩
  refine hr.rests hsound ?_ hnew (Run.update_rel hr.tasks hm)
  rintro task ht
  obtain rfl := Option.some.inj (hi.symm.trans ht)
  exact hold

variable {key : Hash} {bytes : Bytes} {pc : PutPc}

theorem create_tmp (d : Disk Hash) (key k : Hash) : (d.create key).2.tmp.lookup k =
    if k = key then some (d.create key).1 else d.tmp.lookup k := by
  unfold Disk.create
  cases htmp : d.tmp.lookup key with
  | some inode =>
    by_cases hk : k = key
    · rw [if_pos hk, hk]
      exact htmp
    · rw [if_neg hk]
  | none =>
    simp only
    exact Table.lookup_insert_if d.tmp key k d.next

theorem body_frozen (hs : Sound s) (hfiles : d.files = s.disk.files)
    (hc : ∀ j, Frozen s j → d.contents j = s.disk.contents j) (k : Hash) :
    d.body k = s.disk.body k := by
  rw [Disk.body, Disk.body, hfiles]
  cases hk : s.disk.files.lookup k with
  | none => rfl
  | some j => exact congrArg some (hc j (hs.visible k j hk))

/-- The file of a key has been opened or written: the operation is to come, or, once all
bytes are there, it is taken. -/
theorem follows_touches {inode n : ℕ} (hr : Merged fate s u)
    (hi : s.tasks i = some (.put key bytes pc)) (hstage : stageOf pc = .write)
    (hsound : Sound (moved s i (.put key bytes (.writing bytes inode n)) d))
    (ht : Touches s.disk key inode d) (hc : d.contents inode = bytes.take n)
    (hothers : ∀ j task, j ≠ i → s.tasks j = some task → ¬ Writing key task)
    (hfrozen : ∀ j, Frozen s j → d.contents j = s.disk.contents j)
    (htmps : ∀ k, k ≠ key → d.tmp.lookup k = s.disk.tmp.lookup k)
    (hown : d.tmp.lookup key = some inode) :
    Follows core publicBase fate (moved s i (.put key bytes (.writing bytes inode n)) d) u := by
  have hu := hr.put_task hi
  rw [hstage] at hu
  have hcontents : ∀ k j, k ≠ key → s.disk.tmp.lookup k = some j →
      d.contents j = s.disk.contents j := by
    intro k j hk hj
    refine ht.contents j ?_
    rintro rfl
    exact hk (ht.owner k ((htmps k hk).trans hj))
  have hbody := body_frozen hr.sound ht.files hfrozen
  by_cases hn : n < bytes.length
  · have hpc : PutPc.writing bytes inode n = .write inode n := if_pos hn
    rw [hpc] at hsound ⊢
    refine .inl (hr.writes hsound hi hothers hbody htmps hcontents ?_ rfl (fun _ _ => rfl) ?_
      (hr.stays hu (.put key bytes (.write inode n))))
    · rintro k b a m ⟨⟩
      exact ⟨rfl, hown⟩
    · exact fun hno => absurd ⟨i, bytes, inode, n, Function.update_self ..⟩ hno
  · have hpc : PutPc.writing bytes inode n = .rename := if_neg hn
    rw [hpc] at hsound ⊢
    refine .inr ⟨.step i .ok, _, storeStep_step hu rfl, ?_⟩
    refine hr.writes hsound hi hothers hbody htmps hcontents nofun rfl ?_ ?_
      (Run.update_rel hr.tasks (.put key bytes .rename))
    · intro k hk
      exact AList.lookup_insert_ne hk
    · intro _
      rw [hown, Option.map_some, hc, List.take_of_length_le (Nat.le_of_not_lt hn)]
      exact AList.lookup_insert _

theorem follows_fails {inode n : ℕ} (hr : Merged fate s u)
    (hi : s.tasks i = some (.put key bytes (.write inode n))) (e : String)
    (hsound : Sound (moved s i (.returned (.put key bytes) (.put (.error e))) s.disk)) :
    Follows core publicBase fate
      (moved s i (.returned (.put key bytes) (.put (.error e))) s.disk) u := by
  have hothers : ∀ j task, j ≠ i → s.tasks j = some task → ¬ Writing key task :=
    fun j task hne hj hw => hne (hr.sound.sole j i task _ hj hi (.inl ⟨key, hw, rfl⟩))
  obtain ⟨_, hc, _⟩ := hr.sound.fits i _ hi
  refine .inr ⟨.step i (.fail e (some (bytes.take n))), _,
    storeStep_step (hr.put_task hi) rfl, ?_⟩
  refine hr.writes hsound hi hothers (fun _ => rfl) (fun _ _ => rfl) (fun _ _ _ _ => rfl) nofun
    rfl ?_ ?_ (Run.update_rel hr.tasks (.returned (.put key bytes) (.put (.error e))))
  · intro k hk
    exact AList.lookup_insert_ne hk
  · intro _
    rw [hr.opened i key bytes inode n hi, Option.map_some, hc]
    exact AList.lookup_insert _

omit [DecidableEq Hash] in
theorem closed_of_alone (alone : ∀ j task, s.tasks j = some task → ¬ Writing key task) :
    ¬ Open s key := by
  rintro ⟨j, b, a, n, hj⟩
  exact alone j _ hj rfl

theorem follows_renames {inode : ℕ} (hr : Merged fate s u)
    (hi : s.tasks i = some (.put key bytes .rename))
    (htmp : s.disk.tmp.lookup key = some inode)
    (hsound : Sound (moved s i (.returned (.put key bytes) (.put (.ok true)))
      { s.disk with files := s.disk.files.insert key inode, tmp := s.disk.tmp.erase key })) :
    Follows core publicBase fate (moved s i (.returned (.put key bytes) (.put (.ok true)))
      { s.disk with files := s.disk.files.insert key inode, tmp := s.disk.tmp.erase key }) u := by
  have hclosed : ¬ Open s key := by
    rintro ⟨j, b, a, n, hj⟩
    obtain rfl := hr.sound.sole j i _ _ hj hi (.inl ⟨key, rfl, rfl⟩)
    rw [hi] at hj
    cases hj
  have hfile : u.blob.tmp.lookup key = some (s.disk.contents inode) := by
    rw [hr.tmp key hclosed, htmp, Option.map_some]
  have hadvance : (StoreTask.put ⟨key, bytes, stageOf .rename⟩).advance
      (localFs core publicBase) .ok u.blob =
      some (.returned (.put key bytes) (.put (.ok true)),
        { files := u.blob.files.insert key (s.disk.contents inode),
          tmp := u.blob.tmp.erase key }) := by
    simp only [StoreTask.advance, localFs, stageOf, LocalFs.putStep, hfile]
  refine .inr ⟨.step i .ok, _, storeStep_step (hr.put_task hi) hadvance, ?_⟩
  refine hr.moves hsound ?_ (fun a ho => ho.writing.elim (returned_quiet _ _)) ?_ ?_ ?_
    (Run.update_rel hr.tasks (.returned _ _))
  · rintro task ht a ho
    obtain rfl := Option.some.inj (hi.symm.trans ht)
    exact ho
  · intro k ho
    exact AList.lookup_erase_ne (fun he => hclosed (he ▸ ho))
  · intro k
    rw [Disk.body, Table.lookup_insert_if, Table.lookup_insert_if]
    split
    · rfl
    · exact hr.objects k
  · intro k hno
    rw [Table.lookup_erase_if, Table.lookup_erase_if]
    split
    · rfl
    · exact hr.tmp k hno

theorem follows_removes (hr : Merged fate s u) (hi : s.tasks i = some (.put key bytes .removeTmp))
    (hclosed : ¬ Open s key)
    (hsound : Sound (moved s i (.returned (.put key bytes) (.put (.ok false)))
      { s.disk with tmp := s.disk.tmp.erase key })) :
    Follows core publicBase fate (moved s i (.returned (.put key bytes) (.put (.ok false)))
      { s.disk with tmp := s.disk.tmp.erase key }) u := by
  refine .inr ⟨.step i .ok, _, storeStep_step (hr.put_task hi) rfl, ?_⟩
  refine hr.moves hsound ?_ (fun a ho => ho.writing.elim (returned_quiet _ _)) ?_ hr.objects ?_
    (Run.update_rel hr.tasks (.returned _ _))
  · rintro task ht a ho
    obtain rfl := Option.some.inj (hi.symm.trans ht)
    exact ho
  · intro k ho
    exact AList.lookup_erase_ne (fun he => hclosed (he ▸ ho))
  · intro k hno
    change (u.blob.tmp.erase key).lookup k = ((s.disk.tmp.erase key).lookup k).map _
    rw [Table.lookup_erase_if, Table.lookup_erase_if]
    split
    · rfl
    · exact hr.tmp k hno

/-- Each file-system step of a `put` is, or is part of, an operation on whole files. -/
theorem put_follows {os : Os} (hr : Merged fate s u) (hi : s.tasks i = some (.put key bytes pc))
    (hturn : TakesTurns s (.step i os))
    (hpass : Passes False s (moved s i (s.disk.putStep key bytes pc os).1
      (s.disk.putStep key bytes pc os).2) (.put key bytes) (sees os s.disk (.put key bytes pc))) :
    Follows core publicBase fate (moved s i (s.disk.putStep key bytes pc os).1
      (s.disk.putStep key bytes pc os).2) u := by
  have hu := hr.put_task hi
  have hsound := hpass.sound
  have hmem : key ∈ u.blob.files ↔ key ∈ s.disk.files := hr.objects.mem
  cases pc with
  | tryExists =>
    cases os with
    | ok n =>
      by_cases hk : key ∈ s.disk.files
      · simp only [Disk.putStep, if_pos hk] at hsound ⊢
        refine follows_rests hr hi hu hsound (fun _ h => h) (fun _ h => h) .ok ?_
          (.returned _ _)
        simp [StoreTask.advance, localFs, stageOf, LocalFs.putStep, hmem, hk]
      · simp only [Disk.putStep, if_neg hk] at hsound ⊢
        refine follows_rests hr hi hu hsound (fun _ h => h) (fun _ h => h) .ok ?_
          (.put key bytes .createDir)
        simp [StoreTask.advance, localFs, stageOf, LocalFs.putStep, PutCall.at, hmem, hk]
    | fail e =>
      exact follows_rests hr hi hu hsound (fun _ h => h) (fun _ h => h) (.fail e none) rfl
        (.put key bytes .createDir)
  | createDir =>
    cases os with
    | ok n =>
      exact follows_rests hr hi hu hsound (fun _ h => h) (fun _ h => h) .ok rfl
        (.put key bytes .create)
    | fail e =>
      exact follows_rests hr hi hu hsound (fun _ h => h) (fun _ h => h) (.fail e none) rfl
        (.returned _ _)
  | create =>
    cases os with
    | ok n =>
      have hothers := hturn key bytes .create hi (.inl rfl)
      obtain ⟨ht, hnil, _⟩ := create_touches hr.sound key
      simp only [Disk.putStep] at hsound hpass ⊢
      refine follows_touches hr hi rfl hsound ht (by rw [hnil, List.take_zero])
        (fun j task _ hj => hothers j task hj) hpass.frozen ?_ ?_
      · intro k hk
        rw [create_tmp, if_neg hk]
      · rw [create_tmp, if_pos rfl]
    | fail e =>
      exact follows_rests hr hi hu hsound (fun _ h => h) (fun _ h => h) (.fail e none) rfl
        (.returned _ _)
  | write inode n =>
    cases os with
    | ok m =>
      by_cases hp : (bytes.drop n).take m = []
      · simp only [Disk.putStep, if_pos hp] at hsound ⊢
        exact follows_fails hr hi _ hsound
      · simp only [Disk.putStep, if_neg hp] at hsound hpass ⊢
        refine follows_touches hr hi rfl hsound (write_touches hr.sound hi _)
          (write_contents hr.sound hi m) ?_ hpass.frozen (fun _ _ => rfl)
          (hr.opened i key bytes inode n hi)
        exact fun j task hne hj hw => hne (hr.sound.sole j i task _ hj hi (.inl ⟨key, hw, rfl⟩))
    | fail e => exact follows_fails hr hi e hsound
  | rename =>
    cases os with
    | ok n =>
      cases htmp : s.disk.tmp.lookup key with
      | some inode =>
        simp only [Disk.putStep, htmp] at hsound ⊢
        exact follows_renames hr hi htmp hsound
      | none =>
        simp only [Disk.putStep, htmp] at hsound ⊢
        have hclosed : ¬ Open s key := by
          rintro ⟨j, b, a, n, hj⟩
          rw [hr.opened j key b a n hj] at htmp
          cases htmp
        have hfile : u.blob.tmp.lookup key = none := by
          rw [hr.tmp key hclosed, htmp, Option.map_none]
        refine follows_rests hr hi hu hsound (fun _ h => h) (fun _ h => h) .ok ?_
          (.put key bytes (.recheck notFound))
        simp only [StoreTask.advance, localFs, stageOf, LocalFs.putStep, hfile, PutCall.at]
        rfl
    | fail e =>
      exact follows_rests hr hi hu hsound (fun _ h => h) (fun _ h => h) (.fail e none) rfl
        (.put key bytes (.recheck e))
  | recheck e =>
    cases os with
    | ok n =>
      by_cases hk : key ∈ s.disk.files
      · simp only [Disk.putStep, if_pos hk] at hsound ⊢
        refine follows_rests hr hi hu hsound (fun _ h => h) (fun _ h => h) .ok ?_
          (.put key bytes .removeTmp)
        simp [StoreTask.advance, localFs, stageOf, LocalFs.putStep, PutCall.at, hmem, hk]
      · simp only [Disk.putStep, if_neg hk] at hsound ⊢
        refine follows_rests hr hi hu hsound (fun _ h => h) (fun _ h => h) .ok ?_
          (.returned _ _)
        simp [StoreTask.advance, localFs, stageOf, LocalFs.putStep, hmem, hk]
    | fail e' =>
      exact follows_rests hr hi hu hsound (fun _ h => h) (fun _ h => h) (.fail e' none) rfl
        (.returned _ _)
  | removeTmp =>
    cases os with
    | ok n =>
      exact follows_removes hr hi (closed_of_alone (hturn key bytes .removeTmp hi (.inr rfl)))
        hsound
    | fail e =>
      exact follows_rests hr hi hu hsound (fun _ h => h) (fun _ h => h) (.fail e none) rfl
        (.returned _ _)

end

section
variable {s t : BlobState Hash} {i : ℕ} {labels : List (BlobLabel Hash)}

theorem returned_stays {call : BlobCall Hash} {r : BlobResult}
    (hi : s.tasks i = some (.returned call r)) (h : Run.exec blobStep s labels = some t) :
    t.tasks i = some (.returned call r) := by
  refine Run.exec_preserves (I := fun u : BlobState Hash => u.tasks i = some (.returned call r))
    (fun u l v hu hstep => ?_) hi h
  cases l with
  | call j c =>
    obtain ⟨hj, rfl⟩ := blobStep_call hstep
    refine (Function.update_of_ne ?_ _ _).trans hu
    rintro rfl
    rw [hu] at hj
    cases hj
  | step j os =>
    obtain ⟨task, p, hj, hp, rfl⟩ := blobStep_step hstep
    refine (Function.update_of_ne ?_ _ _).trans hu
    rintro rfl
    rw [hu] at hj
    cases hj
    cases hp

/-- A `getRange` that has opened a file of these bytes: it reads them, or has answered with
an error or with its part of them. -/
def Opened (i : ℕ) (key : Hash) (start stop inode : ℕ) (b : Bytes) (s : BlobState Hash) : Prop :=
  (∃ data, s.tasks i = some (.getRange key start stop (.read inode data)) ∧
    s.disk.contents inode = b) ∨
  (∃ e, s.tasks i = some (.returned (.getRange key start stop) (.range (some (.error e))))) ∨
  s.tasks i = some (.returned (.getRange key start stop)
    (.range ((readRange b start stop).map .ok)))

variable {key : Hash} {start stop inode : ℕ} {b : Bytes}

theorem step_opened {l : BlobLabel Hash} (hs : Sound s) (hc : CreatesAlone s l)
    (h : blobStep s l = some t) (ho : Opened i key start stop inode b s) :
    Opened i key start stop inode b t := by
  rcases ho with ⟨data, hi, hb⟩ | ⟨e, hi⟩ | hi
  · obtain ⟨hfrozen, hread⟩ := hs.fits i _ hi
    cases l with
    | call j c =>
      obtain ⟨hj, rfl⟩ := blobStep_call h
      refine .inl ⟨data, (Function.update_of_ne ?_ _ _).trans hi, hb⟩
      rintro rfl
      rw [hi] at hj
      cases hj
    | step j os =>
      obtain ⟨task, p, hj, hp, rfl⟩ := blobStep_step h
      have hpass := advance_passes hs hj hc (fun h : False => h.elim) hp
      by_cases he : i = j
      · subst he
        obtain rfl := Option.some.inj (hi.symm.trans hj)
        obtain rfl := Option.some.inj hp
        cases os with
        | fail e => exact .inr (.inl ⟨e, Function.update_self ..⟩)
        | ok n =>
          by_cases hnil : ((s.disk.contents inode).drop data.length).take (max n 1) = []
          · simp only [Disk.getRangeStep, if_pos hnil]
            refine .inr (.inr ?_)
            rw [← hb, ← Disk.read_ended hread hnil]
            exact Function.update_self ..
          · simp only [Disk.getRangeStep, if_neg hnil]
            exact .inl ⟨_, Function.update_self .., hb⟩
      · refine .inl ⟨data, (Function.update_of_ne he _ _).trans hi, ?_⟩
        rw [← hb]
        exact hpass.frozen inode hfrozen
  · exact .inr (.inl ⟨e, returned_stays hi (Run.exec_cons.mpr ⟨t, h, Run.exec_nil ..⟩)⟩)
  · exact .inr (.inr (returned_stays hi (Run.exec_cons.mpr ⟨t, h, Run.exec_nil ..⟩)))

/-- What a `getRange` comes to is what it gets from the bytes of the file it has opened,
with some outcome of the operating system. -/
theorem opened_fated (hs : Sound s) (hg : Run.Guarded blobStep TakesTurns s labels)
    (h : Run.exec blobStep s labels = some t) (ho : Opened i key start stop inode b s)
    {fs : LocalFs Hash} (hb : fs.files.lookup key = some b) :
    ∃ io, ∀ r, t.tasks i = some (.returned (.getRange key start stop) r) →
      r = .range (LocalFs.getRange key start stop io fs) := by
  obtain ⟨_, hend⟩ := Run.exec_invariant
    (I := fun u => Sound u ∧ Opened i key start stop inode b u)
    (fun u l v hu hc hstep => ⟨step_sound hu.1 hc.creates hstep,
      step_opened hu.1 hc.creates hstep hu.2⟩) ⟨hs, ho⟩ hg h
  rcases hend with ⟨data, hi, _⟩ | ⟨e, hi⟩ | hi
  · refine ⟨.ok, fun r hr => ?_⟩
    rw [hi] at hr
    cases hr
  · refine ⟨.fail e none, fun r hr => ?_⟩
    rw [hi] at hr
    cases hr
    rfl
  · refine ⟨.ok, fun r hr => ?_⟩
    rw [hi] at hr
    cases hr
    simp only [LocalFs.getRange, hb]

end

section
variable {core publicBase} {s t final : BlobState Hash} {i : ℕ} {u : StoreState Hash (LocalFs Hash)}
  {key : Hash} {start stop : ℕ} {os : Os} {labels : List (BlobLabel Hash)}

/-- A `getRange` takes its whole operation where it opens its file. -/
theorem getRange_follows {pc : ReadPc} (hr : Merged final.tasks s u)
    (hi : s.tasks i = some (.getRange key start stop pc))
    (hsound : Sound (moved s i (s.disk.getRangeStep key start stop pc os) s.disk))
    (hg : Run.Guarded blobStep TakesTurns
      (moved s i (s.disk.getRangeStep key start stop pc os) s.disk) labels)
    (h : Run.exec blobStep (moved s i (s.disk.getRangeStep key start stop pc os) s.disk) labels =
      some final) :
    Follows core publicBase final.tasks
      (moved s i (s.disk.getRangeStep key start stop pc os) s.disk) u := by
  obtain ⟨task', hu, hm⟩ := hr.task hi
  cases hm with
  | unread =>
    cases os with
    | fail e =>
      exact follows_rests hr hi hu hsound (fun _ h => h) (fun _ h => h) (.fail e none) rfl
        (.returned _ _)
    | ok n =>
      have hbody := hr.objects key
      cases hk : s.disk.files.lookup key with
      | none =>
        rw [Disk.body, hk, Option.map_none] at hbody
        simp only [Disk.getRangeStep, hk] at hsound ⊢
        refine follows_rests hr hi hu hsound (fun _ h => h) (fun _ h => h) .ok ?_ (.returned _ _)
        simp only [StoreTask.advance, localFs, LocalFs.getRange, hbody]
        rfl
      | some inode =>
        rw [Disk.body, hk, Option.map_some] at hbody
        simp only [Disk.getRangeStep, hk] at hsound hg h ⊢
        obtain ⟨io, hfated⟩ := opened_fated hsound hg h
          (.inl ⟨[], Function.update_self .., rfl⟩) hbody
        exact follows_rests hr hi hu hsound (fun _ h => h) (fun _ h => h) io rfl
          (.reading _ _ _ _ _ _ hfated)
  | reading _ _ _ inode data r fated =>
    have hold : ∀ task, s.tasks i = some task → ∀ a, ¬ Owns a task := by
      rintro task ht a ho
      obtain rfl := Option.some.inj (hi.symm.trans ht)
      exact ho
    have hdone : ∀ r', (s.disk.getRangeStep key start stop (.read inode data) os) =
        .returned (.getRange key start stop) r' → r' = r := by
      intro r' he
      exact fated r' (returned_stays (he ▸ Function.update_self ..) h)
    have hquiet : ∀ a, ¬ Owns a (s.disk.getRangeStep key start stop (.read inode data) os) ∧
        Matches (final.tasks i) (s.disk.getRangeStep key start stop (.read inode data) os)
          (.returned (.getRange key start stop) r) := by
      intro a
      cases os with
      | fail e =>
        obtain rfl := hdone _ rfl
        exact ⟨fun h => h, .returned _ _⟩
      | ok n =>
        simp only [Disk.getRangeStep] at hdone ⊢
        split
        · rename_i hnil
          obtain rfl := hdone _ (if_pos hnil)
          exact ⟨fun h => h, .returned _ _⟩
        · exact ⟨fun h => h, .reading _ _ _ _ _ _ fated⟩
    exact .inl (hr.rests hsound hold (fun a => (hquiet a).1) (hr.stays hu (hquiet 0).2))

theorem head_follows {fate : Run.Pool (BlobTask Hash)} (hr : Merged fate s u)
    (hi : s.tasks i = some (.head key))
    (hsound : Sound (moved s i (.returned (.head key) (.head (s.disk.head key os))) s.disk)) :
    Follows core publicBase fate
      (moved s i (.returned (.head key) (.head (s.disk.head key os))) s.disk) u := by
  obtain ⟨_, hu, hm⟩ := hr.task hi
  cases hm
  cases os with
  | fail e =>
    exact follows_rests hr hi hu hsound (fun _ h => h) (fun _ h => h) (.fail e none) rfl
      (.returned _ _)
  | ok n =>
    refine follows_rests hr hi hu hsound (fun _ h => h) (fun _ h => h) .ok ?_ (.returned _ _)
    simp only [StoreTask.advance, localFs, LocalFs.head, Disk.head, hr.objects key]

theorem delete_follows {fate : Run.Pool (BlobTask Hash)} (hr : Merged fate s u)
    (hi : s.tasks i = some (.delete key))
    (hsound : Sound (moved s i (.returned (.delete key) (.delete (s.disk.delete key os).1))
      (s.disk.delete key os).2)) :
    Follows core publicBase fate
      (moved s i (.returned (.delete key) (.delete (s.disk.delete key os).1))
        (s.disk.delete key os).2) u := by
  obtain ⟨_, hu, hm⟩ := hr.task hi
  cases hm
  cases os with
  | fail e =>
    exact follows_rests hr hi hu hsound (fun _ h => h) (fun _ h => h) (.fail e none) rfl
      (.returned _ _)
  | ok n =>
    refine .inr ⟨.step i .ok, _, storeStep_step hu rfl, ?_⟩
    refine hr.moves hsound ?_ (fun _ h => h) (fun _ _ => rfl) ?_ hr.tmp
      (Run.update_rel hr.tasks (.returned _ _))
    · rintro task ht a ho
      obtain rfl := Option.some.inj (hi.symm.trans ht)
      exact ho
    · intro k
      change (u.blob.files.erase key).lookup k = ((s.disk.files.erase key).lookup k).map _
      rw [Table.lookup_erase_if, Table.lookup_erase_if]
      split
      · rfl
      · exact hr.objects k

theorem step_follows {l : BlobLabel Hash} (hr : Merged final.tasks s u)
    (hg : Run.Guarded blobStep TakesTurns s (l :: labels))
    (h : Run.exec blobStep s (l :: labels) = some final) (hstep : blobStep s l = some t) :
    Follows core publicBase final.tasks t u := by
  obtain ⟨t', hstep', hrest⟩ := Run.exec_cons.mp h
  obtain rfl := Option.some.inj (hstep.symm.trans hstep')
  have hsound := step_sound hr.sound hg.1.creates hstep
  have hlater := hg.2 t hstep
  cases l with
  | call j c =>
    obtain ⟨hj, rfl⟩ := blobStep_call hstep
    have hnone : u.tasks j = none := by
      have hrel := hr.tasks j
      rw [hj] at hrel
      generalize hu : u.tasks j = o at hrel
      cases hrel
      rfl
    refine .inr ⟨.call j c, _, storeStep_call c hnone, ?_⟩
    refine hr.rests hsound ?_ (by cases c <;> exact fun _ h => h) (Run.update_rel hr.tasks ?_)
    · intro task ht
      rw [hj] at ht
      cases ht
    · cases c <;> constructor
  | step j os =>
    obtain ⟨task, p, hj, hp, rfl⟩ := blobStep_step hstep
    cases task with
    | put key bytes pc =>
      obtain rfl := Option.some.inj hp
      exact put_follows hr hj hg.1
        (advance_passes hr.sound hj hg.1.creates (fun h : False => h.elim) rfl)
    | head key =>
      obtain rfl := Option.some.inj hp
      exact head_follows hr hj hsound
    | getRange key start stop pc =>
      obtain rfl := Option.some.inj hp
      exact getRange_follows hr hj hsound hlater hrest
    | delete key =>
      obtain rfl := Option.some.inj hp
      exact delete_follows hr hj hsound
    | returned call r => cases hp

end

/-- The files of the disk, each with its bytes. -/
def whole (d : Disk Hash) : LocalFs Hash := ⟨objects d, d.tmp.mapValues d.contents⟩

/-- What can be seen of a disk and its calls is the same with whole files, except that a
read may have its answer while it is still reading. -/
structure Shows (s : BlobState Hash) (u : StoreState Hash (LocalFs Hash)) : Prop where
  objects : ∀ key, u.blob.object key = s.disk.body key
  calls : ∀ i, (u.tasks i).map StoreTask.call = (s.tasks i).map BlobTask.call
  answers : ∀ i call r, s.tasks i = some (.returned call r) → u.tasks i = some (.returned call r)
  early : ∀ i call r, u.tasks i = some (.returned call r) → s.tasks i = some (.returned call r) ∨
    ∃ key start stop inode data, s.tasks i = some (.getRange key start stop (.read inode data))

section
variable {d : Disk Hash} {labels : List (BlobLabel Hash)} {s : BlobState Hash}

theorem boot_merged (hd : WellFormed d) (fate : Run.Pool (BlobTask Hash)) :
    Merged fate (boot d) { blob := whole d } where
  sound := boot_sound hd
  opened := fun _ _ _ _ _ h => nomatch h
  objects := holds_objects d
  tmp := fun key _ => Table.lookup_mapValues d.tmp d.contents key
  tasks := fun _ => .none

theorem Merged.shows {fate : Run.Pool (BlobTask Hash)} {u : StoreState Hash (LocalFs Hash)}
    (hr : Merged fate s u) : Shows s u := by
  refine ⟨hr.objects, fun i => ?_, fun i call r hi => ?_, fun i call r hi => ?_⟩
  · have h := hr.tasks i
    generalize s.tasks i = a at h
    generalize u.tasks i = b at h
    cases h with
    | none => rfl
    | some hm => cases hm <;> rfl
  · obtain ⟨_, hu, hm⟩ := hr.task hi
    cases hm
    exact hu
  · have h := hr.tasks i
    rw [hi] at h
    generalize hs : s.tasks i = a at h
    cases h with
    | some hm =>
      cases hm with
      | reading key start stop inode data => exact .inr ⟨key, start, stop, inode, data, rfl⟩
      | returned => exact .inl rfl

/-- While the `put`s of a key take turns at its temporary file, a run of calls on the disk,
file-system step by step, is a run of the same calls in which each write and each read is
one step: at every moment the objects are the same and the same calls have been made, and
every answer given is the one given there. -/
theorem file_steps_merge (core : XetCore Hash) (publicBase : String) (wellFormed : WellFormed d)
    (turns : Run.Guarded blobStep TakesTurns (boot d) labels)
    (run : Run.exec blobStep (boot d) labels = some s) :
    ∃ merged : List (Option (StoreLabel Hash)), merged.length = labels.length ∧
      ∀ before after t, labels = before ++ after → Run.exec blobStep (boot d) before = some t →
        ∃ u, Run.exec (storeStep (localFs core publicBase)) { blob := whole d }
          (merged.take before.length).reduceOption = some u ∧ Shows t u := by
  have hstep : ∀ t u l t', Merged s.tasks t u →
      (∃ rest, Run.Guarded blobStep TakesTurns t (l :: rest) ∧
        Run.exec blobStep t (l :: rest) = some s) →
      blobStep t l = some t' → Follows core publicBase s.tasks t' u :=
    fun t u l t' hr ⟨_, hg, hrest⟩ hstep => step_follows hr hg hrest hstep
  obtain ⟨merged, hlen, hmatch⟩ := Run.exec_simulates hstep (boot_merged wellFormed s.tasks)
    (Run.guarded_rest turns run) run
  refine ⟨merged, hlen, fun before after t hsplit ht => ?_⟩
  obtain ⟨u, hu, hr⟩ := hmatch before after t hsplit ht
  exact ⟨u, hu, hr.shows⟩

/-- `TakesTurns` as a test, over the calls below a bound. -/
def takesTurns (n : ℕ) (s : BlobState Hash) : BlobLabel Hash → Bool
  | .call i _ => decide (i < n)
  | .step i (.ok _) =>
    match s.tasks i with
    | some (.put key _ .create) | some (.put key _ .removeTmp) =>
      (List.range n).all fun j => (s.tasks j).all fun task => decide (¬ Writing key task)
    | _ => true
  | .step _ (.fail _) => true

theorem takesTurns_sound {n : ℕ} {l : BlobLabel Hash} (hs : Run.Below n s.tasks)
    (h : takesTurns n s l = true) : TakesTurns s l := by
  cases l with
  | call i c => trivial
  | step i os =>
    cases os with
    | fail e => trivial
    | ok m =>
      rintro key bytes pc hi (rfl | rfl) j task hj
      · simp only [takesTurns, hi] at h
        exact of_decide_eq_true (hs.all h hj)
      · simp only [takesTurns, hi] at h
        exact of_decide_eq_true (hs.all h hj)

theorem takesTurns_below {n : ℕ} {l : BlobLabel Hash} {t : BlobState Hash}
    (hs : Run.Below n s.tasks) (h : takesTurns n s l = true) (hstep : blobStep s l = some t) :
    Run.Below n t.tasks := by
  refine blobStep_below hs ?_ hstep
  rintro i c rfl
  exact of_decide_eq_true h

end

/-- Two `put`s of a key that pass the existence test together: the first is put in place,
read, and replaced by the second before the read has come to its end. A third fails while
it writes. -/
def replaced : List (BlobLabel Plain.PlainHash) :=
  [.call 0 (.put [7] [1, 2, 3]), .call 1 (.put [7] [4]), .step 0 (.ok 0), .step 1 (.ok 0),
    .step 0 (.ok 0), .step 1 (.ok 0), .step 0 (.ok 0), .step 0 (.ok 2), .step 0 (.ok 2),
    .step 0 (.ok 0), .call 2 (.getRange [7] 0 9), .step 2 (.ok 0), .step 2 (.ok 2),
    .step 1 (.ok 0), .step 1 (.ok 1), .step 1 (.ok 0), .step 2 (.ok 2), .step 2 (.ok 2),
    .call 3 (.put [8] [5, 6]), .step 3 (.ok 0), .step 3 (.ok 0), .step 3 (.ok 0), .step 3 (.ok 1),
    .step 3 (.fail "disk full"), .call 4 (.getRange [7] 0 9), .step 4 (.ok 0)]

/-- What they return. -/
def replacedEnd : List (StoreTask Plain.PlainHash) := [
  .returned (.put [7] [1, 2, 3]) (.put (.ok true)),
  .returned (.put [7] [4]) (.put (.ok true)),
  .returned (.getRange [7] 0 9) (.range (some (.ok [1, 2, 3]))),
  .returned (.put [8] [5, 6]) (.put (.error "disk full"))]

theorem file_steps_merge_replaced : ∃ s merged u,
    Run.exec blobStep (boot {}) replaced = some s ∧
    Run.exec (storeStep (localFs Plain.plain "")) { blob := whole {} } merged = some u ∧
    (List.range 4).map u.tasks = replacedEnd.map some ∧
    u.blob.object [7] = some [4] ∧ Shows s u := by
  have hrun : (Run.exec blobStep (boot {}) replaced).map (fun s =>
      ([s.tasks 0, s.tasks 1, s.tasks 2, s.tasks 3], s.disk.body [7])) =
      some ([some (.returned (.put [7] [1, 2, 3]) (.put (.ok true))),
        some (.returned (.put [7] [4]) (.put (.ok true))),
        some (.returned (.getRange [7] 0 9) (.range (some (.ok [1, 2, 3])))),
        some (.returned (.put [8] [5, 6]) (.put (.error "disk full")))], some [4]) := by decide
  obtain ⟨s, hs, hend⟩ := Option.map_eq_some_iff.mp hrun
  simp only [Prod.mk.injEq, List.cons.injEq] at hend
  obtain ⟨⟨h0, h1, h2, h3, _⟩, hbody⟩ := hend
  have hg : Run.Guarded blobStep TakesTurns (boot {}) replaced :=
    Run.guarded_of_check (I := fun s => Run.Below 5 s.tasks) (fun _ _ => takesTurns_sound)
      (fun _ _ _ => takesTurns_below) (fun _ _ => rfl)
      (by decide : Run.check blobStep (takesTurns 5) (boot {}) replaced = true)
  obtain ⟨merged, _, hmatch⟩ := file_steps_merge Plain.plain "" wellFormed_empty hg hs
  obtain ⟨u, hu, hshows⟩ := hmatch replaced [] s (List.append_nil _).symm hs
  refine ⟨s, _, u, hs, hu, ?_, (hshows.objects [7]).trans hbody, hshows⟩
  simp [List.range_succ, replacedEnd, hshows.answers 0 _ _ h0, hshows.answers 1 _ _ h1,
    hshows.answers 2 _ _ h2, hshows.answers 3 _ _ h3]

end Dejaveph.Proofs.FileSteps
