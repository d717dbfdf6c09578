import Dejaveph.Server.Points
import Dejaveph.Server.TempFiles

namespace Dejaveph.Server.Effects
open Lib Server TempFiles Points
variable {Hash : Type} [DecidableEq Hash]

/-- A step of a call leaves frozen inodes alone. Where it puts no object in the place of
another, it does to the disk what the map does where the call takes effect. -/
structure Passes (fresh : Prop) (s t : BlobState Hash) (call : BlobCall Hash)
    (seen : Option Seen) : Prop where
  sound : Sound t
  frozen : ∀ j, Frozen s j → t.disk.contents j = s.disk.contents j
  effect : fresh → ∀ m, Holds s.disk m →
    match seen with
    | none => Holds t.disk m
    | some seen => ∃ m', Agrees m call seen m' ∧ Holds t.disk m'

section
variable {s : BlobState Hash} {i : ℕ} {d : Disk Hash} {new : BlobTask Hash} {c : BlobCall Hash}
  {fresh : Prop}

theorem passes_drops (hs : Sound s) (hd : Drops s.disk d) (hf : d.files = s.disk.files)
    (hnew : ∀ key, ¬ Writing key new) (hfits : Fits (moved s i new d) new) {seen : Option Seen}
    (hseen : ∀ m, Holds s.disk m → ∀ e, seen = some e → Agrees m c e m) :
    Passes fresh s (moved s i new d) c seen where
  sound := by
    refine hs.drops hd (fun key j hj => ?_) hnew hfits
    exact (hs.visible key j (hf ▸ hj)).drops hd fun ho => ho.writing.elim hnew
  frozen := fun j _ => by rw [hd.contents]
  effect := by
    intro _ m hm
    have hm' : Holds d m := by
      intro key
      rw [hm key, Disk.body, Disk.body, hf, hd.contents]
    cases seen with
    | none => exact hm'
    | some e => exact ⟨m, hseen m hm e rfl, hm'⟩

theorem passes_quiet (hs : Sound s) (hnew : ∀ key, ¬ Writing key new)
    (hfits : Fits (moved s i new s.disk) new) : Passes fresh s (moved s i new s.disk) c none :=
  passes_drops hs (.refl _) rfl hnew hfits fun _ _ _ h => nomatch h

theorem passes_touches {key : Hash} {bytes : Bytes} {inode n : ℕ} (hs : Sound s)
    (ht : Touches s.disk key inode d) (hc : d.contents inode = bytes.take n)
    (hothers : ∀ j task, j ≠ i → s.tasks j = some task → ¬ Writing key task ∧ ¬ Owns inode task)
    (hfrozen : ∀ j, Frozen s j → j ≠ inode) :
    Passes fresh s (moved s i (.put key bytes (.writing bytes inode n)) d) c none where
  sound := hs.touches ht hc hothers hfrozen
  frozen := fun j hj => ht.contents j (hfrozen j hj)
  effect := by
    intro _ m hm k
    rw [hm k, Disk.body, Disk.body, ht.files]
    cases hk : s.disk.files.lookup k with
    | none => rfl
    | some j =>
      have hj := hs.visible k j hk
      exact congrArg some (ht.contents j (hfrozen j hj)).symm

end

section
variable {s : BlobState Hash} {i : ℕ} {key : Hash} {bytes : Bytes} {fresh : Prop} (hs : Sound s)
include hs

/-- The existence test and its repetition see an object or change nothing. -/
theorem found_passes {new : BlobTask Hash} (hk : key ∈ s.disk.files)
    (hnew : ∀ k, ¬ Writing k new) (hfits : Fits (moved s i new s.disk) new) :
    Passes fresh s (moved s i new s.disk) (.put key bytes) (some (.put false)) :=
  passes_drops hs (.refl _) rfl hnew hfits fun m hm e he => by
    cases he
    exact agrees_found bytes hm hk

theorem create_passes (hc : ∀ j task, s.tasks j = some task → ¬ Writing key task) :
    Passes fresh s (moved s i (.put key bytes (.writing bytes (s.disk.create key).1 0))
      (s.disk.create key).2) (.put key bytes) none := by
  obtain ⟨ht, hnil, horigin⟩ := create_touches hs key
  refine passes_touches hs ht (by rw [hnil, List.take_zero]) ?_ ?_
  · intro j task _ hj
    refine ⟨hc j task hj, fun ho => ?_⟩
    -- an owner of the inode writes the temporary file of this key, or of none
    cases task with
    | put k b pc =>
      cases pc with
      | write a n =>
        obtain ⟨hlt, _, _, howner, _⟩ := hs.fits j _ hj
        obtain rfl : a = (s.disk.create key).1 := ho
        rcases horigin with htmp | hnext
        · exact hc j _ hj (howner key htmp).symm
        · exact absurd hlt (by rw [hnext]; exact Nat.lt_irrefl _)
      | _ => exact absurd ho (by simp [Owns])
    | _ => exact absurd ho (by simp [Owns])
  · rintro j ⟨hlt, htmp, _⟩ rfl
    rcases horigin with h | h
    · exact htmp key h
    · exact absurd hlt (by rw [h]; exact Nat.lt_irrefl _)

theorem write_passes {inode n : ℕ} (hi : s.tasks i = some (.put key bytes (.write inode n)))
    (m : ℕ) :
    Passes fresh s (moved s i
      (.put key bytes (.writing bytes inode (n + ((bytes.drop n).take m).length)))
      (s.disk.write inode n ((bytes.drop n).take m))) (.put key bytes) none := by
  refine passes_touches hs (write_touches hs hi _) (write_contents hs hi m) ?_ ?_
  · intro j task hne hj
    constructor
    · exact fun hw => hne (hs.sole j i task _ hj hi (.inl ⟨key, hw, rfl⟩))
    · exact fun ho => hne (hs.sole j i task _ hj hi (.inr ⟨inode, ho, rfl⟩))
  · rintro j hj rfl
    exact hj.2.2 i _ hi rfl

theorem rename_passes {inode : ℕ} (hi : s.tasks i = some (.put key bytes .rename))
    (htmp : s.disk.tmp.lookup key = some inode) (hk : fresh → key ∉ s.disk.files)
    (r : BlobResult) :
    Passes fresh s (moved s i (.returned (.put key bytes) r)
      { s.disk with files := s.disk.files.insert key inode, tmp := s.disk.tmp.erase key })
      (.put key bytes) (some (.put true)) := by
  have hd := Drops.erase s.disk key (s.disk.files.insert key inode)
  have hnew := returned_quiet (.put key bytes) r
  refine ⟨hs.drops hd ?_ hnew trivial, fun j _ => rfl, ?_⟩
  · intro k j hj
    rw [Table.lookup_insert_if] at hj
    split at hj
    · obtain rfl := Option.some.inj hj
      refine ⟨hs.tmp_lt key inode htmp, ?_, ?_⟩
      · intro k' hk'
        have hne : k' ≠ key := by
          rintro rfl
          rw [Table.lookup_erase_if, if_pos rfl] at hk'
          cases hk'
        exact hne (hs.tmp_inj k' key inode (hd.tmp k' inode hk') htmp)
      · refine Run.update_forall (fun a u hu ho => ?_) id
        -- who writes the inode writes this key's file, but this put has ended its writing
        cases u with
        | put k' b pc =>
          cases pc with
          | write c n =>
            obtain ⟨_, _, _, howner, _⟩ := hs.fits a _ hu
            obtain rfl : c = inode := ho
            obtain rfl := howner key htmp
            have ha := hs.sole a i _ _ hu hi (.inl ⟨key, rfl, rfl⟩)
            rw [ha, hi] at hu
            cases hu
          | _ => exact absurd ho (by simp [Owns])
        | _ => exact absurd ho (by simp [Owns])
    · exact (hs.visible k j hj).drops hd fun ho => ho.writing.elim hnew
  · intro hfresh m hm
    refine ⟨m.insert key bytes, agrees_new bytes hm (hk hfresh), fun k => ?_⟩
    rw [Table.lookup_insert_if, Disk.body, Table.lookup_insert_if]
    split
    · exact congrArg some (hs.fits i _ hi inode htmp).symm
    · exact hm k

theorem putStep_passes {pc : PutPc} {os : Os} (hi : s.tasks i = some (.put key bytes pc))
    (hc : CreatesAlone s (.step i os)) (hf : fresh → RenamesFresh s (.step i os)) :
    Passes fresh s (moved s i (s.disk.putStep key bytes pc os).1 (s.disk.putStep key bytes pc os).2)
      (.put key bytes) (sees os s.disk (.put key bytes pc)) := by
  cases pc with
  | tryExists | recheck e =>
    cases os with
    | ok n =>
      by_cases hk : key ∈ s.disk.files
      · simp only [Disk.putStep, sees, if_pos hk]
        exact found_passes hs hk (fun _ h => h) trivial
      · simp only [Disk.putStep, sees, if_neg hk]
        exact passes_quiet hs (fun _ h => h) trivial
    | fail e => exact passes_quiet hs (fun _ h => h) trivial
  | createDir => cases os <;> exact passes_quiet hs (fun _ h => h) trivial
  | create =>
    cases os with
    | ok n => exact create_passes hs (hc key bytes hi)
    | fail e => exact passes_quiet hs (fun _ h => h) trivial
  | write inode n =>
    cases os with
    | ok m =>
      by_cases hp : (bytes.drop n).take m = []
      · simp only [Disk.putStep, sees, if_pos hp]
        exact passes_quiet hs (fun _ h => h) trivial
      · simp only [Disk.putStep, sees, if_neg hp]
        exact write_passes hs hi m
    | fail e => exact passes_quiet hs (fun _ h => h) trivial
  | rename =>
    cases os with
    | ok n =>
      cases htmp : s.disk.tmp.lookup key with
      | some inode =>
        have hmem := Table.mem_of_lookup htmp
        simp only [Disk.putStep, sees, htmp, if_pos hmem]
        exact rename_passes hs hi htmp (fun h => hf h key bytes hi hmem) _
      | none =>
        have hmem : key ∉ s.disk.tmp := AList.lookup_eq_none.mp htmp
        simp only [Disk.putStep, sees, htmp, if_neg hmem]
        exact passes_quiet hs (fun _ h => h) trivial
    | fail e => exact passes_quiet hs (fun _ h => h) trivial
  | removeTmp =>
    cases os with
    | ok n =>
      have hnew := returned_quiet (.put key bytes) (.put (.ok false))
      exact passes_drops hs (.erase s.disk key s.disk.files) rfl hnew trivial
        fun _ _ _ h => nomatch h
    | fail e => exact passes_quiet hs (fun _ h => h) trivial

end

section
variable {s : BlobState Hash} {i : ℕ} {key : Hash} {os : Os} {fresh : Prop} (hs : Sound s)
include hs

theorem head_passes (os : Os) :
    Passes fresh s (moved s i (.returned (.head key) (.head (s.disk.head key os))) s.disk)
      (.head key) (sees os s.disk (.head key)) := by
  cases os with
  | ok n =>
    refine passes_drops hs (.refl _) rfl (returned_quiet _ _) trivial fun m hm e he => ?_
    cases he
    exact ⟨by rw [hm key], rfl⟩
  | fail e => exact passes_quiet hs (returned_quiet _ _) trivial

theorem getRangeStep_passes {start stop : ℕ} {pc : ReadPc}
    (hi : s.tasks i = some (.getRange key start stop pc)) (os : Os) :
    Passes fresh s (moved s i (s.disk.getRangeStep key start stop pc os) s.disk)
      (.getRange key start stop) (sees os s.disk (.getRange key start stop pc)) := by
  cases pc with
  | open_ =>
    cases os with
    | ok n =>
      have hsees : ∀ m, Holds s.disk m → ∀ e, some (Seen.body (s.disk.body key)) = some e →
          Agrees m (.getRange key start stop) e m := by
        intro m hm e he
        cases he
        exact ⟨(hm key).symm, rfl⟩
      simp only [Disk.getRangeStep, sees]
      cases hk : s.disk.files.lookup key with
      | none => exact passes_drops hs (.refl _) rfl (returned_quiet _ _) trivial hsees
      | some inode =>
        have hnew : ∀ k, ¬ Writing k (.getRange key start stop (.read inode [])) := fun _ h => h
        refine passes_drops hs (.refl _) rfl hnew ⟨?_, List.nil_prefix⟩ hsees
        exact (hs.visible key inode hk).drops (.refl _) fun h => h
    | fail e => exact passes_quiet hs (fun _ h => h) trivial
  | read inode data =>
    cases os with
    | ok n =>
      obtain ⟨hfrozen, rest, hrest⟩ := hs.fits i _ hi
      by_cases hp : ((s.disk.contents inode).drop data.length).take (max n 1) = []
      · simp only [Disk.getRangeStep, sees, if_pos hp]
        exact passes_quiet hs (fun _ h => h) trivial
      · simp only [Disk.getRangeStep, sees, if_neg hp]
        refine passes_quiet hs (fun _ h => h) ⟨hfrozen.drops (.refl _) fun h => h, ?_⟩
        rw [← hrest, List.drop_left]
        exact (List.prefix_append_right_inj data).mpr (List.take_prefix _ _)
    | fail e => exact passes_quiet hs (fun _ h => h) trivial

theorem delete_passes (os : Os) :
    Passes fresh s (moved s i (.returned (.delete key) (.delete (s.disk.delete key os).1))
      (s.disk.delete key os).2) (.delete key) (sees os s.disk (.delete key)) := by
  cases os with
  | fail e => exact passes_quiet hs (returned_quiet _ _) trivial
  | ok n =>
    have hd : Drops s.disk { s.disk with files := s.disk.files.erase key } :=
      ⟨rfl, rfl, fun _ _ h => h⟩
    have hnew := returned_quiet (.delete key : BlobCall Hash) (.delete (.ok ()))
    refine ⟨hs.drops hd ?_ hnew trivial, fun j _ => rfl, ?_⟩
    · intro k j hj
      change (s.disk.files.erase key).lookup k = some j at hj
      rw [Table.lookup_erase_if] at hj
      split at hj
      · cases hj
      · exact (hs.visible k j hj).drops hd fun ho => ho.writing.elim hnew
    · intro _ m hm
      refine ⟨m.erase key, rfl, fun k => ?_⟩
      change _ = ((s.disk.files.erase key).lookup k).map s.disk.contents
      rw [Table.lookup_erase_if, Table.lookup_erase_if]
      split
      · rfl
      · exact hm k

/-- Every step of a call in flight does what the map does, where it does something. -/
theorem advance_passes {task : BlobTask Hash} {p : BlobTask Hash × Disk Hash}
    (hi : s.tasks i = some task) (hc : CreatesAlone s (.step i os))
    (hf : fresh → RenamesFresh s (.step i os)) (h : task.advance os s.disk = some p) :
    Passes fresh s (moved s i p.1 p.2) task.call (sees os s.disk task) := by
  cases task with
  | put key bytes pc =>
    obtain rfl := Option.some.inj h
    exact putStep_passes hs hi hc hf
  | head key =>
    obtain rfl := Option.some.inj h
    exact head_passes hs os
  | getRange key start stop pc =>
    obtain rfl := Option.some.inj h
    exact getRangeStep_passes hs hi os
  | delete key =>
    obtain rfl := Option.some.inj h
    exact delete_passes hs os
  | returned call r => cases h

theorem call_sound (i : ℕ) (c : BlobCall Hash) : Sound (moved s i c.start s.disk) := by
  have hnew : ∀ key, ¬ Writing key c.start := by
    intro key
    cases c <;> exact fun h => h
  have hfits : Fits (moved s i c.start s.disk) c.start := by cases c <;> trivial
  have hpass : Passes True s (moved s i c.start s.disk) c none := passes_quiet hs hnew hfits
  exact hpass.sound

end

theorem step_sound {s t : BlobState Hash} {l : BlobLabel Hash} (hs : Sound s)
    (hc : CreatesAlone s l) (h : blobStep s l = some t) : Sound t := by
  cases l with
  | call i c =>
    obtain ⟨_, rfl⟩ := blobStep_call h
    exact call_sound hs i c
  | step i os =>
    obtain ⟨task, p, hi, hp, rfl⟩ := blobStep_step h
    exact (advance_passes hs hi hc (fun h : False => h.elim) hp).sound

end Dejaveph.Server.Effects
