import Mathlib.Data.List.AList

namespace Dejaveph.Lib

/-- A finite map with one value for each key, the meaning of a hash map. -/
abbrev Table (κ ν : Type) := AList (fun _ : κ => ν)

namespace Table
variable {κ ν : Type} [DecidableEq κ]

/-- The first value stored under a key stays. -/
def orInsert (m : Table κ ν) (k : κ) (v : ν) : Table κ ν :=
  if k ∈ m then m else m.insert k v

/-- Keep the entries that pass a test. -/
def retain (m : Table κ ν) (keep : κ → ν → Bool) : Table κ ν :=
  ⟨m.entries.filter (fun e => keep e.1 e.2),
    m.nodupKeys.sublist List.filter_sublist⟩

/-- The table with a function applied to its values. -/
def mapValues {μ : Type} (m : Table κ ν) (f : ν → μ) : Table κ μ :=
  ⟨m.entries.map (fun e => ⟨e.1, f e.2⟩), by
    have hkeys : (m.entries.map fun e => (⟨e.1, f e.2⟩ : Sigma fun _ => μ)).keys =
        m.entries.keys := by
      simp [List.keys]
    rw [List.NodupKeys, hkeys]
    exact m.nodupKeys⟩

def values (m : Table κ ν) : List ν := m.entries.map Sigma.snd

@[simp] theorem lookup_empty (k : κ) : (∅ : Table κ ν).lookup k = none :=
  AList.lookup_empty k

theorem mem_iff {m : Table κ ν} {k : κ} : k ∈ m ↔ ∃ v, m.lookup k = some v := by
  rw [← AList.lookup_isSome, Option.isSome_iff_exists]

theorem mem_of_lookup {m : Table κ ν} {k : κ} {v : ν} (h : m.lookup k = some v) : k ∈ m :=
  mem_iff.mpr ⟨v, h⟩

theorem lookup_eq_some {m : Table κ ν} {k : κ} {v : ν} :
    m.lookup k = some v ↔ (⟨k, v⟩ : Sigma fun _ => ν) ∈ m.entries :=
  AList.mem_lookup_iff

theorem mem_values {m : Table κ ν} {v : ν} : v ∈ m.values ↔ ∃ k, m.lookup k = some v := by
  simp only [values, List.mem_map, lookup_eq_some]
  constructor
  · rintro ⟨⟨k, w⟩, hm, rfl⟩
    exact ⟨k, hm⟩
  · rintro ⟨k, hm⟩
    exact ⟨⟨k, v⟩, hm, rfl⟩

theorem lookup_mapValues {μ : Type} (m : Table κ ν) (f : ν → μ) (k : κ) :
    (m.mapValues f).lookup k = (m.lookup k).map f := by
  apply Option.ext
  intro v
  simp only [lookup_eq_some, mapValues, List.mem_map, Option.map_eq_some_iff]
  constructor
  · rintro ⟨⟨k', w⟩, hm, he⟩
    cases he
    exact ⟨w, hm, rfl⟩
  · rintro ⟨w, hm, rfl⟩
    exact ⟨⟨k, w⟩, hm, rfl⟩

theorem lookup_insert_if (m : Table κ ν) (k k' : κ) (v : ν) :
    AList.lookup k' (m.insert k v) = if k' = k then some v else m.lookup k' := by
  split
  · rename_i he
    subst he
    exact AList.lookup_insert m
  · rename_i hne
    exact AList.lookup_insert_ne hne

theorem lookup_erase_if (m : Table κ ν) (k k' : κ) :
    AList.lookup k' (m.erase k) = if k' = k then none else m.lookup k' := by
  split
  · rename_i he
    subst he
    exact AList.lookup_erase k' m
  · rename_i hne
    exact AList.lookup_erase_ne hne

theorem lookup_orInsert (m : Table κ ν) (k k' : κ) (v : ν) :
    (m.orInsert k v).lookup k' = if k' = k then some ((m.lookup k).getD v) else m.lookup k' := by
  unfold orInsert
  split
  · rename_i hm
    obtain ⟨w, hw⟩ := mem_iff.mp hm
    split
    · rename_i he
      subst he
      simp [hw]
    · rfl
  · rename_i hm
    rw [lookup_insert_if, AList.lookup_eq_none.mpr hm]
    rfl

theorem lookup_orInsert_of_some {m : Table κ ν} {k k' : κ} {v w : ν}
    (h : m.lookup k' = some w) : (m.orInsert k v).lookup k' = some w := by
  rw [lookup_orInsert]
  split
  · rename_i he
    subst he
    simp [h]
  · exact h

theorem mem_orInsert {m : Table κ ν} {k k' : κ} {v : ν} :
    k' ∈ m.orInsert k v ↔ k' = k ∨ k' ∈ m := by
  unfold orInsert
  split
  · rename_i hm
    constructor
    · exact Or.inr
    · rintro (rfl | h)
      · exact hm
      · exact h
  · exact AList.mem_insert m

theorem lookup_retain (m : Table κ ν) (keep : κ → ν → Bool) (k : κ) :
    (m.retain keep).lookup k = (m.lookup k).filter (keep k) := by
  apply Option.ext
  intro v
  rw [lookup_eq_some]
  simp only [retain, List.mem_filter, Option.filter_eq_some_iff, lookup_eq_some]

end Table

section
variable {ε ν : Type} (write : ε → Option ν)

/-- The value that a log writes last. -/
def lastWritten (log : List ε) : Option ν := (log.filterMap write).getLast?

theorem lastWritten_snoc (log : List ε) (e : ε) :
    lastWritten write (log ++ [e]) = (write e).or (lastWritten write log) := by
  rw [lastWritten, List.filterMap_append, List.getLast?_append]
  cases he : write e with
  | none => simp [he, lastWritten]
  | some v => simp [he]

theorem mem_of_lastWritten {log : List ε} {v : ν} (h : lastWritten write log = some v) :
    ∃ e ∈ log, write e = some v :=
  List.mem_filterMap.mp (List.mem_of_getLast? h)

theorem lastWritten_isSome {log : List ε} :
    (lastWritten write log).isSome ↔ ∃ e ∈ log, (write e).isSome := by
  rw [lastWritten, List.getLast?_isSome]
  constructor
  · intro h
    obtain ⟨v, hv⟩ := List.exists_mem_of_ne_nil _ h
    obtain ⟨e, he, hw⟩ := List.mem_filterMap.mp hv
    exact ⟨e, he, Option.isSome_iff_exists.mpr ⟨v, hw⟩⟩
  · rintro ⟨e, he, hw⟩
    obtain ⟨v, hv⟩ := Option.isSome_iff_exists.mp hw
    exact List.ne_nil_of_mem (List.mem_filterMap.mpr ⟨e, he, hv⟩)

end

end Dejaveph.Lib
