import Dejaveph.Lib.Text
import Dejaveph.XetCore

namespace Dejaveph.Plain
open Lib

/-- The hash of a byte string is the byte string, as numbers. -/
abbrev PlainHash := List ℕ

/-- Each number in unary, closed by a `b`. -/
def hexChars (h : PlainHash) : List Char := h.flatMap (fun n => List.replicate n 'a' ++ ['b'])

def hex (h : PlainHash) : String := String.ofList ('x' :: hexChars h)

def readHex : ℕ → List Char → Option PlainHash
  | 0, [] => some []
  | _ + 1, [] => none
  | n, c :: cs =>
    if c = 'a' then readHex (n + 1) cs
    else if c = 'b' then (readHex 0 cs).map (n :: ·)
    else none

def fromHex (s : String) : Option PlainHash :=
  match s.toList with
  | 'x' :: cs => readHex 0 cs
  | _ => none

def dataHash (d : Bytes) : PlainHash := d.map UInt8.toNat

/-- One chunk for each byte. -/
def nextBlock (b : Bytes) : List (Chunk PlainHash) := b.map (fun x => ⟨dataHash [x], [x]⟩)

/-- Join numbers lists so that they can be told apart again. -/
def join (hs : List PlainHash) : PlainHash := hs.flatMap (fun h => h.length :: h)

def fileHash (ps : List (PlainHash × ℕ)) : PlainHash := join (ps.map (fun p => p.2 :: p.1))

/-- A chunk is stored as its length and data, or padded with one byte more. -/
def deserializeChunk : Bytes → Except String (Bytes × Bytes)
  | s :: n :: rest =>
    if s = 0 ∧ n.toNat ≤ rest.length then .ok (rest.take n.toNat, rest.drop n.toNat)
    else if s = 1 ∧ n.toNat + 1 ≤ rest.length then
      .ok (rest.take n.toNat, rest.drop (n.toNat + 1))
    else .error "bad chunk header"
  | _ => .error "short chunk header"

def footer : Bytes := [2]

/-- The data and the stored form of each chunk before the footer. -/
def parse : ℕ → Bytes → Option (List (Bytes × Bytes))
  | 0, _ => none
  | n + 1, body =>
    if body = footer then some []
    else
      match deserializeChunk body with
      | .error _ => none
      | .ok (data, rest) =>
        if data = [] then none
        else (parse n rest).map ((data, body.take (body.length - rest.length)) :: ·)

def infoOf (parts : List (Bytes × Bytes)) : XorbObjectInfoV1 PlainHash where
  numChunks := UInt32.ofNat parts.length
  chunkHashes := parts.map (fun p => dataHash p.1)
  chunkBoundaryOffsets := (Pieces.ends (parts.map Prod.snd)).map UInt32.ofNat
  unpackedChunkOffsets := (Pieces.ends (parts.map Prod.fst)).map UInt32.ofNat

def validateXorbObject (body : Bytes) (hash : PlainHash) :
    Except String (Option (XorbObjectInfoV1 PlainHash)) :=
  match parse (body.length + 1) body with
  | none => .error "malformed xorb"
  | some parts =>
    if parts ≠ [] ∧ body.length < 2 ^ 32 ∧ join (parts.map (fun p => dataHash p.1)) = hash then
      .ok (some (infoOf parts))
    else .ok none

def piece (c : Chunk PlainHash) : Bytes := 0 :: UInt8.ofNat c.data.length :: c.data

def body (group : List (Chunk PlainHash)) : Bytes := (group.map piece).flatten ++ footer

def fromXorb (group : List (Chunk PlainHash)) : Except String (SerializedXorbObject PlainHash) :=
  if (body group).length < 2 ^ 32 then .ok ⟨join (group.map Chunk.hash), body group⟩
  else .error "xorb too large"

/-- A character of a JSON text. -/
def jsonChar (c : Char) : List Char :=
  match [(8, 'b'), (9, 't'), (10, 'n'), (12, 'f'), (13, 'r')].lookup c.toNat with
  | some letter => [Char.ofNat 92, letter]
  | none =>
    if c.toNat = 34 ∨ c.toNat = 92 then [Char.ofNat 92, c]
    else if c.toNat < 32 then
      Char.ofNat 92 :: 'u' :: '0' :: '0' :: [(c.toNat / 16).digitChar, (c.toNat % 16).digitChar]
    else [c]

def jsonText (s : String) : List Char :=
  Char.ofNat 34 :: s.toList.flatMap jsonChar ++ [Char.ofNat 34]

/-- An object, of its fields in the order of their names. -/
def jsonObject (fields : List (String × List Char)) : List Char :=
  '{' :: List.intercalate [','] (fields.map (fun f => jsonText f.1 ++ ':' :: f.2)) ++ ['}']

def jsonTerm (t : Server.RegisterTerm) : List Char :=
  jsonObject [("end", Text.numeral t.end_.toNat), ("start", Text.numeral t.start.toNat),
    ("unpacked_length", Text.numeral t.unpackedLength), ("xorb", jsonText t.xorb)]

def jsonOption : Option String → List Char
  | some s => jsonText s
  | none => ['n', 'u', 'l', 'l']

def registrationJson (req : Server.RegisterFile) : Bytes :=
  (jsonObject [("file_hash", jsonText req.fileHash), ("path", jsonOption req.path),
    ("terms", '[' :: List.intercalate [','] (req.terms.map jsonTerm) ++ [']']),
    ("total_size", Text.numeral req.totalSize), ("volume", jsonOption req.volume)]).flatMap
      String.utf8EncodeChar

/-- A core with all its laws: what is hashed can be read off the hash. -/
def plain : XetCore PlainHash where
  hex := hex
  fromHex := fromHex
  computeDataHash := dataHash
  nextBlock := nextBlock
  fileHash := fileHash
  fromXorb := fromXorb
  validateXorbObject := validateXorbObject
  deserializeChunk := deserializeChunk
  registrationJson := registrationJson

theorem readHex_unary (n k : ℕ) (cs : List Char) :
    readHex n (List.replicate k 'a' ++ 'b' :: cs) = (readHex 0 cs).map ((n + k) :: ·) := by
  induction k generalizing n with
  | zero => simp [readHex]
  | succ k ih =>
    simp only [List.replicate_succ, List.cons_append, readHex, ↓reduceIte, ih]
    rw [Nat.add_assoc, Nat.add_comm 1 k]

theorem readHex_hexChars (h : PlainHash) : readHex 0 (hexChars h) = some h := by
  induction h with
  | nil => rfl
  | cons n h ih =>
    have hc : hexChars (n :: h) = List.replicate n 'a' ++ 'b' :: hexChars h := by
      simp [hexChars]
    rw [hc, readHex_unary, ih]
    simp

theorem plain_hex : plain.HexLaws where
  from_hex h := by
    change fromHex (String.ofList ('x' :: hexChars h)) = some h
    simp only [fromHex, String.toList_ofList, readHex_hexChars]
  non_empty h := by
    change (String.ofList ('x' :: hexChars h)).toList ≠ []
    rw [String.toList_ofList]
    nofun
  alphanum h := by
    change ∀ c ∈ (String.ofList ('x' :: hexChars h)).toList, _
    rw [String.toList_ofList]
    intro c hc
    rcases List.mem_cons.mp hc with rfl | hc
    · rfl
    · obtain ⟨n, _, hc⟩ := List.mem_flatMap.mp hc
      rcases List.mem_append.mp hc with hc | hc
      · rw [(List.mem_replicate.mp hc).2]
        rfl
      · rw [List.mem_singleton.mp hc]
        rfl

theorem dataHash_injective : Function.Injective dataHash :=
  List.map_injective_iff.mpr (fun _ _ h => UInt8.toNat_inj.mp h)

theorem join_injective : Function.Injective join := by
  intro hs ks h
  induction hs generalizing ks with
  | nil =>
    cases ks with
    | nil => rfl
    | cons k ks => simp [join] at h
  | cons a hs ih =>
    cases ks with
    | nil => simp [join] at h
    | cons k ks =>
      simp only [join, List.flatMap_cons, List.cons_append, List.cons.injEq] at h
      obtain ⟨rfl, ht⟩ := List.append_inj h.2 h.1
      rw [ih ht]

theorem fileHash_injective : Function.Injective fileHash := by
  intro ps qs h
  refine List.map_injective_iff.mpr ?_ (join_injective h)
  rintro ⟨a, m⟩ ⟨b, n⟩ he
  simpa [and_comm] using he

theorem deserialize_split {bytes data rest : Bytes}
    (h : deserializeChunk bytes = .ok (data, rest)) :
    ∃ p, bytes = p ++ rest ∧ p ≠ [] ∧ data.length ≤ p.length := by
  unfold deserializeChunk at h
  split at h
  · rename_i s n tail
    split at h
    · rename_i hs
      cases h
      exact ⟨s :: n :: tail.take n.toNat, by simp, by simp, by simp; omega⟩
    · split at h
      · rename_i hs
        cases h
        exact ⟨s :: n :: tail.take (n.toNat + 1), by simp, by simp, by simp; omega⟩
      · cases h
  · cases h

/-- What is parsed is exactly the body, in non-empty chunks. -/
theorem parse_spec {n : ℕ} {bytes : Bytes} {parts : List (Bytes × Bytes)}
    (h : parse n bytes = some parts) :
    bytes = (parts.map Prod.snd).flatten ++ footer ∧
      ∀ p ∈ parts, p.1 ≠ [] ∧ p.2 ≠ [] ∧ p.1.length ≤ p.2.length := by
  induction n generalizing bytes parts with
  | zero => cases h
  | succ n ih =>
    unfold parse at h
    split at h
    · rename_i hf
      cases h
      simp [hf]
    · split at h
      · cases h
      · rename_i data rest hd
        split at h
        · cases h
        · rename_i hne
          obtain ⟨tail, ht, rfl⟩ := Option.map_eq_some_iff.mp h
          obtain ⟨hrest, htail⟩ := ih ht
          obtain ⟨p, rfl, hp, hlen⟩ := deserialize_split hd
          have hp' : (p ++ rest).take ((p ++ rest).length - rest.length) = p := by
            simp
          rw [hp']
          refine ⟨?_, ?_⟩
          · conv_lhs => rw [hrest]
            simp
          · intro q hq
            rcases List.mem_cons.mp hq with rfl | hq
            · exact ⟨hne, hp, hlen⟩
            · exact htail q hq

theorem flatten_le {parts : List (Bytes × Bytes)} (h : ∀ p ∈ parts, p.1.length ≤ p.2.length) :
    (parts.map Prod.fst).flatten.length ≤ (parts.map Prod.snd).flatten.length := by
  induction parts with
  | nil => simp
  | cons p parts ih =>
    have hp := h p (by simp)
    have ht := ih (fun q hq => h q (by simp [hq]))
    simp only [List.map_cons, List.flatten_cons, List.length_append]
    omega

theorem length_le_flatten {ps : List Bytes} (h : ∀ p ∈ ps, p ≠ []) :
    ps.length ≤ ps.flatten.length := by
  induction ps with
  | nil => simp
  | cons p ps ih =>
    have hp : 0 < p.length := List.length_pos_iff.mpr (h p (by simp))
    have ht := ih (fun q hq => h q (by simp [hq]))
    simp only [List.length_cons, List.flatten_cons, List.length_append]
    omega

theorem toNat_ofNat_map {l : List ℕ} (h : ∀ x ∈ l, x < 2 ^ 32) :
    (l.map UInt32.ofNat).map UInt32.toNat = l := by
  rw [List.map_map]
  conv_rhs => rw [← List.map_id l]
  apply List.map_congr_left
  intro x hx
  exact UInt32.toNat_ofNat_of_lt' (h x hx)

theorem increasing_ofNat {l : List ℕ} (h : ∀ x ∈ l, x < 2 ^ 32)
    (hp : (0 :: l).Pairwise (· < ·)) : (0 :: l.map UInt32.ofNat).Pairwise (· < ·) := by
  have hm : (0 :: l.map UInt32.ofNat).map UInt32.toNat = 0 :: l := by
    rw [List.map_cons, toNat_ofNat_map h]
    rfl
  rw [← hm] at hp
  exact (List.pairwise_map.mp hp).imp UInt32.lt_iff_toNat_lt.mpr

theorem validate_some {bytes : Bytes} {hash : PlainHash} {info : XorbObjectInfoV1 PlainHash}
    (h : plain.validateXorbObject bytes hash = .ok (some info)) :
    ∃ parts n, parse n bytes = some parts ∧ parts ≠ [] ∧ bytes.length < 2 ^ 32 ∧
      join (parts.map (fun p => dataHash p.1)) = hash ∧ info = infoOf parts := by
  change validateXorbObject bytes hash = _ at h
  unfold validateXorbObject at h
  split at h
  · cases h
  · rename_i parts hp
    split at h
    · rename_i hc
      cases h
      exact ⟨parts, _, hp, hc.1, hc.2.1, hc.2.2, rfl⟩
    · cases h

theorem infoOf_bounds {n : ℕ} {bytes : Bytes} {parts : List (Bytes × Bytes)}
    (hp : parse n bytes = some parts) (hlen : bytes.length < 2 ^ 32) :
    parts.length < 2 ^ 32 ∧ (∀ x ∈ Pieces.ends (parts.map Prod.snd), x < 2 ^ 32) ∧
      ∀ x ∈ Pieces.ends (parts.map Prod.fst), x < 2 ^ 32 := by
  obtain ⟨hb, hne⟩ := parse_spec hp
  have hflat : (parts.map Prod.snd).flatten.length ≤ bytes.length := by
    rw [hb]
    simp
  have hcount : (parts.map Prod.snd).length ≤ (parts.map Prod.snd).flatten.length := by
    apply length_le_flatten
    intro p hm
    obtain ⟨q, hq, rfl⟩ := List.mem_map.mp hm
    exact (hne q hq).2.1
  have hdata := flatten_le (fun p hm => (hne p hm).2.2)
  rw [List.length_map] at hcount
  refine ⟨by omega, ?_, ?_⟩
  · intro x hx
    have := Pieces.ends_le hx
    omega
  · intro x hx
    have := Pieces.ends_le hx
    omega

theorem infoOf_wellFormed {n : ℕ} {bytes : Bytes} {parts : List (Bytes × Bytes)}
    (hp : parse n bytes = some parts) (hne : parts ≠ []) (hlen : bytes.length < 2 ^ 32) :
    (infoOf parts).WellFormed := by
  obtain ⟨hcount, hsnd, hfst⟩ := infoOf_bounds hp hlen
  have hn : (infoOf parts).numChunks.toNat = parts.length := UInt32.toNat_ofNat_of_lt' hcount
  have hparts := (parse_spec hp).2
  constructor
  · rw [hn]
    exact List.length_pos_iff.mpr hne
  · rw [hn]
    exact List.length_map ..
  · rw [hn]
    simp [infoOf, Pieces.ends]
  · rw [hn]
    simp [infoOf, Pieces.ends]
  · apply increasing_ofNat hsnd
    apply Pieces.endsFrom_increasing
    intro p hm
    obtain ⟨q, hq, rfl⟩ := List.mem_map.mp hm
    exact (hparts q hq).2.1
  · apply increasing_ofNat hfst
    apply Pieces.endsFrom_increasing
    intro p hm
    obtain ⟨q, hq, rfl⟩ := List.mem_map.mp hm
    exact (hparts q hq).1

theorem plain_gate : plain.GateLaws where
  well_formed := by
    rintro xorb info ⟨bytes, h⟩
    obtain ⟨parts, n, hp, hne, hlen, _, rfl⟩ := validate_some h
    exact infoOf_wellFormed hp hne hlen
  one_list := by
    rintro xorb info info' ⟨bytes, h⟩ ⟨bytes', h'⟩
    obtain ⟨parts, _, _, _, _, he, rfl⟩ := validate_some h
    obtain ⟨parts', _, _, _, _, he', rfl⟩ := validate_some h'
    have hh : parts.map (fun p => dataHash p.1) = parts'.map (fun p => dataHash p.1) :=
      join_injective (he.trans he'.symm)
    have hdata : parts.map Prod.fst = parts'.map Prod.fst := by
      apply List.map_injective_iff.mpr dataHash_injective
      simpa [List.map_map, Function.comp_def] using hh
    exact ⟨hh, by simp [infoOf, hdata]⟩

theorem deserialize_piece (c : Chunk PlainHash) (hc : c.data.length < 256) (rest : Bytes) :
    deserializeChunk (piece c ++ rest) = .ok (c.data, rest) := by
  have hn : (UInt8.ofNat c.data.length).toNat = c.data.length := UInt8.toNat_ofNat_of_lt' hc
  simp [piece, deserializeChunk, Nat.mod_eq_of_lt hc]

theorem parse_body {n : ℕ} {group : List (Chunk PlainHash)}
    (hg : ∀ c ∈ group, c.data ≠ [] ∧ c.data.length < 256) (hn : group.length < n) :
    parse n (body group) = some (group.map (fun c => (c.data, piece c))) := by
  induction group generalizing n with
  | nil =>
    cases n with
    | zero => omega
    | succ n => simp [parse, body]
  | cons c group ih =>
    cases n with
    | zero => omega
    | succ n =>
      obtain ⟨hne, hlen⟩ := hg c (by simp)
      have hb : body (c :: group) = piece c ++ body group := by simp [body]
      have hfoot : piece c ++ body group ≠ footer := by simp [piece, footer]
      have ht := ih (fun d hd => hg d (by simp [hd])) (n := n) (by simpa using hn)
      rw [hb, parse, if_neg hfoot, deserialize_piece c hlen]
      simp [hne, ht]

theorem plain_pipeline : plain.PipelineLaws where
  concat b := by
    change ((nextBlock b).map Chunk.data).flatten = b
    simp only [nextBlock, List.map_map, Function.comp_def]
    induction b with
    | nil => rfl
    | cons x b ih => simp [ih]
  chunk_hash b c hc := by
    obtain ⟨x, _, rfl⟩ := List.mem_map.mp hc
    rfl
  data_hash_injective := dataHash_injective
  file_hash_injective := fileHash_injective
  serialized b group ser hg hne hser := by
    have hbytes : ∀ c ∈ group, c.hash = dataHash c.data ∧ c.data ≠ [] ∧ c.data.length < 256 := by
      intro c hc
      obtain ⟨x, _, rfl⟩ := List.mem_map.mp (hg.subset hc)
      simp
    obtain ⟨hlen, hs⟩ : (body group).length < 2 ^ 32 ∧
        ser = ⟨join (group.map Chunk.hash), body group⟩ := by
      change fromXorb group = _ at hser
      unfold fromXorb at hser
      split at hser
      · rename_i hlen
        cases hser
        exact ⟨hlen, rfl⟩
      · cases hser
    subst hs
    have hfuel : group.length < (body group).length + 1 := by
      have : (group.map piece).length ≤ (group.map piece).flatten.length :=
        length_le_flatten (by simp [piece])
      simp only [body, List.length_append, List.length_map] at *
      omega
    have hp := parse_body (fun c hc => (hbytes c hc).2) hfuel
    have hhash : group.map (fun c => dataHash c.data) = group.map Chunk.hash :=
      List.map_congr_left (fun c hc => (hbytes c hc).1.symm)
    obtain ⟨_, hsnd, hfst⟩ := infoOf_bounds hp hlen
    refine ⟨infoOf (group.map (fun c => (c.data, piece c))), group.map piece, footer, ?_, ?_⟩
    · change validateXorbObject (body group) _ = _
      simp only [validateXorbObject, hp]
      rw [if_pos ⟨by simpa using hne, hlen, by simp [Function.comp_def, hhash]⟩]
    · refine ⟨rfl, ?_, ?_, ?_, ?_⟩
      · refine List.forall₂_map_right_iff.mpr (List.forall₂_same.mpr ?_)
        intro c hc
        exact ⟨by simp [piece], deserialize_piece c (hbytes c hc).2.2⟩
      · simp [infoOf, Function.comp_def, hhash]
      · have he := toNat_ofNat_map hsnd
        simpa only [infoOf, List.map_map, Function.comp_def] using he
      · have he := toNat_ofNat_map hfst
        simpa only [infoOf, List.map_map, Function.comp_def] using he

end Dejaveph.Plain
