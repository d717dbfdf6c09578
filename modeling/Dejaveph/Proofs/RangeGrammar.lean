import Dejaveph.Proofs.ServedRanges

namespace Dejaveph.Proofs.RangeGrammar
open Lib Server ServedRanges

/-- The header asks for the bytes from one position on, up to another one or to the
end. -/
inductive Asks (h : HeaderValue) : ℕ → Option ℕ → Prop
  | upTo {a b : List Char} {first last : ℕ}
      (text : h.toStr = some ("bytes=".toList ++ (a ++ '-' :: b)))
      (start : Text.IsU64 a first) (stop : Text.IsU64 b last) : Asks h first (some last)
  | onward {a : List Char} {first : ℕ} (text : h.toStr = some ("bytes=".toList ++ (a ++ ['-'])))
      (start : Text.IsU64 a first) : Asks h first none

/-- The positions of the first and the last byte that a request gets, of so many. -/
inductive Within (len : ℕ) : Option HeaderValue → ℕ → ℕ → Prop
  | whole : Within len none 0 (len - 1)
  | upTo {h : HeaderValue} {first last : ℕ} (asks : Asks h first (some last)) (lt : first < len)
      (le : first ≤ last) : Within len (some h) first (min last (len - 1))
  | onward {h : HeaderValue} {first : ℕ} (asks : Asks h first none) (lt : first < len) :
      Within len (some h) first (len - 1)

section
variable {h : HeaderValue} {range : Option HeaderValue} {len first last : ℕ}

theorem Within.bounds (hpos : 0 < len) (h : Within len range first last) :
    first ≤ last ∧ last < len := by
  cases h <;> omega

/-- The parser accepts the grammar, and nothing else. -/
theorem parseRange_iff (hpos : 0 < len) :
    parseRange range len = some (first, last) ↔ Within len range first last := by
  cases range with
  | none =>
    constructor
    · intro hp
      cases hp
      exact .whole
    · intro hw
      cases hw
      rfl
  | some h =>
    constructor
    · intro hp
      simp only [parseRange, Option.bind_eq_bind, Option.bind_eq_some_iff] at hp
      obtain ⟨text, htext, spec, hspec, ⟨a, b⟩, hsplit, start, hstart, hp⟩ := hp
      obtain rfl := Text.stripPrefix_eq_some.mp hspec
      obtain ⟨rfl, _⟩ := Text.splitOnce_eq_some.mp hsplit
      have ha := Text.parseU64_eq_some.mp hstart
      split at hp
      · rename_i hb
        obtain rfl : b = [] := hb
        rw [Option.bind_some] at hp
        split at hp
        · cases hp
        · rename_i hin
          rw [Nat.min_self] at hp
          cases hp
          exact .onward (.onward htext ha) (by omega)
      · obtain ⟨stop, hstop, hp⟩ := Option.bind_eq_some_iff.mp hp
        split at hp
        · cases hp
        · rename_i hin
          cases hp
          exact .upTo (.upTo htext ha (Text.parseU64_eq_some.mp hstop)) (by omega) (by omega)
    · intro hw
      cases hw with
      | upTo asks lt le =>
        cases asks with
        | @upTo a b _ _ text start stop =>
          have hsplit := Text.splitOnce_append b start.no_dash
          simp only [parseRange, text, Text.stripPrefix_append, hsplit, stop.ne_nil,
            Text.parseU64_eq_some.mpr start, Text.parseU64_eq_some.mpr stop,
            Option.bind_eq_bind, Option.bind_some, ↓reduceIte]
          rw [if_neg (by omega)]
      | onward asks lt =>
        cases asks with
        | @onward a _ text start =>
          have hsplit := Text.splitOnce_append [] start.no_dash
          simp only [parseRange, text, Text.stripPrefix_append, hsplit,
            Text.parseU64_eq_some.mpr start, Option.bind_eq_bind, Option.bind_some, ↓reduceIte,
            Nat.min_self]
          rw [if_neg (by omega)]

end

section
variable {Hash : Type} [DecidableEq Hash] {core : XetCore Hash} {x : Hash} {hashHex : String}
  {data : Bytes}

theorem readRange_within {first last : ℕ} (hle : first ≤ last) (hlt : last < data.length)
    (hlen : data.length < 2 ^ 64) :
    readRange data first last = some (Pieces.slice data first (last + 1)) := by
  rw [readRange, if_neg (by omega)]
  simp only [Nat.min_eq_left (Nat.le_trans hle hlt.le), Nat.min_eq_left (Nat.succ_le_of_lt hlt),
    Nat.max_eq_left (Nat.le_succ_of_le hle)]

theorem respond_unsatisfiable {publicBase : String} {app : AppState Hash (LocalFs Hash)}
    {range : Option HeaderValue} (hx : core.fromHex hashHex = some x)
    (hdata : app.blob.files.lookup x = some data) (hparse : parseRange range data.length = none) :
    respond core (localFs core publicBase) app (.xorbData hashHex range) =
      some (app, .xorbData (.error ⟨.rangeNotSatisfiable, ""⟩)) := by
  simp [respond, start, hx, runAlone, advance, localFs, LocalFs.head, hdata, hparse]

end

/-- A stored xorb is served by ranges: to a request in the grammar exactly the bytes it
asks for, to any other one none. -/
theorem xorb_data_ranges {Hash : Type} [DecidableEq Hash] (core : XetCore Hash)
    (publicBase : String) (app : AppState Hash (LocalFs Hash)) (x : Hash) (hashHex : String)
    (hx : core.fromHex hashHex = some x) (data : Bytes)
    (hdata : app.blob.files.lookup x = some data) (hne : data ≠ []) (hlen : data.length < 2 ^ 64)
    (range : Option HeaderValue) :
    (∀ first last, Within data.length range first last → ∃ content,
      respond core (localFs core publicBase) app (.xorbData hashHex range) =
        some (app, .xorbData (.ok content)) ∧
      content.headers.lookup "Content-Range" = some ("bytes " ++ toString first ++ "-" ++
        toString last ++ "/" ++ toString data.length) ∧
      first ≤ last ∧ last < data.length ∧
      content.body = Pieces.slice data first (last + 1)) ∧
    (range = none → Within data.length range 0 (data.length - 1) ∧
      Pieces.slice data 0 (data.length - 1 + 1) = data) ∧
    ((¬ ∃ first last, Within data.length range first last) →
      respond core (localFs core publicBase) app (.xorbData hashHex range) =
        some (app, .xorbData (.error ⟨.rangeNotSatisfiable, ""⟩))) := by
  have hpos : 0 < data.length := List.length_pos_iff.mpr hne
  refine ⟨?_, ?_, ?_⟩
  · intro first last hw
    obtain ⟨hle, hlt⟩ := hw.bounds hpos
    exact ⟨_, respond_xorbData hx hdata ((parseRange_iff hpos).mpr hw)
      (readRange_within hle hlt hlen), rfl, hle, hlt, rfl⟩
  · rintro rfl
    refine ⟨.whole, ?_⟩
    rw [Nat.sub_add_cancel hpos, Pieces.slice_zero]
  · intro hno
    apply respond_unsatisfiable hx hdata
    rw [Option.eq_none_iff_forall_ne_some]
    intro p hp
    exact hno ⟨p.1, p.2, (parseRange_iff hpos).mp hp⟩

/-- A stored xorb of seven bytes. -/
def sevenBytes : AppState Plain.PlainHash (LocalFs Plain.PlainHash) :=
  { blob := { files := (∅ : Table _ _).insert [1] [10, 11, 12, 13, 14, 15, 16] } }

/-- The last byte is served although the range ends far beyond it. -/
theorem xorb_data_ranges_last : ∃ content,
    respond Plain.plain (localFs Plain.plain "") sevenBytes (.xorbData (Plain.hex [1])
      (some (rangeHeader 6 (2 ^ 64 - 1)))) = some (sevenBytes, .xorbData (.ok content)) ∧
    content.body = [16] := by
  have hasks : Asks (rangeHeader 6 (2 ^ 64 - 1)) 6 (some (2 ^ 64 - 1)) :=
    .upTo (a := ['6']) (b := Text.numeral (2 ^ 64 - 1)) (by decide)
      (Text.parseU64_eq_some.mp (by decide)) (Text.parseU64_eq_some.mp (by decide))
  obtain ⟨content, hr, _, _, _, hbody⟩ := (xorb_data_ranges Plain.plain "" sevenBytes [1]
    (Plain.hex [1]) (Plain.plain_hex.from_hex [1]) [10, 11, 12, 13, 14, 15, 16] (by decide)
    (by decide) (by decide) (some (rangeHeader 6 (2 ^ 64 - 1)))).1 6 6
    (.upTo hasks (by decide) (by decide))
  exact ⟨content, hr, hbody.trans (by decide)⟩

end Dejaveph.Proofs.RangeGrammar
