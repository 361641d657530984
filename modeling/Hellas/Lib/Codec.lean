import Hellas.Lib.Guard
import Mathlib.Data.List.Basic

-- Byte codecs read through a cursor. A decoder is exact when it accepts precisely the encodings of
-- its values at the head of the buffer; the `Parses` rules follow a decoder statement by statement.

namespace Codec

-- A decoder returns the value and the number of bytes it consumed from the head of the buffer.
abbrev Decoder (ε α : Type) := List UInt8 → Except ε (α × Nat)

abbrev Cursor (ε : Type) := ReaderT (List UInt8) (StateT Nat (Except ε))

def Exact (valid : α → Prop) (encode : α → List UInt8) (decode : Decoder ε α) : Prop :=
  ∀ buf value used, decode buf = .ok (value, used) ↔ valid value ∧ encode value <+: buf ∧ used = (encode value).length

-- From any position in the buffer, the program accepts value `v` over bytes `r` exactly when
-- `shape v r` and those bytes come next.
def Parses (shape : α → List UInt8 → Prop) (program : Cursor ε α) : Prop :=
  ∀ buf before, before <+: buf → ∀ value used, program buf before.length = .ok (value, used) ↔
    ∃ bytes, shape value bytes ∧ before ++ bytes <+: buf ∧ used = (before ++ bytes).length

theorem parses_pure {value : α} : Parses (fun v r => v = value ∧ r = []) (pure value : Cursor ε α) := by
  intro buf before here result used
  have run : (pure value : Cursor ε α) buf before.length = .ok (value, before.length) := rfl
  rw [run]
  constructor
  · rintro ⟨⟩
    exact ⟨[],⟨rfl,rfl⟩,by simpa using here,by simp⟩
  · rintro ⟨bytes,⟨rfl,rfl⟩,-,rfl⟩
    simp

theorem parses_throw : Parses (fun (_ : α) _ => False) (throw error : Cursor ε α) := by
  intro buf before here value used
  have run : (throw error : Cursor ε α) buf before.length = .error error := rfl
  rw [run]
  simp

-- A check on what has been read; no bytes move.
def checked (run : Except ε α) : Cursor ε α := fun _ consumed => run.map fun value => (value, consumed)

theorem parses_checked {run : Except ε α} : Parses (fun v r => run = .ok v ∧ r = []) (checked run) := by
  intro buf before here value used
  unfold checked
  cases run with
  | error failure => simp [Except.map]
  | ok item =>
    simp only [Except.map,Except.ok.injEq,Prod.mk.injEq]
    constructor
    · rintro ⟨rfl,rfl⟩
      exact ⟨[],⟨rfl,rfl⟩,by simpa using here,by simp⟩
    · rintro ⟨bytes,⟨rfl,rfl⟩,-,rfl⟩
      simp

variable {shape : α → List UInt8 → Prop} {later : α → β → List UInt8 → Prop} {program : Cursor ε α}
  {next : α → Cursor ε β} {valid : α → Prop} {encode : α → List UInt8} {decode : Decoder ε α}

theorem parses_bind (head : Parses shape program) (tail : ∀ a, Parses (later a) (next a)) :
    Parses (fun v r => ∃ a s t, shape a s ∧ later a v t ∧ r = s ++ t) (program >>= next) := by
  intro buf before here value used
  have run : (program >>= next) buf before.length = (program buf before.length >>= fun done => next done.1 buf done.2) := rfl
  rw [run,Guard.bind_ok]
  constructor
  · rintro ⟨⟨a,middle⟩,first,second⟩
    obtain ⟨s,shaped,inside,rfl⟩ := (head buf before here a middle).mp first
    obtain ⟨t,rest,whole,rfl⟩ := (tail a buf (before ++ s) inside value used).mp second
    exact ⟨s ++ t,⟨a,s,t,shaped,rest,rfl⟩,by simpa using whole,by simp⟩
  · rintro ⟨bytes,⟨a,s,t,shaped,rest,rfl⟩,whole,rfl⟩
    rw [← List.append_assoc] at whole ⊢
    have inside : before ++ s <+: buf := (List.prefix_append _ t).trans whole
    exact ⟨(a, (before ++ s).length),(head buf before here a _).mpr ⟨s,shaped,inside,rfl⟩,
      (tail a buf (before ++ s) inside value _).mpr ⟨t,rest,whole,rfl⟩⟩

theorem parses_ite [Decidable condition] {yes no : α → List UInt8 → Prop} (taken : Parses yes left) (skipped : Parses no right) :
    Parses (fun v r => if condition then yes v r else no v r) (if condition then left else right) := by
  split
  · exact taken
  · exact skipped

theorem parses_dite [Decidable condition] {yes : condition → α → List UInt8 → Prop}
    {no : ¬condition → α → List UInt8 → Prop} {left : condition → Cursor ε α} {right : ¬condition → Cursor ε α}
    (taken : ∀ h, Parses (yes h) (left h)) (skipped : ∀ h, Parses (no h) (right h)) :
    Parses (fun v r => if h : condition then yes h v r else no h v r) (if h : condition then left h else right h) := by
  split
  · exact taken _
  · exact skipped _

theorem parses_congr {other : α → List UInt8 → Prop} (parsed : Parses shape program) (same : ∀ v r, shape v r ↔ other v r) :
    Parses other program := by
  intro buf before here value used
  rw [parsed buf before here]
  simp only [same]

theorem parses_nested (precise : Exact valid encode decode) (runs : ∀ buf before value used, before <+: buf →
      (program buf before.length = .ok (value, used) ↔ ∃ inner, decode (buf.drop before.length) = .ok (value, inner) ∧
          inner ≤ (buf.drop before.length).length ∧ used = before.length + inner)) :
    Parses (fun v r => valid v ∧ r = encode v) program := by
  intro buf before here value used
  obtain ⟨rest,rfl⟩ := here
  rw [runs _ _ _ _ (List.prefix_append before rest),List.drop_left]
  constructor
  · rintro ⟨inner,decoded,fits,rfl⟩
    obtain ⟨good,found,rfl⟩ := (precise _ _ _).mp decoded
    exact ⟨encode value,⟨good,rfl⟩,(List.prefix_append_right_inj before).mpr found,by simp⟩
  · rintro ⟨bytes,⟨good,rfl⟩,found,rfl⟩
    have found := (List.prefix_append_right_inj before).mp found
    exact ⟨(encode value).length,(precise _ _ _).mpr ⟨good,found,rfl⟩,found.length_le,by simp⟩

theorem parses_exact (parsed : Parses (fun v r => valid v ∧ r = encode v) program) :
    Exact valid encode (fun buf => program buf 0) := by
  intro buf value used
  have start := parsed buf [] (List.nil_prefix) value used
  simp only [List.length_nil,List.nil_append] at start
  rw [start]
  constructor
  · rintro ⟨bytes,⟨good,rfl⟩,found,rfl⟩
    exact ⟨good,found,rfl⟩
  · rintro ⟨good,found,rfl⟩
    exact ⟨encode value,⟨good,rfl⟩,found,rfl⟩

theorem exact_then {good : β → Prop} {whole : β → List UInt8} (head : Exact valid encode decode) (tail : ∀ a, Parses (later a) (next a))
    (same : ∀ v r, (∃ a t, valid a ∧ later a v t ∧ r = encode a ++ t) ↔ good v ∧ r = whole v) :
    Exact good whole (fun buf => decode buf >>= fun done => next done.1 buf done.2) := by
  intro buf value used
  rw [Guard.bind_ok]
  constructor
  · rintro ⟨⟨a,middle⟩,first,second⟩
    obtain ⟨fine,found,rfl⟩ := (head _ _ _).mp first
    obtain ⟨t,rest,inside,rfl⟩ := (tail a buf (encode a) found value used).mp second
    obtain ⟨accepted,bytes⟩ := (same value _).mp ⟨a,t,fine,rest,rfl⟩
    exact ⟨accepted,bytes ▸ inside,by rw [bytes]⟩
  · rintro ⟨accepted,found,rfl⟩
    obtain ⟨a,t,fine,rest,bytes⟩ := (same value _).mpr ⟨accepted,rfl⟩
    rw [bytes] at found ⊢
    have start : encode a <+: buf := (List.prefix_append _ t).trans found
    exact ⟨(a, (encode a).length),(head _ _ _).mpr ⟨fine,start,rfl⟩,(tail a buf (encode a) start value _).mpr ⟨t,rest,found,rfl⟩⟩

theorem Exact.roundtrip {valid : α → Prop} {encode : α → List UInt8} {decode : Decoder ε α}
    (precise : Exact valid encode decode) (good : valid value) (rest : List UInt8) :
    decode (encode value ++ rest) = .ok (value, (encode value).length) :=
  (precise _ _ _).mpr ⟨good,List.prefix_append _ _,rfl⟩

theorem Exact.consumed (precise : Exact valid encode decode) (decoded : decode buf = .ok (value, used)) :
    used ≤ buf.length := by
  obtain ⟨-,found,rfl⟩ := (precise _ _ _).mp decoded
  exact found.length_le

theorem Exact.whole (precise : Exact valid encode decode) (decoded : decode buf = .ok (value, buf.length)) :
    valid value ∧ encode value = buf := by
  obtain ⟨good,found,length⟩ := (precise _ _ _).mp decoded
  exact ⟨good,found.eq_of_length length.symm⟩

theorem Exact.cancel (precise : Exact valid encode decode) (first : valid a) (second : valid b)
    (same : encode a ++ x = encode b ++ y) : a = b ∧ x = y := by
  have left := precise.roundtrip first x
  have right := precise.roundtrip second y
  rw [same,right] at left
  cases left
  exact ⟨rfl,List.append_cancel_left same⟩

end Codec
