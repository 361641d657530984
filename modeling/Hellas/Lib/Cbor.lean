import Hellas.Lib.Words
import Mathlib.Data.List.Basic

-- Canonical CBOR as composable items: what an item writes in front of any suffix it reads back,
-- and a canonical reader accepts nothing but what the item writes.

namespace Cbor

open Words

structure Item (α : Type) where
  fits : α → Prop
  put : α → List UInt8
  take : List UInt8 → Option (α × List UInt8)
  reads : ∀ value rest, fits value → take (put value ++ rest) = some (value, rest)

-- The major type and a length or value, in the fewest bytes that hold it.
def header (major value : Nat) : List UInt8 :=
  if value < 24 then [UInt8.ofNat (major * 32 + value)]
  else if value < 2^8 then UInt8.ofNat (major * 32 + 24) :: bigEndian 1 value
  else if value < 2^16 then UInt8.ofNat (major * 32 + 25) :: bigEndian 2 value
  else if value < 2^32 then UInt8.ofNat (major * 32 + 26) :: bigEndian 4 value
  else UInt8.ofNat (major * 32 + 27) :: bigEndian 8 value

def readWord (width : Nat) (bytes : List UInt8) : Option (Nat × List UInt8) :=
  if bytes.length < width then none
  else some (fromBigEndian (bytes.take width), bytes.drop width)

def readHeader (major : Nat) : List UInt8 → Option (Nat × List UInt8)
  | [] => none
  | first :: rest =>
    let additional := first.toNat - major * 32
    if first.toNat / 32 ≠ major then none
    else if additional < 24 then some (additional, rest)
    else if additional = 24 then readWord 1 rest
    else if additional = 25 then readWord 2 rest
    else if additional = 26 then readWord 4 rest
    else if additional = 27 then readWord 8 rest
    else none

theorem readWord_bigEndian (small : value < 256^width) :
    readWord width (bigEndian width value ++ rest) = some (value, rest) := by
  have size := bigEndian_length width value
  rw [readWord,if_neg (by rw [List.length_append]; omega),List.take_left' size,
    List.drop_left' size,fromBigEndian_bigEndian,Nat.mod_eq_of_lt small]

theorem readHeader_header {major value : Nat} {rest : List UInt8} (known : major < 8)
    (small : value < 2^64) : readHeader major (header major value ++ rest) = some (value, rest) := by
  have first {additional : Nat} (low : additional < 32) :
      (UInt8.ofNat (major * 32 + additional)).toNat = major * 32 + additional := by
    rw [UInt8.toNat_ofNat',Nat.mod_eq_of_lt]
    omega
  have kind {additional : Nat} (low : additional < 32) : (major * 32 + additional) / 32 = major := by
    omega
  unfold header
  split_ifs with tiny byte short word
  · rw [List.cons_append,readHeader,first (by omega),kind (by omega),Nat.add_sub_cancel_left]
    simp [tiny]
  all_goals
    rw [List.cons_append,readHeader,first (by omega),kind (by omega),Nat.add_sub_cancel_left]
    simp only [ne_eq,not_true_eq_false,if_false,Nat.reduceLT,Nat.reduceEqDiff,if_true]
    exact readWord_bigEndian (by omega)

theorem header_length_le : (header major value).length ≤ 9 := by
  unfold header
  split_ifs <;> simp

namespace Item

def uint : Item UInt64 where
  fits _ := True
  put value := header 0 value.toNat
  take buf := (readHeader 0 buf).map fun read => (UInt64.ofNat read.1, read.2)
  reads value rest _ := by
    rw [readHeader_header (by decide) value.toNat_lt]
    simp

def readPayload (major : Nat) (buf : List UInt8) : Option (List UInt8 × List UInt8) := do
  let (length, rest) ← readHeader major buf
  if rest.length < length then none else some (rest.take length, rest.drop length)

theorem readPayload_header {payload : List UInt8} (known : major < 8) (small : payload.length < 2^64) :
    readPayload major (header major payload.length ++ payload ++ rest) = some (payload, rest) := by
  rw [readPayload,List.append_assoc,readHeader_header known small]
  simp

def bytes : Item (List UInt8) where
  fits payload := payload.length < 2^64
  put payload := header 2 payload.length ++ payload
  take := readPayload 2
  reads _ _ small := readPayload_header (by decide) small

def utf8 (text : String) : List UInt8 := text.toByteArray.data.toList

def ofUtf8 (payload : List UInt8) : Option String := String.fromUTF8? payload.toByteArray

theorem ofUtf8_utf8 : ofUtf8 (utf8 text) = some text := by
  have same : (utf8 text).toByteArray = text.toByteArray := by
    apply ByteArray.ext
    apply Array.ext'
    exact List.toList_data_toByteArray
  rw [ofUtf8,same,String.fromUTF8?,dif_pos text.isValidUTF8]
  rfl

def text : Item String where
  fits value := (utf8 value).length < 2^64
  put value := header 3 (utf8 value).length ++ utf8 value
  take buf := do
    let (payload, rest) ← readPayload 3 buf
    let value ← ofUtf8 payload
    pure (value, rest)
  reads value rest small := by
    rw [readPayload_header (by decide) small]
    simp [ofUtf8_utf8]

def pair (left : Item α) (right : Item β) : Item (α × β) where
  fits value := left.fits value.1 ∧ right.fits value.2
  put value := left.put value.1 ++ right.put value.2
  take buf := do
    let (first, rest) ← left.take buf
    let (second, rest) ← right.take rest
    pure ((first, second), rest)
  reads value rest fits := by
    rw [List.append_assoc,left.reads _ _ fits.1]
    simp [right.reads _ _ fits.2]

-- The same bytes for another type: what is read must be one of its values.
def refine (item : Item α) (unpack : β → α) (pack : α → Option β) (inverse : ∀ value, pack (unpack value) = some value) : Item β where
  fits value := item.fits (unpack value)
  put value := item.put (unpack value)
  take buf := do
    let (raw, rest) ← item.take buf
    let value ← pack raw
    pure (value, rest)
  reads value rest fits := by
    rw [item.reads _ _ fits]
    simp [inverse]

-- A known header or key stands in front.
def after (lead : List UInt8) (item : Item α) : Item α where
  fits := item.fits
  put value := lead ++ item.put value
  take buf := if buf.take lead.length = lead then item.take (buf.drop lead.length) else none
  reads value rest fits := by
    rw [List.append_assoc,List.take_left' rfl,List.drop_left' rfl,if_pos rfl]
    exact item.reads value rest fits

def field (key : String) (item : Item α) : Item α := item.after (text.put key)

def takeMany (item : Item α) : Nat → List UInt8 → Option (List α × List UInt8)
  | 0, buf => some ([], buf)
  | count + 1, buf => do
    let (head, rest) ← item.take buf
    let (tail, rest) ← takeMany item count rest
    pure (head :: tail, rest)

theorem takeMany_put {item : Item α} (fits : ∀ value ∈ values, item.fits value) :
    takeMany item values.length (values.flatMap item.put ++ rest) = some (values, rest) := by
  induction values with
  | nil => rfl
  | cons head values ih =>
    rw [List.forall_mem_cons] at fits
    rw [List.flatMap_cons,List.append_assoc,List.length_cons,takeMany,item.reads _ _ fits.1]
    simp [ih fits.2]

def array (item : Item α) : Item (List α) where
  fits values := values.length < 2^64 ∧ ∀ value ∈ values, item.fits value
  put values := header 4 values.length ++ values.flatMap item.put
  take buf := do
    let (count, rest) ← readHeader 4 buf
    takeMany item count rest
  reads values rest fits := by
    rw [List.append_assoc,readHeader_header (by decide) fits.1]
    exact takeMany_put fits.2

def tuple (size : Nat) (item : Item α) : Item α := item.after (header 4 size)

def record (size : Nat) (item : Item α) : Item α := item.after (header 5 size)

variable {item : Item α}

-- Read, write again and compare: one spelling for each value.
def decodeCanonical (item : Item α) (buf : List UInt8) : Option α :=
  match item.take buf with
  | some (value, []) => if item.put value = buf then some value else none
  | _ => none

theorem decodeCanonical_put (fits : item.fits value) : item.decodeCanonical (item.put value) = some value := by
  have read := item.reads value [] fits
  rw [List.append_nil] at read
  rw [decodeCanonical,read]
  exact if_pos rfl

theorem put_cancel (first : item.fits one) (second : item.fits other) (same : item.put one ++ left = item.put other ++ right) :
    one = other ∧ left = right := by
  have read := item.reads one left first
  rw [same,item.reads other right second] at read
  cases read
  exact ⟨rfl,rfl⟩

end Item

end Cbor
