import Mathlib.Tactic.IntervalCases
import TdUtils.Lib.Bits
import TdUtils.Lib.LittleEndian

/-!
# Tl.TlStorers — the storer that counts bytes and the storer that writes them

Both storers have the interface `Storer`, so that one `store` per type serves both, as the templates
of the source do.  `stringEncoding` says what the bytes of a string are; the counting storer adds
its length, and the writing storer writes it.  A write past the end of the buffer and
`LOG(FATAL)` are `none`.
-/

namespace TdUtils.Tl

open Lib LittleEndian

/-- The operations of a storer that `store` uses; `store_binary<T>` gets the `sizeof(T)` bytes of its
argument. -/
structure Storer (σ : Type) where
  storeBinary : List UInt8 → σ → Option σ
  storeString : List UInt8 → σ → Option σ

/-! ### The encoding of a string -/

/-- The bytes in front of the data of a string. -/
def stringHeader (len : ℕ) : List UInt8 :=
  if len < 254 then toLE 1 len
  else if len < 2 ^ 24 then 254 :: toLE 3 len
  else 255 :: toLE 7 len

/-- Zeros up to the next multiple of four. -/
def padTo4 (n : ℕ) : List UInt8 := List.replicate ((4 - n % 4) % 4) 0

/-- Header, data, and zeros up to a multiple of four. -/
def stringEncoding (str : List UInt8) : List UInt8 :=
  stringHeader str.length ++ str ++ padTo4 ((stringHeader str.length).length + str.length)

theorem length_stringHeader (len : ℕ) : (stringHeader len).length =
    if len < 254 then 1 else if len < 2 ^ 24 then 4 else 8 := by
  unfold stringHeader
  split_ifs <;> simp

@[simp] theorem length_padTo4 (n : ℕ) : (padTo4 n).length = (4 - n % 4) % 4 := by
  simp [padTo4]

theorem length_stringEncoding (str : List UInt8) : (stringEncoding str).length =
    ((stringHeader str.length).length + str.length + 3) / 4 * 4 := by
  simp only [stringEncoding, List.length_append, length_padTo4]
  omega

theorem four_le_length_stringEncoding (str : List UInt8) : 4 ≤ (stringEncoding str).length := by
  have h : 1 ≤ (stringHeader str.length).length := by
    rw [length_stringHeader]
    split_ifs <;> omega
  rw [length_stringEncoding]
  omega

/-! ### TlStorerCalcLength -/

namespace TlStorerCalcLength

def storeBinary (x : List UInt8) (length : ℕ) : Option ℕ := some (length + x.length)

/-- `-4` as a `size_t`. -/
def minusFour : ℕ := 2 ^ 64 - 4

def storeString (str : List UInt8) (length : ℕ) : Option ℕ :=
  let add := str.length
  let add :=
    if add < 254 then add + 1
    else if add < 1 <<< 24 then add + 4
    else add + 8
  let add := (add + 3) &&& minusFour
  some (length + add)

def storer : Storer ℕ := ⟨storeBinary, storeString⟩

theorem and_minusFour {n : ℕ} (h : n < 2 ^ 64) : n &&& minusFour = n / 4 * 4 := by
  have hm : minusFour = (2 ^ 62 - 1) * 2 ^ 2 := by decide
  rw [hm, Bits.and_mask, Nat.mod_eq_of_lt (by omega)]
  rfl

theorem storeString_eq {str : List UInt8} (h : str.length < 2 ^ 32) (length : ℕ) :
    storeString str length = some (length + (stringEncoding str).length) := by
  rw [length_stringEncoding, length_stringHeader]
  simp only [storeString, show (1 : ℕ) <<< 24 = 2 ^ 24 from rfl]
  split_ifs
  · rw [and_minusFour (by omega), Nat.add_comm 1]
  · rw [and_minusFour (by omega), Nat.add_comm 4]
  · rw [and_minusFour (by omega), Nat.add_comm 8]

end TlStorerCalcLength

/-! ### TlStorerUnsafe -/

/-- The writing storer: the room of its buffer and the bytes written so far. -/
structure TlStorerUnsafe where
  size : ℕ
  written : List UInt8
  deriving DecidableEq, Repr

namespace TlStorerUnsafe

/-- `*buf_++ = b` for every byte, or the `memcpy` of all of them. -/
def put (bytes : List UInt8) (s : TlStorerUnsafe) : Option TlStorerUnsafe :=
  if s.written.length + bytes.length ≤ s.size then
    some { s with written := s.written ++ bytes }
  else none

def storeBinary (x : List UInt8) (s : TlStorerUnsafe) : Option TlStorerUnsafe := s.put x

/-- The bytes of the header, and `len` as it is behind the header: the short form has counted its
byte in. -/
def header (len : ℕ) : Option (List UInt8 × ℕ) :=
  if len < 254 then some ([UInt8.ofNat len], len + 1)
  else if len < 1 <<< 24 then
    some ([254, UInt8.ofNat (len &&& 255), UInt8.ofNat ((len >>> 8) &&& 255),
      UInt8.ofNat (len >>> 16)], len)
  else if len < 1 <<< 32 then
    some ([255, UInt8.ofNat (len &&& 255), UInt8.ofNat ((len >>> 8) &&& 255),
      UInt8.ofNat ((len >>> 16) &&& 255), UInt8.ofNat ((len >>> 24) &&& 255), 0, 0, 0], len)
  else none  -- LOG(FATAL)

/-- `switch (len & 3)`, whose cases fall through. -/
def padding (len : ℕ) : List UInt8 :=
  match len &&& 3 with
  | 1 => [0, 0, 0]
  | 2 => [0, 0]
  | 3 => [0]
  | _ => []

def storeString (str : List UInt8) (s : TlStorerUnsafe) : Option TlStorerUnsafe := do
  let (bytes, len) ← header str.length
  let s ← s.put bytes
  let s ← s.put str
  s.put (padding len)

def storer : Storer TlStorerUnsafe := ⟨storeBinary, storeString⟩

theorem put_eq {size : ℕ} {written bytes : List UInt8}
    (h : (written ++ bytes).length ≤ size) :
    put bytes ⟨size, written⟩ = some ⟨size, written ++ bytes⟩ := by
  rw [List.length_append] at h
  simp [put, h]

theorem and_255 (n : ℕ) : n &&& 255 = n % 256 := Bits.and_low n 8

theorem padding_eq (len : ℕ) : padding len = padTo4 len := by
  have hand : len &&& 3 = len % 4 := Bits.and_low len 2
  have hlt : len % 4 < 4 := Nat.mod_lt _ (by omega)
  simp only [padding, padTo4, hand]
  generalize len % 4 = r at hlt ⊢
  interval_cases r <;> rfl

/-- The header of the code is the one of the encoding, with a `len` that pads it the same way. -/
theorem header_eq {len : ℕ} (h : len < 2 ^ 32) :
    ∃ len', header len = some (stringHeader len, len') ∧
      padTo4 len' = padTo4 ((stringHeader len).length + len) := by
  rw [length_stringHeader]
  unfold header stringHeader
  rw [show (1 : ℕ) <<< 24 = 2 ^ 24 from rfl, show (1 : ℕ) <<< 32 = 2 ^ 32 from rfl]
  simp only [and_255, Nat.shiftRight_eq_div_pow]
  rcases Nat.lt_or_ge len 254 with h1 | h1
  · rw [if_pos h1, if_pos h1, if_pos h1]
    exact ⟨len + 1, by simp [toLE, show len % 256 = len by omega], by rw [Nat.add_comm]⟩
  · have hn1 : ¬ len < 254 := by omega
    rw [if_neg hn1, if_neg hn1, if_neg hn1]
    rcases Nat.lt_or_ge len (2 ^ 24) with h2 | h2
    · have h3 : len / 256 / 256 % 256 = len / 2 ^ 16 := by omega
      rw [if_pos h2, if_pos h2, if_pos h2]
      exact ⟨len, by simp [toLE, h3], by unfold padTo4; congr 2; omega⟩
    · have hn2 : ¬ len < 2 ^ 24 := by omega
      have h3 : len / 256 / 256 % 256 = len / 2 ^ 16 % 256 := by omega
      have h4 : len / 256 / 256 / 256 % 256 = len / 2 ^ 24 % 256 := by omega
      have h5 : len / 256 / 256 / 256 / 256 = 0 := by omega
      rw [if_neg hn2, if_neg hn2, if_neg hn2, if_pos h]
      exact ⟨len, by simp [toLE, h3, h4, h5], by unfold padTo4; congr 2; omega⟩

theorem storeString_eq {str written : List UInt8} {size : ℕ} (h : str.length < 2 ^ 32)
    (hsize : (written ++ stringEncoding str).length ≤ size) :
    storeString str ⟨size, written⟩ = some ⟨size, written ++ stringEncoding str⟩ := by
  obtain ⟨len, hh, hpad⟩ := header_eq h
  unfold stringEncoding at hsize ⊢
  simp only [← List.append_assoc] at hsize ⊢
  have h2 := hsize
  rw [List.length_append] at h2
  have h1 := h2
  rw [List.length_append] at h1
  unfold storeString
  simp only [hh, Option.bind_eq_bind, Option.bind_some, padding_eq, hpad]
  rw [put_eq (by omega), Option.bind_some, put_eq (by omega), Option.bind_some, put_eq hsize]

end TlStorerUnsafe

end TdUtils.Tl
