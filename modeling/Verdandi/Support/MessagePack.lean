import Mathlib

/-! Strings and arrays in MessagePack: a header that is as short as the length allows, then what it
counts.
-/

namespace Support.MessagePack

def word16 (number : Nat) : List UInt8 :=
  [UInt8.ofNat (number / 256), UInt8.ofNat number]

def word32 (number : Nat) : List UInt8 :=
  [UInt8.ofNat (number / 16777216), UInt8.ofNat (number / 65536), UInt8.ofNat (number / 256),
    UInt8.ofNat number]

def textHeader (length : Nat) : List UInt8 :=
  if length < 32 then [UInt8.ofNat (160 + length)]
  else if length < 256 then [217, UInt8.ofNat length]
  else if length < 65536 then 218 :: word16 length
  else 219 :: word32 length

def text (bytes : List UInt8) : List UInt8 := textHeader bytes.length ++ bytes

def arrayHeader (count : Nat) : List UInt8 :=
  if count < 16 then [UInt8.ofNat (144 + count)]
  else if count < 65536 then 220 :: word16 count
  else 221 :: word32 count

def array (items : List (List UInt8)) : List UInt8 := arrayHeader items.length ++ items.flatten

theorem length_textHeader_le (length : Nat) : (textHeader length).length ≤ 5 := by
  rw [textHeader]
  split_ifs <;> simp [word16, word32]

theorem length_arrayHeader_le (count : Nat) : (arrayHeader count).length ≤ 5 := by
  rw [arrayHeader]
  split_ifs <;> simp [word16, word32]

theorem length_text_le (bytes : List UInt8) : (text bytes).length ≤ bytes.length + 5 := by
  have header := length_textHeader_le bytes.length
  rw [text, List.length_append]
  omega

theorem length_array_le (items : List (List UInt8))
    : (array items).length ≤ items.flatten.length + 5 := by
  have header := length_arrayHeader_le items.length
  rw [array, List.length_append]
  omega

end Support.MessagePack
