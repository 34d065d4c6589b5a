import Moire.Pickle.Basic
import Moire.Store.Array

/-!
# Writing stored arrays as pickles

An array is a dictionary of its shape and its data, in the third version of the format.
-/

namespace Moire.Pickle

/-- The code of a count: four bytes if it fits a signed 32-bit word, else nine. -/
def countCode (n : Nat) : List UInt8 :=
  if n < 2147483648 then 0x4a :: littleEndian 4 n else 0x8a :: 9 :: littleEndian 9 n

/-- The code of a float. -/
def floatCode (x : Float) : List UInt8 :=
  0x47 :: floatBytes x

/-- The code of a text. -/
def textCode (text : String) : List UInt8 :=
  0x58 :: littleEndian 4 text.utf8ByteSize ++ text.toUTF8.toList

/-- The code of a list, from the codes of its items. -/
def listCode (items : List (List UInt8)) : List UInt8 :=
  if items.isEmpty then [0x5d] else 0x5d :: 0x28 :: items.flatten ++ [0x65]

/-- The pickle of a stored array. -/
def encode (array : StoredArray Float) : List UInt8 :=
  [0x80, 0x03, 0x7d, 0x28] ++
    textCode "shape" ++ listCode (array.shape.map countCode) ++
    textCode "data" ++ listCode (array.data.map floatCode) ++
    [0x75, 0x2e]

end Moire.Pickle
