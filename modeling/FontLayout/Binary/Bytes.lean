/-!
# Bytes of numbers

Fonts hold numbers with the most significant byte first. Words are collected in byte arrays, whose
size is known without counting.

Results:
* `data_bytesOfWords`: the bytes of words are those of each word, in order.
* `size_bytesOfWords`: there are two for each word.
-/
namespace FontLayout

/-- Byte arrays are equal when they hold the same bytes. -/
instance decidableEqBytes : DecidableEq ByteArray := fun a b =>
  decidable_of_iff (a.data = b.data) ByteArray.ext_iff.symm

/-- The two bytes of a word, most significant first. -/
def wordBytes (w : UInt16) : List UInt8 := [(w >>> 8).toUInt8, w.toUInt8]

/-- The lowest `n` bytes of a number, most significant first. -/
def natBytes : Nat → Nat → List UInt8
  | 0, _ => []
  | n + 1, x => natBytes n (x / 256) ++ [UInt8.ofNat (x % 256)]

/-- A count as a word; counts beyond a word are written as the greatest word. -/
def countWord (n : Nat) : UInt16 := UInt16.ofNat (min n 65535)

/-! ## Collecting -/

/-- Adds bytes at the end. -/
def pushBytes (out : ByteArray) (bs : List UInt8) : ByteArray := bs.foldl ByteArray.push out

/-- Adds the bytes of a word at the end. -/
def pushWord (out : ByteArray) (w : UInt16) : ByteArray :=
  (out.push (w >>> 8).toUInt8).push w.toUInt8

/-- The bytes of words, one word after another. -/
def bytesOfWords (ws : List UInt16) : ByteArray :=
  ws.foldl pushWord (.emptyWithCapacity (2 * ws.length))

theorem data_pushBytes (out : ByteArray) (bs : List UInt8) :
    (pushBytes out bs).data.toList = out.data.toList ++ bs := by
  unfold pushBytes
  induction bs generalizing out with
  | nil => simp
  | cons b bs ih => rw [List.foldl_cons, ih, ByteArray.data_push]; simp

theorem data_foldl_pushWord (ws : List UInt16) (out : ByteArray) :
    (ws.foldl pushWord out).data.toList = out.data.toList ++ ws.flatMap wordBytes := by
  induction ws generalizing out with
  | nil => simp
  | cons w ws ih =>
    rw [List.foldl_cons, ih, pushWord, ByteArray.data_push, ByteArray.data_push,
      List.flatMap_cons, wordBytes]
    simp

theorem data_bytesOfWords (ws : List UInt16) :
    (bytesOfWords ws).data.toList = ws.flatMap wordBytes :=
  data_foldl_pushWord ws _

theorem size_bytesOfWords (ws : List UInt16) : (bytesOfWords ws).size = 2 * ws.length := by
  rw [ByteArray.size, ← Array.length_toList, data_bytesOfWords]
  induction ws with
  | nil => rfl
  | cons w ws ih =>
    rw [List.flatMap_cons, List.length_append, ih, List.length_cons, wordBytes, List.length_cons,
      List.length_cons, List.length_nil]
    omega

end FontLayout
