/-!
# Words and bytes

A word is sixteen bits and is stored as two bytes, the high byte first.  The
functions here take a word apart and put it back together; the lemmas say that
nothing is lost either way.
-/

namespace CoreWar
namespace Word

/-- The upper byte of a word. -/
def high (w : UInt16) : UInt8 := (w / 256).toUInt8

/-- The lower byte of a word. -/
def low (w : UInt16) : UInt8 := w.toUInt8

/-- The word whose upper and lower bytes are given. -/
def ofBytes (h l : UInt8) : UInt16 := h.toUInt16 * 256 + l.toUInt16

/-- The two bytes of a word in the order in which they are stored. -/
def bytes (w : UInt16) : List UInt8 := [high w, low w]

@[simp] theorem toNat_high (w : UInt16) : (high w).toNat = w.toNat / 256 := by
  have := w.toNat_lt
  simp only [high, UInt16.toNat_toUInt8, UInt16.toNat_div, UInt16.reduceToNat]
  omega

@[simp] theorem toNat_low (w : UInt16) : (low w).toNat = w.toNat % 256 := by
  simp only [low, UInt16.toNat_toUInt8, Nat.reducePow]

@[simp] theorem toNat_ofBytes (h l : UInt8) :
    (ofBytes h l).toNat = h.toNat * 256 + l.toNat := by
  have := h.toNat_lt
  have := l.toNat_lt
  simp only [ofBytes, UInt16.toNat_add, UInt16.toNat_mul, UInt8.toNat_toUInt16,
    UInt16.reduceToNat, Nat.reducePow]
  omega

@[simp] theorem high_ofBytes (h l : UInt8) : high (ofBytes h l) = h := by
  have := l.toNat_lt
  apply UInt8.toNat_inj.mp
  simp only [toNat_high, toNat_ofBytes]
  omega

@[simp] theorem low_ofBytes (h l : UInt8) : low (ofBytes h l) = l := by
  have := l.toNat_lt
  apply UInt8.toNat_inj.mp
  simp only [toNat_low, toNat_ofBytes]
  omega

@[simp] theorem ofBytes_high_low (w : UInt16) : ofBytes (high w) (low w) = w := by
  apply UInt16.toNat_inj.mp
  simp only [toNat_high, toNat_low, toNat_ofBytes]
  omega

end Word
end CoreWar
