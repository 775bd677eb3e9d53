import BitSynth.Text.CodeSet

/-!
# White space

The characters with the property White_Space of Unicode, which no version since 6.3 has changed.
-/

namespace BitSynth.Text

/-- The characters with the property White_Space. -/
def whiteSpace : CodeSet where
  ranges := [
    (0x9, 0xD), (0x20, 0x20), (0x85, 0x85), (0xA0, 0xA0), (0x1680, 0x1680), (0x2000, 0x200A),
    (0x2028, 0x2029), (0x202F, 0x202F), (0x205F, 0x205F), (0x3000, 0x3000)]

end BitSynth.Text
