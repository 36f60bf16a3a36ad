/-!
# Simple case folding: the data

The simple case-folding groups of Unicode 16.0 that hold more than one code point. Most groups are pairs, and these
come in runs in which the second code point lies a fixed distance behind the first.
-/

namespace XmlPattern.Unicode.CaseFolding

/--
Runs of pairs as `(first, last, distance)`: each code point from `first` to `last` folds with the one that lies
`distance` further on.
-/
def runs : List (Nat × Nat × Nat) := [
  (0x41, 0x4A, 0x20), (0x4C, 0x52, 0x20), (0x54, 0x5A, 0x20), (0xC0, 0xC4, 0x20), (0xC6, 0xD6, 0x20),
  (0xD8, 0xDE, 0x20), (0xDF, 0xDF, 0x1DBF), (0xFF, 0xFF, 0x79), (0x180, 0x180, 0xC3), (0x181, 0x181, 0xD2),
  (0x186, 0x186, 0xCE), (0x187, 0x187, 1), (0x189, 0x18A, 0xCD), (0x18B, 0x18B, 1), (0x18E, 0x18E, 0x4F),
  (0x18F, 0x18F, 0xCA), (0x190, 0x190, 0xCB), (0x191, 0x191, 1), (0x193, 0x193, 0xCD), (0x194, 0x194, 0xCF),
  (0x195, 0x195, 0x61), (0x196, 0x196, 0xD3), (0x197, 0x197, 0xD1), (0x198, 0x198, 1), (0x19A, 0x19A, 0xA3),
  (0x19B, 0x19B, 0xA641), (0x19C, 0x19C, 0xD3), (0x19D, 0x19D, 0xD5), (0x19E, 0x19E, 0x82),
  (0x19F, 0x19F, 0xD6), (0x1A6, 0x1A6, 0xDA), (0x1A7, 0x1A7, 1), (0x1A9, 0x1A9, 0xDA), (0x1AC, 0x1AC, 1),
  (0x1AE, 0x1AE, 0xDA), (0x1AF, 0x1AF, 1), (0x1B1, 0x1B2, 0xD9), (0x1B7, 0x1B7, 0xDB), (0x1B8, 0x1B8, 1),
  (0x1BC, 0x1BC, 1), (0x1BF, 0x1BF, 0x38), (0x1F4, 0x1F4, 1), (0x23A, 0x23A, 0x2A2B), (0x23B, 0x23B, 1),
  (0x23E, 0x23E, 0x2A28), (0x23F, 0x240, 0x2A3F), (0x241, 0x241, 1), (0x244, 0x244, 0x45),
  (0x245, 0x245, 0x47), (0x250, 0x250, 0x2A1F), (0x251, 0x251, 0x2A1C), (0x252, 0x252, 0x2A1E),
  (0x25C, 0x25C, 0xA54F), (0x261, 0x261, 0xA54B), (0x264, 0x264, 0xA567), (0x265, 0x265, 0xA528),
  (0x266, 0x266, 0xA544), (0x26A, 0x26A, 0xA544), (0x26B, 0x26B, 0x29F7), (0x26C, 0x26C, 0xA541),
  (0x271, 0x271, 0x29FD), (0x27D, 0x27D, 0x29E7), (0x282, 0x282, 0xA543), (0x287, 0x287, 0xA52A),
  (0x29D, 0x29D, 0xA515), (0x29E, 0x29E, 0xA512), (0x376, 0x376, 1), (0x37B, 0x37D, 0x82),
  (0x37F, 0x37F, 0x74), (0x386, 0x386, 0x26), (0x388, 0x38A, 0x25), (0x38C, 0x38C, 0x40), (0x38E, 0x38F, 0x3F),
  (0x390, 0x390, 0x1C43), (0x397, 0x397, 0x20), (0x39E, 0x39F, 0x20), (0x3A4, 0x3A5, 0x20),
  (0x3A7, 0x3A8, 0x20), (0x3AA, 0x3AB, 0x20), (0x3B0, 0x3B0, 0x1C33), (0x3CF, 0x3CF, 8), (0x3F2, 0x3F2, 7),
  (0x3F7, 0x3F7, 1), (0x3FA, 0x3FA, 1), (0x400, 0x40F, 0x50), (0x410, 0x411, 0x20), (0x416, 0x41D, 0x20),
  (0x41F, 0x420, 0x20), (0x423, 0x429, 0x20), (0x42B, 0x42F, 0x20), (0x460, 0x460, 1), (0x4C0, 0x4C0, 0xF),
  (0x531, 0x556, 0x30), (0x10A0, 0x10C5, 0x1C60), (0x10C7, 0x10C7, 0x1C60), (0x10CD, 0x10CD, 0x1C60),
  (0x10D0, 0x10FA, 0xBC0), (0x10FD, 0x10FF, 0xBC0), (0x13A0, 0x13EF, 0x97D0), (0x13F0, 0x13F5, 8),
  (0x1C89, 0x1C89, 1), (0x1D79, 0x1D79, 0x8A04), (0x1D7D, 0x1D7D, 0xEE6), (0x1D8E, 0x1D8E, 0x8A38),
  (0x1F00, 0x1F07, 8), (0x1F10, 0x1F15, 8), (0x1F20, 0x1F27, 8), (0x1F30, 0x1F37, 8), (0x1F40, 0x1F45, 8),
  (0x1F60, 0x1F67, 8), (0x1F70, 0x1F71, 0x4A), (0x1F72, 0x1F75, 0x56), (0x1F76, 0x1F77, 0x64),
  (0x1F78, 0x1F79, 0x80), (0x1F7A, 0x1F7B, 0x70), (0x1F7C, 0x1F7D, 0x7E), (0x1F80, 0x1F87, 8),
  (0x1F90, 0x1F97, 8), (0x1FA0, 0x1FA7, 8), (0x1FB0, 0x1FB1, 8), (0x1FB3, 0x1FB3, 9), (0x1FC3, 0x1FC3, 9),
  (0x1FD0, 0x1FD1, 8), (0x1FE0, 0x1FE1, 8), (0x1FE5, 0x1FE5, 7), (0x1FF3, 0x1FF3, 9), (0x2132, 0x2132, 0x1C),
  (0x2160, 0x216F, 0x10), (0x2183, 0x2183, 1), (0x24B6, 0x24CF, 0x1A), (0x2C00, 0x2C2F, 0x30),
  (0x2C60, 0x2C60, 1), (0x2C72, 0x2C72, 1), (0x2C75, 0x2C75, 1), (0x2CF2, 0x2CF2, 1), (0xA78B, 0xA78B, 1),
  (0xA794, 0xA794, 0x30), (0xA7B3, 0xA7B3, 0x3A0), (0xA7CC, 0xA7CC, 1), (0xA7D0, 0xA7D0, 1),
  (0xA7F5, 0xA7F5, 1), (0xFB05, 0xFB05, 1), (0xFF21, 0xFF3A, 0x20), (0x10400, 0x10427, 0x28),
  (0x104B0, 0x104D3, 0x28), (0x10570, 0x1057A, 0x27), (0x1057C, 0x1058A, 0x27), (0x1058C, 0x10592, 0x27),
  (0x10594, 0x10595, 0x27), (0x10C80, 0x10CB2, 0x40), (0x10D50, 0x10D65, 0x20), (0x118A0, 0x118BF, 0x20),
  (0x16E40, 0x16E5F, 0x20), (0x1E900, 0x1E921, 0x22)]

/-- Runs in which only every second code point, beginning with the first, starts a pair. -/
def alternatingRuns : List (Nat × Nat × Nat) := [
  (0x100, 0x12E, 1), (0x132, 0x136, 1), (0x139, 0x147, 1), (0x14A, 0x176, 1), (0x179, 0x17D, 1),
  (0x182, 0x184, 1), (0x1A0, 0x1A4, 1), (0x1B3, 0x1B5, 1), (0x1CD, 0x1DB, 1), (0x1DE, 0x1EE, 1),
  (0x1F8, 0x21E, 1), (0x222, 0x232, 1), (0x246, 0x24E, 1), (0x370, 0x372, 1), (0x391, 0x393, 0x20),
  (0x394, 0x396, 0x20), (0x39B, 0x39D, 0x20), (0x3D8, 0x3EE, 1), (0x413, 0x415, 0x20), (0x464, 0x480, 1),
  (0x48A, 0x4BE, 1), (0x4C1, 0x4CD, 1), (0x4D0, 0x52E, 1), (0x1E00, 0x1E5E, 1), (0x1E62, 0x1E94, 1),
  (0x1EA0, 0x1EFE, 1), (0x1F51, 0x1F57, 8), (0x2C67, 0x2C6B, 1), (0x2C80, 0x2CE2, 1), (0x2CEB, 0x2CED, 1),
  (0xA640, 0xA648, 1), (0xA64C, 0xA66C, 1), (0xA680, 0xA69A, 1), (0xA722, 0xA72E, 1), (0xA732, 0xA76E, 1),
  (0xA779, 0xA77B, 1), (0xA77E, 0xA786, 1), (0xA790, 0xA792, 1), (0xA796, 0xA7A8, 1), (0xA7B4, 0xA7C2, 1),
  (0xA7C7, 0xA7C9, 1), (0xA7D6, 0xA7DA, 1)]

/-- The groups of three or four. -/
def largerGroups : List (List Nat) := [
  [0x4B, 0x6B, 0x212A], [0x53, 0x73, 0x17F], [0xB5, 0x39C, 0x3BC], [0xC5, 0xE5, 0x212B], [0x1C4, 0x1C5, 0x1C6],
  [0x1C7, 0x1C8, 0x1C9], [0x1CA, 0x1CB, 0x1CC], [0x1F1, 0x1F2, 0x1F3], [0x345, 0x399, 0x3B9, 0x1FBE],
  [0x392, 0x3B2, 0x3D0], [0x395, 0x3B5, 0x3F5], [0x398, 0x3B8, 0x3D1, 0x3F4], [0x39A, 0x3BA, 0x3F0],
  [0x3A0, 0x3C0, 0x3D6], [0x3A1, 0x3C1, 0x3F1], [0x3A3, 0x3C2, 0x3C3], [0x3A6, 0x3C6, 0x3D5],
  [0x3A9, 0x3C9, 0x2126], [0x412, 0x432, 0x1C80], [0x414, 0x434, 0x1C81], [0x41E, 0x43E, 0x1C82],
  [0x421, 0x441, 0x1C83], [0x422, 0x442, 0x1C84, 0x1C85], [0x42A, 0x44A, 0x1C86], [0x462, 0x463, 0x1C87],
  [0x1C88, 0xA64A, 0xA64B], [0x1E60, 0x1E61, 0x1E9B]]

end XmlPattern.Unicode.CaseFolding
