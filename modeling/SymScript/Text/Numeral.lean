import SymScript.Text.CodeRange

/-!
# Characters that stand for numbers
-/

namespace SymScript.Text

/-- The characters with a numeric value, fractions and ideographs included. -/
def numerals : Array CodeRange := #[
  ⟨48, 57, 1⟩, ⟨178, 179, 1⟩, ⟨185, 185, 1⟩, ⟨188, 190, 1⟩, ⟨1632, 1641, 1⟩, ⟨1776, 1785, 1⟩,
  ⟨1984, 1993, 1⟩, ⟨2406, 2415, 1⟩, ⟨2534, 2543, 1⟩, ⟨2548, 2553, 1⟩, ⟨2662, 2671, 1⟩,
  ⟨2790, 2799, 1⟩, ⟨2918, 2927, 1⟩, ⟨2930, 2935, 1⟩, ⟨3046, 3058, 1⟩, ⟨3174, 3183, 1⟩,
  ⟨3192, 3198, 1⟩, ⟨3302, 3311, 1⟩, ⟨3416, 3422, 1⟩, ⟨3430, 3448, 1⟩, ⟨3558, 3567, 1⟩,
  ⟨3664, 3673, 1⟩, ⟨3792, 3801, 1⟩, ⟨3872, 3891, 1⟩, ⟨4160, 4169, 1⟩, ⟨4240, 4249, 1⟩,
  ⟨4969, 4988, 1⟩, ⟨5870, 5872, 1⟩, ⟨6112, 6121, 1⟩, ⟨6128, 6137, 1⟩, ⟨6160, 6169, 1⟩,
  ⟨6470, 6479, 1⟩, ⟨6608, 6618, 1⟩, ⟨6784, 6793, 1⟩, ⟨6800, 6809, 1⟩, ⟨6992, 7001, 1⟩,
  ⟨7088, 7097, 1⟩, ⟨7232, 7241, 1⟩, ⟨7248, 7257, 1⟩, ⟨8304, 8304, 1⟩, ⟨8308, 8313, 1⟩,
  ⟨8320, 8329, 1⟩, ⟨8528, 8578, 1⟩, ⟨8581, 8585, 1⟩, ⟨9312, 9371, 1⟩, ⟨9450, 9471, 1⟩,
  ⟨10102, 10131, 1⟩, ⟨11517, 11517, 1⟩, ⟨12295, 12295, 1⟩, ⟨12321, 12329, 1⟩, ⟨12344, 12346, 1⟩,
  ⟨12690, 12693, 1⟩, ⟨12832, 12841, 1⟩, ⟨12872, 12879, 1⟩, ⟨12881, 12895, 1⟩, ⟨12928, 12937, 1⟩,
  ⟨12977, 12991, 1⟩, ⟨13317, 13317, 1⟩, ⟨13443, 13443, 1⟩, ⟨14378, 14378, 1⟩, ⟨15181, 15181, 1⟩,
  ⟨19968, 19968, 1⟩, ⟨19971, 19971, 1⟩, ⟨19975, 19975, 1⟩, ⟨19977, 19977, 1⟩, ⟨20061, 20061, 1⟩,
  ⟨20108, 20108, 1⟩, ⟨20116, 20116, 1⟩, ⟨20118, 20118, 1⟩, ⟨20159, 20160, 1⟩, ⟨20191, 20191, 1⟩,
  ⟨20200, 20200, 1⟩, ⟨20237, 20237, 1⟩, ⟨20336, 20336, 1⟩, ⟨20740, 20740, 1⟩, ⟨20806, 20806, 1⟩,
  ⟨20841, 20845, 2⟩, ⟨21313, 21313, 1⟩, ⟨21315, 21317, 1⟩, ⟨21324, 21324, 1⟩, ⟨21441, 21444, 1⟩,
  ⟨22235, 22235, 1⟩, ⟨22769, 22769, 1⟩, ⟨22777, 22777, 1⟩, ⟨24186, 24186, 1⟩, ⟨24318, 24319, 1⟩,
  ⟨24332, 24334, 1⟩, ⟨24336, 24336, 1⟩, ⟨25342, 25342, 1⟩, ⟨25420, 25420, 1⟩, ⟨26578, 26578, 1⟩,
  ⟨28422, 28422, 1⟩, ⟨29590, 29590, 1⟩, ⟨30334, 30334, 1⟩, ⟨32902, 32902, 1⟩, ⟨33836, 33836, 1⟩,
  ⟨36014, 36014, 1⟩, ⟨36019, 36019, 1⟩, ⟨36144, 36144, 1⟩, ⟨38433, 38433, 1⟩, ⟨38470, 38470, 1⟩,
  ⟨38476, 38476, 1⟩, ⟨38520, 38520, 1⟩, ⟨38646, 38646, 1⟩, ⟨42528, 42537, 1⟩, ⟨42726, 42735, 1⟩,
  ⟨43056, 43061, 1⟩, ⟨43216, 43225, 1⟩, ⟨43264, 43273, 1⟩, ⟨43472, 43481, 1⟩, ⟨43504, 43513, 1⟩,
  ⟨43600, 43609, 1⟩, ⟨44016, 44025, 1⟩, ⟨63851, 63851, 1⟩, ⟨63859, 63859, 1⟩, ⟨63864, 63864, 1⟩,
  ⟨63922, 63922, 1⟩, ⟨63953, 63953, 1⟩, ⟨63955, 63955, 1⟩, ⟨63997, 63997, 1⟩, ⟨65296, 65305, 1⟩,
  ⟨65799, 65843, 1⟩, ⟨65856, 65912, 1⟩, ⟨65930, 65931, 1⟩, ⟨66273, 66299, 1⟩, ⟨66336, 66339, 1⟩,
  ⟨66369, 66369, 1⟩, ⟨66378, 66378, 1⟩, ⟨66513, 66517, 1⟩, ⟨66720, 66729, 1⟩, ⟨67672, 67679, 1⟩,
  ⟨67705, 67711, 1⟩, ⟨67751, 67759, 1⟩, ⟨67835, 67839, 1⟩, ⟨67862, 67867, 1⟩, ⟨68028, 68029, 1⟩,
  ⟨68032, 68047, 1⟩, ⟨68050, 68095, 1⟩, ⟨68160, 68168, 1⟩, ⟨68221, 68222, 1⟩, ⟨68253, 68255, 1⟩,
  ⟨68331, 68335, 1⟩, ⟨68440, 68447, 1⟩, ⟨68472, 68479, 1⟩, ⟨68521, 68527, 1⟩, ⟨68858, 68863, 1⟩,
  ⟨68912, 68921, 1⟩, ⟨69216, 69246, 1⟩, ⟨69405, 69414, 1⟩, ⟨69457, 69460, 1⟩, ⟨69573, 69579, 1⟩,
  ⟨69714, 69743, 1⟩, ⟨69872, 69881, 1⟩, ⟨69942, 69951, 1⟩, ⟨70096, 70105, 1⟩, ⟨70113, 70132, 1⟩,
  ⟨70384, 70393, 1⟩, ⟨70736, 70745, 1⟩, ⟨70864, 70873, 1⟩, ⟨71248, 71257, 1⟩, ⟨71360, 71369, 1⟩,
  ⟨71472, 71483, 1⟩, ⟨71904, 71922, 1⟩, ⟨72016, 72025, 1⟩, ⟨72784, 72812, 1⟩, ⟨73040, 73049, 1⟩,
  ⟨73120, 73129, 1⟩, ⟨73664, 73684, 1⟩, ⟨74752, 74862, 1⟩, ⟨92768, 92777, 1⟩, ⟨92864, 92873, 1⟩,
  ⟨93008, 93017, 1⟩, ⟨93019, 93025, 1⟩, ⟨93824, 93846, 1⟩, ⟨119520, 119539, 1⟩,
  ⟨119648, 119672, 1⟩, ⟨120782, 120831, 1⟩, ⟨123200, 123209, 1⟩, ⟨123632, 123641, 1⟩,
  ⟨125127, 125135, 1⟩, ⟨125264, 125273, 1⟩, ⟨126065, 126123, 1⟩, ⟨126125, 126127, 1⟩,
  ⟨126129, 126132, 1⟩, ⟨126209, 126253, 1⟩, ⟨126255, 126269, 1⟩, ⟨127232, 127244, 1⟩,
  ⟨130032, 130041, 1⟩, ⟨131073, 131073, 1⟩, ⟨131172, 131172, 1⟩, ⟨131298, 131298, 1⟩,
  ⟨131361, 131361, 1⟩, ⟨133418, 133418, 1⟩, ⟨133507, 133507, 1⟩, ⟨133516, 133516, 1⟩,
  ⟨133532, 133532, 1⟩, ⟨133866, 133866, 1⟩, ⟨133885, 133885, 1⟩, ⟨133913, 133913, 1⟩,
  ⟨140176, 140176, 1⟩, ⟨141720, 141720, 1⟩, ⟨146203, 146203, 1⟩, ⟨156269, 156269, 1⟩,
  ⟨194704, 194704, 1⟩]

/-- The decimal digits; every range starts with a zero and holds whole decades. -/
def decimals : Array CodeRange := #[
  ⟨48, 57, 1⟩, ⟨1632, 1641, 1⟩, ⟨1776, 1785, 1⟩, ⟨1984, 1993, 1⟩, ⟨2406, 2415, 1⟩,
  ⟨2534, 2543, 1⟩, ⟨2662, 2671, 1⟩, ⟨2790, 2799, 1⟩, ⟨2918, 2927, 1⟩, ⟨3046, 3055, 1⟩,
  ⟨3174, 3183, 1⟩, ⟨3302, 3311, 1⟩, ⟨3430, 3439, 1⟩, ⟨3558, 3567, 1⟩, ⟨3664, 3673, 1⟩,
  ⟨3792, 3801, 1⟩, ⟨3872, 3881, 1⟩, ⟨4160, 4169, 1⟩, ⟨4240, 4249, 1⟩, ⟨6112, 6121, 1⟩,
  ⟨6160, 6169, 1⟩, ⟨6470, 6479, 1⟩, ⟨6608, 6617, 1⟩, ⟨6784, 6793, 1⟩, ⟨6800, 6809, 1⟩,
  ⟨6992, 7001, 1⟩, ⟨7088, 7097, 1⟩, ⟨7232, 7241, 1⟩, ⟨7248, 7257, 1⟩, ⟨42528, 42537, 1⟩,
  ⟨43216, 43225, 1⟩, ⟨43264, 43273, 1⟩, ⟨43472, 43481, 1⟩, ⟨43504, 43513, 1⟩, ⟨43600, 43609, 1⟩,
  ⟨44016, 44025, 1⟩, ⟨65296, 65305, 1⟩, ⟨66720, 66729, 1⟩, ⟨68912, 68921, 1⟩, ⟨69734, 69743, 1⟩,
  ⟨69872, 69881, 1⟩, ⟨69942, 69951, 1⟩, ⟨70096, 70105, 1⟩, ⟨70384, 70393, 1⟩, ⟨70736, 70745, 1⟩,
  ⟨70864, 70873, 1⟩, ⟨71248, 71257, 1⟩, ⟨71360, 71369, 1⟩, ⟨71472, 71481, 1⟩, ⟨71904, 71913, 1⟩,
  ⟨72016, 72025, 1⟩, ⟨72784, 72793, 1⟩, ⟨73040, 73049, 1⟩, ⟨73120, 73129, 1⟩, ⟨92768, 92777, 1⟩,
  ⟨92864, 92873, 1⟩, ⟨93008, 93017, 1⟩, ⟨120782, 120831, 1⟩, ⟨123200, 123209, 1⟩,
  ⟨123632, 123641, 1⟩, ⟨125264, 125273, 1⟩, ⟨130032, 130041, 1⟩]

/-- A text of one or more characters with a numeric value. -/
def isNumeric (text : String) : Bool :=
  !text.isEmpty && text.toList.all (CodeRange.mem numerals)

/-- The value of a decimal digit. -/
def digit? (c : Char) : Option Nat :=
  (CodeRange.find? decimals c).map fun r => (c.toNat - r.first) % 10

/-- The number that a text of decimal digits spells. Texts of every length are read: the limit of
4300 digits that an implementation may set on the numbers it reads and writes is left out. -/
def natural? (text : String) : Option Nat :=
  if text.isEmpty then none
  else text.toList.foldlM (fun n c => (digit? c).map (10 * n + ·)) 0

end SymScript.Text
