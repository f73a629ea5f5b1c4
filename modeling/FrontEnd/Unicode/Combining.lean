import FrontEnd.Unicode.Ranges

/-!
# Combining marks

The blocks of marks that may continue an identifier although the property
Alphabetic leaves most of them out.  They are whole blocks of the standard, so the
list also names code points that are alphabetic in their own right; those gain
nothing by it.
-/

namespace FrontEnd
namespace Unicode

def combiningRanges : Ranges :=
  [(0x300, 0x36f), (0x483, 0x489), (0x591, 0x5bd), (0x5bf, 0x5c7), (0x610, 0x61a),
   (0x64b, 0x65f), (0x670, 0x670), (0x6d6, 0x6ed), (0x711, 0x711), (0x730, 0x74a),
   (0x7eb, 0x7f3), (0x900, 0x903), (0x93a, 0x94f), (0x951, 0x957), (0xe31, 0xe31),
   (0xe34, 0xe3a), (0xe47, 0xe4e), (0x1ab0, 0x1aff), (0x1dc0, 0x1dff), (0x20d0, 0x20f0),
   (0x3099, 0x309a), (0xfe00, 0xfe0f), (0xfe20, 0xfe2f)]

def combining (c : Char) : Bool :=
  combiningRanges.has c

end Unicode
end FrontEnd
