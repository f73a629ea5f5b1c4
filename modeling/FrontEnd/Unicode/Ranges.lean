/-!
# Sets of code points

A property of characters is given as the list of its ranges in increasing order,
both ends included.  The tables beside this module are such lists.
-/

namespace FrontEnd
namespace Unicode

abbrev Ranges := List (Nat × Nat)

def Ranges.has (rs : Ranges) (c : Char) : Bool :=
  rs.any fun r => r.1 ≤ c.toNat && c.toNat ≤ r.2

end Unicode
end FrontEnd
