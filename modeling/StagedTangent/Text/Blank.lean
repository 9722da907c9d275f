/-!
# Blank characters

The characters with the property White_Space. They may stand around every token of a function.
-/

namespace StagedTangent.Text

/-- Whether a character is white space: the tab and the four controls after it, the space, the
next-line control, the no-break space, and seventeen spaces and separators of other scripts. -/
def isBlank (c : Char) : Bool :=
  let n := c.toNat
  decide (0x9 ≤ n ∧ n ≤ 0xd) || decide (n = 0x20) || decide (n = 0x85) || decide (n = 0xa0) ||
    decide (n = 0x1680) || decide (0x2000 ≤ n ∧ n ≤ 0x200a) || decide (n = 0x2028) ||
    decide (n = 0x2029) || decide (n = 0x202f) || decide (n = 0x205f) || decide (n = 0x3000)

end StagedTangent.Text
