namespace Recurrence.Text

-- Blank characters are those with Unicode's White_Space property: the ASCII controls from tab to
-- carriage return, the space, next line, no-break space, and the wider spaces and line separators.
-- Core's `Char.isWhitespace` knows only four of them.
def isBlank (c : Char) : Bool :=
  let n := c.toNat
  (9 ≤ n && n ≤ 13) || n == 32 || n == 0x85 || n == 0xA0 || n == 0x1680 ||
    (0x2000 ≤ n && n ≤ 0x200A) || n == 0x2028 || n == 0x2029 || n == 0x202F || n == 0x205F || n == 0x3000

def trimStart (text : List Char) : List Char := text.dropWhile isBlank
def trimEnd (text : List Char) : List Char := (text.reverse.dropWhile isBlank).reverse
def trim (text : List Char) : List Char := trimEnd (trimStart text)

-- The maximal runs of characters that are not blank, in order.
def words (text : List Char) : List (List Char) :=
  (text.splitOnP isBlank).filter (fun run => !run.isEmpty)

end Recurrence.Text
