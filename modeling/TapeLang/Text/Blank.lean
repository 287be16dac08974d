/-! White space and case. Trimming goes by the White_Space property of
Unicode; changing case touches the ASCII letters only. -/
namespace TapeLang.Text

/-- The White_Space property. -/
def isBlank (c : Char) : Bool :=
  let n := c.toNat
  (0x09 ≤ n && n ≤ 0x0D) || n == 0x20 || n == 0x85 || n == 0xA0 || n == 0x1680 ||
    (0x2000 ≤ n && n ≤ 0x200A) || n == 0x2028 || n == 0x2029 || n == 0x202F ||
    n == 0x205F || n == 0x3000

def dropRightWhile (p : Char → Bool) (text : List Char) : List Char :=
  (text.reverse.dropWhile p).reverse

def trimChars (text : List Char) : List Char :=
  dropRightWhile isBlank (text.dropWhile isBlank)

def trim (text : String) : String := String.ofList (trimChars text.toList)

def lowercase (text : String) : String := String.ofList (text.toList.map Char.toLower)

end TapeLang.Text
