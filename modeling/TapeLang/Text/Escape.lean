/-! Characters on one line of print, and left-justified columns. -/
namespace TapeLang.Text

/-- Tab, line ends, quotes and the backslash as a backslash and a letter,
printable ASCII as it is, all else by its code in hexadecimal. -/
def escape (c : Char) : String :=
  match c with
  | '\t' => "\\t"
  | '\r' => "\\r"
  | '\n' => "\\n"
  | '\'' => "\\'"
  | '"' => "\\\""
  | '\\' => "\\\\"
  | _ =>
    if 0x20 ≤ c.toNat ∧ c.toNat ≤ 0x7E then c.toString
    else "\\u\x7b" ++ String.ofList (Nat.toDigits 16 c.toNat) ++ "\x7d"

def padRight (width : Nat) (text : String) : String :=
  text ++ String.ofList (List.replicate (width - text.length) ' ')

end TapeLang.Text
