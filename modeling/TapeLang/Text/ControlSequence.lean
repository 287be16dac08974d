/-! Text for a stream that is no terminal. Control characters and control
sequences are dropped; tabs and line ends are layout and stay. -/
namespace TapeLang.Text

/-- Where a reader of terminal control codes stands. -/
inductive ControlState where
  | text
  | escape
  /-- After an escape and a character that calls for a final one. -/
  | escapeTail
  /-- A control sequence, up to its final character. -/
  | sequence
  | deviceEntry
  | deviceParam
  | deviceTail
  /-- A device, privacy or application string, which has an end of its own. -/
  | controlString
  /-- An operating system command, ended by a bell. -/
  | command
deriving DecidableEq, Repr

def between (low high : Nat) (c : Char) : Bool := low ≤ c.toNat && c.toNat ≤ high

def isLayout (c : Char) : Bool := c == '\t' || c == '\n' || c == '\x0c' || c == '\r'

def isShownInText (c : Char) : Bool := between 0x20 0x7E c || 0x80 ≤ c.toNat || isLayout c

namespace ControlState

def afterEscape (c : Char) : ControlState :=
  match c with
  | '[' => sequence
  | ']' => command
  | 'P' => deviceEntry
  | 'X' => controlString
  | '^' => controlString
  | '_' => controlString
  | _ =>
    if between 0x20 0x2F c then escapeTail
    else if between 0x30 0x7E c then text
    else escape

/-- An escape begins anew and a cancel or substitute character gives up,
wherever they stand. A control string ends at the byte 9C, which may be part
of a character. -/
def next (s : ControlState) (c : Char) : ControlState :=
  if c = '\x1b' then escape
  else if c = '\x18' ∨ c = '\x1a' then text
  else
    match s with
    | text => text
    | escape => afterEscape c
    | escapeTail => if between 0x30 0x7E c then text else escapeTail
    | sequence => if between 0x40 0x7E c then text else sequence
    | deviceEntry =>
      if between 0x20 0x2F c then deviceTail
      else if between 0x30 0x3F c then deviceParam
      else if between 0x40 0x7E c then controlString
      else deviceEntry
    | deviceParam =>
      if between 0x20 0x2F c then deviceTail
      else if between 0x3C 0x7E c then controlString
      else deviceParam
    | deviceTail => if between 0x30 0x7E c then controlString else deviceTail
    | controlString => if (String.utf8EncodeChar c).contains 0x9C then text else controlString
    | command => if c = '\x07' then text else command

def shows (s : ControlState) (c : Char) : Bool :=
  match s with
  | text => isShownInText c
  | escape => isLayout c
  | escapeTail => isLayout c
  | sequence => isLayout c
  | _ => false

end ControlState

/-- Layout inside a sequence suspends it: what follows is shown as text up to
the next control character, and then the sequence goes on, unless a character
outside ASCII has ended it. -/
def plainFrom (s : ControlState) (suspended : Bool) : List Char → List Char
  | [] => []
  | c :: rest =>
    if suspended && isShownInText c then
      c :: plainFrom (if c.toNat < 0x80 then s else .text) true rest
    else if !suspended && s.shows c then c :: plainFrom (s.next c) true rest
    else plainFrom (s.next c) false rest

def plain (text : String) : String := String.ofList (plainFrom .text false text.toList)

end TapeLang.Text
