import TapeLang.CommandLine.UsageError
import TapeLang.Settings

/-! Reading words as options. A word is a long option, a cluster of letters or
a plain word; the value of an option may be attached to it or be the next word. -/
namespace TapeLang.CommandLine

inductive ValueKind where
  | text
  | mode
  | number
deriving DecidableEq, Repr

def ValueKind.complaint (kind : ValueKind) (value : String) : Option String :=
  match kind with
  | .text => none
  | .mode =>
    match Settings.readMode value with
    | .ok _ => none
    | .error reason => some reason
  | .number =>
    match Settings.readNumber value with
    | .ok _ => none
    | .error reason => some reason

structure ValueSpec where
  placeholder : String
  kind : ValueKind
deriving DecidableEq, Repr

structure OptionSpec where
  name : String
  letter : Option Char := none
  value : Option ValueSpec := none
deriving DecidableEq, Repr

namespace OptionSpec

def isFlag (o : OptionSpec) : Bool := o.value.isNone

def display (o : OptionSpec) : String :=
  match o.value with
  | none => "--" ++ o.name
  | some spec => "--" ++ o.name ++ " <" ++ spec.placeholder ++ ">"

def complaint (o : OptionSpec) (value : String) : Option String :=
  o.value.bind (·.kind.complaint value)

end OptionSpec

/-- The options of a command. Where it takes code, a word that is not made of
its options alone is a plain word. -/
structure Grammar where
  options : List OptionSpec
  takesCode : Bool := false
deriving DecidableEq, Repr

def Grammar.byName (g : Grammar) (name : String) : Option OptionSpec :=
  g.options.find? (·.name == name)

def Grammar.byLetter (g : Grammar) (letter : Char) : Option OptionSpec :=
  g.options.find? (·.letter == some letter)

structure PendingOption where
  option : OptionSpec
  value : Option String := none
deriving DecidableEq, Repr

/-- The words read so far: the options settled, in order, and the one pending. -/
structure Reading where
  given : List (OptionSpec × Option String) := []
  pending : Option PendingOption := none
deriving DecidableEq, Repr, Inhabited

namespace Reading

def has (r : Reading) (o : OptionSpec) : Bool := r.given.any (·.1 == o)

def value? (r : Reading) (o : OptionSpec) : Option String :=
  (r.given.find? (·.1 == o)).bind (·.2)

def record (r : Reading) (o : OptionSpec) (value : Option String) : Except UsageError Reading :=
  if r.has o then .error (.repeated o.display)
  else
    match value with
    | none => .ok { r with given := r.given ++ [(o, none)] }
    | some text =>
      match o.complaint text with
      | some reason => .error (.invalidValue text o.display reason)
      | none => .ok { r with given := r.given ++ [(o, some text)] }

/-- Settle the pending option, which happens when the next one begins, when
the code begins and at the end. -/
def settle (r : Reading) : Except UsageError Reading :=
  match r.pending with
  | none => .ok r
  | some ⟨o, none⟩ => .error (.missingValue o.display)
  | some ⟨o, some text⟩ => Reading.record { r with pending := none } o (some text)

def add (r : Reading) (o : OptionSpec) (value : Option String) : Except UsageError Reading := do
  (← r.settle).record o value

def await (r : Reading) (o : OptionSpec) : Except UsageError Reading := do
  return { ← r.settle with pending := some ⟨o, none⟩ }

def isAwaiting (r : Reading) : Bool :=
  match r.pending with
  | some ⟨_, none⟩ => true
  | _ => false

def supply (r : Reading) (text : String) : Reading :=
  { r with pending := r.pending.map fun p => { p with value := some text } }

end Reading

/-- The three kinds of words. A single dash is a plain word, and so is the
double dash, which is looked at before. -/
inductive Word where
  | long (name : String) (value : Option String)
  | cluster (letters : List Char)
  | plain
deriving DecidableEq, Repr

def splitValue (text : List Char) : String × Option String :=
  match text.dropWhile (· != '=') with
  | [] => (String.ofList text, none)
  | _ :: value => (String.ofList (text.takeWhile (· != '=')), some (String.ofList value))

def Word.ofChars : List Char → Word
  | '-' :: '-' :: c :: rest => .long (splitValue (c :: rest)).1 (splitValue (c :: rest)).2
  | '-' :: '-' :: [] => .plain
  | '-' :: c :: rest => .cluster (c :: rest)
  | _ => .plain

namespace Grammar

/-- Read a cluster letter by letter. What follows a letter that takes a value
is that value, with or without an equals sign. -/
def readCluster (g : Grammar) (r : Reading) : List Char → Except UsageError Reading
  | [] => .ok r
  | c :: rest =>
    match g.byLetter c with
    | none => .error (.unexpectedArgument (String.ofList ['-', c]))
    | some o =>
      if o.isFlag then do g.readCluster (← r.add o none) rest
      else
        match rest with
        | [] => r.await o
        | '=' :: value => r.add o (some (String.ofList value))
        | value => r.add o (some (String.ofList value))

def readLong (r : Reading) (o : OptionSpec) (value : Option String) :
    Except UsageError Reading :=
  match o.isFlag, value with
  | true, none => r.add o none
  | true, some text => .error (.unexpectedValue text o.display)
  | false, none => r.await o
  | false, some text => r.add o (some text)

/-- Read a word as options, or find that it is a plain one. An unknown option
is reported ahead of anything wrong with the option pending. -/
def readOptions (g : Grammar) (r : Reading) (word : String) :
    Except UsageError (Option Reading) :=
  match Word.ofChars word.toList with
  | .plain => .ok none
  | .long name value =>
    match g.byName name with
    | some o => some <$> readLong r o value
    | none => if g.takesCode then .ok none else .error (.unexpectedArgument ("--" ++ name))
  | .cluster letters =>
    if g.takesCode && letters.any (fun c => (g.byLetter c).isNone) then .ok none
    else some <$> g.readCluster r letters

def finish (g : Grammar) (r : Reading) : List String → Except UsageError (Reading × List String)
  | [] => do return (← r.settle, [])
  | word :: rest =>
    if g.takesCode then do return (← r.settle, word :: rest)
    else .error (.unexpectedArgument word)

/-- Read the words of a command: options up to a double dash or the first
plain word that is no option's value, and code after that. -/
def read (g : Grammar) (r : Reading) : List String → Except UsageError (Reading × List String)
  | [] => g.finish r []
  | word :: rest =>
    if word = "--" then g.finish r rest
    else do
      match ← g.readOptions r word with
      | some after => g.read after rest
      | none => if r.isAwaiting then g.read (r.supply word) rest else g.finish r (word :: rest)

end Grammar
end TapeLang.CommandLine
