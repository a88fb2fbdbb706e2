import ChoiceModel.Yaml.Cursor

/-! Tags of YAML nodes. A tag is written in full between angle brackets, or behind a handle, which
stands for the beginning that a directive or the standard gives to it. -/

namespace ChoiceModel.Yaml

abbrev Octets := List UInt8

def octets (s : String) : Octets := s.toUTF8.toList

/-- A tag is made of octets, which need not be a text. -/
structure Tag where
  octets : Octets
deriving DecidableEq

namespace Tag

def standard (name : String) : Tag := ⟨Yaml.octets ("tag:yaml.org,2002:" ++ name)⟩

def isLocal (t : Tag) : Bool := t.octets.head? == some '!'.toUInt8

/-- The name of a local tag, if it is a text. -/
def name? (t : Tag) : Option String :=
  if t.isLocal then String.fromUTF8? ⟨(t.octets.drop 1).toArray⟩ else none

end Tag

def uriMarks : List Char :=
  [';', '/', '?', ':', '@', '&', '=', '+', '$', '.', '%', '!', '~', '*', '\'', '(', ')']

def isUriChar (bracketed : Bool) (c : Char) : Bool :=
  isNameChar c || uriMarks.contains c || (bracketed && [',', '[', ']'].contains c)

/-- The number of octets in a UTF-8 sequence that begins with an octet. -/
def sequenceLength? (octet : Nat) : Option Nat :=
  if octet < 0x80 then some 1
  else if octet < 0xC0 then none
  else if octet < 0xE0 then some 2
  else if octet < 0xF0 then some 3
  else if octet < 0xF8 then some 4
  else none

/-- The octets of a URI, in which `%` and two digits stand for one. Octets that are written so make
up whole sequences, of which the first has `left` octets left. -/
def unescape? (left : Nat) : List Char → Option Octets
  | '%' :: a :: b :: rest => do
    let octet := 16 * (← hexDigit? a) + (← hexDigit? b)
    let left ← match left with
      | 0 => (sequenceLength? octet).map (· - 1)
      | n + 1 => if 0x80 ≤ octet && octet < 0xC0 then some n else none
    return octet.toUInt8 :: (← unescape? left rest)
  | [] => if left == 0 then some [] else none
  | c :: rest =>
    if c == '%' || left != 0 then none else (unescape? 0 rest).map (c.toUInt8 :: ·)

/-- The URI at the front of a text and the number of its characters. No octet counts from the first
zero on. -/
def uri? (bracketed : Bool) (cs : List Char) : Option (Octets × Nat) :=
  let text := cs.takeWhile (isUriChar bracketed)
  (unescape? 0 text).map fun octets => (octets.takeWhile (· != 0), text.length)

def fullUri? (bracketed : Bool) (cs : List Char) : Option (Octets × Nat) :=
  (uri? bracketed cs).filter fun uri => uri.2 > 0

abbrev Handles := List (String × Octets)

def standardHandles : Handles := [("!", octets "!"), ("!!", octets "tag:yaml.org,2002:")]

def Handles.expand? (hs : Handles) (handle : String) (rest : Octets) : Option Tag :=
  ((hs ++ standardHandles).lookup handle).map fun stem => ⟨stem ++ rest⟩

/-- The tag at the front of a text, behind its first character, and the number of characters after
that one. -/
def Handles.tag? (hs : Handles) : List Char → Option (Tag × Nat)
  | '<' :: cs => do
    let (uri, size) ← fullUri? true cs
    if (cs.drop size).head? == some '>' then return (⟨uri⟩, size + 2) else none
  | cs => do
    let name := cs.takeWhile isNameChar
    match cs.dropWhile isNameChar with
    | '!' :: cs =>
      let (uri, size) ← fullUri? false cs
      return (← hs.expand? ("!" ++ String.ofList name ++ "!") uri, name.length + 1 + size)
    | _ =>
      let (uri, size) ← uri? false cs
      if uri.isEmpty then return (⟨octets "!"⟩, size) else return (← hs.expand? "!" uri, size)

inductive Directive where
  | version
  | handle (name : String) (stem : Octets)

namespace Directive

/-- Whether nothing but a comment is left in a line. -/
def atEnd (line : List Char) : Bool :=
  match line.dropWhile isSpace with
  | [] => true
  | c :: _ => c == '#'

def number? (line : List Char) : Option (Nat × List Char) :=
  let digits := line.takeWhile Char.isDigit
  if digits.isEmpty || digits.length > 9 then none
  else
    some (digits.foldl (fun n c => 10 * n + (c.toNat - '0'.toNat)) 0, line.dropWhile Char.isDigit)

def version? (line : List Char) : Option Directive := do
  let (major, line) ← number? line
  match line with
  | '.' :: line =>
    let (minor, line) ← number? line
    if major == 1 && (minor == 1 || minor == 2) && atEnd line then return .version else none
  | _ => none

def stem? (handle : String) (line : List Char) : Option Directive := do
  if !line.head?.any isSpace then none
  else
    let line := line.dropWhile isSpace
    let (stem, size) ← fullUri? true line
    let line := line.drop size
    if atGap line && atEnd line then return .handle handle stem else none

def handle? : List Char → Option Directive
  | '!' :: line =>
    let name := line.takeWhile isNameChar
    match line.dropWhile isNameChar with
    | '!' :: line => stem? ("!" ++ String.ofList name ++ "!") line
    | line => if name.isEmpty then stem? "!" line else none
  | _ => none

end Directive

def directive? (line : List Char) : Option Directive :=
  let rest := line.dropWhile isNameChar
  if !atGap rest then none
  else
    match String.ofList (line.takeWhile isNameChar) with
    | "YAML" => Directive.version? (rest.dropWhile isSpace)
    | "TAG" => Directive.handle? (rest.dropWhile isSpace)
    | _ => none

end ChoiceModel.Yaml
