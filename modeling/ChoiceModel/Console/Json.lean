import ChoiceModel.Decimal.Layout

/-! JSON documents, written with one item a line and two blanks for each level. -/

namespace ChoiceModel.Console

inductive Json where
  | null
  | count (n : Nat)
  | number (x : Float)
  | text (s : String)
  | list (items : List Json)
  | object (fields : List (String × Json))

namespace Json

/-- One character of a text; control characters are escaped. -/
def escape (c : Char) : String :=
  match c with
  | '"' => "\\\""
  | '\\' => "\\\\"
  | '\n' => "\\n"
  | '\r' => "\\r"
  | '\t' => "\\t"
  | '\x08' => "\\b"
  | '\x0c' => "\\f"
  | _ =>
    if c.toNat < 0x20 then "\\u00" ++ String.ofList (Decimal.padded 16 2 c.toNat) else c.toString

def quoted (s : String) : String := "\"" ++ String.join (s.toList.map escape) ++ "\""

def newline (level : Nat) : String := "\n" ++ String.ofList (List.replicate (2 * level) ' ')

def bracketed (level : Nat) (first last : String) (items : List String) : String :=
  if items.isEmpty then first ++ last
  else
    first ++ newline (level + 1) ++ ("," ++ newline (level + 1)).intercalate items
      ++ newline level ++ last

mutual

/-- A value whose last line belongs to `level`. What is no number and the infinities are null. -/
def write (level : Nat) : Json → String
  | null => "null"
  | count n => toString n
  | number x => if x.isFinite then Decimal.json.write x else "null"
  | text s => quoted s
  | list items => bracketed level "[" "]" (writeItems (level + 1) items)
  | object fields => bracketed level "\x7b" "\x7d" (writeFields (level + 1) fields)

def writeItems (level : Nat) : List Json → List String
  | [] => []
  | item :: rest => item.write level :: writeItems level rest

def writeFields (level : Nat) : List (String × Json) → List String
  | [] => []
  | (name, value) :: rest => (quoted name ++ ": " ++ value.write level) :: writeFields level rest

end

end Json

end ChoiceModel.Console
