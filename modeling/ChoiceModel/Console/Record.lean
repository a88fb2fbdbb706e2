import ChoiceModel.Decimal.Layout
import ChoiceModel.Text.Unseen

/-! The record notation, in which values are written for the eye of a developer: names with fields,
quoted texts, and numbers that keep their point. -/

namespace ChoiceModel.Console

inductive Record where
  | word (s : String)
  | count (n : Nat)
  | number (x : Float)
  | text (s : String)
  | wrapped (name : String) (content : Record)
  | fields (name : String) (content : List (String × Record))

namespace Record

/-- One character of a quoted text: what cannot be seen by itself is named by its code point. -/
def quote (c : Char) : String :=
  match c with
  | '"' => "\\\""
  | '\\' => "\\\\"
  | '\n' => "\\n"
  | '\r' => "\\r"
  | '\t' => "\\t"
  | '\x00' => "\\0"
  | _ =>
    if Text.isUnseen c then "\\u\x7b" ++ String.ofList (Nat.toDigits 16 c.toNat) ++ "\x7d"
    else c.toString

def quoted (s : String) : String := "\"" ++ String.join (s.toList.map quote) ++ "\""

mutual

def write : Record → String
  | word s => s
  | count n => toString n
  | number x => Decimal.record.write x
  | text s => quoted s
  | wrapped name content => name ++ "(" ++ content.write ++ ")"
  | fields name content => name ++ " \x7b " ++ ", ".intercalate (writeFields content) ++ " \x7d"

def writeFields : List (String × Record) → List String
  | [] => []
  | (name, r) :: rest => (name ++ ": " ++ r.write) :: writeFields rest

end

def option {α : Type} (f : α → Record) : Option α → Record
  | none => word "None"
  | some a => wrapped "Some" (f a)

def bool (b : Bool) : Record := word (if b then "true" else "false")

end Record

end ChoiceModel.Console
