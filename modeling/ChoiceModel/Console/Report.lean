import ChoiceModel.Console.Json
import ChoiceModel.Console.Number
import ChoiceModel.Console.Style
import ChoiceModel.Expression.Basic
import ChoiceModel.Model.Prepared

/-! What the program prints of its results: a text for readers or a JSON document. -/

namespace ChoiceModel.Console

open Expression Model

def unlines (lines : List String) : String := String.join (lines.map (· ++ "\n"))

def document (fields : List (String × Json)) : String := (Json.object fields).write 0 ++ "\n"

def optionalField (name : String) : Option String → List (String × Json)
  | some s => [(name, .text s)]
  | none => []

def traceReport (coloured : Bool) (lines : List String) : String :=
  unlines ([Style.heading.paint coloured "Trace:"] ++ lines.map ("   " ++ ·) ++ [""])

def valueReport (coloured : Bool) (assigned : Option String) (x : Float) : String :=
  let value := Style.value.paint coloured (number x)
  match assigned with
  | some name => unlines [Style.name.paint coloured name ++ " = " ++ value]
  | none => unlines [value]

def valueDocument (text : String) (assigned : Option String) (x : Float) (lines : List String) :
    String :=
  document ([("expression", .text text), ("value", .number x)] ++ optionalField "assigned" assigned
    ++ (if lines.isEmpty then [] else [("trace", .list (lines.map .text))]))

def programReport (coloured : Bool) (text : String) (assigned : Option String) (p : Program) :
    String :=
  unlines ([Style.title.paint coloured "Compiled expression",
      "   Text: " ++ Style.quotation.paint coloured text]
    ++ (assigned.toList.map fun name => "   Assigns: " ++ Style.name.paint coloured name)
    ++ ["   Instructions: " ++ toString p.size, ""]) ++ p.listing

def instructionJson (i : Instruction) : Json :=
  let tagged (kind : String) (value : Json) : Json :=
    .object [("kind", .text kind), ("value", value)]
  match i with
  | .literal x => tagged "literal" (.number x)
  | .load index => tagged "var" (.count index)
  | .matrix index => tagged "array_var" (.count index)
  | .apply op => tagged "op" (.text op.word)

def programJson (p : Program) : Json :=
  let slots := p.slots.toList
  .object [("code", .list (slots.map fun s => instructionJson s.instruction)),
    ("starts", .list (slots.map fun s => .count s.start)),
    ("names", .list (slots.map fun s => s.name.elim .null .text))]

def programDocument (text : String) (assigned : Option String) (p : Program) : String :=
  document ([("expression", .text text)] ++ optionalField "target" assigned
    ++ [("program", programJson p)])

def formulasReport (coloured : Bool) (formulas : List (String × Float)) : String :=
  if formulas.isEmpty then ""
  else
    unlines ([Style.heading.paint coloured "Formulas:"]
      ++ (formulas.map fun (name, x) => "   " ++ Style.name.paint coloured name ++ " = "
        ++ Style.formulaValue.paint coloured (number x))
      ++ [""])

def utilityReport (coloured : Bool) (u : UtilityResult) : String :=
  unlines ([Style.heading.paint coloured "Utility:" ++ " " ++ Style.boldName.paint coloured u.name]
    ++ ((u.alternatives.zip u.utilities).map fun (alternative, x) =>
      "   " ++ Text.alignLeft 16 alternative ++ " " ++ Style.value.paint coloured (number x))
    ++ [""])

/-- The results of a run at the place of a context; `trace` has the lines of the steps if these are
to be shown. -/
def runReport (coloured : Bool) (file : String) (ctx : Store.Context Unit)
    (trace : Option (List String)) (r : Results) : String :=
  let trip := match ctx.origin, ctx.destination with
    | some o, some d => [s!"   Trip: {o} -> {d}"]
    | _, _ => []
  unlines ([Style.title.paint coloured "UEC - Model results", "   File: " ++ file] ++ trip
      ++ (ctx.household.toList.map fun h => s!"   Household: {h}") ++ [""])
    ++ trace.elim "" (traceReport coloured) ++ formulasReport coloured r.formulas
    ++ String.join (r.utilities.map (utilityReport coloured))

def utilityJson (u : UtilityResult) : Json :=
  .object [("name", .text u.name), ("alternatives", .list (u.alternatives.map .text)),
    ("utilities", .list (u.utilities.map .number))]

def resultsDocument (r : Results) : String :=
  document [("formulas", .object (r.formulas.map fun (name, x) => (name, .number x))),
    ("utilities", .list (r.utilities.map utilityJson))]

def checkHeading (coloured : Bool) (file : String) : String :=
  Style.title.paint coloured "Checking" ++ " " ++ file

def soundLine (coloured : Bool) (m : Model) : String :=
  let rows := (m.utilities.flatMap fun u => u.rows).length
  "   " ++ Style.success.paint coloured "ok"
    ++ s!" {m.formulas.length} formulas, {rows} utility rows"

def problemLine (coloured : Bool) (e : Model.Error) : String :=
  "   " ++ Style.failure.paint coloured "error:" ++ " " ++ e.message

end ChoiceModel.Console
