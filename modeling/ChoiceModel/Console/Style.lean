/-! Pieces of output that stand out on a terminal which shows colours. -/

namespace ChoiceModel.Console

inductive Colour where
  | red
  | green
  | cyan
  | brightYellow
  | brightBlue

def Colour.code : Colour → String
  | red => "31"
  | green => "32"
  | cyan => "36"
  | brightYellow => "93"
  | brightBlue => "94"

structure Style where
  bold : Bool
  colour : Option Colour

namespace Style

def title : Style := ⟨true, some .green⟩

def heading : Style := ⟨true, some .cyan⟩

def name : Style := ⟨false, some .brightBlue⟩

def boldName : Style := ⟨true, some .brightBlue⟩

def quotation : Style := ⟨false, some .brightYellow⟩

def value : Style := ⟨true, some .green⟩

def formulaValue : Style := ⟨true, none⟩

def success : Style := ⟨true, some .green⟩

def failure : Style := ⟨true, some .red⟩

def reset : String := "\x1b[0m"

def start (s : Style) : String :=
  let codes := (if s.bold then ["1"] else []) ++ s.colour.toList.map Colour.code
  "\x1b[" ++ ";".intercalate codes ++ "m"

/-- A text in a style, if there are colours; where the text itself ends all styles, this one is
taken up again. -/
def paint (s : Style) (coloured : Bool) (text : String) : String :=
  if coloured then s.start ++ text.replace reset (reset ++ s.start) ++ reset else text

end Style

structure Environment where
  settings : List (String × String)
  terminal : Bool

namespace Environment

def get? (env : Environment) (name : String) : Option String := env.settings.lookup name

/-- Whether a switch is on: it is set to anything but `0`. -/
def switch? (env : Environment) (name : String) : Option Bool :=
  (env.get? name).map fun value => value != "0"

/-- Colours can be forced; otherwise they can be refused, and only a terminal shows them. -/
def coloured (env : Environment) : Bool :=
  env.switch? "CLICOLOR_FORCE" == some true
    || (env.switch? "NO_COLOR").isNone && (env.switch? "CLICOLOR").getD true && env.terminal

end Environment

end ChoiceModel.Console
