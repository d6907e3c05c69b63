/-!
# Coloured text

Text on a terminal may be coloured by control sequences around it.  Without
colours a text stays as it is.
-/

namespace StatementForest

/-- How a piece of text is shown. -/
inductive Style where
  | bold
  | dimmed
  | red
  | yellow
  | blue
  | magenta
  | cyan
  | green
  | boldRed
  | boldYellow
  | boldBlue
  | boldCyan
  deriving DecidableEq, Repr

namespace Style

/-- The parameters of the control sequence for a style. -/
def parameters : Style → String
  | .bold => "1"
  | .dimmed => "2"
  | .red => "31"
  | .green => "32"
  | .yellow => "33"
  | .blue => "34"
  | .magenta => "35"
  | .cyan => "36"
  | .boldRed => "1;31"
  | .boldYellow => "1;33"
  | .boldBlue => "1;34"
  | .boldCyan => "1;36"

/-- The control sequence that ends all styles. -/
def reset : String := "\x1b[0m"

/-- The control sequence that begins a style. -/
def start (style : Style) : String := "\x1b[" ++ style.parameters ++ "m"

/-- A text in a style, if colours are wanted.  Where a style ends within the text, this
one begins again. -/
def paint (style : Style) (coloured : Bool) (text : String) : String :=
  if coloured then style.start ++ text.replace reset (reset ++ style.start) ++ reset else text

end Style

end StatementForest
