import MessageKeys.Text.Split

/-! # Styles — coloured text

    Styled text starts with its style and ends with a reset.  A reset inside of it is
    followed by the style again.  Without colours, text is plain. -/

namespace MessageKeys.Command

/-- The styles of reports, by their codes. -/
inductive Style where
  | bold
  | dimmed
  | red
  | green
  | blue
  | cyan
  | boldRed
  | boldGreen
  | boldYellow
  deriving DecidableEq, Repr

namespace Style

/-- The codes of a style. -/
def codes : Style → String
  | bold => "1"
  | dimmed => "2"
  | red => "31"
  | green => "32"
  | blue => "34"
  | cyan => "36"
  | boldRed => "1;31"
  | boldGreen => "1;32"
  | boldYellow => "1;33"

/-- What starts a style. -/
def start (s : Style) : List Char := "\x1b[".toList ++ s.codes.toList ++ ['m']

/-- What ends all styles. -/
def reset : List Char := "\x1b[0m".toList

/-- The text with the style again after every reset; `last` are the characters before,
    the nearest first. -/
def resumeAfter (style last : List Char) : List Char → List Char
  | [] => []
  | c :: cs =>
    let last := c :: last
    if (Text.after? reset.reverse last).isSome then c :: style ++ resumeAfter style [] cs
    else c :: resumeAfter style last cs

/-- Text in a style, if there are colours. -/
def paint (color : Bool) (s : Style) (text : String) : String :=
  if color then String.ofList (s.start ++ resumeAfter s.start [] text.toList ++ reset) else text

end Style

end MessageKeys.Command
