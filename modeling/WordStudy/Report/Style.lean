/-!
# Styled text

Text in which some parts have a colour. On a terminal without colours only the text is
written; on one with colours each styled part is framed by **control sequences** that set its
style and take it back.
-/

namespace WordStudy

/-- A colour of the terminal. -/
inductive Colour where
  | red
  | green
  | yellow
  | cyan
  deriving DecidableEq, Repr

/-- The digit of a colour. -/
def Colour.digit : Colour → String
  | red => "1"
  | green => "2"
  | yellow => "3"
  | cyan => "6"

/-- A part of a text. -/
inductive Span where
  | plain (text : String)
  | styled (colour : Colour) (bold : Bool) (text : String)
  deriving DecidableEq, Repr

namespace Span

def control (code : String) : String := "\x1b[" ++ code ++ "m"

def reset : String := control "0"

/-- A part as it is written. -/
def render (coloured : Bool) : Span → String
  | plain text => text
  | styled colour bold text =>
    if coloured then
      reset ++ (if bold then control "1" else "") ++ control ("3" ++ colour.digit) ++ text ++ reset
    else text

/-- The characters of a part that are no control sequences. -/
def text : Span → String
  | plain text => text
  | styled _ _ text => text

/-- **A text as it is written.** -/
def renderAll (coloured : Bool) (spans : List Span) : String :=
  String.join (spans.map (render coloured))

end Span

end WordStudy
