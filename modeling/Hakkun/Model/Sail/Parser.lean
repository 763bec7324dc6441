import Hakkun.Model.Sail.Text

/-! # The symbol language

Translated from sail's `src/parser.cpp`. A line is cut at spaces; braces and comments are recognised
inside the pieces.
-/

namespace Hakkun.Sail

/-! ## Tokens -/

/-- `if (!part.empty()) newParts.push_back(part)`. -/
def pushPart (part : Text) : List Text := if part = [] then [] else [part]

/-- `if (braceBuf.size() > 1) newParts.push_back(braceBuf.substr(1))`. -/
def pushBraceBuf (braceBuf : Text) : List Text :=
  if braceBuf.length > 1 then [braceBuf.drop 1] else []

/-- A part while no brace is open; the tokens and the new `braceBuf`. -/
def openBrace (part : Text) : List Text × Text :=
  match find ['{'] part with
  | some pos => (pushPart (part.take pos), part.drop pos)
  | none => ([part], [])

/-- A part without a comment; the tokens and the new `braceBuf`. -/
def addPart (braceBuf part : Text) : List Text × Text :=
  if braceBuf = [] then openBrace part
  else
    match find ['}'] part with
    | some pos =>
      let braceBuf := braceBuf ++ part.take pos
      let part := part.drop (pos + 1)
      if part = [] then (pushBraceBuf braceBuf, [])
      else
        let (tokens, next) := openBrace part
        (pushBraceBuf braceBuf ++ tokens, next)
    | none => ([], braceBuf ++ part)

/-- The loop over the parts. -/
def addParts : Text → List Text → List Text
  | _, [] => []
  | braceBuf, part :: rest =>
    match find ['/', '/'] part with
    | some pos => pushBraceBuf braceBuf ++ pushPart (part.take pos)
    | none =>
      match find ['#'] part with
      | some pos => pushBraceBuf braceBuf ++ pushPart (part.take pos)
      | none =>
        let (tokens, next) := addPart braceBuf part
        tokens ++ addParts next rest

def splitByWhitespaceAndRemoveComments (data : Text) : List Text :=
  (addParts [] (split data ' ')).dropWhile fun part => part.isEmpty

end Hakkun.Sail
