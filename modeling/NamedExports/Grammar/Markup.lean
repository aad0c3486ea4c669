import NamedExports.Grammar.TypeForm

/-!
# Markup elements

An element has a name, attributes and a content of text, elements and expressions in braces; an
element without content can be closed at once, and an element without a name is a fragment. In the
text of an element comments and quotes are text like any other.
-/

namespace NamedExports.Markup

open Scan

/-- Reads the name of an element or an attribute, in which hyphens, colons and dots can stand. -/
def name : Scan Unit := do
  gap
  nameHere
  skipMany ((do let _ ← charOf fun c => c = '-' || c = ':' || c = '.'; skipClass isWordChar) <|>
    nameHere)

/-- Reads an expression in braces, which can be empty or spread. -/
def place (deeper : Deeper) : Scan Unit := do
  mark '\x7b'
  let _ ← optional (do
    let _ ← optional (sign "...")
    deeper.inners)
  mark '\x7d'

/-- Reads a text in quotes, in which nothing is escaped. -/
def string : Scan Unit := do
  gap
  let quote ← charOf fun c => c = '\x22' || c = '\x27'
  skipClass (· != quote)
  char quote

/-- Reads an attribute. -/
def property (deeper : Deeper) : Scan Unit :=
  place deeper <|> (do
    name
    let _ ← optional (do
      mark '='
      string <|> place deeper <|> (do let _ ← deeper .element)))

/-- Reads the text between the parts of a content. -/
def text : Scan Unit := do
  let ends (c : Char) : Bool := ['<', '>', '\x7b', '\x7d'].contains c
  let _ ← charOf (!ends ·)
  skipClass (!ends ·)

/-- Reads the content of an element. -/
def content (deeper : Deeper) : Scan Unit :=
  skipMany (text <|> (do char '\x7b'; modify (· - 1); place deeper) <|> (do
    notAt (exactly "</")
    let _ ← charOf (· == '<')
    modify (· - 1)
    let _ ← deeper .element))

/-- Reads the end of an element that has content. -/
def close : Scan Unit := do
  mark '<'
  mark '/'
  let _ ← optional name
  mark '>'

/-- Reads an element from where its first bracket has been read. -/
def afterBracket (deeper : Deeper) : Scan String :=
  (do
    mark '>'
    content deeper
    close
    return "jsx_element") <|>
  (do
    name
    let _ ← optional (TypeForm.arguments deeper)
    skipMany (property deeper)
    (do
      mark '/'
      mark '>'
      return "jsx_self_closing_element") <|>
    (do
      mark '>'
      content deeper
      close
      return "jsx_element"))

/-- Reads an element. -/
def element (deeper : Deeper) : Scan Syntax := do
  let start ← tokenStart
  mark '<'
  let kind ← afterBracket deeper
  leafFrom kind start

end NamedExports.Markup
