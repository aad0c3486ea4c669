import NamedExports.Grammar.Exchange

/-!
# Statements

A statement is recognised by its first word, or else is an expression. A few first words can be
names as well; where the statement that they begin cannot be read, the line is an expression after
all.
-/

namespace NamedExports.Statement

open Scan

/-- Reads an expression, with a semicolon or without one. -/
def expression (deeper : Deeper) : Scan Syntax := do
  let start ← tokenStart
  let _ ← deeper (.value true true)
  skipMany (do mark ','; deeper (.value true true))
  Ending.ofValue.finish
  leafFrom "expression_statement" start

/-- Reads a condition in parentheses. -/
def condition (deeper : Deeper) : Scan Unit := do
  mark '('
  deeper.inners
  mark ')'

/-- Reads a statement with a name. -/
def labeled (deeper : Deeper) : Scan Syntax := do
  let start ← tokenStart
  let _ ← Binding.name
  sign ":"
  let _ ← deeper .statement
  leafFrom "labeled_statement" start

/-! ### Choices and loops -/

/-- Reads a conditional statement. -/
def conditional (deeper : Deeper) : Scan Syntax := do
  let start ← tokenStart
  word "if"
  condition deeper
  let _ ← deeper .statement
  let _ ← optional (do word "else"; deeper .statement)
  leafFrom "if_statement" start

/-- Reads the head of a loop over the members or entries of a value. -/
def memberHead (deeper : Deeper) : Scan Unit := do
  let _ ← optional (word "await")
  mark '('
  (do
    let _ ← wordOf ["var", "let", "const"]
    let _ ← deeper .pattern
    let _ ← wordOf ["in", "of"]) <|>
  (do
    let _ ← deeper .pattern
    let _ ← wordOf ["in", "of"])
  deeper.inners
  mark ')'

/-- Reads the head of a loop with a condition and a step. -/
def countedHead (deeper : Deeper) : Scan Unit := do
  mark '('
  (do let _ ← Declaration.bindings deeper false fun _ => mark ';') <|> (do
    let _ ← optional deeper.inners
    mark ';')
  let _ ← optional deeper.inners
  mark ';'
  let _ ← optional deeper.inners
  mark ')'

/-- Reads a loop that begins with the word for. -/
def forLoop (deeper : Deeper) : Scan Syntax := do
  let start ← tokenStart
  word "for"
  let kind ← (do memberHead deeper; return "for_in_statement") <|>
    (do countedHead deeper; return "for_statement")
  let _ ← deeper .statement
  leafFrom kind start

/-- Reads a loop with its condition in front. -/
def whileLoop (deeper : Deeper) : Scan Syntax := do
  let start ← tokenStart
  word "while"
  condition deeper
  let _ ← deeper .statement
  leafFrom "while_statement" start

/-- Reads a loop with its condition behind. -/
def doLoop (deeper : Deeper) : Scan Syntax := do
  let start ← tokenStart
  word "do"
  let _ ← deeper .statement
  word "while"
  condition deeper
  let _ ← optional Ending.ofType.finish
  leafFrom "do_statement" start

/-- Reads a choice between cases. -/
def switch (deeper : Deeper) : Scan Syntax := do
  let start ← tokenStart
  word "switch"
  condition deeper
  mark '\x7b'
  skipMany (do
    (do word "case"; deeper.inners) <|> word "default"
    sign ":"
    skipMany (deeper .statement))
  mark '\x7d'
  leafFrom "switch_statement" start

/-- Reads a statement in an environment of names. -/
def within (deeper : Deeper) : Scan Syntax := do
  let start ← tokenStart
  word "with"
  condition deeper
  let _ ← deeper .statement
  leafFrom "with_statement" start

/-! ### Jumps -/

/-- Reads a block with what is done when it fails or ends. -/
def attempt (deeper : Deeper) : Scan Syntax := do
  let start ← tokenStart
  word "try"
  let _ ← deeper.block
  let _ ← optional (do
    word "catch"
    let _ ← optional (do
      mark '('
      let _ ← deeper .pattern
      let _ ← optional (deeper.annotation false)
      mark ')')
    deeper.block)
  let _ ← optional (do word "finally"; deeper.block)
  leafFrom "try_statement" start

/-- Reads a jump, with a value if it has one. -/
def jump (deeper : Deeper) (first kind : String) : Scan Syntax := do
  let start ← tokenStart
  word first
  let _ ← optional (do
    Ending.ofValue.goesOn true
    let _ ← deeper (.value true true)
    skipMany (do mark ','; deeper (.value true true)))
  Ending.ofValue.finish
  leafFrom kind start

/-- Reads a statement of nothing. -/
def empty : Scan Syntax := do
  let start ← tokenStart
  mark ';'
  leafFrom "empty_statement" start

/-! ### Statements of any sort -/

/-- Reads a statement by its first word. -/
def byWord (deeper : Deeper) : String → Scan Syntax
  | "import" => Exchange.importStatement deeper <|> Declaration.importAlias
  | "if" => conditional deeper
  | "for" => forLoop deeper
  | "while" => whileLoop deeper
  | "do" => doLoop deeper
  | "switch" => switch deeper
  | "with" => within deeper
  | "try" => attempt deeper
  | "return" => jump deeper "return" "return_statement"
  | "throw" => jump deeper "throw" "throw_statement"
  | "break" => jump deeper "break" "break_statement"
  | "continue" => jump deeper "continue" "continue_statement"
  | "debugger" => jump deeper "debugger" "debugger_statement"
  | "export" => Exchange.exportStatement deeper
  | "declare" => Declaration.ambient deeper true
  | "var" | "let" | "const" | "function" | "async" | "class" | "abstract" | "interface" | "type"
  | "enum" | "module" => Declaration.plain deeper true
  | _ => failure

/-- Reads a statement. -/
def statement (deeper : Deeper) : Scan Syntax := do
  gap
  match ← peek with
  | some '\x7b' => deeper.block
  | some ';' => empty
  | some '@' => Exchange.exportStatement deeper <|> Declaration.classWithName deeper
  | _ =>
    let start ← position
    let first ← optional anyName
    goTo start
    byWord deeper ((first.map (·.2)).getD "") <|> labeled deeper <|> expression deeper

end NamedExports.Statement
