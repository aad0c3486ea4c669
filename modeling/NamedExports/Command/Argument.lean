import NamedExports.Text.Integer
import NamedExports.Text.Quoted

/-!
# Arguments of a command

A command takes switches, which begin with a hyphen, and operands, which are known by their place.
Switches and operands can stand in any order; after a double hyphen everything is an operand. A long
switch can be shortened as far as it stays clear which one is meant, its value follows it or stands
behind an equals sign, and short switches without a value can be written together.

What looks like a switch and is none of the command is set aside, and so is what is left when all
operands have been filled.
-/

namespace NamedExports.Command

/-- What a switch does. -/
inductive SwitchUse where
  /-- Asks for the manual. -/
  | help
  /-- Is there or not. -/
  | flag
  /-- Takes a text. -/
  | text
  /-- Takes an integer. -/
  | integer
  deriving DecidableEq, Repr

/-- A switch with its names, the last one of which is the long one. -/
structure Switch where
  names : List String
  use : SwitchUse
  deriving DecidableEq, Repr

namespace Switch

/-- Whether a switch takes a value. -/
def takesValue (s : Switch) : Bool :=
  s.use == .text || s.use == .integer

/-- A switch as it is called in messages. -/
def title (s : Switch) : String :=
  "/".intercalate s.names

end Switch

/-- How many arguments an operand takes. -/
inductive OperandSize where
  /-- One. -/
  | one
  /-- As many as there are, one at least. -/
  | several
  /-- The name of another command, and all arguments after it. -/
  | command
  deriving DecidableEq, Repr

/-- An operand. -/
structure Operand where
  name : String
  size : OperandSize
  deriving DecidableEq, Repr

/-- What a command takes. -/
structure Signature where
  switches : List Switch
  operands : List Operand
  deriving DecidableEq, Repr

/-- Why arguments cannot be read. -/
inductive ArgumentFault where
  /-- A shortened switch could mean several. -/
  | ambiguous (argument : String) (candidates : List String)
  /-- A switch has no value. -/
  | noValue (title : String)
  /-- A switch that takes no value has one. -/
  | uselessValue (title value : String)
  /-- A value is no integer. -/
  | noInteger (title value : String)
  /-- There is no command of that name. -/
  | noCommand (name value : String) (commands : List String)
  /-- Operands are missing. -/
  | missing (names : List String)
  /-- Arguments have been set aside. -/
  | unrecognized (arguments : List String)
  deriving DecidableEq, Repr

/-- The message of a fault. -/
def ArgumentFault.message : ArgumentFault → String
  | ambiguous argument candidates =>
    s!"ambiguous option: {argument} could match " ++ ", ".intercalate candidates
  | noValue title => s!"argument {title}: expected one argument"
  | uselessValue title value =>
    s!"argument {title}: ignored explicit argument {Text.quoted value}"
  | noInteger title value => s!"argument {title}: invalid int value: {Text.quoted value}"
  | noCommand name value commands =>
    s!"argument {name}: invalid choice: {Text.quoted value} (choose from " ++
      ", ".intercalate (commands.map Text.quoted) ++ ")"
  | missing names => "the following arguments are required: " ++ ", ".intercalate names
  | unrecognized arguments => "unrecognized arguments: " ++ " ".intercalate arguments

/-- Why the reading of arguments ends early. -/
inductive Stop where
  /-- The manual is asked for. -/
  | help
  /-- Something is wrong. -/
  | fault (fault : ArgumentFault)
  deriving DecidableEq, Repr

/-! ### What an argument looks like -/

/-- A value that is written in one argument with its switch, and whether an equals sign stands
between them. -/
structure Attached where
  value : String
  equals : Bool
  deriving DecidableEq, Repr

/-- What an argument looks like. -/
inductive Look where
  /-- A switch of the command, under one of its names, perhaps with a value. -/
  | switch (switch : Switch) (name : String) (attached : Option Attached)
  /-- A switch that the command does not have. -/
  | unknown
  /-- An operand. -/
  | operand
  /-- The double hyphen after which everything is an operand. -/
  | separator
  deriving DecidableEq, Repr

/-- An argument at an equals sign: what is before the first one, and what is after it if there is
one. -/
def splitAtEquals (argument : String) : String × Option String :=
  let cs := argument.toList
  let before := cs.takeWhile (· ≠ '=')
  if before.length < cs.length then
    (String.ofList before, some (String.ofList (cs.drop (before.length + 1))))
  else (argument, none)

/-- All names of the switches of a command, each with its switch. -/
def Signature.named (s : Signature) : List (String × Switch) :=
  s.switches.flatMap fun switch => switch.names.map fun name => (name, switch)

/-- What a long argument can be short for. -/
def longCandidates (s : Signature) (argument : String) : List (String × Switch × Option Attached) :=
  let (start, value) := splitAtEquals argument
  (s.named.filter fun n => n.1.startsWith start).map fun n =>
    (n.1, n.2, value.map fun v => ⟨v, true⟩)

/-- What a short argument can be: a short switch with more behind it, or the beginning of a
switch. -/
def shortCandidates (s : Signature) (argument : String) :
    List (String × Switch × Option Attached) :=
  let short := String.ofList (argument.toList.take 2)
  s.named.filterMap fun n =>
    if n.1 = short then
      some (n.1, n.2, some ⟨String.ofList (argument.toList.drop 2), false⟩)
    else if n.1.startsWith argument then some (n.1, n.2, none)
    else none

/-- Whether all of some characters are decimal digits. -/
def allDecimal (cs : List Char) : Bool :=
  cs.all fun c => (Text.decimalValue? c).isSome

/-- Whether an argument is a negative number, which is an operand. -/
def isNegativeNumber (argument : String) : Bool :=
  match argument.toList with
  | '-' :: cs =>
    let whole := cs.takeWhile (· ≠ '.')
    let rest := cs.drop whole.length
    allDecimal whole && if rest.isEmpty then !whole.isEmpty else
      allDecimal (rest.drop 1) && 1 < rest.length
  | _ => false

/-- What an argument looks like, the double hyphen apart. -/
def lookOf (s : Signature) (argument : String) : Except ArgumentFault Look :=
  if !argument.startsWith "-" then .ok .operand
  else match s.named.lookup argument with
    | some switch => .ok (.switch switch argument none)
    | none =>
      if argument = "-" then .ok .operand
      else
        let (start, value) := splitAtEquals argument
        match value, s.named.lookup start with
        | some v, some switch => .ok (.switch switch start (some ⟨v, true⟩))
        | _, _ =>
          let candidates := if argument.startsWith "--" then longCandidates s argument
            else shortCandidates s argument
          match candidates with
          | [(name, switch, attached)] => .ok (.switch switch name attached)
          | _ :: _ => .error (.ambiguous argument (candidates.map (·.1)))
          | [] =>
            if isNegativeNumber argument || argument.toList.contains ' ' then .ok .operand
            else .ok .unknown

/-- What some arguments look like, one after the other. -/
def looks (s : Signature) : List String → Except ArgumentFault (List (String × Look))
  | [] => .ok []
  | argument :: arguments =>
    if argument = "--" then .ok ((argument, .separator) :: arguments.map fun a => (a, .operand))
    else do
      let look ← lookOf s argument
      return (argument, look) :: (← looks s arguments)

/-! ### Taking arguments -/

/-- What has been read: the values of switches and operands by name, the last one of a name in
front, and what has been set aside. -/
structure Reading where
  settings : List (String × List String)
  aside : List String
  deriving DecidableEq, Repr

namespace Reading

/-- Sets a value. -/
def set (r : Reading) (name : String) (values : List String) : Reading :=
  { r with settings := (name, values) :: r.settings }

/-- Sets arguments aside. -/
def setAside (r : Reading) (arguments : List String) : Reading :=
  { r with aside := r.aside ++ arguments }

/-- The values of a name. -/
def get? (r : Reading) (name : String) : Option (List String) :=
  r.settings.lookup name

end Reading

/-- The long name of a switch, under which its value is known. -/
def Switch.key (s : Switch) : String :=
  (s.names.getLast?).getD ""

/-- Does what a switch is for. -/
def applySwitch (r : Reading) (switch : Switch) (values : List String) : Except Stop Reading :=
  match switch.use, values with
  | .help, _ => .error .help
  | .integer, value :: _ =>
    if (Text.readInteger value).isSome then .ok (r.set switch.key values)
    else .error (.fault (.noInteger switch.title value))
  | _, _ => .ok (r.set switch.key values)

/-- Does what some switches are for, one after the other. -/
def applySwitches : Reading → List (Switch × List String) → Except Stop Reading
  | r, [] => .ok r
  | r, (switch, values) :: rest => do applySwitches (← applySwitch r switch values) rest

/-- Reads short switches that are written together: `name` has been read, and the characters are
what is attached to it. The result also says what is set aside. -/
def attachedSwitches (s : Signature) (switch : Switch) (name : String) (equals : Bool)
    (value : List Char) : Except Stop (List (Switch × List String) × List String) :=
  if switch.takesValue then .ok ([(switch, [String.ofList value])], [])
  else match value with
    | [] => .error (.fault (.uselessValue switch.title ""))
    | c :: cs =>
      if name.startsWith "--" || equals || c = '-' then
        .error (.fault (.uselessValue switch.title (String.ofList (c :: cs))))
      else
        let next := String.ofList ['-', c]
        match s.named.lookup next with
        | none => .ok ([(switch, [])], [String.ofList ('-' :: c :: cs)])
        | some other =>
          if cs.isEmpty then .ok ([(switch, []), (other, [])], [])
          else do
            let isEquals := cs.head? == some '='
            let (more, aside) ← attachedSwitches s other next isEquals
              (if isEquals then cs.drop 1 else cs)
            return ((switch, []) :: more, aside)
termination_by value.length
decreasing_by
  split <;> simp only [List.length_cons, List.length_drop] <;> omega

/-- Takes the switch at the front of some arguments; the result is what is left of them. -/
def takeSwitch (s : Signature) (r : Reading) (argument : String) (look : Look)
    (rest : List (String × Look)) : Except Stop (Reading × List (String × Look)) :=
  match look with
  | .switch switch name (some attached) => do
    let (switches, aside) ← attachedSwitches s switch name attached.equals attached.value.toList
    return (← applySwitches (r.setAside aside) switches, rest)
  | .switch switch _ none =>
    if switch.takesValue then
      match rest with
      | (value, .operand) :: rest => do return (← applySwitch r switch [value], rest)
      | _ => .error (.fault (.noValue switch.title))
    else do return (← applySwitch r switch [], rest)
  | _ => .ok (r.setAside [argument], rest)

/-- Whether an argument looks like an operand or a double hyphen. -/
def isPlain : Look → Bool
  | .operand | .separator => true
  | _ => false

/-- The arguments that an operand takes from the front, if it can take any. -/
def taken (size : OperandSize) (arguments : List (String × Look)) :
    Option (List (String × Look)) :=
  let front := arguments.takeWhile fun a => a.2 == .separator
  match arguments.drop front.length with
  | (value, .operand) :: rest =>
    let more := match size with
      | .one => rest.takeWhile fun a => a.2 == .separator
      | .several => rest.takeWhile fun a => isPlain a.2
      | .command => rest
    some (front ++ (value, .operand) :: more)
  | _ => none

/-- The values of an operand: a double hyphen among its arguments is none, except where the
arguments are those of another command. -/
def valuesOf (size : OperandSize) (arguments : List (String × Look)) : List String :=
  let texts := arguments.map (·.1)
  match size with
  | .command => texts
  | _ => texts.erase "--"

/-- Fills operands from the front of some arguments; the result is what is left of both. -/
def takeOperands : Reading → List Operand → List (String × Look) →
    Reading × List Operand × List (String × Look)
  | r, [], arguments => (r, [], arguments)
  | r, operand :: operands, arguments =>
    match taken operand.size arguments with
    | some used =>
      takeOperands (r.set operand.name (valuesOf operand.size used)) operands
        (arguments.drop used.length)
    | none => (r, operand :: operands, arguments)

/-- Takes switches and operands in turn; `steps` bounds the number of turns. -/
def takeAll (s : Signature) : (steps : Nat) → Reading → List Operand → List (String × Look) →
    Except Stop (Reading × List Operand)
  | 0, r, operands, _ => .ok (r, operands)
  | steps + 1, r, operands, arguments =>
    match arguments with
    | [] => .ok (r, operands)
    | (argument, look) :: rest =>
      if isPlain look then
        let (r', operands', left) := takeOperands r operands arguments
        if left.length < arguments.length then takeAll s steps r' operands' left
        else
          let extra := arguments.takeWhile fun a => isPlain a.2
          takeAll s steps (r.setAside (extra.map (·.1))) operands (arguments.drop extra.length)
      else do
        let (r', left) ← takeSwitch s r argument look rest
        takeAll s steps r' operands left

/-- Reads the arguments of a command. -/
def Signature.read (s : Signature) (arguments : List String) : Except Stop Reading := do
  let looked ← (looks s arguments).mapError Stop.fault
  let (r, operands) ← takeAll s (2 * looked.length + 1) ⟨[], []⟩ s.operands looked
  if operands.isEmpty then return r
  else .error (.fault (.missing (operands.map (·.name))))

end NamedExports.Command
