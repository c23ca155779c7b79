/-!
# `Arguments` — the words of a command line

Words are taken from left to right, and the first that does not fit, or that asks for something else,
decides.

## Contents
- **Switches.** `Switch`, what a name or a letter behind dashes stands for.
- **Words.** `Word` and `words`.
- **`Shape`**, what a command takes, **`Given`**, what it has been given, and `collect`.
-/

namespace JavaRefactor.Arguments

/-- Why no command comes of the words. -/
inductive Stop where
  | fault
  | help
  | version
  deriving DecidableEq, Repr, Inhabited

/-! ## Switches -/

/-- What a switch does. -/
inductive Effect where
  | flag
  /-- It takes a value, which must fit. -/
  | value (fits : String → Bool)
  | stop (why : Stop)

/-- A word that starts with dashes: a name behind two, a letter behind one. -/
structure Switch where
  name : String
  letter : Option Char
  effect : Effect

/-- Whether a switch takes a value. -/
def Switch.takesValue (s : Switch) : Bool :=
  match s.effect with
  | .value _ => true
  | _ => false

/-- A switch with a value and no letter. -/
def Switch.taking (name : String) (fits : String → Bool) : Switch := ⟨name, none, .value fits⟩

/-- The switch that asks for help. -/
def Switch.help : Switch := ⟨"help", some 'h', .stop .help⟩

/-- The switch that asks for the version. -/
def Switch.version : Switch := ⟨"version", some 'V', .stop .version⟩

/-! ## Words -/

/-- A word and what belongs to it. -/
inductive Word where
  | operand (text : String)
  | switch (which : Switch) (value : Option String)
  /-- A switch that is not known, or that has no value or one too many. -/
  | misfit

/-- Whether a word can only be a switch; a lone dash is none. -/
def isDashed (arg : String) : Bool :=
  match arg.toList with
  | '-' :: _ :: _ => true
  | _ => false

/-- The words that letters behind one dash stand for, and the switch that still lacks its value. -/
def lettered (known : List Switch) : List Char → List Word × Option Switch
  | [] => ([], none)
  | c :: cs =>
    match known.find? (·.letter == some c) with
    | none => ([.misfit], none)
    | some s =>
      if s.takesValue then
        match cs with
        | [] => ([], some s)
        | '=' :: value => ([.switch s (some (String.ofList value))], none)
        | value => ([.switch s (some (String.ofList value))], none)
      else
        let (more, last) := lettered known cs
        (.switch s none :: more, last)

/-- The word that a name behind two dashes stands for, or the switch that still lacks its value. -/
def named (known : List Switch) (body : List Char) : List Word × Option Switch :=
  let name := body.takeWhile (· != '=')
  match known.find? (·.name.toList == name), body.drop name.length with
  | none, _ => ([.misfit], none)
  | some s, [] => if s.takesValue then ([], some s) else ([.switch s none], none)
  | some s, _ :: value =>
    if s.takesValue then ([.switch s (some (String.ofList value))], none) else ([.misfit], none)

/-- Takes words apart. A switch finds its value behind an equals sign or in the next word, unless that is
dashed; behind two lone dashes all words are operands. -/
def words (known : List Switch) : List String → List Word
  | [] => []
  | arg :: rest =>
    if arg == "--" then rest.map .operand
    else if !isDashed arg then .operand arg :: words known rest
    else
      let (front, open?) := match arg.toList with
        | '-' :: '-' :: body => named known body
        | cs => lettered known (cs.drop 1)
      match open? with
      | none => front ++ words known rest
      | some s =>
        match rest with
        | [] => front ++ [.misfit]
        | value :: more =>
          if isDashed value then front ++ [.misfit]
          else front ++ .switch s (some value) :: words known more

/-! ## What a command takes -/

/-- What a command takes. -/
structure Shape where
  switches : List Switch
  /-- Whether a text may stand behind so many operands. -/
  operandFits : Nat → String → Bool

/-- What a command has been given. -/
structure Given where
  operands : List String
  values : List (String × Option String)
  deriving DecidableEq, Repr, Inhabited

namespace Given

/-- Whether a switch has been given. -/
def has (g : Given) (name : String) : Bool := g.values.any (·.1 == name)

/-- The value of a switch. -/
def value? (g : Given) (name : String) : Option String := (g.values.lookup name).join

end Given

/-- Takes a word; no switch is taken twice. -/
def take (s : Shape) (g : Given) : Word → Except Stop Given
  | .misfit => .error .fault
  | .operand text =>
    if s.operandFits g.operands.length text then .ok { g with operands := g.operands ++ [text] }
    else .error .fault
  | .switch ⟨name, _, effect⟩ value =>
    let taken : Given := { g with values := g.values ++ [(name, value)] }
    match effect with
    | .stop why => .error why
    | .flag => if g.has name then .error .fault else .ok taken
    | .value fits =>
      if g.has name || !value.all fits then .error .fault else .ok taken

/-- Takes all words. -/
def collect (s : Shape) (args : List String) : Except Stop Given :=
  (words s.switches args).foldlM (take s) ⟨[], []⟩

end JavaRefactor.Arguments
