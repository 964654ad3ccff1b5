import BundleHook.Text.Blank

/-!
# Arguments

The arguments of a command are options, which begin with two dashes, and words. Options may stand
between the words; two dashes alone make all that follows words.
-/

namespace BundleHook

/-- The options that a command knows. -/
structure Options where
  flags : List String
  valued : List String

/-- Arguments that are understood. -/
structure Arguments where
  flags : List String
  values : List (String × String)
  words : List String

namespace Arguments

def none : Arguments := ⟨[], [], []⟩

def looksLikeOption (argument : String) : Bool :=
  match argument.toList with
  | '-' :: _ :: _ => true
  | _ => false

/-- An option and the value that is given behind an equals sign. -/
def cut (argument : String) : String × Option String :=
  let t := argument.toList
  let name := t.takeWhile (· ≠ '=')
  match t.drop name.length with
  | _ :: value => (String.ofList name, some (String.ofList value))
  | [] => (argument, Option.none)

/-- Reads arguments behind those that are understood already; `none` when an option is not known, or
has a value too many or too few. -/
def readFrom (options : Options) (known : Arguments) : List String → Option Arguments
  | [] => some known
  | "--" :: others => some { known with words := known.words ++ others }
  | argument :: others =>
    if looksLikeOption argument then
      match cut argument with
      | (name, some value) =>
        if options.valued.contains name then
          readFrom options { known with values := (name, value) :: known.values } others
        else Option.none
      | (name, Option.none) =>
        if options.flags.contains name then
          readFrom options { known with flags := name :: known.flags } others
        else if options.valued.contains name then
          match others with
          | value :: others =>
            readFrom options { known with values := (name, value) :: known.values } others
          | [] => Option.none
        else Option.none
    else readFrom options { known with words := known.words ++ [argument] } others

/-- Reads arguments. The last value of an option comes first. -/
def read (options : Options) (arguments : List String) : Option Arguments :=
  readFrom options none arguments

def value? (arguments : Arguments) (name : String) : Option String := arguments.values.lookup name

def has (arguments : Arguments) (name : String) : Bool := arguments.flags.contains name

end Arguments

end BundleHook
