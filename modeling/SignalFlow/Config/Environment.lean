import SignalFlow.Config.Error
import SignalFlow.Text.Blank
import SignalFlow.Yaml.Document
/-!
# Values from the environment

A node with the tag `!env_var` stands for the value of an environment variable. Its text is the name
of the variable and, behind a blank, a text to use when the variable is not set.

* `Reference.ofText`  the name and the fallback in the text of such a node;
* `substitution`      what takes the place of the node: the text that was found, read as YAML, or the
                      text itself where it is no YAML;
* `substitute`        a value with every such node replaced; the first node that cannot be replaced,
                      a key before its value, decides the error.

What is put in is not looked at again. A mapping is put together anew from its entries, so two keys
that have become equal leave one entry, in the place of the first with the value of the last.
-/

namespace SignalFlow

/-- the environment variables: the value of each one that is set -/
abbrev Environment := String → Option String

namespace Environment

/-- may a variable have this name? -/
def isName (name : String) : Bool :=
  !name.isEmpty && name.toList.all fun c => c != '=' && c != '\x00'

/-- the value of a variable; a name that no variable may have is not set -/
def get? (env : Environment) (name : String) : Option String :=
  if isName name then env name else none

/-- the environment in which these variables are set, the first of a name counting -/
def ofList (entries : List (String × String)) : Environment := fun name =>
  (entries.find? (·.1 = name)).map (·.2)

/-- the tag of the nodes that stand for variables -/
def referenceTag : String := "!env_var"

end Environment

/-- a variable that is asked for, and the text to use when it is not set -/
structure Reference where
  name : String
  fallback : Option String
  deriving DecidableEq, Inhabited, Repr

namespace Reference

def ofText (text : String) : Reference :=
  let cs := Text.trim text.toList
  let name := String.ofList (cs.takeWhile fun c => !Text.isBlank c)
  match cs.dropWhile fun c => !Text.isBlank c with
  | [] => { name, fallback := none }
  | _ :: rest => { name, fallback := some (String.ofList (Text.trim rest)) }

/-- the text that a reference stands for: that of the variable before the fallback -/
def text? (env : Environment) (reference : Reference) : Option String :=
  (env.get? reference.name).or reference.fallback

end Reference

namespace Yaml.Value

/-- the value that a text stands for: what it is as YAML, or the text itself if it is none -/
def ofText (text : String) : Value := (read? text).getD (.string text)

/-- what takes the place of an `!env_var` node with this content -/
def substitution (env : Environment) : Value → Except ConfigError Value
  | .string text =>
    let reference := Reference.ofText text
    match reference.text? env with
    | some found => .ok (ofText found)
    | none => .error (.unsetVariable reference.name)
  | _ => .error (.invalid .variableName)

mutual

/-- the value with its `!env_var` nodes replaced -/
def substitute (env : Environment) : Value → Except ConfigError Value
  | .tagged tag content =>
    if tag = Environment.referenceTag then substitution env content
    else
      match substitute env content with
      | .ok content => .ok (.tagged tag content)
      | .error e => .error e
  | .sequence items =>
    match substituteItems env items with
    | .ok items => .ok (.sequence items)
    | .error e => .error e
  | .mapping entries =>
    match substituteEntries env [] entries with
    | .ok entries => .ok (.mapping entries)
    | .error e => .error e
  | scalar => .ok scalar

def substituteItems (env : Environment) : List Value → Except ConfigError (List Value)
  | [] => .ok []
  | item :: rest =>
    match substitute env item with
    | .error e => .error e
    | .ok item =>
      match substituteItems env rest with
      | .error e => .error e
      | .ok rest => .ok (item :: rest)

/-- the entries put behind those that are done -/
def substituteEntries (env : Environment) (done : List (Value × Value)) :
    List (Value × Value) → Except ConfigError (List (Value × Value))
  | [] => .ok done
  | (key, value) :: rest =>
    match substitute env key with
    | .error e => .error e
    | .ok key =>
      match substitute env value with
      | .error e => .error e
      | .ok value => substituteEntries env (put key value done) rest

end

/-! ## what is asked for -/

mutual

/-- what the `!env_var` nodes of a value ask for, in the order of the document -/
def references : Value → List Reference
  | .tagged tag content =>
    if tag = Environment.referenceTag then
      match content with
      | .string text => [.ofText text]
      | _ => []
    else references content
  | .sequence items => referencesOfItems items
  | .mapping entries => referencesOfEntries entries
  | _ => []

def referencesOfItems : List Value → List Reference
  | [] => []
  | item :: rest => references item ++ referencesOfItems rest

def referencesOfEntries : List (Value × Value) → List Reference
  | [] => []
  | (key, value) :: rest => references key ++ references value ++ referencesOfEntries rest

end

end Yaml.Value

/-- the value of a YAML text in an environment -/
def Yaml.load (env : Environment) (text : String) : Except ConfigError Yaml.Value :=
  match Yaml.read? text with
  | some value => value.substitute env
  | none => .error .malformed

/-- the value of a YAML file, given by its bytes, or `none` if there is no such file -/
def Yaml.loadFile (env : Environment) (file : Option ByteArray) : Except ConfigError Yaml.Value :=
  match file.bind String.fromUTF8? with
  | some text => Yaml.load env text
  | none => .error .unreadable

end SignalFlow
