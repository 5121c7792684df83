import YamlQuery.Settings.Basic
import YamlQuery.Text.Utf8
import YamlQuery.Toml.Read
/-!
Settings in a TOML file. What the file does not mention keeps its default, and names that are not settings are passed
over.
-/
namespace YamlQuery.Settings
open Toml

/-- The value of a setting: the default if it is absent, none if it is there with a value of the wrong kind. -/
def setting? {α : Type} (es : Entries) (key : String) (default : α) (read? : Item → Option α) : Option α :=
  match es.lookup key with
  | none => some default
  | some item => read? item

def boolean? : Item → Option Bool
  | .boolean b => some b
  | _ => none

def natural? : Item → Option Nat
  | .integer n => if n < 0 then none else some n.toNatClampNeg
  | _ => none

def isHollow : Item → Bool
  | .inline [] | .table _ [] | .array [] => true
  | _ => false

def format? : Item → Option OutputFormat
  | .string s => OutputFormat.ofName? s
  | .inline [(s, item)] | .table _ [(s, item)] => if isHollow item then OutputFormat.ofName? s else none
  | _ => none

def ofEntries? (es : Entries) : Option Settings := do
  return {
    followAliases := ← setting? es "follow_aliases" true boolean?
    maxDepth := ← setting? es "max_recursion_depth" 256 natural?
    format := ← setting? es "output_format" .yaml format?
    showPaths := ← setting? es "show_paths" false boolean? }

inductive LoadError
  | unreadable (name : String)
  | malformed (name : String)
  deriving DecidableEq

def LoadError.message : LoadError → String
  | unreadable name => "Failed to read config file " ++ name
  | malformed name => "Failed to parse config file " ++ name

def load (name : String) (contents : Option (List UInt8)) : Except LoadError Settings :=
  match contents.bind Utf8.text? with
  | none => .error (.unreadable name)
  | some text =>
    match (read? text).bind ofEntries? with
    | none => .error (.malformed name)
    | some s => .ok s

def loadOrDefault (contents : Option (List UInt8)) : Settings :=
  match load "" contents with
  | .ok s => s
  | .error _ => {}

def flag (b : Bool) : String := if b then "true" else "false"

def maxInteger : Nat := twoTo 63 - 1

/-- The contents of a file with these settings. A limit that is no integer of TOML cannot be written. -/
def save (s : Settings) : Except String String :=
  if s.maxDepth ≤ maxInteger then
    .ok ("follow_aliases = " ++ flag s.followAliases ++ "\nmax_recursion_depth = " ++ toString s.maxDepth ++
      "\noutput_format = \"" ++ s.format.name ++ "\"\nshow_paths = " ++ flag s.showPaths ++ "\n")
  else .error "out-of-range value for u64 type"

end YamlQuery.Settings
