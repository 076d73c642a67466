import LiveUI.Source.Error
import LiveUI.Value.Error

/-!
# Errors of templates

Why a template cannot be compiled, and why a compiled one cannot build its tree. Both name the
statement at fault by its place and its canonical text.
-/

namespace LiveUI.Template

open LiveUI.Source

/-- A statement: its place and its text. -/
structure Location where
  pos : Position
  line : String
deriving DecidableEq, Repr, Inhabited

def Location.text (l : Location) : String :=
  "at " ++ l.pos.text ++ ": `" ++ l.line ++ "`"

inductive CompileError where
  | malformed (e : SyntaxError)
  /-- A name before the point where it becomes visible, or one that never does. -/
  | unknownName (name : String) (place : Location)
  /-- A `:=` whose value is no attribute path. -/
  | delegate (place : Location)
  /-- A parameter default without a value. -/
  | default (define param : String) (cause : EvalError)
deriving Inhabited

namespace CompileError

def message : CompileError → String
  | malformed e => e.message
  | unknownName name place => "name '" ++ name ++ "' is not defined " ++ place.text
  | delegate place => "`:=` needs an attribute path such as `model.value` " ++ place.text
  | default define param cause =>
      "default for parameter '" ++ param ++ "' of " ++ define ++ " failed: " ++ cause.message

/-- The message of the error behind this one. -/
def cause? : CompileError → Option String
  | malformed e => some e.message
  | default _ _ cause => some cause.message
  | unknownName .. | delegate .. => none

end CompileError

/-- Arguments that do not fit the parameters of a define. -/
inductive ArgumentFault where
  | surplus (parameters given : Nat)
  | unexpected (keyword : String)
  | repeated (keyword : String)
  | missing (parameter : String)
deriving DecidableEq, Repr, Inhabited

def ArgumentFault.message : ArgumentFault → String
  | surplus parameters given =>
      "takes " ++ toString parameters ++ " argument(s) but " ++ toString given ++ " were given"
  | unexpected keyword => "unexpected keyword argument '" ++ keyword ++ "'"
  | repeated keyword => "got multiple values for argument '" ++ keyword ++ "'"
  | missing parameter => "missing required argument '" ++ parameter ++ "'"

/-- A target that is no object. -/
inductive TargetFault where
  | notIndexable (typeName : String)
  | notObject (attr typeName : String)
deriving DecidableEq, Repr, Inhabited

def TargetFault.message : TargetFault → String
  | notIndexable typeName => "cannot index a '" ++ typeName ++ "'"
  | notObject attr typeName => "cannot set '" ++ attr ++ "' on a '" ++ typeName ++ "'"

/-- Why a factory builds nothing. -/
inductive FactoryFault where
  | surplus (positional given : Nat)
  | noInstances
  | refused (message : String)
deriving DecidableEq, Repr, Inhabited

def FactoryFault.message : FactoryFault → String
  | surplus positional given =>
      "takes " ++ toString positional ++ " positional argument(s) but " ++ toString given ++
        " were given"
  | noInstances => "factory produced no instances"
  | refused message => message

inductive RuntimeError where
  | unknownType (typeName registry : String)
  | eval (cause : EvalError) (place : Option Location)
  /-- Several names for another number of instances. -/
  | unpack (expected found : Nat) (place : Location)
  /-- A capture of what a construct neither exports nor carries. -/
  | capture (attr : String) (place : Location)
  | target (fault : TargetFault) (place : Location)
  | arguments (define : String) (fault : ArgumentFault)
  | factory (typeName : String) (fault : FactoryFault)
deriving Inhabited

namespace RuntimeError

def message : RuntimeError → String
  | unknownType typeName registry =>
      "unknown type '" ++ typeName ++ "' in registry '" ++ registry ++ "'"
  | eval cause (some place) => cause.message ++ " " ++ place.text
  | eval cause none => cause.message
  | unpack expected found place =>
      "cannot unpack " ++ toString found ++ " instance(s) into " ++ toString expected ++
        " names " ++ place.text
  | capture attr place => "nothing to capture as '" ++ attr ++ "' " ++ place.text
  | target fault place => fault.message ++ " " ++ place.text
  | arguments define fault => define ++ "(): " ++ fault.message
  | factory typeName fault => "cannot build " ++ typeName ++ ": " ++ fault.message

/-- The message of the error behind this one. -/
def cause? : RuntimeError → Option String
  | e@(unknownType ..) => some e.message
  | eval cause _ => some cause.message
  | _ => none

end RuntimeError

end LiveUI.Template
