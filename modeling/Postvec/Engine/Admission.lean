import Mathlib.Data.Char
import Mathlib.Data.Finset.Card
import Mathlib.Data.List.Lex
import Postvec.Registry.Index

/-!
# Startup admission: the closure of the model roots

`closure_of` of the server and `resident_closure` of the embedded engine walk the dependencies of
the models that a startup names, before anything is loaded. The two walks are one (`visit`); they
differ in how a descriptor is read, in the ceiling, in the texts of their refusals, and in that the
embedded engine takes every enabled model when no list is given.

A file is read by a parameter (`parse`): what the file says, or why it cannot be read.
-/

namespace Postvec.Engine.Admission

/-! ## 1. Descriptors -/

def maxDependencyDepth : Nat := 32

/-- The ceiling of the embedded engine. -/
def maxScanLoadedModels : Nat := 16

structure Descriptor where
  name : Text
  enabled : Bool
  dependencies : List Text
deriving DecidableEq

variable {P : Type}

/-- Model names in ascending order, each with the paths of its descriptors. -/
structure DescriptorIndex (P : Type) where
  entries : List (Text × List P)
  sorted : entries.Pairwise fun a b => a.1 < b.1

def DescriptorIndex.get (index : DescriptorIndex P) (name : Text) : Option (List P) :=
  (index.entries.find? fun e => e.1 == name).map Prod.snd

inductive Refusal (P : Type) where
  | depth (name : Text)
  | cycle (name : Text)
  | ceiling (ceiling : Nat) (name : Text)
  | missing (name : Text)
  | multiple (name : Text)
  /-- the text of the reader -/
  | unreadable (detail : Text)
  | misnamed (path : P) (found name : Text)
  | disabled (path : P) (name : Text)
  /-- the scan without a list found an enabled name twice -/
  | enabledTwice (name : Text)
deriving DecidableEq

section messages

variable (quoted : Text → String) (display : P → String)

def Refusal.message : Refusal P → String
  | .depth n =>
    "dependency chain under " ++ quoted n ++ " exceeds depth " ++ toString maxDependencyDepth
  | .cycle n => "dependency cycle reaches model " ++ quoted n
  | .ceiling c n => "model roots plus dependencies exceed the resident ceiling of " ++ toString c ++
      " (first overflow at " ++ quoted n ++ "); shorten --models or raise --max-resident-models"
  | .missing n => "model " ++ quoted n ++ " has no descriptor under models/<backend>/"
  | .multiple n | .enabledTwice n =>
    "model " ++ quoted n ++ " exists under multiple backends; remove the duplicate directory"
  | .unreadable d => String.ofList d
  | .misnamed p s n =>
    display p ++ " names model " ++ quoted s ++ ", but its directory is " ++ quoted n
  | .disabled p n => "model " ++ quoted n ++ " is deactivated in " ++ display p ++
      "; run `postvec model activate " ++ String.ofList n ++ "`"

/-- The texts of the embedded engine. -/
def Refusal.residentMessage : Refusal P → String
  | .ceiling c n => "embedded model roots plus dependencies exceed the resident ceiling of " ++
      toString c ++ " (first overflow at " ++ quoted n ++
      "); reduce postvec.embedded_models or unload model assets"
  | .multiple n => "model " ++ quoted n ++ " exists under multiple backends; remove the duplicate"
  | .enabledTwice n =>
    "enabled model " ++ quoted n ++ " exists under multiple backends; remove the duplicate"
  | .disabled p n => "explicit embedded model " ++ quoted n ++ " is disabled in " ++ display p ++
      "; run `postvec model activate " ++ String.ofList n ++
      "` (or drop it from postvec.embedded_models)"
  | r => r.message quoted display

end messages

/-- `read_descriptor` of the server, over what the file says. -/
def readDescriptor (emptyName : P → Text) (parse : P → Except Text Descriptor) (path : P) :
    Except Text Descriptor := do
  let descriptor ← parse path
  if (Registry.trim descriptor.name).isEmpty then .error (emptyName path) else .ok descriptor

/-! ## 2. The walk -/

structure Closure where
  planned : Finset Text
  disabled : Finset Text
deriving DecidableEq

/-- The sets of a walk. -/
structure Walk where
  visiting : Finset Text
  closure : Closure

section walk

variable (read : P → Except Text Descriptor) (index : DescriptorIndex P)

/-- The descriptor of a name, with its path: there is one, it can be read and has the name. -/
def descriptorOf (name : Text) : Except (Refusal P) (P × Descriptor) :=
  match index.get name with
  | none => .error (.missing name)
  | some [path] =>
    match read path with
    | .error detail => .error (.unreadable detail)
    | .ok d => if d.name ≠ name then .error (.misnamed path d.name name) else .ok (path, d)
  | some _ => .error (.multiple name)

/-- The loop over the roots, and over the dependencies of a model. -/
def visitAll (visit : Text → Walk → Except (Refusal P) Walk) :
    List Text → Walk → Except (Refusal P) Walk
  | [], w => .ok w
  | name :: names, w =>
    match visit name w with
    | .error e => .error e
    | .ok w' => visitAll visit names w'

/-- One model. `left` is what is left of the depth: the source counts it from 0 and refuses what is
    deeper than `maxDependencyDepth`. -/
def visit (ceiling : Nat) (left : Nat) (isRoot : Bool) (name : Text) (w : Walk) :
    Except (Refusal P) Walk :=
  if name ∈ w.closure.planned then .ok w
  else
    match left with
    | 0 => .error (.depth name)
    | left + 1 =>
      if name ∈ w.visiting then .error (.cycle name)
      else if (insert name w.visiting).card + w.closure.planned.card > ceiling then
        .error (.ceiling ceiling name)
      else
        match descriptorOf read index name with
        | .error e => .error e
        | .ok (path, d) =>
          if isRoot && !d.enabled then .error (.disabled path name)
          else
            let noted := if d.enabled then w.closure.disabled else insert name w.closure.disabled
            match visitAll (visit ceiling left false) d.dependencies
                ⟨insert name w.visiting, { w.closure with disabled := noted }⟩ with
            | .error e => .error e
            | .ok w' => .ok ⟨w'.visiting.erase name,
                { w'.closure with planned := insert name w'.closure.planned }⟩

/-- The walk from the roots. -/
def walk (ceiling : Nat) (roots : List Text) : Except (Refusal P) Closure :=
  (visitAll (visit read index ceiling (maxDependencyDepth + 1) true) roots ⟨∅, ∅, ∅⟩).map
    Walk.closure

end walk

def closureOf (emptyName : P → Text) (parse : P → Except Text Descriptor)
    (index : DescriptorIndex P)
    (roots : List Text) (ceiling : Nat) : Except (Refusal P) Closure :=
  walk (readDescriptor emptyName parse) index ceiling roots

/-- Without a list: the names with an enabled descriptor. -/
def enabledRoots (parse : P → Except Text Descriptor) :
    List (Text × List P) → Except (Refusal P) (List Text)
  | [] => .ok []
  | (name, paths) :: entries =>
    let enabled := paths.any fun path => (parse path).toOption.any Descriptor.enabled
    if enabled && paths.length ≠ 1 then .error (.enabledTwice name)
    else do
      let roots ← enabledRoots parse entries
      .ok (if enabled then name :: roots else roots)

def residentClosure (parse : P → Except Text Descriptor) (index : DescriptorIndex P)
    (explicit : List Text) : Except (Refusal P) Closure :=
  if explicit.isEmpty then do
    let roots ← enabledRoots parse index.entries
    walk parse index maxScanLoadedModels roots
  else walk parse index maxScanLoadedModels explicit

end Postvec.Engine.Admission
