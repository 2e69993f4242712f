import SqlDispatch.NodeId
import SqlDispatch.Text.Split

set_option autoImplicit false

/-!
Execution targets, the part of the cluster that a statement runs on, and their text. A target is
written as a word, or as a word and what it applies to with a colon between them. Reading is freer
than writing: case of the word, blanks around the parts and empty items of a list do not matter.
-/

namespace SqlDispatch

open Text

inductive Target where
  | cluster
  | localNode
  | servers
  | clients
  | dataNodes (cache : String)
  | nodes (ids : List NodeId)
  | attribute (name value : String)
  deriving DecidableEq

inductive TargetFault where
  | unknown (text : String)
  | invalidNode (item : String)
  | noNodes
  | noValue
  deriving DecidableEq, Repr

def TargetFault.message : TargetFault → String
  | .unknown text => "unknown execution target '" ++ text ++ "'"
  | .invalidNode item => "invalid node id '" ++ item ++ "'"
  | .noNodes => "execution target 'nodes:' needs at least one node id"
  | .noValue => "execution target 'attr:' expects name=value"

namespace Target

def display : Target → String
  | .cluster => "cluster"
  | .localNode => "local"
  | .servers => "servers"
  | .clients => "clients"
  | .dataNodes cache => "data-nodes:" ++ cache
  | .nodes ids => .ofList ("nodes:".toList ++ [','].intercalate (ids.map NodeId.display))
  | .attribute name value => "attr:" ++ name ++ "=" ++ value

def ofWord (word : String) : Option Target :=
  if word = "cluster" ∨ word = "all" then some .cluster
  else if word = "local" then some .localNode
  else if word = "servers" then some .servers
  else if word = "clients" then some .clients
  else none

def readNode (item : List Char) : Except TargetFault NodeId :=
  match NodeId.read item with
  | some id => .ok id
  | none => .error (.invalidNode (.ofList item))

/-- A list with commas, in which blank items do not count. -/
def readNodes (cs : List Char) : Except TargetFault Target := do
  let items := ((cs.splitOn ',').map strip).filter (· ≠ [])
  match ← items.mapM readNode with
  | [] => .error .noNodes
  | ids => .ok (.nodes ids)

def readAttribute (cs : List Char) : Except TargetFault Target :=
  match splitAtFirst '=' cs with
  | none => .error .noValue
  | some (name, value) => .ok (.attribute (.ofList (strip name)) (.ofList (strip value)))

def read (text : String) : Except TargetFault Target :=
  let cs := strip text.toList
  let unknown := .error (.unknown (.ofList cs))
  match splitAtFirst ':' cs with
  | none => (ofWord (lower (.ofList cs))).elim unknown .ok
  | some (word, rest) =>
    let kind := lower (.ofList word)
    let rest := strip rest
    if kind = "data-nodes" ∧ rest ≠ [] then .ok (.dataNodes (.ofList rest))
    else if kind = "nodes" then readNodes rest
    else if kind = "attr" then readAttribute rest
    else unknown

def Bare (text : String) : Prop :=
  text.toList.head?.any isBlank = false ∧ text.toList.getLast?.any isBlank = false

def WellFormed : Target → Prop
  | .dataNodes cache => cache ≠ "" ∧ Bare cache
  | .nodes ids => ids ≠ []
  | .attribute name value => '=' ∉ name.toList ∧ Bare name ∧ Bare value
  | _ => True

instance (target : Target) : Decidable target.WellFormed := by
  cases target <;> simp only [WellFormed, Bare] <;> infer_instance

end Target

end SqlDispatch
