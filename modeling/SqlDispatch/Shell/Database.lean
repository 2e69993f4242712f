import SqlDispatch.Engine

set_option autoImplicit false

/-!
The engine of the shell: a single node that is a database. Which names a database can be opened by,
and what a statement does to it, is up to the library for databases.
-/

namespace SqlDispatch.Shell

structure Library (Database : Type) where
  opening : String → Option Database
  /-- Evaluates a statement, as far as its limit on time and a request to shut down let it. -/
  evaluate : Database → Call → Answer × Database

def connectMessage (dsn : String) : String := "failed to open database '" ++ dsn ++ "'"

def nodeOf (id : NodeId) (dsn : String) : Node where
  id := id
  consistentId := dsn
  addresses := [dsn]
  isLocal := true
  isClient := false
  attributes := [("engine", "sqlite")]

def Library.engine {Database : Type} (library : Library Database) (id : NodeId) (dsn : String) :
    Engine Database :=
  .singleNode (nodeOf id dsn) library.evaluate

end SqlDispatch.Shell
