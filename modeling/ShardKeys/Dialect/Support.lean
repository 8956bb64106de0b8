import ShardKeys.Dialect.Basic

/-!
Operations that a database may be unable to perform. They are refused before anything is written.
-/

namespace ShardKeys

/-- An operation that was refused. -/
inductive UnsupportedOperation where
  | addForeignKey (name : String)
  | alterPrimaryKey (table : String)
  | bulkInsert (tables : List String)
  deriving DecidableEq, Repr

namespace UnsupportedOperation

def operation : UnsupportedOperation → String
  | addForeignKey name => "add foreign key " ++ name
  | alterPrimaryKey table => "alter primary key of " ++ table
  | bulkInsert tables => "bulk insert into [" ++ ", ".intercalate tables ++ "]"

def reason : UnsupportedOperation → String
  | addForeignKey _ => "foreign key constraints are not supported by the target database"
  | alterPrimaryKey _ => "the primary key of an existing table cannot be changed"
  | bulkInsert _ => "multi-table bulk inserts are not supported by the target database"

end UnsupportedOperation

namespace Dialect

def requireForeignKeys (d : Dialect) (name : String) : Except UnsupportedOperation Unit :=
  if d.capabilities.foreignKeys then .ok () else .error (.addForeignKey name)

/-- No database can change the primary key of a table that exists. -/
def requireKeyChange (_ : Dialect) (table : String) : Except UnsupportedOperation Unit :=
  .error (.alterPrimaryKey table)

def requireBulkInsert (d : Dialect) (tables : List String) : Except UnsupportedOperation Unit :=
  if d.capabilities.bulkInsert then .ok () else .error (.bulkInsert tables)

end Dialect

end ShardKeys
