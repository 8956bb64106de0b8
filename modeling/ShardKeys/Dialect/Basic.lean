/-!
Dialects: the SQL surface that statements are written for, and what the database behind it can do.
-/

namespace ShardKeys

/-- A SQL surface of the database. -/
inductive Surface where
  | googleSql
  | postgreSql
  deriving DecidableEq, Repr, Inhabited

/-- What a database can do. -/
structure Capabilities where
  /-- Foreign keys can be added to a table. -/
  foreignKeys : Bool := true
  /-- One insert may fill several tables. -/
  bulkInsert : Bool := false
  /-- Schema changes may be grouped in batches. -/
  batches : Bool := true
  deriving DecidableEq, Repr, Inhabited

structure Dialect where
  surface : Surface := .googleSql
  capabilities : Capabilities := {}
  deriving DecidableEq, Repr, Inhabited

end ShardKeys
