import GSDBEngine.Spec.Value

/-!
# Schemas

The records of `schema.h` that the catalog keeps.
-/

namespace GSDBEngine

inductive ColumnType where
  | INT
  | FLOAT
  | BOOLEAN
  | VARCHAR
  deriving DecidableEq

structure Column where
  name : Bytes
  type : ColumnType
  max_length : UInt32
  is_nullable : Bool
  is_primary_key : Bool
  auto_increment : Bool
  has_default : Bool
  default_value : Value
  /-- without a DEFAULT clause the value is left as it is initialised -/
  no_default : has_default = false → default_value = .null
  deriving DecidableEq

inductive CheckOp where
  | EQ
  | NEQ
  | LT
  | GT
  | LTE
  | GTE
  deriving DecidableEq

structure CheckConstraint where
  column_index : UInt32
  op : CheckOp
  operand : Value
  deriving DecidableEq

inductive FkOnDelete where
  | RESTRICT
  | CASCADE
  deriving DecidableEq

structure ForeignKeyConstraint where
  /-- this table's columns -/
  column_indices : List UInt32
  ref_table : Bytes
  /-- the parent's columns, in the same order -/
  ref_column_indices : List UInt32
  on_delete : FkOnDelete
  /-- the index on `column_indices` -/
  child_index_name : Bytes
  /-- the index that the parent is looked up with; empty for its primary key -/
  ref_index_name : Bytes
  deriving DecidableEq

structure TableSchema where
  name : Bytes
  columns : List Column
  root_page : UInt32
  primary_key_indices : List UInt32
  checks : List CheckConstraint
  foreign_keys : List ForeignKeyConstraint
  create_sql : Bytes
  deriving DecidableEq

/-- `column_index`: the first column of the name. -/
def TableSchema.column_index (schema : TableSchema) (col_name : Bytes) : Option ℕ :=
  schema.columns.findIdx? fun col => col.name = col_name

structure IndexSchema where
  name : Bytes
  table_name : Bytes
  column_names : List Bytes
  root_page : UInt32
  is_unique : Bool
  deriving DecidableEq

end GSDBEngine
