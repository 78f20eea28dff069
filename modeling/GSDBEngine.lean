import GSDBEngine.Proof.Shape
import GSDBEngine.Proof.ShortWrite
import GSDBEngine.Proof.PowerLoss
import GSDBEngine.Proof.Catalog
import GSDBEngine.Proof.Table
import GSDBEngine.Proof.Database
import GSDBEngine.Proof.Restrict
import GSDBEngine.Proof.Join
import GSDBEngine.Proof.Index
import GSDBEngine.Proof.Redistribute
import GSDBEngine.Proof.OrderBy
import GSDBEngine.Proof.AutoIncrement
import GSDBEngine.Proof.Covering
import GSDBEngine.Proof.GroupBy
import GSDBEngine.Proof.Tokenizer
import GSDBEngine.Proof.RoundTrip
import GSDBEngine.Proof.Reprint
import GSDBEngine.Proof.Like
import GSDBEngine.Proof.Numerals
import GSDBEngine.Proof.Terminator
import GSDBEngine.Proof.InPlace
import GSDBEngine.Proof.NodeBytes
import GSDBEngine.Proof.Check
import GSDBEngine.Proof.JoinColumns
import GSDBEngine.Proof.OnPool
import GSDBEngine.Proof.Calls
import GSDBEngine.Proof.IndexScan
import GSDBEngine.Proof.Statements
import GSDBEngine.Lib.SideBySide
import GSDBEngine.Proof.ExecuteSelect
import GSDBEngine.Proof.Subqueries
