import StatementForest.Data.Parse
import StatementForest.Data.Read
import StatementForest.Failure
import StatementForest.Grammar.Basic

/-!
# The written form of grammars

A grammar is a record with the member `statements`, which holds the four lists of
each statement under the name of the statement.
-/

namespace StatementForest
namespace Cardinalities

/-- The names of the four lists. -/
def fieldNames : List String :=
  ["mandatorySingleton", "mandatoryMultiple", "optionalSingleton", "optionalMultiple"]

/-- What a reader of the lists looks at. -/
def shape : Shape := .record (fieldNames.map (·, .list .scalar))

/-- Read the lists of one statement. -/
def ofData? (format : Format) (d : Data) : Option Cardinalities := do
  let members ← d.asRecord? format fieldNames 0
  return {
    mandatorySingleton := ← Data.defaulted? Data.asTexts? [] members "mandatorySingleton"
    mandatoryMultiple := ← Data.defaulted? Data.asTexts? [] members "mandatoryMultiple"
    optionalSingleton := ← Data.defaulted? Data.asTexts? [] members "optionalSingleton"
    optionalMultiple := ← Data.defaulted? Data.asTexts? [] members "optionalMultiple" }

/-- Write the lists of one statement. -/
def toData (c : Cardinalities) : Data :=
  .record [("mandatorySingleton", .ofTexts c.mandatorySingleton),
    ("mandatoryMultiple", .ofTexts c.mandatoryMultiple),
    ("optionalSingleton", .ofTexts c.optionalSingleton),
    ("optionalMultiple", .ofTexts c.optionalMultiple)]

end Cardinalities

namespace Grammar

/-- What a reader of a grammar looks at. -/
def shape : Shape := .record [("statements", .dictionary Cardinalities.shape)]

/-- Read a grammar of a format. -/
def ofData? (format : Format) (d : Data) : Option Grammar := do
  let members ← d.asRecord? format ["statements"] 0
  return ⟨← Data.defaulted? (Data.asDictionary? (Cardinalities.ofData? format))
    Dictionary.empty members "statements"⟩

/-- Write a grammar. -/
def toData (g : Grammar) : Data :=
  .record [("statements", .record (g.statements.entries.map fun e => (e.1, e.2.toData)))]

/-- Read a grammar of a format. -/
def ofText (format : Format) (text : String) : Except Failure Grammar :=
  match (format.parse shape text).bind (ofData? format) with
  | some g => .ok g
  | none => .error (.grammar (.malformed "not a grammar"))

end Grammar

end StatementForest
